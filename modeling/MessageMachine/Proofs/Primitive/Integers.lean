import Mathlib.Data.Int.Bitwise
import MessageMachine.Proofs.Send.Special
import MessageMachine.Proofs.Value.Word

/-!
# Integer primitives are exact

The integer primitives compute in 64 bits, with divisions that round toward zero and are corrected
afterwards, and their answers have to fit the 63 bits of a small integer.  `Primitive.exact` says
what they are to compute, in unbounded integers.

* `Arithmetic.floorDiv_eq_fdiv` and `Arithmetic.floorMod_eq_fmod`: a corrected division is the one
  that rounds down, for all 64-bit integers; `Arithmetic.noOverflow` says that none of its steps
  leaves the 64 bits.
* `Primitive.operation_eq_some`: an operation has a small result exactly if the exact result is
  small, and then it is that.
* `Machine.tryPrimitive_exact`: so a primitive answers the exact result if that is small and
  declines otherwise.
-/

namespace MessageMachine

namespace Arithmetic

variable {a b n : Int}

theorem isWord_iff : IsWord n ↔ -2 ^ 63 ≤ n ∧ n < 2 ^ 63 := by
  have hmin : minWord = -2 ^ 63 := by decide
  have hmax : maxWord = 2 ^ 63 - 1 := by decide
  unfold IsWord
  rw [hmin, hmax]
  omega

theorem checked_eq_some {r : Int} : checked n = some r ↔ IsWord n ∧ n = r := by
  unfold checked
  split
  · next hn => simp [hn]
  · next hn => simp [hn]

theorem wrapped_of_isWord (hn : IsWord n) : wrapped n = n := by
  obtain ⟨hlow, hhigh⟩ := isWord_iff.mp hn
  unfold wrapped
  rw [BitVec.toInt_ofInt]
  exact Int.bmod_eq_of_le (by omega) (by omega)

/-! ## Division -/

theorem natAbs_tmod_lt (hb : b ≠ 0) : (a.tmod b).natAbs < b.natAbs := by
  rw [Int.natAbs_tmod]
  exact Nat.mod_lt _ (Int.natAbs_pos.mpr hb)

theorem tmod_sign (a b : Int) : a.tmod b = 0 ∨ (a.tmod b < 0 ↔ a < 0) := by
  rcases Int.le_total 0 a with ha | ha
  · have := Int.tmod_nonneg b ha
    omega
  · have := Int.tmod_nonneg b (show 0 ≤ -a by omega)
    rw [Int.neg_tmod] at this
    by_cases hzero : a = 0
    · exact .inl (by rw [hzero, Int.zero_tmod])
    · omega

theorem isWord_tmod (ha : IsWord a) : IsWord (a.tmod b) := by
  have hle : (a.tmod b).natAbs ≤ a.natAbs := by
    rw [Int.natAbs_tmod]
    exact Nat.mod_le _ _
  have hsign := tmod_sign a b
  rw [isWord_iff] at ha ⊢
  omega

/-- The quotient is no larger than the dividend, and only `minWord / -1` would be one too large. -/
theorem isWord_tdiv (ha : IsWord a) (hdivided : ¬Undivided a b) : IsWord (a.tdiv b) := by
  obtain ⟨hb, hmin⟩ := not_or.mp hdivided
  rw [isWord_iff] at ha ⊢
  by_cases hone : b = 1
  · rw [hone, Int.tdiv_one]
    exact ha
  by_cases hminus : b = -1
  · have hne : a ≠ -2 ^ 63 := fun heq => hmin ⟨heq, hminus⟩
    rw [hminus, Int.tdiv_neg, Int.tdiv_one]
    omega
  by_cases hzero : a = 0
  · rw [hzero, Int.zero_tdiv]
    omega
  · have hlt : (a.tdiv b).natAbs < a.natAbs := by
      rw [Int.natAbs_tdiv]
      exact Nat.div_lt_self (Int.natAbs_pos.mpr hzero) (by omega)
    omega

/-- The two corrections come at the same time, and take a truncated division to the one that rounds
down. -/
theorem floor_division (hb : b ≠ 0) :
    a.fdiv b = (if a.tmod b ≠ 0 ∧ ¬(a < 0 ↔ b < 0) then a.tdiv b - 1 else a.tdiv b) ∧
      a.fmod b =
        if a.tmod b ≠ 0 ∧ ¬(a.tmod b < 0 ↔ b < 0) then a.tmod b + b else a.tmod b := by
  have hsum : b * a.tdiv b + a.tmod b = a := Int.mul_tdiv_add_tmod a b
  have hlt := natAbs_tmod_lt (a := a) hb
  have hsign := tmod_sign a b
  have hless : b * (a.tdiv b - 1) = b * a.tdiv b - b := by rw [Int.mul_sub, Int.mul_one]
  rcases Int.lt_or_gt_of_ne hb with hneg | hpos
  · refine (Int.fdiv_fmod_unique' hneg).mpr ?_
    split <;> split <;> omega
  · refine (Int.fdiv_fmod_unique hpos).mpr ?_
    split <;> split <;> omega

/-- The steps of a division that rounds down stay within 64 bits. -/
structure NoOverflow (a b : Int) : Prop where
  quotient : IsWord (a.tdiv b)
  remainder : IsWord (a.tmod b)
  less : a.tmod b ≠ 0 → ¬(a < 0 ↔ b < 0) → IsWord (a.tdiv b - 1)
  moved : a.tmod b ≠ 0 → ¬(a.tmod b < 0 ↔ b < 0) → IsWord (a.tmod b + b)

theorem noOverflow (ha : IsWord a) (hb : IsWord b) (hdivided : ¬Undivided a b) :
    NoOverflow a b := by
  have hzero : b ≠ 0 := fun heq => hdivided (.inl heq)
  have hquotient := isWord_tdiv ha hdivided
  have hremainder := isWord_tmod (b := b) ha
  have hlt := natAbs_tmod_lt (a := a) hzero
  refine ⟨hquotient, hremainder, ?_, ?_⟩
  · -- a remainder leaves room: the divisor is not one, so the quotient is less than the dividend
    intro hrest hsigns
    have hdividend : a ≠ 0 := fun heq => hrest (by rw [heq, Int.zero_tmod])
    have hsmaller : (a.tdiv b).natAbs < a.natAbs := by
      rw [Int.natAbs_tdiv]
      exact Nat.div_lt_self (Int.natAbs_pos.mpr hdividend) (by omega)
    rw [isWord_iff] at ha ⊢
    omega
  · intro hrest hsigns
    rw [isWord_iff] at hremainder hb ⊢
    omega

theorem floorDiv_eq_fdiv (ha : IsWord a) (hb : IsWord b) (hdivided : ¬Undivided a b) :
    floorDiv a b = some (a.fdiv b) := by
  have hsteps := noOverflow ha hb hdivided
  have hzero : b ≠ 0 := fun heq => hdivided (.inl heq)
  unfold floorDiv quotient
  rw [if_neg hdivided, (floor_division hzero).1]
  dsimp only [Option.bind_eq_bind, Option.bind_some]
  split
  · next hcorrected =>
    rw [wrapped_of_isWord (hsteps.less hcorrected.1 hcorrected.2)]
    rfl
  · rfl

theorem floorMod_eq_fmod (ha : IsWord a) (hb : IsWord b) (hdivided : ¬Undivided a b) :
    floorMod a b = some (a.fmod b) := by
  have hsteps := noOverflow ha hb hdivided
  have hzero : b ≠ 0 := fun heq => hdivided (.inl heq)
  unfold floorMod remainder
  rw [if_neg hdivided, (floor_division hzero).2]
  dsimp only [Option.bind_eq_bind, Option.bind_some]
  split
  · next hcorrected =>
    rw [wrapped_of_isWord (hsteps.moved hcorrected.1 hcorrected.2)]
    rfl
  · rfl

theorem floorDiv_eq_none (hundivided : Undivided a b) : floorDiv a b = none := by
  unfold floorDiv quotient
  rw [if_pos hundivided]
  rfl

theorem floorMod_eq_none (hundivided : Undivided a b) : floorMod a b = none := by
  unfold floorMod remainder
  rw [if_pos hundivided]
  rfl

/-- The remainder of a division that rounds down has the sign of the divisor. -/
theorem fmod_sign (a : Int) (hb : b ≠ 0) :
    0 ≤ a.fmod b ∧ a.fmod b < b ∨ b < a.fmod b ∧ a.fmod b ≤ 0 := by
  rcases Int.lt_or_gt_of_ne hb with hneg | hpos
  · exact .inr ((Int.fdiv_fmod_unique' hneg).mp ⟨rfl, rfl⟩).2
  · exact .inl ((Int.fdiv_fmod_unique hpos).mp ⟨rfl, rfl⟩).2

/-! ## Bits -/

theorem getLsbD_ofInt (n : Int) (k : Nat) :
    (BitVec.ofInt 64 n).getLsbD k = (decide (k < 64) && n.testBit k) := by
  cases n with
  | ofNat m =>
      rw [Int.ofNat_eq_natCast, BitVec.ofInt_natCast, BitVec.getLsbD_ofNat]
      rfl
  | negSucc m =>
      rw [BitVec.ofInt_negSucc_eq_not_ofNat, BitVec.getLsbD_not, BitVec.getLsbD_ofNat]
      by_cases hk : k < 64
      · simp [hk, Int.testBit]
      · simp [hk]

/-- From bit 63 on, the bits of a number below `2 ^ 63` are the same. -/
theorem lt_iff_testBit (m : Nat) :
    m < 2 ^ 63 ↔ ∀ k, 63 ≤ k → m.testBit k = m.testBit 63 := by
  constructor
  · intro hm k hk
    rw [Nat.testBit_lt_two_pow hm,
      Nat.testBit_lt_two_pow (Nat.lt_of_lt_of_le hm (Nat.pow_le_pow_right (by decide) hk))]
  · intro hsame
    -- a bit beyond the number is not set, so none from 63 on is
    have hbeyond : m < 2 ^ (m + 63) := Nat.lt_of_le_of_lt (Nat.le_add_right m 63) Nat.lt_two_pow_self
    have hunset : m.testBit 63 = false := by
      rw [← hsame (m + 63) (by omega), Nat.testBit_lt_two_pow hbeyond]
    exact Nat.lt_pow_two_of_testBit m fun k hk => (hsame k hk).trans hunset

/-- A 64-bit integer is one whose bits are those of its sign from bit 63 on. -/
theorem isWord_iff_testBit : IsWord n ↔ ∀ k, 63 ≤ k → n.testBit k = n.testBit 63 := by
  cases n with
  | ofNat m =>
      rw [isWord_iff, Int.ofNat_eq_natCast]
      refine Iff.trans ?_ (lt_iff_testBit m)
      omega
  | negSucc m =>
      have hnot : ∀ k, (Int.negSucc m).testBit k = !m.testBit k := fun _ => rfl
      simp only [hnot, Bool.not_inj_iff]
      rw [isWord_iff, Int.negSucc_eq]
      refine Iff.trans ?_ (lt_iff_testBit m)
      omega

theorem bitAnd_eq_land (ha : IsWord a) (hb : IsWord b) : bitAnd a b = a.land b := by
  have hword : IsWord (a.land b) := isWord_iff_testBit.mpr fun k hk => by
    rw [Int.testBit_land, Int.testBit_land, isWord_iff_testBit.mp ha k hk,
      isWord_iff_testBit.mp hb k hk]
  have hbits : BitVec.ofInt 64 a &&& BitVec.ofInt 64 b = BitVec.ofInt 64 (a.land b) := by
    refine BitVec.eq_of_getLsbD_eq fun k hk => ?_
    rw [BitVec.getLsbD_and, getLsbD_ofInt, getLsbD_ofInt, getLsbD_ofInt, Int.testBit_land]
    simp [hk]
  unfold bitAnd
  rw [hbits]
  exact wrapped_of_isWord hword

theorem bitOr_eq_lor (ha : IsWord a) (hb : IsWord b) : bitOr a b = a.lor b := by
  have hword : IsWord (a.lor b) := isWord_iff_testBit.mpr fun k hk => by
    rw [Int.testBit_lor, Int.testBit_lor, isWord_iff_testBit.mp ha k hk,
      isWord_iff_testBit.mp hb k hk]
  have hbits : BitVec.ofInt 64 a ||| BitVec.ofInt 64 b = BitVec.ofInt 64 (a.lor b) := by
    refine BitVec.eq_of_getLsbD_eq fun k hk => ?_
    rw [BitVec.getLsbD_or, getLsbD_ofInt, getLsbD_ofInt, getLsbD_ofInt, Int.testBit_lor]
    simp [hk]
  unfold bitOr
  rw [hbits]
  exact wrapped_of_isWord hword

/-! ## Shifts -/

/-- Nothing but the sign is left of a 64-bit integer after a shift by 63 places or more. -/
theorem ediv_two_pow (ha : IsWord a) {k : Nat} (hk : 63 ≤ k) :
    a / (2 ^ k : Nat) = if a < 0 then -1 else 0 := by
  have hpow : 2 ^ 63 ≤ 2 ^ k := Nat.pow_le_pow_right (by decide) hk
  have hpos : (0 : Int) < (2 ^ k : Nat) := by omega
  obtain ⟨hlow, hhigh⟩ := isWord_iff.mp ha
  split
  · exact ((Int.ediv_emod_unique (r := a + (2 ^ k : Nat)) hpos).mpr (by omega)).1
  · exact Int.ediv_eq_zero_of_lt (by omega) (by omega)

theorem shift_right (ha : IsWord a) (hb : b < 0) : shift a b = some (a.fdiv (2 ^ b.natAbs)) := by
  have hplaces : a / (2 ^ min b.natAbs 63 : Nat) = a / (2 ^ b.natAbs : Nat) := by
    by_cases hfew : b.natAbs ≤ 63
    · rw [Nat.min_eq_left hfew]
    · rw [Nat.min_eq_right (by omega), ediv_two_pow ha (Nat.le_refl 63), ediv_two_pow ha (by omega)]
  unfold shift
  rw [if_neg (Int.not_le.mpr hb), Int.shiftRight_eq_div_pow, hplaces,
    Int.fdiv_eq_ediv_of_nonneg a (Int.pow_nonneg (by decide))]
  norm_cast

/-- A shift to the left answers nothing but the product, and answers that if it is less than
`2 ^ 63`. -/
theorem shift_left (hb : 0 ≤ b) {r : Int} (hr : -2 ^ 63 < r ∧ r < 2 ^ 63) :
    shift a b = some r ↔ a * 2 ^ b.toNat = r := by
  unfold shift
  rw [if_pos hb]
  have hshift : a * ((1 <<< b.toNat : Nat) : Int) = a * 2 ^ b.toNat := by
    rw [Nat.one_shiftLeft]
    norm_cast
  rw [hshift]
  by_cases hzero : a = 0
  · rw [if_pos hzero, hzero, Int.zero_mul, Option.some_inj]
  · rw [if_neg hzero]
    by_cases hfar : 63 ≤ b
    · rw [if_pos hfar]
      have hpow : 2 ^ 63 ≤ 2 ^ b.toNat := Nat.pow_le_pow_right (by decide) (by omega)
      have hlarge : 2 ^ 63 ≤ (a * 2 ^ b.toNat).natAbs := by
        rw [Int.natAbs_mul, Int.natAbs_pow]
        exact Nat.le_trans hpow (Nat.le_mul_of_pos_left _ (Int.natAbs_pos.mpr hzero))
      constructor
      · intro hnone
        cases hnone
      · omega
    · rw [if_neg hfar, checked_eq_some]
      refine and_iff_right_of_imp fun heq => isWord_iff.mpr ?_
      omega

end Arithmetic

/-! ## Exact results -/

/-- The integers that are values. -/
def IsSmall (n : Int) : Prop := -2 ^ 62 ≤ n ∧ n < 2 ^ 62

instance (n : Int) : Decidable (IsSmall n) :=
  inferInstanceAs (Decidable (-2 ^ 62 ≤ n ∧ n < 2 ^ 62))

theorem IsSmall.isWord {n : Int} (hn : IsSmall n) : Arithmetic.IsWord n := by
  rw [Arithmetic.isWord_iff]
  unfold IsSmall at hn
  omega

theorem IsSmall.ofInt_eq_ok {n : Int} (hn : IsSmall n) : Value.ofInt n = .ok (.int n) := by
  rw [Value.ofInt_eq]
  exact if_pos hn

theorem ofInt_eq_error {n : Int} (hn : ¬IsSmall n) :
    Value.ofInt n = .error (.smallIntOverflow n) := by
  rw [Value.ofInt_eq]
  exact if_neg hn

/-- A small integer is not the one dividend that has no quotient by `-1`. -/
theorem IsSmall.not_undivided {a b : Int} (ha : IsSmall a) (hb : b ≠ 0) :
    ¬Arithmetic.Undivided a b := by
  have hmin : Arithmetic.minWord = -2 ^ 63 := by decide
  unfold IsSmall at ha
  rintro (hzero | ⟨heq, -⟩)
  · exact hb hzero
  · omega

namespace Primitive

variable {p : Primitive} {a b r : Int}

/-- The primitives that compute an integer from two. -/
def integerOperations : List Primitive :=
  [intAdd, intSub, intMul, intDiv, intMod, intBitAnd, intBitOr, intBitShift]

/-- What such a primitive is to compute, if there is such a number: quotients are rounded down, and
so is the product of a shift to the right. -/
def exact : Primitive → Int → Int → Option Int
  | intAdd, a, b => some (a + b)
  | intSub, a, b => some (a - b)
  | intMul, a, b => some (a * b)
  | intDiv, a, b => if b = 0 then none else some (a.fdiv b)
  | intMod, a, b => if b = 0 then none else some (a.fmod b)
  | intBitAnd, a, b => some (a.land b)
  | intBitOr, a, b => some (a.lor b)
  | intBitShift, a, b => some (if 0 ≤ b then a * 2 ^ b.toNat else a.fdiv (2 ^ b.natAbs))
  | _, _, _ => none

/-- What such a primitive computes. -/
def operation : Primitive → Int → Int → Option Int
  | intAdd => Arithmetic.add
  | intSub => Arithmetic.sub
  | intMul => Arithmetic.mul
  | intDiv => Arithmetic.floorDiv
  | intMod => Arithmetic.floorMod
  | intBitAnd => fun a b => some (Arithmetic.bitAnd a b)
  | intBitOr => fun a b => some (Arithmetic.bitOr a b)
  | intBitShift => Arithmetic.shift
  | _ => fun _ _ => none

theorem mem_integerOperations : p ∈ integerOperations ↔ p = intAdd ∨ p = intSub ∨ p = intMul ∨
    p = intDiv ∨ p = intMod ∨ p = intBitAnd ∨ p = intBitOr ∨ p = intBitShift := by
  simp [integerOperations]

theorem run_integerOperation (hp : p ∈ integerOperations)
    (store : MachineM Unit → MachineM Unit) (send : Value → MachineM Unit) :
    p.run store send = Machine.arithmetic p.operation := by
  rcases mem_integerOperations.mp hp with rfl | rfl | rfl | rfl | rfl | rfl | rfl | rfl <;> rfl

theorem arity_integerOperation (hp : p ∈ integerOperations) : p.arity = 1 := by
  rcases mem_integerOperations.mp hp with rfl | rfl | rfl | rfl | rfl | rfl | rfl | rfl <;> rfl

/-- A result that is checked against 64 bits is not refused if it is small. -/
theorem checked_small (hr : IsSmall r) (n : Int) :
    Arithmetic.checked n = some r ↔ some n = some r := by
  rw [Arithmetic.checked_eq_some, Option.some_inj]
  exact and_iff_right_of_imp fun heq => heq ▸ hr.isWord

theorem operation_eq_some (hp : p ∈ integerOperations) (ha : IsSmall a) (hb : IsSmall b)
    (hr : IsSmall r) : p.operation a b = some r ↔ p.exact a b = some r := by
  rcases mem_integerOperations.mp hp with rfl | rfl | rfl | rfl | rfl | rfl | rfl | rfl
  · exact checked_small hr _
  · exact checked_small hr _
  · exact checked_small hr _
  · by_cases hzero : b = 0
    · simp only [operation, exact, if_pos hzero, Arithmetic.floorDiv_eq_none (.inl hzero)]
    · simp only [operation, exact, if_neg hzero,
        Arithmetic.floorDiv_eq_fdiv ha.isWord hb.isWord (ha.not_undivided hzero)]
  · by_cases hzero : b = 0
    · simp only [operation, exact, if_pos hzero, Arithmetic.floorMod_eq_none (.inl hzero)]
    · simp only [operation, exact, if_neg hzero,
        Arithmetic.floorMod_eq_fmod ha.isWord hb.isWord (ha.not_undivided hzero)]
  · simp only [operation, exact, Arithmetic.bitAnd_eq_land ha.isWord hb.isWord]
  · simp only [operation, exact, Arithmetic.bitOr_eq_lor ha.isWord hb.isWord]
  · unfold IsSmall at hr
    by_cases hleft : 0 ≤ b
    · simp only [operation, exact, if_pos hleft, Option.some_inj]
      exact Arithmetic.shift_left hleft (by omega)
    · simp only [operation, exact, if_neg hleft,
        Arithmetic.shift_right ha.isWord (Int.not_le.mp hleft)]

end Primitive

namespace Machine

variable {m : Machine} {p : Primitive} {a b : Int}

/-! ## Answers -/

/-- The receiver and `argc` arguments on the stack are replaced by a value; nothing else changes. -/
structure Answered (m : Machine) (argc : Nat) (v : Value) (m' : Machine) : Prop where
  top : m'.stackValue 0 = .ok v
  rest : ∃ h, Heap.storeField m.regs.activeContext (m.regs.sp - argc) v m.heap = .ok () h ∧
    m' = { m with heap := h, regs := { m.regs with sp := m.regs.sp - argc } }

/-- An answer in the place of operands inside the frame is put there. -/
theorem exists_answered (hbase : 0 < m.regs.stackBase) (hlimit : m.regs.sp < m.regs.stackLimit)
    {argc : Nat} {receiver : Value} (hreceiver : m.stackValue argc = .ok receiver) (v : Value) :
    ∃ m', answer argc v m = .ok true m' ∧ Answered m argc v m' := by
  obtain ⟨hdepth, hfetch⟩ := stackValue_eq_ok hreceiver
  obtain ⟨h, hstore⟩ := Heap.storeField_of_fetchField hfetch v
  have hplace : m.regs.sp - (argc + 1) + 1 = m.regs.sp - argc := by omega
  have hpop := popN_run (argc + 1) m
  rw [if_neg (by omega)] at hpop
  have hpush := push_run v { m with regs := { m.regs with sp := m.regs.sp - (argc + 1) } }
  dsimp only at hpush
  rw [hplace, if_neg (by omega)] at hpush
  have hpushed := hpush.trans (bind_eq_of_ok (onHeap_eq_ok.mpr ⟨h, hstore, rfl⟩))
  have hrun : answer argc v m = .ok true
      { m with heap := h, regs := { m.regs with sp := m.regs.sp - argc } } := by
    unfold answer
    rw [bind_eq_of_ok hpop, bind_eq_of_ok hpushed]
    rfl
  refine ⟨_, hrun, ?_, h, hstore, rfl⟩
  unfold stackValue
  rw [if_neg (by dsimp only; omega)]
  exact liftFault_eq_ok.mpr (Heap.fetchField_storeField hstore)

/-! ## Integer primitives -/

theorem integers_eq_ok (ha : m.stackValue 1 = .ok (.int a)) (hb : m.stackValue 0 = .ok (.int b)) :
    m.integers = .ok (a, b) := by
  unfold integers receiver argument
  rw [ha, hb]
  rfl

theorem arithmetic_run (ha : m.stackValue 1 = .ok (.int a)) (hb : m.stackValue 0 = .ok (.int b))
    (op : Int → Int → Option Int) : arithmetic op m =
      match op a b with
      | some n => (liftM (Value.ofInt n) >>= answer 1 : MachineM Bool) m
      | none => .ok false m := by
  have hread : read (·.integers) m = .ok (a, b) m := read_eq_ok.mpr ⟨integers_eq_ok ha hb, rfl⟩
  unfold arithmetic
  rw [bind_eq_of_ok hread]
  dsimp only
  cases op a b <;> rfl

/-- What an integer operation makes of two integers on the stack: a small result takes their place,
and without one the primitive declines. -/
theorem attempt_arithmetic (hbase : 0 < m.regs.stackBase) (hlimit : m.regs.sp < m.regs.stackLimit)
    (ha : m.stackValue 1 = .ok (.int a)) (hb : m.stackValue 0 = .ok (.int b))
    (op : Int → Int → Option Int) :
    (∀ r, op a b = some r → IsSmall r →
      ∃ m', attempt (arithmetic op) m = .ok true m' ∧ Answered m 1 (.int r) m') ∧
    ((∀ r, op a b = some r → ¬IsSmall r) → attempt (arithmetic op) m = .ok false m) := by
  have hrun := arithmetic_run ha hb op
  constructor
  · intro r hr hsmall
    obtain ⟨m', hanswer, hanswered⟩ := exists_answered hbase hlimit ha (.int r)
    refine ⟨m', ?_, hanswered⟩
    rw [hr] at hrun
    dsimp only at hrun
    rw [hsmall.ofInt_eq_ok] at hrun
    unfold attempt
    rw [hrun.trans hanswer]
  · intro hlarge
    have hdeclines : Declines (arithmetic op) m m := by
      unfold Declines
      rw [hrun]
      cases hr : op a b with
      | none => exact ⟨rfl, rfl⟩
      | some r =>
          dsimp only
          rw [ofInt_eq_error (hlarge r hr)]
          exact ⟨rfl, rfl⟩
    exact attempt_eq_false.mpr ⟨m, hdeclines, rfl⟩

theorem tryPrimitive_integerOperation (hp : p ∈ Primitive.integerOperations)
    (store : MachineM Unit → MachineM Unit) (send : Value → MachineM Unit) :
    tryPrimitive store send p.number 1 = attempt (arithmetic p.operation) := by
  unfold tryPrimitive
  rw [Primitive.ofNumber?_number]
  dsimp only
  rw [if_pos (Primitive.arity_integerOperation hp), Primitive.run_integerOperation hp]

/-- The integer primitives answer the exact result if it is small and decline otherwise, whatever
the two small integers on the stack, and the divisions they are made from are defined and exact on
all 64-bit integers but for a zero divisor and for the one quotient that does not fit. -/
theorem tryPrimitive_exact :
    (∀ (m : Machine) (store : MachineM Unit → MachineM Unit) (send : Value → MachineM Unit)
        (p : Primitive) (a b : Int),
      p ∈ Primitive.integerOperations → IsSmall a → IsSmall b →
      0 < m.regs.stackBase → m.regs.sp < m.regs.stackLimit →
      m.stackValue 1 = .ok (.int a) → m.stackValue 0 = .ok (.int b) →
      (∀ r, p.exact a b = some r → IsSmall r →
        ∃ m', tryPrimitive store send p.number 1 m = .ok true m' ∧ Answered m 1 (.int r) m') ∧
      ((∀ r, p.exact a b = some r → ¬IsSmall r) →
        tryPrimitive store send p.number 1 m = .ok false m)) ∧
    ∀ a b : Int, Arithmetic.IsWord a → Arithmetic.IsWord b →
      (Arithmetic.Undivided a b →
        Arithmetic.floorDiv a b = none ∧ Arithmetic.floorMod a b = none) ∧
      (¬Arithmetic.Undivided a b → ∃ q r, Arithmetic.floorDiv a b = some q ∧
        Arithmetic.floorMod a b = some r ∧ a = q * b + r ∧ (0 ≤ r ∧ r < b ∨ b < r ∧ r ≤ 0) ∧
        Arithmetic.NoOverflow a b) := by
  constructor
  · intro m store send p a b hp ha hb hbase hlimit hreceiver hargument
    rw [tryPrimitive_integerOperation hp]
    obtain ⟨hanswers, hdeclines⟩ := attempt_arithmetic hbase hlimit hreceiver hargument p.operation
    constructor
    · intro r hr hsmall
      exact hanswers r ((Primitive.operation_eq_some hp ha hb hsmall).mpr hr) hsmall
    · intro hlarge
      refine hdeclines fun r hr hsmall => hlarge r ?_ hsmall
      exact (Primitive.operation_eq_some hp ha hb hsmall).mp hr
  · intro a b ha hb
    constructor
    · intro hundivided
      exact ⟨Arithmetic.floorDiv_eq_none hundivided, Arithmetic.floorMod_eq_none hundivided⟩
    · intro hdivided
      have hzero : b ≠ 0 := fun heq => hdivided (.inl heq)
      refine ⟨a.fdiv b, a.fmod b, Arithmetic.floorDiv_eq_fdiv ha hb hdivided,
        Arithmetic.floorMod_eq_fmod ha hb hdivided, ?_, Arithmetic.fmod_sign a hzero,
        Arithmetic.noOverflow ha hb hdivided⟩
      exact (Int.fdiv_mul_add_fmod a b).symm

/-- A machine with nothing but an active context, with two integers on its stack. -/
def twoIntegers (a b : Int) : Machine :=
  let context : Value := .object ⟨.ephemeral, 0, 0, 0⟩
  let fields : Array Value := #[.int a, .int a, .int a, .int a, .int a, .int a, .int a, .int b]
  let object : Object := ⟨⟨8, 0, .int 0, .live⟩, .fields fields⟩
  let heap : Heap :=
    { (default : Heap) with ephemeral := (Pool.empty .ephemeral 0 10 1).push object }
  { (default : Machine) with
    heap
    regs := { Registers.cleared context context with
      activeContext := context, sp := 7, stackBase := 6, stackLimit := 8 } }

theorem tryPrimitive_exact_division : ∃ m',
    tryPrimitive id (fun _ => pure ()) Primitive.intDiv.number 1 (twoIntegers (-7) 2) =
      .ok true m' ∧ m'.stackValue 0 = .ok (.int (-4)) := by
  obtain ⟨m', hrun, hanswered⟩ := (tryPrimitive_exact.1 (twoIntegers (-7) 2) id (fun _ => pure ())
    .intDiv (-7) 2 (by decide) (by decide) (by decide) (by decide) (by decide) rfl rfl).1 (-4)
    (by decide) (by decide)
  exact ⟨m', hrun, hanswered.top⟩

end Machine

end MessageMachine
