import Mathlib.Tactic.NormNum
import MessageMachine.Proofs.Heap.Access
import MessageMachine.Value.Word

/-!
# The tagged word of a value, read back

A word is `toWord` of at most one value that is in range, and `ofWord` finds it.  The lemmas go from
the inside out: the four parts of a handle share one number below `2 ^ 61`; handle, kind and the
reference bit share one number below `2 ^ 64`; an integer shares its word with a cleared lowest bit,
and two's complement brings its sign back.

`Value.InRange` says that a value has a word of its own: an integer of 63 bits, or a handle whose
parts fit their places.  Everything a word stands for is in range (`inRange_ofWord`), and only the
words of the unused kind 3 are not written for what they stand for (`toWord_ofWord`).
-/

namespace MessageMachine

/-! ## The number of a handle -/

namespace Handle

/-- The bit of a pool. -/
def spaceBit : Space → Nat
  | .ephemeral => 0
  | .root => 1

theorem toNat_eq (a : Handle) :
    a.toNat = spaceBit a.space * 2 ^ 60 + a.epoch * 2 ^ 32 + a.segment * 2 ^ 20 + a.index := by
  unfold toNat
  cases a.space <;> simp [Nat.shiftLeft_eq, spaceBit]

theorem ofNat_eq (n : Nat) :
    ofNat n =
      { space := if n / 2 ^ 60 % 2 = 1 then .root else .ephemeral
        epoch := n / 2 ^ 32 % 2 ^ 28
        segment := n / 2 ^ 20 % 2 ^ 12
        index := n % 2 ^ 20 } := by
  simp [ofNat, Nat.shiftRight_eq_div_pow, Nat.shiftLeft_eq]

/-- The bounds of the parts, as powers of two. -/
theorem inRange_iff {a : Handle} :
    a.InRange ↔ a.epoch < 2 ^ 28 ∧ a.segment < 2 ^ 12 ∧ a.index < 2 ^ 20 := by
  have hepoch : maxEpoch = 2 ^ 28 - 1 := by decide
  have hsegment : maxSegment = 2 ^ 12 - 1 := by decide
  have hindex : maxIndex = 2 ^ 20 - 1 := by decide
  constructor
  · rintro ⟨h₁, h₂, h₃⟩
    omega
  · rintro ⟨h₁, h₂, h₃⟩
    constructor <;> omega

theorem spaceBit_le (s : Space) : spaceBit s ≤ 1 := by
  cases s <;> decide

theorem toNat_lt {a : Handle} (ha : a.InRange) : a.toNat < 2 ^ 61 := by
  obtain ⟨hepoch, hsegment, hindex⟩ := inRange_iff.mp ha
  have hspace := spaceBit_le a.space
  rw [toNat_eq]
  omega

/-- The parts of a handle are read back as they were given. -/
theorem ofNat_toNat {a : Handle} (ha : a.InRange) : ofNat a.toNat = a := by
  obtain ⟨hepoch, hsegment, hindex⟩ := inRange_iff.mp ha
  have hspace := spaceBit_le a.space
  have hbit : a.toNat / 2 ^ 60 % 2 = spaceBit a.space := by rw [toNat_eq]; omega
  have hepoch' : a.toNat / 2 ^ 32 % 2 ^ 28 = a.epoch := by rw [toNat_eq]; omega
  have hsegment' : a.toNat / 2 ^ 20 % 2 ^ 12 = a.segment := by rw [toNat_eq]; omega
  have hindex' : a.toNat % 2 ^ 20 = a.index := by rw [toNat_eq]; omega
  rw [ofNat_eq, hbit, hepoch', hsegment', hindex']
  obtain ⟨space, epoch, segment, index⟩ := a
  cases space <;> rfl

theorem inRange_ofNat (n : Nat) : (ofNat n).InRange := by
  rw [ofNat_eq, inRange_iff]
  refine ⟨?_, ?_, ?_⟩ <;> apply Nat.mod_lt <;> norm_num

theorem toNat_ofNat {n : Nat} (hn : n < 2 ^ 61) : (ofNat n).toNat = n := by
  have hbit : spaceBit (if n / 2 ^ 60 % 2 = 1 then .root else .ephemeral) = n / 2 ^ 60 := by
    split <;> simp only [spaceBit] <;> omega
  rw [toNat_eq, ofNat_eq]
  simp only [hbit]
  omega

end Handle

namespace Value

/-! ## Values that have a word of their own -/

/-- An integer of 63 bits, or a reference through a handle that is in range. -/
def InRange : Value → Prop
  | .int n => minInt ≤ n ∧ n ≤ maxInt
  | .object a | .bytes a | .words a => a.InRange

instance (v : Value) : Decidable v.InRange := by
  cases v <;> unfold InRange <;> infer_instance

theorem inRange_int {n : Int} : (Value.int n).InRange ↔ -2 ^ 62 ≤ n ∧ n < 2 ^ 62 := by
  have hmin : minInt = -2 ^ 62 := by decide
  have hmax : maxInt = 2 ^ 62 - 1 := by decide
  simp only [InRange]
  omega

/-! ## The word of an integer -/

theorem toInt_word_int {n : Int} (hn : (Value.int n).InRange) :
    (Value.int n).toWord.toBitVec.toInt = 2 * n := by
  obtain ⟨hmin, hmax⟩ := inRange_int.mp hn
  simp only [toWord]
  apply BitVec.toInt_ofInt_eq_self <;> simp <;> omega

theorem even_word_int (n : Int) : (Value.int n).toWord.toNat % 2 = 0 := by
  simp only [toWord, UInt64.toNat, BitVec.toNat_ofInt]
  omega

/-- The integer of a word whose lowest bit is clear. -/
theorem ofWord_even {w : UInt64} (hw : w.toNat % 2 = 0) :
    ofWord w = .int (w.toBitVec.toInt / 2) := if_pos hw

theorem ofWord_word_int {n : Int} (hn : (Value.int n).InRange) :
    ofWord (Value.int n).toWord = .int n := by
  rw [ofWord_even (even_word_int n), toInt_word_int hn, Int.mul_ediv_cancel_left n (by decide)]

/-! ## The word of a reference -/

/-- The number of a kind of reference. -/
def kindNumber : Value → Nat
  | .int _ | .object _ => 0
  | .bytes _ => 1
  | .words _ => 2

theorem kindNumber_le (v : Value) : v.kindNumber ≤ 2 := by
  cases v <;> simp [kindNumber]

@[simp] theorem kindNumber_relocate (v : Value) (a : Handle) :
    (v.relocate a).kindNumber = v.kindNumber := by
  cases v <;> rfl

/-- A reference that is in range has its handle, its kind and the lowest bit side by side. -/
theorem toNat_word_reference {v : Value} {a : Handle} (hv : v.handle? = some a) (ha : a.InRange) :
    v.toWord.toNat = 8 * a.toNat + 2 * v.kindNumber + 1 := by
  have hlt := Handle.toNat_lt ha
  cases v <;> cases hv <;> simp only [toWord, kindNumber, UInt64.toNat_ofNat'] <;> omega

/-- The reference of a word whose lowest bit is set. -/
theorem ofWord_odd {w : UInt64} (hw : w.toNat % 2 = 1) :
    ofWord w = match w.toNat / 2 % 4 with
      | 0 => .object (Handle.ofNat (w.toNat / 8))
      | 1 => .bytes (Handle.ofNat (w.toNat / 8))
      | _ => .words (Handle.ofNat (w.toNat / 8)) := if_neg (by omega)

theorem ofWord_word_reference {v : Value} {a : Handle} (hv : v.handle? = some a)
    (ha : a.InRange) : ofWord v.toWord = v := by
  have hword := toNat_word_reference hv ha
  have hkind := v.kindNumber_le
  have hodd : v.toWord.toNat % 2 = 1 := by omega
  have hmiddle : v.toWord.toNat / 2 % 4 = v.kindNumber := by omega
  have hhandle : v.toWord.toNat / 8 = a.toNat := by omega
  rw [ofWord_odd hodd, hmiddle, hhandle, Handle.ofNat_toNat ha]
  cases v <;> cases hv <;> rfl

/-! ## Reading words back -/

theorem InRange.handle {v : Value} {a : Handle} (hv : v.InRange) (ha : v.handle? = some a) :
    a.InRange := by
  cases v <;> cases ha <;> exact hv

/-- A value that is in range is read back from its word. -/
theorem ofWord_toWord {v : Value} (hv : v.InRange) : ofWord v.toWord = v := by
  cases hhandle : v.handle? with
  | none =>
    cases v <;> cases hhandle
    exact ofWord_word_int hv
  | some a => exact ofWord_word_reference hhandle (hv.handle hhandle)

/-- Different values that are in range have different words. -/
theorem toWord_inj {v w : Value} (hv : v.InRange) (hw : w.InRange) :
    v.toWord = w.toWord ↔ v = w := by
  refine ⟨fun h => ?_, congrArg toWord⟩
  rw [← ofWord_toWord hv, h, ofWord_toWord hw]

/-- A value is its kind and its payload. -/
theorem eq_iff_tag_payload {v w : Value} :
    v = w ↔ v.tag = w.tag ∧ v.toInt? = w.toInt? ∧ v.handle? = w.handle? := by
  cases v <;> cases w <;> simp [tag, toInt?, handle?]

theorem inRange_ofWord (w : UInt64) : (ofWord w).InRange := by
  by_cases hw : w.toNat % 2 = 0
  · have hlt := w.toBitVec.toInt_lt
    have hle := w.toBitVec.le_toInt
    rw [ofWord_even hw, inRange_int]
    norm_num at hlt hle ⊢
    omega
  · rw [ofWord_odd (by omega)]
    split <;> exact Handle.inRange_ofNat _

/-- A word of kind 0, 1 or 2, or of an integer, is the word of the value that it stands for. -/
theorem toWord_ofWord {w : UInt64} (hw : w.toNat % 8 ≠ 7) : (ofWord w).toWord = w := by
  have hlt := w.toNat_lt
  apply UInt64.toNat_inj.mp
  by_cases heven : w.toNat % 2 = 0
  · have hparity : w.toBitVec.toInt % 2 = 0 := by
      rw [BitVec.toInt_eq_toNat_cond]
      split <;> simp only [UInt64.toNat_toBitVec] <;> omega
    rw [ofWord_even heven]
    simp only [toWord]
    rw [Int.mul_ediv_cancel' (Int.dvd_of_emod_eq_zero hparity), BitVec.ofInt_toInt]
  · have hhandle := Handle.inRange_ofNat (w.toNat / 8)
    have hnumber := Handle.toNat_ofNat (n := w.toNat / 8) (by omega)
    rw [ofWord_odd (by omega)]
    obtain hkind | hkind | hkind :
        w.toNat / 2 % 4 = 0 ∨ w.toNat / 2 % 4 = 1 ∨ w.toNat / 2 % 4 = 2 := by omega
    all_goals
      rw [hkind, toNat_word_reference rfl hhandle, hnumber]
      simp only [kindNumber]
      omega

/-! ## The same words by shifts and masks -/

/-- An integer is shifted past the cleared lowest bit. -/
theorem word_int_eq_shift (n : Int) : (Value.int n).toWord = ⟨BitVec.ofInt 64 n <<< 1⟩ := by
  simp only [toWord]
  congr 1
  apply BitVec.eq_of_toNat_eq
  simp [BitVec.toNat_ofInt, Nat.shiftLeft_eq]
  omega

/-- An arithmetic shift brings the integer back. -/
theorem ofWord_even_eq_shift {w : UInt64} (hw : w &&& 1 = 0) :
    ofWord w = .int (w.toBitVec.sshiftRight 1).toInt := by
  have heven : w.toNat % 2 = 0 := by
    have := congrArg UInt64.toNat hw
    simpa [Nat.and_one_is_mod] using this
  rw [ofWord_even heven, BitVec.toInt_sshiftRight, Int.shiftRight_eq_div_pow]
  rfl

/-- The parts of a reference are put side by side. -/
theorem word_reference_eq_or {v : Value} {a : Handle} (hv : v.handle? = some a)
    (ha : a.InRange) : v.toWord.toNat = a.toNat <<< 3 ||| v.kindNumber <<< 1 ||| 1 := by
  have hkind := v.kindNumber_le
  have hlow : v.kindNumber <<< 1 ||| 1 = 2 * v.kindNumber + 1 := by
    rw [← Nat.shiftLeft_add_eq_or_of_lt (by norm_num), Nat.shiftLeft_eq]
    omega
  rw [toNat_word_reference hv ha, Nat.or_assoc, hlow,
    ← Nat.shiftLeft_add_eq_or_of_lt (by omega), Nat.shiftLeft_eq]
  omega

/-- Relocation replaces all bits of a reference but the lowest three. -/
theorem word_relocate {v : Value} {a b : Handle} (hv : v.handle? = some a) (ha : a.InRange)
    (hb : b.InRange) :
    (v.relocate b).toWord.toNat = b.toNat <<< 3 ||| v.toWord.toNat % 2 ^ 3 := by
  have hrelocated : (v.relocate b).handle? = some b := by
    cases v <;> cases hv <;> rfl
  have hkind := v.kindNumber_le
  rw [← Nat.shiftLeft_add_eq_or_of_lt (Nat.mod_lt _ (by norm_num)),
    toNat_word_reference hrelocated hb, toNat_word_reference hv ha, kindNumber_relocate]
  simp only [Nat.shiftLeft_eq]
  omega

/-! ## Reading a value as what it should be -/

theorem tag_ne_smallInt {v : Value} {a : Handle} (hv : v.handle? = some a) :
    v.tag ≠ .smallInt := by
  cases v <;> cases hv <;> simp [tag]

theorem expect_eq_error {v : Value} {wanted : Tag} (hv : v.tag ≠ wanted ∨ v.tag = .smallInt) :
    v.expect wanted = .error (.tagMismatch wanted v.tag) := by
  unfold expect
  cases hhandle : v.handle? with
  | none => rfl
  | some a => exact if_neg (hv.resolve_right (tag_ne_smallInt hhandle))

theorem handle_relocate {v : Value} {a : Handle} (hv : v.tag ≠ .smallInt) :
    (v.relocate a).handle? = some a := by
  cases v <;> first | rfl | exact absurd rfl hv

theorem inRange_relocate {v : Value} {a : Handle} (hv : v.tag ≠ .smallInt) (ha : a.InRange) :
    (v.relocate a).InRange := by
  cases v <;> first | exact ha | exact absurd rfl hv

theorem ofInt_eq (n : Int) :
    ofInt n = if -2 ^ 62 ≤ n ∧ n < 2 ^ 62 then .ok (.int n) else .error (.smallIntOverflow n) := by
  have hmin : minInt = -2 ^ 62 := by decide
  have hmax : maxInt = 2 ^ 62 - 1 := by decide
  unfold ofInt
  congr 1
  rw [eq_iff_iff]
  omega

/-! ## The encoding as a whole -/

/-- The tagged word is a faithful encoding: integers of 63 bits and references of every kind are
read back from their words, and so are the parts of a handle; values in range share a word only if
they are the same; a reference is given out only as what it is; relocation changes the handle and
nothing else; and the integers that are made into values are those that have a word. -/
theorem word_faithful :
    (∀ n : Int, -2 ^ 62 ≤ n → n < 2 ^ 62 → ofWord (Value.int n).toWord = .int n) ∧
    (∀ space epoch segment index, epoch < 2 ^ 28 → segment < 2 ^ 12 → index < 2 ^ 20 →
      let a : Handle := { space, epoch, segment, index }
      ofWord (Value.object a).toWord = .object a ∧ ofWord (Value.bytes a).toWord = .bytes a ∧
      ofWord (Value.words a).toWord = .words a ∧ Handle.ofNat a.toNat = a) ∧
    (∀ v w : Value, v.InRange → w.InRange →
      (v.toWord = w.toWord ↔ v.tag = w.tag ∧ v.toInt? = w.toInt? ∧ v.handle? = w.handle?)) ∧
    (∀ (v : Value) (wanted : Tag),
      (∀ a, v.expect wanted = .ok a ↔
        v.tag = wanted ∧ wanted ≠ .smallInt ∧ v.handle? = some a) ∧
      (v.tag ≠ wanted ∨ wanted = .smallInt →
        v.expect wanted = .error (.tagMismatch wanted v.tag))) ∧
    (∀ (v : Value) (a : Handle), v.tag ≠ .smallInt → a.InRange →
      ofWord (v.relocate a).toWord = v.relocate a ∧ (v.relocate a).tag = v.tag ∧
      (v.relocate a).handle? = some a) ∧
    (∀ n : Int, ofInt n =
      if -2 ^ 62 ≤ n ∧ n < 2 ^ 62 then .ok (.int n) else .error (.smallIntOverflow n)) := by
  refine ⟨fun n hmin hmax => ofWord_toWord (inRange_int.mpr ⟨hmin, hmax⟩), ?handles, ?injective,
    ?expected, ?relocated, ofInt_eq⟩
  case handles =>
    intro space epoch segment index hepoch hsegment hindex a
    have ha : a.InRange := Handle.inRange_iff.mpr ⟨hepoch, hsegment, hindex⟩
    exact ⟨ofWord_word_reference rfl ha, ofWord_word_reference rfl ha,
      ofWord_word_reference rfl ha, Handle.ofNat_toNat ha⟩
  case injective =>
    intro v w hv hw
    rw [toWord_inj hv hw, eq_iff_tag_payload]
  case expected =>
    intro v wanted
    refine ⟨fun a => ?_, fun h => expect_eq_error ?_⟩
    · rw [expect_eq_ok]
      constructor
      · rintro ⟨ha, rfl⟩
        exact ⟨rfl, tag_ne_smallInt ha, ha⟩
      · rintro ⟨htag, -, ha⟩
        exact ⟨ha, htag⟩
    · rcases h with htag | rfl
      · exact .inl htag
      · exact (em (v.tag = .smallInt)).symm
  case relocated =>
    intro v a hv ha
    exact ⟨ofWord_toWord (inRange_relocate hv ha), tag_relocate v a, handle_relocate hv⟩

/-- The smallest integer, a reference with the largest parts and the words of both. -/
theorem word_faithful_extremes :
    ofWord (Value.int (-2 ^ 62)).toWord = .int (-2 ^ 62) ∧
    Handle.ofNat (Handle.toNat ⟨.root, 2 ^ 28 - 1, 2 ^ 12 - 1, 2 ^ 20 - 1⟩) =
      ⟨.root, 2 ^ 28 - 1, 2 ^ 12 - 1, 2 ^ 20 - 1⟩ ∧
    ((Value.int (-2 ^ 62)).toWord ≠ (Value.int (2 ^ 62 - 1)).toWord) ∧
    (Value.bytes ⟨.ephemeral, 0, 0, 0⟩).expect .object = .error (.tagMismatch .object .bytes) ∧
    ((Value.bytes ⟨.ephemeral, 0, 0, 0⟩).relocate ⟨.root, 0, 0, 1⟩).tag = .bytes := by
  obtain ⟨hint, hhandle, hinjective, hexpect, hrelocate, -⟩ := word_faithful
  refine ⟨hint _ (by norm_num) (by norm_num),
    (hhandle .root _ _ _ (by norm_num) (by norm_num) (by norm_num)).2.2.2, fun h => ?_,
    (hexpect _ .object).2 (by decide), (hrelocate _ ⟨.root, 0, 0, 1⟩ (by decide) (by decide)).2.1⟩
  have hsame := (hinjective _ _ (by decide) (by decide)).mp h
  exact absurd hsame.2.1 (by decide)

end Value

end MessageMachine
