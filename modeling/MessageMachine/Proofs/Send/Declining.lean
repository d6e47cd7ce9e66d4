import MessageMachine.Machine.Selector
import MessageMachine.Proofs.Frame.Stack
import MessageMachine.Proofs.Send.Uncached

/-!
# Primitives that decline

A primitive that declines hands over to the code of its method.  Those that special sends try, but for the
evaluation of blocks, decline before they change anything (`Tidy`, `Primitive.eq_of_attempt`), and none of
them reads the method cache (`Primitive.uncached_run`).
-/

namespace MessageMachine

/-- An allocation leaves the fields of the objects that are there, wherever it puts the new one. -/
theorem Heap.fetchField_of_allocate {h h' : Heap} {space : Space} {o : Object} {a : Handle}
    (hallocate : allocate space o h = .ok a h') {v x : Value} {i : Nat}
    (hfetch : h.fetchField v i = .ok x) : h'.fetchField v i = .ok x := by
  obtain ⟨xs, hfields, hx⟩ := fetchField_eq_ok.mp hfetch
  obtain ⟨b, found, rfl, hfound, hbody⟩ := fields_eq_ok.mp hfields
  refine fetchField_eq_ok.mpr ⟨xs, fields_eq_ok.mpr ⟨b, found, rfl, ?_, hbody⟩, hx⟩
  unfold allocate at hallocate
  cases hreserve : (h.pool space).reserve o.words with
  | error fault =>
      rw [hreserve] at hallocate
      cases hallocate
  | ok a =>
      rw [hreserve] at hallocate
      cases hallocate
      unfold resolve at hfound ⊢
      by_cases hspace : b.space = space
      · rw [hspace] at hfound ⊢
        rw [pool_modifyPool_self]
        exact Pool.get_push_of_ok hreserve hfound
      · rw [pool_modifyPool_of_ne h _ hspace]
        exact hfound

namespace Machine

variable {m m' : Machine} {action : MachineM Bool}

/-! ## Declining -/

/-- The action, begun at `m`, declines at `m'`: it answers `false`, or fails by a refused access. -/
def Declines (action : MachineM Bool) (m m' : Machine) : Prop :=
  match action m with
  | .ok done t => done = false ∧ t = m'
  | .error fault t => fault.abortsPrimitive = false ∧ t = m'

theorem attempt_eq_false : attempt action m = .ok false m' ↔
    ∃ t, Declines action m t ∧ m' = { t with regs.sp := m.regs.sp } := by
  have hresult : ∀ t : Machine, ∀ b, (EStateM.Result.ok false { t with regs.sp := m.regs.sp } =
      EStateM.Result.ok (ε := Fault) false m' ∧ b) ↔
        ∃ t', (b ∧ t = t') ∧ m' = { t' with regs.sp := m.regs.sp } := by
    intro t b
    constructor
    · rintro ⟨heq, hb⟩
      cases heq
      exact ⟨t, ⟨hb, rfl⟩, rfl⟩
    · rintro ⟨t', ⟨hb, rfl⟩, rfl⟩
      exact ⟨rfl, hb⟩
  unfold attempt Declines
  cases action m with
  | ok done t =>
      cases done with
      | true => simp
      | false => simpa using hresult t True
  | error fault t =>
      dsimp only
      cases habort : fault.abortsPrimitive with
      | true => simp
      | false => simpa using hresult t True

theorem attempt_eq_true {action : MachineM Bool} :
    attempt action m = .ok true m' ↔ action m = .ok true m' := by
  unfold attempt
  cases action m with
  | ok done t =>
      cases done with
      | true => exact Iff.rfl
      | false => simp
  | error fault t =>
      dsimp only
      split <;> simp

theorem attempt_eq_error {action : MachineM Bool} {fault : Fault}
    (haborts : fault.abortsPrimitive = true) :
    attempt action m = .error fault m' ↔ action m = .error fault m' := by
  unfold attempt
  cases action m with
  | ok done t => cases done <;> simp
  | error fault' t =>
      dsimp only
      split
      · exact Iff.rfl
      · next hgoes =>
        constructor
        · intro heq
          cases heq
        · intro heq
          cases heq
          exact absurd haborts hgoes

theorem declines_bind_of_ok {x : MachineM α} {f : α → MachineM Bool} {a : α} {t : Machine}
    (hx : x m = .ok a t) : Declines (x >>= f) m m' ↔ Declines (f a) t m' := by
  unfold Declines
  rw [bind_eq_of_ok hx]

theorem declines_bind_of_error {x : MachineM α} {f : α → MachineM Bool} {fault : Fault}
    {t : Machine} (hx : x m = .error fault t) (hdeclines : Declines (x >>= f) m m') : t = m' := by
  unfold Declines at hdeclines
  rw [bind_eq_of_error hx] at hdeclines
  exact hdeclines.2

/-- Where the action declines, it has changed nothing. -/
def Tidy (m : Machine) (action : MachineM Bool) : Prop := ∀ m', Declines action m m' → m' = m

namespace Tidy

theorem attempt (htidy : Tidy m action) (hrun : Machine.attempt action m = .ok false m') :
    m' = m := by
  obtain ⟨t, hdeclines, rfl⟩ := attempt_eq_false.mp hrun
  rw [htidy t hdeclines]

theorem pure (b : Bool) : Tidy m (Pure.pure b) := by
  rintro m' ⟨-, rfl⟩
  rfl

/-- What only looks at the machine may come first. -/
theorem bind {x : MachineM α} {f : α → MachineM Bool} (hx : stateAfter (x m) = m)
    (hf : ∀ a, x m = .ok a m → Tidy m (f a)) : Tidy m (x >>= f) := by
  intro m' hdeclines
  cases hrun : x m with
  | ok a t =>
      rw [hrun] at hx
      obtain rfl : t = m := hx
      exact hf a hrun m' ((declines_bind_of_ok hrun).mp hdeclines)
  | error fault t =>
      rw [hrun] at hx
      exact (declines_bind_of_error hrun hdeclines).symm.trans hx

theorem read_bind {x : Machine → Except Fault α} {f : α → MachineM Bool}
    (hf : ∀ a, x m = .ok a → Tidy m (f a)) : Tidy m (Machine.read x >>= f) :=
  bind (stateAfter_read x) fun a ha => hf a (read_eq_ok.mp ha).1

theorem get_bind {f : Machine → MachineM Bool} (hf : Tidy m (f m)) : Tidy m (get >>= f) :=
  bind rfl fun a ha => by
    cases ha
    exact hf

theorem ite {p : Prop} [Decidable p] {x y : MachineM Bool} (hx : Tidy m x) (hy : Tidy m y) :
    Tidy m (if p then x else y) := by
  split
  · exact hx
  · exact hy

end Tidy

/-- An answer in the place of operands that are there is put there, unless the operand stack is too
high already. -/
theorem answer_run (hbase : 0 < m.regs.stackBase) {argc : Nat} {receiver : Value}
    (hreceiver : m.stackValue argc = .ok receiver) (v : Value) :
    (∃ t, answer argc v m = .ok true t) ∨
      ∃ t, answer argc v m = .error (.stackOverflow m.regs.ip) t := by
  obtain ⟨hdepth, hfetch⟩ := stackValue_eq_ok hreceiver
  have hplace : m.regs.sp - (argc + 1) + 1 = m.regs.sp - argc := by omega
  have hpop := popN_run (argc + 1) m
  rw [if_neg (by omega)] at hpop
  have hpush := push_run v { m with regs := { m.regs with sp := m.regs.sp - (argc + 1) } }
  dsimp only at hpush
  rw [hplace] at hpush
  unfold answer
  rw [bind_eq_of_ok hpop]
  by_cases hroom : m.regs.stackLimit ≤ m.regs.sp - argc
  · rw [if_pos hroom] at hpush
    exact .inr ⟨_, bind_eq_of_error hpush⟩
  · obtain ⟨h, hstore⟩ := Heap.storeField_of_fetchField hfetch v
    rw [if_neg hroom] at hpush
    exact .inl ⟨_, bind_eq_of_ok
      (hpush.trans (bind_eq_of_ok (onHeap_eq_ok.mpr ⟨h, hstore, rfl⟩)))⟩

theorem not_declines_answer (hbase : 0 < m.regs.stackBase) {argc : Nat} {receiver : Value}
    (hreceiver : m.stackValue argc = .ok receiver) (v : Value) :
    ¬Declines (answer argc v) m m' := by
  unfold Declines
  rcases answer_run hbase hreceiver v with ⟨t, hrun⟩ | ⟨t, hrun⟩
  · simp [hrun]
  · simp [hrun, Fault.abortsPrimitive]

theorem tidy_answer (hbase : 0 < m.regs.stackBase) {argc : Nat} {receiver : Value}
    (hreceiver : m.stackValue argc = .ok receiver) (v : Value) : Tidy m (answer argc v) :=
  fun _ hdeclines => absurd hdeclines (not_declines_answer hbase hreceiver v)

/-! ## Primitives that decline before they change anything -/

theorem tidy_arithmetic (hbase : 0 < m.regs.stackBase) (op : Int → Int → Option Int) :
    Tidy m (arithmetic op) := by
  refine Tidy.read_bind fun (a, b) hintegers => ?_
  obtain ⟨v, hreceiver, -⟩ := reading_bind_eq_ok.mp hintegers
  dsimp only
  cases op a b with
  | none => exact .pure _
  | some n =>
      refine Tidy.bind ?_ fun _ _ => tidy_answer hbase hreceiver _
      cases Value.ofInt n <;> rfl

theorem tidy_comparison (hbase : 0 < m.regs.stackBase) (op : Int → Int → Bool) :
    Tidy m (comparison op) := by
  refine Tidy.read_bind fun _ hintegers => .get_bind ?_
  obtain ⟨v, hreceiver, -⟩ := reading_bind_eq_ok.mp hintegers
  exact tidy_answer hbase hreceiver _

theorem tidy_integerEquality (hbase : 0 < m.regs.stackBase) (wanted : Bool) :
    Tidy m (integerEquality wanted) := by
  refine Tidy.read_bind fun v hreceiver => .ite ?_ (.pure _)
  exact .read_bind fun _ _ => .get_bind (tidy_answer hbase hreceiver _)

theorem tidy_identicalPrimitive (hbase : 0 < m.regs.stackBase) : Tidy m identicalPrimitive :=
  .read_bind fun _ hreceiver => .read_bind fun _ _ => .get_bind (tidy_answer hbase hreceiver _)

theorem tidy_classPrimitive (hbase : 0 < m.regs.stackBase) : Tidy m classPrimitive :=
  .read_bind fun _ hreceiver => .read_bind fun _ _ => tidy_answer hbase hreceiver _

/-- The action makes an object, or leaves the machine as it is. -/
def Makes (m : Machine) (x : MachineM Value) : Prop :=
  match x m with
  | .ok _ t => ∃ h, t = m.withHeap h ∧ ∀ v i y, m.heap.fetchField v i = .ok y → h.fetchField v i = .ok y
  | .error _ t => t = m

theorem makes_allocate (words : Nat) (space : Space) (o : Object) (f : Handle → Value) :
    Makes m (onHeap do
      Heap.read (·.checkSize words)
      return f (← Heap.allocate space o)) := by
  unfold Makes
  rw [onHeap_run]
  cases hrun : (do
      Heap.read (·.checkSize words)
      return f (← Heap.allocate space o) : HeapM Value) m.heap with
  | ok v h =>
      obtain ⟨_, -, hrest⟩ := Heap.read_bind_eq_ok.mp hrun
      obtain ⟨a, t, hallocate, hv⟩ := bind_eq_ok.mp hrest
      obtain ⟨-, rfl⟩ := pure_eq_ok.mp hv
      exact ⟨t, rfl, fun _ _ _ => Heap.fetchField_of_allocate hallocate⟩
  | error fault h => exact congrArg m.withHeap (Heap.heap_of_checked_error hrun)

theorem makes_read_bind {f : Machine → Except Fault α} {g : α → MachineM Value}
    (hg : ∀ a, f m = .ok a → Makes m (g a)) : Makes m (read f >>= g) := by
  unfold Makes
  cases hf : f m with
  | ok a =>
      rw [bind_eq_of_ok (read_eq_ok.mpr ⟨hf, rfl⟩)]
      exact hg a hf
  | error fault =>
      have hread : read f m = .error fault m := by
        unfold read
        rw [hf]
      rw [bind_eq_of_error hread]

theorem makes_allocateFields (type : Value) (count : Nat) :
    Makes m (onHeap (Heap.allocateFields .ephemeral type count (m.known .nil))) := by
  unfold Heap.allocateFields
  exact makes_allocate _ _ _ .object

theorem makes_allocateBytes (type : Value) (length : Nat) :
    Makes m (onHeap (Heap.allocateBytes .ephemeral type length)) := by
  unfold Heap.allocateBytes Makes
  rw [onHeap_run, bind_run]
  cases hread : Heap.read (·.checkSize (Header.wordsForBytes length)) m.heap with
  | ok u h =>
      obtain ⟨-, rfl⟩ := Heap.read_eq_ok.mp hread
      exact makes_allocate _ _ _ .bytes
  | error fault h => exact congrArg m.withHeap (Heap.heap_of_read_error hread)

theorem makes_instantiate (type : Value) (indexed : Nat) :
    Makes m (instantiate type indexed) := by
  refine makes_read_bind fun format _ => makes_read_bind fun fixed _ => ?_
  dsimp only
  by_cases hindexed : indexed > 0 ∧ ¬format.indexable
  · rw [if_pos hindexed]
    exact rfl
  · rw [if_neg hindexed]
    cases format.storage with
    | fields => exact makes_allocateFields type _
    | bytes => exact makes_allocateBytes type indexed
    | words => exact makes_allocate _ _ _ .words

theorem tidy_answer_made (hbase : 0 < m.regs.stackBase) {argc : Nat} {receiver : Value}
    (hreceiver : m.stackValue argc = .ok receiver) {x : MachineM Value} (hx : Makes m x) :
    Tidy m (x >>= answer argc) := by
  intro m' hdeclines
  unfold Makes at hx
  cases hrun : x m with
  | error fault t =>
      rw [hrun] at hx
      exact (declines_bind_of_error hrun hdeclines).symm.trans hx
  | ok v t =>
      rw [hrun] at hx
      obtain ⟨h, rfl, hkept⟩ := hx
      -- the receiver is still there, so the answer is not refused
      obtain ⟨hdepth, hfetch⟩ := stackValue_eq_ok hreceiver
      have hreceiver' : (m.withHeap h).stackValue argc = .ok receiver := by
        unfold stackValue
        rw [withHeap_regs, if_neg (Nat.not_lt.mpr hdepth)]
        exact liftFault_eq_ok.mpr (hkept _ _ _ hfetch)
      exact absurd ((declines_bind_of_ok hrun).mp hdeclines)
        (not_declines_answer (m := m.withHeap h) hbase hreceiver' v)

theorem tidy_basicNew (hbase : 0 < m.regs.stackBase) : Tidy m basicNew :=
  .read_bind fun _ hreceiver => .read_bind fun _ _ =>
    .ite (tidy_answer_made hbase hreceiver (makes_instantiate _ _)) (.pure _)

theorem tidy_basicNewSized (hbase : 0 < m.regs.stackBase) : Tidy m basicNewSized :=
  .read_bind fun _ hreceiver => .read_bind fun _ _ => .read_bind fun _ _ =>
    .ite (.read_bind fun _ _ =>
      .ite (tidy_answer_made hbase hreceiver (makes_instantiate _ _)) (.pure _)) (.pure _)

end Machine

namespace Primitive

open Machine

/-- The primitives that special sends try, but for computed messages. -/
def direct : List Primitive :=
  (SpecialSelector.table.toList.filterMap (·.primitive)).filter fun p => p ≠ perform ∧ p ≠ performWith

/-- The primitives among them that evaluate a block. -/
def evaluating : List Primitive := [blockValue, blockValue1, blockValue2, blockValue3]

variable {p : Primitive} {store : MachineM Unit → MachineM Unit} {send : Value → MachineM Unit}

theorem run_congr (hp : p ∈ direct) (store' : MachineM Unit → MachineM Unit)
    (send' : Value → MachineM Unit) : p.run store send = p.run store' send' := by
  cases p <;> simp only [run]
  case perform | performWith | performWithWith | basicAtPut => exact absurd hp (by decide)

theorem uncached_run (hp : p ∈ direct) : Uncached (p.run store send) := by
  cases p <;> simp only [run]
  case intAdd | intSub | intMul | intDiv | intMod | intBitAnd | intBitOr | intBitShift =>
    exact .arithmetic _
  case intLess | intGreater | intLessEqual | intGreaterEqual => exact .comparison _
  case intEqual | intNotEqual => exact .integerEquality _
  case identical => exact .identicalPrimitive
  case classOf => exact .classPrimitive
  case basicNew => exact .basicNew
  case basicNewSized => exact .basicNewSized
  case blockValue | blockValue1 | blockValue2 | blockValue3 => exact .blockValue _
  all_goals exact absurd hp (by decide)

/-- A primitive that special sends try and that evaluates no block changes nothing if it declines. -/
theorem eq_of_attempt (hp : p ∈ direct) (hother : p ∉ evaluating) {m m' : Machine}
    (hbase : 0 < m.regs.stackBase) (hrun : attempt (p.run store send) m = .ok false m') : m' = m := by
  cases p <;> simp only [run] at hrun
  case intAdd | intSub | intMul | intDiv | intMod | intBitAnd | intBitOr | intBitShift =>
    exact (tidy_arithmetic hbase _).attempt hrun
  case intLess | intGreater | intLessEqual | intGreaterEqual =>
    exact (tidy_comparison hbase _).attempt hrun
  case intEqual | intNotEqual => exact (tidy_integerEquality hbase _).attempt hrun
  case identical => exact (tidy_identicalPrimitive hbase).attempt hrun
  case classOf => exact (tidy_classPrimitive hbase).attempt hrun
  case basicNew => exact (tidy_basicNew hbase).attempt hrun
  case basicNewSized => exact (tidy_basicNewSized hbase).attempt hrun
  case blockValue | blockValue1 | blockValue2 | blockValue3 => exact absurd (by decide) hother
  all_goals exact absurd hp (by decide)

theorem run_evaluating (hp : p ∈ evaluating) : p.run store send = Machine.blockValue p.arity := by
  cases p <;> first | rfl | exact absurd hp (by decide)

/-- Where equality of integers does not decline, it is identity. -/
theorem integerEquality_eq_identical {m : Machine}
    (hrun : attempt (integerEquality true) m ≠ .ok false m) :
    integerEquality true m = identicalPrimitive m := by
  cases hreceiver : read (·.receiver 1) m with
  | error fault t =>
      exact (bind_eq_of_error hreceiver).trans (bind_eq_of_error hreceiver).symm
  | ok v t =>
      obtain ⟨-, rfl⟩ := read_eq_ok.mp hreceiver
      have hequality := bind_eq_of_ok (f := fun v => do
        unless v.isInt do return false
        let argument ← read (·.argument 1 0)
        answer 1 ((← get).known.ofBool (decide (v = argument) == true))) hreceiver
      by_cases hint : v.isInt
      · rw [if_pos hint] at hequality
        refine hequality.trans ((bind_eq_of_ok hreceiver).trans ?_).symm
        simp
      · rw [if_neg hint] at hequality
        exact absurd (attempt_eq_false.mpr ⟨t, by
          unfold Declines
          rw [show integerEquality true t = .ok false t from hequality]
          exact ⟨rfl, rfl⟩, rfl⟩) hrun

end Primitive

end MessageMachine
