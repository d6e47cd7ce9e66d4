import MessageMachine.Machine.Step
import MessageMachine.Proofs.Machine.Access

/-!
# What an instruction does, from what its parts do

An instruction is made of a few sorts of action, put together by the code that sends messages and
tries primitives.  That code is the same whatever one wants to know about an instruction, so it is
gone through once here.

Two relations between machines say what is to be known.  `A` relates a machine to one from which
other code may go on: an action that `Abides` leads only to such machines.  `D` relates it to one
that is fit for the next instruction: an action that `Departs` leads there, but a fault by which a
primitive may decline still leaves the machine as `A` says.  An action that activates a context
departs, and so does one that asks for a switch of processes.

`Conducts store A D` lists what the parts have to satisfy, and `Conducts.execute` is the conclusion
about whole instructions, whose stores are carried out by `store`.
-/

namespace MessageMachine.Machine

variable {A D : Machine → Machine → Prop} {store : MachineM Unit → MachineM Unit} {m m' : Machine}

/-! ## Abiding and departing -/

/-- The action leads to machines that `A` relates to the one before, also when it fails. -/
def Abides (A : Machine → Machine → Prop) (action : MachineM α) : Prop :=
  ∀ m, A m (stateAfter (action m))

/-- What a fault leaves: if it makes a primitive decline, other code may go on. -/
def Excused (A D : Machine → Machine → Prop) (m : Machine) (fault : Fault) (m' : Machine) : Prop :=
  D m m' ∧ (fault.abortsPrimitive = false → A m m')

/-- The outcome is fit for the next instruction. -/
def Departed (A D : Machine → Machine → Prop) (m : Machine) :
    EStateM.Result Fault Machine α → Prop
  | .ok _ m' => D m m'
  | .error fault m' => Excused A D m fault m'

/-- The action leads to machines that are fit for the next instruction. -/
def Departs (A D : Machine → Machine → Prop) (action : MachineM α) : Prop :=
  ∀ m, Departed A D m (action m)

/-- The outcome of a primitive: once it has declined, other code may go on. -/
def Attempted (A D : Machine → Machine → Prop) (m : Machine) :
    EStateM.Result Fault Machine Bool → Prop
  | .ok done m' => D m m' ∧ (done = false → A m m')
  | .error fault m' => Excused A D m fault m'

/-- The primitive leaves the machine to other code if it declines. -/
def Attempts (A D : Machine → Machine → Prop) (action : MachineM Bool) : Prop :=
  ∀ m, Attempted A D m (action m)

/-- What the two relations have to satisfy. -/
structure Conduct (A D : Machine → Machine → Prop) : Prop where
  refl : ∀ m, A m m
  trans : ∀ {m m' m''}, A m m' → A m' m'' → A m m''
  departs : ∀ {m m'}, A m m' → D m m'
  trans_departs : ∀ {m m' m''}, A m m' → D m' m'' → D m m''
  /-- The stack pointer can be put back. -/
  restore : ∀ {m m'}, A m m' → A m { m' with regs.sp := m.regs.sp }

theorem Abides.ite {c : Prop} [Decidable c] {x y : MachineM α} (hx : Abides A x)
    (hy : Abides A y) : Abides A (if c then x else y) := by
  split
  · exact hx
  · exact hy

theorem Departs.ite {c : Prop} [Decidable c] {x y : MachineM α} (hx : Departs A D x)
    (hy : Departs A D y) : Departs A D (if c then x else y) := by
  split
  · exact hx
  · exact hy

theorem Attempts.ite {c : Prop} [Decidable c] {x y : MachineM Bool} (hx : Attempts A D x)
    (hy : Attempts A D y) : Attempts A D (if c then x else y) := by
  split
  · exact hx
  · exact hy

namespace Conduct

variable (hc : Conduct A D)
include hc

theorem excused (h : A m m') (fault : Fault) : Excused A D m fault m' := ⟨hc.departs h, fun _ => h⟩

theorem trans_excused {m'' : Machine} {fault : Fault} (h : A m m')
    (hlater : Excused A D m' fault m'') : Excused A D m fault m'' :=
  ⟨hc.trans_departs h hlater.1, fun hdecline => hc.trans h (hlater.2 hdecline)⟩

theorem trans_departed {r : EStateM.Result Fault Machine α} (h : A m m')
    (hlater : Departed A D m' r) : Departed A D m r := by
  cases r with
  | ok a m'' => exact hc.trans_departs h hlater
  | error fault m'' => exact hc.trans_excused h hlater

theorem trans_attempted {r : EStateM.Result Fault Machine Bool} (h : A m m')
    (hlater : Attempted A D m' r) : Attempted A D m r := by
  cases r with
  | ok done m'' =>
      exact ⟨hc.trans_departs h hlater.1, fun hdone => hc.trans h (hlater.2 hdone)⟩
  | error fault m'' => exact hc.trans_excused h hlater

/-! ### Abiding actions -/

theorem abides_pure (a : α) : Abides A (pure a : MachineM α) := hc.refl

theorem abides_throw (fault : Fault) : Abides A (throw fault : MachineM α) := hc.refl

theorem abides_get : Abides A (get : MachineM Machine) := hc.refl

theorem abides_landmark (l : Landmark) : Abides A (landmark l) := hc.refl

theorem abides_read (f : Machine → Except Fault α) : Abides A (read f) := by
  intro m
  rw [stateAfter_read]
  exact hc.refl m

theorem abides_readHeap (f : Heap → Except HeapFault α) : Abides A (readHeap f) := by
  intro m
  rw [stateAfter_readHeap]
  exact hc.refl m

theorem abides_fetchField (v : Value) (i : Nat) : Abides A (fetchField v i) := hc.abides_readHeap _

/-- A reading that does not depend on the machine. -/
theorem abides_lift (x : Except Fault α) : Abides A (liftM x : MachineM α) := by
  intro m
  cases x <;> exact hc.refl m

theorem abides_bind {x : MachineM α} {f : α → MachineM β} (hx : Abides A x)
    (hf : ∀ a, Abides A (f a)) : Abides A (x >>= f) := by
  intro m
  have hfirst := hx m
  rw [bind_run]
  cases hrun : x m with
  | ok a m₁ =>
      rw [hrun] at hfirst
      exact hc.trans hfirst (hf a m₁)
  | error fault m₁ =>
      rw [hrun] at hfirst
      exact hfirst

/-! ### Departing actions -/

theorem departs_of_abides {action : MachineM α} (h : Abides A action) : Departs A D action := by
  intro m
  have hm := h m
  cases hrun : action m with
  | ok a m' =>
      rw [hrun] at hm
      exact hc.departs hm
  | error fault m' =>
      rw [hrun] at hm
      exact hc.excused hm fault

theorem departs_throw (fault : Fault) : Departs A D (throw fault : MachineM α) :=
  hc.departs_of_abides (hc.abides_throw fault)

/-- Other code goes on after an action that abides. -/
theorem departs_bind {x : MachineM α} {f : α → MachineM β} (hx : Abides A x)
    (hf : ∀ a, Departs A D (f a)) : Departs A D (x >>= f) := by
  intro m
  have hfirst := hx m
  rw [bind_run]
  cases hrun : x m with
  | ok a m₁ =>
      rw [hrun] at hfirst
      exact hc.trans_departed hfirst (hf a m₁)
  | error fault m₁ =>
      rw [hrun] at hfirst
      exact hc.excused hfirst fault

theorem attempts_of_abides {action : MachineM Bool} (h : Abides A action) :
    Attempts A D action := by
  intro m
  have hm := h m
  cases hrun : action m with
  | ok done m' =>
      rw [hrun] at hm
      exact ⟨hc.departs hm, fun _ => hm⟩
  | error fault m' =>
      rw [hrun] at hm
      exact hc.excused hm fault

theorem attempts_bind {x : MachineM α} {f : α → MachineM Bool} (hx : Abides A x)
    (hf : ∀ a, Attempts A D (f a)) : Attempts A D (x >>= f) := by
  intro m
  have hfirst := hx m
  rw [bind_run]
  cases hrun : x m with
  | ok a m₁ =>
      rw [hrun] at hfirst
      exact hc.trans_attempted hfirst (hf a m₁)
  | error fault m₁ =>
      rw [hrun] at hfirst
      exact hc.excused hfirst fault

omit hc in
/-- A primitive that has nothing left to do but to answer that it is done. -/
theorem attempts_of_departs {action : MachineM Unit} (h : Departs A D action) :
    Attempts A D (do action; return true) := by
  intro m
  have hm := h m
  rw [bind_run]
  cases hrun : action m with
  | ok u m' =>
      rw [hrun] at hm
      exact ⟨hm, nofun⟩
  | error fault m' =>
      rw [hrun] at hm
      exact hm

/-- The stack pointer is put back when a primitive declines. -/
theorem attempts_attempt {action : MachineM Bool} (h : Attempts A D action) :
    Attempts A D (attempt action) := by
  intro m
  have hm := h m
  unfold attempt
  cases hrun : action m with
  | ok done m' =>
      rw [hrun] at hm
      cases done with
      | true => exact hm
      | false => exact ⟨hc.departs (hc.restore (hm.2 rfl)), fun _ => hc.restore (hm.2 rfl)⟩
  | error fault m' =>
      rw [hrun] at hm
      cases habort : fault.abortsPrimitive with
      | true =>
          simp only [habort, if_true]
          exact hm
      | false =>
          simp only [habort]
          exact ⟨hc.departs (hc.restore (hm.2 habort)), fun _ => hc.restore (hm.2 habort)⟩

end Conduct

/-! ## The parts of an instruction -/

/-- What the parts of an instruction satisfy, apart from the storing of temporaries. -/
structure Conducts (store : MachineM Unit → MachineM Unit) (A D : Machine → Machine → Prop) : Prop
    extends Conduct A D where
  ip : ∀ m ip, A m { m with regs.ip := ip }
  cache : ∀ m cache, A m { m with cache := cache }
  takeEvent : ∀ m events, A m { m with schedule.pendingInput := events }
  push : ∀ v, Abides A (push v)
  pop : Abides A pop
  popN : ∀ n, Abides A (popN n)
  blockCopy : ∀ argc length, Abides A (blockCopy argc length)
  instantiate : ∀ type indexed, Abides A (instantiate type indexed)
  storeByte : ∀ v i b, Abides A (onHeap (Heap.storeByte v i b))
  storeWord : ∀ v i w, Abides A (onHeap (Heap.storeWord v i w))
  setField : ∀ v i new, Abides A (store (storeField v i new))
  setGlobal : ∀ name v, Abides A (store (setGlobal name v))
  /-- Activating a method whose header has been read before. -/
  activate : ∀ m m' method header argc v, m.heap.fetchField method Slot.methodHeader = .ok v →
    MethodHeader.ofValue v = .ok header → A m m' →
    Departed A D m (activateMethod method header argc m')
  leave : ∀ kind m, D m (stateAfter (leave kind m))
  blockValue : ∀ argc, Attempts A D (blockValue argc)
  valueWithArguments : Attempts A D valueWithArguments
  perform : ∀ send argc, 0 < argc → (∀ v, Departs A D (send v)) → Attempts A D (perform send argc)
  fork : Attempts A D forkPrimitive
  wait : Attempts A D (onSemaphore wait)
  signal : Attempts A D (onSemaphore signal)
  yield : Attempts A D yieldPrimitive
  newSemaphore : Abides A newSemaphore

namespace Conducts

variable (hc : Conducts store A D)
include hc

/-! ### Primitives -/

theorem answer (argc : Nat) (v : Value) : Abides A (answer argc v) :=
  hc.abides_bind (hc.popN _) fun _ => hc.abides_bind (hc.push v) fun _ => hc.abides_pure _

theorem arithmetic (op : Int → Int → Option Int) : Abides A (arithmetic op) := by
  refine hc.abides_bind (hc.abides_read _) fun ⟨a, b⟩ => ?_
  dsimp only
  split
  · exact hc.abides_bind (hc.abides_lift _) fun v => hc.answer 1 v
  · exact hc.abides_pure _

theorem comparison (op : Int → Int → Bool) : Abides A (comparison op) :=
  hc.abides_bind (hc.abides_read _) fun ⟨_, _⟩ =>
    hc.abides_bind hc.abides_get fun _ => hc.answer 1 _

theorem integerEquality (wanted : Bool) : Abides A (integerEquality wanted) := by
  refine hc.abides_bind (hc.abides_read _) fun receiver => Abides.ite ?_ (hc.abides_pure _)
  exact hc.abides_bind (hc.abides_read _) fun _ =>
    hc.abides_bind hc.abides_get fun _ => hc.answer 1 _

theorem identical : Abides A identicalPrimitive :=
  hc.abides_bind (hc.abides_read _) fun _ => hc.abides_bind (hc.abides_read _) fun _ =>
    hc.abides_bind hc.abides_get fun _ => hc.answer 1 _

theorem classPrimitive : Abides A classPrimitive :=
  hc.abides_bind (hc.abides_read _) fun _ => hc.abides_bind (hc.abides_read _) fun _ =>
    hc.answer 0 _

theorem basicNew : Abides A basicNew := by
  refine hc.abides_bind (hc.abides_read _) fun type => hc.abides_bind (hc.abides_read _) fun _ => ?_
  refine Abides.ite ?_ (hc.abides_pure _)
  exact hc.abides_bind (hc.instantiate _ _) fun v => hc.answer 0 v

theorem basicNewSized : Abides A basicNewSized := by
  refine hc.abides_bind (hc.abides_read _) fun type => hc.abides_bind (hc.abides_read _) fun _ => ?_
  refine hc.abides_bind (hc.abides_read _) fun _ => Abides.ite ?_ (hc.abides_pure _)
  refine hc.abides_bind (hc.abides_read _) fun _ => Abides.ite ?_ (hc.abides_pure _)
  exact hc.abides_bind (hc.instantiate _ _) fun v => hc.answer 1 v

theorem basicAt : Abides A basicAt := by
  refine hc.abides_bind (hc.abides_read _) fun receiver => ?_
  refine hc.abides_bind (hc.abides_read _) fun index => ?_
  refine hc.abides_bind (hc.abides_read _) fun place => ?_
  cases place with
  | none => exact hc.abides_pure _
  | some i =>
      cases receiver with
      | int n => exact hc.abides_pure _
      | object a => exact hc.abides_bind (hc.abides_fetchField _ _) fun v => hc.answer 1 v
      | bytes a => exact hc.abides_bind (hc.abides_readHeap _) fun b => hc.answer 1 _
      | words a =>
          exact hc.abides_bind (hc.abides_readHeap _) fun w =>
            hc.abides_bind (hc.abides_lift _) fun v => hc.answer 1 v

theorem basicAtPut : Abides A (basicAtPut store) := by
  refine hc.abides_bind (hc.abides_read _) fun receiver => ?_
  refine hc.abides_bind (hc.abides_read _) fun index => ?_
  refine hc.abides_bind (hc.abides_read _) fun v => hc.abides_bind (hc.abides_read _) fun place => ?_
  cases place with
  | none => exact hc.abides_pure _
  | some i =>
      cases receiver with
      | int n => exact hc.abides_pure _
      | object a => exact hc.abides_bind (hc.setField _ _ _) fun _ => hc.answer 2 v
      | bytes a =>
          refine hc.abides_bind (hc.abides_lift _) fun n => Abides.ite (hc.abides_pure _) ?_
          exact hc.abides_bind (hc.storeByte _ _ _) fun _ => hc.answer 2 v
      | words a =>
          refine hc.abides_bind (hc.abides_lift _) fun n => ?_
          exact hc.abides_bind (hc.storeWord _ _ _) fun _ => hc.answer 2 v

theorem basicSize : Abides A basicSize :=
  hc.abides_bind (hc.abides_read _) fun _ => hc.abides_bind (hc.abides_read _) fun _ =>
    hc.answer 0 _

theorem hash : Abides A hashPrimitive := by
  refine hc.abides_bind (hc.abides_read _) fun receiver => ?_
  cases receiver with
  | int n => exact hc.answer 0 _
  | object a => exact hc.answer 0 _
  | bytes a =>
      exact hc.abides_bind (hc.abides_readHeap _) fun n =>
        hc.abides_bind (hc.abides_lift _) fun v => hc.answer 0 v
  | words a =>
      exact hc.abides_bind (hc.abides_readHeap _) fun n =>
        hc.abides_bind (hc.abides_lift _) fun v => hc.answer 0 v

theorem nextInputEvent : Abides A nextInputEventPrimitive := by
  refine hc.abides_bind ?_ fun event => ?_
  · refine hc.abides_bind hc.abides_get fun m₀ => ?_
    split
    · exact hc.abides_pure _
    · exact hc.abides_bind (fun m => hc.takeEvent m _) fun _ => hc.abides_pure _
  · cases event with
    | none => exact hc.abides_bind (hc.abides_landmark _) fun v => hc.answer 0 v
    | some event => exact hc.abides_bind (hc.abides_lift _) fun v => hc.answer 0 v

theorem primitive {send : Value → MachineM Unit} (hsend : ∀ v, Departs A D (send v))
    (p : Primitive) : Attempts A D (p.run store send) := by
  cases p <;> simp only [Primitive.run]
  case intAdd | intSub | intMul | intDiv | intMod | intBitAnd | intBitOr | intBitShift =>
    exact hc.attempts_of_abides (hc.arithmetic _)
  case intLess | intGreater | intLessEqual | intGreaterEqual =>
    exact hc.attempts_of_abides (hc.comparison _)
  case intEqual | intNotEqual => exact hc.attempts_of_abides (hc.integerEquality _)
  case identical => exact hc.attempts_of_abides hc.identical
  case classOf => exact hc.attempts_of_abides hc.classPrimitive
  case basicNew => exact hc.attempts_of_abides hc.basicNew
  case basicNewSized => exact hc.attempts_of_abides hc.basicNewSized
  case basicAt => exact hc.attempts_of_abides hc.basicAt
  case basicAtPut => exact hc.attempts_of_abides hc.basicAtPut
  case basicSize => exact hc.attempts_of_abides hc.basicSize
  case hash => exact hc.attempts_of_abides hc.hash
  case blockValue | blockValue1 | blockValue2 | blockValue3 => exact hc.blockValue _
  case blockValueWithArguments => exact hc.valueWithArguments
  case perform | performWith | performWithWith => exact hc.perform send _ (by decide) hsend
  case fork => exact hc.fork
  case semaphoreWait => exact hc.wait
  case semaphoreSignal => exact hc.signal
  case processorYield => exact hc.yield
  case nextInputEvent => exact hc.attempts_of_abides hc.nextInputEvent
  case newSemaphore =>
    exact hc.attempts_of_abides (hc.abides_bind hc.newSemaphore fun v => hc.answer 0 v)

theorem tryPrimitive {send : Value → MachineM Unit} (hsend : ∀ v, Departs A D (send v))
    (number argc : Nat) : Attempts A D (tryPrimitive store send number argc) := by
  unfold Machine.tryPrimitive
  split
  · next p _ =>
    exact Attempts.ite (hc.attempts_attempt (hc.primitive hsend p))
      (hc.attempts_of_abides (hc.abides_pure _))
  · exact hc.attempts_of_abides (hc.abides_pure _)

/-! ### Sends -/

/-- A method is invoked by activating it, or by a primitive, or at once. -/
theorem invoke {send : Value → MachineM Unit} (hsend : ∀ v, Departs A D (send v))
    (method : Value) (argc : Nat) : Departs A D (invoke store send method argc) := by
  intro m
  unfold Machine.invoke
  rw [bind_run]
  cases hread : read (fun m => (do
      return (← MethodHeader.ofValue (← m.heap.fetchField method Slot.methodHeader)) :
        Except Fault MethodHeader)) m with
  | error fault m₁ =>
      have heq := congrArg stateAfter hread
      rw [stateAfter_read] at heq
      rw [← show m = m₁ from heq]
      exact hc.excused (hc.refl m) fault
  | ok header m₁ =>
      obtain ⟨hheader, rfl⟩ := read_eq_ok.mp hread
      obtain ⟨v, hv, hrest⟩ := reading_bind_eq_ok.mp hheader
      have hfield := liftFault_eq_ok.mp hv
      have hvalue : MethodHeader.ofValue v = .ok header := by
        cases hof : MethodHeader.ofValue v with
        | ok a =>
            rw [hof] at hrest
            cases hrest
            rfl
        | error fault =>
            rw [hof] at hrest
            cases hrest
      -- with code and after a primitive has declined the method is activated, in the second case later
      have hactivate : ∀ m₂, A m₁ m₂ →
          Departed A D m₁ (activateMethod method header argc m₂) :=
        fun m₂ => hc.activate m₁ m₂ method header argc v hfield hvalue
      dsimp only
      split
      · cases header.kind with
        | bytecodes => exact hactivate m₁ (hc.refl m₁)
        | primitive =>
            have htried := hc.tryPrimitive hsend header.index.toNat argc m₁
            dsimp only
            rw [bind_run]
            cases hrun : Machine.tryPrimitive store send header.index.toNat argc m₁ with
            | ok done m₂ =>
                rw [hrun] at htried
                cases done with
                | true => exact htried.1
                | false => exact hactivate m₂ (htried.2 rfl)
            | error fault m₂ =>
                rw [hrun] at htried
                exact htried
        | returnField =>
            exact hc.departs_of_abides (hc.abides_bind hc.pop fun receiver =>
              hc.abides_bind (hc.abides_fetchField _ _) fun v => hc.push v) m₁
        | popAndStoreField =>
            exact hc.departs_of_abides (hc.abides_bind hc.pop fun v =>
              hc.abides_bind (hc.abides_read _) fun receiver => hc.setField _ _ _) m₁
      · exact hc.departs_throw _ m₁

theorem lookup (type selector : Value) : Abides A (lookup type selector) := by
  refine hc.abides_bind (fun m => hc.cache m _) fun cached => ?_
  cases cached with
  | some method => exact hc.abides_pure _
  | none =>
      refine hc.abides_bind (hc.abides_read _) fun found => ?_
      cases found with
      | none => exact hc.abides_pure _
      | some method => exact hc.abides_bind (fun m => hc.cache m _) fun _ => hc.abides_pure _

theorem dispatch {unknown : Value → Value → Nat → MachineM Unit} {send : Value → MachineM Unit}
    (hunknown : ∀ type selector argc, Departs A D (unknown type selector argc))
    (hsend : ∀ v, Departs A D (send v)) (argc : Nat) (selector : Value) :
    Departs A D (dispatch store unknown send argc selector) := by
  refine hc.departs_bind (hc.abides_read _) fun receiver => ?_
  refine hc.departs_bind (hc.abides_read _) fun type => ?_
  refine hc.departs_bind (hc.lookup type selector) fun method => ?_
  cases method with
  | some method => exact hc.invoke hsend method argc
  | none => exact hunknown type selector argc

/-- Computed messages nest as deep as there are arguments. -/
theorem sendWith {unknown : Value → Value → Nat → MachineM Unit}
    (hunknown : ∀ type selector argc, Departs A D (unknown type selector argc))
    (argc : Nat) (selector : Value) : Departs A D (sendWith store unknown argc selector) := by
  induction argc generalizing selector with
  | zero => exact hc.dispatch hunknown (fun _ => hc.departs_throw _) 0 selector
  | succ argc ih => exact hc.dispatch hunknown ih (argc + 1) selector

/-- What becomes of an unknown message, once the handler has been looked up. -/
theorem handle (handler : Option Value) (type selector : Value) (argc : Nat) :
    Departs A D (match handler with
      | some handler => do
        Machine.popN argc
        Machine.push selector
        Machine.invoke store (Machine.sendWith store (fun _ _ _ => throw .endless) 0) handler 1
      | none => do
        let selectorText ← read (·.textOf selector)
        let typeText ← read (·.typeName type)
        throw (.unknownSelector selectorText typeText)) := by
  cases handler with
  | none =>
      refine hc.departs_bind (hc.abides_read _) fun selectorText => ?_
      exact hc.departs_bind (hc.abides_read _) fun typeText => hc.departs_throw _
  | some handler =>
      refine hc.departs_bind (hc.popN argc) fun _ => hc.departs_bind (hc.push selector) fun _ => ?_
      exact hc.invoke (fun v => hc.sendWith (fun _ _ _ => hc.departs_throw _) 0 v) handler 1

theorem doesNotUnderstand (type selector : Value) (argc : Nat) :
    Departs A D (doesNotUnderstand store type selector argc) := by
  refine hc.departs_bind (hc.abides_landmark _) fun handlerSelector => Departs.ite ?_ ?_
  · exact hc.departs_bind (hc.abides_pure _) fun handler => hc.handle handler type selector argc
  · exact hc.departs_bind (hc.lookup _ _) fun handler => hc.handle handler type selector argc

theorem send (selector : Value) (argc : Nat) : Departs A D (send store selector argc) :=
  hc.sendWith hc.doesNotUnderstand argc selector

theorem specialSend (index : UInt8) (argc : Nat) : Departs A D (specialSend store index argc) := by
  unfold Machine.specialSend
  split
  · exact hc.departs_throw _
  · next entry _ =>
    refine Departs.ite ?_ (hc.departs_throw _)
    have hsend : Departs A D (do
        Machine.send store (← fetchField (← landmark .specialSelectors) index.toNat) argc) :=
      hc.departs_bind (hc.abides_landmark _) fun selectors =>
        hc.departs_bind (hc.abides_fetchField _ _) fun selector => hc.send selector argc
    split
    · next p _ =>
      intro m
      have htried := hc.tryPrimitive (fun v => hc.send v (argc - 1)) p.number argc m
      dsimp only
      rw [bind_run]
      cases hrun : Machine.tryPrimitive store (Machine.send store · (argc - 1)) p.number argc m with
      | ok done m₁ =>
          rw [hrun] at htried
          cases done with
          | true => exact htried.1
          | false => exact hc.trans_departed (htried.2 rfl) (hsend m₁)
      | error fault m₁ =>
          rw [hrun] at htried
          exact htried
    · exact hsend

/-! ### Whole instructions -/

theorem jump (delta : UInt16) : Abides A (jump delta) := fun m => hc.ip m _

theorem jumpIf (wanted : Bool) (delta : UInt16) : Abides A (jumpIf wanted delta) := by
  refine hc.abides_bind hc.pop fun condition => hc.abides_bind (hc.abides_landmark _) fun yes => ?_
  refine hc.abides_bind (hc.abides_landmark _) fun no => ?_
  have hgo : ∀ truth : Bool, Abides A (if truth = wanted then Machine.jump delta else pure ()) :=
    fun truth => Abides.ite (hc.jump delta) (hc.abides_pure _)
  exact Abides.ite (hc.abides_bind (hc.abides_pure _) hgo)
    (Abides.ite (hc.abides_bind (hc.abides_pure _) hgo) (hc.abides_bind (hc.abides_throw _) hgo))

omit hc in
theorem departed_state {r : EStateM.Result Fault Machine α} (h : Departed A D m r) :
    D m (stateAfter r) := by
  cases r with
  | ok a m' => exact h
  | error fault m' => exact h.1

/-- An instruction leaves a machine that is fit for the next one. -/
theorem execute {i : Instruction}
    (htemporary : ∀ index, i = .popStoreTemporary index → ∀ v, Abides A (storeTemporary index.toNat v))
    (m : Machine) : D m (stateAfter (execute store i m)) := by
  have hquiet : ∀ {action : MachineM Unit}, Abides A action → D m (stateAfter (action m)) :=
    fun h => hc.departs (h m)
  have hdeparts : ∀ {action : MachineM Unit}, Departs A D action → D m (stateAfter (action m)) :=
    fun h => departed_state (h m)
  cases i with
  | ret kind => exact hc.leave kind m
  | send literal argc =>
      exact hdeparts (hc.departs_bind (hc.abides_read _) fun v => hc.send v argc.toNat)
  | specialSend selector argc => exact hdeparts (hc.specialSend selector argc.toNat)
  | pushSpecial constant => exact hquiet (hc.abides_bind hc.abides_get fun m => hc.push _)
  | pushLiteral index => exact hquiet (hc.abides_bind (hc.abides_read _) hc.push)
  | pushTemporary index => exact hquiet (hc.abides_bind (hc.abides_read _) hc.push)
  | pushField index =>
      exact hquiet (hc.abides_bind hc.abides_get fun m =>
        hc.abides_bind (hc.abides_fetchField _ _) hc.push)
  | pushGlobal literal => exact hquiet (hc.abides_bind (hc.abides_read _) hc.push)
  | popStoreTemporary index => exact hquiet (hc.abides_bind hc.pop (htemporary index rfl))
  | popStoreField index =>
      exact hquiet (hc.abides_bind hc.pop fun v => hc.abides_bind hc.abides_get fun m =>
        hc.setField _ _ v)
  | popStoreGlobal literal =>
      exact hquiet (hc.abides_bind (hc.abides_read _) fun name =>
        hc.abides_bind hc.pop fun v => hc.setGlobal name v)
  | pop => exact hquiet (hc.abides_bind hc.pop fun _ => hc.abides_pure _)
  | dup => exact hquiet (hc.abides_bind (hc.abides_read _) hc.push)
  | jump delta => exact hquiet (hc.jump delta)
  | jumpBack delta => exact hc.departs (hc.ip m _)
  | jumpIfTrue delta => exact hquiet (hc.jumpIf _ delta)
  | jumpIfFalse delta => exact hquiet (hc.jumpIf _ delta)
  | blockCopy argc length => exact hquiet (hc.blockCopy argc length)

/-- The same of an instruction together with its reading. -/
theorem stepWith (m : Machine) (htemporary : ∀ (next : Nat) (index : UInt8),
      m.fetch = .ok (.popStoreTemporary index, next) → ∀ v, Abides A (storeTemporary index.toNat v)) :
    D m (stateAfter (stepWith store m)) := by
  unfold Machine.stepWith
  rw [bind_run]
  cases hread : read (·.fetch) m with
  | error fault m₁ =>
      have heq := congrArg stateAfter hread
      rw [stateAfter_read] at heq
      rw [← show m = m₁ from heq]
      exact hc.departs (hc.refl m)
  | ok fetched m₁ =>
      obtain ⟨hfetch, rfl⟩ := read_eq_ok.mp hread
      obtain ⟨i, next⟩ := fetched
      refine hc.trans_departs (hc.ip m₁ next) (hc.execute (i := i) ?_ _)
      rintro index rfl
      exact htemporary next index hfetch

end Conducts

end MessageMachine.Machine
