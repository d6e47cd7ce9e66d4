import MessageMachine.Machine.Send
import MessageMachine.Proofs.Machine.Access

/-!
# Actions apart from the method cache

Only lookups read and change the method cache.  `Uncached action` says that an action does neither:
with another cache it does the same and leaves that cache.  The primitives that special sends try
first are such actions (`Primitive.uncached_run`), so it does not matter to them whether the method
was looked up before.
-/

namespace MessageMachine

namespace Machine

/-- The machine with another method cache. -/
def withCache (m : Machine) (c : MethodCache) : Machine := { m with cache := c }

@[simp] theorem withCache_heap (m : Machine) (c : MethodCache) : (m.withCache c).heap = m.heap := rfl

/-- The outcome with another method cache. -/
def recached (c : MethodCache) : EStateM.Result Fault Machine α → EStateM.Result Fault Machine α
  | .ok a m => .ok a (m.withCache c)
  | .error fault m => .error fault (m.withCache c)

/-- The action neither reads nor changes the method cache. -/
def Uncached (action : MachineM α) : Prop :=
  ∀ m c, action (m.withCache c) = recached c (action m)

namespace Uncached

theorem pure (a : α) : Uncached (Pure.pure a : MachineM α) := fun _ _ => rfl

theorem throw (fault : Fault) : Uncached (MonadExcept.throw fault : MachineM α) := fun _ _ => rfl

theorem bind {x : MachineM α} {f : α → MachineM β} (hx : Uncached x) (hf : ∀ a, Uncached (f a)) :
    Uncached (x >>= f) := by
  intro m c
  rw [bind_run, bind_run, hx m c]
  cases x m with
  | ok a m' => exact hf a m' c
  | error fault m' => rfl

theorem ite {p : Prop} [Decidable p] {x y : MachineM α} (hx : Uncached x) (hy : Uncached y) :
    Uncached (if p then x else y) := by
  split
  · exact hx
  · exact hy

/-- What follows a look at the machine may use all of it but the cache. -/
theorem bind_get {f : Machine → MachineM α} (hf : ∀ m, Uncached (f m))
    (hsame : ∀ m c, f (m.withCache c) = f m) : Uncached (get >>= f) := by
  intro m c
  change f (m.withCache c) (m.withCache c) = recached c (f m m)
  rw [hsame, hf m m c]

theorem read {f : Machine → Except Fault α} (hf : ∀ m c, f (m.withCache c) = f m) :
    Uncached (Machine.read f) := by
  intro m c
  unfold Machine.read
  rw [hf]
  cases f m <;> rfl

theorem readHeap (f : Heap → Except HeapFault α) : Uncached (Machine.readHeap f) := by
  intro m c
  unfold Machine.readHeap
  rw [withCache_heap]
  cases f m.heap <;> rfl

theorem fetchField (v : Value) (i : Nat) : Uncached (Machine.fetchField v i) := readHeap _

theorem onHeap (action : HeapM α) : Uncached (Machine.onHeap action) := by
  intro m c
  rw [onHeap_run, onHeap_run, withCache_heap]
  cases action m.heap <;> rfl

theorem storeField (v : Value) (i : Nat) (new : Value) : Uncached (Machine.storeField v i new) :=
  onHeap _

theorem landmark (k : Landmark) : Uncached (Machine.landmark k) := fun _ _ => rfl

theorem modifyRegs (f : Registers → Registers) : Uncached (Machine.modifyRegs f) := fun _ _ => rfl

theorem ofInt (n : Int) : Uncached (liftM (Value.ofInt n) : MachineM Value) := by
  intro m c
  cases Value.ofInt n <;> rfl

theorem newObject (type : Landmark) (count : Nat) : Uncached (Machine.newObject type count) :=
  (landmark type).bind fun _ => (landmark .nil).bind fun _ => onHeap _

/-! ## The operand stack -/

theorem push (v : Value) : Uncached (Machine.push v) := by
  refine bind_get (fun m => ?_) fun _ _ => rfl
  exact ite ((throw _).bind fun _ => (storeField _ _ _).bind fun _ => modifyRegs _)
    ((storeField _ _ _).bind fun _ => modifyRegs _)

theorem popN (n : Nat) : Uncached (Machine.popN n) := by
  refine bind_get (fun m => ?_) fun _ _ => rfl
  exact ite ((throw _).bind fun _ => modifyRegs _) (modifyRegs _)

theorem receiver (argc : Nat) : Uncached (Machine.read (·.receiver argc)) := read fun _ _ => rfl

theorem argument (argc n : Nat) : Uncached (Machine.read (·.argument argc n)) := read fun _ _ => rfl

theorem answer (argc : Nat) (v : Value) : Uncached (Machine.answer argc v) :=
  (popN _).bind fun _ => (push v).bind fun _ => pure _

theorem flush : Uncached Machine.flush := by
  refine bind_get (fun m => ?_) fun _ _ => rfl
  exact (landmark .nil).bind fun _ =>
    ite (pure _) ((storeField _ _ _).bind fun _ => storeField _ _ _)

theorem reload (context : Value) : Uncached (Machine.reload context) :=
  (read fun _ _ => rfl).bind fun _ => modifyRegs _

/-! ## Primitives -/

/-- Trying an action is apart from the cache if the action is. -/
theorem attempt {action : MachineM Bool} (haction : Uncached action) :
    Uncached (Machine.attempt action) := by
  intro m c
  unfold Machine.attempt
  rw [haction m c]
  cases action m with
  | ok b m' => cases b <;> rfl
  | error fault m' =>
      dsimp only [recached]
      split <;> rfl

theorem arithmetic (op : Int → Int → Option Int) : Uncached (Machine.arithmetic op) := by
  refine (read fun _ _ => rfl).bind fun (a, b) => ?_
  dsimp only
  cases op a b with
  | none => exact pure _
  | some n => exact (ofInt n).bind fun _ => answer 1 _

theorem comparison (op : Int → Int → Bool) : Uncached (Machine.comparison op) :=
  (read fun _ _ => rfl).bind fun _ => bind_get (fun _ => answer 1 _) fun _ _ => rfl

theorem integerEquality (wanted : Bool) : Uncached (Machine.integerEquality wanted) := by
  refine (receiver 1).bind fun v => ?_
  exact ite ((argument 1 0).bind fun _ => bind_get (fun _ => answer 1 _) fun _ _ => rfl) (pure _)

theorem identicalPrimitive : Uncached Machine.identicalPrimitive :=
  (receiver 1).bind fun _ => (argument 1 0).bind fun _ =>
    bind_get (fun _ => answer 1 _) fun _ _ => rfl

theorem classPrimitive : Uncached Machine.classPrimitive :=
  (receiver 0).bind fun _ => (read fun _ _ => rfl).bind fun _ => answer 0 _

theorem instantiate (type : Value) (indexed : Nat) : Uncached (Machine.instantiate type indexed) := by
  refine (read fun _ _ => rfl).bind fun format => (read fun _ _ => rfl).bind fun fixed => ?_
  refine ite ((throw _).bind fun _ => ?_) ?_
  all_goals
    cases format.storage with
    | fields => exact (landmark .nil).bind fun _ => onHeap _
    | bytes => exact onHeap _
    | words => exact onHeap _

theorem basicNew : Uncached Machine.basicNew := by
  refine (receiver 0).bind fun type => (read fun _ _ => rfl).bind fun accepted => ?_
  exact ite ((instantiate type 0).bind fun _ => answer 0 _) (pure _)

theorem basicNewSized : Uncached Machine.basicNewSized := by
  refine (receiver 1).bind fun type => (read fun _ _ => rfl).bind fun size =>
    (read fun _ _ => rfl).bind fun accepted => ?_
  refine ite ((read fun _ _ => rfl).bind fun format => ?_) (pure _)
  exact ite ((instantiate type size).bind fun _ => answer 1 _) (pure _)

/-! ## Blocks -/

theorem instantiateBlock (block caller : Value) :
    Uncached (Machine.instantiateBlock block caller) := by
  refine (readHeap _).bind fun size => (newObject _ _).bind fun context => ?_
  exact (onHeap _).bind fun _ => (fetchField _ _).bind fun _ => (storeField _ _ _).bind fun _ =>
    (storeField _ _ _).bind fun _ => (storeField _ _ _).bind fun _ => pure _

theorem activateBlock (block source : Value) (first argc consumed : Nat) :
    Uncached (Machine.activateBlock block source first argc consumed) := by
  have hactivate : Uncached (do
      let context ← Machine.instantiateBlock block (← get).regs.activeContext
      Machine.onHeap (Heap.transferFields source first context Slot.contextTail argc)
      Machine.storeField context Slot.sp (.ofNat (Slot.contextTail + argc - 1))
      Machine.popN consumed
      Machine.flush
      Machine.reload context) := by
    refine bind_get (fun m => ?_) fun _ _ => rfl
    exact (instantiateBlock _ _).bind fun _ => (onHeap _).bind fun _ => (storeField _ _ _).bind
      fun _ => (popN _).bind fun _ => flush.bind fun _ => reload _
  refine (read fun _ _ => rfl).bind fun expected => ?_
  exact ite hactivate ((throw _).bind fun _ => hactivate)

theorem blockValue (argc : Nat) : Uncached (Machine.blockValue argc) := by
  refine (receiver argc).bind fun block => (read fun _ _ => rfl).bind fun accepted => ?_
  refine ite (bind_get (fun m => ?_) fun _ _ => rfl) (pure _)
  exact (activateBlock _ _ _ _ _).bind fun _ => pure _

/-! ## Methods -/

theorem newMethodContext (method : Value) (header : MethodHeader) (sender receiver : Value) :
    Uncached (Machine.newMethodContext method header sender receiver) := by
  refine bind_get (fun m => ?_) fun _ _ => rfl
  exact (newObject _ _).bind fun _ => (storeField _ _ _).bind fun _ => (storeField _ _ _).bind fun _ =>
    (storeField _ _ _).bind fun _ => (storeField _ _ _).bind fun _ => (storeField _ _ _).bind fun _ => pure _

theorem activateMethod (method : Value) (header : MethodHeader) (argc : Nat) :
    Uncached (Machine.activateMethod method header argc) := by
  refine (read fun _ _ => rfl).bind fun receiver => bind_get (fun m => ?_) fun _ _ => rfl
  refine (newMethodContext _ _ _ _).bind fun context => bind_get (fun m' => ?_) fun _ _ => rfl
  exact (onHeap _).bind fun _ => (popN _).bind fun _ => flush.bind fun _ => reload _

end Uncached

end Machine

end MessageMachine
