import MessageMachine.Machine.Queue
import MessageMachine.Proofs.Schedule.Shield

/-!
# Actions of a machine on its heap

Most actions of a machine read its state or change only its heap.  This file says so, in the two
forms that the proofs about longer actions use: what an action has done when it succeeds, and what
it ensures from a given machine.
-/

namespace MessageMachine.Machine

variable {m m' : Machine}

/-! ## Reading -/

@[simp] theorem liftFault_eq_ok {x : Except HeapFault α} {a : α} :
    (liftM x : Except Fault α) = .ok a ↔ x = .ok a := by
  cases x with
  | ok b => simp [liftM, monadLift, MonadLift.monadLift]
  | error fault => simp [liftM, monadLift, MonadLift.monadLift]

theorem liftValueFault_eq_ok {x : Except ValueFault α} {a : α} :
    (liftM x : Except Fault α) = .ok a ↔ x = .ok a := by
  cases x with
  | ok b => exact ⟨fun heq => congrArg _ (Except.ok.inj heq), fun heq => congrArg _ (Except.ok.inj heq)⟩
  | error fault => exact ⟨nofun, nofun⟩

theorem read_eq_ok {f : Machine → Except Fault α} {a : α} :
    read f m = .ok a m' ↔ f m = .ok a ∧ m' = m := by
  unfold read
  cases f m with
  | ok b => simp [eq_comm]
  | error fault => simp

theorem readHeap_eq_ok {f : Heap → Except HeapFault α} {a : α} :
    readHeap f m = .ok a m' ↔ f m.heap = .ok a ∧ m' = m := by
  unfold readHeap
  cases f m.heap with
  | ok b => simp [eq_comm]
  | error fault => simp

@[simp] theorem stateAfter_read (f : Machine → Except Fault α) : stateAfter (read f m) = m := by
  unfold read
  split <;> rfl

@[simp] theorem stateAfter_readHeap (f : Heap → Except HeapFault α) :
    stateAfter (readHeap f m) = m := by
  unfold readHeap
  split <;> rfl

/-- Reading changes nothing. -/
theorem ensures_read (P : Machine → Prop) (f : Machine → Except Fault α) :
    Ensures P (read f) (fun a m => P m ∧ f m = .ok a) fun _ => P := by
  intro m hm
  unfold read
  split
  · next heq =>
    split at heq <;> cases heq
    next hf => exact ⟨hm, hf⟩
  · next heq =>
    split at heq <;> cases heq
    exact hm

theorem ensures_readHeap (P : Machine → Prop) (f : Heap → Except HeapFault α) :
    Ensures P (readHeap f) (fun a m => P m ∧ f m.heap = .ok a) fun _ => P := by
  intro m hm
  unfold readHeap
  split
  · next heq =>
    split at heq <;> cases heq
    next hf => exact ⟨hm, hf⟩
  · next heq =>
    split at heq <;> cases heq
    exact hm

theorem ensures_fetchField (P : Machine → Prop) (v : Value) (i : Nat) :
    Ensures P (fetchField v i) (fun x m => P m ∧ m.heap.fetchField v i = .ok x) fun _ => P :=
  ensures_readHeap P _

theorem ensures_landmark (P : Machine → Prop) (l : Landmark) (E : Fault → Machine → Prop) :
    Ensures P (landmark l) (fun v m => P m ∧ v = m.known l) E := fun _ hm => ⟨hm, rfl⟩

theorem ensures_get (P : Machine → Prop) (E : Fault → Machine → Prop) :
    Ensures P (get : MachineM Machine) (fun m₀ m => P m ∧ m = m₀) E := fun _ hm => ⟨hm, rfl⟩

theorem ensures_modify {P : Machine → Prop} {f : Machine → Machine} {Q : Unit → Machine → Prop}
    {E : Fault → Machine → Prop} (hf : ∀ m, P m → Q () (f m)) :
    Ensures P (modify f : MachineM Unit) Q E := hf

/-! ## Changing the heap -/

/-- The machine with another heap. -/
def withHeap (m : Machine) (h : Heap) : Machine := { m with heap := h }

@[simp] theorem withHeap_heap (m : Machine) (h : Heap) : (m.withHeap h).heap = h := rfl

@[simp] theorem withHeap_known (m : Machine) (h : Heap) : (m.withHeap h).known = m.known := rfl

@[simp] theorem withHeap_regs (m : Machine) (h : Heap) : (m.withHeap h).regs = m.regs := rfl

@[simp] theorem withHeap_schedule (m : Machine) (h : Heap) :
    (m.withHeap h).schedule = m.schedule := rfl

@[simp] theorem withHeap_withHeap (m : Machine) (h h' : Heap) :
    (m.withHeap h).withHeap h' = m.withHeap h' := rfl

@[simp] theorem withHeap_self (m : Machine) : m.withHeap m.heap = m := rfl

theorem onHeap_run (action : HeapM α) (m : Machine) :
    onHeap action m = match action m.heap with
      | .ok a h => .ok a (m.withHeap h)
      | .error fault h => .error (.heap fault) (m.withHeap h) := rfl

theorem stateAfter_onHeap (action : HeapM α) :
    stateAfter (onHeap action m) = m.withHeap (stateAfter (action m.heap)) := by
  rw [onHeap_run]
  cases action m.heap <;> rfl

theorem onHeap_eq_ok {action : HeapM α} {a : α} : onHeap action m = .ok a m' ↔
    ∃ h, action m.heap = .ok a h ∧ m' = m.withHeap h := by
  rw [onHeap_run]
  cases action m.heap with
  | ok b h =>
      constructor
      · intro heq
        cases heq
        exact ⟨h, rfl, rfl⟩
      · rintro ⟨h', heq, rfl⟩
        cases heq
        rfl
  | error fault h => simp

theorem ensures_storeField (hsettled : m.heap.Settled) (v : Value) (i : Nat) (new : Value) :
    Ensures (m = ·) (storeField v i new)
      (fun _ m' => ∃ h, Heap.Stored m.heap v i new h ∧ m' = m.withHeap h) fun _ m' => m = m' := by
  rintro _ rfl
  unfold storeField
  rw [onHeap_run]
  cases hrun : Heap.storeField v i new m.heap with
  | ok u h => exact ⟨h, Heap.stored_of_eq_ok hsettled hrun, rfl⟩
  | error fault h =>
      change m = m.withHeap h
      rw [Heap.heap_of_change_error hrun, withHeap_self]

/-- A store into a field that is there. -/
theorem ensures_storeField_of_fetchField {v old : Value} {i : Nat} (hsettled : m.heap.Settled)
    (hfetch : m.heap.fetchField v i = .ok old) (new : Value) (E : Fault → Machine → Prop) :
    Ensures (m = ·) (storeField v i new)
      (fun _ m' => ∃ h, Heap.Stored m.heap v i new h ∧ m' = m.withHeap h) E := by
  rintro _ rfl
  obtain ⟨h, hstore⟩ := Heap.storeField_of_fetchField hfetch new
  unfold storeField
  rw [onHeap_run, hstore]
  exact ⟨h, Heap.stored_of_eq_ok hsettled hstore, rfl⟩

/-- A new object. -/
theorem ensures_newObject (hsettled : m.heap.Settled) (type : Landmark) (count : Nat) :
    Ensures (m = ·) (newObject type count)
      (fun v m' => ∃ h, Heap.Made m.heap v (m.known type) count (m.known .nil) h ∧
        m' = m.withHeap h) fun _ m' => m = m' := by
  rintro _ rfl
  have hnew : newObject type count m =
      onHeap (Heap.allocateFields .ephemeral (m.known type) count (m.known .nil)) m := rfl
  rw [hnew, onHeap_run]
  cases hrun : Heap.allocateFields .ephemeral (m.known type) count (m.known .nil) m.heap with
  | ok v h => exact ⟨h, Heap.made_of_eq_ok hsettled hrun, rfl⟩
  | error fault h =>
      change m = m.withHeap h
      rw [Heap.heap_of_checked_error hrun, withHeap_self]

/-! ## Two states -/

section TwoStates

variable {R : Machine → Machine → Prop} {Q : β → Machine → Prop}

theorem yields_read_bind {f : Machine → Except Fault α} {g : α → MachineM β} (hR : R m m)
    (hg : ∀ a, f m = .ok a → Yields R (g a) Q m) : Yields R (read f >>= g) Q m := by
  unfold Yields
  rw [bind_run]
  unfold read
  cases hrun : f m with
  | ok a => exact hg a hrun
  | error fault => exact hR

theorem yields_read {f : Machine → Except Fault α} (hR : R m m) :
    Yields R (read f) (fun a m' => f m = .ok a ∧ m = m') m := by
  unfold Yields read
  cases hrun : f m with
  | ok a => exact ⟨hR, rfl, rfl⟩
  | error fault => exact hR

theorem yields_readHeap_bind {f : Heap → Except HeapFault α} {g : α → MachineM β} (hR : R m m)
    (hg : ∀ a, f m.heap = .ok a → Yields R (g a) Q m) : Yields R (readHeap f >>= g) Q m := by
  unfold Yields
  rw [bind_run]
  unfold readHeap
  cases hrun : f m.heap with
  | ok a => exact hg a hrun
  | error fault => exact hR

theorem yields_fetchField_bind {v : Value} {i : Nat} {g : Value → MachineM β} (hR : R m m)
    (hg : ∀ x, m.heap.fetchField v i = .ok x → Yields R (g x) Q m) :
    Yields R (fetchField v i >>= g) Q m := yields_readHeap_bind hR hg

theorem yields_landmark_bind {l : Landmark} {g : Value → MachineM β}
    (hg : Yields R (g (m.known l)) Q m) : Yields R (landmark l >>= g) Q m := hg

theorem ensures_get_bind {g : Machine → MachineM β} {E : Fault → Machine → Prop}
    (hg : Ensures (m = ·) (g m) Q E) : Ensures (m = ·) (get >>= g) Q E := by
  rintro _ rfl
  exact hg m rfl

theorem ensures_readHeap_bind {f : Heap → Except HeapFault α} {g : α → MachineM β}
    {E : Fault → Machine → Prop} (hE : ∀ fault, E fault m)
    (hg : ∀ a, f m.heap = .ok a → Ensures (m = ·) (g a) Q E) :
    Ensures (m = ·) (readHeap f >>= g) Q E := by
  rintro _ rfl
  rw [bind_run]
  unfold readHeap
  cases hrun : f m.heap with
  | ok a => exact hg a hrun m rfl
  | error fault => exact hE _

theorem ensures_fetchField_bind {v : Value} {i : Nat} {g : Value → MachineM β}
    {E : Fault → Machine → Prop} (hE : ∀ fault, E fault m)
    (hg : ∀ x, m.heap.fetchField v i = .ok x → Ensures (m = ·) (g x) Q E) :
    Ensures (m = ·) (fetchField v i >>= g) Q E := ensures_readHeap_bind hE hg

/-- Reading a field that is there. -/
theorem fetchField_bind_run {v x : Value} {i : Nat} {g : Value → MachineM β}
    (hfetch : m.heap.fetchField v i = .ok x) : (fetchField v i >>= g) m = g x m := by
  rw [bind_run]
  unfold fetchField readHeap
  dsimp only
  rw [hfetch]

theorem yields_get_bind {g : Machine → MachineM β} (hg : Yields R (g m) Q m) :
    Yields R (get >>= g) Q m := hg

/-- A reading that does not depend on the machine. -/
theorem yields_lift_bind {x : Except Fault α} {g : α → MachineM β} (hR : R m m)
    (hg : ∀ a, x = .ok a → Yields R (g a) Q m) :
    Yields R ((liftM x : MachineM α) >>= g) Q m := by
  unfold Yields
  rw [bind_run]
  cases hx : x with
  | ok a => exact hg a hx
  | error fault => exact hR

end TwoStates

end MessageMachine.Machine
