import MessageMachine.Machine.Context
import MessageMachine.Proofs.Schedule.Order

/-!
# Quiet actions

Most of what a machine does has nothing to do with processes: it moves values, makes contexts and
loads registers.  Such an action keeps every property that undisturbed changes keep.

* `Steady P`: `P` is such a property.  `Orderly` is one, and so is `P` together with a value being
  open, which is how a context that was just made is kept apart from the shielded objects until its
  fields are filled.
* `Opens P action`: the action keeps `P` and answers an open value.

An action that only loads or fills contexts is quiet because a value that can be loaded as a context
is open (`open_of_loadContext`).
-/

namespace MessageMachine

namespace Machine

variable {m m' : Machine} {P : Machine → Prop} {α β : Type}

/-! ## Steady properties -/

/-- A property of sound machines that undisturbed changes keep. -/
structure Steady (P : Machine → Prop) : Prop where
  sound : ∀ m, P m → Sound m
  undisturbed : ∀ m m', P m → Undisturbed m m' → P m'

theorem steady_orderly (runner : Option Value) (ended : Set Value) : Steady (Orderly runner ended) :=
  ⟨fun _ ⟨_, ho⟩ => ho.sound, fun _ _ ho hu => ho.undisturbed hu⟩

theorem steady_orderlyWhile (pending : Bool) (runner : Option Value) (ended : Set Value) :
    Steady (OrderlyWhile pending runner ended) :=
  ⟨fun _ ⟨⟨_, ho⟩, _⟩ => ho.sound, fun _ _ ho hu => ho.undisturbed hu⟩

theorem Steady.and_open (hP : Steady P) (v : Value) :
    Steady fun m => P m ∧ Open m.known m.heap v := by
  refine ⟨fun m hm => hP.sound m hm.1, ?_⟩
  rintro m m' ⟨hm, hopen⟩ hu
  refine ⟨hP.undisturbed m m' hm hu, ?_⟩
  rw [hu.known_eq]
  exact hopen.calm (hP.sound m hm).furnished hu.calm

/-- A change that is neither of the heap nor of what the order of processes depends on. -/
theorem Sound.undisturbed_of_eq (hs : Sound m) (hheap : m'.heap = m.heap)
    (hknown : m'.known = m.known)
    (hpending : m'.schedule.switchPending = m.schedule.switchPending)
    (hcontext : m'.regs.activeContext = m.regs.activeContext)
    (hbase : m'.regs.stackBase = m.regs.stackBase)
    (hentry : m'.regs.entryProcess = m.regs.entryProcess)
    (hwait : m'.regs.entryWait = m.regs.entryWait) : Undisturbed m m' := by
  refine ⟨hknown, ?_, hpending, hentry, hwait, ?_, ?_⟩
  · rw [hheap]
    exact Calm.refl hs.furnished.settled
  · rw [hknown, hheap, hcontext]
    exact hs.context
  · rw [hknown, hcontext, hbase]
    exact hs.stackBase

/-! ## Reading and changing the state -/

theorem keeps_read (f : Machine → Except Fault α) : Keeps P (read f) := by
  intro m hm
  rw [stateAfter_read]
  exact hm

theorem keeps_readHeap (f : Heap → Except HeapFault α) : Keeps P (readHeap f) := by
  intro m hm
  rw [stateAfter_readHeap]
  exact hm

theorem keeps_fetchField (v : Value) (i : Nat) : Keeps P (fetchField v i) := keeps_readHeap _

theorem keeps_landmark (l : Landmark) : Keeps P (landmark l) := fun _ hm => hm

theorem keeps_get : Keeps P (get : MachineM Machine) := fun _ hm => hm

/-- A reading that does not depend on the machine. -/
theorem keeps_lift (x : Except Fault α) : Keeps P (liftM x : MachineM α) := by
  intro m hm
  cases x <;> exact hm

theorem keeps_modify (hP : Steady P) {f : Machine → Machine}
    (hf : ∀ m, Sound m → Undisturbed m (f m)) : Keeps P (modify f : MachineM Unit) :=
  fun m hm => hP.undisturbed m (f m) hm (hf m (hP.sound m hm))

/-- A change of the registers other than those that say which context is active and where the entry
process is. -/
theorem keeps_modifyRegs (hP : Steady P) {f : Registers → Registers}
    (hf : ∀ r, (f r).activeContext = r.activeContext ∧ (f r).stackBase = r.stackBase ∧
      (f r).entryProcess = r.entryProcess ∧ (f r).entryWait = r.entryWait) :
    Keeps P (modifyRegs f) := by
  refine keeps_modify hP fun m hs => ?_
  obtain ⟨hcontext, hbase, hentry, hwait⟩ := hf m.regs
  exact hs.undisturbed_of_eq rfl rfl rfl hcontext hbase hentry hwait

/-- An action on the heap that is calm. -/
theorem keeps_onHeap (hP : Steady P) {action : HeapM α}
    (hcalm : ∀ m, P m → Calm m.known m.heap (stateAfter (action m.heap))) :
    Keeps P (onHeap action) := by
  intro m hm
  rw [stateAfter_onHeap]
  exact hP.undisturbed _ _ hm ((hP.sound m hm).undisturbed_heap (hcalm m hm))

theorem keeps_storeField (hP : Steady P) {v new : Value} {i : Nat}
    (hallowed : ∀ m, P m → Open m.known m.heap v ∨ watched ≤ i ∨ i = 1 ∧ new = m.known .nil) :
    Keeps P (storeField v i new) :=
  keeps_onHeap hP fun m hm => calm_storeField (hP.sound m hm).furnished.settled (hallowed m hm)

/-! ## Open values -/

/-- The action keeps `P` and answers an open value. -/
def Opens (P : Machine → Prop) (action : MachineM Value) : Prop :=
  Ensures P action (fun v m => P m ∧ Open m.known m.heap v) fun _ => P

theorem Opens.keeps {action : MachineM Value} (h : Opens P action) : Keeps P action :=
  (h.weaken (fun _ => id) (fun _ _ hm => hm.1) fun _ _ => id).keeps

/-- The value is open while the rest of the action runs. -/
theorem Opens.bind {x : MachineM Value} {f : Value → MachineM β} (hx : Opens P x)
    (hf : ∀ v, Keeps (fun m => P m ∧ Open m.known m.heap v) (f v)) : Keeps P (x >>= f) :=
  (Ensures.bind hx fun v =>
    (hf v).ensures.weaken (fun _ => id) (fun _ _ hm => hm.1) fun _ _ hm => hm.1).keeps

/-- The active context is open, also later in the action that looked it up. -/
theorem keeps_get_bind (hP : Steady P) {f : Machine → MachineM β}
    (hf : ∀ m₀, Keeps (fun m => P m ∧ Open m.known m.heap m₀.regs.activeContext) (f m₀)) :
    Keeps P (get >>= f) := by
  intro m hm
  exact (hf m m ⟨hm, (hP.sound m hm).context⟩).1

theorem keeps_storeField_open (hP : Steady P) (v new : Value) (i : Nat) :
    Keeps (fun m => P m ∧ Open m.known m.heap v) (storeField v i new) :=
  keeps_storeField (hP.and_open v) fun _ hm => .inl hm.2

/-- A new object of a type that holds no queue. -/
theorem opens_newObject (hP : Steady P) {type : Landmark} (htype : type ∈ plainTypes)
    (count : Nat) : Opens P (newObject type count) := by
  intro m hm
  have hs := hP.sound m hm
  have houtcome : Ensures (m = ·) (newObject type count)
      (fun v m' => P m' ∧ Open m'.known m'.heap v) fun _ => P := by
    refine (ensures_newObject hs.furnished.settled type count).weaken (fun _ => id) ?_ ?_
    · rintro v _ ⟨h, hmade, rfl⟩
      obtain ⟨hsemaphore, hlink⟩ := hs.furnished.plain type htype
      exact ⟨hP.undisturbed _ _ hm (hs.undisturbed_heap hmade.calm),
        hmade.open hs.furnished hsemaphore hlink⟩
    · rintro _ _ rfl
      exact hm
  exact houtcome m rfl

/-! ## Registers and the operand stack -/

/-- What can be loaded as a context is open: it has a method, where semaphores and links have nil and
the processor and its table have no field. -/
theorem open_of_loadContext {k : Landmarks} {h : Heap} (hf : Furnished k h) {regs regs' : Registers}
    {context : Value} (hload : loadContext h regs context = .ok regs') :
    Open k h context ∧ regs'.activeContext = context ∧ 0 < regs'.stackBase ∧
      regs'.entryProcess = regs.entryProcess ∧ regs'.entryWait = regs.entryWait := by
  simp only [loadContext, reading_bind_eq_ok] at hload
  obtain ⟨method, hmethod, _, _, _, _, _, _, _, _, receiver, hreceiver, _, _, hrest⟩ := hload
  have hend : (∃ header, h.fetchField method Slot.methodHeader = .ok header) ∧
      regs'.activeContext = context ∧ 0 < regs'.stackBase ∧
      regs'.entryProcess = regs.entryProcess ∧ regs'.entryWait = regs.entryWait := by
    split at hrest
    all_goals
      simp only [reading_bind_eq_ok, reading_pure_eq_ok] at hrest
      obtain ⟨_, _, _, hheader, _, _, _, _, _, _, rfl⟩ := hrest
      refine ⟨⟨_, hheader⟩, rfl, ?_, rfl, rfl⟩
      exact Nat.lt_of_lt_of_le (by decide : 0 < Slot.contextTail) (by simp)
  obtain ⟨⟨header, hheader⟩, hregs⟩ := hend
  refine ⟨⟨Heap.exists_typeOf_of_fetchField hmethod, ?_⟩, hregs⟩
  rintro ⟨hnil, hqueueing | rfl | htable⟩
  · have hblank := hf.blank context _ method hqueueing (by decide) (by decide) hmethod
    rw [hblank] at hheader
    exact hf.nil_fetchField _ _ hheader
  · exact absurd (Heap.lt_of_fetchField hf.processor_size hreceiver) (by decide)
  · exact absurd (Heap.lt_of_fetchField (hf.table context htable hnil).1 hmethod) (by decide)

theorem keeps_reload (hP : Steady P) (context : Value) : Keeps P (reload context) := by
  intro m hm
  have hs := hP.sound m hm
  unfold reload
  rw [bind_run]
  cases hload : read (fun m => (loadContext m.heap m.regs context : Except Fault Registers)) m with
  | error fault t =>
      have heq := congrArg stateAfter hload
      rw [stateAfter_read] at heq
      subst heq
      exact hm
  | ok regs t =>
      obtain ⟨hok, rfl⟩ := read_eq_ok.mp hload
      obtain ⟨hopen, hcontext, hbase, hentry, hwait⟩ :=
        open_of_loadContext hs.furnished (liftFault_eq_ok.mp hok)
      refine hP.undisturbed _ _ hm ⟨rfl, Calm.refl hs.furnished.settled, rfl, hentry, hwait, ?_,
        .inr hbase⟩
      rw [← hcontext] at hopen
      exact hopen

theorem keeps_clearRegisters (hP : Steady P) : Keeps P clearRegisters := by
  intro m hm
  have hs := hP.sound m hm
  exact hP.undisturbed _ _ hm ⟨rfl, Calm.refl hs.furnished.settled, rfl, rfl, rfl,
    hs.furnished.open_nil, .inl rfl⟩

theorem keeps_flush (hP : Steady P) : Keeps P flush := by
  refine keeps_get_bind hP fun m₀ => Keeps.bind (keeps_landmark _) fun nil => ?_
  split
  · exact Keeps.pure _
  · exact Keeps.bind (keeps_storeField_open hP _ _ _) fun _ => keeps_storeField_open hP _ _ _

theorem keeps_push (hP : Steady P) (v : Value) : Keeps P (push v) := by
  refine keeps_get_bind hP fun m₀ => ?_
  dsimp only
  split
  · exact Keeps.throw _
  · refine Keeps.bind (keeps_storeField_open hP _ _ _) fun _ => ?_
    exact keeps_modifyRegs (hP.and_open _) fun r => ⟨rfl, rfl, rfl, rfl⟩

theorem keeps_pop (hP : Steady P) : Keeps P pop :=
  Keeps.bind (keeps_read _) fun _ =>
    Keeps.bind (keeps_modifyRegs hP fun _ => ⟨rfl, rfl, rfl, rfl⟩) fun _ => Keeps.pure _

theorem keeps_popN (hP : Steady P) (n : Nat) : Keeps P (popN n) := by
  refine Keeps.bind keeps_get fun m₀ => ?_
  dsimp only
  split
  · exact Keeps.throw _
  · exact keeps_modifyRegs hP fun _ => ⟨rfl, rfl, rfl, rfl⟩

/-- Temporaries are behind the fields that are watched. -/
theorem keeps_storeTemporary (hP : Steady P) (i : Nat) (v : Value) :
    Keeps P (storeTemporary i v) := by
  refine Keeps.bind keeps_get fun m₀ => ?_
  dsimp only
  split
  · exact Keeps.throw _
  · exact keeps_storeField hP fun _ _ => .inr (.inl (Nat.le_add_right _ _))

/-! ## Contexts -/

/-- A store into a context that is being filled. -/
theorem ensures_fill (hP : Steady P) (v new : Value) (i : Nat) :
    Ensures (fun m => P m ∧ Open m.known m.heap v) (storeField v i new)
      (fun _ m => P m ∧ Open m.known m.heap v) fun _ => P :=
  (keeps_storeField_open hP v new i).ensures.weaken (fun _ => id) (fun _ _ => id) fun _ _ hm => hm.1

theorem keeps_transferFields (hP : Steady P) (source target : Value)
    (sourceStart targetStart count : Nat) :
    Keeps (fun m => P m ∧ Open m.known m.heap target)
      (onHeap (Heap.transferFields source sourceStart target targetStart count)) :=
  keeps_onHeap (hP.and_open target) fun m hm =>
    calm_transferFields (hP.sound m hm.1).furnished.settled hm.2

theorem opens_newMethodContext (hP : Steady P) (method : Value) (header : MethodHeader)
    (sender receiver : Value) : Opens P (newMethodContext method header sender receiver) := by
  refine Ensures.bind keeps_get.ensures fun m₀ => ?_
  refine Ensures.bind (opens_newObject hP (by decide) _) fun context => ?_
  have hfill := ensures_fill hP context
  exact (hfill _ _).bind fun _ => (hfill _ _).bind fun _ => (hfill _ _).bind fun _ =>
    (hfill _ _).bind fun _ => (hfill _ _).bind fun _ => Ensures.pure fun _ => id

theorem keeps_activateMethod (hP : Steady P) (method : Value) (header : MethodHeader)
    (argc : Nat) : Keeps P (activateMethod method header argc) := by
  refine Keeps.bind (keeps_read _) fun receiver => Keeps.bind keeps_get fun m₀ => ?_
  refine Opens.bind (opens_newMethodContext hP method header _ receiver) fun context => ?_
  have hP' := hP.and_open context
  refine Keeps.bind keeps_get fun m₁ => (keeps_transferFields hP _ _ _ _ _).bind fun _ => ?_
  exact (keeps_popN hP' _).bind fun _ => (keeps_flush hP').bind fun _ => keeps_reload hP' _

theorem opens_entryContext (hP : Steady P) (method receiver : Value) (arguments : List Value) :
    Opens P (entryContext method receiver arguments) := by
  refine Ensures.bind (keeps_read _).ensures fun header => ?_
  refine Ensures.ite (fun _ => ?_) fun _ => Ensures.throw fun _ => id
  refine Ensures.ite (fun _ => ?_) fun _ => Ensures.throw fun _ => id
  refine Ensures.bind (keeps_landmark .nil).ensures fun nil => ?_
  refine Ensures.bind (opens_newMethodContext hP method header nil receiver) fun context => ?_
  refine Ensures.bind ?_ fun _ => Ensures.pure fun _ => id
  refine (Keeps.forM ?_).ensures.weaken (fun _ => id) (fun _ _ => id) fun _ _ hm => hm.1
  exact fun _ _ => keeps_storeField_open hP context _ _

theorem keeps_blockCopy (hP : Steady P) (argc : UInt8) (length : UInt16) :
    Keeps P (blockCopy argc length) := by
  refine Keeps.bind keeps_get fun m₀ => Keeps.bind keeps_get fun m₁ => ?_
  refine Opens.bind (opens_newObject hP (by decide) _) fun block => ?_
  have hstore := keeps_storeField_open hP block
  refine Keeps.bind keeps_get fun m₂ => (keeps_fetchField _ _).bind fun homeSender => ?_
  refine (hstore _ _).bind fun _ => (hstore _ _).bind fun _ => (hstore _ _).bind fun _ => ?_
  refine (hstore _ _).bind fun _ => (hstore _ _).bind fun _ => (hstore _ _).bind fun _ => ?_
  refine (hstore _ _).bind fun _ => (hstore _ _).bind fun _ => ?_
  refine (keeps_push (hP.and_open block) _).bind fun _ => ?_
  exact keeps_modifyRegs (hP.and_open block) fun _ => ⟨rfl, rfl, rfl, rfl⟩

theorem opens_instantiateBlock (hP : Steady P) (block caller : Value) :
    Opens P (instantiateBlock block caller) := by
  refine Ensures.bind (keeps_readHeap _).ensures fun size => ?_
  refine Ensures.bind (opens_newObject hP (by decide) _) fun context => ?_
  have hfill := ensures_fill hP context
  refine Ensures.bind ((keeps_transferFields hP _ _ _ _ _).ensures.weaken (fun _ => id)
    (fun _ _ => id) fun _ _ hm => hm.1) fun _ => ?_
  refine Ensures.bind ((keeps_fetchField _ _).ensures.weaken (fun _ => id) (fun _ _ => id)
    fun _ _ hm => hm.1) fun initialIp => ?_
  exact (hfill _ _).bind fun _ => (hfill _ _).bind fun _ => (hfill _ _).bind fun _ =>
    Ensures.pure fun _ => id

theorem keeps_activateBlock (hP : Steady P) (block source : Value) (first argc consumed : Nat) :
    Keeps P (activateBlock block source first argc consumed) := by
  refine Keeps.bind (keeps_read _) fun expected => ?_
  refine Keeps.ite ?_ (Keeps.throw _)
  refine Keeps.bind keeps_get fun m₀ => ?_
  refine Opens.bind (opens_instantiateBlock hP block _) fun context => ?_
  have hP' := hP.and_open context
  refine (keeps_transferFields hP _ _ _ _ _).bind fun _ => ?_
  refine (keeps_storeField_open hP context _ _).bind fun _ => (keeps_popN hP' _).bind fun _ => ?_
  exact (keeps_flush hP').bind fun _ => keeps_reload hP' _

/-- A context that has been left gets nil for its instruction pointer, which is the cut that a calm
change allows. -/
theorem keeps_markLeft (hP : Steady P) (context : Value) : Keeps P (markLeft context) := by
  intro m hm
  have hs := hP.sound m hm
  change P (stateAfter (onHeap (Heap.storeField context Slot.ip (m.known .nil)) m))
  rw [stateAfter_onHeap]
  refine hP.undisturbed _ _ hm (hs.undisturbed_heap ?_)
  exact calm_storeField hs.furnished.settled (.inr (.inr ⟨rfl, rfl⟩))

end Machine

end MessageMachine
