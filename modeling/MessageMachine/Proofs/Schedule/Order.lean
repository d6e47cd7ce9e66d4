import MessageMachine.Machine.Scheduler
import MessageMachine.Proofs.Schedule.Queues

/-!
# The order of processes

`Orderly runner ended m` is what is true of a machine at every moment, whatever programs have done
that do not store into shielded objects:

* no process is in two places of the queues;
* the active process is in no queue, unless a switch is pending;
* the entry process is in no queue but the ready one and that of the semaphore it waits for;
* the processes of `ended` are in no queue, not active, and not the entry process.

`runner` is a process that was active at an earlier moment.  Once it is no longer active it counts as
ended.  Proofs about one instruction choose the process that is active before it; where nothing is
to be remembered, `runner` is `none`.

`Undisturbed m m'` are the changes that keep all this for simple reasons, and `Steady P` are the
properties that such changes keep.
-/

namespace MessageMachine

namespace Machine

variable {m m' : Machine} {runner : Option Value} {ended : Set Value} {lines lines' : Value → Line}

/-! ## The invariant -/

/-- The process has ended: it is in `ended`, or it is the one to watch and no longer active. -/
def Over (runner : Option Value) (ended : Set Value) (m : Machine) (p : Value) : Prop :=
  p ∈ ended ∨ runner = some p ∧ p ≠ m.known .nil ∧
    m.heap.fetchField (m.known .processor) Slot.activeProcess ≠ .ok p

/-- While nothing is to be remembered, only the processes of `ended` are over. -/
theorem over_none {p : Value} : Over none ended m p ↔ p ∈ ended := by
  simp [Over]

/-- What the proofs need to know besides the queues. -/
structure Sound (m : Machine) : Prop where
  furnished : Furnished m.known m.heap
  context : Open m.known m.heap m.regs.activeContext
  stackBase : m.regs.activeContext = m.known .nil ∨ 0 < m.regs.stackBase

/-- The process exists but is in no queue, and neither active nor the entry process. -/
structure Gone (m : Machine) (lines : Value → Line) (p : Value) : Prop where
  exists_type : ∃ t, m.heap.typeOf p = .ok t
  ne_nil : p ≠ m.known .nil
  ne_entry : p ≠ m.regs.entryProcess
  not_active : m.heap.fetchField (m.known .processor) Slot.activeProcess ≠ .ok p
  unqueued : ∀ o, ¬Queued lines p o

theorem Gone.of_eq {p : Value} (hg : Gone m lines p) (hheap : m'.heap = m.heap)
    (hknown : m'.known = m.known) (hentry : m'.regs.entryProcess = m.regs.entryProcess) :
    Gone m' lines p := by
  obtain ⟨hexists, hnil, hne, hactive, hunqueued⟩ := hg
  rw [← hheap] at hexists hactive
  rw [← hknown] at hnil hactive
  rw [← hentry] at hne
  exact ⟨hexists, hnil, hne, hactive, hunqueued⟩

/-- The machine has its processes in these lines. -/
structure Ordered (runner : Option Value) (ended : Set Value) (m : Machine) (lines : Value → Line) :
    Prop where
  sound : Sound m
  arranged : Arranged m.known m.heap lines
  /-- Only while a switch is pending can there be no active process, or can it be in a queue. -/
  active : ∃ p, m.heap.fetchField (m.known .processor) Slot.activeProcess = .ok p ∧
    (p = m.known .nil ∧ m.schedule.switchPending = true ∨
      m.heap.typeOf p = .ok (m.known .process) ∧
        (m.schedule.switchPending = false → ∀ o, ¬Queued lines p o))
  entry_type : m.heap.typeOf m.regs.entryProcess = .ok (m.known .process)
  entry_waits : ∀ o, Queued lines m.regs.entryProcess o →
    o = m.known .processor ∨ o = m.regs.entryWait
  entryWait_type : m.regs.entryWait ≠ m.known .nil →
    m.heap.typeOf m.regs.entryWait = .ok (m.known .semaphore)
  gone : ∀ p, Over runner ended m p → Gone m lines p

/-- The machine has its processes in order. -/
def Orderly (runner : Option Value) (ended : Set Value) (m : Machine) : Prop :=
  ∃ lines, Ordered runner ended m lines

/-- The machine is in order, and a switch is pending or not. -/
def OrderlyWhile (pending : Bool) (runner : Option Value) (ended : Set Value) (m : Machine) : Prop :=
  Orderly runner ended m ∧ m.schedule.switchPending = pending

/-! ## Changes that keep the order -/

/-- A change that leaves the queues alone, up to cuts. -/
structure Undisturbed (m m' : Machine) : Prop where
  known_eq : m'.known = m.known
  calm : Calm m.known m.heap m'.heap
  pending_eq : m'.schedule.switchPending = m.schedule.switchPending
  entry_eq : m'.regs.entryProcess = m.regs.entryProcess
  entryWait_eq : m'.regs.entryWait = m.regs.entryWait
  context : Open m'.known m'.heap m'.regs.activeContext
  stackBase : m'.regs.activeContext = m'.known .nil ∨ 0 < m'.regs.stackBase

theorem Sound.undisturbed (hs : Sound m) (hu : Undisturbed m m') : Sound m' := by
  refine ⟨?_, hu.context, hu.stackBase⟩
  rw [hu.known_eq]
  exact hs.furnished.calm hu.calm

/-- The active process is the same after a calm change. -/
theorem active_of_calm {k : Landmarks} {h h' : Heap} (hf : Furnished k h) (hcalm : Calm k h h')
    (p : Value) : h'.fetchField (k .processor) Slot.activeProcess = .ok p ↔
      h.fetchField (k .processor) Slot.activeProcess = .ok p := by
  constructor
  · intro hp
    rcases hcalm.fetchField_back hf.shielded_processor
      (Heap.exists_typeOf_of_count hf.processor_size) (by decide) hp with hold | ⟨hone, -⟩
    · exact hold
    · cases hone
  · intro hp
    rcases hcalm.fields _ _ _ hf.shielded_processor (by decide) hp with hnew | ⟨hone, -⟩
    · exact hnew
    · cases hone

theorem Ordered.undisturbed (ho : Ordered runner ended m lines) (hu : Undisturbed m m') :
    ∃ lines', Ordered runner ended m' lines' ∧ ∀ o p, Queued lines' p o → Queued lines p o := by
  have hf := ho.sound.furnished
  obtain ⟨lines', ha, hsub⟩ := ho.arranged.calm hf hu.calm
  have hqueued : ∀ {p o}, Queued lines' p o → Queued lines p o :=
    fun hp => queued_mono (fun _ he => (hsub _).subset he) hp
  have hactive := active_of_calm hf hu.calm
  refine ⟨lines', ⟨ho.sound.undisturbed hu, ?_, ?_, ?_, ?_, ?_, ?_⟩, fun _ _ => hqueued⟩
  · rw [hu.known_eq]
    exact ha
  · obtain ⟨p, hp, hcase⟩ := ho.active
    rw [hu.known_eq, hu.pending_eq]
    refine ⟨p, (hactive p).mpr hp, hcase.imp_right ?_⟩
    rintro ⟨htype, hidle⟩
    exact ⟨hu.calm.types _ _ htype, fun hpending o hq => hidle hpending o (hqueued hq)⟩
  · rw [hu.entry_eq, hu.known_eq]
    exact hu.calm.types _ _ ho.entry_type
  · rw [hu.entry_eq, hu.known_eq, hu.entryWait_eq]
    exact fun o hq => ho.entry_waits o (hqueued hq)
  · rw [hu.entryWait_eq, hu.known_eq]
    exact fun hne => hu.calm.types _ _ (ho.entryWait_type hne)
  · intro p hover
    unfold Over at hover
    rw [hu.known_eq] at hover
    simp only [ne_eq, hactive] at hover
    have hgone := ho.gone p hover
    obtain ⟨t, ht⟩ := hgone.exists_type
    refine ⟨⟨t, hu.calm.types _ _ ht⟩, ?_, ?_, ?_, fun o hq => hgone.unqueued o (hqueued hq)⟩
    · rw [hu.known_eq]
      exact hgone.ne_nil
    · rw [hu.entry_eq]
      exact hgone.ne_entry
    · rw [hu.known_eq]
      exact fun h => hgone.not_active ((hactive p).mp h)

theorem Orderly.undisturbed (ho : Orderly runner ended m) (hu : Undisturbed m m') :
    Orderly runner ended m' := by
  obtain ⟨lines, ho⟩ := ho
  obtain ⟨lines', ho', -⟩ := ho.undisturbed hu
  exact ⟨lines', ho'⟩

/-- A calm change of the heap. -/
theorem Sound.undisturbed_heap (hs : Sound m) {h : Heap} (hcalm : Calm m.known m.heap h) :
    Undisturbed m (m.withHeap h) :=
  ⟨rfl, hcalm, rfl, rfl, rfl, hs.context.calm hs.furnished hcalm, hs.stackBase⟩

theorem OrderlyWhile.undisturbed {pending : Bool} (ho : OrderlyWhile pending runner ended m)
    (hu : Undisturbed m m') : OrderlyWhile pending runner ended m' :=
  ⟨ho.1.undisturbed hu, hu.pending_eq.trans ho.2⟩

theorem Over.of_reshaped {h : Heap} (hr : Reshaped m.known m.heap h) {p : Value}
    (hover : Over runner ended (m.withHeap h) p) : Over runner ended m p := by
  refine hover.imp_right fun ⟨hrunner, hnil, hactive⟩ => ⟨hrunner, hnil, fun hp => ?_⟩
  exact hactive ((hr.active p).mpr hp)

/-- What an operation on the queues has to leave in order. -/
theorem Ordered.reshaped (ho : Ordered runner ended m lines) {h : Heap}
    (hr : Reshaped m.known m.heap h) (ha : Arranged m.known h lines')
    (hnew : ∀ o p, Queued lines' p o → Queued lines p o ∨ ¬Over runner ended m p ∧
      (m.schedule.switchPending = false →
        m.heap.fetchField (m.known .processor) Slot.activeProcess ≠ .ok p) ∧
      (p = m.regs.entryProcess → o = m.known .processor ∨ o = m.regs.entryWait)) :
    Ordered runner ended (m.withHeap h) lines' := by
  refine ⟨⟨hr.furnished, hr.opens _ ho.sound.context, ho.sound.stackBase⟩, ha, ?_,
    hr.types _ _ ho.entry_type, ?_, fun hne => hr.types _ _ (ho.entryWait_type hne), ?_⟩
  · obtain ⟨p, hp, hcase⟩ := ho.active
    refine ⟨p, (hr.active p).mpr hp, hcase.imp_right ?_⟩
    rintro ⟨htype, hidle⟩
    refine ⟨hr.types _ _ htype, fun hpending o hq => ?_⟩
    rcases hnew o p hq with hold | ⟨-, hactive, -⟩
    · exact hidle hpending o hold
    · exact hactive hpending hp
  · intro o hq
    rcases hnew o _ hq with hold | ⟨-, -, hentry⟩
    · exact ho.entry_waits o hold
    · exact hentry rfl
  · intro p hover
    have hover' := hover.of_reshaped hr
    have hgone := ho.gone p hover'
    obtain ⟨t, ht⟩ := hgone.exists_type
    refine ⟨⟨t, hr.types _ _ ht⟩, hgone.ne_nil, hgone.ne_entry,
      fun h => hgone.not_active ((hr.active p).mp h), fun o hq => ?_⟩
    rcases hnew o p hq with hold | ⟨hno, -⟩
    · exact hgone.unqueued o hold
    · exact hno hover'

/-- A process that leaves the queues leaves them in order. -/
theorem Ordered.drops (ho : Ordered runner ended m lines) {out : Value → Value → Prop}
    (hdrops : Queue.Drops lines m out m') : ∃ lines', Ordered runner ended m' lines' ∧
      (∀ o p, Queued lines' p o → Queued lines p o ∧ ¬out p o) ∧
      ∃ h, Relinked m.known m.heap h ∧ m' = m.withHeap h := by
  obtain ⟨h, lines', rfl, hr, ha, hsub⟩ := hdrops
  exact ⟨lines', ho.reshaped hr.toReshaped ha fun o p hq => .inl (hsub o p hq).1, hsub, h, hr, rfl⟩

/-- A process that enters a queue, and is neither active nor ended, leaves them in order. -/
theorem Ordered.adds (ho : Ordered runner ended m lines) {owner p : Value}
    (hadds : Queue.Adds lines m owner p m') (hover : ¬Over runner ended m p)
    (hactive : m.schedule.switchPending = false →
      m.heap.fetchField (m.known .processor) Slot.activeProcess ≠ .ok p)
    (hentry : p = m.regs.entryProcess → owner = m.known .processor ∨ owner = m.regs.entryWait) :
    ∃ lines', Ordered runner ended m' lines' ∧ Grown lines lines' owner p ∧
      ∃ h, Relinked m.known m.heap h ∧ m' = m.withHeap h := by
  obtain ⟨h, lines', rfl, hr, ha, hgrown⟩ := hadds
  refine ⟨lines', ho.reshaped hr.toReshaped ha fun o p' hq => (hgrown o p' hq).imp_right ?_, hgrown, h, hr, rfl⟩
  rintro ⟨rfl, rfl⟩
  exact ⟨hover, hactive, hentry⟩

end Machine

end MessageMachine
