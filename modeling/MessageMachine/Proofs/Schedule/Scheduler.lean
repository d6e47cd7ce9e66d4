import MessageMachine.Proofs.Schedule.Quiet

/-!
# The transitions of processes

Signalling, waiting, yielding, forking and ending a process keep the processes in order.  Each of
them puts the active process in a queue at most once and asks for a switch at once, so the two are
considered together: `Ordered.switching` first lets the switch be pending.

The lemmas start from a given machine and are told whether a switch is pending there.  An action that
fails leaves that as it was (`Lingers`).  They also say who can have joined a queue in the meantime:
`Proceeds added` and `Follows added` name those who may have.
-/

namespace MessageMachine

namespace Machine

variable {m m' : Machine} {runner : Option Value} {ended : Set Value} {pending : Bool}
  {lines lines' : Value → Line}

/-- The machine with a switch pending. -/
def switching (m : Machine) : Machine := { m with schedule.switchPending := true }

/-- The machine with another semaphore that the entry process waits for. -/
def withEntryWait (m : Machine) (v : Value) : Machine := { m with regs.entryWait := v }

/-- What existed still does, the same process is active, and the registers are the same but for
`entryWait`. -/
structure Endures (m m' : Machine) : Prop where
  known_eq : m'.known = m.known
  types : ∀ u t, m.heap.typeOf u = .ok t → m'.heap.typeOf u = .ok t
  sizes : ∀ u n, m.heap.fieldCount u = .ok n → m'.heap.fieldCount u = .ok n
  active : ∀ p, m'.heap.fetchField (m.known .processor) Slot.activeProcess = .ok p ↔
    m.heap.fetchField (m.known .processor) Slot.activeProcess = .ok p
  table : ∀ t, m'.heap.fetchField (m.known .processor) Slot.interruptTable = .ok t ↔
    m.heap.fetchField (m.known .processor) Slot.interruptTable = .ok t
  pending : m.schedule.switchPending = true → m'.schedule.switchPending = true
  regs_eq : ∃ v, m'.regs = { m.regs with entryWait := v }

theorem Endures.refl (m : Machine) : Endures m m :=
  ⟨rfl, fun _ _ => id, fun _ _ => id, fun _ => Iff.rfl, fun _ => Iff.rfl, id, m.regs.entryWait, rfl⟩

theorem Endures.trans {m'' : Machine} (hfirst : Endures m m') (hsecond : Endures m' m'') :
    Endures m m'' := by
  obtain ⟨v, hv⟩ := hfirst.regs_eq
  obtain ⟨w, hw⟩ := hsecond.regs_eq
  have hactive := hsecond.active
  have htable := hsecond.table
  rw [hfirst.known_eq] at hactive htable
  refine ⟨hsecond.known_eq.trans hfirst.known_eq, fun u t ht => hsecond.types u t (hfirst.types u t ht),
    fun u n hn => hsecond.sizes u n (hfirst.sizes u n hn), fun p => (hactive p).trans (hfirst.active p),
    fun t => (htable t).trans (hfirst.table t), fun h => hsecond.pending (hfirst.pending h), w, ?_⟩
  rw [hw, hv]

theorem Endures.of_reshaped {h : Heap} (hr : Reshaped m.known m.heap h) : Endures m (m.withHeap h) :=
  ⟨rfl, hr.types, hr.sizes, hr.active, hr.table, id, m.regs.entryWait, rfl⟩

theorem Endures.withEntryWait (m : Machine) (v : Value) : Endures m (m.withEntryWait v) :=
  ⟨rfl, fun _ _ => id, fun _ _ => id, fun _ => Iff.rfl, fun _ => Iff.rfl, id, v, rfl⟩

theorem Endures.switching (he : Endures m m') : Endures m m'.switching :=
  ⟨he.known_eq, he.types, he.sizes, he.active, he.table, fun _ => rfl, he.regs_eq⟩

theorem Ordered.switching (ho : Ordered runner ended m lines) :
    Ordered runner ended m.switching lines := by
  refine ⟨⟨ho.sound.furnished, ho.sound.context, ho.sound.stackBase⟩, ho.arranged, ?_,
    ho.entry_type, ho.entry_waits, ho.entryWait_type, fun p hp => (ho.gone p hp).of_eq rfl rfl rfl⟩
  obtain ⟨p, hp, hcase⟩ := ho.active
  refine ⟨p, hp, hcase.imp (fun ⟨hnil, _⟩ => ⟨hnil, rfl⟩) fun ⟨htype, _⟩ => ⟨htype, nofun⟩⟩

/-- What the entry process waits for may change while it is in no queue but the ready one. -/
theorem Ordered.withEntryWait (ho : Ordered runner ended m lines) {v : Value}
    (hready : ∀ o, Queued lines m.regs.entryProcess o → o = m.known .processor)
    (hv : v ≠ m.known .nil → m.heap.typeOf v = .ok (m.known .semaphore)) :
    Ordered runner ended (m.withEntryWait v) lines :=
  ⟨⟨ho.sound.furnished, ho.sound.context, ho.sound.stackBase⟩, ho.arranged, ho.active,
    ho.entry_type, fun o hq => .inl (hready o hq), hv,
    fun p hp => (ho.gone p hp).of_eq rfl rfl rfl⟩

theorem adds_switching {owner p : Value} (hadds : Queue.Adds lines m owner p m') :
    Queue.Adds lines m.switching owner p m'.switching := by
  obtain ⟨h, lines', rfl, hrest⟩ := hadds
  exact ⟨h, lines', rfl, hrest⟩

theorem activeProcess_eq_ok {p : Value} : m.activeProcess = .ok p ↔
    m.heap.fetchField (m.known .processor) Slot.activeProcess = .ok p :=
  liftFault_eq_ok

/-- The process that is active has not ended. -/
theorem Ordered.not_over (ho : Ordered runner ended m lines) {p : Value}
    (hp : m.heap.fetchField (m.known .processor) Slot.activeProcess = .ok p) :
    ¬Over runner ended m p := fun hover => (ho.gone p hover).not_active hp

/-- While no switch is pending the active process is a process, in no queue. -/
theorem Ordered.active_idle (ho : Ordered runner ended m lines) {p : Value}
    (hp : m.heap.fetchField (m.known .processor) Slot.activeProcess = .ok p)
    (hidle : m.schedule.switchPending = false) :
    m.heap.typeOf p = .ok (m.known .process) ∧ ∀ o, ¬Queued lines p o := by
  obtain ⟨p', hp', hcase⟩ := ho.active
  cases hp.symm.trans hp'
  rcases hcase with ⟨-, hpending⟩ | ⟨htype, hunqueued⟩
  · rw [hidle] at hpending
    cases hpending
  · exact ⟨htype, hunqueued hidle⟩

/-- A process in a queue has not ended. -/
theorem Ordered.not_over_of_queued (ho : Ordered runner ended m lines) {p o : Value}
    (hp : Queued lines p o) : ¬Over runner ended m p :=
  fun hover => (ho.gone p hover).unqueued o hp

theorem ready_belongs (m : Machine) : (Queue.ready m).Belongs m.known m.heap := .inl rfl

/-! ## Who has joined a queue -/

/-- The processes are still in order, and those in a queue were there before or are among `added`.
Nothing is said of who is active. -/
structure Follows (runner : Option Value) (ended : Set Value) (added : Value → Value → Prop)
    (m : Machine) (lines : Value → Line) (m' : Machine) : Prop where
  ordered : ∃ lines', Ordered runner ended m' lines' ∧
    ∀ o p, Queued lines' p o → Queued lines p o ∨ added p o
  known_eq : m'.known = m.known
  types : ∀ u t, m.heap.typeOf u = .ok t → m'.heap.typeOf u = .ok t
  sizes : ∀ u n, m.heap.fieldCount u = .ok n → m'.heap.fieldCount u = .ok n
  excess : SameExcess m.known m.heap m'.heap
  entry_eq : m'.regs.entryProcess = m.regs.entryProcess

/-- The machine has gone on like this with the same process active. -/
structure Proceeds (runner : Option Value) (ended : Set Value) (added : Value → Value → Prop)
    (m : Machine) (lines : Value → Line) (m' : Machine) : Prop extends Endures m m' where
  ordered : ∃ lines', Ordered runner ended m' lines' ∧
    ∀ o p, Queued lines' p o → Queued lines p o ∨ added p o
  excess : SameExcess m.known m.heap m'.heap

/-- The same, and no switch has been asked for. -/
def Lingers (runner : Option Value) (ended : Set Value) (added : Value → Value → Prop) (m : Machine)
    (lines : Value → Line) (m' : Machine) : Prop :=
  Proceeds runner ended added m lines m' ∧ m'.schedule.switchPending = m.schedule.switchPending

/-- A newcomer is ready, or the active process is while it leaves the processor. -/
def Readied (newcomer : Value → Prop) (m : Machine) (p o : Value) : Prop :=
  o = m.known .processor ∧ (newcomer p ∨ m.schedule.switchPending = false ∧
    m.heap.fetchField (m.known .processor) Slot.activeProcess = .ok p)

variable {added added₁ : Value → Value → Prop} {newcomer newcomer₁ : Value → Prop} {m₁ : Machine}
  {lines₁ : Value → Line}

theorem Readied.of_endures (he : Endures m m₁) (hnew : ∀ p, newcomer₁ p → newcomer p) {p o : Value}
    (hp : Readied newcomer₁ m₁ p o) : Readied newcomer m p o := by
  obtain ⟨ho, hcase⟩ := hp
  rw [he.known_eq] at ho hcase
  refine ⟨ho, hcase.imp (hnew p) fun ⟨hidle, hactive⟩ => ⟨?_, (he.active p).mp hactive⟩⟩
  rw [Bool.eq_false_iff] at hidle ⊢
  exact fun hpending => hidle (he.pending hpending)

theorem Follows.orderly (hf : Follows runner ended added m lines m') : Orderly runner ended m' := by
  obtain ⟨lines', ho, -⟩ := hf.ordered
  exact ⟨lines', ho⟩

theorem Ordered.follows_self (ho : Ordered runner ended m lines) :
    Follows runner ended added m lines m :=
  ⟨⟨lines, ho, fun _ _ => .inl⟩, rfl, fun _ _ => id, fun _ _ => id, fun _ _ _ => Iff.rfl, rfl⟩

theorem Follows.undisturbed (hf : Follows runner ended added m lines m₁) (hu : Undisturbed m₁ m') :
    Follows runner ended added m lines m' := by
  obtain ⟨lines₁, ho, hjoined⟩ := hf.ordered
  obtain ⟨lines', ho', hsub⟩ := ho.undisturbed hu
  refine ⟨⟨lines', ho', fun o p hq => hjoined o p (hsub o p hq)⟩, hu.known_eq.trans hf.known_eq,
    fun u t ht => hu.calm.types u t (hf.types u t ht), fun u n hn => hu.calm.size (hf.sizes u n hn),
    hf.excess.trans hf.types ?_, hu.entry_eq.trans hf.entry_eq⟩
  rw [← hf.known_eq]
  exact .of_calm ho.sound.furnished hu.calm

theorem steady_follows (runner : Option Value) (ended : Set Value) (added : Value → Value → Prop)
    (m : Machine) (lines : Value → Line) : Steady (Follows runner ended added m lines) := by
  refine ⟨fun m' hm => ?_, fun _ _ hm hu => hm.undisturbed hu⟩
  obtain ⟨lines', ho, -⟩ := hm.ordered
  exact ho.sound

theorem Proceeds.follows (hp : Proceeds runner ended added m lines m') :
    Follows runner ended added m lines m' := by
  obtain ⟨v, hregs⟩ := hp.regs_eq
  exact ⟨hp.ordered, hp.known_eq, hp.types, hp.sizes, hp.excess, by rw [hregs]⟩

theorem Proceeds.orderly (hp : Proceeds runner ended added m lines m') : Orderly runner ended m' :=
  hp.follows.orderly

theorem Lingers.orderlyWhile (hp : Lingers runner ended added m lines m') :
    OrderlyWhile m.schedule.switchPending runner ended m' := ⟨hp.1.orderly, hp.2⟩

/-- What proceeds from a later machine proceeds from the one before. -/
theorem Proceeds.of_later (he : Endures m m₁) (hexcess : SameExcess m.known m.heap m₁.heap)
    (hjoined : ∀ o p, Queued lines₁ p o → Queued lines p o ∨ added p o)
    (hadded : ∀ p o, added₁ p o → added p o) (hp : Proceeds runner ended added₁ m₁ lines₁ m') :
    Proceeds runner ended added m lines m' := by
  obtain ⟨lines', ho, hlater⟩ := hp.ordered
  refine ⟨he.trans hp.toEndures, ⟨lines', ho, fun o p hq => ?_⟩, hexcess.trans he.types ?_⟩
  · exact (hlater o p hq).elim (hjoined o p) fun h => .inr (hadded p o h)
  · rw [← he.known_eq]
    exact hp.excess

theorem Lingers.of_later (he : Endures m m₁) (hexcess : SameExcess m.known m.heap m₁.heap)
    (hpending : m₁.schedule.switchPending = m.schedule.switchPending)
    (hjoined : ∀ o p, Queued lines₁ p o → Queued lines p o ∨ added p o)
    (hadded : ∀ p o, added₁ p o → added p o) (hp : Lingers runner ended added₁ m₁ lines₁ m') :
    Lingers runner ended added m lines m' :=
  ⟨hp.1.of_later he hexcess hjoined hadded, hp.2.trans hpending⟩

theorem Ordered.proceeds_self (ho : Ordered runner ended m lines) :
    Proceeds runner ended added m lines m :=
  ⟨.refl m, ⟨lines, ho, fun _ _ => .inl⟩, fun _ _ _ => Iff.rfl⟩

theorem Ordered.lingers_self (ho : Ordered runner ended m lines) :
    Lingers runner ended added m lines m := ⟨ho.proceeds_self, rfl⟩

/-- A change of the heap that leaves the queues and the numbers of signals as they were. -/
theorem Ordered.lingers_of_relinked {h : Heap} (hr : Relinked m.known m.heap h)
    (ho : Ordered runner ended (m.withHeap h) lines₁)
    (hjoined : ∀ o p, Queued lines₁ p o → Queued lines p o ∨ added p o) :
    Lingers runner ended added m lines (m.withHeap h) :=
  ⟨⟨.of_reshaped hr.toReshaped, ⟨lines₁, ho, hjoined⟩, hr.excess⟩, rfl⟩

/-- Nobody has joined a queue from which somebody was taken. -/
theorem Ordered.lingers_of_drops (ho : Ordered runner ended m lines) {out : Value → Value → Prop}
    (hdrops : Queue.Drops lines m out m') : Lingers runner ended added m lines m' := by
  obtain ⟨lines', ho', hsub, h, hr, rfl⟩ := ho.drops hdrops
  exact ho'.lingers_of_relinked hr fun o p hq => .inl (hsub o p hq).1

/-! ## Asking for a switch -/

/-- The active process goes to the back of the ready queue, and a switch has to follow. -/
theorem ensures_requeueActive (ho : Ordered runner ended m lines) :
    Ensures (m = ·) requeueActive
      (fun _ m' => Proceeds runner ended (Readied (fun _ => False) m) m lines m'.switching)
      fun _ => Lingers runner ended (Readied (fun _ => False) m) m lines := by
  refine Ensures.bind ((ensures_read (m = ·) _).weaken (fun _ => id) (fun _ _ => id) ?_)
    fun active => ?_
  · rintro _ _ rfl
    exact ho.lingers_self
  rintro _ ⟨rfl, hactive⟩
  refine Ensures.bind (ensures_get (m = ·) _) (fun m₀ => ?_) _ rfl
  rintro _ ⟨rfl, rfl⟩
  refine Ensures.bind (ensures_landmark (m = ·) .nil _) (fun nil => ?_) _ rfl
  rintro _ ⟨rfl, rfl⟩
  refine Ensures.ite (P := (m = ·)) (fun hidle => ?_) (fun _ => Ensures.pure ?_) m rfl
  · refine Ensures.bind (ensures_get (m = ·) _) fun m₀ => ?_
    rintro _ ⟨rfl, rfl⟩
    have hp := activeProcess_eq_ok.mp hactive
    have hpending := Bool.not_eq_true _ ▸ hidle.2
    obtain ⟨hprocess, hunqueued⟩ := ho.active_idle hp hpending
    refine ((Queue.ensures_pushBack ho.sound.furnished ho.arranged (ready_belongs m) hprocess
      hunqueued).weaken (fun _ => id) ?_ fun _ _ => ho.lingers_of_drops) _ rfl
    intro _ m' hadds
    obtain ⟨lines', ho', hgrown, -⟩ := ho.switching.adds (adds_switching hadds)
      (ho.switching.not_over hp) nofun fun _ => .inl rfl
    obtain ⟨h, -, rfl, hr, -⟩ := hadds
    refine ⟨(Endures.of_reshaped hr.toReshaped).switching,
      ⟨lines', ho', fun o p hq => (hgrown o p hq).imp_right ?_⟩, hr.excess⟩
    rintro ⟨rfl, rfl⟩
    exact ⟨rfl, .inr ⟨hpending, hp⟩⟩
  · rintro _ rfl
    exact ⟨(Endures.refl _).switching, ⟨lines, ho.switching, fun _ _ => .inl⟩, fun _ _ _ => Iff.rfl⟩

/-- The active process goes to the back of the ready queue and a switch is asked for. -/
theorem ensures_yield (ho : Ordered runner ended m lines) :
    Ensures (m = ·) (do requeueActive; requestSwitch)
      (fun _ => Proceeds runner ended (Readied (fun _ => False) m) m lines)
      fun _ => Lingers runner ended (Readied (fun _ => False) m) m lines :=
  Ensures.bind (ensures_requeueActive ho) fun _ _ hm => hm

/-! ## Signals -/

/-- A semaphore, or nil. -/
def Signalable (m : Machine) (v : Value) : Prop :=
  v = m.known .nil ∨ m.heap.typeOf v = .ok (m.known .semaphore)

theorem Signalable.of_endures {v : Value} (hv : Signalable m v) (ht : Endures m m') :
    Signalable m' v := by
  unfold Signalable
  rw [ht.known_eq]
  exact hv.imp_right (ht.types v _)

theorem waiting_belongs {v : Value} (hv : m.heap.typeOf v = .ok (m.known .semaphore)) :
    (Queue.waiting v).Belongs m.known m.heap := .inr ⟨rfl, hv⟩

/-- The number of signals of a semaphore is in no field that the queues are read from. -/
theorem Ordered.storeExcess (ho : Ordered runner ended m lines) {semaphore new : Value}
    (htype : m.heap.typeOf semaphore = .ok (m.known .semaphore)) {h : Heap}
    (hstored : Heap.Stored m.heap semaphore Slot.excessSignals new h) :
    Ordered runner ended (m.withHeap h) lines ∧ Reshaped m.known m.heap h := by
  have hf := ho.sound.furnished
  have hr : Reshaped m.known m.heap h := by
    refine .stored hf (.inl ⟨.inl htype, by decide⟩) ?_ hstored
    rintro rfl
    exact absurd (.inl htype) hf.processor_plain
  refine ⟨ho.reshaped hr (ho.arranged.irrelevant hstored ?_ ?_ ?_) fun _ _ => .inl, hr⟩
  · intro o p hmem
    exact hf.link_ne (Except.ok.inj ((ho.arranged.mem hmem).2.1.symm.trans htype))
  · rintro q hq rfl
    rcases hq with hq | ⟨hq, -⟩
    · rw [hq] at htype
      exact absurd (.inl htype) hf.processor_plain
    · rw [hq]
      exact ⟨(by decide : Slot.excessSignals ≠ Slot.firstWaiting),
        (by decide : Slot.excessSignals ≠ Slot.lastWaiting)⟩
  · exact fun _ _ _ => by decide

/-- Nil has no queue. -/
theorem ensures_popFront_nil (hf : Furnished m.known m.heap) :
    Ensures (m = ·) (Queue.waiting (m.known .nil)).popFront (fun _ _ => False) fun _ m' => m = m' := by
  refine Ensures.bind (ensures_landmark (m = ·) .nil _) fun nil => ?_
  rintro _ ⟨rfl, rfl⟩
  refine Ensures.bind (ensures_fetchField (m = ·) _ _) (fun first => ?_) _ rfl
  rintro _ ⟨rfl, hfirst⟩
  exact absurd hfirst (hf.nil_fetchField _ _)

/-- A process that is woken goes to the front of the ready queue, and the active one to its back. -/
theorem ensures_wake (ho : Ordered runner ended m lines) {waiter : Value}
    (hprocess : m.heap.typeOf waiter = .ok (m.known .process)) (hnew : ∀ o, ¬Queued lines waiter o)
    (hover : ¬Over runner ended m waiter)
    (hactive : m.schedule.switchPending = false →
      m.heap.fetchField (m.known .processor) Slot.activeProcess ≠ .ok waiter) :
    Ensures (m = ·)
      (do
        (Queue.ready (← get)).pushFront waiter
        requeueActive
        requestSwitch)
      (fun _ => Proceeds runner ended (Readied (· = waiter) m) m lines)
      fun _ => Lingers runner ended (Readied (· = waiter) m) m lines := by
  refine Ensures.bind (ensures_get (m = ·) _) fun m₀ => ?_
  rintro _ ⟨rfl, rfl⟩
  have hadded : ∀ m', Queue.Adds lines m (Queue.ready m).owner waiter m' → ∃ lines' h,
      Ordered runner ended m' lines' ∧ Relinked m.known m.heap h ∧ m' = m.withHeap h ∧
        ∀ o p, Queued lines' p o → Queued lines p o ∨ Readied (· = waiter) m p o := by
    intro m' hadds
    obtain ⟨lines', ho', hgrown, h, hr, heq⟩ := ho.adds hadds hover hactive fun _ => .inl rfl
    exact ⟨lines', h, ho', hr, heq, fun o p hq => (hgrown o p hq).imp_right fun h => ⟨h.1, .inl h.2⟩⟩
  refine Ensures.bind ((Queue.ensures_pushFront ho.sound.furnished ho.arranged (ready_belongs m)
    hprocess hnew).weaken (fun _ => id) (fun _ => hadded) ?_) (fun _ => ?_) _ rfl
  · intro _ m' hadds
    obtain ⟨lines', h, ho', hr, rfl, hjoined⟩ := hadded m' hadds
    exact ho'.lingers_of_relinked hr hjoined
  · rintro _ ⟨lines', h, ho', hr, rfl, hjoined⟩
    have he := Endures.of_reshaped hr.toReshaped
    have hlater : ∀ p o, Readied (fun _ => False) (m.withHeap h) p o → Readied (· = waiter) m p o :=
      fun _ _ => Readied.of_endures he fun _ => False.elim
    exact ((ensures_yield ho').weaken (fun _ => id)
      (fun _ _ => Proceeds.of_later he hr.excess hjoined hlater)
      fun _ _ => Lingers.of_later he hr.excess rfl hjoined hlater) _ rfl

/-- What a signal does once it has taken a process from the queue. -/
def summon (waiter : Value) : MachineM Unit := do
  let nil ← landmark .nil
  if waiter = (← get).regs.entryProcess then modifyRegs ({ · with entryWait := nil })
  (Queue.ready (← get)).pushFront waiter
  requeueActive
  requestSwitch

/-- A process that has been taken from the queue it waited in is made ready. -/
theorem ensures_summon (ho : Ordered runner ended m lines) {waiter : Value}
    (hprocess : m.heap.typeOf waiter = .ok (m.known .process)) (hnew : ∀ o, ¬Queued lines waiter o)
    (hover : ¬Over runner ended m waiter)
    (hactive : m.schedule.switchPending = false →
      m.heap.fetchField (m.known .processor) Slot.activeProcess ≠ .ok waiter) :
    Ensures (m = ·) (summon waiter) (fun _ => Proceeds runner ended (Readied (· = waiter) m) m lines)
      fun _ => Lingers runner ended (Readied (· = waiter) m) m lines := by
  refine Ensures.bind (ensures_landmark (m = ·) .nil _) fun nil => ?_
  rintro _ ⟨rfl, rfl⟩
  refine Ensures.bind (ensures_get (m = ·) _) (fun m₀ => ?_) _ rfl
  rintro _ ⟨rfl, rfl⟩
  by_cases hentry : waiter = m.regs.entryProcess
  · subst hentry
    simp only [if_true]
    have ho' := ho.withEntryWait (v := m.known .nil) (fun o hq => absurd hq (hnew o))
      fun hne => absurd rfl hne
    have he := Endures.withEntryWait m (m.known .nil)
    have hlater : ∀ p o, Readied (· = m.regs.entryProcess) (m.withEntryWait (m.known .nil)) p o →
        Readied (· = m.regs.entryProcess) m p o := fun _ _ => Readied.of_endures he fun _ => id
    exact ((ensures_wake ho' hprocess hnew hover hactive).weaken (fun _ => id)
      (fun _ _ => Proceeds.of_later he (fun _ _ _ => Iff.rfl) (fun _ _ => .inl) hlater)
      fun _ _ => Lingers.of_later he (fun _ _ _ => Iff.rfl) rfl (fun _ _ => .inl) hlater) _ rfl
  · simp only [hentry, if_false]
    exact ensures_wake ho hprocess hnew hover hactive _ rfl

/-- What becomes of a process that a signal takes from the queue. -/
theorem Ordered.apart_of_popped (ho : Ordered runner ended m lines) {q : Queue} {waiter : Value}
    (hqueued : Queued lines waiter q.owner) (hdrops : Queue.Drops lines m (fun p _ => p = waiter) m') :
    ∃ lines' h, m' = m.withHeap h ∧ Relinked m.known m.heap h ∧ Ordered runner ended m' lines' ∧
      (∀ o p, Queued lines' p o → Queued lines p o ∧ p ≠ waiter) ∧
      m'.heap.typeOf waiter = .ok (m'.known .process) ∧ ¬Over runner ended m' waiter ∧
      (m'.schedule.switchPending = false →
        m'.heap.fetchField (m'.known .processor) Slot.activeProcess ≠ .ok waiter) := by
  obtain ⟨lines', ho', hsub, h, hr, rfl⟩ := ho.drops hdrops
  refine ⟨lines', h, rfl, hr, ho', hsub, hr.types _ _ (ho.arranged.process _ _ hqueued), ?_, ?_⟩
  · exact fun hover => ho.not_over_of_queued hqueued (hover.of_reshaped hr.toReshaped)
  · exact fun hidle hp => (ho.active_idle ((hr.active _).mp hp) hidle).2 _ hqueued

/-- A signal that finds nobody waiting is counted. -/
theorem ensures_count (hsettled : m.heap.Settled) (semaphore : Value) :
    Ensures (m = ·) (do
        let excess ← read (·.excessSignals semaphore)
        storeField semaphore Slot.excessSignals (.wrapping (excess + 1)))
      (fun _ m' => ∃ excess h, m.excessSignals semaphore = .ok excess ∧
        Heap.Stored m.heap semaphore Slot.excessSignals (.wrapping (excess + 1)) h ∧ m' = m.withHeap h)
      fun _ m' => m = m' := by
  refine Ensures.bind ((ensures_read (m = ·) _).weaken (fun _ => id) (fun _ _ => id)
    fun _ _ => id) fun excess => ?_
  rintro _ ⟨rfl, hexcess⟩
  refine ((ensures_storeField hsettled _ _ _).weaken (fun _ => id) ?_ fun _ _ => id) _ rfl
  rintro _ _ ⟨h, hstored, heq⟩
  exact ⟨excess, h, hexcess, hstored, heq⟩

theorem signal_eq_of_some {semaphore waiter : Value}
    (hpop : (Queue.waiting semaphore).popFront m = .ok (some waiter) m₁) :
    signal semaphore m = summon waiter m₁ := bind_eq_of_ok hpop

theorem signal_eq_of_none {semaphore : Value}
    (hpop : (Queue.waiting semaphore).popFront m = .ok none m₁) :
    signal semaphore m = (do
      let excess ← read (·.excessSignals semaphore)
      storeField semaphore Slot.excessSignals (.wrapping (excess + 1))) m₁ := bind_eq_of_ok hpop

theorem ensures_signal (ho : Ordered runner ended m lines) {semaphore : Value}
    (hs : Signalable m semaphore) :
    Ensures (m = ·) (signal semaphore) (fun _ m' => Orderly runner ended m' ∧ Endures m m')
      fun _ m' => OrderlyWhile m.schedule.switchPending runner ended m' ∧ Endures m m' := by
  have hsame : OrderlyWhile m.schedule.switchPending runner ended m ∧ Endures m m :=
    ⟨⟨⟨lines, ho⟩, rfl⟩, .refl m⟩
  rcases hs with rfl | htype
  · refine Ensures.bind ((ensures_popFront_nil ho.sound.furnished).weaken (fun _ => id)
      (fun _ _ => id) ?_) fun _ _ hfalse => hfalse.elim
    rintro _ _ rfl
    exact hsame
  have hq := waiting_belongs htype
  refine Ensures.bind ((Queue.ensures_popFront ho.sound.furnished ho.arranged hq).weaken
    (fun _ => id) (fun _ _ => id) ?_) fun r => ?_
  · intro _ m' hdrops
    have hlingers : Lingers runner ended (fun _ _ => False) m lines m' := ho.lingers_of_drops hdrops
    exact ⟨hlingers.orderlyWhile, hlingers.1.toEndures⟩
  cases r with
  | none =>
      rintro _ ⟨rfl, -⟩
      refine ((ensures_count ho.sound.furnished.settled semaphore).weaken (fun _ => id) ?_ ?_) _ rfl
      · rintro _ _ ⟨excess, h, -, hstored, rfl⟩
        obtain ⟨ho', hr⟩ := ho.storeExcess htype hstored
        exact ⟨⟨lines, ho'⟩, .of_reshaped hr⟩
      · rintro _ _ rfl
        exact hsame
  | some waiter =>
      rintro m₁ ⟨hqueued, hdrops⟩
      obtain ⟨lines₁, h, rfl, hr, ho₁, hsub, hprocess, hover, hactive⟩ :=
        ho.apart_of_popped hqueued hdrops
      have he := Endures.of_reshaped hr.toReshaped
      refine ((ensures_summon ho₁ hprocess (fun o hq => (hsub o waiter hq).2 rfl) hover hactive).weaken
        (fun _ => id) ?_ ?_) _ rfl
      · exact fun _ m' hm => ⟨hm.orderly, he.trans hm.toEndures⟩
      · exact fun _ m' hm => ⟨hm.orderlyWhile, he.trans hm.1.toEndures⟩

/-! ## Waiting, yielding and forking -/

/-- The active process goes to the queue of a semaphore and a switch is asked for. -/
theorem Ordered.block (ho : Ordered runner ended m lines) {semaphore active : Value}
    (htype : m.heap.typeOf semaphore = .ok (m.known .semaphore))
    (hidle : m.schedule.switchPending = false)
    (hactive : m.heap.fetchField (m.known .processor) Slot.activeProcess = .ok active)
    (hadds : Queue.Adds lines m semaphore active m') :
    Proceeds runner ended (fun p o => o = semaphore ∧ p = active) m lines
      (if active = m'.regs.entryProcess then (m'.withEntryWait semaphore).switching
        else m'.switching) := by
  obtain ⟨h, lines', rfl, hr, ha, hgrown⟩ := hadds
  have he := Endures.of_reshaped hr.toReshaped
  split
  · next hentry =>
    obtain ⟨-, hunqueued⟩ := ho.active_idle hactive hidle
    rw [hentry] at hunqueued
    have ho' := (ho.withEntryWait (v := semaphore) (fun o hq => absurd hq (hunqueued o))
      fun _ => htype).switching
    obtain ⟨lines'', ho'', hgrown', -⟩ := ho'.adds ⟨h, lines', rfl, hr, ha, hgrown⟩
      (ho'.not_over hactive) nofun fun _ => .inr rfl
    exact ⟨(he.trans (.withEntryWait _ semaphore)).switching, ⟨lines'', ho'', hgrown'⟩, hr.excess⟩
  · next hentry =>
    obtain ⟨lines'', ho'', hgrown', -⟩ := ho.switching.adds ⟨h, lines', rfl, hr, ha, hgrown⟩
      (ho.switching.not_over hactive) nofun fun heq => absurd heq hentry
    exact ⟨he.switching, ⟨lines'', ho'', hgrown'⟩, hr.excess⟩

/-- What a wait that succeeds has done: it has taken a signal, or the active process waits. -/
inductive Waited (runner : Option Value) (ended : Set Value) (semaphore : Value) (m : Machine)
    (lines : Value → Line) (m' : Machine) : Prop where
  | passed (excess : Int) (h : Heap) : m.excessSignals semaphore = .ok excess → 0 < excess →
      Heap.Stored m.heap semaphore Slot.excessSignals (.int (excess - 1)) h → m' = m.withHeap h →
      Waited runner ended semaphore m lines m'
  | blocked (excess : Int) (active : Value) : m.excessSignals semaphore = .ok excess → excess ≤ 0 →
      m.activeProcess = .ok active → m'.schedule.switchPending = true →
      Proceeds runner ended (fun p o => o = semaphore ∧ p = active) m lines m' →
      Waited runner ended semaphore m lines m'

theorem ensures_wait (ho : Ordered runner ended m lines) {semaphore : Value}
    (htype : m.heap.typeOf semaphore = .ok (m.known .semaphore))
    (hidle : m.schedule.switchPending = false) :
    Ensures (m = ·) (wait semaphore) (fun _ => Waited runner ended semaphore m lines)
      fun _ => Lingers runner ended (fun _ _ => False) m lines := by
  have hfail : ∀ (fault : Fault) (m' : Machine), m = m' →
      Lingers runner ended (fun _ _ => False) m lines m' := by
    rintro _ _ rfl
    exact ho.lingers_self
  refine Ensures.bind ((ensures_read (m = ·) _).weaken (fun _ => id) (fun _ _ => id) hfail)
    fun excess => ?_
  rintro _ ⟨rfl, hexcess⟩
  refine Ensures.ite (P := (m = ·)) (fun hpos => ?_) (fun hnone => ?_) _ rfl
  · refine (ensures_storeField ho.sound.furnished.settled _ _ _).weaken (fun _ => id) ?_ hfail
    rintro _ _ ⟨h, hstored, heq⟩
    exact .passed excess h hexcess hpos hstored heq
  · refine Ensures.bind ((ensures_read (m = ·) _).weaken (fun _ => id) (fun _ _ => id) hfail)
      fun active => ?_
    rintro _ ⟨rfl, hread⟩
    have hactive := activeProcess_eq_ok.mp hread
    obtain ⟨hprocess, hunqueued⟩ := ho.active_idle hactive hidle
    refine Ensures.bind ((Queue.ensures_pushBack ho.sound.furnished ho.arranged
      (waiting_belongs htype) hprocess hunqueued).weaken (fun _ => id) (fun _ _ => id)
      fun _ _ => ho.lingers_of_drops) (fun _ => ?_) _ rfl
    intro m' hadds
    have hblock := ho.block htype hidle hactive hadds
    have hnone := not_lt.mp hnone
    refine Ensures.bind (ensures_get (m' = ·) _) (fun m₀ => ?_) _ rfl
    rintro _ ⟨rfl, rfl⟩
    by_cases hentry : active = m'.regs.entryProcess
    · rw [if_pos hentry] at hblock
      simp only [hentry, if_true]
      exact .blocked excess active hexcess hnone hread rfl hblock
    · rw [if_neg hentry] at hblock
      simp only [hentry, if_false]
      exact .blocked excess active hexcess hnone hread rfl hblock

theorem Waited.orderly (ho : Ordered runner ended m lines) {semaphore : Value}
    (htype : m.heap.typeOf semaphore = .ok (m.known .semaphore))
    (hw : Waited runner ended semaphore m lines m') : Orderly runner ended m' := by
  cases hw with
  | passed excess h _ _ hstored heq =>
      rw [heq]
      exact ⟨lines, (ho.storeExcess htype hstored).1⟩
  | blocked _ _ _ _ _ _ hproceeds => exact hproceeds.orderly

theorem ensures_yieldProcessor (ho : Ordered runner ended m lines) :
    Ensures (m = ·) yieldProcessor
      (fun _ => Proceeds runner ended (Readied (fun _ => False) m) m lines)
      fun _ => Lingers runner ended (Readied (fun _ => False) m) m lines := by
  refine Ensures.bind (ensures_landmark (m = ·) .processor _) fun processor => ?_
  rintro _ ⟨rfl, rfl⟩
  refine Ensures.bind ((ensures_fetchField (m = ·) _ _).weaken (fun _ => id) (fun _ _ => id) ?_)
    (fun first => ?_) _ rfl
  · rintro _ _ rfl
    exact ho.lingers_self
  rintro _ ⟨rfl, -⟩
  refine Ensures.bind (ensures_landmark (m = ·) .nil _) (fun nil => ?_) _ rfl
  rintro _ ⟨rfl, rfl⟩
  refine Ensures.ite (P := (m = ·)) (fun _ => Ensures.pure ?_) (fun _ => ensures_yield ho) _ rfl
  rintro _ rfl
  exact ho.proceeds_self

/-- A process that is in no queue, has not ended, and is neither active nor the entry process. -/
structure Apart (runner : Option Value) (ended : Set Value) (m : Machine) (lines : Value → Line) (p : Value) :
    Prop where
  process : m.heap.typeOf p = .ok (m.known .process)
  unqueued : ∀ o, ¬Queued lines p o
  not_over : ¬Over runner ended m p
  not_entry : p ≠ m.regs.entryProcess
  not_active : m.heap.fetchField (m.known .processor) Slot.activeProcess ≠ .ok p

/-- A calm change keeps the order and what is apart. -/
theorem Ordered.calm (ho : Ordered runner ended m lines) {h : Heap} (hcalm : Calm m.known m.heap h) :
    ∃ lines', Ordered runner ended (m.withHeap h) lines' ∧
      (∀ o p, Queued lines' p o → Queued lines p o) ∧
      ∀ p, Apart runner ended m lines p → Apart runner ended (m.withHeap h) lines' p := by
  obtain ⟨lines', ho', hsub⟩ := ho.undisturbed (ho.sound.undisturbed_heap hcalm)
  refine ⟨lines', ho', hsub, fun p hp => ?_⟩
  have hactive := active_of_calm ho.sound.furnished hcalm p
  refine ⟨hcalm.types _ _ hp.process, fun o hq => hp.unqueued o (hsub o p hq), ?_, hp.not_entry,
    fun h => hp.not_active (hactive.mp h)⟩
  refine fun hover => hp.not_over (hover.imp_right ?_)
  exact fun ⟨hrunner, hnil, hnot⟩ => ⟨hrunner, hnil, fun h => hnot (hactive.mpr h)⟩

/-- A process that has just been made is apart. -/
theorem Ordered.apart_of_made (ho : Ordered runner ended m lines) {p : Value} {count : Nat} {h : Heap}
    (hmade : Heap.Made m.heap p (m.known .process) count (m.known .nil) h) :
    ∃ lines', Ordered runner ended (m.withHeap h) lines' ∧
      (∀ o p, Queued lines' p o → Queued lines p o) ∧ Apart runner ended (m.withHeap h) lines' p := by
  have hstale := hmade.stale
  have hactive := active_of_calm ho.sound.furnished hmade.calm p
  have hunqueued : ∀ o, ¬Queued lines p o := fun o hq => hstale _ (ho.arranged.process o p hq)
  have hnot : m.heap.fetchField (m.known .processor) Slot.activeProcess ≠ .ok p := by
    intro hp
    obtain ⟨p', hp', hcase⟩ := ho.active
    cases hp.symm.trans hp'
    rcases hcase with ⟨rfl, -⟩ | ⟨htype, -⟩
    · obtain ⟨t, ht⟩ := Heap.exists_typeOf_of_count ho.sound.furnished.nil_empty
      exact hstale t ht
    · exact hstale _ htype
  obtain ⟨lines', ho', hsub⟩ := ho.undisturbed (ho.sound.undisturbed_heap hmade.calm)
  refine ⟨lines', ho', hsub, hmade.type_eq, fun o hq => hunqueued o (hsub o p hq), ?_, ?_,
    fun h => hnot (hactive.mp h)⟩
  · intro hover
    have hover' : Over runner ended m p := by
      refine hover.imp_right fun ⟨hrunner, hnil, hnot⟩ => ⟨hrunner, hnil, fun h => hnot ?_⟩
      exact hactive.mpr h
    obtain ⟨t, ht⟩ := (ho.gone p hover').exists_type
    exact hstale t ht
  · rintro rfl
    exact hstale _ ho.entry_type

/-- A store into a field of a process leaves the queues alone. -/
theorem ensures_storeProcess (ho : Ordered runner ended m lines) {p : Value}
    (hp : m.heap.typeOf p = .ok (m.known .process)) (i : Nat) (new : Value) :
    Ensures (m = ·) (storeField p i new)
      (fun _ m' => ∃ h, m' = m.withHeap h ∧ Calm m.known m.heap h ∧ Endures m m')
      fun _ m' => m = m' := by
  refine (ensures_storeField ho.sound.furnished.settled p i new).weaken (fun _ => id) ?_
    fun _ _ => id
  rintro _ _ ⟨h, hstored, rfl⟩
  have hcalm := hstored.calm (ho.sound.furnished.open_process hp)
  refine ⟨h, rfl, hcalm, rfl, hcalm.types, fun _ _ => hcalm.size,
    active_of_calm ho.sound.furnished hcalm, fun t => ?_, id, m.regs.entryWait, rfl⟩
  refine hstored.other _ _ _ (.inl ?_)
  rintro rfl
  exact ho.sound.furnished.processor_type hp

/-- A process that is apart goes to the back of the ready queue, and the active one behind it. -/
theorem ensures_enqueueNew (ho : Ordered runner ended m lines) {p : Value}
    (hp : Apart runner ended m lines p) :
    Ensures (m = ·)
      (do
        (Queue.ready (← get)).pushBack p
        requeueActive
        requestSwitch
        return p)
      (fun _ => Proceeds runner ended (Readied (· = p) m) m lines)
      fun _ => Lingers runner ended (Readied (· = p) m) m lines := by
  refine Ensures.bind (ensures_get (m = ·) _) fun m₀ => ?_
  rintro _ ⟨rfl, rfl⟩
  refine Ensures.bind ((Queue.ensures_pushBack ho.sound.furnished ho.arranged (ready_belongs m)
    hp.process hp.unqueued).weaken (fun _ => id) (fun _ _ => id) fun _ _ => ho.lingers_of_drops)
    (fun _ => ?_) _ rfl
  intro m' hadds
  obtain ⟨lines', ho', hgrown, h, hr, rfl⟩ := ho.adds hadds hp.not_over (fun _ => hp.not_active)
    fun _ => .inl rfl
  have he := Endures.of_reshaped hr.toReshaped
  have hjoined : ∀ o q, Queued lines' q o → Queued lines q o ∨ Readied (· = p) m q o :=
    fun o q hq => (hgrown o q hq).imp_right fun h => ⟨h.1, .inl h.2⟩
  have hlater : ∀ q o, Readied (fun _ => False) (m.withHeap h) q o → Readied (· = p) m q o :=
    fun _ _ => Readied.of_endures he fun _ => False.elim
  exact Ensures.bind ((ensures_requeueActive ho').weaken (fun _ => id) (fun _ _ => id)
    fun _ _ => Lingers.of_later he hr.excess rfl hjoined hlater)
    (fun _ _ hm => Proceeds.of_later he hr.excess hjoined hlater hm) _ rfl

/-- A fork makes a new process ready, and the active one behind it. -/
theorem ensures_forkProcess (ho : Ordered runner ended m lines) (context : Value) :
    Ensures (m = ·) (forkProcess context)
      (fun _ => Proceeds runner ended (Readied (fun p => ∀ t, m.heap.typeOf p ≠ .ok t) m) m lines)
      fun _ => Lingers runner ended (Readied (fun p => ∀ t, m.heap.typeOf p ≠ .ok t) m) m lines := by
  refine Ensures.bind ((ensures_newObject ho.sound.furnished.settled .process Slot.processSize).weaken
    (fun _ => id) (fun _ _ => id) ?_) fun p => ?_
  · rintro _ _ rfl
    exact ho.lingers_self
  rintro _ ⟨h₁, hmade, rfl⟩
  have hr₁ := Relinked.made ho.sound.furnished hmade
  have he₁ := Endures.of_reshaped hr₁.toReshaped
  obtain ⟨lines₁, ho₁, hsub₁, hp₁⟩ := ho.apart_of_made hmade
  refine Ensures.bind ((ensures_storeProcess ho₁ hp₁.process Slot.processContext context).weaken
    (fun _ => id) (fun _ _ => id) ?_) (fun _ => ?_) _ rfl
  · rintro _ _ rfl
    exact ho₁.lingers_of_relinked hr₁ fun o p hq => .inl (hsub₁ o p hq)
  rintro _ ⟨h₂, rfl, hcalm₂, hendures₂⟩
  have he₂ := he₁.trans hendures₂
  have hexcess₂ := hr₁.excess.trans hr₁.types (.of_calm ho₁.sound.furnished hcalm₂)
  obtain ⟨lines₂, ho₂, hsub₂, happart₂⟩ := ho₁.calm hcalm₂
  refine Ensures.bind ((ensures_storeProcess ho₂ (happart₂ p hp₁).process Slot.processTime _).weaken
    (fun _ => id) (fun _ _ => id) ?_) (fun _ => ?_) _ rfl
  · rintro _ _ rfl
    exact ⟨⟨he₂, ⟨lines₂, ho₂, fun o p hq => .inl (hsub₁ o p (hsub₂ o p hq))⟩, hexcess₂⟩, rfl⟩
  rintro _ ⟨h₃, rfl, hcalm₃, hendures₃⟩
  have he₃ := he₂.trans hendures₃
  have hexcess₃ := hexcess₂.trans he₂.types (.of_calm ho₂.sound.furnished hcalm₃)
  obtain ⟨lines₃, ho₃, hsub₃, happart₃⟩ := ho₂.calm hcalm₃
  have hjoined : ∀ {added : Value → Value → Prop} o q, Queued lines₃ q o → Queued lines q o ∨ added q o :=
    fun o q hq => .inl (hsub₁ o q (hsub₂ o q (hsub₃ o q hq)))
  have hlater : ∀ q o, Readied (· = p) ((m.withHeap h₁).withHeap h₂ |>.withHeap h₃) q o →
      Readied (fun p => ∀ t, m.heap.typeOf p ≠ .ok t) m q o := by
    refine fun q o => Readied.of_endures he₃ ?_
    rintro _ rfl
    exact hmade.stale
  exact (ensures_enqueueNew ho₃ (happart₃ p (happart₂ p hp₁))).weaken (fun _ => id)
    (fun _ _ => Proceeds.of_later he₃ hexcess₃ hjoined hlater)
    (fun _ _ => Lingers.of_later he₃ hexcess₃ rfl hjoined hlater) _ rfl

/-! ## The active process -/

/-- Another process becomes active, or none. -/
theorem Ordered.setActive (ho : Ordered runner ended m lines) {new : Value} {h : Heap}
    (hstored : Heap.Stored m.heap (m.known .processor) Slot.activeProcess new h)
    (hnew : new = m.known .nil ∧ m.schedule.switchPending = true ∨
      m.heap.typeOf new = .ok (m.known .process) ∧
        (m.schedule.switchPending = false → ∀ o, ¬Queued lines new o))
    (hover : ∀ p, Over runner ended (m.withHeap h) p → (∃ t, m.heap.typeOf p = .ok t) ∧
      p ≠ m.known .nil ∧ p ≠ m.regs.entryProcess ∧ p ≠ new ∧ ∀ o, ¬Queued lines p o) :
    Ordered runner ended (m.withHeap h) lines := by
  have hf := ho.sound.furnished
  have hslot : QueueSlot m.known m.heap (m.known .processor) Slot.activeProcess :=
    .inr ⟨rfl, by decide⟩
  have htypes : ∀ u t, m.heap.typeOf u = .ok t → h.typeOf u = .ok t := by
    intro u t ht
    rw [hstored.types u, ht]
  refine ⟨⟨hf.stored hstored hslot, ho.sound.context.stored hf hstored hslot, ho.sound.stackBase⟩,
    ho.arranged.irrelevant hstored ?_ ?_ fun _ _ _ => by decide, ⟨new, hstored.self, ?_⟩,
    htypes _ _ ho.entry_type, ho.entry_waits, fun hne => htypes _ _ (ho.entryWait_type hne), ?_⟩
  · exact fun o p hmem => hf.processor_plain (.inr (ho.arranged.mem hmem).2.1)
  · rintro q (hq | ⟨-, htype⟩) howner
    · rw [hq]
      exact ⟨(by decide : Slot.activeProcess ≠ Slot.firstReady),
        (by decide : Slot.activeProcess ≠ Slot.lastReady)⟩
    · rw [howner] at htype
      exact absurd (.inl htype) hf.processor_plain
  · exact hnew.imp_right fun ⟨htype, hunqueued⟩ => ⟨htypes _ _ htype, hunqueued⟩
  · intro p hp
    obtain ⟨⟨t, ht⟩, hnil, hentry, hne, hunqueued⟩ := hover p hp
    refine ⟨⟨t, htypes p t ht⟩, hnil, hentry, ?_, hunqueued⟩
    intro hactive
    exact hne (Except.ok.inj (hactive.symm.trans hstored.self))

/-- Only who is active has changed. -/
theorem Ordered.follows_of_active (ho : Ordered runner ended m' lines) (hf : Furnished m.known m.heap)
    {new : Value}
    (hstored : Heap.Stored m.heap (m.known .processor) Slot.activeProcess new m'.heap)
    (hknown : m'.known = m.known) (hentry : m'.regs.entryProcess = m.regs.entryProcess) :
    Follows runner ended added m lines m' := by
  refine ⟨⟨lines, ho, fun _ _ => .inl⟩, hknown, ?_, ?_, fun v x hv => ?_, hentry⟩
  · intro u t ht
    rw [hstored.types u, ht]
  · intro u n hn
    rw [hstored.counts u, hn]
  · refine hstored.other _ _ _ (.inl ?_)
    rintro rfl
    exact hf.processor_plain (.inl hv)

/-- A process that ends is no longer active, and was in no queue. -/
theorem Ordered.finish (ho : Ordered runner ended m lines) (hidle : m.schedule.switchPending = false)
    {active : Value} (hactive : m.heap.fetchField (m.known .processor) Slot.activeProcess = .ok active)
    (hentry : active ≠ m.regs.entryProcess) {h : Heap}
    (hstored : Heap.Stored m.heap (m.known .processor) Slot.activeProcess (m.known .nil) h) :
    Ordered runner ended (m.withHeap h).switching lines := by
  refine ho.switching.setActive hstored (.inl ⟨rfl, rfl⟩) ?_
  intro p hover
  by_cases hp : p = active
  · obtain ⟨htype, hunqueued⟩ := ho.active_idle hactive hidle
    subst hp
    rcases hover with hmem | ⟨-, hnil, -⟩
    · exact absurd hactive (ho.gone p (.inl hmem)).not_active
    · exact ⟨⟨_, htype⟩, hnil, hentry, hnil, hunqueued⟩
  · have hnot : m.heap.fetchField (m.known .processor) Slot.activeProcess ≠ .ok p :=
      fun h => hp (Except.ok.inj (h.symm.trans hactive))
    have hgone := ho.gone p (hover.imp_right fun hp => ⟨hp.1, hp.2.1, hnot⟩)
    exact ⟨hgone.exists_type, hgone.ne_nil, hgone.ne_entry, hgone.ne_nil, hgone.unqueued⟩

/-- The processor is left, and a switch is asked for. -/
theorem ensures_resign (hsettled : m.heap.Settled) :
    Ensures (m = ·)
      (do
        storeField (m.known .processor) Slot.activeProcess (m.known .nil)
        requestSwitch)
      (fun _ m' => ∃ h, Heap.Stored m.heap (m.known .processor) Slot.activeProcess (m.known .nil) h ∧
        m' = (m.withHeap h).switching) fun _ m' => m = m' := by
  refine Ensures.bind (ensures_storeField hsettled _ _ _) fun _ => ensures_modify ?_
  rintro _ ⟨h, hstored, rfl⟩
  exact ⟨h, hstored, rfl⟩

section Finishing

variable {P R : Machine → Prop}

theorem Steady.and_known (hP : Steady P) (k : Landmarks) : Steady fun m => P m ∧ m.known = k :=
  ⟨fun m hm => hP.sound m hm.1,
    fun m m' hm hu => ⟨hP.undisturbed m m' hm.1 hu, hu.known_eq.trans hm.2⟩⟩

theorem Steady.and_active (hP : Steady P) (p : Value) :
    Steady fun m => P m ∧ m.activeProcess = .ok p := by
  refine ⟨fun m hm => hP.sound m hm.1, ?_⟩
  rintro m m' ⟨hm, hp⟩ hu
  refine ⟨hP.undisturbed m m' hm hu, ?_⟩
  rw [activeProcess_eq_ok] at hp ⊢
  rw [hu.known_eq]
  exact (active_of_calm (hP.sound m hm).furnished hu.calm p).mpr hp

/-- Ending a process is quiet, up to its leaving the processor. -/
theorem ensures_processFinished_of (hP : Steady P) (hR : ∀ m, P m → R m)
    (hprocess : ∀ m p, P m → m.activeProcess = .ok p → m.heap.typeOf p = .ok (m.known .process))
    (hresign : ∀ m, P m → m.activeProcess ≠ .ok m.regs.entryProcess → Ensures (m = ·)
      (do
        storeField (m.known .processor) Slot.activeProcess (m.known .nil)
        requestSwitch) (fun _ => R) fun _ => R) (v : Value) :
    Ensures P (processFinished v) (fun _ => R) fun _ => R := by
  intro m hm
  refine Ensures.bind (ensures_landmark (m = ·) .nil _) (fun nil => ?_) m rfl
  rintro _ ⟨rfl, rfl⟩
  refine Ensures.bind ((ensures_read (m = ·) _).weaken (fun _ => id) (fun _ _ => id) ?_)
    (fun active => ?_) m rfl
  · rintro _ _ rfl
    exact hR m hm
  rintro _ ⟨rfl, hactive⟩
  have hsteady := (hP.and_known m.known).and_active active
  have hstart : (P m ∧ m.known = m.known) ∧ m.activeProcess = .ok active := ⟨⟨hm, rfl⟩, hactive⟩
  have hquiet : ∀ {β : Type} {x : MachineM β},
      Keeps (fun m' => (P m' ∧ m'.known = m.known) ∧ m'.activeProcess = .ok active) x →
      Ensures (fun m' => (P m' ∧ m'.known = m.known) ∧ m'.activeProcess = .ok active) x
        (fun _ m' => (P m' ∧ m'.known = m.known) ∧ m'.activeProcess = .ok active) fun _ => R :=
    fun hx => hx.ensures.weaken (fun _ => id) (fun _ _ => id) fun _ m' hm' => hR m' hm'.1.1
  have hretire : Ensures (fun m' => (P m' ∧ m'.known = m.known) ∧ m'.activeProcess = .ok active)
      (do
        clearRegisters
        if active = (← get).regs.entryProcess then modifyRegs ({ · with result := some v })
        else
          storeField (← landmark .processor) Slot.activeProcess (m.known .nil)
          requestSwitch) (fun _ => R) fun _ => R := by
    refine Ensures.bind (hquiet (keeps_clearRegisters hsteady)) fun _ => ?_
    refine Ensures.bind (ensures_get _ _) fun m₀ => Ensures.ite (fun _ => ?_) fun hentry => ?_
    · have hresult := keeps_modifyRegs (f := ({ · with result := some v })) hsteady
        fun _ => ⟨rfl, rfl, rfl, rfl⟩
      rintro m₁ ⟨hm₁, rfl⟩
      exact hR _ (hresult m₁ hm₁).1.1
    · rintro m₁ ⟨⟨⟨hm₁, hknown⟩, hactive₁⟩, rfl⟩
      rw [← hknown]
      refine hresign m₁ hm₁ ?_ m₁ rfl
      rw [hactive₁]
      exact fun heq => hentry (Except.ok.inj heq)
  refine Ensures.ite (P := (m = ·)) (fun _ => ?_) (fun _ => ?_) m rfl
  · rintro _ rfl
    exact hretire m hstart
  · refine Ensures.bind (P := (m = ·)) ?_ fun _ => hretire
    rintro _ rfl
    have hopen := (hP.sound m hm).furnished.open_process (hprocess m active hm hactive)
    exact ((keeps_storeField_open hsteady active _ _).ensures.weaken (fun _ => id)
      (fun _ _ hm' => hm'.1) fun _ m' hm' => hR m' hm'.1.1.1) m ⟨hstart, hopen⟩

end Finishing

theorem ensures_processFinished (v : Value) :
    Ensures (OrderlyWhile false runner ended) (processFinished v) (fun _ => Orderly runner ended)
      fun _ => Orderly runner ended := by
  refine ensures_processFinished_of (steady_orderlyWhile false runner ended) (fun _ hm => hm.1) ?_ ?_ v
  · rintro m p ⟨⟨lines, ho⟩, hidle⟩ hp
    exact (ho.active_idle (activeProcess_eq_ok.mp hp) hidle).1
  · rintro m ⟨⟨lines, ho⟩, hidle⟩ hentry
    obtain ⟨p, hp, -⟩ := ho.active
    have hne : p ≠ m.regs.entryProcess := fun heq => hentry (activeProcess_eq_ok.mpr (heq ▸ hp))
    refine (ensures_resign ho.sound.furnished.settled).weaken (fun _ => id) ?_ ?_
    · rintro _ _ ⟨h, hstored, rfl⟩
      exact ⟨lines, ho.finish hidle hp hne hstored⟩
    · rintro _ _ rfl
      exact ⟨lines, ho⟩

end Machine

end MessageMachine
