import MessageMachine.Machine.Run
import MessageMachine.Proofs.Schedule.Scheduler

/-!
# Housekeeping and the start of a run

A poll signals the interrupt semaphores, as often as there are events.  A context switch takes the
active process off the processor, pops ready processes until one has a context, polling while there
is none, and makes that one active.  All this happens while a switch is pending, so it does not
matter that the process which just blocked may be woken again by the poll.

A run starts by taking the entry process off the two queues that it can be in, and then makes it
active.

Polls and switches are gone through for any property that signals keep (`Pollable`) and that the few
steps of a switch lead to (`ensures_contextSwitch_of`); the order of the processes is one.
-/

namespace MessageMachine

namespace Machine

variable {m m' m₁ : Machine} {runner : Option Value} {ended : Set Value} {lines lines₁ : Value → Line}
  {k : Landmarks} {P Q S E : Machine → Prop}

/-! ## Polling -/

/-- The interrupt table holds semaphores and nil. -/
theorem signalable_of_table (hf : Furnished m.known m.heap) {t s : Value} {i : Nat}
    (ht : m.heap.fetchField (m.known .processor) Slot.interruptTable = .ok t)
    (hs : m.heap.fetchField t i = .ok s) : Signalable m s := by
  by_cases hnil : s = m.known .nil
  · exact .inl hnil
  · right
    refine (hf.table t ht ?_).2.2.2.2 i s hs hnil
    rintro rfl
    exact hf.nil_fetchField _ _ hs

/-- The machine has the property and this interrupt table. -/
def Tabled (P : Machine → Prop) (t : Value) (m : Machine) : Prop :=
  P m ∧ m.heap.fetchField (m.known .processor) Slot.interruptTable = .ok t

/-- A property of machines whose processes are in order that signals keep. -/
structure Pollable (P : Machine → Prop) : Prop where
  steady : Steady P
  orderly : ∀ m, P m → ∃ runner ended, Orderly runner ended m
  signal : ∀ m semaphore, P m → Signalable m semaphore → P (stateAfter (signal semaphore m))

namespace Pollable

variable (hp : Pollable P)
include hp

theorem ensures_signal {t semaphore : Value} :
    Ensures (fun m => Tabled P t m ∧ Signalable m semaphore) (Machine.signal semaphore)
      (fun _ m => Tabled P t m ∧ Signalable m semaphore) fun _ => P := by
  rintro m ⟨⟨hm, ht⟩, hs⟩
  obtain ⟨runner, ended, lines, ho⟩ := hp.orderly m hm
  have hafter := hp.signal m semaphore hm hs
  have houtcome := Machine.ensures_signal ho hs m rfl
  cases hrun : Machine.signal semaphore m with
  | error fault m' =>
      rw [hrun] at hafter
      exact hafter
  | ok u m' =>
      rw [hrun] at hafter houtcome
      refine ⟨⟨hafter, ?_⟩, hs.of_endures houtcome.2⟩
      rw [houtcome.2.known_eq]
      exact (houtcome.2.table t).mpr ht

/-- A change of the schedule other than of what is pending. -/
theorem schedule {t : Value} (ht : Tabled P t m) {s : Schedule}
    (hpending : s.switchPending = m.schedule.switchPending) :
    Tabled P t { m with schedule := s } := by
  have hsound := hp.steady.sound m ht.1
  exact ⟨hp.steady.undisturbed _ _ ht.1
    (hsound.undisturbed_of_eq rfl rfl hpending rfl rfl rfl rfl), ht.2⟩

theorem ensures_interrupt {t : Value} (i : Nat) :
    Ensures (Tabled P t) (fetchField t i) (fun s m => Tabled P t m ∧ Signalable m s) fun _ => P := by
  refine (ensures_fetchField _ _ _).weaken (fun _ => id) ?_ fun _ _ hm => hm.1
  rintro s m ⟨hm, hs⟩
  exact ⟨hm, signalable_of_table (hp.steady.sound m hm.1).furnished hm.2 hs⟩

theorem ensures_receiveEvents {t semaphore : Value} (events : List Int) :
    Ensures (fun m => Tabled P t m ∧ Signalable m semaphore)
      (events.forM (receiveEvent semaphore)) (fun _ => P) fun _ => P := by
  induction events with
  | nil => exact Ensures.pure fun _ hm => hm.1.1
  | cons event events ih =>
      refine Ensures.bind (Q := fun _ m => Tabled P t m ∧ Signalable m semaphore) ?_ fun _ => ih
      refine Ensures.bind (Q := fun _ m => Tabled P t m ∧ Signalable m semaphore) ?_
        fun _ => hp.ensures_signal
      exact ensures_modify fun m hm => ⟨hp.schedule hm.1 rfl, hm.2⟩

theorem keeps_passTime (nanoseconds : Nat) : Keeps P (passTime nanoseconds) :=
  keeps_modify hp.steady fun _ hs => hs.undisturbed_of_eq rfl rfl rfl rfl rfl rfl rfl

theorem keeps_poll : Keeps P poll := by
  refine Ensures.keeps ?_
  refine Ensures.bind (hp.keeps_passTime 1).ensures fun _ => ?_
  refine Ensures.bind (ensures_landmark _ .processor _) fun processor => ?_
  refine Ensures.bind (Q := Tabled P) ?_ fun t => ?_
  · refine (ensures_fetchField _ _ _).weaken (fun _ => id) ?_ fun _ _ hm => hm.1
    rintro t m ⟨⟨hm, rfl⟩, ht⟩
    exact ⟨hm, ht⟩
  refine Ensures.bind (ensures_get _ _) fun m₀ => ?_
  refine Ensures.bind (ensures_get _ _) fun m₁ => ?_
  -- what is left once the timer has been looked at
  have hrest : Ensures (Tabled P t) (do
      let events ← modifyGet fun m => (m.feed.drain.1, { m with feed := m.feed.drain.2 })
      unless events.isEmpty do
        let semaphore ← fetchField t Slot.inputInterrupt
        events.forM (receiveEvent semaphore)) (fun _ => P) fun _ => P := by
    refine Ensures.bind (Q := fun _ => Tabled P t) ?_ fun events => ?_
    · intro m hm
      have hsound := hp.steady.sound m hm.1
      exact ⟨hp.steady.undisturbed m _ hm.1
        (hsound.undisturbed_of_eq rfl rfl rfl rfl rfl rfl rfl), hm.2⟩
    refine Ensures.ite (fun _ => Ensures.pure fun m hm => hm.1) fun _ => ?_
    exact Ensures.bind (hp.ensures_interrupt _) fun semaphore => hp.ensures_receiveEvents events
  refine Ensures.weaken (P := Tabled P t) ?_ (fun m hm => hm.1.1) (fun _ _ => id) fun _ _ => id
  refine Ensures.ite (fun _ => ?_) fun _ => hrest
  refine Ensures.bind (Q := fun _ => Tabled P t) ?_ fun _ => ?_
  · exact ensures_modify fun m hm => hp.schedule hm rfl
  refine Ensures.bind (hp.ensures_interrupt _) fun semaphore => ?_
  refine Ensures.bind hp.ensures_signal fun _ => ?_
  exact hrest.weaken (fun m hm => hm.1) (fun _ _ => id) fun _ _ => id

/-- Ready processes are taken until one has a context. -/
theorem ensures_nextProcess {Pick : Value → Machine → Prop}
    (hpop : ∀ m, P m → Ensures (m = ·) (Queue.ready m).popFront
      (fun r m' => match r with | none => P m' | some p => Pick p m') fun _ => P)
    (hdrop : ∀ p m, Pick p m → P m) (since fuel : Nat) :
    Ensures P (nextProcess since fuel) (fun r => Pick r.1) fun _ => P := by
  induction fuel with
  | zero => exact Ensures.throw fun _ => id
  | succ fuel ih =>
      intro m hm
      refine Ensures.bind (ensures_get (m = ·) _) (fun m₀ => ?_) m rfl
      rintro _ ⟨rfl, rfl⟩
      refine Ensures.bind (hpop m hm) (fun r => ?_) m rfl
      cases r with
      | some p =>
          refine Ensures.bind ((keeps_fetchField (P := Pick p) p _).ensures.weaken (fun _ => id)
            (fun _ _ => id) fun _ => hdrop p) fun context => ?_
          refine Ensures.bind (ensures_landmark (Pick p) .nil _) fun nil => ?_
          refine Ensures.ite (fun _ => Ensures.pure fun _ hm => hm.1) fun _ => ?_
          exact ih.weaken (fun m hm => hdrop p m hm.1) (fun _ _ => id) fun _ _ => id
      | none =>
          refine Ensures.bind (P := P) (ensures_get _ _) fun m₀ => ?_
          refine Ensures.ite (fun _ => Ensures.throw fun _ hm => hm.1) fun _ => ?_
          refine Ensures.bind (ensures_get _ _) fun m₁ => ?_
          refine Ensures.bind (Q := fun _ => P) ?_ fun _ => ?_
          · exact (hp.keeps_passTime _).ensures.weaken (fun _ hm => hm.1.1) (fun _ _ => id)
              fun _ _ => id
          exact Ensures.bind hp.keeps_poll.ensures fun _ => ih

end Pollable

/-! ## Switching -/

/-- The processor has no active process until the switch is over. -/
theorem ensures_vacate (ho : Ordered none ended m lines) (hpending : m.schedule.switchPending = true) :
    Ensures (m = ·) (storeField (m.known .processor) Slot.activeProcess (m.known .nil))
      (fun _ m' => Follows none ended (fun _ _ => False) m lines m' ∧
        m'.activeProcess = .ok (m.known .nil) ∧ m'.schedule.switchPending = true) fun _ m' => m = m' := by
  have hf := ho.sound.furnished
  refine (ensures_storeField hf.settled _ _ _).weaken (fun _ => id) ?_ fun _ _ => id
  rintro _ _ ⟨h, hstored, rfl⟩
  have ho' := ho.setActive hstored (.inl ⟨rfl, hpending⟩) fun p hover => by
    have hgone := ho.gone p (over_none.mpr (over_none.mp hover))
    exact ⟨hgone.exists_type, hgone.ne_nil, hgone.ne_entry, hgone.ne_nil, hgone.unqueued⟩
  exact ⟨ho'.follows_of_active hf hstored rfl rfl, activeProcess_eq_ok.mpr hstored.self, hpending⟩

/-- The machine has gone on, and this process is active. -/
def Seated (ended : Set Value) (m : Machine) (lines : Value → Line) (p : Value) (m' : Machine) : Prop :=
  Follows none ended (fun _ _ => False) m lines m' ∧ m'.activeProcess = .ok p

theorem steady_seated (ended : Set Value) (m : Machine) (lines : Value → Line) (p : Value) :
    Steady (Seated ended m lines p) :=
  (steady_follows none ended (fun _ _ => False) m lines).and_active p

/-- A process in no queue becomes active. -/
theorem ensures_seat (ho : Ordered none ended m lines) {p : Value}
    (htype : m.heap.typeOf p = .ok (m.known .process)) (hunqueued : ∀ o, ¬Queued lines p o)
    (hover : ¬Over none ended m p) :
    Ensures (m = ·) (storeField (m.known .processor) Slot.activeProcess p)
      (fun _ m' => Seated ended m lines p m' ∧ m'.regs = m.regs) fun _ m' => m = m' := by
  have hf := ho.sound.furnished
  refine (ensures_storeField hf.settled _ _ _).weaken (fun _ => id) ?_ fun _ _ => id
  rintro _ _ ⟨h, hstored, rfl⟩
  have ho' := ho.setActive hstored (.inr ⟨htype, fun _ => hunqueued⟩) fun p' hover' => by
    have hmem := over_none.mp hover'
    have hgone := ho.gone p' (over_none.mpr hmem)
    refine ⟨hgone.exists_type, hgone.ne_nil, hgone.ne_entry, ?_, hgone.unqueued⟩
    rintro rfl
    exact hover (over_none.mpr hmem)
  exact ⟨⟨ho'.follows_of_active hf hstored rfl rfl, activeProcess_eq_ok.mpr hstored.self⟩, rfl⟩

/-- Once a process is seated the switch is over. -/
theorem Seated.settle {p : Value} (hp : Seated ended m lines p m')
    (htype : m.heap.typeOf p = .ok (m.known .process)) (hunqueued : ∀ o, ¬Queued lines p o)
    (s : Schedule) : Seated ended m lines p { m' with schedule := s } := by
  obtain ⟨⟨⟨lines', ho, hjoined⟩, hknown, htypes, hsizes, hexcess, hentry⟩, hactive⟩ := hp
  have htype' := htypes _ _ htype
  rw [← hknown] at htype'
  have hunqueued' : ∀ o, ¬Queued lines' p o := fun o hq => hunqueued o ((hjoined o p hq).resolve_right id)
  refine ⟨⟨⟨lines', ?_, hjoined⟩, hknown, htypes, hsizes, hexcess, hentry⟩, hactive⟩
  exact ⟨⟨ho.sound.furnished, ho.sound.context, ho.sound.stackBase⟩, ho.arranged,
    ⟨p, activeProcess_eq_ok.mp hactive, .inr ⟨htype', fun _ => hunqueued'⟩⟩, ho.entry_type,
    ho.entry_waits, ho.entryWait_type, fun p hp => (ho.gone p hp).of_eq rfl rfl rfl⟩

/-- The end of a switch: a process that has been taken from the ready queue goes on. -/
def install (processor process context : Value) : MachineM Unit := do
  storeField processor Slot.activeProcess process
  reload context
  modifySchedule fun s =>
    { s with switchPending := false, switches := s.switches + 1, lastSwitch := s.clock }

theorem ensures_install (ho : Ordered none ended m lines) {p : Value}
    (htype : m.heap.typeOf p = .ok (m.known .process)) (hunqueued : ∀ o, ¬Queued lines p o)
    (hover : ¬Over none ended m p) (context : Value) :
    Ensures (m = ·) (install (m.known .processor) p context)
      (fun _ m' => Seated ended m lines p m' ∧ m'.schedule.switchPending = false)
      fun _ m' => m = m' ∨ Seated ended m lines p m' := by
  refine Ensures.bind ((ensures_seat ho htype hunqueued hover).weaken (fun _ => id)
    (fun _ _ hm => hm.1) fun _ _ => .inl) fun _ => ?_
  refine Ensures.bind ((keeps_reload (steady_seated ended m lines p) context).ensures.weaken
    (fun _ => id) (fun _ _ => id) fun _ _ => .inr) fun _ => ?_
  exact ensures_modify fun m' hm' => ⟨hm'.settle htype hunqueued _, rfl⟩

theorem keeps_suspend (hP : Steady P) (p : Value) :
    Keeps (fun m => P m ∧ Open m.known m.heap p) (suspend p) := by
  refine Keeps.bind keeps_get fun m₀ => (keeps_fetchField _ _).bind fun time => ?_
  refine (keeps_lift _).bind fun total => (keeps_storeField_open hP p _ _).bind fun _ => ?_
  exact Keeps.bind keeps_get fun m₁ => keeps_storeField_open hP p _ _

/-- A switch is quiet, up to the processor being left, the search and the installation. -/
theorem ensures_contextSwitch_of (Pick : Value → Machine → Prop) {fuel : Nat} (hP : Steady P)
    (hQ : Steady Q) (hk : ∀ m, P m → m.known = k) (horderly : ∀ m, P m → Orderly none ended m)
    (hPE : ∀ m, P m → E m) (hQE : ∀ m, Q m → E m)
    (hvacate : Ensures P (storeField (k .processor) Slot.activeProcess (k .nil)) (fun _ => Q) fun _ => E)
    (hnext : ∀ since, Ensures Q (nextProcess since fuel) (fun r => Pick r.1) fun _ => E)
    (hinstall : ∀ p context, Ensures (Pick p) (install (k .processor) p context) (fun _ => S)
      fun _ => E) : Ensures P (contextSwitch fuel) (fun _ => S) fun _ => E := by
  have hswitch : Ensures P (do
      storeField (k .processor) Slot.activeProcess (k .nil)
      clearRegisters
      let next ← nextProcess (← get).schedule.clock fuel
      install (k .processor) next.1 next.2) (fun _ => S) fun _ => E := by
    refine Ensures.bind hvacate fun _ => ?_
    refine Ensures.bind ((keeps_clearRegisters hQ).ensures.weaken (fun _ => id) (fun _ _ => id)
      fun _ => hQE) fun _ => ?_
    refine Ensures.bind (ensures_get _ _) fun m₀ => ?_
    exact Ensures.bind ((hnext _).weaken (fun _ hm => hm.1) (fun _ _ => id) fun _ _ => id)
      fun next => hinstall next.1 next.2
  intro m hm
  obtain rfl := hk m hm
  refine Ensures.bind (ensures_landmark (m = ·) .nil _) (fun nil => ?_) m rfl
  rintro _ ⟨rfl, rfl⟩
  refine Ensures.bind (ensures_landmark (m = ·) .processor _) (fun processor => ?_) m rfl
  rintro _ ⟨rfl, rfl⟩
  refine Ensures.bind ((keeps_flush hP).ensures.weaken (fun _ => id) (fun _ _ => id)
    fun _ => hPE) (fun _ => ?_) m hm
  refine Ensures.bind ((ensures_read _ _).weaken (fun _ => id) (fun _ _ => id)
    fun _ => hPE) fun outgoing => ?_
  refine Ensures.ite (fun _ => hswitch.weaken (fun _ hm => hm.1) (fun _ _ => id) fun _ _ => id)
    fun hne => ?_
  refine Ensures.bind ((keeps_suspend hP outgoing).ensures.weaken ?_ (fun _ _ => id)
    fun _ m' hm' => hPE m' hm'.1) fun _ => hswitch.weaken (fun _ hm => hm.1) (fun _ _ => id)
    fun _ _ => id
  rintro m' ⟨hm', hactive⟩
  obtain ⟨lines, ho⟩ := horderly m' hm'
  refine ⟨hm', ?_⟩
  obtain ⟨p, hp, hcase⟩ := ho.active
  cases (activeProcess_eq_ok.mp hactive).symm.trans hp
  rcases hcase with ⟨hnil, -⟩ | ⟨htype, -⟩
  · rw [hk m' hm'] at hnil
    exact absurd hnil hne
  · exact ho.sound.furnished.open_process htype

/-! ## Order -/

/-- The machine is in order and has these landmarks. -/
def OrderlyWith (k : Landmarks) (runner : Option Value) (ended : Set Value) (m : Machine) : Prop :=
  Orderly runner ended m ∧ m.known = k

theorem pollable_orderlyWith (k : Landmarks) (runner : Option Value) (ended : Set Value) :
    Pollable (OrderlyWith k runner ended) where
  steady := (steady_orderly runner ended).and_known k
  orderly _ hm := ⟨runner, ended, hm.1⟩
  signal := by
    rintro m semaphore ⟨⟨lines, ho⟩, hknown⟩ hs
    refine Ensures.after (P := (m = ·)) ((ensures_signal ho hs).weaken (fun _ => id) ?_ ?_) rfl
    · exact fun _ _ hm => ⟨hm.1, hm.2.known_eq.trans hknown⟩
    · exact fun _ _ hm => ⟨hm.1.1, hm.2.known_eq.trans hknown⟩

/-- A process that has been taken from the ready queue: it is in no queue and has not ended. -/
def Picked (k : Landmarks) (runner : Option Value) (ended : Set Value) (p : Value) (m : Machine) :
    Prop :=
  m.known = k ∧ ∃ lines, Ordered runner ended m lines ∧ m.heap.typeOf p = .ok (m.known .process) ∧
    (∀ o, ¬Queued lines p o) ∧ ¬Over runner ended m p

theorem ensures_popReady (ho : Ordered runner ended m lines) :
    Ensures (m = ·) (Queue.ready m).popFront
      (fun r m' => match r with
        | none => m = m'
        | some p => Picked m.known runner ended p m' ∧
          Lingers runner ended (fun _ _ => False) m lines m' ∧ Queued lines p (m.known .processor))
      fun _ => Lingers runner ended (fun _ _ => False) m lines := by
  refine (Queue.ensures_popFront ho.sound.furnished ho.arranged (ready_belongs m)).weaken
    (fun _ => id) ?_ fun _ _ => ho.lingers_of_drops
  rintro (_ | p) m' hm'
  · exact hm'.1
  · obtain ⟨hqueued, hdrops⟩ := hm'
    obtain ⟨lines', h, heq, -, ho', hsub, htype, hover, -⟩ := ho.apart_of_popped hqueued hdrops
    refine ⟨⟨by rw [heq]; rfl, lines', ho', htype, fun o hq => (hsub o p hq).2 rfl, hover⟩,
      ho.lingers_of_drops hdrops, hqueued⟩

theorem ensures_contextSwitch (fuel : Nat) :
    Ensures (OrderlyWhile true none ended) (contextSwitch fuel)
      (fun _ => OrderlyWhile false none ended) fun _ => Orderly none ended := by
  intro m hm
  have hpollable := pollable_orderlyWith m.known none ended
  refine ensures_contextSwitch_of (k := m.known) (Picked m.known none ended)
    ((steady_orderlyWhile true none ended).and_known m.known) hpollable.steady (fun _ hm => hm.2)
    (fun _ hm => hm.1.1) (fun _ hm => hm.1.1) (fun _ hm => hm.1) ?_ (fun since => ?_) ?_ m ⟨hm, rfl⟩
  · rintro m' ⟨⟨⟨lines, ho⟩, hpending⟩, hknown⟩
    rw [← hknown]
    refine (ensures_vacate ho hpending).weaken (fun _ => id) ?_ ?_ m' rfl
    · exact fun _ _ hm => ⟨hm.1.orderly, hm.1.known_eq⟩
    · rintro _ _ rfl
      exact ⟨lines, ho⟩
  · refine (hpollable.ensures_nextProcess ?_ ?_ since fuel).weaken (fun _ => id) (fun _ _ => id)
      fun _ _ hm => hm.1
    · rintro m' ⟨⟨lines, ho⟩, hknown⟩
      refine (ensures_popReady ho).weaken (fun _ => id) ?_ ?_
      · rintro (_ | p) m'' hm''
        · obtain rfl := hm''
          exact ⟨⟨lines, ho⟩, hknown⟩
        · rw [← hknown]
          exact hm''.1
      · exact fun _ _ hm => ⟨hm.1.orderly, hm.1.known_eq.trans hknown⟩
    · rintro p m' ⟨hknown, lines, ho, -⟩
      exact ⟨⟨lines, ho⟩, hknown⟩
  · rintro p context m' ⟨hknown, lines, ho, htype, hunqueued, hover⟩
    rw [← hknown]
    refine (ensures_install ho htype hunqueued hover context).weaken (fun _ => id) ?_ ?_ m' rfl
    · exact fun _ _ hm => ⟨hm.1.1.orderly, hm.2⟩
    · rintro _ m'' (rfl | hm)
      · exact ⟨lines, ho⟩
      · exact hm.1.orderly

/-- After housekeeping no switch is pending. -/
theorem ensures_housekeeping (fuel : Nat) :
    Ensures (Orderly none ended) (housekeeping fuel) (fun _ => OrderlyWhile false none ended)
      fun _ => Orderly none ended := by
  intro m hm
  refine Ensures.bind ((pollable_orderlyWith m.known none ended).keeps_poll.ensures.weaken
    (fun _ => id) (fun _ _ => id) fun _ _ hm => hm.1) (fun _ => ?_) m ⟨hm, rfl⟩
  refine Ensures.bind (ensures_get _ _) fun m₀ => ?_
  refine Ensures.ite (fun hpending => ?_) fun hidle => Ensures.pure ?_
  · refine (ensures_contextSwitch fuel).weaken ?_ (fun _ _ => id) fun _ _ => id
    rintro _ ⟨hm, rfl⟩
    exact ⟨hm.1, hpending⟩
  · rintro _ ⟨hm, rfl⟩
    exact ⟨hm.1, Bool.eq_false_iff.mpr hidle⟩

/-! ## Starting a run -/

/-- The entry process is in no queue. -/
def Detached (ended : Set Value) (m : Machine) (lines : Value → Line) (m' : Machine) : Prop :=
  Lingers none ended (fun _ _ => False) m lines m' ∧
    ∃ lines', Ordered none ended m' lines' ∧ (∀ o p, Queued lines' p o → Queued lines p o) ∧
      ∀ o, ¬Queued lines' m'.regs.entryProcess o

/-- Nil has no queue, so a process that waits for nothing can only be ready. -/
theorem Ordered.not_queued_nil (ho : Ordered runner ended m lines) (p : Value) :
    ¬Queued lines p (m.known .nil) := by
  rintro ⟨link, hmem⟩
  obtain ⟨q, v, -, -, hfirst, -⟩ := ho.arranged.exists_queue hmem
  exact ho.sound.furnished.nil_fetchField _ _ hfirst

theorem Lingers.trans {m'' : Machine} (hfirst : Lingers none ended (fun _ _ => False) m lines m₁)
    (hsub : ∀ o p, Queued lines₁ p o → Queued lines p o)
    (hsecond : Lingers none ended (fun _ _ => False) m₁ lines₁ m'') :
    Lingers none ended (fun _ _ => False) m lines m'' :=
  hsecond.of_later hfirst.1.toEndures hfirst.1.excess hfirst.2 (fun o p hq => .inl (hsub o p hq))
    fun _ _ => id

/-- The entry process can only be where it waits, once it is no longer ready. -/
theorem ensures_unwait (ho : Ordered none ended m lines)
    (hready : ¬Queued lines m.regs.entryProcess (m.known .processor)) :
    Ensures (m = ·)
      (do
        let semaphore := (← get).regs.entryWait
        unless semaphore = m.known .nil do
          let _ ← (Queue.waiting semaphore).unlink m.regs.entryProcess
          modifyRegs ({ · with entryWait := m.known .nil }))
      (fun _ => Detached ended m lines) fun _ => Lingers none ended (fun _ _ => False) m lines := by
  refine Ensures.bind (ensures_get (m = ·) _) fun m₀ => ?_
  rintro _ ⟨rfl, rfl⟩
  refine Ensures.ite (P := (m = ·)) (fun hnil => Ensures.pure ?_) (fun hne => ?_) m rfl
  · rintro _ rfl
    refine ⟨ho.lingers_self, lines, ho, fun _ _ => id, fun o hq => ?_⟩
    rcases ho.entry_waits o hq with rfl | rfl
    · exact hready hq
    · rw [hnil] at hq
      exact ho.not_queued_nil _ hq
  · refine Ensures.bind ((Queue.ensures_unlink ho.sound.furnished ho.arranged
      (waiting_belongs (ho.entryWait_type hne)) _).weaken (fun _ => id) (fun _ _ => id)
      fun _ _ => ho.lingers_of_drops) fun _ => ensures_modify ?_
    intro m' hdrops
    obtain ⟨lines', ho', hsub, h, hr, rfl⟩ := ho.drops hdrops
    have hunqueued : ∀ o, ¬Queued lines' m.regs.entryProcess o := by
      intro o hq
      obtain ⟨hold, hnot⟩ := hsub o _ hq
      rcases ho.entry_waits o hold with rfl | rfl
      · exact hready hold
      · exact hnot ⟨rfl, rfl⟩
    have hkept : ∀ o p, Queued lines' p o → Queued lines p o := fun o p hq => (hsub o p hq).1
    have ho'' := ho'.withEntryWait (v := m.known .nil) (fun o hq => absurd hq (hunqueued o))
      fun hne => absurd rfl hne
    refine ⟨⟨⟨?_, ⟨lines', ho'', fun o p hq => .inl (hkept o p hq)⟩, hr.excess⟩, rfl⟩, lines', ho'',
      hkept, hunqueued⟩
    exact (Endures.of_reshaped hr.toReshaped).trans (.withEntryWait _ _)

theorem ensures_detachEntryProcess (ho : Ordered none ended m lines) :
    Ensures (m = ·) detachEntryProcess (fun _ => Detached ended m lines)
      fun _ => Lingers none ended (fun _ _ => False) m lines := by
  refine Ensures.bind (ensures_landmark (m = ·) .nil _) fun nil => ?_
  rintro _ ⟨rfl, rfl⟩
  refine Ensures.bind (ensures_get (m = ·) _) (fun m₀ => ?_) m rfl
  rintro _ ⟨rfl, rfl⟩
  refine Ensures.bind (ensures_get (m = ·) _) (fun m₀ => ?_) m rfl
  rintro _ ⟨rfl, rfl⟩
  refine Ensures.bind ((Queue.ensures_unlink ho.sound.furnished ho.arranged (ready_belongs m)
    _).weaken (fun _ => id) (fun _ _ => id) fun _ _ => ho.lingers_of_drops) (fun _ => ?_) m rfl
  intro m' hdrops
  have hlingers : Lingers none ended (fun _ _ => False) m lines m' := ho.lingers_of_drops hdrops
  obtain ⟨lines', ho', hsub, h, hr, rfl⟩ := ho.drops hdrops
  have hkept : ∀ o p, Queued lines' p o → Queued lines p o := fun o p hq => (hsub o p hq).1
  refine (ensures_unwait ho' fun hq => (hsub _ _ hq).2 ⟨rfl, rfl⟩).weaken (fun _ => id) ?_
    (fun _ _ => hlingers.trans hkept) _ rfl
  rintro _ m'' ⟨hlater, lines'', ho'', hsub', hunqueued⟩
  exact ⟨hlingers.trans hkept hlater, lines'', ho'', fun o p hq => hkept o p (hsub' o p hq), hunqueued⟩

/-- The entry process is active and in no queue. -/
def Entered (ended : Set Value) (m : Machine) : Prop :=
  ∃ lines, Ordered none ended m lines ∧ m.activeProcess = .ok m.regs.entryProcess ∧
    ∀ o, ¬Queued lines m.regs.entryProcess o

/-- What the start of a run leaves that has failed: the same process is active, or the entry
process. -/
def Unstarted (m m' : Machine) : Prop :=
  m'.activeProcess = .ok m.regs.entryProcess ∨
    m'.activeProcess = m.activeProcess ∧ m'.schedule.switchPending = m.schedule.switchPending

theorem Seated.entered {p : Value} (hp : Seated ended m lines p m') (hentry : p = m.regs.entryProcess)
    (hunqueued : ∀ o, ¬Queued lines p o) : Entered ended m' := by
  subst hentry
  obtain ⟨lines', ho, hjoined⟩ := hp.1.ordered
  refine ⟨lines', ho, ?_, ?_⟩
  · rw [hp.1.entry_eq]
    exact hp.2
  · rw [hp.1.entry_eq]
    exact fun o hq => hunqueued o ((hjoined o _ hq).resolve_right id)

/-- The entry process becomes active, once it is in no queue. -/
theorem ensures_enter (ho : Ordered none ended m lines)
    (hunqueued : ∀ o, ¬Queued lines m.regs.entryProcess o) (context : Value) :
    Ensures (m = ·)
      (do
        let entry := (← get).regs.entryProcess
        storeField (← landmark .processor) Slot.activeProcess entry
        storeField entry Slot.processContext context
        modifySchedule fun s => { s with switchPending := false, lastSwitch := s.clock }
        modifyRegs ({ · with result := none })
        reload context)
      (fun _ => Seated ended m lines m.regs.entryProcess)
      fun _ m' => m = m' ∨ Seated ended m lines m.regs.entryProcess m' := by
  have hsteady := steady_seated ended m lines m.regs.entryProcess
  have hresult := keeps_modifyRegs (f := ({ · with result := none })) hsteady
    fun _ => ⟨rfl, rfl, rfl, rfl⟩
  have hover : ¬Over none ended m m.regs.entryProcess := fun hover => (ho.gone _ hover).ne_entry rfl
  refine Ensures.bind (ensures_get (m = ·) _) fun m₀ => ?_
  rintro _ ⟨rfl, rfl⟩
  refine Ensures.bind (ensures_landmark (m = ·) .processor _) (fun processor => ?_) m rfl
  rintro _ ⟨rfl, rfl⟩
  refine Ensures.bind ((ensures_seat ho ho.entry_type hunqueued hover).weaken (fun _ => id)
    (fun _ _ hm => hm.1) fun _ _ => .inl) (fun _ => ?_) m rfl
  intro m₁ hm₁
  have hopen : Open m₁.known m₁.heap m.regs.entryProcess := by
    have htype := hm₁.1.types _ _ ho.entry_type
    rw [← hm₁.1.known_eq] at htype
    exact (hsteady.sound m₁ hm₁).furnished.open_process htype
  refine Ensures.bind ((keeps_storeField_open hsteady m.regs.entryProcess _ _).ensures.weaken
    (fun _ => id) (fun _ _ hm => hm.1) fun _ _ hm => .inr hm.1) (fun _ => ?_) m₁ ⟨hm₁, hopen⟩
  refine Ensures.bind (Q := fun _ => Seated ended m lines m.regs.entryProcess)
    (ensures_modify fun _ hm => hm.settle ho.entry_type hunqueued _) fun _ => ?_
  refine Ensures.bind (hresult.ensures.weaken (fun _ => id) (fun _ _ => id) fun _ _ => .inr)
    fun _ => ?_
  exact (keeps_reload hsteady context).ensures.weaken (fun _ => id) (fun _ _ => id) fun _ _ => .inr

theorem Follows.trans {m'' : Machine} (hfirst : Follows none ended (fun _ _ => False) m lines m₁)
    (hsub : ∀ o p, Queued lines₁ p o → Queued lines p o)
    (hsecond : Follows none ended (fun _ _ => False) m₁ lines₁ m'') :
    Follows none ended (fun _ _ => False) m lines m'' := by
  obtain ⟨lines', ho, hjoined⟩ := hsecond.ordered
  refine ⟨⟨lines', ho, fun o p hq => .inl (hsub o p ((hjoined o p hq).resolve_right id))⟩,
    hsecond.known_eq.trans hfirst.known_eq, fun u t ht => hsecond.types u t (hfirst.types u t ht),
    fun u n hn => hsecond.sizes u n (hfirst.sizes u n hn), hfirst.excess.trans hfirst.types ?_,
    hsecond.entry_eq.trans hfirst.entry_eq⟩
  rw [← hfirst.known_eq]
  exact hsecond.excess

/-- A run that starts has the entry process active and in no queue. -/
theorem ensures_startMethod (ho : Ordered none ended m lines) (method receiver : Value)
    (arguments : List Value) :
    Ensures (m = ·) (startMethod method receiver arguments)
      (fun _ m' => Follows none ended (fun _ _ => False) m lines m' ∧ Entered ended m')
      fun _ m' => Follows none ended (fun _ _ => False) m lines m' ∧ Unstarted m m' := by
  obtain ⟨active, hactive, -⟩ := ho.active
  have hactive := activeProcess_eq_ok.mpr hactive
  -- the context is made without any change to who is active
  have hsteady : Steady fun m' => Seated ended m lines active m' ∧
      m'.schedule.switchPending = m.schedule.switchPending :=
    ⟨fun m' hm' => (steady_seated ended m lines active).sound m' hm'.1, fun m₁ m₂ hm₁ hu =>
      ⟨(steady_seated ended m lines active).undisturbed m₁ m₂ hm₁.1 hu, hu.pending_eq.trans hm₁.2⟩⟩
  have hfail : ∀ m', Seated ended m lines active m' ∧
      m'.schedule.switchPending = m.schedule.switchPending →
      Follows none ended (fun _ _ => False) m lines m' ∧ Unstarted m m' :=
    fun m' hm' => ⟨hm'.1.1, .inr ⟨hm'.1.2.trans hactive.symm, hm'.2⟩⟩
  rintro _ rfl
  refine Ensures.bind ((opens_entryContext hsteady method receiver arguments).weaken (fun _ => id)
    (fun _ _ hm' => hm'.1) fun _ => hfail) (fun context => ?_) m ⟨⟨ho.follows_self, hactive⟩, rfl⟩
  rintro m₁ ⟨⟨hfollows₁, hactive₁⟩, hpending₁⟩
  obtain ⟨lines₁, ho₁, hjoined₁⟩ := hfollows₁.ordered
  have hsub₁ : ∀ o p, Queued lines₁ p o → Queued lines p o :=
    fun o p hq => (hjoined₁ o p hq).resolve_right id
  have hlater : ∀ m₂, Lingers none ended (fun _ _ => False) m₁ lines₁ m₂ →
      Follows none ended (fun _ _ => False) m lines m₂ ∧ Unstarted m m₂ := by
    rintro m₂ ⟨hproceeds, hpending⟩
    refine ⟨hfollows₁.trans hsub₁ hproceeds.follows, .inr ⟨?_, hpending.trans hpending₁⟩⟩
    rw [hactive, activeProcess_eq_ok, hproceeds.known_eq]
    exact (hproceeds.active _).mpr (activeProcess_eq_ok.mp hactive₁)
  refine Ensures.bind ((ensures_detachEntryProcess ho₁).weaken (fun _ => id) (fun _ _ => id)
    fun _ => hlater) (fun _ => ?_) m₁ rfl
  rintro m₂ ⟨hlingers, lines₂, ho₂, hsub₂, hunqueued⟩
  obtain ⟨hfollows₂, hunstarted⟩ := hlater m₂ hlingers
  have hsub : ∀ o p, Queued lines₂ p o → Queued lines p o := fun o p hq => hsub₁ o p (hsub₂ o p hq)
  have hseated : ∀ {m₃}, Seated ended m₂ lines₂ m₂.regs.entryProcess m₃ →
      Follows none ended (fun _ _ => False) m lines m₃ := fun hm₃ => hfollows₂.trans hsub hm₃.1
  refine (ensures_enter ho₂ hunqueued context).weaken (fun _ => id) ?_ ?_ m₂ rfl
  · exact fun _ m₃ hm₃ => ⟨hseated hm₃, hm₃.entered rfl hunqueued⟩
  · rintro _ m₃ (rfl | hm₃)
    · exact ⟨hfollows₂, hunstarted⟩
    · refine ⟨hseated hm₃, .inl ?_⟩
      rw [← hfollows₂.entry_eq]
      exact hm₃.2

end Machine

end MessageMachine
