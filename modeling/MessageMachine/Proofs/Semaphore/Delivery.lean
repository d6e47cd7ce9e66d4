import MessageMachine.Proofs.Schedule.Exclusion
import MessageMachine.Proofs.Semaphore.Events

/-!
# Semaphores neither lose nor duplicate signals

A semaphore that has no signals left over and for which nobody waits can be watched from there on
(`Watch.opened`).  `Delivered m w` is what can be observed after any number of events: the signals
are those left over and those that have let somebody through, none are left over while somebody
waits, and who has left the processor after blocking is not active.

Whatever is done from such a state is made of events that follow from it (`Watches`): an instruction of
operations of which at most one succeeds, housekeeping of signals from outside and of the steps of a switch,
and a run of these, wherever it ends.

It is true as long as the program stores into no semaphore, link or processor, and not into the
interrupt table of the processor.  `outflank` puts an array there that looks like a semaphore for which
the running process waits; then it waits for a real one, and goes on without a signal.
-/

namespace MessageMachine.Machine

variable {m m' m₀ : Machine} {w w' w₀ : Watch} {lines : Value → Line} {semaphore : Value}
  {ended : Set Value}

/-! ## Instructions -/

/-- Events of the instruction that has begun at `m₀` lead to the machine. -/
def Instructed (m₀ : Machine) (w₀ : Watch) (m : Machine) : Prop := ∃ done w, Instructs m₀ w₀ done m w

/-- No operation of the instruction has succeeded yet, and no switch is pending. -/
def Unfinished (m₀ : Machine) (w₀ : Watch) (m : Machine) : Prop :=
  (∃ w, Instructs m₀ w₀ false m w) ∧ m.schedule.switchPending = false

theorem Unfinished.instructed (hm : Unfinished m₀ w₀ m) : Instructed m₀ w₀ m := by
  obtain ⟨⟨w, h⟩, -⟩ := hm
  exact ⟨false, w, h⟩

/-- An operation, which asks for no switch if it fails. -/
theorem Unfinished.ensures (hm : Unfinished m₀ w₀ m) (o : Operation) (hapt : o.Apt m)
    (hidle : Ensures (m = ·) o.run (fun _ _ => True)
      fun _ m' => m'.schedule.switchPending = m.schedule.switchPending) :
    Ensures (m = ·) o.run (fun _ => Instructed m₀ w₀) fun _ => Unfinished m₀ w₀ := by
  rintro _ rfl
  obtain ⟨⟨w, h⟩, hpending⟩ := hm
  have hafter := h.operated o hapt hpending
  have houtcome := hidle m rfl
  cases hrun : o.run m with
  | ok u m' =>
      rw [hrun] at hafter
      exact ⟨_, _, hafter⟩
  | error fault m' =>
      rw [hrun] at hafter houtcome
      exact ⟨⟨_, hafter⟩, houtcome.trans hpending⟩

section Instructing

variable (hstart : Orderly none ∅ m₀)
include hstart

theorem Instructed.orderly (hm : Instructed m₀ w₀ m) : Orderly none ∅ m := by
  obtain ⟨done, w, h⟩ := hm
  exact h.serves.orderly hstart

theorem steady_instructed : Steady (Instructed m₀ w₀) := by
  refine ⟨fun m hm => ?_, fun _ _ ⟨_, _, h⟩ hu => ⟨_, _, h.changed hu⟩⟩
  obtain ⟨lines, ho⟩ := hm.orderly hstart
  exact ho.sound

theorem steady_unfinished : Steady (Unfinished m₀ w₀) :=
  ⟨fun m hm => (steady_instructed hstart).sound m hm.instructed,
    fun _ _ ⟨⟨_, h⟩, hpending⟩ hu => ⟨⟨_, h.changed hu⟩, hu.pending_eq.trans hpending⟩⟩

/-- The operations on processes are events of the instruction. -/
theorem schedules_instructed : Schedules (Unfinished m₀ w₀) (Instructed m₀ w₀) where
  steady := steady_unfinished hstart
  steady_after := steady_instructed hstart
  weaken _ hm := hm.instructed
  newSemaphore := by
    intro m hm
    obtain ⟨lines, ho⟩ := hm.instructed.orderly hstart
    obtain ⟨⟨w, h⟩, hpending⟩ := hm
    have hlingers := (ensures_newSemaphore ho).after rfl
    exact ⟨⟨_, h.made⟩, hlingers.2.trans hpending⟩
  signal m semaphore hm htype := by
    obtain ⟨lines, ho⟩ := hm.instructed.orderly hstart
    refine hm.ensures (.signal semaphore) htype ?_
    exact (ensures_signal ho (.inr htype)).weaken (fun _ => id) (fun _ _ _ => trivial)
      fun _ _ h => h.1.2
  wait m semaphore hm htype := by
    obtain ⟨lines, ho⟩ := hm.instructed.orderly hstart
    refine hm.ensures (.wait semaphore) htype ?_
    exact (ensures_wait ho htype hm.2).weaken (fun _ => id) (fun _ _ _ => trivial) fun _ _ h => h.2
  yield := Ensures.of_forall fun m hm => by
    obtain ⟨lines, ho⟩ := hm.instructed.orderly hstart
    refine hm.ensures .yield trivial ?_
    exact (ensures_yieldProcessor ho).weaken (fun _ => id) (fun _ _ _ => trivial) fun _ _ h => h.2
  fork m context hm := by
    obtain ⟨lines, ho⟩ := hm.instructed.orderly hstart
    have hforked := ensures_forkProcess ho context m rfl
    have hoperated := hm.ensures (.fork context) trivial
    simp only [Ensures, forall_eq', Operation.run_fork] at hoperated
    rintro _ rfl
    cases hrun : forkProcess context m with
    | ok p m' =>
        rw [hrun] at hforked hoperated
        exact ⟨hoperated trivial, hforked.toEndures⟩
    | error fault m' =>
        rw [hrun] at hforked hoperated
        exact hoperated hforked.2
  finish v := Ensures.of_after fun m ⟨⟨_, h⟩, hpending⟩ =>
    ⟨_, _, h.operated (.finish v) trivial hpending⟩

end Instructing

/-! ## Housekeeping -/

/-- Events of the housekeeping that has begun at `m₀` lead to the machine. -/
def Housekept (m₀ : Machine) (w₀ : Watch) (m : Machine) : Prop := ∃ w, Tends m₀ w₀ m w

theorem Housekept.switched (hm : Housekept m₀ w₀ m) (hs : Switching m m') : Housekept m₀ w₀ m' := by
  obtain ⟨w, h⟩ := hm
  exact ⟨_, h.switched hs⟩

/-- No switch is pending any longer. -/
def HousekeptIdle (m₀ : Machine) (w₀ : Watch) (m : Machine) : Prop :=
  Housekept m₀ w₀ m ∧ m.schedule.switchPending = false

section Keeping

variable (hstart : Orderly none ∅ m₀)
include hstart

theorem Housekept.orderly (hm : Housekept m₀ w₀ m) : Orderly none ∅ m := by
  obtain ⟨w, h⟩ := hm
  exact h.serves.orderly hstart

theorem steady_housekept : Steady (Housekept m₀ w₀) := by
  refine ⟨fun m hm => ?_, fun _ _ ⟨_, h⟩ hu => ⟨_, h.changed hu⟩⟩
  obtain ⟨lines, ho⟩ := hm.orderly hstart
  exact ho.sound

/-- Polls are made of signals. -/
theorem pollable_housekept : Pollable (Housekept m₀ w₀) where
  steady := steady_housekept hstart
  orderly _ hm := ⟨none, ∅, hm.orderly hstart⟩
  signal _ _ hm hs := by
    obtain ⟨w, h⟩ := hm
    exact ⟨_, h.signalled hs⟩

/-! ### Switching to another process -/

/-- The processor is left while a switch is pending. -/
theorem ensures_vacate_housekept (k : Landmarks) :
    Ensures (fun m => (Housekept m₀ w₀ m ∧ m.schedule.switchPending = true) ∧ m.known = k)
      (storeField (k .processor) Slot.activeProcess (k .nil))
      (fun _ m => Housekept m₀ w₀ m ∧ m.known = k) fun _ => Housekept m₀ w₀ := by
  refine Ensures.of_forall ?_
  rintro m ⟨⟨hm, hpending⟩, rfl⟩
  obtain ⟨lines, ho⟩ := hm.orderly hstart
  have hafter := hm.switched (.vacated hpending)
  have houtcome := ensures_vacate ho hpending m rfl
  rintro _ rfl
  cases hrun : storeField (m.known .processor) Slot.activeProcess (m.known .nil) m with
  | ok u m' =>
      rw [hrun] at hafter houtcome
      exact ⟨hafter, houtcome.1.known_eq⟩
  | error fault m' =>
      rw [hrun] at hafter
      exact hafter

/-- The process has been taken from the ready queue last. -/
def Chosen (m₀ : Machine) (w₀ : Watch) (k : Landmarks) (p : Value) (m' : Machine) : Prop :=
  m'.known = k ∧ ∃ m, Housekept m₀ w₀ m ∧ (Queue.ready m).popFront m = .ok (some p) m'

omit hstart in
/-- A process that has been taken may be left where it is. -/
theorem Chosen.housekept {k : Landmarks} {p : Value} (hchosen : Chosen m₀ w₀ k p m') :
    Housekept m₀ w₀ m' := by
  obtain ⟨-, m, hm, hpop⟩ := hchosen
  have hafter := hm.switched .skipped
  rwa [hpop] at hafter

theorem pollable_housekept_known (k : Landmarks) :
    Pollable fun m => Housekept m₀ w₀ m ∧ m.known = k := by
  refine ⟨(steady_housekept hstart).and_known k, fun m hm => ⟨none, ∅, hm.1.orderly hstart⟩, ?_⟩
  rintro m semaphore ⟨hm, rfl⟩ hs
  refine ⟨(pollable_housekept hstart).signal m semaphore hm hs, ?_⟩
  obtain ⟨lines, ho⟩ := hm.orderly hstart
  have hendures : Ensures (m = ·) (signal semaphore) (fun _ => Endures m) fun _ => Endures m :=
    (ensures_signal ho hs).weaken (fun _ => id) (fun _ _ h => h.2) fun _ _ h => h.2
  exact (hendures.after rfl).known_eq

theorem ensures_nextProcess_housekept (k : Landmarks) (since fuel : Nat) :
    Ensures (fun m => Housekept m₀ w₀ m ∧ m.known = k) (nextProcess since fuel)
      (fun r => Chosen m₀ w₀ k r.1) fun _ => Housekept m₀ w₀ := by
  refine ((pollable_housekept_known hstart k).ensures_nextProcess ?_
    (fun p m hm => ⟨hm.housekept, hm.1⟩) since fuel).weaken (fun _ => id) (fun _ _ => id) fun _ _ hm => hm.1
  rintro m ⟨hm, rfl⟩
  obtain ⟨lines, ho⟩ := hm.orderly hstart
  have houtcome := ensures_popReady ho m rfl
  have hafter := hm.switched .skipped
  rintro _ rfl
  cases hrun : (Queue.ready m).popFront m with
  | error fault m' =>
      rw [hrun] at houtcome hafter
      exact ⟨hafter, houtcome.1.known_eq⟩
  | ok r m' =>
      rw [hrun] at houtcome
      cases r with
      | none =>
          obtain rfl := houtcome
          exact ⟨hm, rfl⟩
      | some p => exact ⟨houtcome.1.1, m, hm, hrun⟩

theorem ensures_install_housekept (k : Landmarks) (p context : Value) :
    Ensures (Chosen m₀ w₀ k p) (install (k .processor) p context) (fun _ => HousekeptIdle m₀ w₀)
      fun _ => Housekept m₀ w₀ := by
  refine Ensures.of_forall ?_
  rintro m' ⟨hk, m, hm, hpop⟩
  obtain ⟨lines, ho⟩ := hm.orderly hstart
  -- taking the process and installing it are one event, which begins before the process is taken
  have hafter := hm.switched (.resumed context hpop)
  have hpopped := ensures_popReady ho m rfl
  rw [hpop] at hpopped
  obtain ⟨⟨-, lines', ho', htype, hunqueued, hover⟩, -⟩ := hpopped
  have houtcome := ensures_install ho' htype hunqueued hover context m' rfl
  rw [hk] at hafter houtcome
  rintro _ rfl
  cases hrun : install (k .processor) p context m' with
  | ok u m₁ =>
      rw [hrun] at hafter houtcome
      exact ⟨hafter, houtcome.2⟩
  | error fault m₁ =>
      rw [hrun] at hafter
      exact hafter

theorem ensures_contextSwitch_housekept (fuel : Nat) :
    Ensures (fun m => Housekept m₀ w₀ m ∧ m.schedule.switchPending = true) (contextSwitch fuel)
      (fun _ => HousekeptIdle m₀ w₀) fun _ => Housekept m₀ w₀ := by
  intro m hm
  have hsteady : Steady (Housekept m₀ w₀) := steady_housekept hstart
  have hpending : Steady fun m => Housekept m₀ w₀ m ∧ m.schedule.switchPending = true :=
    ⟨fun m hm => hsteady.sound m hm.1,
      fun _ _ ⟨hm, hpending⟩ hu => ⟨hsteady.undisturbed _ _ hm hu, hu.pending_eq.trans hpending⟩⟩
  exact ensures_contextSwitch_of (Chosen m₀ w₀ m.known) (hpending.and_known m.known)
    (hsteady.and_known m.known) (fun _ hm => hm.2) (fun _ hm => hm.1.1.orderly hstart)
    (fun _ hm => hm.1.1) (fun _ hm => hm.1) (ensures_vacate_housekept hstart m.known)
    (fun since => ensures_nextProcess_housekept hstart m.known since fuel)
    (ensures_install_housekept hstart m.known) m ⟨hm, rfl⟩

theorem ensures_housekeeping_housekept (fuel : Nat) :
    Ensures (Housekept m₀ w₀) (housekeeping fuel) (fun _ => HousekeptIdle m₀ w₀) fun _ => Housekept m₀ w₀ := by
  refine Ensures.bind (pollable_housekept hstart).keeps_poll.ensures fun _ => ?_
  refine Ensures.bind (ensures_get _ _) fun m₁ => ?_
  refine Ensures.ite (fun hpending => ?_) fun hidle => Ensures.pure ?_
  · refine (ensures_contextSwitch_housekept hstart fuel).weaken ?_ (fun _ _ => id) fun _ _ => id
    rintro _ ⟨hm, rfl⟩
    exact ⟨hm, hpending⟩
  · rintro _ ⟨hm, rfl⟩
    exact ⟨hm, Bool.eq_false_iff.mpr hidle⟩

end Keeping

/-! ## Runs are made of events -/

/-- Events lead from a machine with its watch to the machine. -/
def Traced (m₀ : Machine) (w₀ : Watch) (m : Machine) : Prop := ∃ w, Serves m₀ w₀ m w

/-- No switch is pending. -/
def TracedIdle (m₀ : Machine) (w₀ : Watch) (m : Machine) : Prop :=
  Traced m₀ w₀ m ∧ m.schedule.switchPending = false

/-- What an instruction or a collection may lead to, and whether it has asked for a switch. -/
theorem Traced.trans (hm : Traced m₀ w₀ m) (h : ∀ w, Traced m w m') : Traced m₀ w₀ m' := by
  obtain ⟨w, hs⟩ := hm
  obtain ⟨w', hs'⟩ := h w
  exact ⟨w', hs.trans hs'⟩

theorem Traced.event (hm : Traced m₀ w₀ m) (he : ∀ w, ∃ w', Event m w m' w') : Traced m₀ w₀ m' :=
  hm.trans fun w => by
    obtain ⟨w', he⟩ := he w
    exact ⟨_, (Serves.refl m w).tail he⟩

section Tracing

variable (hstart : Orderly none ∅ m₀)
include hstart

theorem Traced.orderly (hm : Traced m₀ w₀ m) : Orderly none ∅ m := by
  obtain ⟨w, hs⟩ := hm
  exact hs.orderly hstart

theorem steady_traced : Steady (Traced m₀ w₀) := by
  refine ⟨fun m hm => ?_, fun _ _ hm hu => hm.event fun w => ⟨w, .changed hu⟩⟩
  obtain ⟨lines, ho⟩ := hm.orderly hstart
  exact ho.sound

theorem steady_tracedIdle : Steady (TracedIdle m₀ w₀) :=
  ⟨fun m hm => (steady_traced hstart).sound m hm.1, fun _ _ hm hu =>
    ⟨(steady_traced hstart).undisturbed _ _ hm.1 hu, hu.pending_eq.trans hm.2⟩⟩

theorem ensures_housekeeping_traced (fuel : Nat) :
    Ensures (Traced m₀ w₀) (housekeeping fuel) (fun _ => TracedIdle m₀ w₀) fun _ => Traced m₀ w₀ := by
  rintro m ⟨w, hs⟩
  have hserves : ∀ m', Housekept m w m' → Traced m₀ w₀ m' := fun m' ⟨w', h⟩ => ⟨w', hs.trans h.serves⟩
  exact (ensures_housekeeping_housekept (hs.orderly hstart) fuel).weaken (fun _ => id)
    (fun _ m' h => ⟨hserves m' h.1, h.2⟩) (fun _ m' h => hserves m' h) m ⟨w, .begun⟩

/-- An instruction, begun while no switch is pending, has events of its own. -/
theorem Serves.instructs (hs : Serves m₀ w₀ m w) (hidle : m.schedule.switchPending = false)
    (hbehaves : step m = stepWith restrain m) : Instructed m w (stateAfter (step m)) := by
  rw [hbehaves]
  exact (schedules_instructed (hs.orderly hstart)).ends_stepWith.after ⟨⟨w, .begun⟩, hidle⟩

/-- Events last as long as a run. -/
theorem lasting_traced :
    Lasting restrain (Traced m₀ w₀) (TracedIdle m₀ w₀) fun _ => Traced m₀ w₀ where
  tidy := ensures_tidy_of (steady_traced hstart) (fun _ hm hidle => ⟨hm, hidle⟩)
    (ensures_housekeeping_traced hstart)
  collect := by
    refine ensures_collectGarbage_of (steady_tracedIdle hstart) (fun _ hm => hm.1) ?_
    intro m m₁ φ cycle hm hflush hcycle hr
    refine ⟨hm.1.event fun w => ⟨_, .collected hflush hcycle hr⟩, ?_⟩
    have hsaved := keeps_flush (steady_tracedIdle hstart) m hm
    rw [hflush] at hsaved
    obtain ⟨lines, ho⟩ := hsaved.1.orderly hstart
    exact (keeps_collectGarbage (steady_orderlyWhile false none _) hflush hcycle
      ⟨⟨_, hr.ordered ho⟩, (congrArg _ hr.schedule).trans hsaved.2⟩).2
  step := by
    refine .of_after ?_
    rintro m ⟨⟨⟨w, hs⟩, hidle⟩, hstore⟩
    obtain ⟨done, w', h⟩ := hs.instructs hstart hidle hstore
    exact ⟨w', hs.trans h.serves⟩
  count _ hm := (steady_traced hstart).undisturbed _ _ hm
    (((steady_traced hstart).sound _ hm).undisturbed_of_eq rfl rfl rfl rfl rfl rfl rfl)
  outOfBudget _ := id

/-- Wherever a run ends, with a result or with a fault, events lead there. -/
theorem Serves.run (hs : Serves m₀ w₀ m w) {budget : Nat} (hbehaves : Behaves budget m) :
    Traced m w (stateAfter (run budget m)) :=
  (lasting_traced (hs.orderly hstart)).run.after ⟨⟨w, .refl m w⟩, hbehaves.runsAs⟩

theorem Serves.runMethod (hs : Serves m₀ w₀ m w) {budget : Nat} (method receiver : Value)
    (arguments : List Value)
    (hbehaves : ∀ m', startMethod method receiver arguments m = .ok () m' → Behaves budget m') :
    Traced m w (stateAfter (runMethod budget method receiver arguments m)) := by
  have hstarted : Keeps (Traced m w) (startMethod method receiver arguments) :=
    fun m hm => hm.event fun w => ⟨_, .started method receiver arguments⟩
  exact ((lasting_traced (hs.orderly hstart)).runMethod hstarted.ensures).after
    ⟨⟨w, .refl m w⟩, fun m' hrun => (hbehaves m' hrun).runsAs⟩

end Tracing

/-! ## What can be observed -/

/-- The semaphore has received as many signals as the watch says, and let through as many waits. -/
structure Delivered (m : Machine) (w : Watch) : Prop where
  /-- Signals are left over or have let somebody through, and are left over only while nobody
  waits. -/
  signals : ∀ semaphore, w.semaphore = some semaphore → ∃ (n : Nat) (waiting : List Value),
    m.excessSignals semaphore = .ok n ∧ m.waitingProcesses semaphore = .ok waiting ∧
      w.signals = n + w.passed ∧ (0 < n → waiting = []) ∧ ∀ p ∈ waiting, p ∈ w.waiting
  /-- Who has left the processor after blocking is not active before a signal lets it through. -/
  away : ∀ p ∈ w.away, m.activeProcess ≠ .ok p

theorem Balanced.observed (hm : Balanced w m) : Delivered m w := by
  obtain ⟨lines, ho, ha⟩ := hm
  refine ⟨fun s hs => ?_, ha.away⟩
  obtain ⟨htype, ⟨size, hsize, hfirst⟩, ⟨n, hexcess, hempty, hcount⟩, hwaiting⟩ := ha.stocked s hs
  have hread := (toList_eq_ok ho.arranged (waiting_belongs htype)).mpr
    ⟨Heap.exists_fetchField hsize hfirst, rfl⟩
  have hqueued : ∀ p ∈ (lines s).map Prod.snd, Queued lines p s := by
    intro p hp
    obtain ⟨⟨link, p⟩, hmem, rfl⟩ := List.mem_map.mp hp
    exact ⟨link, hmem⟩
  refine ⟨n, _, hexcess, hread, hcount, fun hpos => ?_, fun p hp => hwaiting p (hqueued p hp)⟩
  exact List.eq_nil_iff_forall_not_mem.mpr fun p hp => hempty hpos p (hqueued p hp)

/-- A semaphore without signals and without waiting processes. -/
structure Idling (m : Machine) (semaphore : Value) : Prop where
  type : m.heap.typeOf semaphore = .ok (m.known .semaphore)
  excess : m.excessSignals semaphore = .ok 0
  waiting : m.waitingProcesses semaphore = .ok []

theorem Idling.balanced (hi : Idling m semaphore) (hm : Orderly none ended m) :
    Balanced (.opened semaphore) m := by
  obtain ⟨lines, ho⟩ := hm
  refine ⟨lines, ⟨ho.sound, ho.arranged, ho.active, ho.entry_type, ho.entry_waits, ho.entryWait_type,
    fun p hp => (over_none.mp hp).elim⟩, ⟨nofun, nofun, nofun, nofun, nofun, nofun⟩, ?_⟩
  rintro s ⟨⟩
  obtain ⟨⟨v, hv⟩, hline⟩ := (toList_eq_ok ho.arranged (waiting_belongs hi.type)).mp hi.waiting
  obtain ⟨size, hsize⟩ := Heap.exists_count_of_fetchField hv
  have hnobody : ∀ p, ¬Queued lines p semaphore := by
    rintro p ⟨link, hmem⟩
    have hp : p ∈ (lines semaphore).map Prod.snd := List.mem_map.mpr ⟨_, hmem, rfl⟩
    rw [show (lines semaphore).map Prod.snd = [] from hline.symm] at hp
    cases hp
  exact ⟨hi.type, ⟨size, hsize, Heap.lt_of_fetchField hsize hv⟩,
    ⟨0, hi.excess, fun _ => hnobody, rfl⟩, fun p hq => absurd hq (hnobody p)⟩

/-- What somebody who has the watch `w` at `m` writes down next. -/
structure Watches (m : Machine) (w : Watch) : Prop where
  start : ∀ method receiver arguments,
    Serves m w (stateAfter (startMethod method receiver arguments m))
      ((w.restarted m).noted (stateAfter (startMethod method receiver arguments m)))
  housekeeping : ∀ fuel, ∃ w', Tends m w (stateAfter (Machine.housekeeping fuel m)) w'
  /-- The objects are moved, and the watch follows them. -/
  collect : ∀ m₁ cycle, flush m = .ok () m₁ → (m₁.heap.collect m₁.roots).result = .ok cycle →
    ∃ φ, Relocated φ m₁ m₁.collected ∧ Serves m w (stateAfter (collectGarbage m))
      ((w.moved φ m₁).noted (stateAfter (collectGarbage m)))
  /-- At most one operation of an instruction succeeds. -/
  step : m.schedule.switchPending = false → Machine.step m = stepWith restrain m →
    ∃ done w', Instructs m w done (stateAfter (Machine.step m)) w'
  run : ∀ budget, Behaves budget m → ∃ w', Serves m w (stateAfter (Machine.run budget m)) w'
  runMethod : ∀ budget method receiver arguments,
    (∀ m', startMethod method receiver arguments m = .ok () m' → Behaves budget m') →
      ∃ w', Serves m w (stateAfter (Machine.runMethod budget method receiver arguments m)) w'

theorem Serves.watches (hstart : Orderly none ∅ m₀) (hs : Serves m₀ w₀ m w) : Watches m w where
  start method receiver arguments := (Serves.refl m w).tail (.started method receiver arguments)
  housekeeping fuel := by
    have hkept : Keeps (Housekept m w) (Machine.housekeeping fuel) :=
      ((ensures_housekeeping_housekept (hs.orderly hstart) fuel).weaken (fun _ => id)
        (fun _ _ h => h.1) fun _ _ => id).keeps
    exact hkept m ⟨w, .begun⟩
  collect m₁ cycle hflush hcycle := by
    have hsaved := keeps_flush (steady_orderly none ∅) m (hs.orderly hstart)
    rw [hflush] at hsaved
    obtain ⟨lines, ho⟩ := hsaved
    obtain ⟨φ, hr⟩ := relocated_collected ho.sound.furnished.settled hcycle
    exact ⟨φ, hr, (Serves.refl m w).tail (.collected hflush hcycle hr)⟩
  step hidle hbehaves := hs.instructs hstart hidle hbehaves
  run _ hbehaves := hs.run hstart hbehaves
  runMethod _ method receiver arguments := hs.runMethod hstart method receiver arguments

namespace Reached

/-- From a state of some history in which a semaphore has neither signals nor waiting processes, no
signal is lost or counted twice, whatever happens, as long as their number can be stored; and whatever is
done next is made of such events, whether it ends with a result or with a fault. -/
theorem delivered (hm : Reached m₀ ended) (hi : Idling m₀ semaphore)
    (hs : Serves m₀ (.opened semaphore) m w) :
    (w.signals < 2 ^ 62 → Delivered m w) ∧ Watches m w := by
  have hbalanced := hi.balanced hm.orderly
  exact ⟨fun hfew => (hs.balanced hbalanced hfew).observed, hs.watches hbalanced.orderly⟩

end Reached

/-! ## A wait that blocks -/

/-- The next ready process is taken, and goes on with a context. -/
def seat (context : Value) : MachineM (Option Value) := do
  let process ← (Queue.ready (← get)).popFront
  if let some process := process then install (← landmark .processor) process context
  return process

/-- Nobody is active. -/
def vacated (m : Machine) : Machine :=
  stateAfter (storeField (m.known .processor) Slot.activeProcess (m.known .nil) m)

namespace Serves

theorem event {action : MachineM α} {a : α} (hs : Serves m₀ w₀ m w)
    (he : Event m w (stateAfter (action m)) w') (hrun : action m = .ok a m') :
    Serves m₀ w₀ m' (w'.noted m') := by
  have hafter := hs.tail he
  rwa [hrun] at hafter

theorem vacated (hs : Serves m₀ w₀ m w) (hpending : m.schedule.switchPending = true) :
    Serves m₀ w₀ m.vacated (w.noted m.vacated) := hs.tail (.switched (.vacated hpending))

theorem seated (hs : Serves m₀ w₀ m w) {p context : Value} (hrun : seat context m = .ok (some p) m') :
    Serves m₀ w₀ m' (w.noted m') := by
  obtain ⟨_, _, hget, hrest⟩ := bind_eq_ok.mp hrun
  cases hget
  obtain ⟨r, m₁, hpop, hrest⟩ := bind_eq_ok.mp hrest
  cases r with
  | none => cases hrest
  | some q =>
      obtain ⟨_, _, hprocessor, hrest⟩ := bind_eq_ok.mp hrest
      cases hprocessor
      obtain ⟨_, _, hinstall, hend⟩ := bind_eq_ok.mp hrest
      cases hend
      have hafter := hs.tail (.switched (.resumed context hpop))
      rwa [hinstall] at hafter

end Serves

/-- A process is forked into the context of the active one, takes the processor and waits for the
semaphore in vain; then the entry process takes the processor and signals the semaphore. -/
structure Blocks (semaphore method : Value) (m m₁ m₂ m₃ m₄ m₅ m₆ : Machine) (p q r : Value) : Prop where
  start : startMethod method (m.known .nil) [] m = .ok () m₁
  calm : m₁.schedule.switchPending = false
  fork : forkProcess m₁.regs.activeContext m₁ = .ok p m₂
  leaves : m₂.schedule.switchPending = true
  runs : seat m₁.regs.activeContext m₂.vacated = .ok (some q) m₃
  type : m₃.heap.typeOf semaphore = .ok (m₃.known .semaphore)
  idle : m₃.schedule.switchPending = false
  excess : m₃.excessSignals semaphore = .ok 0
  active : m₃.activeProcess = .ok p
  wait : wait semaphore m₃ = .ok () m₄
  leaves' : m₄.schedule.switchPending = true
  queued : m₄.waitingProcesses semaphore = .ok [p]
  goes : seat m₁.regs.activeContext m₄.vacated = .ok (some r) m₅
  away : m₅.activeProcess = .ok m₅.regs.entryProcess
  type' : m₅.heap.typeOf semaphore = .ok (m₅.known .semaphore)
  popped : ∃ t, (Queue.waiting semaphore).popFront m₅ = .ok (some p) t
  signal : signal semaphore m₅ = .ok () m₆
  passed : m₆.waitingProcesses semaphore = .ok []

/-- The test for it. -/
def blocks (semaphore method : Value) (m : Machine) : Bool :=
  match startMethod method (m.known .nil) [] m with
  | .error .. => false
  | .ok () m₁ =>
    match forkProcess m₁.regs.activeContext m₁ with
    | .error .. => false
    | .ok p m₂ =>
      match seat m₁.regs.activeContext m₂.vacated with
      | .ok (some _) m₃ =>
        match Machine.wait semaphore m₃ with
        | .error .. => false
        | .ok () m₄ =>
          match seat m₁.regs.activeContext m₄.vacated with
          | .ok (some _) m₅ =>
            match Machine.signal semaphore m₅ with
            | .error .. => false
            | .ok () m₆ =>
              decide (m₁.schedule.switchPending = false ∧ m₂.schedule.switchPending = true ∧
                (m₃.heap.typeOf semaphore).toOption = some (m₃.known .semaphore) ∧
                m₃.schedule.switchPending = false ∧
                (m₃.excessSignals semaphore).toOption = some 0 ∧
                m₃.activeProcess.toOption = some p ∧ m₄.schedule.switchPending = true ∧
                (m₄.waitingProcesses semaphore).toOption = some [p] ∧
                m₅.activeProcess.toOption = some m₅.regs.entryProcess ∧
                (m₅.heap.typeOf semaphore).toOption = some (m₅.known .semaphore) ∧
                resultOf ((Queue.waiting semaphore).popFront m₅) = some (some p) ∧
                (m₆.waitingProcesses semaphore).toOption = some [])
          | _ => false
      | _ => false

theorem exists_of_blocks {semaphore method : Value} (h : blocks semaphore method m = true) :
    ∃ m₁ m₂ m₃ m₄ m₅ m₆ p q r, Blocks semaphore method m m₁ m₂ m₃ m₄ m₅ m₆ p q r := by
  unfold blocks at h
  split at h
  · cases h
  next m₁ hstart =>
  split at h
  · cases h
  next p m₂ hfork =>
  split at h
  · next q m₃ hruns =>
    split at h
    · cases h
    next m₄ hwait =>
    split at h
    · next r m₅ hgoes =>
      split at h
      · cases h
      next m₆ hsignal =>
      obtain ⟨hcalm, hleaves, htype, hidle, hexcess, hactive, hleaves', hqueued, haway, htype', hpopped,
        hpassed⟩ := of_decide_eq_true h
      exact ⟨m₁, m₂, m₃, m₄, m₅, m₆, p, q, r, hstart, hcalm, hfork, hleaves, hruns, eq_ok_of_toOption htype,
        hidle, eq_ok_of_toOption hexcess, eq_ok_of_toOption hactive, hwait, hleaves',
        eq_ok_of_toOption hqueued, hgoes, eq_ok_of_toOption haway, eq_ok_of_toOption htype',
        resultOf_eq_some hpopped, hsignal, eq_ok_of_toOption hpassed⟩
    · cases h
  · cases h

/-- Somebody who watches the semaphore sees the wait, which blocks, and then the signal that lets it
through. -/
theorem Blocks.serves {method : Value} {m₁ m₂ m₃ m₄ m₅ m₆ : Machine} {p q r : Value}
    (hb : Blocks semaphore method m m₁ m₂ m₃ m₄ m₅ m₆ p q r) :
    ∃ w₄ w₆, Serves m (.opened semaphore) m₄ w₄ ∧ w₄.signals = 0 ∧ w₄.passed = 0 ∧ w₄.waiting = {p} ∧
      Serves m₄ w₄ m₆ w₆ ∧ w₆.signals = 1 ∧ w₆.passed = 1 ∧ w₆.waiting = ∅ := by
  have hforked : (Operation.fork m₁.regs.activeContext).run m₁ = .ok () m₂ := by
    rw [Operation.run_fork, hb.fork]
  have hrun := ((((Serves.refl m (.opened semaphore)).event (.started method (m.known .nil) [])
    hb.start).event (.operated (.fork _) trivial hb.calm) hforked).vacated hb.leaves).seated hb.runs
  generalize hw : Watch.noted _ m₃ = w₃ at hrun
  obtain ⟨hsemaphore, hsignals, hpassed, hnobody⟩ : w₃.semaphore = some semaphore ∧
      w₃.signals = 0 ∧ w₃.passed = 0 ∧ w₃.waiting = ∅ := by
    rw [← hw]
    exact ⟨rfl, rfl, rfl, rfl⟩
  have hwaited : w₃.waited semaphore m₃ = w₃.joined m₃ := by
    simp [Watch.waited, hsemaphore, hb.wait, succeeds, hb.excess]
  have hwaiting : (w₃.joined m₃).waiting = {p} := by
    change w₃.waiting ∪ {x | m₃.activeProcess = .ok x} = {p}
    rw [hnobody, hb.active, Set.empty_union]
    exact Set.ext fun x => ⟨fun h => (Except.ok.inj h).symm, fun h => congrArg _ h.symm⟩
  have hblocked := hrun.event (.operated (.wait semaphore) hb.type hb.idle) hb.wait
  have hgoes := ((Serves.refl m₄ ((w₃.joined m₃).noted m₄)).vacated hb.leaves').seated hb.goes
  generalize hw : Watch.noted _ m₅ = w₅ at hgoes
  obtain ⟨hsemaphore', hsignals', hpassed', hwaiting'⟩ : w₅.semaphore = some semaphore ∧
      w₅.signals = 0 ∧ w₅.passed = 0 ∧ w₅.waiting = {p} := by
    rw [← hw]
    exact ⟨hsemaphore, hsignals, hpassed, hwaiting⟩
  have hsignalled := hgoes.event (.signalled (.inr hb.type')) hb.signal
  obtain ⟨t, hpop⟩ := hb.popped
  rw [show (Operation.wait semaphore).seen w₃ m₃ = w₃.joined m₃ from hwaited] at hblocked
  rw [Watch.signalled_of_popFront hsemaphore' (hwaiting' ▸ Set.mem_singleton p) hpop] at hsignalled
  refine ⟨_, _, hblocked, hsignals, hpassed, hwaiting, hsignalled, congrArg (· + 1) hsignals',
    congrArg (· + 1) hpassed', ?_⟩
  change w₅.waiting \ {p} = ∅
  rw [hwaiting', Set.sdiff_self]

/-! ## The interrupt table -/

/-- Runs a method of the interrupt table that stores an array into it, in the place of the timer
semaphore, and then waits for the input semaphore.  The array has the fields of a semaphore for which
the entry process waits. -/
def outflank (budget : Nat) : MachineM Value := do
  let nil ← landmark .nil
  let interrupts ← fetchField (← landmark .processor) Slot.interruptTable
  let semaphore ← fetchField interrupts Slot.inputInterrupt
  let link ← newArray [(← get).regs.entryProcess, nil]
  let forged ← newArray [.int 0, link, nil]
  let method ← compileMethod {
    selector := "outflank"
    header := .bytecodes 0 0
    literals := [.value forged, .value semaphore, .symbol "wait"]
    code := assemble [.pushLiteral 0, .popStoreField 0, .pushLiteral 1, .send 2 0, .ret .topToSender] }
  let _ ← runMethod budget method interrupts []
  return semaphore

/-- Whether a semaphore has neither signals nor waiting processes. -/
def idles (m : Machine) (semaphore : Value) : Bool :=
  decide ((m.heap.typeOf semaphore).toOption = some (m.known .semaphore) ∧
    (m.excessSignals semaphore).toOption = some 0 ∧ (m.waitingProcesses semaphore).toOption = some [])

theorem Idling.of_idles (h : m.idles semaphore = true) : Idling m semaphore := by
  obtain ⟨htype, hexcess, hwaiting⟩ := of_decide_eq_true h
  exact ⟨eq_ok_of_toOption htype, eq_ok_of_toOption hexcess, eq_ok_of_toOption hwaiting⟩

/-- Whether the input semaphore idles, and after `outflank` the active process waits for it although no
switch is pending. -/
def outflanks (m : Machine) : Bool :=
  match outflank 6 m with
  | .ok semaphore m' =>
    m.idles semaphore && decide (m'.activeProcess.toOption = some m'.regs.entryProcess ∧
      (m'.waitingProcesses semaphore).toOption = some [m'.regs.entryProcess] ∧
      m'.schedule.switchPending = false)
  | .error .. => false

theorem exists_of_outflanks (houtflanks : outflanks m = true) : ∃ semaphore m',
    outflank 6 m = .ok semaphore m' ∧ Idling m semaphore ∧
      m'.activeProcess = .ok m'.regs.entryProcess ∧
      m'.waitingProcesses semaphore = .ok [m'.regs.entryProcess] ∧
      m'.schedule.switchPending = false := by
  unfold outflanks at houtflanks
  split at houtflanks
  · next semaphore m' hrun =>
    obtain ⟨hidles, hstate⟩ := Bool.and_eq_true_iff.mp houtflanks
    obtain ⟨hactive, hwaiting, hpending⟩ := of_decide_eq_true hstate
    exact ⟨semaphore, m', hrun, .of_idles hidles, eq_ok_of_toOption hactive,
      eq_ok_of_toOption hwaiting, hpending⟩
  · cases houtflanks

/-- Whether the input semaphore idles when the method for a handover has been written, and that blocks. -/
def handsOverBlocked (m : Machine) : Bool :=
  match writeHandover m with
  | .error .. => false
  | .ok (semaphore, method) m₁ => m₁.idles semaphore && blocks semaphore method m₁

theorem exists_of_handsOverBlocked (h : handsOverBlocked m = true) : ∃ semaphore method m₁,
    writeHandover m = .ok (semaphore, method) m₁ ∧ Idling m₁ semaphore ∧
      blocks semaphore method m₁ = true := by
  unfold handsOverBlocked at h
  split at h
  · cases h
  next semaphore method m₁ hwrite =>
  obtain ⟨hidles, hblocks⟩ := Bool.and_eq_true_iff.mp h
  exact ⟨semaphore, method, m₁, hwrite, .of_idles hidles, hblocks⟩

/-- The method for a handover stores into nothing that is excluded. -/
theorem behaves_handover {m₁ m₂ : Machine} {method : Value} (hcreate : create promptSettings = .ok m)
    (hwrite : writeHandover m = .ok (semaphore, method) m₁)
    (hstart : startMethod method (m₁.known .nil) [] m₁ = .ok () m₂) : Behaves 6 m₂ := by
  obtain ⟨m', hcreate', htests⟩ := exists_create_of_passes passes_processes
  obtain ⟨semaphore', method', m₁', m₂', m₃, -, -, -, -, hwrite', hstart', hrun, -⟩ :=
    exists_of_handsOver (Bool.and_eq_true_iff.mp htests).1
  cases hcreate.symm.trans hcreate'
  cases hwrite.symm.trans hwrite'
  cases hstart.symm.trans hstart'
  exact (run_of_plainRun hrun).2.2.1

theorem passes_semaphores : passes promptSettings (fun m => handsOverBlocked m && outflanks m) = true := by
  decide +kernel

/-- A process waits in vain for a semaphore, is let through by a signal, and the number of signals and
waits is right after both; and so it is wherever the run of a method ends that makes it wait. -/
theorem delivered_handover : ∃ m m₀ m₁ m₂ semaphore method p w₁ w₂, create promptSettings = .ok m ∧
    writeHandover m = .ok (semaphore, method) m₀ ∧ Idling m₀ semaphore ∧
    Serves m₀ (.opened semaphore) m₁ w₁ ∧ w₁.signals = 0 ∧ w₁.passed = 0 ∧ w₁.waiting = {p} ∧
    m₁.waitingProcesses semaphore = .ok [p] ∧ Delivered m₁ w₁ ∧
    Serves m₁ w₁ m₂ w₂ ∧ w₂.signals = 1 ∧ w₂.passed = 1 ∧ w₂.waiting = ∅ ∧
    m₂.waitingProcesses semaphore = .ok [] ∧ Delivered m₂ w₂ ∧
    ∃ w', Serves m₀ (.opened semaphore) (stateAfter (runMethod 6 method (m₀.known .nil) [] m₀)) w' := by
  obtain ⟨m, hcreate, htests⟩ := exists_create_of_passes passes_semaphores
  obtain ⟨semaphore, method, m₀, hwrite, hi, hblocks⟩ :=
    exists_of_handsOverBlocked (Bool.and_eq_true_iff.mp htests).1
  obtain ⟨m₁', m₂', m₃', m₄, m₅', m₆, p, q, r, hb⟩ := exists_of_blocks hblocks
  obtain ⟨w₄, w₆, hs₄, hsignals₄, hpassed₄, hwaiting₄, hs₆, hsignals₆, hpassed₆, hwaiting₆⟩ := hb.serves
  have hm₀ : Reached m₀ ∅ := by
    have hwritten := keeps_writeHandover (Reached.steady ∅) m (.created hcreate)
    rwa [hwrite] at hwritten
  have hdelivered₄ : Delivered m₄ w₄ :=
    (hm₀.delivered hi hs₄).1 (hsignals₄ ▸ by decide)
  have hdelivered₆ : Delivered m₆ w₆ :=
    (hm₀.delivered hi (hs₄.trans hs₆)).1 (hsignals₆ ▸ by decide)
  refine ⟨m, m₀, m₄, m₆, semaphore, method, p, w₄, w₆, hcreate, hwrite, hi, hs₄, hsignals₄, hpassed₄,
    hwaiting₄, hb.queued, hdelivered₄, hs₆, hsignals₆, hpassed₆, hwaiting₆, hb.passed, hdelivered₆, ?_⟩
  exact (hm₀.delivered hi (.refl m₀ _)).2.runMethod 6 method (m₀.known .nil) [] fun m₁ hstart =>
    behaves_handover hcreate hwrite hstart

/-- A store into the interrupt table is enough for a process to go on while it waits. -/
theorem waiting_and_active_by_outflank : ∃ m m' semaphore, create promptSettings = .ok m ∧
    Idling m semaphore ∧ outflank 6 m = .ok semaphore m' ∧
    m'.waitingProcesses semaphore = .ok [m'.regs.entryProcess] ∧
    m'.activeProcess = .ok m'.regs.entryProcess ∧ m'.schedule.switchPending = false := by
  obtain ⟨m, hcreate, htests⟩ := exists_create_of_passes passes_semaphores
  obtain ⟨semaphore, m', hrun, hi, hactive, hwaiting, hpending⟩ :=
    exists_of_outflanks (Bool.and_eq_true_iff.mp htests).2
  exact ⟨m, m', semaphore, hcreate, hi, hrun, hwaiting, hactive, hpending⟩

end MessageMachine.Machine
