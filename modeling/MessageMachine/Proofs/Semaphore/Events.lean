import MessageMachine.Proofs.Schedule.History
import MessageMachine.Proofs.Semaphore.Account

/-!
# Every event keeps the account

There is one lemma for each sort of event.  A wait either takes a signal that was left over or puts
the active process among those who are blocked.  All the others are read off what the operations do
to the queues: who joins a queue and who becomes active, which never is anybody who is blocked.

`Event.balanced` puts the lemmas together, and `Serves.balanced` is the induction over any number of
events.
-/

namespace MessageMachine.Machine

open Heap (Kept)

variable {m m' m₁ : Machine} {w w' : Watch} {lines : Value → Line} {semaphore : Value}
  {φ : Handle → Handle}

/-! ## Waits -/

/-- The active process joins those who are blocked. -/
theorem Accounted.joined (ha : Accounted m lines w) (ho : Ordered none ∅ m lines)
    (hs : w.semaphore = some semaphore) {active : Value} (hidle : m.schedule.switchPending = false)
    (hactive : m.activeProcess = .ok active) {n : Int} (hexcess : m.excessSignals semaphore = .ok n)
    (hnone : n ≤ 0) (hpending : m'.schedule.switchPending = true)
    (hp : Proceeds none ∅ (fun p o => o = semaphore ∧ p = active) m lines m') :
    Balanced (w.joined m) m' := by
  obtain ⟨lines', ho', hjoined⟩ := hp.ordered
  obtain ⟨htype, hunqueued⟩ := ho.active_idle (activeProcess_eq_ok.mp hactive) hidle
  have hself : ∀ {p}, m.activeProcess = .ok p → p = active :=
    fun h => Except.ok.inj (h.symm.trans hactive)
  have hbefore : ∀ {p}, m'.activeProcess = .ok p → m.activeProcess = .ok p := by
    intro p h
    rw [activeProcess_eq_ok, hp.known_eq] at h
    exact activeProcess_eq_ok.mpr ((hp.active p).mp h)
  refine ⟨lines', ho', ⟨?process, ?waiting, ?queued, fun _ _ _ => hpending, ?away_blocked, ?away⟩, ?_⟩
  case process =>
    rintro p (hw | h)
    · rw [hp.known_eq]
      exact hp.types _ _ (ha.process p hw)
    · rw [hself h, hp.known_eq]
      exact hp.types _ _ htype
  case waiting => exact fun p h => h.imp_left (ha.blocked_waiting p)
  case queued =>
    -- the process that joins was in no queue before, and is now in that of the semaphore
    intro p h o hq
    rcases hjoined o p hq with hold | ⟨rfl, -⟩
    · rcases h with hblocked | hactive'
      · exact ha.queued p hblocked o hold
      · rw [hself hactive'] at hold
        exact absurd hold (hunqueued o)
    · exact hs
  case away_blocked => exact fun p h => .inl (ha.away_blocked p h)
  case away => exact fun p h hactive' => ha.away p h (hbefore hactive')
  intro s hs'
  cases hs.symm.trans hs'
  obtain ⟨htype', ⟨size, hsize, hfirst⟩, ⟨k, hk, -, hcount⟩, hwaiting⟩ := ha.stocked semaphore hs
  cases hexcess.symm.trans hk
  obtain rfl : k = 0 := by omega
  refine ⟨?_, ⟨size, hp.sizes _ _ hsize, hfirst⟩, ⟨0, ?_, fun h => absurd h (Nat.lt_irrefl 0), hcount⟩, ?_⟩
  · rw [hp.known_eq]
    exact hp.types _ _ htype'
  · exact (excessSignals_of_same hp.excess hp.known_eq htype').mpr hexcess
  · intro p hq
    rcases hjoined _ p hq with hold | ⟨-, rfl⟩
    · exact .inl (hwaiting p hold)
    · exact .inr hactive

theorem Balanced.waited (hm : Balanced w m)
    (htype : m.heap.typeOf semaphore = .ok (m.known .semaphore))
    (hidle : m.schedule.switchPending = false) :
    Balanced (w.waited semaphore m) (stateAfter (wait semaphore m)) := by
  obtain ⟨lines, ho, ha⟩ := hm
  have houtcome := ensures_wait ho htype hidle m rfl
  cases hrun : wait semaphore m with
  | error fault m' =>
      rw [hrun] at houtcome
      have hsame : w.waited semaphore m = w := by simp [Watch.waited, hrun, succeeds]
      rw [hsame]
      exact ha.lingers houtcome
  | ok u m' =>
      rw [hrun] at houtcome
      by_cases hs : w.semaphore = some semaphore
      · have hwaited : ∀ excess, m.excessSignals semaphore = .ok excess → w.waited semaphore m =
            if 0 < excess then { w with passed := w.passed + 1 } else w.joined m := by
          intro excess hexcess
          simp only [Watch.waited, hs, hrun, succeeds, hexcess, and_self, if_true]
        cases houtcome with
        | passed excess h hexcess hpos hstored heq =>
            rw [hwaited excess hexcess, if_pos hpos, heq]
            obtain ⟨n, hn, hempty, hcount⟩ := (ha.stocked semaphore hs).count
            cases hexcess.symm.trans hn
            refine ha.restocked w.signals (w.passed + 1) ho htype hstored ?_
              fun hne => absurd hs hne
            -- one signal fewer is left over, and one wait more has been let through
            exact fun _ => ⟨n - 1, by omega, fun _ => hempty (by omega), by omega⟩
        | blocked excess active hexcess hnone hactive hpending hproceeds =>
            rw [hwaited excess hexcess, if_neg (by omega)]
            exact ha.joined ho hs hidle hactive hexcess hnone hpending hproceeds
      · have hsame : w.waited semaphore m = w := by simp [Watch.waited, hs]
        rw [hsame]
        cases houtcome with
        | passed excess h hexcess hpos hstored heq =>
            rw [heq]
            exact ha.restocked w.signals w.passed ho htype hstored
              (fun hs' => absurd hs' hs) fun _ => ⟨rfl, rfl⟩
        | blocked excess active hexcess hnone hactive hpending hproceeds =>
            refine ha.proceeds hproceeds ?_
            rintro p o ⟨rfl, rfl⟩
            exact ⟨ha.not_blocked hidle hactive, hs⟩

/-! ## Processes that go on, start and end -/

/-- The active process is made ready, and perhaps a newcomer. -/
theorem Accounted.readied (ha : Accounted m lines w) (ho : Ordered none ∅ m lines)
    {newcomer : Value → Prop} (hnew : ∀ p, newcomer p → p ∉ w.blocked) {action : MachineM α}
    (houtcome : Ensures (m = ·) action (fun _ => Proceeds none ∅ (Readied newcomer m) m lines)
      fun _ => Lingers none ∅ (Readied newcomer m) m lines) :
    Balanced w (stateAfter (action m)) := by
  have hreadied := ha.of_readied ho.sound.furnished hnew
  exact (houtcome.weaken (fun _ => id) (fun _ _ hm => ha.proceeds hm hreadied)
    fun _ _ hm => ha.proceeds hm.1 hreadied).after rfl

theorem Balanced.yielded (hm : Balanced w m) : Balanced w (stateAfter (yieldProcessor m)) := by
  obtain ⟨lines, ho, ha⟩ := hm
  exact ha.readied ho (fun _ => False.elim) (ensures_yieldProcessor ho)

theorem Balanced.forked (hm : Balanced w m) (context : Value) :
    Balanced w (stateAfter (forkProcess context m)) := by
  obtain ⟨lines, ho, ha⟩ := hm
  refine ha.readied ho (fun p hnew hblocked => ?_) (ensures_forkProcess ho context)
  exact hnew _ (ha.process p (ha.blocked_waiting p hblocked))

theorem Balanced.made (hm : Balanced w m) : Balanced w (stateAfter (newSemaphore m)) := by
  obtain ⟨lines, ho, ha⟩ := hm
  exact ((ensures_newSemaphore ho).weaken (fun _ => id) (fun _ _ => ha.lingers)
    fun _ _ => ha.lingers).after rfl

/-- Nobody is active who is blocked, since nobody is active. -/
theorem Accounted.vacated (ha : Accounted m lines w) (hf : Furnished m.known m.heap)
    (hfollows : Follows none ∅ (fun _ _ => False) m lines m')
    (hactive : m'.activeProcess = .ok (m.known .nil)) : Balanced w m' := by
  refine ha.follows hfollows (fun _ _ => False.elim) fun p hp hactive' => ?_
  cases hactive.symm.trans hactive'
  exact absurd (ha.process _ (ha.blocked_waiting _ hp)) hf.nil_type

theorem Balanced.finished (hm : Balanced w m) (hidle : m.schedule.switchPending = false) (v : Value) :
    Balanced w (stateAfter (processFinished v m)) := by
  have hsteady : Steady fun m => Balanced w m ∧ m.schedule.switchPending = false :=
    ⟨fun m hm => (steady_balanced w).sound m hm.1,
      fun m m' hm hu => ⟨hm.1.undisturbed hu, hu.pending_eq.trans hm.2⟩⟩
  refine (ensures_processFinished_of (R := Balanced w) hsteady (fun _ hm => hm.1) ?_ ?_ v).after
    ⟨hm, hidle⟩
  · rintro m p ⟨⟨lines, ho, -⟩, hidle⟩ hp
    exact (ho.active_idle (activeProcess_eq_ok.mp hp) hidle).1
  · rintro m ⟨⟨lines, ho, ha⟩, hidle⟩ hentry
    have hf := ho.sound.furnished
    obtain ⟨p, hp, -⟩ := ho.active
    have hne : p ≠ m.regs.entryProcess := fun heq => hentry (activeProcess_eq_ok.mpr (heq ▸ hp))
    refine (ensures_resign hf.settled).weaken (fun _ => id) ?_ ?_
    · rintro _ _ ⟨h, hstored, rfl⟩
      have hfollows : Follows none ∅ (fun _ _ => False) m lines _ :=
        (ho.finish hidle hp hne hstored).follows_of_active hf hstored rfl rfl
      exact ha.vacated hf hfollows (activeProcess_eq_ok.mpr hstored.self)
    · rintro _ _ rfl
      exact ⟨lines, ho, ha⟩

/-! ## Switches and starts -/

theorem Balanced.vacated (hm : Balanced w m) (hpending : m.schedule.switchPending = true) :
    Balanced w (stateAfter
      (storeField (m.known .processor) Slot.activeProcess (m.known .nil) m)) := by
  obtain ⟨lines, ho, ha⟩ := hm
  refine ((ensures_vacate ho hpending).weaken (fun _ => id) ?_ ?_).after rfl
  · exact fun _ _ hm => ha.vacated ho.sound.furnished hm.1 hm.2.1
  · rintro _ _ rfl
    exact ⟨lines, ho, ha⟩

theorem Balanced.skipped (hm : Balanced w m) :
    Balanced w (stateAfter ((Queue.ready m).popFront m)) := by
  obtain ⟨lines, ho, ha⟩ := hm
  refine ((ensures_popReady ho).weaken (fun _ => id) ?_ fun _ _ => ha.lingers).after rfl
  rintro (_ | p) m' hm'
  · obtain rfl := hm'
    exact ⟨lines, ho, ha⟩
  · exact ha.lingers hm'.2.1

/-- Who is ready is not blocked. -/
theorem Accounted.not_blocked_of_ready (ha : Accounted m lines w) (hf : Furnished m.known m.heap)
    {p : Value} (hq : Queued lines p (m.known .processor)) : p ∉ w.blocked :=
  fun hp => ha.ne_processor hf (ha.queued p hp _ hq)

/-- Somebody who is not blocked takes the processor. -/
theorem Accounted.seated (ha : Accounted m lines w) {p : Value} (hp : p ∉ w.blocked)
    (hseated : Seated ∅ m lines p m') : Balanced w m' := by
  refine ha.follows hseated.1 (fun _ _ => False.elim) fun q hq hactive => ?_
  cases hseated.2.symm.trans hactive
  exact absurd hq hp

theorem Balanced.resumed (hm : Balanced w m) {p : Value}
    (hpop : (Queue.ready m).popFront m = .ok (some p) m₁) (context : Value) :
    Balanced w (stateAfter (install (m₁.known .processor) p context m₁)) := by
  obtain ⟨lines, ho, ha⟩ := hm
  have houtcome := ensures_popReady ho m rfl
  rw [hpop] at houtcome
  obtain ⟨⟨-, lines₁, ho₁, htype, hunqueued, hover⟩, hlingers, hq⟩ := houtcome
  have hready := ha.not_blocked_of_ready ho.sound.furnished hq
  obtain ⟨lines₂, ho₂, ha₁⟩ := ha.lingers hlingers
  obtain rfl := ho₁.arranged.unique ho₂.arranged
  refine ((ensures_install ho₁ htype hunqueued hover context).weaken (fun _ => id) ?_ ?_).after rfl
  · exact fun _ _ hm => ha₁.seated hready hm.1
  · rintro _ m' (rfl | hm)
    · exact ⟨lines₁, ho₁, ha₁⟩
    · exact ha₁.seated hready hm

theorem Balanced.started (hm : Balanced w m) (method receiver : Value) (arguments : List Value) :
    Balanced (w.restarted m) (stateAfter (startMethod method receiver arguments m)) := by
  obtain ⟨lines, ho, ha⟩ := hm
  have ha' : Accounted m lines (w.restarted m) :=
    ha.narrow (fun _ hp => hp.1) fun p hp => ⟨⟨ha.away_blocked p hp.1, hp.2⟩, ha.away p hp.1⟩
  have hentry : m.regs.entryProcess ∉ (w.restarted m).blocked := fun hp => hp.2 rfl
  refine ((ensures_startMethod ho method receiver arguments).weaken (fun _ => id) ?_ ?_).after rfl
  · rintro _ m' ⟨hfollows, _, -, hactive, -⟩
    rw [hfollows.entry_eq] at hactive
    exact ha'.seated hentry ⟨hfollows, hactive⟩
  · rintro _ m' ⟨hfollows, hactive | ⟨hactive, hpending⟩⟩
    · exact ha'.seated hentry ⟨hfollows, hactive⟩
    · refine ha'.follows hfollows (fun _ _ => False.elim) fun p _ hactive' => ⟨?_, ?_⟩
      · rw [← hactive, hactive']
      · exact fun h => hpending.trans h

/-! ## Collections -/

theorem Relocated.excessSignals_map (hr : Relocated φ m m')
    (hkept : Kept m.heap m.roots semaphore) {n : Int} (hexcess : m.excessSignals semaphore = .ok n) :
    m'.excessSignals (semaphore.map φ) = .ok n := by
  obtain ⟨x, hx, hcase⟩ := excessSignals_eq_ok.mp hexcess
  refine excessSignals_eq_ok.mpr ⟨x.map φ, hr.heap.fetchField_map hr.settled' hkept hx, ?_⟩
  have hnil := hr.eq_known_iff (l := .nil) (hkept.of_fetchField hx)
  rcases hcase with ⟨heq, rfl⟩ | ⟨hne, rfl⟩
  · exact .inl ⟨hnil.mpr heq, rfl⟩
  · exact .inr ⟨fun h => hne (hnil.mp h), rfl⟩

theorem Watch.semaphore_moved {w : Watch} {s : Value} (hs : w.semaphore = some s)
    (hkept : Kept m.heap m.roots s) : (w.moved φ m).semaphore = some (s.map φ) := by
  simp only [Watch.moved, hs, Option.bind_some, if_pos hkept]

/-- The account follows a semaphore that is kept. -/
theorem Relocated.stocked (hr : Relocated φ m m') (harranged : Arranged m.known m.heap lines)
    (hs : Stocked m lines w semaphore) (hkept : Kept m.heap m.roots semaphore) :
    Stocked m' (Relocated.linesMap φ m lines) (w.moved φ m) (semaphore.map φ) := by
  obtain ⟨htype, ⟨size, hsize, hfirst⟩, ⟨n, hexcess, hempty, hcount⟩, hwaiting⟩ := hs
  have hqueued : ∀ {p'}, Queued (Relocated.linesMap φ m lines) p' (semaphore.map φ) →
      ∃ p, Queued lines p semaphore ∧ Kept m.heap m.roots p ∧ p.map φ = p' := by
    intro p' hq
    obtain ⟨p, o, hold, hp, ho, rfl, heq⟩ := hr.exists_queued_of_queued harranged hq
    obtain rfl := hr.heap.map_injective hr.settled' ho hkept heq
    exact ⟨p, hold, hp, rfl⟩
  refine ⟨(hr.typeOf_known hkept).mpr htype, ⟨size, ?_, hfirst⟩, ⟨n, ?_, ?_, hcount⟩, ?_⟩
  · exact hr.heap.fieldCount_map hr.settled' hkept hsize
  · exact hr.excessSignals_map hkept hexcess
  · intro hpos p' hq
    obtain ⟨p, hold, -⟩ := hqueued hq
    exact hempty hpos p hold
  · intro p' hq
    obtain ⟨p, hold, hp, rfl⟩ := hqueued hq
    exact ⟨p, hwaiting p hold, hp, rfl⟩

/-- Those who have waited and those who are blocked are followed if they are kept. -/
theorem Relocated.tended (hr : Relocated φ m m') (harranged : Arranged m.known m.heap lines)
    (ht : Tended m lines w) : Tended m' (Relocated.linesMap φ m lines) (w.moved φ m) := by
  have hactive : ∀ {p}, Kept m.heap m.roots p → m'.activeProcess = .ok (p.map φ) →
      m.activeProcess = .ok p := by
    intro p hp h
    rw [activeProcess_eq_ok, hr.known] at h
    rw [activeProcess_eq_ok]
    exact (hr.heap.fetchField_iff hr.settled hr.settled' (kept_known m _) hp).mp h
  constructor
  case process =>
    rintro _ ⟨p, hp, hkept, rfl⟩
    exact (hr.typeOf_known hkept).mpr (ht.process p hp)
  case blocked_waiting =>
    rintro _ ⟨p, hp, hkept, rfl⟩
    exact ⟨p, ht.blocked_waiting p hp, hkept, rfl⟩
  case queued =>
    rintro _ ⟨p, hp, hkept, rfl⟩ o' hq
    obtain ⟨p₂, o, hold, hp₂, ho₂, heq, rfl⟩ := hr.exists_queued_of_queued harranged hq
    obtain rfl := hr.heap.map_injective hr.settled' hp₂ hkept heq
    exact Watch.semaphore_moved (ht.queued p₂ hp o hold) ho₂
  case leaving =>
    rintro _ ⟨p, hp, hkept, rfl⟩ h
    rw [hr.schedule]
    exact ht.leaving p hp (hactive hkept h)
  case away_blocked =>
    rintro _ ⟨p, hp, hkept, rfl⟩
    exact ⟨p, ht.away_blocked p hp, hkept, rfl⟩
  case away =>
    rintro _ ⟨p, hp, hkept, rfl⟩ h
    exact ht.away p hp (hactive hkept h)

/-- The watch follows the objects. -/
theorem Relocated.balanced (hr : Relocated φ m m') (hm : Balanced w m) :
    Balanced (w.moved φ m) m' := by
  obtain ⟨lines, ho, ha⟩ := hm
  have ho' := hr.ordered ho
  have hnone : Relocated.survivors φ m ∅ = ∅ := by
    refine Set.eq_empty_of_forall_notMem ?_
    rintro _ ⟨p, hp, -⟩
    exact hp
  rw [hnone] at ho'
  refine ⟨_, ho', hr.tended ho.arranged ha.toTended, fun s' hs' => ?_⟩
  obtain ⟨s, hs, hif⟩ := Option.bind_eq_some_iff.mp hs'
  by_cases hkept : Kept m.heap m.roots s
  · rw [if_pos hkept] at hif
    cases hif
    exact hr.stocked ho.arranged (ha.stocked s hs) hkept
  · rw [if_neg hkept] at hif
    cases hif

/-! ## All events -/

theorem Watch.signals_le_signalled (w : Watch) (semaphore : Value) (m : Machine) :
    w.signals ≤ (w.signalled semaphore m).signals := by
  unfold Watch.signalled Watch.woken
  split
  · split
    · exact Nat.le_succ _
    · split
      · exact Nat.le_succ _
      · exact Nat.le_refl _
    · exact Nat.le_refl _
  · exact Nat.le_refl _

theorem Operation.signals_le (o : Operation) (w : Watch) (m : Machine) :
    w.signals ≤ (o.seen w m).signals := by
  cases o with
  | signal semaphore => exact w.signals_le_signalled semaphore m
  | wait semaphore =>
      unfold Operation.seen Watch.waited Watch.joined
      dsimp only
      split
      · split
        · split <;> exact Nat.le_refl _
        · exact Nat.le_refl _
      · exact Nat.le_refl _
  | yield | fork | finish => exact Nat.le_refl _

/-- Signals are only added. -/
theorem Event.signals_le (he : Event m w m' w') : w.signals ≤ w'.signals := by
  cases he with
  | signalled => exact w.signals_le_signalled _ m
  | operated o => exact o.signals_le w m
  | _ => exact Nat.le_refl _

theorem Operation.balanced (o : Operation) (hm : Balanced w m) (hapt : o.Apt m)
    (hidle : m.schedule.switchPending = false) (hfew : (o.seen w m).signals < 2 ^ 62) :
    Balanced (o.seen w m) (stateAfter (o.run m)) := by
  cases o with
  | signal semaphore => exact hm.signalled (.inr hapt) hfew
  | wait semaphore => exact hm.waited hapt hidle
  | yield => exact hm.yielded
  | fork context =>
      have hforked := hm.forked context
      rw [Operation.run_fork]
      cases hrun : forkProcess context m with
      | ok p m' =>
          rw [hrun] at hforked
          exact hforked
      | error fault m' =>
          rw [hrun] at hforked
          exact hforked
  | finish v => exact hm.finished hidle v

theorem Switching.balanced (hs : Switching m m') (hm : Balanced w m) : Balanced w m' := by
  cases hs with
  | vacated hpending => exact hm.vacated hpending
  | skipped => exact hm.skipped
  | resumed context hpop => exact hm.resumed hpop context

/-- As long as the signals can be counted, an event keeps the account. -/
theorem Event.balanced (he : Event m w m' w') (hm : Balanced w m) (hfew : w'.signals < 2 ^ 62) :
    Balanced w' m' := by
  cases he with
  | changed hu => exact hm.undisturbed hu
  | signalled hx => exact hm.signalled hx hfew
  | operated o hapt hidle => exact o.balanced hm hapt hidle hfew
  | made => exact hm.made
  | switched hs => exact hs.balanced hm
  | started method receiver arguments => exact hm.started method receiver arguments
  | collected hflush hcycle hr =>
      have hsaved := keeps_flush (steady_balanced w) m hm
      rw [hflush] at hsaved
      exact keeps_collectGarbage (steady_balanced _) hflush hcycle (hr.balanced hsaved)

/-- The account is kept over any number of events. -/
theorem Serves.balanced (hs : Serves m w m' w') (hm : Balanced w m) (hfew : w'.signals < 2 ^ 62) :
    Balanced w' m' := by
  induction hs with
  | refl => exact hm
  -- the number of signals only grows, so what bounds the last bounds all before it
  | tail _ he ih => exact (he.balanced (ih hm (he.signals_le.trans_lt hfew)) hfew).noted

/-! ## Events that nobody watches -/

/-- The watch of somebody who looks at no semaphore. -/
def Watch.blind : Watch := ⟨none, 0, 0, ∅, ∅, ∅⟩

theorem balanced_blind (hm : Orderly none ∅ m) : Balanced .blind m := by
  obtain ⟨lines, ho⟩ := hm
  exact ⟨lines, ho, ⟨nofun, nofun, nofun, nofun, nofun, nofun⟩, nofun⟩

theorem Event.blind (he : Event m w m' w') : Event m .blind m' .blind := by
  have hnone : ∀ (φ : Handle → Handle) (m : Machine), Relocated.survivors φ m ∅ = ∅ := by
    intro φ m
    refine Set.eq_empty_of_forall_notMem ?_
    rintro _ ⟨p, hp, -⟩
    exact hp
  -- the machine does the same whoever watches it; only what is written down differs
  cases he with
  | changed hu => exact .changed hu
  | signalled hx => exact .signalled hx
  | operated o hapt hidle =>
      have he : Event m .blind _ (o.seen .blind m) := .operated o hapt hidle
      have hseen : o.seen .blind m = .blind := by
        cases o with
        | signal semaphore => exact Watch.signalled_of_ne nofun
        | wait semaphore =>
            unfold Operation.seen Watch.waited
            refine if_neg ?_
            rintro ⟨⟨⟩, -⟩
        | yield | fork | finish => rfl
      rwa [hseen] at he
  | made => exact .made
  | switched hs => exact .switched hs
  | started method receiver arguments =>
      have he : Event m .blind _ (Watch.blind.restarted m) := .started method receiver arguments
      simpa only [Watch.restarted, Watch.blind, Set.empty_sdiff] using he
  | collected hflush hcycle hr =>
      have he : Event m .blind _ (Watch.blind.moved _ _) := .collected hflush hcycle hr
      simpa only [Watch.moved, Watch.blind, Option.bind_none, hnone] using he

/-- The processes stay in order, however many signals there are. -/
theorem Event.orderly (he : Event m w m' w') (hm : Orderly none ∅ m) : Orderly none ∅ m' :=
  (he.blind.balanced (balanced_blind hm) (by decide)).orderly

theorem Serves.orderly (hs : Serves m w m' w') (hm : Orderly none ∅ m) : Orderly none ∅ m' := by
  induction hs with
  | refl => exact hm
  | tail _ he ih => exact he.orderly ih

end MessageMachine.Machine
