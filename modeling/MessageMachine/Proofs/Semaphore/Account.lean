import MessageMachine.Proofs.Schedule.Primitives
import MessageMachine.Proofs.Schedule.Reading
import MessageMachine.Proofs.Semaphore.Watch

/-!
# The account of a semaphore

`Accounted m lines w` says that the watch and the machine agree.  The semaphore holds as many signals
as there have been more than waits let through, and only while nobody waits for it; and those who wait
for it have been seen to.  Those who are blocked are in no queue but that of the semaphore, and leave
the processor before anything else happens.

`Accounted.follows` carries this over to a later machine, if nobody who is blocked has joined a queue
and nobody at all has joined that of the semaphore.  Signals and waits on the semaphore are what is
left, and each has a lemma of its own.
-/

namespace MessageMachine.Machine

open Heap (Kept)

variable {m m' m₁ : Machine} {w w' : Watch} {lines : Value → Line} {semaphore : Value}
  {added : Value → Value → Prop}

/-! ## Reading the number of signals -/

theorem excessSignals_eq_ok {n : Int} : m.excessSignals semaphore = .ok n ↔
    ∃ x, m.heap.fetchField semaphore Slot.excessSignals = .ok x ∧
      (x = m.known .nil ∧ n = 0 ∨ x ≠ m.known .nil ∧ x = .int n) := by
  unfold excessSignals
  rw [reading_bind_eq_ok]
  refine exists_congr fun x => and_congr liftFault_eq_ok ?_
  split
  · next hnil => simp [hnil, pure, Except.pure, eq_comm]
  · next hnil =>
    rw [liftValueFault_eq_ok]
    cases x with
    | int k => simp [hnil, Value.smallInt]
    | object a => simp [hnil, Value.smallInt]
    | bytes a => simp [hnil, Value.smallInt]
    | words a => simp [hnil, Value.smallInt]

theorem excessSignals_of_same (hsame : SameExcess m.known m.heap m'.heap) (hknown : m'.known = m.known)
    (htype : m.heap.typeOf semaphore = .ok (m.known .semaphore)) {n : Int} :
    m'.excessSignals semaphore = .ok n ↔ m.excessSignals semaphore = .ok n := by
  simp only [excessSignals_eq_ok, hknown, hsame semaphore _ htype]

/-- A number that has been stored is read back, since it is not nil. -/
theorem excessSignals_of_stored {n : Int} {h : Heap} (hf : Furnished m.known m.heap)
    (hstored : Heap.Stored m.heap semaphore Slot.excessSignals (.int n) h) :
    (m.withHeap h).excessSignals semaphore = .ok n := by
  refine excessSignals_eq_ok.mpr ⟨_, hstored.self, .inr ⟨fun hnil => ?_, rfl⟩⟩
  obtain ⟨t, ht⟩ := Heap.exists_typeOf_of_count hf.nil_empty
  obtain ⟨a, o, hhandle, -⟩ := Heap.typeOf_eq_ok.mp ht
  change Value.int n = m.known .nil at hnil
  rw [← hnil] at hhandle
  cases hhandle

/-! ## The account -/

/-- The signals of the semaphore are accounted for. -/
structure Stocked (m : Machine) (lines : Value → Line) (w : Watch) (semaphore : Value) : Prop where
  type : m.heap.typeOf semaphore = .ok (m.known .semaphore)
  first : ∃ n, m.heap.fieldCount semaphore = .ok n ∧ Slot.firstWaiting < n
  count : ∃ n : Nat, m.excessSignals semaphore = .ok n ∧ (0 < n → ∀ p, ¬Queued lines p semaphore) ∧
    w.signals = n + w.passed
  waiting : ∀ p, Queued lines p semaphore → p ∈ w.waiting

/-- Those who have waited and those who are blocked have been seen to. -/
structure Tended (m : Machine) (lines : Value → Line) (w : Watch) : Prop where
  process : ∀ p ∈ w.waiting, m.heap.typeOf p = .ok (m.known .process)
  blocked_waiting : ∀ p ∈ w.blocked, p ∈ w.waiting
  queued : ∀ p ∈ w.blocked, ∀ o, Queued lines p o → w.semaphore = some o
  leaving : ∀ p ∈ w.blocked, m.activeProcess = .ok p → m.schedule.switchPending = true
  away_blocked : ∀ p ∈ w.away, p ∈ w.blocked
  away : ∀ p ∈ w.away, m.activeProcess ≠ .ok p

/-- The watch agrees with the machine. -/
structure Accounted (m : Machine) (lines : Value → Line) (w : Watch) : Prop
    extends Tended m lines w where
  stocked : ∀ semaphore, w.semaphore = some semaphore → Stocked m lines w semaphore

/-- The processes are in order and the watch agrees with the machine. -/
def Balanced (w : Watch) (m : Machine) : Prop := ∃ lines, Ordered none ∅ m lines ∧ Accounted m lines w

theorem Balanced.orderly (hm : Balanced w m) : Orderly none ∅ m := hm.imp fun _ => And.left

/-- Fewer may be blocked, and of them any others may have left the processor. -/
theorem Tended.narrow (ht : Tended m lines w) {blocked away : Set Value}
    (hblocked : ∀ p ∈ blocked, p ∈ w.blocked)
    (haway : ∀ p ∈ away, p ∈ blocked ∧ m.activeProcess ≠ .ok p) :
    Tended m lines { w with blocked, away } where
  process := ht.process
  blocked_waiting p hp := ht.blocked_waiting p (hblocked p hp)
  queued p hp := ht.queued p (hblocked p hp)
  leaving p hp := ht.leaving p (hblocked p hp)
  away_blocked p hp := (haway p hp).1
  away p hp := (haway p hp).2

/-- The heap has changed, but not who is active. -/
theorem Tended.reshaped (ht : Tended m lines w) {h : Heap} (hr : Reshaped m.known m.heap h) :
    Tended (m.withHeap h) lines w := by
  have hactive : ∀ {p}, (m.withHeap h).activeProcess = .ok p → m.activeProcess = .ok p :=
    fun hp => activeProcess_eq_ok.mpr ((hr.active _).mp (activeProcess_eq_ok.mp hp))
  exact ⟨fun p hp => hr.types _ _ (ht.process p hp), ht.blocked_waiting, ht.queued,
    fun p hp h => ht.leaving p hp (hactive h), ht.away_blocked, fun p hp h => ht.away p hp (hactive h)⟩

theorem Accounted.narrow (ha : Accounted m lines w) {blocked away : Set Value}
    (hblocked : ∀ p ∈ blocked, p ∈ w.blocked)
    (haway : ∀ p ∈ away, p ∈ blocked ∧ m.activeProcess ≠ .ok p) :
    Accounted m lines { w with blocked, away } := by
  refine ⟨ha.toTended.narrow hblocked haway, fun s hs => ?_⟩
  obtain ⟨htype, hfirst, hcount, hwaiting⟩ := ha.stocked s hs
  exact ⟨htype, hfirst, hcount, hwaiting⟩

namespace Accounted

variable (ha : Accounted m lines w)
include ha

/-- What is carried over if nobody who is blocked has joined a queue or become active. -/
theorem follows (hf : Follows none ∅ added m lines m')
    (hnew : ∀ p o, added p o → p ∉ w.blocked ∧ w.semaphore ≠ some o)
    (hstill : ∀ p ∈ w.blocked, m'.activeProcess = .ok p → m.activeProcess = .ok p ∧
      (m.schedule.switchPending = true → m'.schedule.switchPending = true)) : Balanced w m' := by
  obtain ⟨lines', ho', hjoined⟩ := hf.ordered
  have htypes : ∀ {v t}, m.heap.typeOf v = .ok (m.known t) → m'.heap.typeOf v = .ok (m'.known t) := by
    intro v t ht
    rw [hf.known_eq]
    exact hf.types v _ ht
  refine ⟨lines', ho', ⟨?process, ha.blocked_waiting, ?queued, ?leaving, ha.away_blocked, ?away⟩, ?stocked⟩
  case stocked =>
    intro s hs
    obtain ⟨htype, ⟨size, hsize, hfirst⟩, ⟨n, hexcess, hempty, hcount⟩, hwaiting⟩ := ha.stocked s hs
    have hqueued : ∀ p, Queued lines' p s → Queued lines p s :=
      fun p hq => (hjoined s p hq).resolve_right fun h => (hnew p s h).2 hs
    refine ⟨htypes htype, ⟨size, hf.sizes s size hsize, hfirst⟩, ⟨n, ?_, ?_, hcount⟩, ?_⟩
    · exact (excessSignals_of_same hf.excess hf.known_eq htype).mpr hexcess
    · exact fun hpos p hq => hempty hpos p (hqueued p hq)
    · exact fun p hq => hwaiting p (hqueued p hq)
  case process => exact fun p hp => htypes (ha.process p hp)
  case queued =>
    intro p hp o hq
    exact ha.queued p hp o ((hjoined o p hq).resolve_right fun h => (hnew p o h).1 hp)
  case leaving =>
    intro p hp hactive
    obtain ⟨hbefore, hpending⟩ := hstill p hp hactive
    exact hpending (ha.leaving p hp hbefore)
  case away =>
    exact fun p hp hactive => ha.away p hp (hstill p (ha.away_blocked p hp) hactive).1

theorem proceeds (hp : Proceeds none ∅ added m lines m')
    (hnew : ∀ p o, added p o → p ∉ w.blocked ∧ w.semaphore ≠ some o) : Balanced w m' := by
  refine ha.follows hp.follows hnew fun p _ hactive => ⟨?_, hp.pending⟩
  rw [activeProcess_eq_ok, hp.known_eq] at hactive
  exact activeProcess_eq_ok.mpr ((hp.active p).mp hactive)

theorem lingers (hl : Lingers none ∅ (fun _ _ => False) m lines m') : Balanced w m' :=
  ha.proceeds hl.1 fun _ _ => False.elim

/-- The active process is not blocked, unless it is about to leave the processor. -/
theorem not_blocked {p : Value} (hidle : m.schedule.switchPending = false)
    (hactive : m.activeProcess = .ok p) : p ∉ w.blocked := by
  intro hp
  have hpending := ha.leaving p hp hactive
  rw [hidle] at hpending
  cases hpending

/-- The processor is not the semaphore, so who is ready is not blocked. -/
theorem ne_processor (hf : Furnished m.known m.heap) : w.semaphore ≠ some (m.known .processor) :=
  fun hs => hf.processor_plain (.inl (ha.stocked _ hs).type)

/-- Those who are made ready are not blocked. -/
theorem of_readied (hf : Furnished m.known m.heap) {newcomer : Value → Prop}
    (hnew : ∀ p, newcomer p → p ∉ w.blocked) (p o : Value) (hp : Readied newcomer m p o) :
    p ∉ w.blocked ∧ w.semaphore ≠ some o := by
  obtain ⟨rfl, hcase⟩ := hp
  refine ⟨hcase.elim (hnew p) ?_, ha.ne_processor hf⟩
  exact fun ⟨hidle, hactive⟩ => ha.not_blocked hidle (activeProcess_eq_ok.mpr hactive)

end Accounted

theorem Balanced.undisturbed (hm : Balanced w m) (hu : Undisturbed m m') : Balanced w m' := by
  obtain ⟨lines, ho, ha⟩ := hm
  refine ha.follows (ho.follows_self.undisturbed hu) (fun _ _ => False.elim) fun p _ hactive => ⟨?_, ?_⟩
  · rw [activeProcess_eq_ok, hu.known_eq] at hactive
    exact activeProcess_eq_ok.mpr ((active_of_calm ho.sound.furnished hu.calm p).mp hactive)
  · rw [hu.pending_eq]
    exact id

theorem steady_balanced (w : Watch) : Steady (Balanced w) :=
  ⟨fun _ ⟨_, ho, _⟩ => ho.sound, fun _ _ hm hu => hm.undisturbed hu⟩

/-- Noting who has left the processor. -/
theorem Balanced.noted (hm : Balanced w m) : Balanced (w.noted m) m := by
  obtain ⟨lines, ho, ha⟩ := hm
  exact ⟨lines, ho, ha.narrow (fun _ => id) fun p hp => ⟨hp.1, hp.2.elim (ha.away p) id⟩⟩

/-! ## The number of signals -/

/-- A change that leaves the queues and the numbers of signals alone. -/
theorem Accounted.relinked (ha : Accounted m lines w) {h : Heap} (hr : Relinked m.known m.heap h) :
    Accounted (m.withHeap h) lines w := by
  refine ⟨ha.toTended.reshaped hr.toReshaped, fun s hs => ?_⟩
  obtain ⟨htype, ⟨size, hsize, hfirst⟩, ⟨n, hexcess, hrest⟩, hwaiting⟩ := ha.stocked s hs
  refine ⟨hr.types _ _ htype, ⟨size, hr.sizes _ _ hsize, hfirst⟩, ⟨n, ?_, hrest⟩, hwaiting⟩
  have hsame : SameExcess m.known m.heap (m.withHeap h).heap := hr.excess
  exact (excessSignals_of_same hsame rfl htype).mpr hexcess

/-- A store of the number of signals. -/
theorem Accounted.restocked (ha : Accounted m lines w) (signals passed : Nat)
    (ho : Ordered none ∅ m lines) (htype : m.heap.typeOf semaphore = .ok (m.known .semaphore))
    {n : Int} {h : Heap}
    (hstored : Heap.Stored m.heap semaphore Slot.excessSignals (.int n) h)
    (hself : w.semaphore = some semaphore → ∃ k : Nat, n = k ∧
      (0 < k → ∀ p, ¬Queued lines p semaphore) ∧ signals = k + passed)
    (hother : w.semaphore ≠ some semaphore → signals = w.signals ∧ passed = w.passed) :
    Balanced { w with signals, passed } (m.withHeap h) := by
  obtain ⟨ho', hr⟩ := ho.storeExcess htype hstored
  have ht := ha.toTended.reshaped hr
  refine ⟨lines, ho', ⟨ht.process, ht.blocked_waiting, ht.queued, ht.leaving, ht.away_blocked, ht.away⟩,
    fun s hs => ?_⟩
  obtain ⟨htype', ⟨size, hsize, hfirst⟩, ⟨k, hexcess, hempty, hcount⟩, hwaiting⟩ := ha.stocked s hs
  refine ⟨hr.types _ _ htype', ⟨size, hr.sizes _ _ hsize, hfirst⟩, ?_, hwaiting⟩
  by_cases heq : s = semaphore
  · subst heq
    obtain ⟨k', rfl, hempty', hcount'⟩ := hself hs
    exact ⟨k', excessSignals_of_stored ho.sound.furnished hstored, hempty', hcount'⟩
  · obtain ⟨rfl, rfl⟩ := hother fun hs' => heq (Option.some.inj (hs.symm.trans hs'))
    refine ⟨k, ?_, hempty, hcount⟩
    obtain ⟨x, hx, hcase⟩ := excessSignals_eq_ok.mp hexcess
    exact excessSignals_eq_ok.mpr ⟨x, (hstored.other _ _ _ (.inl heq)).mpr hx, hcase⟩

/-! ## Signals -/

/-- A number of signals is stored as it is while it is small. -/
theorem wrapping_succ {n : Nat} (hn : n + 1 < 2 ^ 62) : Value.wrapping (↑n + 1) = .int (↑n + 1) := by
  have hmin : Value.minInt = -2 ^ 62 := by decide
  have hmax : Value.maxInt = 2 ^ 62 - 1 := by decide
  exact Value.wrapping_eq (by omega) (by omega)

/-- A signal on another semaphore changes nothing. -/
theorem Watch.signalled_of_ne (hne : w.semaphore ≠ some semaphore) :
    w.signalled semaphore m = w := if_neg hne

/-- A signal that takes a process that has waited lets it through. -/
theorem Watch.signalled_of_popFront (hs : w.semaphore = some semaphore) {p : Value}
    (hp : p ∈ w.waiting) (hpop : (Queue.waiting semaphore).popFront m = .ok (some p) m₁) :
    w.signalled semaphore m = { w with
      signals := w.signals + 1, passed := w.passed + 1, waiting := w.waiting \ {p},
      blocked := w.blocked \ {p}, away := w.away \ {p} } := by
  simp only [Watch.signalled, if_pos hs, hpop, Watch.woken, if_pos hp]

/-- A signal that takes a process from the queue of the semaphore takes one that has waited. -/
theorem Accounted.popped (ha : Accounted m lines w) {p : Value}
    (hpop : (Queue.waiting semaphore).popFront m = .ok (some p) m₁)
    (hqueued : Queued lines p semaphore) {lines₁ : Value → Line}
    (hsub : ∀ o q, Queued lines₁ q o → Queued lines q o ∧ q ≠ p) :
    Accounted m lines₁ (w.signalled semaphore m) ∧ p ∉ (w.signalled semaphore m).blocked := by
  by_cases hs : w.semaphore = some semaphore
  · obtain ⟨htype, hfirst, ⟨n, hexcess, hempty, hcount⟩, hwaiting⟩ := ha.stocked semaphore hs
    have hp : p ∈ w.waiting := hwaiting p hqueued
    -- somebody waits, so no signal is left over
    obtain rfl : n = 0 := Nat.eq_zero_of_not_pos fun hpos => hempty hpos p hqueued
    rw [Watch.signalled_of_popFront hs hp hpop]
    refine ⟨⟨⟨fun q hq => ha.process q hq.1, fun q hq => ⟨ha.blocked_waiting q hq.1, hq.2⟩,
      fun q hq o hq' => ha.queued q hq.1 o (hsub o q hq').1, fun q hq => ha.leaving q hq.1,
      fun q hq => ⟨ha.away_blocked q hq.1, hq.2⟩, fun q hq => ha.away q hq.1⟩, ?_⟩, fun hp => hp.2 rfl⟩
    intro s hs'
    cases hs.symm.trans hs'
    refine ⟨htype, hfirst, ⟨0, hexcess, fun hpos => absurd hpos (Nat.lt_irrefl 0), ?_⟩, ?_⟩
    · change w.signals + 1 = 0 + (w.passed + 1)
      omega
    · exact fun q hq => ⟨hwaiting q (hsub semaphore q hq).1, (hsub semaphore q hq).2⟩
  · rw [Watch.signalled_of_ne hs]
    refine ⟨⟨⟨ha.process, ha.blocked_waiting, fun q hq o hq' => ha.queued q hq o (hsub o q hq').1,
      ha.leaving, ha.away_blocked, ha.away⟩, fun s hs' => ?_⟩, fun hp => hs (ha.queued p hp semaphore hqueued)⟩
    obtain ⟨htype, hfirst, ⟨n, hexcess, hempty, hcount⟩, hwaiting⟩ := ha.stocked s hs'
    exact ⟨htype, hfirst, ⟨n, hexcess, fun hpos q hq => hempty hpos q (hsub s q hq).1, hcount⟩,
      fun q hq => hwaiting q (hsub s q hq).1⟩

/-- A signal that finds nobody is counted, if there is room for it in the number. -/
theorem Accounted.counted (ha : Accounted m lines w) (ho : Ordered none ∅ m lines)
    (htype : m.heap.typeOf semaphore = .ok (m.known .semaphore))
    (hpop : (Queue.waiting semaphore).popFront m = .ok none m) (hempty : lines semaphore = [])
    (hfew : (w.signalled semaphore m).signals < 2 ^ 62) :
    Balanced (w.signalled semaphore m) (stateAfter (signal semaphore m)) := by
  have houtcome := ensures_count ho.sound.furnished.settled semaphore m rfl
  rw [← signal_eq_of_none hpop] at houtcome
  cases hrun : signal semaphore m with
  | error fault m' =>
      rw [hrun] at houtcome
      obtain rfl := houtcome
      have hsame : w.signalled semaphore m = w := by
        simp [Watch.signalled, hpop, hrun, succeeds]
      rw [hsame]
      exact ⟨lines, ho, ha⟩
  | ok u m' =>
      rw [hrun] at houtcome
      obtain ⟨excess, h, hexcess, hstored, rfl⟩ := houtcome
      have hnobody : ∀ p, ¬Queued lines p semaphore := by
        rintro p ⟨link, hmem⟩
        rw [hempty] at hmem
        cases hmem
      by_cases hs : w.semaphore = some semaphore
      · have hcounted : w.signalled semaphore m =
            { w with signals := w.signals + 1, passed := w.passed } := by
          simp [Watch.signalled, hs, hpop, hrun, succeeds]
        rw [hcounted] at hfew ⊢
        obtain ⟨n, hn, -, hcount⟩ := (ha.stocked semaphore hs).count
        cases hexcess.symm.trans hn
        -- the number that is left over is at most that of all signals, so it is stored as it is
        rw [wrapping_succ (show n + 1 < 2 ^ 62 by dsimp only at hfew; omega)] at hstored
        refine ha.restocked _ _ ho htype hstored (fun _ => ⟨n + 1, rfl, fun _ => hnobody, ?_⟩)
          fun hne => absurd hs hne
        omega
      · rw [Watch.signalled_of_ne hs]
        exact ha.restocked _ _ ho htype hstored (fun hs' => absurd hs' hs) fun _ => ⟨rfl, rfl⟩

theorem Balanced.signalled (hm : Balanced w m) (hx : Signalable m semaphore)
    (hfew : (w.signalled semaphore m).signals < 2 ^ 62) :
    Balanced (w.signalled semaphore m) (stateAfter (signal semaphore m)) := by
  obtain ⟨lines, ho, ha⟩ := hm
  have hf := ho.sound.furnished
  have herror : ∀ fault m₁, (Queue.waiting semaphore).popFront m = .error fault m₁ →
      Balanced w m₁ → Balanced (w.signalled semaphore m) (stateAfter (signal semaphore m)) := by
    intro fault m₁ hpop hm₁
    have hrun : signal semaphore m = .error fault m₁ := bind_eq_of_error hpop
    have hsame : w.signalled semaphore m = w := by simp [Watch.signalled, hpop]
    rw [hrun, hsame]
    exact hm₁
  rcases hx with rfl | htype
  · have houtcome := ensures_popFront_nil hf m rfl
    cases hpop : (Queue.waiting (m.known .nil)).popFront m with
    | ok r m₁ =>
        rw [hpop] at houtcome
        exact houtcome.elim
    | error fault m₁ =>
        rw [hpop] at houtcome
        obtain rfl := houtcome
        exact herror _ _ hpop ⟨lines, ho, ha⟩
  have houtcome := Queue.ensures_popFront hf ho.arranged (waiting_belongs htype) m rfl
  cases hpop : (Queue.waiting semaphore).popFront m with
  | error fault m₁ =>
      rw [hpop] at houtcome
      exact herror _ _ hpop (ha.lingers (ho.lingers_of_drops houtcome))
  | ok r m₁ =>
      rw [hpop] at houtcome
      cases r with
      | none =>
          obtain ⟨rfl, hempty⟩ := houtcome
          exact ha.counted ho htype hpop hempty hfew
      | some p =>
          obtain ⟨hqueued, hdrops⟩ := houtcome
          obtain ⟨lines₁, h, rfl, hr, ho₁, hsub, hprocess, hover, hactive⟩ :=
            ho.apart_of_popped hqueued hdrops
          obtain ⟨ha₁, hnot⟩ := ha.popped hpop hqueued hsub
          have ha₁ := ha₁.relinked hr
          -- whom the signal has let through may join the ready queue, and the active process if it is not leaving
          have hnew := ha₁.of_readied ho₁.sound.furnished fun q (hq : q = p) => hq ▸ hnot
          rw [signal_eq_of_some hpop]
          exact ((ensures_summon ho₁ hprocess (fun o hq => (hsub o p hq).2 rfl) hover hactive).weaken
            (fun _ => id) (fun _ _ hm => ha₁.proceeds hm hnew)
            (fun _ _ hm => ha₁.proceeds hm.1 hnew)).after rfl

end MessageMachine.Machine
