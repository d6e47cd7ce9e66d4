import MessageMachine.Proofs.Machine.Runs
import MessageMachine.Proofs.Machine.Storing
import MessageMachine.Proofs.Schedule.Collection
import MessageMachine.Proofs.Schedule.Creation
import MessageMachine.Proofs.Schedule.Instructions
import MessageMachine.Proofs.Schedule.Reading

/-!
# Histories

`Reached m ended` says that a machine is in a state of some history: it was created, changed from
outside in ways that leave the queues alone, started on methods, and then did housekeeping,
collections and instructions in any order that a run allows.  `ended` are the processes that
instructions of this history have ended.

`Reached.orderly` is the run lemma of this development: each kind of event keeps the processes in
order.  `Reached.run` and `Reached.runMethod` show that whole runs stay within histories, also when
they end with a fault, provided that the run `Behaves`: its collections do not fail, and its
instructions do the same with their stores restrained.

An instruction keeps the order only while no switch is pending, and it is the housekeeping before it
that sees to that; so between the parts of a turn the machine is `Idle`.
-/

namespace MessageMachine.Machine

variable {m m' m₁ : Machine} {ended : Set Value} {φ : Handle → Handle}

/-! ## Collections -/

/-- What follows the collection itself is quiet. -/
theorem keeps_collectGarbage {P : Machine → Prop} (hP : Steady P) {cycle : Heap.Cycle}
    (hflush : flush m = .ok () m₁) (hcollect : (m₁.heap.collect m₁.roots).result = .ok cycle)
    (hm : P m₁.collected) : P (stateAfter (collectGarbage m)) := by
  rw [collectGarbage_eq hflush hcollect]
  refine Keeps.bind (keeps_modify hP fun m hs => ?_) (fun _ => ?_) _ hm
  · exact hs.undisturbed_of_eq rfl rfl rfl rfl rfl rfl rfl
  · refine Keeps.bind keeps_get fun m₀ => Keeps.bind (keeps_landmark _) fun nil => ?_
    split
    · exact Keeps.pure _
    · exact Keeps.bind (keeps_reload hP _) fun _ => Keeps.pure _

/-! ## Instructions -/

/-- The processes that the next instruction ends: active before it and not after. -/
def finishedNext (m : Machine) : Set Value :=
  {p | m.activeProcess = .ok p ∧ (stateAfter (step m)).activeProcess ≠ .ok p ∧
    p ≠ (stateAfter (step m)).known .nil}

theorem orderly_step (hm : OrderlyWhile false none ended m)
    (hbehaves : step m = stepWith restrain m) :
    Orderly none (ended ∪ m.finishedNext) (stateAfter (step m)) := by
  obtain ⟨⟨lines, ho⟩, hpending⟩ := hm
  obtain ⟨p, hactive, hcase⟩ := ho.active
  have hrunner : Ordered (some p) ended m lines := by
    refine ⟨ho.sound, ho.arranged, ho.active, ho.entry_type, ho.entry_waits, ho.entryWait_type, ?_⟩
    rintro q (hq | ⟨hq, -, hnot⟩)
    · exact ho.gone q (over_none.mpr hq)
    · cases hq
      exact absurd hactive hnot
  have hafter : Orderly (some p) ended (stateAfter (step m)) := by
    rw [hbehaves]
    exact (schedules_orderly (some p) ended).ends_stepWith.after ⟨⟨lines, hrunner⟩, hpending⟩
  obtain ⟨lines', ho'⟩ := hafter
  refine ⟨lines', ho'.sound, ho'.arranged, ho'.active, ho'.entry_type, ho'.entry_waits,
    ho'.entryWait_type, ?_⟩
  intro q hover
  refine ho'.gone q ?_
  rcases over_none.mp hover with hq | ⟨hq, hnot, hnil⟩
  · exact .inl hq
  · cases hactive.symm.trans (activeProcess_eq_ok.mp hq)
    exact .inr ⟨rfl, hnil, fun hstill => hnot (activeProcess_eq_ok.mpr hstill)⟩

/-! ## Histories -/

/-- The machine is in a state of some history, in which the processes of `ended` have ended. -/
inductive Reached : Machine → Set Value → Prop where
  | created {settings : Settings} {m : Machine} : create settings = .ok m → Reached m ∅
  /-- Anything outside of runs that leaves the queues alone. -/
  | changed {m m' : Machine} {ended : Set Value} : Reached m ended → Undisturbed m m' →
      Reached m' ended
  | started {m : Machine} {ended : Set Value} (method receiver : Value) (arguments : List Value) :
      Reached m ended → Reached (stateAfter (startMethod method receiver arguments m)) ended
  | housekept {m : Machine} {ended : Set Value} (fuel : Nat) : Reached m ended →
      Reached (stateAfter (housekeeping fuel m)) ended
  | collected {m m₁ : Machine} {ended : Set Value} {cycle : Heap.Cycle} {φ : Handle → Handle} :
      Reached m ended → flush m = .ok () m₁ → (m₁.heap.collect m₁.roots).result = .ok cycle →
      Relocated φ m₁ m₁.collected →
      Reached (stateAfter (collectGarbage m)) (Relocated.survivors φ m₁ ended)
  | stepped {m : Machine} {ended : Set Value} : Reached m ended →
      m.schedule.switchPending = false → step m = stepWith restrain m →
      Reached (stateAfter (step m)) (ended ∪ m.finishedNext)

namespace Reached

theorem orderly (hm : Reached m ended) : Orderly none ended m := by
  induction hm with
  | created hcreate => exact orderly_create hcreate
  | changed _ hu ih => exact ih.undisturbed hu
  | started method receiver arguments _ ih =>
      obtain ⟨lines, ho⟩ := ih
      exact Ensures.after ((ensures_startMethod ho method receiver arguments).weaken (fun _ => id)
        (fun _ _ hm => hm.1.orderly) fun _ _ hm => hm.1.orderly) rfl
  | housekept fuel _ ih =>
      exact ((ensures_housekeeping fuel).weaken (fun _ => id) (fun _ _ hm => hm.1)
        fun _ _ => id).keeps _ ih
  | collected _ hflush hcollect hr ih =>
      have hsaved := keeps_flush (steady_orderly none _) _ ih
      rw [hflush] at hsaved
      obtain ⟨lines, ho⟩ := hsaved
      exact keeps_collectGarbage (steady_orderly none _) hflush hcollect ⟨_, hr.ordered ho⟩
  | stepped _ hpending hbehaves ih => exact orderly_step ⟨ih, hpending⟩ hbehaves

theorem steady (ended : Set Value) : Steady fun m => Reached m ended :=
  ⟨fun _ hm => (steady_orderly none ended).sound _ hm.orderly, fun _ _ => changed⟩

end Reached

/-! ## Runs -/

/-- A machine of some history in which no switch is pending. -/
def Idle (ended : Set Value) (m : Machine) : Prop :=
  Reached m ended ∧ m.schedule.switchPending = false

theorem steady_idle (ended : Set Value) : Steady (Idle ended) :=
  ⟨fun m hm => (Reached.steady ended).sound m hm.1,
    fun _ _ hm hu => ⟨hm.1.changed hu, hu.pending_eq.trans hm.2⟩⟩

theorem ensures_housekept (fuel : Nat) :
    Ensures (Reached · ended) (housekeeping fuel) (fun _ => Idle ended) fun _ => (Reached · ended) := by
  intro m hm
  have hreached := hm.housekept fuel
  have houtcome := ensures_housekeeping fuel m hm.orderly
  cases hrun : housekeeping fuel m with
  | ok u m' =>
      rw [hrun] at hreached houtcome
      exact ⟨hreached, houtcome.2⟩
  | error fault m' =>
      rw [hrun] at hreached
      exact hreached

/-- What is due before an instruction leads from `P` to `I` if housekeeping does. -/
theorem ensures_tidy_of {P I : Machine → Prop} (hP : Steady P)
    (hidle : ∀ m, P m → m.schedule.switchPending = false → I m)
    (hhousekeeping : ∀ fuel, Ensures P (housekeeping fuel) (fun _ => I) fun _ => P) (fuel : Nat) :
    Ensures P (tidy fuel) (fun _ => I) fun _ => P := by
  have hticks : ∀ n : Nat → Nat,
      Keeps P (modify fun m => { m with ticks := n m.ticks } : MachineM Unit) :=
    fun n => keeps_modify hP fun m hs => hs.undisturbed_of_eq rfl rfl rfl rfl rfl rfl rfl
  refine Ensures.bind (hticks (· + 1)).ensures fun _ => ?_
  refine Ensures.bind (ensures_get _ _) fun m₀ => Ensures.ite (fun _ => ?_) fun hnot => ?_
  · refine Ensures.bind ((hticks fun _ => 0).ensures.weaken (fun _ hm => hm.1) (fun _ _ => id)
      fun _ _ => id) fun _ => hhousekeeping fuel
  · refine Ensures.pure ?_
    rintro _ ⟨hm, rfl⟩
    simp only [Bool.or_eq_true, not_or, Bool.not_eq_true] at hnot
    exact hidle _ hm hnot.1

/-- A collection stays in `I` if moving the objects does. -/
theorem ensures_collectGarbage_of {P I : Machine → Prop} (hI : Steady I) (hP : ∀ m, I m → P m)
    (hmoved : ∀ m m₁ φ (cycle : Heap.Cycle), I m → flush m = .ok () m₁ →
      (m₁.heap.collect m₁.roots).result = .ok cycle → Relocated φ m₁ m₁.collected →
      I (stateAfter (collectGarbage m))) :
    Ensures (fun m => I m ∧ Collectable m) collectGarbage (fun _ => I) fun _ => P := by
  suffices h : ∀ m, I m → Collectable m → I (stateAfter (collectGarbage m)) from
    (Ensures.of_after fun m hm => h m hm.1 hm.2).weaken (fun _ => id) (fun _ _ => id) fun _ => hP
  intro m hm hcollect
  have hsaved := keeps_flush hI m hm
  cases hflush : flush m with
  | error fault m₁ =>
      rw [hflush] at hsaved
      rw [collectGarbage_eq_error hflush]
      exact hsaved
  | ok u m₁ =>
      rw [hflush] at hsaved
      obtain ⟨cycle, hcycle⟩ := hcollect m₁ hflush
      obtain ⟨φ, hr⟩ := relocated_collected (hI.sound m₁ hsaved).furnished.settled hcycle
      exact hmoved m m₁ φ cycle hm hflush hcycle hr

/-- The collections of the run do not fail, and its instructions store into no shielded object. -/
def Behaves : (budget : Nat) → Machine → Prop
  | 0, _ => True
  | budget + 1, m =>
    (∀ m₁ m₂, tidy budget m = .ok () m₁ → m₁.heap.needsCollection = true → flush m₁ = .ok () m₂ →
      ∃ cycle, (m₂.heap.collect m₂.roots).result = .ok cycle) ∧
    (∀ m₁ m₂, tidy budget m = .ok () m₁ → makeRoom m₁ = .ok () m₂ →
      step m₂ = stepWith restrain m₂) ∧
    ∀ m', turn budget m = .ok none m' → Behaves budget m'

theorem Behaves.runsAs {budget : Nat} (hbehaves : Behaves budget m) : RunsAs restrain budget m := by
  induction budget generalizing m with
  | zero => trivial
  | succ budget ih =>
      exact ⟨fun m₁ hrun hdue m₂ => hbehaves.1 m₁ m₂ hrun hdue, hbehaves.2.1,
        fun m' hrun => ih (hbehaves.2.2 m' hrun)⟩

namespace Reached

theorem steady_any {P : Machine → Set Value → Prop} (hP : ∀ ended : Set Value, Steady fun m => P m ended) :
    Steady fun m => ∃ ended, P m ended :=
  ⟨fun m ⟨ended, hm⟩ => (hP ended).sound m hm,
    fun m m' ⟨ended, hm⟩ hu => ⟨ended, (hP ended).undisturbed m m' hm hu⟩⟩

/-- Histories last as long as a run that behaves. -/
theorem lasting : Lasting restrain (fun m => ∃ ended, Reached m ended) (fun m => ∃ ended, Idle ended m)
    fun _ m => ∃ ended, Reached m ended where
  tidy := ensures_tidy_of (steady_any steady)
    (fun _ ⟨ended, hm⟩ hpending => ⟨ended, hm, hpending⟩)
    fun fuel m ⟨ended, hm⟩ => (ensures_housekept fuel).weaken (fun _ => id)
      (fun _ _ h => ⟨ended, h⟩) (fun _ _ h => ⟨ended, h⟩) m hm
  collect := by
    refine ensures_collectGarbage_of (steady_any fun ended => steady_idle ended)
      (fun _ ⟨ended, hm⟩ => ⟨ended, hm.1⟩) ?_
    rintro m m₁ φ cycle ⟨ended, hm⟩ hflush hcycle hr
    have hsaved := keeps_flush (steady_idle ended) m hm
    rw [hflush] at hsaved
    refine ⟨_, hm.1.collected hflush hcycle hr, ?_⟩
    obtain ⟨lines, ho⟩ := hsaved.1.orderly
    exact (keeps_collectGarbage (steady_orderlyWhile false none _) hflush hcycle
      ⟨⟨_, hr.ordered ho⟩, (congrArg _ hr.schedule).trans hsaved.2⟩).2
  step := by
    refine .of_after ?_
    rintro m ⟨⟨ended, hm⟩, hstore⟩
    exact ⟨_, hm.1.stepped hm.2 hstore⟩
  count := by
    rintro m ⟨ended, hm⟩
    exact ⟨ended, hm.changed
      (((steady _).sound _ hm).undisturbed_of_eq rfl rfl rfl rfl rfl rfl rfl)⟩
  outOfBudget _ := id

/-- Wherever a run ends, with a result or with a fault, its history goes on from there. -/
theorem run (hm : Reached m ended) {budget : Nat} (hbehaves : Behaves budget m) :
    ∃ ended', Reached (stateAfter (run budget m)) ended' :=
  lasting.run.after ⟨⟨ended, hm⟩, hbehaves.runsAs⟩

theorem runMethod (hm : Reached m ended) {budget : Nat} (method receiver : Value)
    (arguments : List Value)
    (hbehaves : ∀ m', startMethod method receiver arguments m = .ok () m' → Behaves budget m') :
    ∃ ended', Reached (stateAfter (runMethod budget method receiver arguments m)) ended' := by
  have hstart : Keeps (fun m => ∃ ended, Reached m ended) (startMethod method receiver arguments) :=
    fun m ⟨ended, hm⟩ => ⟨ended, hm.started method receiver arguments⟩
  exact (lasting.runMethod hstart.ensures).after
    ⟨⟨ended, hm⟩, fun m' hrun => (hbehaves m' hrun).runsAs⟩

end Reached

/-! ## Plain runs -/

/-- An instruction that stores nothing, with the processes that it ends. -/
def plainStep : MachineM (List Value) := do
  let before ← get
  stepWith refuse
  let after ← get
  return before.activeProcess.toOption.toList.filter fun p =>
    after.activeProcess.toOption ≠ some p ∧ p ≠ after.known .nil

theorem plainStep_eq_ok {ps : List Value} (hrun : plainStep m = .ok ps m') :
    step m = .ok () m' ∧ step m = stepWith restrain m ∧ m.finishedNext = {p | p ∈ ps} := by
  obtain ⟨_, _, hbefore, hrest⟩ := bind_eq_ok.mp hrun
  cases hbefore
  obtain ⟨_, _, hstep, hrest⟩ := bind_eq_ok.mp hrest
  cases hrest
  have hstep' : step m = .ok () m' := stepWith_of_refuse hstep id
  refine ⟨hstep', step_eq_of_refuse hstep restrain, Set.ext fun p => ?_⟩
  have hread : ∀ m : Machine, m.activeProcess = .ok p ↔ m.activeProcess.toOption = some p := by
    intro m
    cases m.activeProcess with
    | ok q => exact ⟨fun h => congrArg some (Except.ok.inj h), fun h => congrArg _ (Option.some.inj h)⟩
    | error fault => exact ⟨nofun, nofun⟩
  simp only [finishedNext, hstep', stateAfter_ok, Set.mem_ofPred_eq, List.mem_filter,
    Option.mem_toList, decide_eq_true_eq, ne_eq, hread]

/-- A turn in which nothing is collected and nothing stored. -/
def plainTurn (fuel : Nat) : MachineM (List Value × Option Value) := do
  tidy fuel
  if (← get).heap.needsCollection then throw .outOfBudget
  let ended ← plainStep
  return (ended, ← count)

theorem plainTurn_eq_ok {fuel : Nat} {ps : List Value} {r : Option Value}
    (hrun : plainTurn fuel m = .ok (ps, r) m') : ∃ m₁ m₂, tidy fuel m = .ok () m₁ ∧
      ¬m₁.heap.needsCollection ∧ plainStep m₁ = .ok ps m₂ ∧ count m₂ = .ok r m' := by
  obtain ⟨_, m₁, htidy, hrest⟩ := bind_eq_ok.mp hrun
  obtain ⟨_, _, hget, hrest⟩ := bind_eq_ok.mp hrest
  cases hget
  split at hrest
  · cases hrest
  · next hdue =>
    obtain ⟨_, m₂, hstep, hrest⟩ := bind_eq_ok.mp hrest
    obtain ⟨_, _, hcount, hend⟩ := bind_eq_ok.mp hrest
    cases hend
    exact ⟨m₁, m₂, htidy, hdue, hstep, hcount⟩

/-- A run of such turns, with the processes that they end and the result, if there is one. -/
def plainRun : (budget : Nat) → MachineM (List Value × Option Value)
  | 0 => return ([], none)
  | budget + 1 => do
    match ← plainTurn budget with
    | (ps, some v) => return (ps, some v)
    | (ps, none) =>
      let (qs, r) ← plainRun budget
      return (ps ++ qs, r)

theorem Reached.turn (hm : Reached m ended) {fuel : Nat} {ps : List Value} {r : Option Value}
    (hrun : plainTurn fuel m = .ok (ps, r) m') : Reached m' (ended ∪ {p | p ∈ ps}) := by
  obtain ⟨m₁, m₂, htidy, -, hstep, hcount⟩ := plainTurn_eq_ok hrun
  obtain ⟨hstep, hbehaves, hfinished⟩ := plainStep_eq_ok hstep
  have hidle : Idle ended m₁ := by
    have htidied := ensures_tidy_of (Reached.steady ended) (fun _ hm hpending => ⟨hm, hpending⟩)
      ensures_housekept fuel m hm
    rwa [htidy] at htidied
  have hstepped := hidle.1.stepped hidle.2 hbehaves
  rw [hstep, hfinished] at hstepped
  cases hcount
  exact hstepped.changed
    (((Reached.steady _).sound _ hstepped).undisturbed_of_eq rfl rfl rfl rfl rfl rfl rfl)

/-- A plain run is a run, it behaves, and the history goes on from where it ends. -/
theorem run_of_plainRun {budget : Nat} {ps : List Value} {r : Option Value}
    (hrun : plainRun budget m = .ok (ps, r) m') :
    (∀ v, r = some v → run budget m = .ok v m') ∧ (r = none → run budget m = .error .outOfBudget m') ∧
    Behaves budget m ∧ ∀ ended, Reached m ended → Reached m' (ended ∪ {p | p ∈ ps}) := by
  induction budget generalizing m ps with
  | zero =>
      cases hrun
      exact ⟨nofun, fun _ => rfl, trivial, fun ended hm => by simpa using hm⟩
  | succ budget ih =>
      obtain ⟨⟨ps₁, r₁⟩, m₁, hturn, hrest⟩ := bind_eq_ok.mp hrun
      obtain ⟨m₂, m₃, htidy, hdue, hstep, hcount⟩ := plainTurn_eq_ok hturn
      obtain ⟨hstepped, hbehaves, -⟩ := plainStep_eq_ok hstep
      have hturned : turn budget m = .ok r₁ m₁ := by
        rw [turn_eq]
        exact (bind_eq_of_ok htidy).trans ((bind_eq_of_ok (makeRoom_of_not_due hdue)).trans
          ((bind_eq_of_ok hstepped).trans hcount))
      have hfirst : (∀ t t', tidy budget m = .ok () t → t.heap.needsCollection = true →
          flush t = .ok () t' → ∃ cycle, (t'.heap.collect t'.roots).result = .ok cycle) ∧
          ∀ t t', tidy budget m = .ok () t → makeRoom t = .ok () t' →
            step t' = stepWith restrain t' := by
        refine ⟨fun t t' ht hneeds => ?_, fun t t' ht hroom => ?_⟩
        · cases htidy.symm.trans ht
          exact absurd hneeds hdue
        · cases htidy.symm.trans ht
          cases (makeRoom_of_not_due hdue).symm.trans hroom
          exact hbehaves
      cases r₁ with
      | some v =>
          cases hrest
          refine ⟨?_, nofun, ⟨hfirst.1, hfirst.2, fun t ht => ?_⟩, fun ended hm => hm.turn hturn⟩
          · rintro _ ⟨⟩
            rw [run, hturned]
          · cases hturned.symm.trans ht
      | none =>
          obtain ⟨⟨qs, r⟩, m₄, hlater, hend⟩ := bind_eq_ok.mp hrest
          cases hend
          obtain ⟨hresult, hgoes, hlast, hreached⟩ := ih hlater
          have hran : run (budget + 1) m = run budget m₁ := by rw [run, hturned]
          refine ⟨fun v hv => hran.trans (hresult v hv), fun hnone => hran.trans (hgoes hnone),
            ⟨hfirst.1, hfirst.2, fun t ht => ?_⟩, fun ended hm => ?_⟩
          · cases hturned.symm.trans ht
            exact hlast
          · have hreached := hreached _ (hm.turn hturn)
            rw [Set.union_assoc] at hreached
            have hends : {p | p ∈ ps₁ ++ qs} = {p | p ∈ ps₁} ∪ {p | p ∈ qs} :=
              Set.ext fun p => List.mem_append
            rwa [hends]

end MessageMachine.Machine
