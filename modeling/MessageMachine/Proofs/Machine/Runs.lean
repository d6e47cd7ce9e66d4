import MessageMachine.Proofs.Machine.Mirror
import MessageMachine.Proofs.Machine.Relocation

/-!
# Runs

A run is a loop of turns, and a turn is taken apart into `tidy`, `makeRoom`, `step` and `count`
(`turn_eq`): the housekeeping and the collection that are due, an instruction, and counting it.

`RunsAs store budget m` says that the run from `m` does the same if its instructions carry out their
stores with `store`, and that its collections do not fail.  `Lasting store P I E` lists what has to be
shown of the four parts of a turn so that such a run, from a machine with `P`, ends in one with `P` or
with a fault as `E` says (`Lasting.run`, `Lasting.runMethod`); between the housekeeping and the
instruction `I` holds.
-/

namespace MessageMachine.Machine

variable {m m' m₁ : Machine}

/-! ## Turns -/

/-- The housekeeping that is due before an instruction. -/
def tidy (fuel : Nat) : MachineM Unit := do
  modify fun m => { m with ticks := m.ticks + 1 }
  let m ← get
  let housekeepingDue := m.schedule.switchPending || m.ticks ≥ m.settings.housekeepingPeriod
  if housekeepingDue then
    modify fun m => { m with ticks := 0 }
    housekeeping fuel

/-- The collection that is due before an instruction. -/
def makeRoom : MachineM Unit := do
  let collectionDue := (← get).heap.needsCollection
  if collectionDue then
    let _ ← collectGarbage

/-- Counts an instruction, and takes the result of the run if that was the last one. -/
def count : MachineM (Option Value) :=
  modifyGet fun m =>
    (m.regs.result, { m with instructions := m.instructions + 1, regs.result := none })

theorem turn_eq (fuel : Nat) :
    turn fuel = (do tidy fuel; makeRoom; step; count) := by
  simp only [turn, tidy, makeRoom, count, bind_assoc, ite_bind, pure_bind]

/-! ## Collections -/

/-- A collection, which saves the pointers first, would not fail. -/
def Collectable (m : Machine) : Prop :=
  ∀ m₁, flush m = .ok () m₁ → ∃ cycle, (m₁.heap.collect m₁.roots).result = .ok cycle

/-- No context is active, so there are no pointers to save. -/
theorem flush_of_idle (hidle : m.regs.activeContext = m.known .nil) : flush m = .ok () m := by
  have hrun : flush m = (if m.regs.activeContext = m.known .nil then pure () else do
      storeField m.regs.activeContext Slot.ip (.ofNat m.regs.ip)
      storeField m.regs.activeContext Slot.sp (.ofNat m.regs.sp) : MachineM Unit) m := rfl
  rw [hrun, if_pos hidle]
  rfl

theorem collectGarbage_eq {cycle : Heap.Cycle} (hflush : flush m = .ok () m₁)
    (hcollect : (m₁.heap.collect m₁.roots).result = .ok cycle) :
    collectGarbage m = (do
      modify fun m => { m with cache := m.cache.flush }
      let context := (← get).regs.activeContext
      unless context = (← landmark .nil) do reload context
      return cycle : MachineM Heap.Cycle) m₁.collected := by
  unfold collectGarbage
  refine (bind_eq_of_ok hflush).trans ((bind_eq_of_ok rfl).trans ?_)
  rw [hcollect]
  rfl

theorem collectGarbage_eq_error {fault : Fault} (hflush : flush m = .error fault m₁) :
    collectGarbage m = .error fault m₁ := by
  unfold collectGarbage
  exact bind_eq_of_error hflush

/-- After the heap has been collected, the cache is flushed and the active context loaded again. -/
theorem collected_of_collectGarbage {cycle : Heap.Cycle} (hflush : flush m = .ok () m₁)
    (hrun : collectGarbage m = .ok cycle m') :
    (∃ cycle', (m₁.heap.collect m₁.roots).result = .ok cycle') ∧
      ∃ cache regs, m' = { m₁.collected with cache, regs } ∧
        regs.activeContext = m₁.collected.regs.activeContext := by
  cases hresult : (m₁.heap.collect m₁.roots).result with
  | error fault =>
      unfold collectGarbage at hrun
      rw [bind_eq_of_ok hflush] at hrun
      obtain ⟨result, m₂, hcollect, hrest⟩ := bind_eq_ok.mp hrun
      cases hcollect
      rw [hresult] at hrest
      cases hrest
  | ok cycle' =>
      rw [collectGarbage_eq hflush hresult] at hrun
      refine ⟨⟨cycle', rfl⟩, ?_⟩
      obtain ⟨_, m₂, hcache, hrest⟩ := bind_eq_ok.mp hrun
      cases hcache
      have hload : (if m₁.collected.regs.activeContext = m₁.collected.known .nil then pure cycle'
          else reload m₁.collected.regs.activeContext >>= fun _ => pure cycle' : MachineM Heap.Cycle)
          { m₁.collected with cache := m₁.collected.cache.flush } = .ok cycle m' := hrest
      obtain ⟨t, hskip, hend⟩ : ∃ t, (_ ∧ t = _ ∨ _ ∧ _ = _) ∧
          (pure cycle' : MachineM Heap.Cycle) t = .ok cycle m' := ite_skip_eq_ok hload
      cases hend
      rcases hskip with ⟨-, rfl⟩ | ⟨-, hreload⟩
      · exact ⟨_, _, rfl, rfl⟩
      · obtain ⟨r, t', hread, hset⟩ := bind_eq_ok.mp hreload
        obtain ⟨hregs, rfl⟩ := read_eq_ok.mp hread
        cases hset
        exact ⟨_, _, rfl, (loadContext_eq_ok.mp (liftFault_eq_ok.mp hregs)).2.1⟩

/-- A collection moves the objects along `φ`. -/
def Displaces (φ : Handle → Handle) (m : Machine) : Prop := ∃ m₁, flush m = .ok () m₁ ∧
  Heap.Relocation m₁.heap m₁.roots (m₁.heap.collect m₁.roots).heap
    (m₁.heap.collect m₁.roots).roots φ

/-- A heap that has just been created. -/
def emptyHeap : Heap where
  settings := {}
  root := .empty .root 0 65536 16
  ephemeral := .empty .ephemeral 1 65536 1024
  threshold := 8
  collections := 0

/-- A machine that knows nil and nothing else, and runs nothing. -/
def blank : Machine :=
  let nil : Value := .object ⟨.root, 0, 0, 0⟩
  { (default : Machine) with
    heap := (Heap.Operation.allocateFields .root (.int 0) 0 (.int 0)).perform emptyHeap
    known := .filled nil
    regs := .cleared nil nil }

theorem built_blank : blank.heap.Built :=
  .perform (.allocateFields .root (.int 0) 0 (.int 0))
    (.create (show Heap.create {} = .ok emptyHeap from rfl))

theorem makeRoom_of_due (hdue : m.heap.needsCollection = true) :
    makeRoom m = (collectGarbage >>= fun _ => pure ()) m := by
  have heq : makeRoom m = (if m.heap.needsCollection = true then
      collectGarbage >>= fun _ => pure () else pure () : MachineM Unit) m := rfl
  rw [heq, if_pos hdue]

theorem makeRoom_of_not_due (hdue : ¬m.heap.needsCollection = true) : makeRoom m = .ok () m := by
  have heq : makeRoom m = (if m.heap.needsCollection = true then
      collectGarbage >>= fun _ => pure () else pure () : MachineM Unit) m := rfl
  rw [heq, if_neg hdue]
  rfl

/-- A collection that is due may be made. -/
theorem ensures_makeRoom {I : Machine → Prop} {E : Fault → Machine → Prop}
    (hcollect : Ensures (fun m => I m ∧ Collectable m) collectGarbage (fun _ => I) E) :
    Ensures (fun m => I m ∧ (m.heap.needsCollection = true → Collectable m)) makeRoom
      (fun _ => I) E := by
  rintro m ⟨hm, hroom⟩
  by_cases hdue : m.heap.needsCollection = true
  · rw [makeRoom_of_due hdue]
    exact Ensures.bind hcollect (fun _ => Ensures.pure fun _ => id) m ⟨hm, hroom hdue⟩
  · rw [makeRoom_of_not_due hdue]
    exact hm

/-! ## Runs -/

variable {store : MachineM Unit → MachineM Unit}

/-- The collections of the run do not fail, and its instructions do the same with `store`. -/
def RunsAs (store : MachineM Unit → MachineM Unit) : (budget : Nat) → Machine → Prop
  | 0, _ => True
  | budget + 1, m =>
    (∀ m₁, tidy budget m = .ok () m₁ → m₁.heap.needsCollection = true → Collectable m₁) ∧
    (∀ m₁ m₂, tidy budget m = .ok () m₁ → makeRoom m₁ = .ok () m₂ →
      step m₂ = stepWith store m₂) ∧
    ∀ m', turn budget m = .ok none m' → RunsAs store budget m'

/-- What makes `P` last as long as a run: it leads to `I` before the instruction and back. -/
structure Lasting (store : MachineM Unit → MachineM Unit) (P I : Machine → Prop)
    (E : Fault → Machine → Prop) : Prop where
  tidy : ∀ fuel, Ensures P (tidy fuel) (fun _ => I) E
  collect : Ensures (fun m => I m ∧ Collectable m) collectGarbage (fun _ => I) E
  step : Ensures (fun m => I m ∧ step m = stepWith store m) step (fun _ => P) E
  count : Keeps P count
  outOfBudget : ∀ m, P m → E .outOfBudget m

namespace Lasting

variable {P I : Machine → Prop} {E : Fault → Machine → Prop} {budget : Nat}
  (hl : Lasting store P I E)
include hl

theorem turn : Ensures (fun m => P m ∧ RunsAs store (budget + 1) m) (turn budget) (fun _ => P) E := by
  rintro m ⟨hm, hcollect, hstore, -⟩
  rw [turn_eq, bind_run]
  have htidy := hl.tidy budget m hm
  cases hrun : Machine.tidy budget m with
  | error fault m₁ =>
      rw [hrun] at htidy
      exact htidy
  | ok u m₁ =>
      rw [hrun] at htidy
      have hroom := ensures_makeRoom hl.collect m₁ ⟨htidy, hcollect m₁ hrun⟩
      simp only [bind_run]
      cases hrun' : makeRoom m₁ with
      | error fault m₂ =>
          rw [hrun'] at hroom
          exact hroom
      | ok u m₂ =>
          rw [hrun'] at hroom
          have hstep := hl.step m₂ ⟨hroom, hstore m₁ m₂ hrun hrun'⟩
          dsimp only
          cases hrun'' : Machine.step m₂ with
          | error fault m₃ =>
              rw [hrun''] at hstep
              exact hstep
          | ok u m₃ =>
              rw [hrun''] at hstep
              exact hl.count m₃ hstep

/-- Wherever a run ends, with a result or with a fault, the property or the fault tells of it. -/
theorem run : Ensures (fun m => P m ∧ RunsAs store budget m) (run budget) (fun _ => P) E := by
  induction budget with
  | zero => exact fun m hm => hl.outOfBudget m hm.1
  | succ budget ih =>
      intro m hm
      have hturn := hl.turn m hm
      unfold Machine.run
      cases hrun : Machine.turn budget m with
      | error fault m' =>
          rw [hrun] at hturn
          exact hturn
      | ok answer m' =>
          rw [hrun] at hturn
          cases answer with
          | some v => exact hturn
          | none => exact ih m' ⟨hturn, hm.2.2.2 m' hrun⟩

theorem runMethod {method receiver : Value} {arguments : List Value}
    (hstart : Ensures P (startMethod method receiver arguments) (fun _ => P) E) :
    Ensures (fun m => P m ∧ ∀ m', startMethod method receiver arguments m = .ok () m' →
      RunsAs store budget m') (runMethod budget method receiver arguments) (fun _ => P) E := by
  rintro m ⟨hm, hruns⟩
  have houtcome := hstart m hm
  cases hrun : startMethod method receiver arguments m with
  | error fault m' =>
      have heq : Machine.runMethod budget method receiver arguments m = .error fault m' :=
        bind_eq_of_error hrun
      rw [hrun] at houtcome
      rw [heq]
      exact houtcome
  | ok u m' =>
      have heq : Machine.runMethod budget method receiver arguments m = Machine.run budget m' :=
        bind_eq_of_ok hrun
      rw [hrun] at houtcome
      rw [heq]
      exact hl.run m' ⟨houtcome, hruns m' hrun⟩

end Lasting

end MessageMachine.Machine
