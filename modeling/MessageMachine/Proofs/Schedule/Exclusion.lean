import MessageMachine.Proofs.Creation
import MessageMachine.Proofs.Schedule.History

/-!
# No process is scheduled twice

`ScheduledOnce` says what can be observed of the queues of a machine: no process is in them twice,
the active process is in one only while a switch is pending, no run starts with its entry process in
one, and the processes that have ended are in none and never active again.

`Reached.scheduledOnce` proves this of every state of every history.  The histories are those in
which the program stores into no semaphore, link or processor, and not into the interrupt table of
the processor either.  That table is a plain array, but what is in it is signalled without being
asked for its type: `forge` puts an array there that looks like a semaphore for which the running
process waits, and the next signal from outside queues a process that is running.
-/

namespace MessageMachine.Machine

variable {m m' : Machine} {lines : Value → Line} {ended : Set Value}

/-- No process is in two places of the schedule. -/
structure ScheduledOnce (m : Machine) (ended : Set Value) : Prop where
  readable : ∃ ready, m.readyProcesses = .ok ready
  /-- The ready queue and the queues of any semaphores together hold no process twice. -/
  nodup : ∀ semaphores : List Value, semaphores.Nodup →
    (∀ s ∈ semaphores, m.heap.typeOf s = .ok (m.known .semaphore)) →
    ∀ ready queues, m.readyProcesses = .ok ready →
      semaphores.mapM m.waitingProcesses = .ok queues → (ready ++ queues.flatten).Nodup
  active : ∀ p, m.activeProcess = .ok p → m.Linked p → m.schedule.switchPending = true
  /-- A run that starts here starts with its entry process active and in no queue. -/
  entry : ∀ method receiver arguments m', startMethod method receiver arguments m = .ok () m' →
    m'.activeProcess = .ok m'.regs.entryProcess ∧ ¬m'.Linked m'.regs.entryProcess
  gone : ∀ p ∈ ended, ¬m.Linked p ∧ m.activeProcess ≠ .ok p

namespace Ordered

/-- A process that is active and in a queue leaves the processor at the next switch. -/
theorem pending_of_linked (ho : Ordered none ended m lines) {p : Value}
    (hactive : m.activeProcess = .ok p) (hlinked : m.Linked p) :
    m.schedule.switchPending = true := by
  obtain ⟨q, hq, hcase⟩ := ho.active
  obtain rfl : p = q := Except.ok.inj (hactive.symm.trans (activeProcess_eq_ok.mpr hq))
  rcases hcase with ⟨-, hpending⟩ | ⟨-, hunqueued⟩
  · exact hpending
  · by_contra hnot
    have hcalm : m.schedule.switchPending = false := Bool.eq_false_of_not_eq_true hnot
    exact not_linked ho.arranged (hunqueued hcalm) hlinked

end Ordered

theorem Entered.not_linked (hm : Entered ended m) :
    m.activeProcess = .ok m.regs.entryProcess ∧ ¬m.Linked m.regs.entryProcess := by
  obtain ⟨lines, ho, hactive, hunqueued⟩ := hm
  exact ⟨hactive, Machine.not_linked ho.arranged hunqueued⟩

theorem scheduledOnce_of_orderly (hm : Orderly none ended m) : ScheduledOnce m ended := by
  obtain ⟨lines, ho⟩ := hm
  refine ⟨ho.sound.exists_readyProcesses ho.arranged, ?_, ?_, ?_, ?_⟩
  · intro semaphores hnodup htypes ready queues hready hqueues
    exact nodup_together ho.sound ho.arranged hnodup htypes hready hqueues
  · intro p hactive hlinked
    exact ho.pending_of_linked hactive hlinked
  · intro method receiver arguments m' hrun
    have hstarted := ensures_startMethod ho method receiver arguments m rfl
    rw [hrun] at hstarted
    exact hstarted.2.not_linked
  · intro p hp
    have hgone := ho.gone p (over_none.mpr hp)
    exact ⟨not_linked ho.arranged hgone.unqueued,
      fun hactive => hgone.not_active (activeProcess_eq_ok.mp hactive)⟩

namespace Reached

/-- In every state of every history no process is scheduled twice, and a run only leads to further
states of it, whether it ends with a result or with a fault. -/
theorem scheduledOnce (hm : Reached m ended) :
    ScheduledOnce m ended ∧
      ∀ budget method receiver arguments,
        (∀ m', startMethod method receiver arguments m = .ok () m' → Behaves budget m') →
        ∃ ended', Reached (stateAfter (Machine.runMethod budget method receiver arguments m)) ended' :=
  ⟨scheduledOnce_of_orderly hm.orderly, fun _ method receiver arguments => hm.runMethod method receiver arguments⟩

end Reached

/-! ## Handing over -/

/-- A new array is filled while nothing else leads to it. -/
theorem keeps_newArray {P : Machine → Prop} (hP : Steady P) (elements : List Value) :
    Keeps P (newArray elements) := by
  refine (opens_newObject hP (by decide) _).bind fun array => Keeps.bind (Keeps.forM fun _ _ => ?_)
    fun _ => Keeps.pure _
  exact keeps_storeField_open hP array _ _

/-- An array that serves as a method: it forks a block, which waits for the input semaphore, and signals
that semaphore.  With it goes the semaphore. -/
def writeHandover : MachineM (Value × Value) := do
  let nil ← landmark .nil
  let interrupts ← fetchField (← landmark .processor) Slot.interruptTable
  let semaphore ← fetchField interrupts Slot.inputInterrupt
  let fork ← read (·.findSymbol "fork")
  let wait ← read (·.findSymbol "wait")
  let signal ← read (·.findSymbol "signal")
  let byteArray ← landmark .byteArray
  let code ← onHeap (Heap.allocateBytesFrom .ephemeral byteArray (assemble [.block 0 "waits",
    .pushLiteral 0, .send 2 0, .ret .topToCaller, .endBlock "waits", .send 1 0, .pop, .pushLiteral 0,
    .send 3 0, .ret .topToSender]))
  let method ← newArray [(MethodHeader.bytecodes 0 0).toValue, nil, nil, code, semaphore,
    fork.getD nil, wait.getD nil, signal.getD nil]
  return (semaphore, method)

theorem keeps_writeHandover {P : Machine → Prop} (hP : Steady P) : Keeps P writeHandover := by
  refine (keeps_landmark _).bind fun nil => (keeps_landmark _).bind fun _ => (keeps_fetchField _ _).bind
    fun _ => (keeps_fetchField _ _).bind fun _ => (keeps_read _).bind fun _ => (keeps_read _).bind
    fun _ => (keeps_read _).bind fun _ => (keeps_landmark _).bind fun byteArray => Keeps.bind ?_
    fun code => (keeps_newArray hP _).bind fun _ => Keeps.pure _
  exact keeps_onHeap hP fun m hm => calm_allocate (hP.sound m hm).furnished.settled rfl (fun _ h => by cases h) _

/-- The active process, those that wait for a semaphore, and those that are ready. -/
def sight (m : Machine) (semaphore : Value) : Option Value × Option (List Value) × Option (List Value) :=
  (m.activeProcess.toOption, (m.waitingProcesses semaphore).toOption, m.readyProcesses.toOption)

/-- Whether the forked process waits after six instructions, is woken with the next, and has ended when
the method is answered. -/
def handsOver (m : Machine) : Bool :=
  match writeHandover m with
  | .error .. => false
  | .ok (semaphore, method) m₁ =>
    match startMethod method (m₁.known .nil) [] m₁ with
    | .error .. => false
    | .ok () m₂ =>
      match plainRun 6 m₂ with
      | .ok ([], none) m₃ =>
        match plainRun 1 m₃ with
        | .ok ([], none) m₄ =>
          match plainRun 3 m₄ with
          | .ok ([forked], some _) m₅ =>
            decide (m₃.sight semaphore = (some m₃.regs.entryProcess, some [forked], some []) ∧
              m₄.sight semaphore = (some m₃.regs.entryProcess, some [],
                some [forked, m₃.regs.entryProcess]) ∧
              m₅.sight semaphore = (some m₃.regs.entryProcess, some [], some []))
          | _ => false
        | _ => false
      | _ => false

theorem exists_of_handsOver (h : handsOver m = true) :
    ∃ semaphore method m₁ m₂ m₃ m₄ forked v m₅, writeHandover m = .ok (semaphore, method) m₁ ∧
      startMethod method (m₁.known .nil) [] m₁ = .ok () m₂ ∧ plainRun 6 m₂ = .ok ([], none) m₃ ∧
      plainRun 1 m₃ = .ok ([], none) m₄ ∧ plainRun 3 m₄ = .ok ([forked], some v) m₅ ∧
      m₃.sight semaphore = (some m₃.regs.entryProcess, some [forked], some []) ∧
      m₄.sight semaphore = (some m₃.regs.entryProcess, some [], some [forked, m₃.regs.entryProcess]) ∧
      m₅.sight semaphore = (some m₃.regs.entryProcess, some [], some []) := by
  unfold handsOver at h
  split at h
  · cases h
  next semaphore method m₁ hwrite =>
  split at h
  · cases h
  next m₂ hstart =>
  split at h
  · next m₃ hfirst =>
    split at h
    · next m₄ hsecond =>
      split at h
      · next forked v m₅ hthird =>
        obtain ⟨hwaits, hwoken, hended⟩ := of_decide_eq_true h
        exact ⟨semaphore, method, m₁, m₂, m₃, m₄, forked, v, m₅, hwrite, hstart, hfirst, hsecond,
          hthird, hwaits, hwoken, hended⟩
      · cases h
    · cases h
  · cases h

/-! ## The interrupt table -/

/-- Runs a method of the interrupt table that stores an array into it, in the place of the timer
semaphore.  The array has the fields of a semaphore for which the entry process waits. -/
def forge (budget : Nat) : MachineM Value := do
  let nil ← landmark .nil
  let link ← newArray [(← get).regs.entryProcess, nil]
  let semaphore ← newArray [.int 0, link, nil]
  let method ← compileMethod {
    selector := "forge"
    header := .bytecodes 0 0
    literals := [.value semaphore]
    code := assemble [.pushLiteral 0, .popStoreField 0, .ret .receiver] }
  let interrupts ← fetchField (← landmark .processor) Slot.interruptTable
  runMethod budget method interrupts []

/-- Whether, after `forge`, the active process is ready too although no switch is pending, and the
table stored into is an array. -/
def forges (m : Machine) : Bool :=
  match forge 4 m with
  | .ok interrupts m' =>
    decide (m'.activeProcess.toOption = some m'.regs.entryProcess ∧
      m'.readyProcesses.toOption = some [m'.regs.entryProcess] ∧
      m'.schedule.switchPending = false ∧
      (m'.heap.typeOf interrupts).toOption = some (m'.known .array))
  | .error .. => false

theorem exists_of_forges (hforges : forges m = true) : ∃ interrupts m',
    forge 4 m = .ok interrupts m' ∧ m'.heap.typeOf interrupts = .ok (m'.known .array) ∧
    m'.activeProcess = .ok m'.regs.entryProcess ∧ m'.Linked m'.regs.entryProcess ∧
    m'.schedule.switchPending = false := by
  unfold forges at hforges
  cases hforge : forge 4 m with
  | error fault m' =>
      rw [hforge] at hforges
      cases hforges
  | ok interrupts m' =>
      rw [hforge] at hforges
      obtain ⟨hactive, hready, hpending, htype⟩ := of_decide_eq_true hforges
      have hlinked : m'.Linked m'.regs.entryProcess :=
        .inl ⟨_, eq_ok_of_toOption hready, List.mem_singleton_self _⟩
      exact ⟨interrupts, m', rfl, eq_ok_of_toOption htype, eq_ok_of_toOption hactive, hlinked,
        hpending⟩

theorem passes_processes : passes promptSettings (fun m => handsOver m && forges m) = true := by
  decide +kernel

/-- A process is forked, waits, is woken by a signal and ends, while the timer signals before every
instruction. -/
theorem scheduledOnce_handover : ∃ m semaphore method m₁ m₂ m₃ m₄ forked v m₅,
    create promptSettings = .ok m ∧ writeHandover m = .ok (semaphore, method) m₁ ∧
    startMethod method (m₁.known .nil) [] m₁ = .ok () m₂ ∧ ScheduledOnce m₂ ∅ ∧
    run 6 m₂ = .error .outOfBudget m₃ ∧
    m₃.sight semaphore = (some m₃.regs.entryProcess, some [forked], some []) ∧ ScheduledOnce m₃ ∅ ∧
    run 1 m₃ = .error .outOfBudget m₄ ∧
    m₄.sight semaphore = (some m₃.regs.entryProcess, some [], some [forked, m₃.regs.entryProcess]) ∧
    ScheduledOnce m₄ ∅ ∧ run 3 m₄ = .ok v m₅ ∧
    m₅.sight semaphore = (some m₃.regs.entryProcess, some [], some []) ∧ ScheduledOnce m₅ {forked} ∧
    ∃ ended, Reached (stateAfter (runMethod 6 method (m₁.known .nil) [] m₁)) ended := by
  obtain ⟨m, hcreate, htests⟩ := exists_create_of_passes passes_processes
  obtain ⟨semaphore, method, m₁, m₂, m₃, m₄, forked, v, m₅, hwrite, hstart, hfirst, hsecond, hthird,
    hwaits, hwoken, hended⟩ := exists_of_handsOver (Bool.and_eq_true_iff.mp htests).1
  have hm₁ : Reached m₁ ∅ := by
    have hwritten := keeps_writeHandover (Reached.steady ∅) m (.created hcreate)
    rwa [hwrite] at hwritten
  have hm₂ : Reached m₂ ∅ := by
    have hstarted := hm₁.started method (m₁.known .nil) []
    rwa [hstart] at hstarted
  have hnone : (∅ : Set Value) ∪ {p | p ∈ ([] : List Value)} = ∅ := by simp
  have hone : (∅ : Set Value) ∪ {p | p ∈ [forked]} = {forked} := by simp
  obtain ⟨-, hrun₁, hbehaves, hlater⟩ := run_of_plainRun hfirst
  have hm₃ := hlater ∅ hm₂
  rw [hnone] at hm₃
  obtain ⟨-, hrun₂, -, hlater⟩ := run_of_plainRun hsecond
  have hm₄ := hlater ∅ hm₃
  rw [hnone] at hm₄
  obtain ⟨hrun₃, -, -, hlater⟩ := run_of_plainRun hthird
  have hm₅ := hlater ∅ hm₄
  rw [hone] at hm₅
  have hruns : ∀ m', startMethod method (m₁.known .nil) [] m₁ = .ok () m' → Behaves 6 m' := by
    intro m' hstart'
    cases hstart.symm.trans hstart'
    exact hbehaves
  exact ⟨m, semaphore, method, m₁, m₂, m₃, m₄, forked, v, m₅, hcreate, hwrite, hstart,
    hm₂.scheduledOnce.1, hrun₁ rfl, hwaits, hm₃.scheduledOnce.1, hrun₂ rfl, hwoken,
    hm₄.scheduledOnce.1, hrun₃ v rfl, hended, hm₅.scheduledOnce.1,
    hm₁.scheduledOnce.2 6 method (m₁.known .nil) [] hruns⟩

/-- A store into the interrupt table is enough for a process to be active and ready at once. -/
theorem scheduled_twice_by_forge : ∃ m m' interrupts, create promptSettings = .ok m ∧
    forge 4 m = .ok interrupts m' ∧ m'.heap.typeOf interrupts = .ok (m'.known .array) ∧
    m'.activeProcess = .ok m'.regs.entryProcess ∧ m'.Linked m'.regs.entryProcess ∧
    m'.schedule.switchPending = false := by
  obtain ⟨m, hcreate, htests⟩ := exists_create_of_passes passes_processes
  obtain ⟨interrupts, m', hforge⟩ := exists_of_forges (Bool.and_eq_true_iff.mp htests).2
  exact ⟨m, m', interrupts, hcreate, hforge⟩

end MessageMachine.Machine
