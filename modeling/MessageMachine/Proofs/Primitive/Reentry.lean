import MessageMachine.Proofs.Creation
import MessageMachine.Proofs.Frame.Template
import MessageMachine.Proofs.Machine.Storing
import MessageMachine.Proofs.Primitive.Evaluation

/-!
# Blocks can be entered again

`blocks_reentrant` says that it does not matter how a block is evaluated, nor how often: the arguments
can come from the stack or from an array, each evaluation runs in a new context, and the block is
afterwards what it was.  The second part is about executions whose stores abstain from blocks
(`Abstains`).  `enlisted_roomy` shows what happens otherwise: a block that a program puts in the place
of the context of a process is run itself, and its pointers are saved in it.
-/

namespace MessageMachine

namespace Machine

variable {m : Machine}

/-- All ways of evaluating a block agree, and in every state of every execution that abstains from
blocks a block has the fields that it was made with. -/
theorem blocks_reentrant :
    (∀ {m : Machine} {p : Primitive} {block array : Value} {vs : List Value}, p ∈ evaluators →
      p.arity = vs.length → m.heap.Settled → m.Roomy (max (vs.length + 1) 2) →
      m.isInstance array .array = .ok true → m.heap.fields array = .ok vs.toArray →
      Alike m.Above (ask p (block :: vs) m) (ask .blockValueWithArguments [block, array] m) ∧
        ∀ t, ask p (block :: vs) m = .ok true t → Evaluating m block vs m.regs.sp t ∧
          ∃ h, ask .blockValueWithArguments [block, array] m = .ok true { t with heap := h } ∧
            Evaluating m block vs m.regs.sp { t with heap := h }) ∧
    ∀ {m : Machine} {w : Option Imprint}, Tracked m w →
      (∀ b ∈ w, m.heap.fields b.block = .ok b.fields) ∧
      ∀ budget method receiver arguments,
        (∀ m', startMethod method receiver arguments m = .ok () m' →
          RunsAs (restrict Abstains) budget m') →
        ∃ w', Later w w' ∧ Tracked (stateAfter (runMethod budget method receiver arguments m)) w' := by
  refine ⟨fun hp harity hsettled hroom harray helements => ?_, fun hm => ⟨?_, ?_⟩⟩
  · exact alike_evaluations hp harity hsettled hroom harray helements
  · exact hm.preserved.fields
  · exact fun _ method receiver arguments => hm.runMethod method receiver arguments

/-! ## One machine -/

/-- The value on the top of the stack. -/
def top (m : Machine) : Option Value :=
  (m.heap.fetchField m.regs.activeContext m.regs.sp).toOption

/-- Whether, when the first method of the processor has been started and has pushed a block for two
arguments, the block can be evaluated with the interrupt semaphores, which are in an array, and the next
instruction stores nothing. -/
def furnishes (m : Machine) : Bool :=
  match m.firstMethod (m.known .processorScheduler) with
  | none => false
  | some method =>
    match startMethod method (m.known .processor) [] m with
    | .error .. => false
    | .ok () m₁ =>
      match blockCopy 2 0 m₁ with
      | .error .. => false
      | .ok () m₂ =>
        match m₂.top, (m₂.heap.fetchField (m₂.known .processor) Slot.interruptTable).toOption with
        | some block, some array =>
          match (m₂.heap.fields block).toOption, (m₂.heap.fields array).toOption with
          | some _, some elements =>
            succeeds (stepWith refuse m₂) && decide (elements.size = 2 ∧
              (m₂.isInstance array .array).toOption = some true ∧
              Slot.contextTail ≤ m₂.regs.stackBase ∧ m₂.regs.stackBase ≤ m₂.regs.sp + 1 ∧
              m₂.regs.sp + 3 < m₂.regs.stackLimit ∧
              (m₂.heap.fieldCount m₂.regs.activeContext).toOption = some m₂.regs.stackLimit ∧
              resultOf (ask .blockValue2 (block :: elements.toList) m₂) = some true)
          | _, _ => false
        | _, _ => false

theorem exists_of_furnishes (hfurnishes : furnishes m = true) : ∃ method m₁ m₂ block array xs vs t,
    startMethod method (m.known .processor) [] m = .ok () m₁ ∧ blockCopy 2 0 m₁ = .ok () m₂ ∧
    m₂.heap.fetchField m₂.regs.activeContext m₂.regs.sp = .ok block ∧ m₂.heap.fields block = .ok xs ∧
    m₂.heap.fields array = .ok vs.toArray ∧ vs.length = 2 ∧ m₂.isInstance array .array = .ok true ∧
    m₂.Roomy 3 ∧ (∃ m₃, stepWith refuse m₂ = .ok () m₃) ∧
    ask .blockValue2 (block :: vs) m₂ = .ok true t := by
  unfold furnishes at hfurnishes
  split at hfurnishes
  · cases hfurnishes
  · next method hmethod =>
    split at hfurnishes
    · cases hfurnishes
    · next m₁ hstart =>
      split at hfurnishes
      · cases hfurnishes
      · next m₂ hcopy =>
        split at hfurnishes
        · next block array htop harray =>
          split at hfurnishes
          · next xs elements hxs helements =>
            obtain ⟨hstep, hstate⟩ := Bool.and_eq_true_iff.mp hfurnishes
            obtain ⟨hsize, hinstance, hbase, hheight, hlimit, hcount, hask⟩ := of_decide_eq_true hstate
            obtain ⟨t, ht⟩ := resultOf_eq_some hask
            exact ⟨method, m₁, m₂, block, array, xs, elements.toList, t, hstart, hcopy,
              eq_ok_of_toOption htop, eq_ok_of_toOption hxs, eq_ok_of_toOption helements, hsize,
              eq_ok_of_toOption hinstance, ⟨hbase, hheight, hlimit, eq_ok_of_toOption hcount⟩,
              ⟨_, eq_ok_of_succeeds hstep⟩, ht⟩
          · cases hfurnishes
        · cases hfurnishes

/-- Starts a method that forks a block, which yields, puts the block itself in the place of the context
of its process, yields to that and answers the block. -/
def enlist : MachineM Unit := do
  let _ ← defineMethod (← landmark .process) (.setter "context:" Slot.processContext.toUInt16)
  let method ← compileMethod {
    selector := "enlist"
    header := .bytecodes 0 1
    literals := [.symbol "fork", .symbol "context:", .value (← landmark .processor), .symbol "yield"]
    code := assemble [.block 0 "yields", .pushLiteral 2, .send 3 0, .ret .topToCaller,
      .endBlock "yields", .dup, .popStoreTemporary 0, .send 0 0, .pushTemporary 0, .send 1 1, .pop,
      .pushLiteral 2, .send 3 0, .pop, .pushTemporary 0, .ret .topToSender] }
  startMethod method (← landmark .nil) []

/-- Whether, after `enlist`, the block that the first instruction pushes is answered in the end with
another instruction pointer. -/
def enlists (m : Machine) : Bool :=
  match enlist m with
  | .error .. => false
  | .ok () m₀ =>
    match run 1 m₀ with
    | .ok .. => false
    | .error fault m₁ =>
      match run 20 m₁ with
      | .error .. => false
      | .ok block m₂ =>
        decide (fault = .outOfBudget ∧ m₁.top = some block ∧
          (m₁.heap.fetchField block Slot.ip).toOption = some (.int 3) ∧
          (m₂.heap.fetchField block Slot.ip).toOption = some (.int 5))

theorem passes_blocks : passes roomySettings (fun m => furnishes m && enlists m) = true := by
  decide +kernel

/-- A block that has just been pushed, evaluated with two values from the stack and from an array, and an
instruction after which it is what it was. -/
theorem blocks_reentrant_roomy : ∃ m method m₁ m₂ block array xs vs t, create roomySettings = .ok m ∧
    startMethod method (m.known .processor) [] m = .ok () m₁ ∧ blockCopy 2 0 m₁ = .ok () m₂ ∧
    m₂.heap.fields array = .ok vs.toArray ∧ ask .blockValue2 (block :: vs) m₂ = .ok true t ∧
    Alike m₂.Above (ask .blockValue2 (block :: vs) m₂)
      (ask .blockValueWithArguments [block, array] m₂) ∧
    Evaluating m₂ block vs m₂.regs.sp t ∧ m₂.heap.fields block = .ok xs ∧
    step m₂ = stepWith (restrict Abstains) m₂ ∧
    (stateAfter (step m₂)).heap.fields block = .ok xs ∧
    ∃ w', Later (some ⟨block, xs⟩) w' ∧
      Tracked (stateAfter (runMethod 0 method (m.known .processor) [] m₂)) w' := by
  obtain ⟨m, hcreate, htests⟩ := exists_create_of_passes passes_blocks
  obtain ⟨method, m₁, m₂, block, array, xs, vs, t, hstart, hcopy, htop, hxs, helements, hlength,
    hinstance, hroom, ⟨m₃, hquiet⟩, hask⟩ :=
    exists_of_furnishes (Bool.and_eq_true_iff.mp htests).1
  have hm₁ : Tracked m₁ none := by
    have hstarted := (Tracked.created hcreate).started method (m.known .processor) []
    rw [hstart] at hstarted
    exact hstarted
  have hm₂ : Tracked m₂ (some ⟨block, xs⟩) := hm₁.pushed hcopy htop hxs
  have hsettled := hm₂.preserved.contained.framed.settled
  have hconfined := step_eq_of_refuse hquiet (restrict Abstains)
  have hm₃ := hm₂.stepped hconfined
  have hroom : m₂.Roomy (max (vs.length + 1) 2) := by
    rw [hlength]
    exact hroom
  have hagree : Alike m₂.Above (ask .blockValue2 (block :: vs) m₂)
      (ask .blockValueWithArguments [block, array] m₂) ∧ _ :=
    blocks_reentrant.1 (by decide) hlength.symm hsettled hroom hinstance helements
  refine ⟨m, method, m₁, m₂, block, array, xs, vs, t, hcreate, hstart, hcopy, helements, hask,
    hagree.1, (hagree.2 t hask).1, ?_, hconfined, ?_, ?_⟩
  · exact (blocks_reentrant.2 hm₂).1 _ rfl
  · exact (blocks_reentrant.2 hm₃).1 _ rfl
  · exact (blocks_reentrant.2 hm₂).2 0 method _ [] fun _ _ => trivial

/-- A program that stores into no context, but puts a block into the context field of a process.  The
block is pushed with 3 for its instruction pointer, and ends with 5. -/
theorem enlisted_roomy : ∃ m m₀ m₁ m₂ block, create roomySettings = .ok m ∧
    enlist m = .ok () m₀ ∧ run 1 m₀ = .error .outOfBudget m₁ ∧
    m₁.heap.fetchField m₁.regs.activeContext m₁.regs.sp = .ok block ∧
    m₁.heap.fetchField block Slot.ip = .ok (.int 3) ∧ run 20 m₁ = .ok block m₂ ∧
    m₂.heap.fetchField block Slot.ip = .ok (.int 5) := by
  obtain ⟨m, hcreate, htests⟩ := exists_create_of_passes passes_blocks
  have henlists := (Bool.and_eq_true_iff.mp htests).2
  unfold enlists at henlists
  split at henlists
  · cases henlists
  · next m₀ henlist =>
    split at henlists
    · cases henlists
    · next fault m₁ hfirst =>
      split at henlists
      · cases henlists
      · next block m₂ hrest =>
        obtain ⟨rfl, htop, hbefore, hafter⟩ := of_decide_eq_true henlists
        exact ⟨m, m₀, m₁, m₂, block, hcreate, henlist, hfirst, eq_ok_of_toOption htop,
          eq_ok_of_toOption hbefore, hrest, eq_ok_of_toOption hafter⟩

end Machine

end MessageMachine
