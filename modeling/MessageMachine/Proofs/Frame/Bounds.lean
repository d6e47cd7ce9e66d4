import MessageMachine.Proofs.Creation
import MessageMachine.Proofs.Frame.History
import MessageMachine.Proofs.Machine.Storing

/-!
# The operand stack stays in its frame

`InFrame m` is what can be observed of the active context: its operand stack starts behind the
temporaries, the stack pointer is between that and the end of the context, and the temporaries are in
the home context.  `Bounded m` says what becomes of that by pushing and popping, and `Undamaged m m'`
which fields of contexts are never changed.

`Executed.staysInFrame` proves this of every state of every execution in which the active method is a
compiled method.  The executions are those whose stores are confined: a program may not store into
contexts, but also not into the header of a method, from which the number of temporaries is read again
whenever a context is loaded, and it may not put anything else into the place of a context, or of the
objects through which contexts are reached.
-/

namespace MessageMachine

namespace Machine

variable {m m' : Machine} {strict : Bool}

/-! ## What can be observed -/

/-- The operand stack of the active context is inside the context and behind its temporaries. -/
structure InFrame (m : Machine) : Prop where
  low : m.regs.stackBase ≤ m.regs.sp + 1
  high : m.regs.sp < m.regs.stackLimit
  limit : m.heap.fieldCount m.regs.activeContext = .ok m.regs.stackLimit
  /-- In a method context the stack is behind the temporaries, in a block context there are none. -/
  base : m.heap.typeOf m.regs.activeContext = .ok (m.known .methodContext) ∧
      m.regs.stackBase = Slot.contextTail + m.regs.tempCount ∨
    m.heap.typeOf m.regs.activeContext = .ok (m.known .blockContext) ∧
      m.regs.stackBase = Slot.contextTail
  header : ∃ header, HeaderOf m.heap m.regs.method header ∧
    m.regs.tempCount = header.temporaries.toNat
  home : m.heap.fetchField m.regs.homeContext Slot.contextMethod = .ok m.regs.method
  temporaries : ∀ i < m.regs.tempCount, ∃ v, m.temporary i = .ok v

/-- Pushing and popping move the stack pointer inside the frame, or fail and change nothing. -/
structure Bounded (m : Machine) : Prop where
  push : ∀ v, m.regs.sp + 1 < m.regs.stackLimit → ∃ m', push v m = .ok () m' ∧ InFrame m' ∧
    SameFrame m.regs m'.regs ∧ m'.regs.sp = m.regs.sp + 1 ∧ m'.stackValue 0 = .ok v
  overflow : ∀ v, m.regs.stackLimit ≤ m.regs.sp + 1 →
    Machine.push v m = .error (.stackOverflow m.regs.ip) m
  pop : m.regs.stackBase ≤ m.regs.sp → ∃ v m', pop m = .ok v m' ∧ InFrame m' ∧
    SameFrame m.regs m'.regs ∧ m'.regs.sp + 1 = m.regs.sp
  popN : ∀ n, m.regs.stackBase + n ≤ m.regs.sp + 1 → ∃ m', popN n m = .ok () m' ∧ InFrame m' ∧
    SameFrame m.regs m'.regs ∧ m'.regs.sp + n = m.regs.sp
  underflow : m.regs.sp < m.regs.stackBase → Machine.pop m = .error (.stackUnderflow m.regs.ip) m
  underflowN : ∀ n, m.regs.sp + 1 < m.regs.stackBase + n →
    Machine.popN n m = .error (.stackUnderflow m.regs.ip) m

/-- The fields that tell contexts apart are as they were, and so are temporaries, unless the next
instruction of `m` stores one. -/
structure Undamaged (m m' : Machine) : Prop where
  fixed : ∀ c i x, IsContext m.known m.heap c → i ∈ fixedSlots → m.heap.fetchField c i = .ok x →
    m'.heap.fetchField c i = .ok x
  temporaries : (∀ index next, m.fetch ≠ .ok (.popStoreTemporary index, next)) →
    ∀ c j x, Temporary m.known m.heap c j → m.heap.fetchField c j = .ok x →
      m'.heap.fetchField c j = .ok x

/-! ## Contained machines -/

namespace Contained

/-- The temporaries of the home context are fields of it. -/
theorem exists_temporary (hm : Contained .plain m) (hl : Loaded .plain m.known m.heap m.regs)
    (hmethod : m.heap.typeOf m.regs.method = .ok (m.known .compiledMethod)) {i : Nat}
    (hi : i < m.regs.tempCount) : ∃ v, m.temporary i = .ok v := by
  obtain ⟨header, hheader, htemps⟩ := hl.header trivial hmethod
  have hfitting := hm.framed.fitting _ (.inl hl.home_type) ⟨_, hl.home_method, hl.method_ne⟩
  obtain ⟨pointer, -, n, sp, -, hcount, -, hsp, habove⟩ := hfitting.stack
  have hroom := habove trivial hl.home_type _ header hl.home_method hmethod hheader
  obtain ⟨v, hv⟩ := Heap.exists_fetchField hcount (i := Slot.contextTail + i) (by omega)
  refine ⟨v, ?_⟩
  unfold temporary
  rw [if_neg (Nat.not_le.mpr hi)]
  exact liftFault_eq_ok.mpr hv

theorem inFrame (hm : Contained .plain m) (hactive : m.regs.activeContext ≠ m.known .nil)
    (hmethod : m.heap.typeOf m.regs.method = .ok (m.known .compiledMethod)) : InFrame m := by
  have hl := hm.frame.resolve_left fun hnone => hactive hnone.1
  refine ⟨hl.above trivial hmethod, hl.high, hl.limit, ?_, hl.header trivial hmethod, hl.home_method,
    fun i hi => hm.exists_temporary hl hmethod hi⟩
  exact hl.context.imp (fun htype => ⟨htype, hl.base_method htype⟩)
    fun htype => ⟨htype, hl.base_block htype⟩

end Contained

/-- While the same context stays active, it stays in its frame. -/
theorem Stays.inFrame (hs : Stays .plain strict m m') (hactive : m.regs.activeContext ≠ m.known .nil)
    (hmethod : m.heap.typeOf m.regs.method = .ok (m.known .compiledMethod)) : InFrame m' := by
  refine hs.contained.inFrame ?_ ?_
  · rw [hs.same.context, hs.known]
    exact hactive
  · rw [hs.same.method]
    exact hs.type hmethod

namespace Contained

theorem pushes (hm : Contained .plain m) (hactive : m.regs.activeContext ≠ m.known .nil)
    (hmethod : m.heap.typeOf m.regs.method = .ok (m.known .compiledMethod)) (v : Value)
    (hroom : m.regs.sp + 1 < m.regs.stackLimit) : ∃ m', push v m = .ok () m' ∧ InFrame m' ∧
      SameFrame m.regs m'.regs ∧ m'.regs.sp = m.regs.sp + 1 ∧ m'.stackValue 0 = .ok v := by
  have hl := hm.frame.resolve_left fun hnone => hactive hnone.1
  obtain ⟨x, hx⟩ := Heap.exists_fetchField hl.limit hroom
  obtain ⟨h, hstore⟩ := Heap.storeField_of_fetchField hx v
  have hstored : storeField m.regs.activeContext (m.regs.sp + 1) v m = .ok () (m.withHeap h) := by
    unfold storeField
    rw [onHeap_run, hstore]
  have hrun : push v m =
      .ok () { m.withHeap h with regs := { m.regs with sp := m.regs.sp + 1 } } := by
    rw [push_run, if_neg (Nat.not_le.mpr hroom), bind_eq_of_ok hstored]
    rfl
  have hs : Stays .plain true m _ := ((yields_push hm v).answer hrun).1
  refine ⟨_, hrun, hs.inFrame hactive hmethod, hs.same, rfl, ?_⟩
  rw [stackValue_zero, if_neg (Nat.not_lt.mpr (hl.above trivial hmethod))]
  exact liftFault_eq_ok.mpr (Heap.fetchField_storeField hstore)

theorem drops (hm : Contained .plain m) (hactive : m.regs.activeContext ≠ m.known .nil)
    (hmethod : m.heap.typeOf m.regs.method = .ok (m.known .compiledMethod)) {n : Nat}
    (hn : m.regs.stackBase + n ≤ m.regs.sp + 1) :
    InFrame { m with regs := { m.regs with sp := m.regs.sp - n } } ∧
      SameFrame m.regs { m.regs with sp := m.regs.sp - n } ∧ m.regs.sp - n + n = m.regs.sp := by
  have hl := hm.frame.resolve_left fun hnone => hactive hnone.1
  have hs : Stays .plain true m { m with regs := { m.regs with sp := m.regs.sp - n } } := hm.dropped hn
  have htail : 0 < m.regs.stackBase := Nat.lt_of_lt_of_le (by decide) hl.tail
  exact ⟨hs.inFrame hactive hmethod, hs.same, Nat.sub_add_cancel (by omega)⟩

/-- Pushing and popping in a frame. -/
theorem bounded (hm : Contained .plain m) (hactive : m.regs.activeContext ≠ m.known .nil)
    (hmethod : m.heap.typeOf m.regs.method = .ok (m.known .compiledMethod)) : Bounded m where
  push := hm.pushes hactive hmethod
  overflow v hfull := by rw [push_run, if_pos hfull]
  pop hlow := by
    have hl := hm.frame.resolve_left fun hnone => hactive hnone.1
    obtain ⟨v, hv⟩ := Heap.exists_fetchField hl.limit hl.high
    have hvalue : m.stackValue 0 = .ok v := by
      rw [stackValue_zero, if_neg (Nat.not_lt.mpr hlow)]
      exact liftFault_eq_ok.mpr hv
    exact ⟨v, _, pop_run_ok hvalue, hm.drops hactive hmethod (Nat.succ_le_succ hlow)⟩
  popN n hn := ⟨_, by rw [popN_run, if_neg (Nat.not_lt.mpr hn)], hm.drops hactive hmethod hn⟩
  underflow hlow := pop_run_error (by rw [stackValue_zero, if_pos hlow])
  underflowN n hn := by rw [popN_run, if_pos hn]

end Contained

/-! ## Executions -/

/-- A confined instruction damages no context. -/
theorem Contained.undamaged (hm : Contained .plain m) (hconfined : step m = stepWith confine m) :
    Undamaged m (stateAfter (step m)) := by
  rw [hconfined, confine_eq]
  have hstepped : Moves .plain false _ _ := moves_step guards_respects hm nofun
  refine ⟨hstepped.kept.fixed, fun htemporary => ?_⟩
  have hstrict : Moves .plain true _ _ := moves_step guards_respects hm fun _ => htemporary
  exact hstrict.kept.temporaries trivial rfl

namespace Executed

/-- In every state of every execution the operand stack is in its frame, pushing and popping keep it
there or fail, and an instruction or a run only leads to further states of the execution, whatever it
ends with. -/
theorem staysInFrame (hm : Executed m) :
    (m.regs.activeContext ≠ m.known .nil →
      m.heap.typeOf m.regs.method = .ok (m.known .compiledMethod) → InFrame m ∧ Bounded m) ∧
    (step m = stepWith confine m →
      Executed (stateAfter (step m)) ∧ Undamaged m (stateAfter (step m))) ∧
    ∀ budget method receiver arguments,
      (∀ m', startMethod method receiver arguments m = .ok () m' → RunsAs confine budget m') →
      Executed (stateAfter (Machine.runMethod budget method receiver arguments m)) := by
  refine ⟨fun hactive hmethod => ?_, fun hconfined => ?_, fun _ method receiver arguments => ?_⟩
  · exact ⟨hm.contained.inFrame hactive hmethod, hm.contained.bounded hactive hmethod⟩
  · exact ⟨hm.stepped hconfined, hm.contained.undamaged hconfined⟩
  · exact hm.runMethod method receiver arguments

end Executed

/-! ## One machine -/

/-- Whether an action ends in a fault while a compiled method is active and `p` is true of the
registers. -/
def faults (action : MachineM Value) (p : Registers → Bool) (m : Machine) : Bool :=
  match action m with
  | .ok .. => false
  | .error _ m' =>
    decide (m'.regs.activeContext ≠ m'.known .nil ∧
      (m'.heap.typeOf m'.regs.method).toOption = some (m'.known .compiledMethod)) && p m'.regs

theorem exists_of_faults {action : MachineM Value} {p : Registers → Bool}
    (hfaults : faults action p m = true) : ∃ fault m', action m = .error fault m' ∧
      m'.regs.activeContext ≠ m'.known .nil ∧
      m'.heap.typeOf m'.regs.method = .ok (m'.known .compiledMethod) ∧ p m'.regs = true := by
  unfold faults at hfaults
  cases hrun : action m with
  | ok v m' =>
      rw [hrun] at hfaults
      cases hfaults
  | error fault m' =>
      rw [hrun] at hfaults
      obtain ⟨hstate, hp⟩ := Bool.and_eq_true_iff.mp hfaults
      obtain ⟨hactive, htype⟩ := of_decide_eq_true hstate
      exact ⟨fault, m', rfl, hactive, eq_ok_of_toOption htype, hp⟩

/-- Runs a method that gives itself five temporaries, evaluates a block and drops a value. -/
def widen (budget : Nat) : MachineM Value := do
  let method ← compileMethod {
    selector := "widen"
    header := .bytecodes 0 0
    literals := [.value (MethodHeader.bytecodes 0 5).toValue, .int 7]
    code := assemble [.pushLiteral 0, .popStoreField 0, .pushLiteral 1, .block 0 "nothing",
      .pushSpecial .nil, .ret .topToCaller, .endBlock "nothing", .specialSend 18 0, .pop,
      .ret .topToSender] }
  runMethod budget method method []

/-- Forks a block that yields, puts an array in the place of the context of its process, and yields
to that. -/
def disguise (budget : Nat) : MachineM Value := do
  let nil ← landmark .nil
  let _ ← defineMethod (← landmark .process) (.setter "context:" Slot.processContext.toUInt16)
  let method ← compileMethod {
    selector := "nothing"
    header := .bytecodes 0 0
    code := assemble [.pushSpecial .nil, .ret .topToSender] }
  let context ← newArray [nil, .int 0, .int 50, method, nil, nil, nil, nil, nil]
  let method ← compileMethod {
    selector := "disguise"
    header := .bytecodes 0 0
    literals := [.symbol "fork", .value context, .symbol "context:", .value (← landmark .processor),
      .symbol "yield"]
    code := assemble [.block 0 "yields", .pushLiteral 3, .send 4 0, .ret .topToCaller,
      .endBlock "yields", .send 0 0, .pushLiteral 1, .send 2 1, .pop, .pushLiteral 3, .send 4 0,
      .ret .topToSender] }
  runMethod budget method nil []

/-- Whether the first method of the processor starts, with an instruction that stores nothing. -/
def startsProcessor (m : Machine) : Bool :=
  match m.firstMethod (m.known .processorScheduler) with
  | none => false
  | some method =>
    match startMethod method (m.known .processor) [] m with
    | .error .. => false
    | .ok () m' =>
      succeeds (stepWith refuse m') && decide (m'.regs.activeContext ≠ m'.known .nil ∧
        (m'.heap.typeOf m'.regs.method).toOption = some (m'.known .compiledMethod))

theorem exists_of_startsProcessor (hstarts : startsProcessor m = true) : ∃ method m',
    startMethod method (m.known .processor) [] m = .ok () m' ∧
    m'.regs.activeContext ≠ m'.known .nil ∧
    m'.heap.typeOf m'.regs.method = .ok (m'.known .compiledMethod) ∧
    ∃ m'', stepWith refuse m' = .ok () m'' := by
  unfold startsProcessor at hstarts
  split at hstarts
  · cases hstarts
  · next method _ =>
    split at hstarts
    · cases hstarts
    · next m' hrun =>
      obtain ⟨hstep, hstate⟩ := Bool.and_eq_true_iff.mp hstarts
      obtain ⟨hactive, htype⟩ := of_decide_eq_true hstate
      exact ⟨method, m', hrun, hactive, eq_ok_of_toOption htype, _, eq_ok_of_succeeds hstep⟩

theorem passes_frames : passes roomySettings (fun m =>
    startsProcessor m && (faults (widen 7) (fun r => r.sp + 1 < r.stackBase) m &&
      faults (disguise 11) (fun r => r.stackLimit ≤ r.sp) m)) = true := by
  decide +kernel

theorem staysInFrame_roomy : ∃ m method m', create roomySettings = .ok m ∧
    startMethod method (m.known .processor) [] m = .ok () m' ∧ Executed m' ∧ InFrame m' ∧
    Bounded m' ∧ step m' = stepWith confine m' ∧ Undamaged m' (stateAfter (step m')) := by
  obtain ⟨m, hcreate, htests⟩ := exists_create_of_passes passes_frames
  obtain ⟨method, m', hrun, hactive, htype, m'', hquiet⟩ :=
    exists_of_startsProcessor (Bool.and_eq_true_iff.mp htests).1
  have hm' : Executed m' := by
    have hstarted := (Executed.created hcreate).started method (m.known .processor) []
    rw [hrun] at hstarted
    exact hstarted
  have hconfined := step_eq_of_refuse hquiet confine
  obtain ⟨hframe, hstep, -⟩ := Executed.staysInFrame hm'
  exact ⟨m, method, m', hcreate, hrun, hm', (hframe hactive htype).1, (hframe hactive htype).2,
    hconfined, (hstep hconfined).2⟩

/-- A store into the header of a method is enough for a stack pointer below the operand stack, and a
store into a process for one that is not in the active context. -/
theorem leaves_frame_roomy : ∃ m, create roomySettings = .ok m ∧
    (∃ fault m', widen 7 m = .error fault m' ∧ m'.regs.activeContext ≠ m'.known .nil ∧
      m'.heap.typeOf m'.regs.method = .ok (m'.known .compiledMethod) ∧
      m'.regs.sp + 1 < m'.regs.stackBase) ∧
    ∃ fault m', disguise 11 m = .error fault m' ∧ m'.regs.activeContext ≠ m'.known .nil ∧
      m'.heap.typeOf m'.regs.method = .ok (m'.known .compiledMethod) ∧
      m'.regs.stackLimit ≤ m'.regs.sp := by
  obtain ⟨m, hcreate, htests⟩ := exists_create_of_passes passes_frames
  obtain ⟨hwidens, hdisguises⟩ := Bool.and_eq_true_iff.mp (Bool.and_eq_true_iff.mp htests).2
  obtain ⟨fault, m₁, hrun₁, hactive₁, htype₁, hlow⟩ := exists_of_faults hwidens
  obtain ⟨fault', m₂, hrun₂, hactive₂, htype₂, hhigh⟩ := exists_of_faults hdisguises
  exact ⟨m, hcreate, ⟨fault, m₁, hrun₁, hactive₁, htype₁, of_decide_eq_true hlow⟩,
    fault', m₂, hrun₂, hactive₂, htype₂, of_decide_eq_true hhigh⟩

end Machine

end MessageMachine
