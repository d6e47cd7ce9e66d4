import MessageMachine.Proofs.Frame.Instructions
import MessageMachine.Proofs.Machine.Mirror

/-!
# Callers

Within an instruction another context becomes active in two ways only.  A method or a block
is activated: then the context that was active is left with its pointers saved, and is the same
otherwise (`Parked`).  Or a context is returned to: then it goes on from its saved pointers, with the
value that was returned on the top of its stack (`Continued`).
-/

namespace MessageMachine

namespace Machine

variable {m m' m₁ : Machine} {g : Regime} {strict : Bool} {taken : Nat} {c v : Value}

/-! ## Calling -/

/-- A method or a block is activated for the topmost values on the stack: `taken` of them are dropped. -/
inductive Called (m : Machine) (taken : Nat) (m' : Machine) : Prop where
  | method {method : Value} {header : MethodHeader} {argc : Nat} :
      (∃ t, m.heap.typeOf method = .ok t) →
      (m.heap.typeOf method = .ok (m.known .compiledMethod) → HeaderOf m.heap method header) →
      activateMethod method header argc m = .ok () m' → taken = argc + 1 → Called m taken m'
  | block {block source : Value} {first argc : Nat} :
      m.heap.typeOf block = .ok (m.known .blockContext) →
      activateBlock block source first argc taken m = .ok () m' → Called m taken m'

/-- Another context than the one of `m` is active in `m'`, which has been left with its pointers saved,
for the stack without the topmost `taken` values. -/
structure Parked (m : Machine) (taken : Nat) (m' : Machine) : Prop where
  other : m'.regs.activeContext ≠ m.regs.activeContext
  depth : m.regs.stackBase + taken ≤ m.regs.sp + 1
  ip : m'.heap.fetchField m.regs.activeContext Slot.ip = .ok (.ofNat m.regs.ip)
  sp : m'.heap.fetchField m.regs.activeContext Slot.sp = .ok (.ofNat (m.regs.sp - taken))
  rest : ∀ i x, i ≠ Slot.ip → i ≠ Slot.sp → m.heap.fetchField m.regs.activeContext i = .ok x →
    m'.heap.fetchField m.regs.activeContext i = .ok x

/-- The end of an activation. -/
theorem parked_of_leaving (hm : Contained g m) (hactive : m.regs.activeContext ≠ m.known .nil)
    {type : Landmark} {n : Nat} {xs : Nat → Value} (hd : IsDraft m type n c xs m₁)
    (hrun : (do popN taken; flush; reload c : MachineM Unit) m₁ = .ok () m') : Parked m taken m' := by
  have hl := hm.frame.resolve_left fun hnone => hactive hnone.1
  obtain ⟨h, hd, rfl⟩ := hd
  obtain ⟨_, m₂, hpop, hrest⟩ := bind_eq_ok.mp hrun
  rw [popN_run] at hpop
  split at hpop
  · cases hpop
  next hdepth =>
  obtain rfl : _ = m₂ := (EStateM.Result.ok.inj hpop).2
  obtain ⟨_, m₃, hflush, hreload⟩ := bind_eq_ok.mp hrest
  obtain ⟨h', rfl, haltered, hsaved⟩ := flush_eq_ok hd.settled hflush
  obtain ⟨regs, _, hread, hmodify⟩ := bind_eq_ok.mp hreload
  obtain ⟨hload, rfl⟩ := read_eq_ok.mp hread
  cases hmodify
  have hcontext : regs.activeContext = c := (loadContext_eq_ok.mp (liftFault_eq_ok.mp hload)).2.1
  have hne : m.regs.activeContext ≠ c := hd.ne hl.context.exists_type
  obtain ⟨hip, hsp⟩ := hsaved hactive
  constructor
  case other => exact hcontext ▸ hne.symm
  case depth => exact Nat.le_of_not_lt hdepth
  case ip => exact hip
  case sp => exact hsp
  case rest =>
    intro i x hi hi' hx
    exact (haltered.other _ i x (.inr (not_or.mpr ⟨hi, hi'⟩))).mpr ((hd.other _ i x hne).mpr hx)

/-- The context of a method with its arguments, before the one that sends is left. -/
theorem exists_draft_of_activateMethod (hm : Contained .plain m) {method : Value}
    {header : MethodHeader} {argc : Nat} (hmethod : ∃ t, m.heap.typeOf method = .ok t)
    (hheader : m.heap.typeOf method = .ok (m.known .compiledMethod) → HeaderOf m.heap method header)
    (hrun : activateMethod method header argc m = .ok () m') :
    ∃ c n xs m₁, IsDraft m .methodContext n c xs m₁ ∧
      (do popN (argc + 1); flush; reload c : MachineM Unit) m₁ = .ok () m' := by
  obtain ⟨receiver, m₀, hread, hrest⟩ := bind_eq_ok.mp hrun
  obtain ⟨-, hsame⟩ := read_eq_ok.mp hread
  subst m₀
  obtain ⟨_, _, hget, hrest⟩ := bind_eq_ok.mp hrest
  cases hget
  obtain ⟨c, m₁, hmake, hrest⟩ := bind_eq_ok.mp hrest
  have hmade := ensures_newMethodContext hm hmethod (fun _ => hheader) hm.fills_active receiver m rfl
  rw [hmake] at hmade
  obtain ⟨n, xs, ⟨h₁, hd, rfl⟩, -⟩ := hmade
  obtain ⟨_, _, hget, hrest⟩ := bind_eq_ok.mp hrest
  cases hget
  obtain ⟨_, m₂, htransfer, hrest⟩ := bind_eq_ok.mp hrest
  obtain ⟨h₂, hmove, rfl⟩ := onHeap_eq_ok.mp htransfer
  obtain ⟨ys, hd₂, -⟩ := hd.transferred (Heap.transferred_of_eq_ok hd.settled hmove)
  exact ⟨c, n, ys, _, ⟨h₂, hd₂, rfl⟩, hrest⟩

namespace Called

/-- A call parks the context that was active. -/
theorem parked (hm : Contained .plain m) (hactive : m.regs.activeContext ≠ m.known .nil)
    (hc : Called m taken m') : Parked m taken m' := by
  cases hc with
  | method hmethod hheader hrun htaken =>
      subst htaken
      obtain ⟨c, n, xs, m₁, hd, hleave⟩ := exists_draft_of_activateMethod hm hmethod hheader hrun
      exact parked_of_leaving hm hactive hd hleave
  | block hblock hrun =>
      obtain ⟨c, n, xs, ys, m₁, -, hd, -, -, -, hleave⟩ :=
        exists_copy_of_activateBlock hm.framed.settled hrun
      exact parked_of_leaving hm hactive hd hleave

end Called

/-! ## Returning -/

/-- In `m'` the context `c` goes on from the pointers that it had saved in `m`, with `v` on the top of
its stack. -/
structure Continued (m : Machine) (c v : Value) (m' : Machine) : Prop where
  context : m'.regs.activeContext = c
  method : m.heap.fetchField c Slot.contextMethod = .ok m'.regs.method
  ip : m.heap.fetchField c Slot.ip = .ok (.ofNat m'.regs.ip)
  sp : ∃ sp : Nat, m.heap.fetchField c Slot.sp = .ok (.ofNat sp) ∧ m'.regs.sp = sp + 1
  top : m'.heap.fetchField c m'.regs.sp = .ok v
  rest : ∀ i x, i ≠ m'.regs.sp → m.heap.fetchField c i = .ok x → m'.heap.fetchField c i = .ok x

/-- A value that has been pushed is on the top, and nothing else has changed. -/
theorem pushed_of_eq_ok (hsettled : m.heap.Settled) (hrun : push v m = .ok () m') :
    m'.regs = { m.regs with sp := m.regs.sp + 1 } ∧
      Heap.Stored m.heap m.regs.activeContext (m.regs.sp + 1) v m'.heap := by
  rw [push_run] at hrun
  split at hrun
  · cases hrun
  · obtain ⟨_, m₁, hstore, hrest⟩ := bind_eq_ok.mp hrun
    obtain ⟨h, hstored, rfl⟩ := onHeap_eq_ok.mp hstore
    cases hrest
    exact ⟨rfl, Heap.stored_of_eq_ok hsettled hstored⟩

theorem resume_run (hne : c ≠ m.known .nil) (v : Value) : resume c v m = (do
    if ← read (·.hasBeenLeft c) then throw .cannotReturn
    reload c
    push v : MachineM Unit) m := by
  have heq : resume c v m = (if c = m.known .nil then processFinished v else do
      if ← read (·.hasBeenLeft c) then throw .cannotReturn
      reload c
      push v : MachineM Unit) m := rfl
  rw [heq, if_neg hne]

/-- A context that is returned to goes on. -/
theorem continued_of_resume (hsettled : m.heap.Settled) (hne : c ≠ m.known .nil)
    (hrun : resume c v m = .ok () m') : Continued m c v m' := by
  rw [resume_run hne] at hrun
  obtain ⟨left, m₁, hread, hrest⟩ := bind_eq_ok.mp hrun
  obtain ⟨-, hsame⟩ := read_eq_ok.mp hread
  subst m₁
  split at hrest
  · cases hrest
  obtain ⟨_, m₂, hreload, hpush⟩ := bind_eq_ok.mp hrest
  obtain ⟨regs, m₁, hread, hset⟩ := bind_eq_ok.mp hreload
  obtain ⟨hload, hsame⟩ := read_eq_ok.mp hread
  subst m₁
  cases hset
  obtain ⟨hmirrors, hcontext, hip, hsp, -⟩ := loadContext_eq_ok.mp (liftFault_eq_ok.mp hload)
  obtain ⟨hregs, hstored⟩ := pushed_of_eq_ok (m := { m with regs }) hsettled hpush
  dsimp only at hregs hstored
  rw [hcontext] at hstored
  constructor
  case context => rw [hregs, hcontext]
  case method =>
    rw [hregs, ← hcontext]
    exact hmirrors.method
  case ip => rw [hregs, hip]
  case sp => exact ⟨regs.sp, hsp, congrArg Registers.sp hregs⟩
  case top =>
    rw [hregs]
    exact hstored.self
  case rest =>
    intro i x hi hx
    refine (hstored.other c i x (.inr fun heq => hi ?_)).mpr hx
    rw [hregs, heq]

/-! ## Turns -/

end Machine

end MessageMachine
