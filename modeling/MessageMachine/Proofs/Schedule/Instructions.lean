import MessageMachine.Machine.Step
import MessageMachine.Proofs.Schedule.Primitives

/-!
# Instructions and the queues

An instruction sends a message, returns, or is quiet.  A send changes the queues by at most one
primitive, and after a primitive that has changed them nothing is sent any more.  A return can end
the running process.

`Schedules.ends_stepWith` puts this together: if the operations on processes lead from `P` to `R`, so
does an instruction with its stores restrained.  In the case of `schedules_orderly` this says that an
instruction executed while no switch is pending leaves the processes in order.
-/

namespace MessageMachine

namespace Machine

variable {m m' : Machine} {P R : Machine → Prop}

/-- An action that ends the instruction: whatever happens, it leads to `R`. -/
def Ends (P R : Machine → Prop) (action : MachineM Unit) : Prop :=
  Ensures P action (fun _ => R) fun _ => R

namespace Schedules

variable (hs : Schedules P R)
include hs

/-! ## Returning -/

/-- A quiet end. -/
theorem ends_of_keeps {action : MachineM Unit} (h : Keeps P action) : Ends P R action :=
  h.ensures.weaken (fun _ => id) (fun _ => hs.weaken) fun _ => hs.weaken

/-- A quiet beginning of an instruction. -/
theorem ends_bind {x : MachineM α} {f : α → MachineM Unit} (hx : Keeps P x)
    (hf : ∀ a, Ends P R (f a)) : Ends P R (x >>= f) :=
  Ensures.bind (hx.ensures.weaken (fun _ => id) (fun _ _ => id) fun _ => hs.weaken) hf

theorem ends_resume (target v : Value) : Ends P R (resume target v) := by
  refine hs.ends_bind (keeps_landmark _) fun nil => Ensures.ite (fun _ => hs.finish v) fun _ => ?_
  refine hs.ends_bind (keeps_read _) fun left => ?_
  refine Ensures.ite (fun _ => Ensures.throw fun m hm => hs.weaken m hm) fun _ => ?_
  exact hs.ends_of_keeps ((keeps_reload hs.steady _).bind fun _ => keeps_push hs.steady v)

theorem ends_methodReturn (v : Value) : Ends P R (methodReturn v) := by
  have hleave : ∀ regs : Registers, Ends P R (do
      let target ← fetchField regs.homeContext Slot.sender
      markLeft regs.homeContext
      resume target v) := fun regs =>
    hs.ends_bind (keeps_fetchField _ _) fun target =>
      hs.ends_bind (keeps_markLeft hs.steady _) fun _ => hs.ends_resume target v
  refine hs.ends_bind keeps_get fun m₀ => Ensures.ite (fun _ => ?_) fun _ => hleave m₀.regs
  refine hs.ends_bind (keeps_read _) fun left => ?_
  refine Ensures.ite (fun _ => Ensures.throw fun m hm => hs.weaken m hm) fun _ => ?_
  exact hs.ends_bind (keeps_markLeft hs.steady _) fun _ => hleave m₀.regs

theorem ends_blockReturn (v : Value) : Ends P R (blockReturn v) := by
  intro m hm
  refine Ensures.bind (ensures_get (m = ·) _) (fun m₀ => ?_) m rfl
  refine Ensures.ite (fun _ => ?_) fun _ => ?_
  · rintro _ ⟨rfl, rfl⟩
    exact hs.ends_methodReturn v m hm
  -- the active context stays open while its fields are cleared
  have hclear : ∀ caller nil, Ensures
      (fun m' => P m' ∧ Open m'.known m'.heap m₀.regs.activeContext)
      (do
        storeField m₀.regs.activeContext Slot.caller nil
        markLeft m₀.regs.activeContext
        resume caller v) (fun _ => R) fun _ => R := by
    intro caller nil
    refine Ensures.bind ((ensures_fill hs.steady _ nil Slot.caller).weaken (fun _ => id)
      (fun _ _ hm => hm.1) fun _ => hs.weaken) fun _ => ?_
    exact hs.ends_bind (keeps_markLeft hs.steady _) fun _ => hs.ends_resume caller v
  rintro _ ⟨rfl, rfl⟩
  have hquiet : ∀ {α : Type} {x : MachineM α},
      Keeps (fun m' => P m' ∧ Open m'.known m'.heap m.regs.activeContext) x →
      Ensures _ x (fun _ m' => P m' ∧ Open m'.known m'.heap m.regs.activeContext) fun _ => R :=
    fun hx => hx.ensures.weaken (fun _ => id) (fun _ _ => id) fun _ m' hm => hs.weaken m' hm.1
  exact Ensures.bind (hquiet (keeps_fetchField _ _)) (fun caller =>
    Ensures.bind (hquiet (keeps_landmark .nil)) fun nil => hclear caller nil) m
      ⟨hm, (hs.steady.sound m hm).context⟩

theorem ends_leave (kind : ReturnKind) : Ends P R (leave kind) := by
  cases kind with
  | receiver => exact hs.ends_bind keeps_get fun m => hs.ends_methodReturn _
  | true => exact hs.ends_bind (keeps_landmark _) hs.ends_methodReturn
  | false => exact hs.ends_bind (keeps_landmark _) hs.ends_methodReturn
  | nil => exact hs.ends_bind (keeps_landmark _) hs.ends_methodReturn
  | topToSender => exact hs.ends_bind (keeps_pop hs.steady) hs.ends_methodReturn
  | topToCaller => exact hs.ends_bind (keeps_pop hs.steady) hs.ends_blockReturn

/-! ## Whole instructions -/

theorem conduct : Conduct (Along P P) (Along P R) where
  refl _ := id
  trans hfirst hsecond hm := hsecond (hfirst hm)
  departs h hm := hs.weaken _ (h hm)
  trans_departs hfirst hsecond hm := hsecond (hfirst hm)
  restore h hm := hs.steady.undisturbed _ _ (h hm)
    ((hs.steady.sound _ (h hm)).undisturbed_of_eq rfl rfl rfl rfl rfl rfl rfl)

/-- The parts of an instruction are quiet, but for those that change the queues. -/
theorem conducts : Conducts restrain (Along P P) (Along P R) where
  toConduct := hs.conduct
  ip m _ hm := hs.steady.undisturbed m _ hm
    ((hs.steady.sound m hm).undisturbed_of_eq rfl rfl rfl rfl rfl rfl rfl)
  cache m _ hm := hs.steady.undisturbed m _ hm
    ((hs.steady.sound m hm).undisturbed_of_eq rfl rfl rfl rfl rfl rfl rfl)
  takeEvent m _ hm := hs.steady.undisturbed m _ hm
    ((hs.steady.sound m hm).undisturbed_of_eq rfl rfl rfl rfl rfl rfl rfl)
  push := keeps_push hs.steady
  pop := keeps_pop hs.steady
  popN := keeps_popN hs.steady
  blockCopy := keeps_blockCopy hs.steady
  instantiate := keeps_instantiate hs.steady
  storeByte _ _ _ := keeps_onHeap hs.steady fun m hm =>
    calm_storeByte (hs.steady.sound m hm).furnished.settled
  storeWord _ _ _ := keeps_onHeap hs.steady fun m hm =>
    calm_storeWord (hs.steady.sound m hm).furnished.settled
  setField v i new := keeps_restrain_storeField hs.steady v new i
  setGlobal := keeps_restrain_setGlobal hs.steady
  activate _ m' method header argc _ _ _ h := hs.conduct.trans_departed h
    (hs.conduct.departs_of_abides (keeps_activateMethod hs.steady method header argc) m')
  leave kind _ hm := (hs.ends_leave kind).after hm
  blockValue argc := hs.conduct.attempts_of_abides (keeps_blockValue hs.steady argc)
  valueWithArguments := hs.conduct.attempts_of_abides (keeps_valueWithArguments hs.steady)
  perform _ argc _ hsend := hs.attempts_perform hsend argc
  fork := hs.attempts_fork
  wait := hs.attempts_onSemaphore hs.wait
  signal := hs.attempts_onSemaphore hs.signal
  yield := hs.attempts_yield
  newSemaphore := hs.newSemaphore

/-- One instruction, from reading it on. -/
theorem ends_stepWith : Ends P R (stepWith restrain) :=
  Ensures.of_after fun m hm =>
    hs.conducts.stepWith m (fun _ _ _ v => keeps_storeTemporary hs.steady _ v) hm

end Schedules

end Machine

end MessageMachine
