import MessageMachine.Machine.Step
import MessageMachine.Proofs.Action

/-!
# Instructions that store nothing

`refuse` ends a run where the program stores into an object.  So an instruction that gets by with it
stores nothing, and does the same with every other `store` (`stepWith_of_refuse`).

`StopsOr x y` is what is shown of all that an instruction is made of: `x` has met a store and ends the
run, or does what `y` does.
-/

namespace MessageMachine.Machine

variable {m m' : Machine} {store : MachineM Unit → MachineM Unit}

/-- Ends the run where something is to be stored. -/
def refuse (_ : MachineM Unit) : MachineM Unit := throw .outOfBudget

/-- The first action ends the run for want of budget, or does what the second does. -/
def StopsOr (x y : MachineM α) : Prop := ∀ m, (∃ m', x m = .error .outOfBudget m') ∨ x m = y m

namespace StopsOr

theorem refl (x : MachineM α) : StopsOr x x := fun _ => .inr rfl

theorem stored (action : MachineM Unit) : StopsOr (refuse action) (store action) :=
  fun m => .inl ⟨m, rfl⟩

theorem bind {x y : MachineM α} {f g : α → MachineM β} (hx : StopsOr x y)
    (hf : ∀ a, StopsOr (f a) (g a)) : StopsOr (x >>= f) (y >>= g) := by
  intro m
  rcases hx m with ⟨m', hstopped⟩ | hsame
  · exact .inl ⟨m', bind_eq_of_error hstopped⟩
  · rw [bind_run, bind_run, ← hsame]
    cases x m with
    | ok a m' => exact hf a m'
    | error fault m' => exact .inr rfl

/-- Both begin in the same way. -/
theorem bind_right (x : MachineM α) {f g : α → MachineM β} (hf : ∀ a, StopsOr (f a) (g a)) :
    StopsOr (x >>= f) (x >>= g) := (refl x).bind hf

theorem ite {c : Prop} [Decidable c] {x y x' y' : MachineM α} (hx : StopsOr x x')
    (hy : StopsOr y y') : StopsOr (if c then x else y) (if c then x' else y') := by
  split
  · exact hx
  · exact hy

/-- A primitive does not decline for want of budget. -/
theorem attempt {x y : MachineM Bool} (hx : StopsOr x y) :
    StopsOr (Machine.attempt x) (Machine.attempt y) := by
  intro m
  rcases hx m with ⟨m', hstopped⟩ | hsame
  · refine .inl ⟨m', ?_⟩
    unfold Machine.attempt
    rw [hstopped]
    rfl
  · refine .inr ?_
    unfold Machine.attempt
    rw [hsame]

/-! ### Primitives -/

theorem basicAtPut : StopsOr (Machine.basicAtPut refuse) (Machine.basicAtPut store) := by
  refine bind_right _ fun receiver => bind_right _ fun _ => bind_right _ fun _ =>
    bind_right _ fun place => ?_
  cases place with
  | none => exact refl _
  | some i =>
      cases receiver with
      | object a => exact (stored _).bind fun _ => refl _
      | int n => exact refl _
      | bytes a => exact refl _
      | words a => exact refl _

theorem perform {send send' : Value → MachineM Unit} (hsend : ∀ v, StopsOr (send v) (send' v))
    (argc : Nat) : StopsOr (Machine.perform send argc) (Machine.perform send' argc) := by
  refine bind_right _ fun selector => bind_right _ fun _ => ite ?_ (refl _)
  exact bind_right _ fun _ => bind_right _ fun _ => bind_right _ fun _ => bind_right _ fun _ =>
    (hsend selector).bind fun _ => refl _

theorem primitive {send send' : Value → MachineM Unit} (hsend : ∀ v, StopsOr (send v) (send' v))
    (p : Primitive) : StopsOr (p.run refuse send) (p.run store send') := by
  cases p with
  | basicAtPut => exact basicAtPut
  | perform | performWith | performWithWith => exact perform hsend _
  | _ => exact refl _

theorem tryPrimitive {send send' : Value → MachineM Unit}
    (hsend : ∀ v, StopsOr (send v) (send' v)) (number argc : Nat) :
    StopsOr (Machine.tryPrimitive refuse send number argc)
      (Machine.tryPrimitive store send' number argc) := by
  unfold Machine.tryPrimitive
  split
  · next p _ => exact ite (primitive hsend p).attempt (refl _)
  · exact refl _

/-! ### Sends -/

theorem invoke {send send' : Value → MachineM Unit} (hsend : ∀ v, StopsOr (send v) (send' v))
    (method : Value) (argc : Nat) :
    StopsOr (Machine.invoke refuse send method argc) (Machine.invoke store send' method argc) := by
  refine bind_right _ fun header => ite ?_ (refl _)
  cases header.kind with
  | bytecodes => exact refl _
  | primitive => exact (tryPrimitive hsend _ _).bind fun _ => refl _
  | returnField => exact refl _
  | popAndStoreField =>
      exact bind_right _ fun _ => bind_right _ fun _ => stored _

theorem dispatch {unknown unknown' : Value → Value → Nat → MachineM Unit}
    {send send' : Value → MachineM Unit}
    (hunknown : ∀ type selector argc, StopsOr (unknown type selector argc) (unknown' type selector argc))
    (hsend : ∀ v, StopsOr (send v) (send' v)) (argc : Nat) (selector : Value) :
    StopsOr (Machine.dispatch refuse unknown send argc selector)
      (Machine.dispatch store unknown' send' argc selector) := by
  refine bind_right _ fun _ => bind_right _ fun type => bind_right _ fun found => ?_
  cases found with
  | some method => exact invoke hsend method argc
  | none => exact hunknown type selector argc

theorem sendWith {unknown unknown' : Value → Value → Nat → MachineM Unit}
    (hunknown : ∀ type selector argc, StopsOr (unknown type selector argc) (unknown' type selector argc))
    (argc : Nat) (selector : Value) :
    StopsOr (Machine.sendWith refuse unknown argc selector)
      (Machine.sendWith store unknown' argc selector) := by
  induction argc generalizing selector with
  | zero => exact dispatch hunknown (fun _ => refl _) 0 selector
  | succ argc ih => exact dispatch hunknown ih (argc + 1) selector

theorem doesNotUnderstand (type selector : Value) (argc : Nat) :
    StopsOr (Machine.doesNotUnderstand refuse type selector argc)
      (Machine.doesNotUnderstand store type selector argc) := by
  refine bind_right _ fun _ => ite (bind_right _ fun handler => ?_) (bind_right _ fun handler => ?_)
  all_goals
    cases handler with
    | none => exact refl _
    | some handler =>
        exact bind_right _ fun _ => bind_right _ fun _ =>
          invoke (sendWith (fun _ _ _ => refl _) 0) handler 1

theorem send (selector : Value) (argc : Nat) :
    StopsOr (Machine.send refuse selector argc) (Machine.send store selector argc) :=
  sendWith doesNotUnderstand argc selector

theorem specialSend (index : UInt8) (argc : Nat) :
    StopsOr (Machine.specialSend refuse index argc) (Machine.specialSend store index argc) := by
  unfold Machine.specialSend
  generalize SpecialSelector.table[index.toNat]? = found
  cases found with
  | none => exact refl _
  | some entry =>
    have hsent : ∀ done : Bool, StopsOr
        (do unless done do
          Machine.send refuse (← fetchField (← landmark .specialSelectors) index.toNat) argc)
        (do unless done do
          Machine.send store (← fetchField (← landmark .specialSelectors) index.toNat) argc) :=
      fun done => ite (refl _) (bind_right _ fun _ => bind_right _ fun selector => send selector argc)
    -- what follows the check of the arity also stands behind the fault
    refine ite ?_ (bind_right _ fun _ => ?_)
    all_goals
      dsimp only
      cases entry.primitive with
      | none => exact bind_right _ hsent
      | some p => exact (tryPrimitive (fun v => send v _) _ _).bind hsent

/-! ### Instructions -/

theorem execute (instruction : Instruction) :
    StopsOr (Machine.execute refuse instruction) (Machine.execute store instruction) := by
  cases instruction with
  | popStoreField index => exact bind_right _ fun _ => bind_right _ fun _ => stored _
  | popStoreGlobal literal => exact bind_right _ fun _ => bind_right _ fun _ => stored _
  | send literal argc => exact bind_right _ fun selector => send selector _
  | specialSend selector argc => exact specialSend selector _
  | _ => exact refl _

end StopsOr

/-- An instruction that has stored nothing does the same however it stores. -/
theorem stepWith_of_refuse (hstep : stepWith refuse m = .ok () m')
    (store : MachineM Unit → MachineM Unit) : stepWith store m = .ok () m' := by
  have hrefuses : StopsOr (stepWith refuse) (stepWith store) :=
    .bind_right _ fun _ => .bind_right _ fun _ => .execute _
  rcases hrefuses m with ⟨m'', hstopped⟩ | hsame
  · cases hstopped.symm.trans hstep
  · exact hsame.symm.trans hstep

theorem step_eq_of_refuse (hstep : stepWith refuse m = .ok () m')
    (store : MachineM Unit → MachineM Unit) : step m = stepWith store m :=
  (stepWith_of_refuse hstep id).trans (stepWith_of_refuse hstep store).symm

end MessageMachine.Machine
