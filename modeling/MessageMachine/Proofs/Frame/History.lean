import MessageMachine.Proofs.Frame.Collection
import MessageMachine.Proofs.Frame.Instructions
import MessageMachine.Proofs.Heap.Agreement
import MessageMachine.Proofs.Machine.Runs
import MessageMachine.Proofs.Schedule.Creation

/-!
# Executions

`Executed m` says that a machine is in a state of some execution: it was created, changed from outside
without touching contexts, started on methods, and then did housekeeping, collections and instructions
in any order, the instructions with their stores confined.

`Executed.contained` is the run lemma: every event of an execution leaves the machine contained.
`Executed.run` and `Executed.runMethod` show that whole runs are made of such events, also when they
end with a fault.
-/

namespace MessageMachine

open Boot

/-! ## A new machine -/

theorem ownTypes_plain : ∀ l ∈ ownTypes, l ∈ plainLandmarks ∧ l ≠ .processorScheduler := by decide

namespace Boot.Founded

variable {k : Landmarks} {h h₀ : Heap} {tables : Set Table} {entry interrupts input timer : Value}
  (hf : Founded k tables h₀ entry interrupts input timer h)
include hf

theorem no_context {c x : Value} {i : Nat} (hc : IsContext k h c) : h.fetchField c i ≠ .ok x := by
  intro hx
  obtain ⟨xs, hxs, -⟩ := Heap.fetchField_eq_ok.mp hx
  rcases hc with htype | htype
  · rcases hf.only_run (by decide) hxs htype with ⟨heq, -⟩ | ⟨heq, -⟩ <;> cases heq
  · rcases hf.only_run (by decide) hxs htype with ⟨heq, -⟩ | ⟨heq, -⟩ <;> cases heq

/-- The processor, its table, its process and its semaphores are filled with each other and nil. -/
theorem fills {x : Holder} {v new : Value} {i : Nat} {role : Role} (hx : x.Has k h v)
    (hrole : x.role i = some role) (hnew : h.fetchField v i = .ok new) : Fills k h role new := by
  obtain ⟨xs, hxs, hget⟩ := Heap.fetchField_eq_ok.mp hnew
  obtain ⟨hprocessor, hentry, htable, -, -⟩ := hf.fields
  obtain ⟨-, hentryType, -, hinputType, htimerType⟩ := hf.types
  cases x with
  | processor =>
      cases hx
      cases hprocessor.symm.trans hxs
      match i with
      | 0 =>
          cases hget
          cases hrole
          exact .inr hentryType
      | 1 => cases hrole
      | 2 | 3 =>
          cases hget
          exact .inl rfl
      | i + 4 => cases hget
  | interrupts =>
      obtain ⟨ys, hys, hfirst⟩ := Heap.fetchField_eq_ok.mp hx
      cases hprocessor.symm.trans hys
      cases hfirst
      cases htable.symm.trans hxs
      cases hrole
      match i with
      | 0 =>
          cases hget
          exact .inr htimerType
      | 1 =>
          cases hget
          exact .inr hinputType
      | i + 2 => cases hget
  | semaphore =>
      rw [hf.semaphore_fields hxs (.inl hx)] at hget
      match i with
      | 0 => cases hrole
      | 1 | 2 =>
          cases hget
          exact .inl rfl
      | i + 3 => cases hget
  | link => rcases hf.only_run (by decide) hxs hx with ⟨heq, -⟩ | ⟨heq, -⟩ <;> cases heq
  | process =>
      rcases hf.only_run (by decide) hxs hx with ⟨-, rfl⟩ | ⟨heq, -⟩
      · cases hentry.symm.trans hxs
        match i with
        | 0 =>
            cases hget
            exact .inl rfl
        | i + 1 => cases hrole
      · cases heq
  | context => exact absurd hnew (hf.no_context hx)

theorem framed : Framed .plain k h := by
  obtain ⟨hprocessorType, -, htableType, -, -⟩ := hf.types
  refine ⟨hf.guarded.grows.settled, hf.furnished.nil_empty, ?_, ⟨_, hprocessorType, ?_⟩, ?_,
    fun x v i role new hx hrole hnew => (hf.fills hx hrole hnew).suits, ?_, ?_, nofun⟩
  · exact fun l hl l' hl' => hf.apart l (ownTypes_plain l hl).1 l' (ownTypes_plain l' hl').1
  · intro l hl heq
    exact (ownTypes_plain l hl).2 (hf.apart _ (by decide) l (ownTypes_plain l hl).1 heq).symm
  · intro t ht
    obtain ⟨xs, hxs, hget⟩ := Heap.fetchField_eq_ok.mp ht
    cases hf.fields.1.symm.trans hxs
    cases hget
    exact htableType
  · exact fun c x htype hx => absurd hx (hf.no_context (.inl htype))
  · rintro c hc ⟨method, hmethod, -⟩
    exact absurd hmethod (hf.no_context hc)

end Boot.Founded

namespace Machine

variable {m m' m₁ : Machine} {strict : Bool} {g : Regime}

theorem contained_create {settings : Settings} (hcreate : create settings = .ok m) :
    Contained .plain m := by
  obtain ⟨k, h₁, h₀, entry, interrupts, input, timer, rfl, hregs, -, hf⟩ := nascent_create hcreate
  refine ⟨hf.framed, ?_, ?_, ?_⟩
  · rw [hregs]
    exact .inl ⟨rfl, rfl⟩
  · rw [hregs]
    exact hf.types.2.1
  · rw [hregs]
    exact .inl rfl

/-! ## Starting and collecting -/

theorem yields_startMethod (hm : Contained g m) (method receiver : Value) (arguments : List Value) :
    Yields (Moves g strict) (startMethod method receiver arguments) (fun _ _ => True) m := by
  refine (yields_entryContext hm method receiver arguments).stays_bind fun c m₁ hs₁ hc => ?_
  refine (yields_detachEntryProcess hs₁.contained).stays_bind fun _ m₂ hs₂ _ => ?_
  refine yields_get_bind (yields_landmark_bind ?_)
  have hentry : Suits g m₂.known m₂.heap .process m₂.regs.entryProcess := .inr hs₂.contained.entry
  refine (yields_storeActive hs₂.contained hentry).stays_bind fun _ m₃ hs₃ _ => ?_
  have hc₃ : Suits g m₃.known m₃.heap .context c := hs₃.fills (hs₂.fills (.inr hc))
  refine (yields_storeProcessContext hs₃.contained (hs₃.fills hentry) hc₃).stays_bind
    fun _ m₄ hs₄ _ => ?_
  refine (yields_modifySchedule hs₄.contained _).stays_bind fun _ m₅ hs₅ _ => ?_
  have hresult : Stays g strict m₅ { m₅ with regs.result := none } :=
    hs₅.contained.withRegs_of_sp ⟨rfl, rfl, rfl, rfl, rfl, rfl⟩ rfl rfl hs₅.contained.wait
  refine Yields.stays_bind (Q := fun _ m => m = { m₅ with regs.result := none }) ⟨hresult, rfl⟩
    fun _ m₆ hs₆ _ => ?_
  have hcontext : Live g m₆.known m₆.heap c := by
    have hstays := (hs₂.trans hs₃).trans (hs₄.trans hs₅)
    rw [hs₆.known, hstays.known]
    exact (hc.mono hstays.kept.types).mono hs₆.kept.types
  exact (yields_reload hs₆.contained hcontext).weaken (fun _ => id) fun _ _ _ _ => trivial

/-- After the heap has been collected the active context is loaded again. -/
theorem moves_collectGarbage {φ : Handle → Handle} (hm : Contained g m) {cycle : Heap.Cycle}
    (hflush : flush m = .ok () m₁) (hcollect : (m₁.heap.collect m₁.roots).result = .ok cycle)
    (hr : Relocated φ m₁ m₁.collected) :
    Contained (m₁.images φ g) m₁.collected ∧
      Moves (m₁.images φ g) strict m₁.collected (stateAfter (collectGarbage m)) := by
  have hsaved : Stays g true m m₁ := ((yields_flush hm).answer hflush).1
  have hcollected := hr.contained hsaved.contained
  refine ⟨hcollected, ?_⟩
  rw [collectGarbage_eq hflush hcollect]
  have hcache : Stays (m₁.images φ g) strict m₁.collected
      { m₁.collected with cache := m₁.collected.cache.flush } :=
    ⟨⟨hcollected.framed, hcollected.frame, hcollected.entry, hcollected.wait⟩, rfl, .refl .., .refl _,
      .of_contexts fun _ _ _ _ => id⟩
  have hrest : Yields (Moves (m₁.images φ g) strict) (do
      modify fun m => { m with cache := m.cache.flush }
      let context := (← get).regs.activeContext
      unless context = (← landmark .nil) do reload context
      return cycle) (fun _ _ => True) m₁.collected := by
    refine Yields.stays_bind (Q := fun _ m => Contained (m₁.images φ g) m)
      ⟨hcache, hcache.contained⟩ fun _ m₂ _ hm₂ => ?_
    refine yields_get_bind (yields_landmark_bind ?_)
    dsimp only
    split
    · exact Yields.pure (Stays.refl hm₂).moves trivial
    · next hne =>
      exact (yields_reload hm₂ (hm₂.fills_active.resolve_left hne)).bind_from fun _ m₃ hs₃ _ =>
        Yields.pure hs₃ trivial
  exact hrest.after

/-! ## Changes from outside -/

/-- A change of the heap that is allowed under the regime, perhaps with another result noted. -/
theorem moves_change (hm : Contained g m) (result : Option Value) (hknown : m'.known = m.known)
    (hregs : m'.regs = { m.regs with result }) (hg : Heap.Grows runLandmarks m.known m.heap m'.heap)
    (hp : Permits g m.known m.heap m'.heap) : Moves g true m m' := by
  obtain ⟨hf, hk⟩ := hm.framed.permitted hg hp
  have hothers : Dormant true m (m.withHeap m'.heap) :=
    .of_contexts fun c i x hc hx => (hp.contexts c i hc).trans hx
  have hheap : Stays g true m (m.withHeap m'.heap) := hm.withHeap hf hk hothers
  have hresult : Stays g true m { m.withHeap m'.heap with regs := { m.regs with result } } :=
    hheap.trans (hheap.contained.withRegs_of_sp ⟨rfl, rfl, rfl, rfl, rfl, rfl⟩ rfl rfl
      hheap.contained.wait)
  obtain ⟨-, hframe, hentry, hwait⟩ := hresult.contained
  refine ⟨?_, hknown, hk, fun c i x hc hne _ hx => .inl ((hp.contexts c i hc).trans hx)⟩
  constructor
  case framed => rw [hknown]; exact hf
  case frame => rw [hknown, hregs]; exact hframe
  case entry => rw [hknown, hregs]; exact hentry
  case wait => rw [hknown, hregs]; exact hwait

/-! ## Executions -/

/-- The machine is in a state of some execution. -/
inductive Executed : Machine → Prop where
  | created {settings : Settings} {m : Machine} : create settings = .ok m → Executed m
  /-- Anything that does not touch contexts, also outside of runs. -/
  | changed {m m' : Machine} (result : Option Value) : Executed m → m'.known = m.known →
      m'.regs = { m.regs with result } → Heap.Grows runLandmarks m.known m.heap m'.heap →
      Respects m.known m.heap m'.heap → Executed m'
  | started {m : Machine} (method receiver : Value) (arguments : List Value) :
      Executed m → Executed (stateAfter (startMethod method receiver arguments m))
  | housekept {m : Machine} (fuel : Nat) : Executed m → Executed (stateAfter (housekeeping fuel m))
  | collected {m : Machine} : Executed m → Collectable m → Executed (stateAfter (collectGarbage m))
  | stepped {m : Machine} : Executed m → step m = stepWith confine m →
      Executed (stateAfter (step m))

namespace Executed

theorem contained (hm : Executed m) : Contained .plain m := by
  induction hm with
  | created hcreate => exact contained_create hcreate
  | changed result _ hknown hregs hg hr ih =>
      exact (moves_change ih result hknown hregs hg hr.permits).contained
  | started method receiver arguments _ ih =>
      have hstarted : Moves .plain false _ _ := (yields_startMethod ih method receiver arguments).after
      exact hstarted.contained
  | housekept fuel _ ih =>
      have hkept : Moves .plain false _ _ := (yields_housekeeping ih fuel).after
      exact hkept.contained
  | @collected m _ hcollect ih =>
      cases hflush : flush m with
      | ok u m₁ =>
          obtain ⟨cycle, hcycle⟩ := hcollect m₁ hflush
          have hsaved : Stays .plain true _ _ := ((yields_flush ih).answer hflush).1
          obtain ⟨φ, hr⟩ := relocated_collected hsaved.contained.framed.settled hcycle
          have hmoves : Moves _ true _ _ := (moves_collectGarbage ih hflush hcycle hr).2
          exact hmoves.contained.fewer ⟨fun _ => False.elim, id⟩
      | error fault m₁ =>
          have hsaved : Stays .plain false _ _ := (yields_flush ih).after
          rw [hflush] at hsaved
          rw [collectGarbage_eq_error hflush]
          exact hsaved.contained
  | @stepped m _ hconfined ih =>
      have hstepped : Moves .plain false _ _ := moves_step guards_respects ih nofun
      rw [hconfined, confine_eq]
      exact hstepped.contained

/-- What leaves heap and registers alone leads on. -/
theorem counted (hm : Executed m) (result : Option Value) (hknown : m'.known = m.known)
    (hregs : m'.regs = { m.regs with result }) (hheap : m'.heap = m.heap) : Executed m' := by
  have hf := hm.contained.framed
  refine hm.changed result hknown hregs ?_ ?_
  · rw [hheap]
    exact .refl hf.settled
  · rw [hheap]
    exact ⟨fun _ _ _ => rfl, fun _ _ => rfl, rfl,
      fun x v i role new hx hrole hfetch => (hf.roles x v i role new hx hrole hfetch).fills⟩

/-- A store of a byte does not touch contexts. -/
theorem storeByte (hm : Executed m) (v : Value) (i : Nat) (b : UInt8) :
    Executed (stateAfter (onHeap (Heap.storeByte v i b) m)) := by
  have hsettled := hm.contained.framed.settled
  have hstays : Stays .plain true m _ :=
    (yields_onHeap hm.contained (.of_storeByte hsettled v i b)).after
  rw [stateAfter_onHeap] at hstays ⊢
  cases hrun : Heap.storeByte v i b m.heap with
  | error fault h =>
      obtain rfl := Heap.heap_of_change_error hrun
      exact hm
  | ok u h =>
      rw [hrun] at hstays
      have hagrees := Heap.agrees_storeByte hrun
      have hsame : ∀ x j, h.fetchField x j = m.heap.fetchField x j := by
        intro x j
        unfold Heap.fetchField
        rw [Heap.fields_storeByte hrun]
      have hf := hstays.contained.framed
      refine hm.changed m.regs.result rfl rfl ⟨hf.settled, ?_, ?_, ?_⟩
        ⟨fun c j _ => hsame c j, fun method _ => hsame method _, hsame _ _,
          fun x w j role new hx hrole hfetch => (hf.roles x w j role new hx hrole hfetch).fills⟩
      · exact fun w t ht => (hagrees.typeOf_eq w).trans ht
      · exact fun w n _ => by rw [stateAfter, withHeap_heap, hagrees.fieldCount_eq w]
      · intro w hnew l _ htype
        exact hnew _ ((hagrees.typeOf_eq w).symm.trans htype)

theorem keeps_tidy (fuel : Nat) : Keeps Executed (tidy fuel) := by
  have hticks : ∀ n : Nat → Nat,
      Keeps Executed (modify fun m => { m with ticks := n m.ticks } : MachineM Unit) :=
    fun n m hm => hm.counted m.regs.result rfl rfl rfl
  refine (hticks (· + 1)).bind fun _ => Keeps.bind (fun _ => id) fun m₀ => Keeps.ite ?_ (.pure _)
  exact (hticks fun _ => 0).bind fun _ m hm => hm.housekept fuel

/-- Executions last as long as a run whose stores are confined. -/
theorem lasting : Lasting confine Executed Executed fun _ => Executed where
  tidy fuel := (keeps_tidy fuel).ensures
  collect := Ensures.of_after fun _ hm => hm.1.collected hm.2
  step := Ensures.of_after fun _ hm => hm.1.stepped hm.2
  count _ hm := hm.counted none rfl rfl rfl
  outOfBudget _ := id

/-- Wherever a run ends, with a result or with a fault, the execution goes on from there. -/
theorem run (hm : Executed m) {budget : Nat} (hconfined : RunsAs confine budget m) :
    Executed (stateAfter (run budget m)) := lasting.run.after ⟨hm, hconfined⟩

theorem runMethod (hm : Executed m) {budget : Nat} (method receiver : Value)
    (arguments : List Value) (hconfined : ∀ m', startMethod method receiver arguments m = .ok () m' →
      RunsAs confine budget m') :
    Executed (stateAfter (runMethod budget method receiver arguments m)) := by
  have hstart : Keeps Executed (startMethod method receiver arguments) :=
    fun _ hm => hm.started method receiver arguments
  exact (lasting.runMethod hstart.ensures).after ⟨hm, hconfined⟩

end Executed

end Machine

end MessageMachine
