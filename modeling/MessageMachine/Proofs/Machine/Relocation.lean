import MessageMachine.Machine.Run
import MessageMachine.Proofs.Machine.Access

/-!
# Machines and collections

A collection moves the objects of the heap and has the machine replace its registers, its landmarks
and its pins.  `Relocated φ m m'` says that `m'` is what this leaves of `m`: the heap is relocated
along `φ`, and whatever the machine holds is the old value with its handle replaced.

Reading through a relocation goes both ways: what the new heap holds at a kept value is the image of
what the old heap held there, and every object of the new heap is the image of a kept one
(`Heap.Relocation.exists_kept`).
-/

namespace MessageMachine

namespace Heap.Relocation

variable {h h' : Heap} {roots roots' : List Value} {φ : Handle → Handle}

/-! ## Reading backwards -/

theorem resolve_back (hr : Relocation h roots h' roots' φ) (hsettled : h.Settled)
    (hsettled' : h'.Settled) {v : Value} (hkept : Kept h roots v) {a : Handle}
    (ha : v.handle? = some a) {o' : Object} (ho' : h'.resolve (φ a) = .ok o') :
    ∃ o, h.resolve a = .ok o ∧ o' = o.map φ := by
  suffices hold : ∃ o, h.resolve a = .ok o by
    obtain ⟨o, ho⟩ := hold
    refine ⟨o, ho, ?_⟩
    rw [hr.resolve_map hsettled' hkept ha ho] at ho'
    exact (Except.ok.inj ho').symm
  cases hspace : a.space with
  | ephemeral =>
      obtain ⟨o, ho, -⟩ := hr.get_copy a (hkept a ⟨ha, hspace⟩)
      refine ⟨o, ?_⟩
      unfold resolve
      rw [hspace]
      exact ho
  | root =>
      unfold resolve at ho' ⊢
      rw [hr.fixes_root a hspace, hspace] at ho'
      obtain ⟨-, hepoch, hat⟩ := Pool.get_eq_ok_iff.mp ho'
      change h'.root.at? a.segment a.index = some o' at hat
      rw [hr.root_at?] at hat
      obtain ⟨o, ho, -⟩ := Option.map_eq_some_iff.mp hat
      refine ⟨o, ?_⟩
      rw [hspace]
      exact Pool.get_eq_ok_iff.mpr
        ⟨hspace.trans hsettled.root_space.symm, hepoch.trans hr.root_epoch, ho⟩

theorem typeOf_map (hr : Relocation h roots h' roots' φ) (hsettled' : h'.Settled) {v t : Value}
    (hkept : Kept h roots v) (htype : h.typeOf v = .ok t) :
    h'.typeOf (v.map φ) = .ok (t.map φ) := by
  obtain ⟨a, o, ha, ho, rfl⟩ := typeOf_eq_ok.mp htype
  refine typeOf_eq_ok.mpr ⟨φ a, o.map φ, ?_, hr.resolve_map hsettled' hkept ha ho, rfl⟩
  rw [Value.handle?_map, ha]
  rfl

theorem kept_of_typeOf {v t : Value} (hkept : Kept h roots v) (htype : h.typeOf v = .ok t) :
    Kept h roots t := by
  obtain ⟨a, o, ha, ho, rfl⟩ := typeOf_eq_ok.mp htype
  exact hkept.of_references ha ho (List.mem_cons_self ..)

theorem typeOf_back (hr : Relocation h roots h' roots' φ) (hsettled : h.Settled)
    (hsettled' : h'.Settled) {v t' : Value} (hkept : Kept h roots v)
    (htype : h'.typeOf (v.map φ) = .ok t') : ∃ t, h.typeOf v = .ok t ∧ t.map φ = t' := by
  obtain ⟨b, o', hb, ho', rfl⟩ := typeOf_eq_ok.mp htype
  rw [Value.handle?_map] at hb
  obtain ⟨a, ha, rfl⟩ := Option.map_eq_some_iff.mp hb
  obtain ⟨o, ho, rfl⟩ := hr.resolve_back hsettled hsettled' hkept ha ho'
  exact ⟨_, typeOf_eq_ok.mpr ⟨a, o, ha, ho, rfl⟩, rfl⟩

/-- A kept value has the image of a kept type exactly if it had that type. -/
theorem typeOf_iff (hr : Relocation h roots h' roots' φ) (hsettled : h.Settled)
    (hsettled' : h'.Settled) {v t : Value} (hkept : Kept h roots v) (ht : Kept h roots t) :
    h'.typeOf (v.map φ) = .ok (t.map φ) ↔ h.typeOf v = .ok t := by
  refine ⟨fun htype => ?_, hr.typeOf_map hsettled' hkept⟩
  obtain ⟨t₀, ht₀, heq⟩ := hr.typeOf_back hsettled hsettled' hkept htype
  rwa [← hr.map_injective hsettled' (kept_of_typeOf hkept ht₀) ht heq]

theorem fields_back (hr : Relocation h roots h' roots' φ) (hsettled : h.Settled)
    (hsettled' : h'.Settled) {v : Value} (hkept : Kept h roots v) {ys : Array Value}
    (hfields : h'.fields (v.map φ) = .ok ys) : ∃ xs, h.fields v = .ok xs ∧ ys = xs.map (·.map φ) := by
  obtain ⟨b, o', hv, ho', hbody⟩ := fields_eq_ok.mp hfields
  cases v with
  | object a =>
      cases hv
      obtain ⟨o, ho, rfl⟩ := hr.resolve_back hsettled hsettled' hkept rfl ho'
      cases hold : o.body with
      | fields xs =>
          refine ⟨xs, fields_eq_ok.mpr ⟨a, o, rfl, ho, hold⟩, ?_⟩
          simp only [Object.map, hold, Body.fields.injEq] at hbody
          exact hbody.symm
      | bytes xs => simp [Object.map, hold] at hbody
      | words xs => simp [Object.map, hold] at hbody
  | int n => cases hv
  | bytes a => cases hv
  | words a => cases hv

theorem fetchField_back (hr : Relocation h roots h' roots' φ) (hsettled : h.Settled)
    (hsettled' : h'.Settled) {v : Value} (hkept : Kept h roots v) {i : Nat} {x' : Value}
    (hfetch : h'.fetchField (v.map φ) i = .ok x') :
    ∃ x, h.fetchField v i = .ok x ∧ x.map φ = x' := by
  obtain ⟨ys, hys, hx'⟩ := fetchField_eq_ok.mp hfetch
  obtain ⟨xs, hxs, rfl⟩ := hr.fields_back hsettled hsettled' hkept hys
  rw [Array.getElem?_map] at hx'
  obtain ⟨x, hx, rfl⟩ := Option.map_eq_some_iff.mp hx'
  exact ⟨x, fetchField_eq_ok.mpr ⟨xs, hxs, hx⟩, rfl⟩

/-- A kept object has the image of a kept value in a field exactly if it had that value. -/
theorem fetchField_iff (hr : Relocation h roots h' roots' φ) (hsettled : h.Settled)
    (hsettled' : h'.Settled) {v x : Value} (hkept : Kept h roots v) (hx : Kept h roots x) {i : Nat} :
    h'.fetchField (v.map φ) i = .ok (x.map φ) ↔ h.fetchField v i = .ok x := by
  refine ⟨fun hfetch => ?_, hr.fetchField_map hsettled' hkept⟩
  obtain ⟨y, hy, heq⟩ := hr.fetchField_back hsettled hsettled' hkept hfetch
  rwa [← hr.map_injective hsettled' (hkept.of_fetchField hy) hx heq]

theorem fieldCount_map (hr : Relocation h roots h' roots' φ) (hsettled' : h'.Settled) {v : Value}
    (hkept : Kept h roots v) {n : Nat} (hcount : h.fieldCount v = .ok n) :
    h'.fieldCount (v.map φ) = .ok n := by
  obtain ⟨xs, hxs, rfl⟩ := fieldCount_eq_ok.mp hcount
  exact fieldCount_eq_ok.mpr ⟨_, hr.fields_map hsettled' hkept hxs, Array.size_map ..⟩

/-- Every object of the new heap is the image of a kept one. -/
theorem exists_kept (hr : Relocation h roots h' roots' φ) {v' t' : Value}
    (htype : h'.typeOf v' = .ok t') :
    ∃ v, Kept h roots v ∧ v.map φ = v' := by
  obtain ⟨b, o', hb, ho', -⟩ := typeOf_eq_ok.mp htype
  cases hspace : b.space with
  | root =>
      refine ⟨v', ?_, Value.map_eq_self fun a ha => ?_⟩
      · rintro a ⟨ha, hephemeral⟩
        cases hb.symm.trans ha
        rw [hspace] at hephemeral
        cases hephemeral
      · cases hb.symm.trans ha
        exact hr.fixes_root b hspace
  | ephemeral =>
      unfold resolve at ho'
      rw [hspace] at ho'
      obtain ⟨a, hreach, rfl⟩ := hr.bijOn.surjOn ⟨o', ho'⟩
      have hhandle : (v'.relocate a).handle? = some a := by
        cases v' <;> cases hb <;> rfl
      refine ⟨v'.relocate a, ?_, ?_⟩
      · rintro c ⟨hc, -⟩
        cases hhandle.symm.trans hc
        exact hreach
      · cases v' <;> cases hb <;> rfl

end Heap.Relocation

/-! ## What the machine holds -/

/-- The registers with their handles replaced. -/
def Registers.map (φ : Handle → Handle) (r : Registers) : Registers :=
  { r with
    activeContext := r.activeContext.map φ
    homeContext := r.homeContext.map φ
    method := r.method.map φ
    receiver := r.receiver.map φ
    code := r.code.map φ
    entryProcess := r.entryProcess.map φ
    entryWait := r.entryWait.map φ }

/-- Landmarks refilled with the images of their values are the images. -/
theorem Landmarks.refill_map (k : Landmarks) (f : Value → Value) (rest : List Value)
    (l : Landmark) : k.refill (k.toList.map f ++ rest) l = f (k l) := by
  have hlength : l.index.val < k.values.toList.length := by
    rw [Vector.length_toList]
    exact l.index.isLt
  have hget : (k.toList.map f ++ rest)[l.index.val]? = some (f (k l)) := by
    rw [List.getElem?_append_left (by simp [toList]), List.getElem?_map, toList,
      List.getElem?_eq_getElem hlength]
    simp [get]
  simp only [refill, get, Fin.getElem_fin, Vector.getElem_mapIdx, Array.getD_eq_getD_getElem?,
    List.getElem?_toArray]
  rw [hget]
  rfl

namespace Machine

/-- What a collection leaves of a machine. -/
structure Relocated (φ : Handle → Handle) (m m' : Machine) : Prop where
  heap : Heap.Relocation m.heap m.roots m'.heap (m.roots.map (·.map φ)) φ
  settled : m.heap.Settled
  settled' : m'.heap.Settled
  known : ∀ l, m'.known l = (m.known l).map φ
  regs : m'.regs = m.regs.map φ
  schedule : m'.schedule = m.schedule
  settings : m'.settings = m.settings

/-- The machine after the heap has been collected, with its roots replaced. -/
def collected (m : Machine) : Machine :=
  { m.setRoots (m.heap.collect m.roots).roots with heap := (m.heap.collect m.roots).heap }

theorem relocated_of_relocation {m : Machine} {φ : Handle → Handle} (hsettled : m.heap.Settled)
    (hr : Heap.Relocation m.heap m.roots (m.heap.collect m.roots).heap
      (m.heap.collect m.roots).roots φ) : Relocated φ m m.collected := by
  have hroots := hr.roots_eq
  have hr' : Heap.Relocation m.heap m.roots m.collected.heap (m.roots.map (·.map φ)) φ := by
    rw [← hroots]
    exact hr
  refine ⟨hr', hsettled, Heap.settled_collect hsettled m.roots, ?_, ?_, ?_, ?_⟩
  · intro l
    unfold collected
    rw [hroots]
    simp only [roots, List.map_append, List.map_cons, List.cons_append,
      List.nil_append, setRoots]
    exact m.known.refill_map _ _ l
  all_goals
    unfold collected
    rw [hroots]
    rfl

theorem exists_relocation {m : Machine} (hsettled : m.heap.Settled) {cycle : Heap.Cycle}
    (hcollect : (m.heap.collect m.roots).result = .ok cycle) : ∃ φ,
      Heap.Relocation m.heap m.roots (m.heap.collect m.roots).heap
        (m.heap.collect m.roots).roots φ :=
  Heap.collect_relocates hsettled
    (show m.heap.collect m.roots = ⟨.ok cycle, (m.heap.collect m.roots).roots,
      (m.heap.collect m.roots).heap⟩ by rw [← hcollect])

theorem relocated_collected {m : Machine} (hsettled : m.heap.Settled) {cycle : Heap.Cycle}
    (hcollect : (m.heap.collect m.roots).result = .ok cycle) : ∃ φ, Relocated φ m m.collected := by
  obtain ⟨φ, hr⟩ := exists_relocation hsettled hcollect
  exact ⟨φ, relocated_of_relocation hsettled hr⟩

/-- What the machine holds is kept. -/
theorem kept_known (m : Machine) (l : Landmark) :
    Heap.Kept m.heap m.roots (m.known l) := by
  refine Heap.kept_of_mem ?_
  simp only [roots, List.mem_append]
  refine .inl (.inr ?_)
  simp [Landmarks.toList, Landmarks.get]

end Machine

end MessageMachine
