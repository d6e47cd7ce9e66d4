import MessageMachine.Proofs.Heap.Identity
import MessageMachine.Proofs.Schedule.Shield

/-!
# What stays through a collection

Root objects stay where they are, and a collection only replaces references into the ephemeral pool,
by others into the new one.  So between root objects and integers everything stays as it is, also when
the collection fails half-way.

* `Mobile v`: the value refers to an object that a collection may move.
* `Carried v v'`: what a collection may make of a value.
* `Permanence h h'`: what all collections have in common, as types and fields are read.

The one assumption (`StillTypes`) is that no object has a type that can be moved.
-/

namespace MessageMachine

/-! ## Values that move -/

namespace Value

/-- A reference into the ephemeral pool. -/
def Mobile (v : Value) : Prop := ∃ a, v.handle? = some a ∧ a.space = .ephemeral

/-- What does not move stays as it is, and what moves is still of the sort that moves. -/
def Carried (v v' : Value) : Prop := v' = v ∨ v.Mobile ∧ v'.Mobile

theorem Carried.refl (v : Value) : Carried v v := .inl rfl

theorem Carried.trans {v w u : Value} (hvw : Carried v w) (hwu : Carried w u) : Carried v u := by
  rcases hvw with rfl | ⟨hv, hw⟩
  · exact hwu
  · rcases hwu with rfl | ⟨-, hu⟩
    · exact .inr ⟨hv, hw⟩
    · exact .inr ⟨hv, hu⟩

theorem Carried.forall₂_trans {vs ws us : List Value} (hvw : List.Forall₂ Carried vs ws)
    (hwu : List.Forall₂ Carried ws us) : List.Forall₂ Carried vs us := by
  induction hvw generalizing us with
  | nil =>
      cases hwu
      exact .nil
  | cons hv _ ih =>
      cases hwu with
      | cons hw hws => exact .cons (hv.trans hw) (ih hws)

theorem Carried.eq_of_still {v v' : Value} (hc : Carried v v') (hv : ¬v.Mobile) : v' = v :=
  hc.resolve_right fun hmoved => hv hmoved.1

theorem mobile_relocate {v : Value} {a : Handle} (hv : v.Mobile) (ha : a.space = .ephemeral) :
    (v.relocate a).Mobile := by
  obtain ⟨b, hb, -⟩ := hv
  refine ⟨a, ?_, ha⟩
  cases v <;> cases hb <;> rfl

end Value

theorem not_mobile_of_handle {v : Value} {a : Handle} (ha : v.handle? = some a)
    (hspace : a.space = .root) : ¬v.Mobile := by
  rintro ⟨b, hb, hephemeral⟩
  cases ha.symm.trans hb
  rw [hspace] at hephemeral
  cases hephemeral

/-! ## Objects with moved references -/

namespace Object

theorem references_setReferences {o : Object} {vs : Array Value}
    (hsize : vs.size = o.references.length) : (o.setReferences vs).references = vs.toList := by
  obtain ⟨vs⟩ := vs
  obtain ⟨header, body⟩ := o
  cases vs with
  | nil => cases hsize
  | cons v vs =>
      cases body with
      | fields xs => simp [references, setReferences]
      | bytes xs =>
          obtain rfl : vs = [] := List.eq_nil_of_length_eq_zero (Nat.succ.inj hsize)
          rfl
      | words xs =>
          obtain rfl : vs = [] := List.eq_nil_of_length_eq_zero (Nat.succ.inj hsize)
          rfl

theorem setReferences_setReferences {o : Object} {vs ws : Array Value} (hpos : 0 < ws.size) :
    (o.setReferences vs).setReferences ws = o.setReferences ws := by
  obtain ⟨header, body⟩ := o
  cases body <;> simp [setReferences, Array.getD, hpos]

/-- The second object is the first after a collection has replaced its references. -/
def Carried (o o' : Object) : Prop :=
  ∃ vs : Array Value, List.Forall₂ Value.Carried o.references vs.toList ∧ o' = o.setReferences vs

theorem Carried.refl (o : Object) : Carried o o := by
  refine ⟨o.references.toArray, List.forall₂_same.mpr fun v _ => .refl v, ?_⟩
  obtain ⟨header, body⟩ := o
  cases body with
  | fields xs =>
      obtain ⟨xs⟩ := xs
      simp [setReferences, references]
  | bytes xs => rfl
  | words xs => rfl

theorem Carried.setReferences {o o' : Object} (hc : Carried o o') {ws : Array Value}
    (hws : List.Forall₂ Value.Carried o'.references ws.toList) : Carried o (o'.setReferences ws) := by
  obtain ⟨vs, hvs, rfl⟩ := hc
  have hpos : 0 < ws.size := by
    rw [← Array.length_toList, ← hws.length_eq]
    exact Nat.succ_pos _
  rw [references_setReferences hvs.length_eq.symm] at hws
  exact ⟨ws, Value.Carried.forall₂_trans hvs hws, setReferences_setReferences hpos⟩

/-- A type that cannot be moved is still the type. -/
theorem Carried.type_eq {o o' : Object} (hc : Carried o o') (htype : ¬o.header.type.Mobile) :
    o'.header.type = o.header.type := by
  obtain ⟨⟨vs⟩, hvs, rfl⟩ := hc
  cases hvs with
  | cons hv _ => exact hv.eq_of_still htype

theorem Carried.fields {o o' : Object} (hc : Carried o o') {xs : Array Value}
    (hxs : o.body = .fields xs) : ∃ ys : Array Value, o'.body = .fields ys ∧
      List.Forall₂ Value.Carried xs.toList ys.toList := by
  obtain ⟨⟨vs⟩, hvs, rfl⟩ := hc
  obtain ⟨header, body⟩ := o
  obtain rfl : body = .fields xs := hxs
  cases hvs with
  | @cons _ w _ ws _ hws =>
      refine ⟨_, rfl, ?_⟩
      simpa using hws

theorem Carried.fields_back {o o' : Object} (hc : Carried o o') {ys : Array Value}
    (hys : o'.body = .fields ys) : ∃ xs : Array Value, o.body = .fields xs ∧
      List.Forall₂ Value.Carried xs.toList ys.toList := by
  cases hbody : o.body with
  | fields xs =>
      obtain ⟨ys', hys', hall⟩ := hc.fields hbody
      cases hys.symm.trans hys'
      exact ⟨xs, rfl, hall⟩
  | bytes xs =>
      obtain ⟨vs, -, rfl⟩ := hc
      obtain ⟨header, body⟩ := o
      obtain rfl : body = .bytes xs := hbody
      cases hys
  | words xs =>
      obtain ⟨vs, -, rfl⟩ := hc
      obtain ⟨header, body⟩ := o
      obtain rfl : body = .words xs := hbody
      cases hys

end Object

/-! ## The invariant of a collection -/

namespace Heap

variable {h h' : Heap}

/-- No object has a type that can be moved. -/
def StillTypes (h : Heap) : Prop := ∀ u t, h.typeOf u = .ok t → ¬t.Mobile

/-- The type of an object in the ephemeral pool. -/
def EphemeralType (h : Heap) (t : Value) : Prop :=
  ∃ a, a.space = .ephemeral ∧ h.typeOf (.object a) = .ok t

/-- A collection under way carries the root objects along, and copies objects with their types. -/
structure Carrying (h : Heap) (e : Evacuation) : Prop where
  target_space : e.target.space = .ephemeral
  forwarded : ∀ s i o copy, e.source.at? s i = some o → o.header.state = .forwarded copy →
    copy.space = .ephemeral
  source_types : ∀ s i o, e.source.at? s i = some o → EphemeralType h o.header.type
  target_types : ∀ s i o, e.target.at? s i = some o → EphemeralType h o.header.type
  root_space : e.root.space = .root
  root_epoch : e.root.epoch = h.root.epoch
  root : ∀ s i o, h.root.at? s i = some o → ∃ o', e.root.at? s i = some o' ∧ o.Carried o'
  root_back : ∀ s i o', e.root.at? s i = some o' → ∃ o, h.root.at? s i = some o

theorem carried_of_evacuate {e e' : Evacuation} (he : Carrying h e) {v v' : Value}
    (hrun : Evacuation.evacuate v e = .ok v' e') : v.Carried v' := by
  unfold Evacuation.evacuate at hrun
  cases hv : v.handle? with
  | none =>
      rw [hv] at hrun
      cases hrun
      exact .refl v
  | some a =>
      rw [hv] at hrun
      dsimp only at hrun
      split at hrun
      · cases hrun
        exact .refl v
      next hspace =>
      have hmobile : v.Mobile := by
        refine ⟨a, hv, ?_⟩
        cases hs : a.space with
        | root => exact absurd hs hspace
        | ephemeral => rfl
      cases hget : e.source.get a with
      | error fault =>
          rw [hget] at hrun
          cases hrun
      | ok o =>
          rw [hget] at hrun
          dsimp only at hrun
          split at hrun
          · next copy hstate =>
            cases hrun
            have hat := (Pool.get_eq_ok_iff.mp hget).2.2
            exact .inr ⟨hmobile, Value.mobile_relocate hmobile (he.forwarded _ _ _ _ hat hstate)⟩
          · cases hrun
            exact .refl v
          · split at hrun
            · cases hrun
            · next copy hreserve =>
              cases hrun
              refine .inr ⟨hmobile, Value.mobile_relocate hmobile ?_⟩
              exact (Pool.space_of_reserve hreserve).trans he.target_space

theorem carried_of_evacuated {v v' : Value} (hv : Evacuation.Evacuated (Carrying h) v v') :
    v.Carried v' := by
  rcases hv with rfl | ⟨e, e', he, hrun⟩
  · exact .refl _
  · exact carried_of_evacuate he hrun

theorem invariant_carrying (hstill : StillTypes h) : Evacuation.Invariant (Carrying h) where
  copied {e a copy o} he hget _ hreserve := by
    have hcopy := (Pool.space_of_reserve hreserve).trans he.target_space
    have htype := he.source_types _ _ _ (Pool.get_eq_ok_iff.mp hget).2.2
    refine ⟨(Pool.space_push ..).trans he.target_space, ?_, ?_, ?_, he.root_space, he.root_epoch,
      he.root, he.root_back⟩
    · intro s i found copy' hat hstate
      rw [Pool.at?_update] at hat
      split at hat
      · obtain ⟨old, -, rfl⟩ := Option.map_eq_some_iff.mp hat
        cases hstate
        exact hcopy
      · exact he.forwarded s i found copy' hat hstate
    · intro s i found hat
      rw [Pool.at?_update] at hat
      split at hat
      · obtain ⟨old, hold, rfl⟩ := Option.map_eq_some_iff.mp hat
        exact he.source_types _ _ old hold
      · exact he.source_types s i found hat
    · intro s i found hat
      rw [Pool.at?_push hreserve] at hat
      split at hat
      · cases hat
        exact htype
      · exact he.target_types s i found hat
  rootScanned {e s i found vs} he hfound hall := by
    have hcarried := hall.imp fun _ _ => carried_of_evacuated
    refine ⟨he.target_space, he.forwarded, he.source_types, he.target_types, he.root_space,
      he.root_epoch, ?_, ?_⟩
    · intro s' i' o ho
      obtain ⟨o', ho', hc⟩ := he.root s' i' o ho
      by_cases hplace : s' = s ∧ i' = i
      · obtain ⟨rfl, rfl⟩ := hplace
        cases hfound.symm.trans ho'
        refine ⟨found.setReferences vs, ?_, hc.setReferences hcarried⟩
        rw [Pool.at?_update_self, ho', Option.map_some]
      · exact ⟨o', (Pool.at?_update_of_ne _ _ hplace).trans ho', hc⟩
    · intro s' i' o' ho'
      rw [Pool.at?_update] at ho'
      split at ho'
      · next hplace =>
        obtain ⟨rfl, rfl⟩ := hplace
        obtain ⟨old, hold, -⟩ := Option.map_eq_some_iff.mp ho'
        exact he.root_back _ _ old hold
      · exact he.root_back s' i' o' ho'
  copyScanned {e s i o f} he hat _ htype := by
    refine ⟨he.target_space, he.forwarded, he.source_types, ?_, he.root_space, he.root_epoch, he.root,
      he.root_back⟩
    intro s' i' found hfound
    change (e.target.update s i f).at? s' i' = some found at hfound
    rw [Pool.at?_update] at hfound
    split at hfound
    · next hplace =>
      obtain ⟨rfl, rfl⟩ := hplace
      obtain ⟨old, hold, rfl⟩ := Option.map_eq_some_iff.mp hfound
      cases hat.symm.trans hold
      have hold := he.target_types _ _ _ hat
      obtain ⟨a, -, ha⟩ := id hold
      rw [(carried_of_evacuated htype).eq_of_still (hstill _ _ ha)]
      exact hold
    · exact he.target_types s' i' found hfound

/-! ## What a collection leaves -/

/-- Root objects keep their types and, between each other, their fields; an object that has been moved
has the type of one that there was. -/
structure Permanence (h h' : Heap) : Prop where
  settled : h'.Settled
  types : ∀ v t, ¬v.Mobile → h.typeOf v = .ok t → h'.typeOf v = .ok t
  types_back : ∀ v t, ¬v.Mobile → h'.typeOf v = .ok t → h.typeOf v = .ok t
  types_moved : ∀ v t, v.Mobile → h'.typeOf v = .ok t → EphemeralType h t
  fields : ∀ v i x, ¬v.Mobile → h.fetchField v i = .ok x →
    ∃ x', h'.fetchField v i = .ok x' ∧ x.Carried x'
  fields_back : ∀ v i x', ¬v.Mobile → h'.fetchField v i = .ok x' →
    ∃ x, h.fetchField v i = .ok x ∧ x.Carried x'

/-- The root pool answers the same handles as before. -/
theorem resolve_of_carrying {e : Evacuation} (he : Carrying h e) (hsettled : h.Settled)
    (hroot : h'.root = e.root) {a : Handle} (hspace : a.space = .root) :
    (∀ o, h.resolve a = .ok o → ∃ o', h'.resolve a = .ok o' ∧ o.Carried o') ∧
      ∀ o', h'.resolve a = .ok o' → ∃ o, h.resolve a = .ok o ∧ o.Carried o' := by
  unfold resolve
  rw [hspace]
  change (∀ o, h.root.get a = .ok o → ∃ o', h'.root.get a = .ok o' ∧ o.Carried o') ∧
    ∀ o', h'.root.get a = .ok o' → ∃ o, h.root.get a = .ok o ∧ o.Carried o'
  rw [hroot]
  simp only [Pool.get_eq_ok_iff, he.root_space, he.root_epoch, hsettled.root_space]
  constructor
  · rintro o ⟨hs, hepoch, hat⟩
    obtain ⟨o', ho', hc⟩ := he.root _ _ o hat
    exact ⟨o', ⟨hs, hepoch, ho'⟩, hc⟩
  · rintro o' ⟨hs, hepoch, hat⟩
    obtain ⟨o, ho⟩ := he.root_back _ _ o' hat
    obtain ⟨o'', ho'', hc⟩ := he.root _ _ o ho
    cases hat.symm.trans ho''
    exact ⟨o, ⟨hs, hepoch, ho⟩, hc⟩

theorem space_of_still {v : Value} (hv : ¬v.Mobile) {a : Handle} (ha : v.handle? = some a) :
    a.space = .root := by
  cases hs : a.space with
  | root => rfl
  | ephemeral => exact absurd ⟨a, ha, hs⟩ hv

theorem forall₂_getElem? {xs ys : Array Value}
    (hall : List.Forall₂ Value.Carried xs.toList ys.toList) (i : Nat) :
    (∀ x, xs[i]? = some x → ∃ y, ys[i]? = some y ∧ x.Carried y) ∧
      ∀ y, ys[i]? = some y → ∃ x, xs[i]? = some x ∧ x.Carried y := by
  obtain ⟨hlength, hget⟩ := List.forall₂_iff_get.mp hall
  simp only [← Array.getElem?_toList, List.getElem?_eq_some_iff]
  constructor
  · rintro x ⟨hi, rfl⟩
    exact ⟨_, ⟨hlength ▸ hi, rfl⟩, hget i hi (hlength ▸ hi)⟩
  · rintro y ⟨hi, rfl⟩
    exact ⟨_, ⟨hlength ▸ hi, rfl⟩, hget i (hlength ▸ hi) hi⟩

theorem carrying_startEvacuation (hsettled : h.Settled) : Carrying h h.startEvacuation := by
  refine ⟨rfl, ?_, ?_, ?_, hsettled.root_space, rfl, fun _ _ o ho => ⟨o, ho, .refl o⟩,
    fun _ _ o ho => ⟨o, ho⟩⟩
  · intro s i o copy hat hstate
    cases (hsettled.live s i o hat).symm.trans hstate
  · intro s i o hat
    refine ⟨⟨.ephemeral, h.ephemeral.epoch, s, i⟩, rfl, typeOf_eq_ok.mpr ⟨_, o, rfl, ?_, rfl⟩⟩
    exact Pool.get_eq_ok_iff.mpr ⟨hsettled.ephemeral_space.symm, rfl, hat⟩
  · intro s i o hat
    cases s with
    | zero => simp [startEvacuation, Pool.empty, Pool.at?_eq, Segment.empty] at hat
    | succ s => simp [startEvacuation, Pool.empty, Pool.at?_eq] at hat

/-- What stays through a collection, whether it succeeds or fails. -/
theorem permanence_collect (hsettled : h.Settled) (hstill : StillTypes h) (roots : List Value) :
    Permanence h (h.collect roots).heap := by
  obtain ⟨e, he, hroot, hephemeral, -⟩ := 
    (invariant_carrying hstill).collect (carrying_startEvacuation hsettled) roots
  have hresolve := fun {a : Handle} (ha : a.space = .root) =>
    resolve_of_carrying he hsettled hroot ha
  refine ⟨settled_collect hsettled roots, ?_, ?_, ?_, ?_, ?_⟩
  · intro v t hv ht
    obtain ⟨a, o, ha, ho, rfl⟩ := typeOf_eq_ok.mp ht
    obtain ⟨o', ho', hc⟩ := (hresolve (space_of_still hv ha)).1 o ho
    exact typeOf_eq_ok.mpr ⟨a, o', ha, ho', hc.type_eq (hstill v _ ht)⟩
  · intro v t hv ht
    obtain ⟨a, o', ha, ho', rfl⟩ := typeOf_eq_ok.mp ht
    obtain ⟨o, ho, hc⟩ := (hresolve (space_of_still hv ha)).2 o' ho'
    have htype : h.typeOf v = .ok o.header.type := typeOf_eq_ok.mpr ⟨a, o, ha, ho, rfl⟩
    rw [htype, hc.type_eq (hstill v _ htype)]
  · intro v t hv ht
    obtain ⟨a, o', ha, ho', rfl⟩ := typeOf_eq_ok.mp ht
    obtain ⟨b, hb, hspace⟩ := hv
    cases ha.symm.trans hb
    unfold resolve at ho'
    rw [hspace] at ho'
    change (h.collect roots).heap.ephemeral.get a = .ok o' at ho'
    rw [hephemeral] at ho'
    exact he.target_types _ _ _ (Pool.get_eq_ok_iff.mp ho').2.2
  · intro v i x hv hx
    obtain ⟨xs, hxs, hget⟩ := fetchField_eq_ok.mp hx
    obtain ⟨a, o, rfl, ho, hbody⟩ := fields_eq_ok.mp hxs
    obtain ⟨o', ho', hc⟩ := (hresolve (space_of_still hv rfl)).1 o ho
    obtain ⟨ys, hys, hall⟩ := hc.fields hbody
    obtain ⟨y, hy, hcarried⟩ := (forall₂_getElem? hall i).1 x hget
    exact ⟨y, fetchField_eq_ok.mpr ⟨ys, fields_eq_ok.mpr ⟨a, o', rfl, ho', hys⟩, hy⟩, hcarried⟩
  · intro v i y hv hy
    obtain ⟨ys, hys, hget⟩ := fetchField_eq_ok.mp hy
    obtain ⟨a, o', rfl, ho', hbody⟩ := fields_eq_ok.mp hys
    obtain ⟨o, ho, hc⟩ := (hresolve (space_of_still hv rfl)).2 o' ho'
    obtain ⟨xs, hxs, hall⟩ := hc.fields_back hbody
    obtain ⟨x, hx, hcarried⟩ := (forall₂_getElem? hall i).2 y hget
    exact ⟨x, fetchField_eq_ok.mpr ⟨xs, fields_eq_ok.mpr ⟨a, o, rfl, ho, hxs⟩, hx⟩, hcarried⟩

/-- The roots are carried along, also when the collection fails. -/
theorem roots_collect (hsettled : h.Settled) (hstill : StillTypes h) (roots : List Value) :
    List.Forall₂ Value.Carried roots (h.collect roots).roots := by
  have hroots : (h.collect roots).roots =
      (Evacuation.relocateEach roots h.startEvacuation).1.toList := by
    unfold collect
    split
    · next hrelocate => rw [hrelocate]
    · next hrelocate =>
      rw [hrelocate]
      split <;> rfl
  rw [hroots]
  exact ((invariant_carrying hstill).forall₂_relocateEach roots
    (carrying_startEvacuation hsettled)).imp fun _ _ => carried_of_evacuated

end Heap

end MessageMachine
