import MessageMachine.Proofs.Lookup.Upkeep

/-!
# The first types are a hierarchy

Booting makes the first types one after another, each below one that was made before.  Until all of
them are there, the two trees of types and of metatypes are apart, `Metaclass` has no supertype, and
the three singletons have a number in the place of their type.

* `Barren k h`: the singletons and `Metaclass` have been made.
* `Sown k made m h`: the types of `made` have been made as well; `m` is the metatype of `Object`, where
  the chains of metatypes end for now.
* `Family.graft`: what becomes of a family when its metatypes are put below `Class`.
* `hierarchy_types`: what the making of all types leaves, once the singletons have got their types.
-/

namespace MessageMachine

open Boot (placeholder)

variable {k k' : Landmarks} {h h' : Heap}

/-! ## Types of single objects -/

/-- Only the object itself gets another type. -/
theorem Heap.typeOf_of_setType {v type u t : Value} {r : Unit}
    (hset : setType v type h = .ok r h') (ht : h'.typeOf u = .ok t) :
    h.typeOf u = .ok t ∧ u.handle? ≠ v.handle? ∨ u.handle? = v.handle? ∧ t = type := by
  obtain ⟨⟨o, ho⟩, hupdate⟩ := change_eq_ok hset
  obtain ⟨a, ha, ho⟩ := object_eq_ok.mp ho
  obtain rfl := hupdate a ha
  have hput := putAt_update ho (·.setType type)
  obtain ⟨b, o', hb, ho', rfl⟩ := typeOf_eq_ok.mp ht
  by_cases heq : b = a
  · subst heq
    rw [hput.resolve_self] at ho'
    cases ho'
    exact .inr ⟨hb.trans ha.symm, rfl⟩
  · rw [hput.resolve_of_ne heq] at ho'
    refine .inl ⟨typeOf_eq_ok.mpr ⟨b, o', hb, ho', rfl⟩, fun hsame => heq ?_⟩
    exact Option.some.inj (hb.symm.trans (hsame.trans ha))

theorem Heap.typeOf_setType_of_ne {v type u t : Value} {r : Unit}
    (hset : setType v type h = .ok r h') (hne : u.handle? ≠ v.handle?) (ht : h.typeOf u = .ok t) :
    h'.typeOf u = .ok t := by
  obtain ⟨⟨o, ho⟩, hupdate⟩ := change_eq_ok hset
  obtain ⟨a, ha, ho⟩ := object_eq_ok.mp ho
  obtain rfl := hupdate a ha
  have hput := putAt_update ho (·.setType type)
  obtain ⟨b, o', hb, ho', rfl⟩ := typeOf_eq_ok.mp ht
  refine typeOf_eq_ok.mpr ⟨b, o', hb, ?_, rfl⟩
  rw [hput.resolve_of_ne, ho']
  rintro rfl
  exact hne (hb.trans ha.symm)

/-- The type of a value is that of the object at its handle. -/
theorem Heap.typeOf_congr {u v t : Value} (hhandle : u.handle? = v.handle?)
    (ht : h.typeOf u = .ok t) : h.typeOf v = .ok t := by
  obtain ⟨a, o, ha, ho, rfl⟩ := typeOf_eq_ok.mp ht
  exact typeOf_eq_ok.mpr ⟨a, o, hhandle ▸ ha, ho, rfl⟩

/-- Fields do not depend on types. -/
theorem Heap.Retyped.fetchField_iff {v type : Value} (hr : Heap.Retyped h v type h') {u x : Value}
    {i : Nat} : h'.fetchField u i = .ok x ↔ h.fetchField u i = .ok x := by
  simp only [Heap.fetchField_eq_ok, hr.fields]

/-! ## Before the types -/

/-- The objects that have a number in the place of their type. -/
def singletonLandmarks : List Landmark := [.nil, .true, .false]

/-- The singletons and `Metaclass` have been made. -/
structure Barren (k : Landmarks) (h : Heap) : Prop where
  settled : h.Settled
  nil_rooted : (k .nil).Rooted
  singles : ∀ l ∈ singletonLandmarks, h.typeOf (k l) = .ok placeholder
  metaclass_rooted : (k .metaclass).Rooted ∧ k .metaclass ≠ k .nil
  self : h.typeOf (k .metaclass) = .ok (k .metaclass)
  typed : ∀ u t, h.typeOf u = .ok t →
    (t = placeholder ∧ ∃ l ∈ singletonLandmarks, u.handle? = (k l).handle?) ∨
    t = k .metaclass ∧ u.handle? = (k .metaclass).handle?
  unfilled : h.fetchField (k .metaclass) Slot.supertype = .ok (k .nil)

theorem barren_singletons (hempty : ∀ u t, h.typeOf u ≠ .ok t) (hsettled : h.Settled)
    (hrun : Boot.singletons h = .ok k h') : Barren k h' := by
  obtain ⟨nil, h₁, hnil, hrest⟩ := bind_eq_ok.mp hrun
  obtain ⟨trueObject, h₂, htrue, hrest⟩ := bind_eq_ok.mp hrest
  obtain ⟨falseObject, h₃, hfalse, hrest⟩ := bind_eq_ok.mp hrest
  obtain ⟨metaclass, h₄, hmeta, hrest⟩ := bind_eq_ok.mp hrest
  obtain ⟨_, h₅, hset, hend⟩ := bind_eq_ok.mp hrest
  obtain ⟨rfl, rfl⟩ := pure_eq_ok.mp hend
  have hmade₁ := Heap.made_of_eq_ok hsettled hnil
  have hmade₂ := Heap.made_of_eq_ok hmade₁.settled htrue
  have hmade₃ := Heap.made_of_eq_ok hmade₂.settled hfalse
  have hmade₄ := Heap.made_of_eq_ok hmade₃.settled hmeta
  have hretyped := Heap.retyped_of_eq_ok hmade₄.settled hset
  have hrooted : metaclass.Rooted := Heap.space_of_allocateFields hmade₃.settled hmeta
  have hnilTyped := hmade₃.types _ _ (hmade₂.types _ _ hmade₁.type_eq)
  have hknown : ∀ l ∈ [Landmark.nil, .true, .false, .metaclass],
      ((((Landmarks.filled nil).set .true trueObject).set .false falseObject).set .metaclass
        metaclass) l = match l with
        | .true => trueObject
        | .false => falseObject
        | .metaclass => metaclass
        | _ => nil := by
    intro l hl
    simp only [List.mem_cons, List.not_mem_nil, or_false] at hl
    rcases hl with rfl | rfl | rfl | rfl <;>
      simp only [Landmarks.get_set_self, Landmarks.get_filled, ne_eq, reduceCtorEq,
        not_false_eq_true, Landmarks.get_set_of_ne]
  have hnilEq := hknown .nil (by decide)
  have hmetaEq := hknown .metaclass (by decide)
  dsimp only at hnilEq hmetaEq
  refine ⟨hretyped.settled, ?_, ?_, ?_, ?_, ?_, ?_⟩
  · rw [hnilEq]
    exact Heap.space_of_allocateFields hsettled hnil
  · have hkept : ∀ u, h₃.typeOf u = .ok placeholder → h₅.typeOf u = .ok placeholder := by
      intro u hu
      refine Heap.typeOf_setType_of_ne hset (fun hhandle => ?_) (hmade₄.types _ _ hu)
      exact hmade₄.stale _ (Heap.typeOf_congr hhandle hu)
    intro l hl
    simp only [singletonLandmarks, List.mem_cons, List.not_mem_nil, or_false] at hl
    rcases hl with rfl | rfl | rfl
    · rw [hnilEq]
      exact hkept _ hnilTyped
    · rw [hknown .true (by decide)]
      exact hkept _ (hmade₃.types _ _ hmade₂.type_eq)
    · rw [hknown .false (by decide)]
      exact hkept _ hmade₃.type_eq
  · rw [hnilEq, hmetaEq]
    exact ⟨hrooted, (hmade₄.ne ⟨_, hnilTyped⟩).symm⟩
  · rw [hmetaEq]
    exact hretyped.self
  · intro u t ht
    rw [hmetaEq]
    rcases Heap.typeOf_of_setType hset ht with ⟨hold, hne⟩ | ⟨hhandle, rfl⟩
    · refine .inl ?_
      -- whichever was made last before it had the same handle is the singleton
      rcases Heap.types_new_of_allocateFields hmade₃.settled hmeta u t hold with hold | ⟨heq, -⟩
      · rcases Heap.types_new_of_allocateFields hmade₂.settled hfalse u t hold with hold | ⟨heq, rfl⟩
        · rcases Heap.types_new_of_allocateFields hmade₁.settled htrue u t hold with
            hold | ⟨heq, rfl⟩
          · rcases Heap.types_new_of_allocateFields hsettled hnil u t hold with hold | ⟨heq, rfl⟩
            · exact absurd hold (hempty u t)
            · exact ⟨rfl, .nil, by decide, by rw [hknown .nil (by decide)]; exact heq⟩
          · exact ⟨rfl, .true, by decide, by rw [hknown .true (by decide)]; exact heq⟩
        · exact ⟨rfl, .false, by decide, by rw [hknown .false (by decide)]; exact heq⟩
      · exact absurd heq hne
    · exact .inr ⟨rfl, hhandle⟩
  · rw [hnilEq, hmetaEq]
    exact hretyped.fetchField_iff.mpr ((hmade₄.self _ nil).mpr ⟨by decide, rfl⟩)

namespace Barren

variable (hb : Barren k h)
include hb

theorem nil_exists : ∃ t, h.typeOf (k .nil) = .ok t := ⟨_, hb.singles .nil (by decide)⟩

/-- The only kind so far is `Metaclass`. -/
theorem isMetatype {v : Value} (hv : IsMetatype (k .metaclass) h v) : v = k .metaclass := by
  obtain ⟨⟨a, hmeta, -⟩, -⟩ := hb.metaclass_rooted
  rcases hb.typed v _ hv.2 with ⟨heq, -⟩ | ⟨-, hhandle⟩
  · rw [heq] at hmeta
    cases hmeta
  · rw [hmeta] at hhandle ⊢
    exact Value.eq_object_iff.mp ⟨hhandle, hv.1⟩

theorem not_isType (v : Value) : ¬IsType (k .metaclass) h v := by
  rintro ⟨-, m, -, hmeta, hne⟩
  exact hne (hb.isMetatype hmeta)

/-- There are no kinds to be joined yet, so the summit may be anything. -/
theorem family (object top last : Value) :
    Family ⟨k .nil, k .metaclass, object, top, last⟩ h := by
  have hself : IsMetatype (k .metaclass) h (k .metaclass) := by
    obtain ⟨⟨a, hmeta, -⟩, -⟩ := hb.metaclass_rooted
    exact ⟨by rw [hmeta]; rfl, hb.self⟩
  refine ⟨hb.settled, hself, ?_, ?_, ?_, ?_, fun v hv => absurd hv (hb.not_isType v),
    fun v hv hne => absurd (hb.isMetatype hv) hne⟩
  · rintro v (hv | hv)
    · rw [hb.isMetatype hv]
      exact hb.metaclass_rooted
    · exact absurd hv (hb.not_isType v)
  · intro u t ht
    rcases hb.typed u t ht with ⟨rfl, -⟩ | ⟨rfl, -⟩
    · exact .inr rfl
    · exact .inl (.inl hself)
  · exact fun v w m _ _ hm hne => absurd (hb.isMetatype hm) hne
  · exact fun v m _ hm hne => absurd (hb.isMetatype hm) hne

/-- `Object` is made first, below nothing. -/
theorem newType {v : Value} {fixed : Nat} {format : Format}
    (hrun : Boot.newType (k .nil) (k .metaclass) (k .nil) fixed format h = .ok v h') :
    ∃ m, Family.Born ⟨k .nil, k .metaclass, v, k .nil, m⟩ h (k .nil) fixed v h' ∧
      h'.typeOf v = .ok m := by
  rcases newType_outcome hb.settled (k .nil) (k .metaclass) (k .nil) fixed format with
    ⟨fault, hfault⟩ | ⟨w, m, xs, h₂, habove, hd, hfilled, ⟨fault, hfault⟩ | ⟨v', ys, h₄, hrun', hd',
      hfilled'⟩⟩
  · cases hrun.symm.trans hfault
  · cases hrun.symm.trans hfault
  cases hrun.symm.trans hrun'
  rw [MetatypeAbove, if_pos rfl] at habove
  subst habove
  have hf := hb.family v (k .nil) m
  have hf₂ := hf.metatype hd hb.nil_exists (.inr ⟨hfilled.supertype_eq, rfl⟩)
  refine ⟨m, Family.born hb.nil_exists hf.self hd hfilled hf₂ hd' hfilled' (.inl ⟨rfl, ?_, ?_⟩)
    (.inr ⟨rfl, rfl⟩) (hf.metatype_free hd), hd'.type_eq⟩
  · exact (hd'.field (by decide)).trans (congrArg _ hfilled'.supertype_eq)
  · exact hd'.fetchField ((hd.field (by decide)).trans (congrArg _ hfilled.supertype_eq))

end Barren

/-! ## While the types are made -/

/-- A type to be made: its landmark, that of its supertype, its number of fields and its format. -/
abbrev TypeEntry : Type := Landmark × Landmark × Nat × Format

/-- The landmarks that no entry may be for. -/
def reservedLandmarks : List Landmark := .metaclass :: singletonLandmarks

/-- Each entry is for a landmark of its own, and below one that comes before it. -/
def Planned (made : List TypeEntry) : List TypeEntry → Prop
  | [] => True
  | entry :: entries =>
    entry.2.1 ∈ made.map Prod.fst ∧ entry.1 ∉ made.map Prod.fst ∧ entry.1 ∉ reservedLandmarks ∧
      Planned (entry :: made) entries

instance decidablePlanned : (made entries : List TypeEntry) → Decidable (Planned made entries)
  | _, [] => .isTrue trivial
  | made, entry :: entries =>
    have := decidablePlanned (entry :: made) entries
    inferInstanceAs (Decidable (_ ∧ _ ∧ _ ∧ _))

/-- The types of `made` are there, and `m` is the metatype of `Object`. -/
structure Sown (k : Landmarks) (made : List TypeEntry) (m : Value) (h : Heap) : Prop where
  family : Family ⟨k .nil, k .metaclass, k .object, k .nil, m⟩ h
  nil_rooted : (k .nil).Rooted
  singles : ∀ l ∈ singletonLandmarks, h.typeOf (k l) = .ok placeholder
  object_made : .object ∈ made.map Prod.fst
  object_type : h.typeOf (k .object) = .ok m
  object_super : h.fetchField (k .object) Slot.supertype = .ok (k .nil)
  supertypes : ∀ entry ∈ made, entry.2.1 ∈ reservedLandmarks ∨ entry.2.1 ∈ made.map Prod.fst
  distinct : ∀ l ∈ made.map Prod.fst, ∀ l' ∈ made.map Prod.fst, k l = k l' → l = l'
  made : ∀ entry ∈ made, DefinedAs (k .metaclass) h (k entry.1) (k entry.2.1) entry.2.2.1
  pending : ∀ u, h.typeOf u = .ok placeholder →
    ∃ l ∈ singletonLandmarks, u.handle? = (k l).handle?
  unfilled : h.fetchField (k .metaclass) Slot.supertype = .ok (k .nil)

/-- No new object has a number for its type. -/
theorem Enlarged.pending {nil metaclass : Value} (he : Enlarged nil metaclass h h') {u : Value}
    (hu : h'.typeOf u = .ok placeholder) : h.typeOf u = .ok placeholder :=
  (he.types_new u _ hu).resolve_right fun hmeta => by cases hmeta.1

/-- A landmark that is not reserved can be given its object. -/
theorem get_set_of_reserved {l : Landmark} (hl : l ∉ reservedLandmarks) (v : Value) {l' : Landmark}
    (hl' : l' ∈ reservedLandmarks) : (k.set l v) l' = k l' := by
  refine k.get_set_of_ne ?_ v
  rintro rfl
  exact hl hl'

theorem Barren.sown (hb : Barren k h) {v : Value} {fixed : Nat} {format : Format}
    (hrun : Boot.newType (k .nil) (k .metaclass) (k .nil) fixed format h = .ok v h') :
    ∃ m, Sown (k.set .object v) [(.object, .nil, fixed, format)] m h' := by
  obtain ⟨m, hborn, htype⟩ := hb.newType hrun
  have hsame : ∀ l ∈ reservedLandmarks, (k.set .object v) l = k l := fun l hl =>
    get_set_of_reserved (by decide) v hl
  have hnil := hsame .nil (by decide)
  have hmetaclass := hsame .metaclass (by decide)
  have hobject : (k.set .object v) .object = v := k.get_set_self .object v
  have he := hborn.enlarged
  refine ⟨m, ?_, ?_, ?_, List.mem_cons_self, ?_, ?_, ?_, ?_, ?_, ?_, ?_⟩
  · rw [hnil, hmetaclass, hobject]
    exact hborn.family
  · rw [hnil]
    exact hb.nil_rooted
  · intro l hl
    rw [hsame l (List.mem_cons_of_mem _ hl)]
    exact he.types _ _ (hb.singles l hl)
  · rw [hobject]
    exact htype
  · rw [hobject, hnil]
    exact hborn.definedAs.supertype_eq
  · rintro entry hentry
    obtain rfl := List.mem_singleton.mp hentry
    exact .inl (show Landmark.nil ∈ reservedLandmarks by decide)
  · intro l hl l' hl' _
    exact (List.mem_singleton.mp hl).trans (List.mem_singleton.mp hl').symm
  · rintro entry hentry
    obtain rfl := List.mem_singleton.mp hentry
    rw [hmetaclass, hobject, hnil]
    exact hborn.definedAs
  · intro u hu
    rcases hb.typed u _ (he.pending hu) with ⟨-, l, hl, heq⟩ | ⟨heq, -⟩
    · exact ⟨l, hl, by rw [hsame l (List.mem_cons_of_mem _ hl)]; exact heq⟩
    · obtain ⟨⟨a, ha, -⟩, -⟩ := hb.metaclass_rooted
      rw [ha] at heq
      cases heq
  · rw [hmetaclass, hnil]
    exact he.fields _ _ _ hb.unfilled

namespace Sown

variable {made : List TypeEntry} {m : Value}

/-- A type that has been made can be inherited from. -/
theorem fertile (hs : Sown k made m h) {l : Landmark} (hl : l ∈ made.map Prod.fst) :
    Family.Fertile ⟨k .nil, k .metaclass, k .object, k .nil, m⟩ h (k l) := by
  obtain ⟨above, habove, rfl⟩ := List.mem_map.mp hl
  have htype := (hs.made above habove).isType
  obtain ⟨-, w, hw, hmeta, hne⟩ := id htype
  exact ⟨hs.family.types_end _ htype, w, hw, hs.family.metatypes_end w hmeta hne⟩

theorem newType (hs : Sown k made m h) {entry : TypeEntry} (hsuper : entry.2.1 ∈ made.map Prod.fst)
    (hnew : entry.1 ∉ made.map Prod.fst) (hreserved : entry.1 ∉ reservedLandmarks) {v : Value}
    (hrun : Boot.newType (k .nil) (k .metaclass) (k entry.2.1) entry.2.2.1 entry.2.2.2 h =
      .ok v h') : Sown (k.set entry.1 v) (entry :: made) m h' := by
  have hborn := hs.family.newType ⟨_, hs.singles .nil (by decide)⟩
    (hs.fertile hsuper) entry.2.2.1 entry.2.2.2
  rw [hrun] at hborn
  have he := hborn.enlarged
  have hold : ∀ l ∈ made.map Prod.fst, (k.set entry.1 v) l = k l := by
    intro l hl
    refine k.get_set_of_ne ?_ v
    rintro rfl
    exact hnew hl
  have hsame : ∀ l ∈ reservedLandmarks, (k.set entry.1 v) l = k l := fun l hl =>
    get_set_of_reserved hreserved v hl
  have hnil := hsame .nil (by decide)
  have hmetaclass := hsame .metaclass (by decide)
  have hobject := hold .object hs.object_made
  refine ⟨?_, ?_, ?_, List.mem_cons_of_mem _ hs.object_made, ?_, ?_, ?_, ?_, ?_, ?_, ?_⟩
  · rw [hnil, hmetaclass, hobject]
    exact hborn.family
  · rw [hnil]
    exact hs.nil_rooted
  · intro l hl
    rw [hsame l (List.mem_cons_of_mem _ hl)]
    exact he.types _ _ (hs.singles l hl)
  · rw [hobject]
    exact he.types _ _ hs.object_type
  · rw [hobject, hnil]
    exact he.fields _ _ _ hs.object_super
  · rintro e (_ | ⟨_, hmem⟩)
    · exact .inr (List.mem_cons_of_mem _ hsuper)
    · exact (hs.supertypes e hmem).imp_right (List.mem_cons_of_mem _)
  · -- the new type was not there before
    have hne : ∀ l ∈ made.map Prod.fst, v ≠ k l := by
      rintro l hl rfl
      obtain ⟨e, he, rfl⟩ := List.mem_map.mp hl
      obtain ⟨-, w, hw, -⟩ := (hs.made e he).isType
      exact hborn.new w hw
    rintro l (_ | ⟨_, hl⟩) l' (_ | ⟨_, hl'⟩) heq
    · rfl
    · rw [k.get_set_self, hold l' hl'] at heq
      exact absurd heq (hne l' hl')
    · rw [k.get_set_self, hold l hl] at heq
      exact absurd heq.symm (hne l hl)
    · rw [hold l hl, hold l' hl'] at heq
      exact hs.distinct l hl l' hl' heq
  · rintro e (_ | ⟨_, hmem⟩)
    · rw [hmetaclass, k.get_set_self, hold entry.2.1 hsuper]
      exact hborn.definedAs
    · rw [hmetaclass, hold e.1 (List.mem_map_of_mem hmem),
        (hs.supertypes e hmem).elim (hsame e.2.1) (hold e.2.1)]
      exact he.definedAs (hs.made e hmem)
  · intro u hu
    obtain ⟨l, hl, heq⟩ := hs.pending u (he.pending hu)
    exact ⟨l, hl, by rw [hsame l (List.mem_cons_of_mem _ hl)]; exact heq⟩
  · rw [hmetaclass, hnil]
    exact he.fields _ _ _ hs.unfilled

/-- The types are made one after another. -/
theorem foldTypes {entries : List TypeEntry} (hs : Sown k made m h) (hplan : Planned made entries)
    (hrun : (entries.foldlM
      (fun known (landmark, supertype, fixed, format) => do
        return known.set landmark (← Boot.newType (known .nil) (known .metaclass) (known supertype)
          fixed format)) k : HeapM Landmarks) h = .ok k' h') :
    Sown k' (entries.reverse ++ made) m h' := by
  induction entries generalizing k h made with
  | nil =>
      obtain ⟨rfl, rfl⟩ := pure_eq_ok.mp hrun
      exact hs
  | cons entry entries ih =>
      rw [List.foldlM_cons] at hrun
      obtain ⟨k₁, h₁, hfirst, hrest⟩ := bind_eq_ok.mp hrun
      obtain ⟨v, h₂, hv, hend⟩ := bind_eq_ok.mp hfirst
      obtain ⟨rfl, rfl⟩ := pure_eq_ok.mp hend
      obtain ⟨hsuper, hnew, hreserved, hplan⟩ := hplan
      rw [List.reverse_cons, List.append_assoc]
      exact ih (hs.newType hsuper hnew hreserved hv) hplan hrest

end Sown

/-! ## The two trees are tied together -/

/-- Only the last of a chain has no supertype. -/
theorem Reaches.last_eq {nil metaclass v last t : Value} (hv : Reaches nil metaclass h v last)
    (hnil : h.fetchField t Slot.supertype = .ok nil) {chain : List Value}
    (hl : Lineage nil h v chain) (ht : t ∈ chain) : t = last := by
  obtain ⟨chain', hl', hlast, -⟩ := hv
  obtain rfl := hl.unique hl'
  obtain ⟨before, after, rfl, hafter⟩ := hl.of_mem ht
  cases hafter with
  | root =>
      -- nil itself is on no chain
      exact absurd ht hl.nil_not_mem
  | cons _ hsuper hrest =>
      cases hnil.symm.trans hsuper
      cases hrest with
      | root =>
          rw [List.getLast?_append] at hlast
          exact Option.some.inj hlast
      | cons hne => exact absurd rfl hne

/-- A chain is prolonged where it ended. -/
theorem Lineage.append {nil v last : Value} {chain chain' : List Value} (hl : Lineage nil h v chain)
    (hlast : chain.getLast? = some last) (hkept : ∀ t ∈ chain, t ≠ last → ∀ x,
      h.fetchField t Slot.supertype = .ok x → h'.fetchField t Slot.supertype = .ok x) {u : Value}
    (hsuper : h'.fetchField last Slot.supertype = .ok u) (hl' : Lineage nil h' u chain') :
    Lineage nil h' v (chain ++ chain') := by
  induction hl with
  | root => cases hlast
  | @cons type above chain hne hfetch hrest ih =>
      cases hrest with
      | root =>
          obtain rfl : type = last := Option.some.inj hlast
          exact .cons hne hsuper hl'
      | @cons _ above' rest hne' hfetch' hrest' =>
          rw [List.getLast?_cons_cons] at hlast
          have hself : type ≠ last := by
            -- a type is not among its own supertypes
            rintro rfl
            have hnodup := (Lineage.cons hne hfetch (.cons hne' hfetch' hrest')).nodup
            exact (List.nodup_cons.mp hnodup).1 (List.mem_of_getLast? hlast)
          refine .cons hne (hkept _ List.mem_cons_self hself _ hfetch) (ih hlast fun t ht => ?_)
          exact hkept t (List.mem_cons_of_mem _ ht)

/-- Objects have kept their types; of the fields by which kinds are joined, only those of `Metaclass`
and the supertype of one metatype have changed. -/
structure Grafted (metaclass m : Value) (h h' : Heap) : Prop where
  settled : h'.Settled
  types : ∀ u, h'.typeOf u = h.typeOf u
  fields : ∀ u i x, i = Slot.supertype ∨ i = Slot.fixedFields → u ≠ metaclass →
    ¬(u = m ∧ i = Slot.supertype) → h.fetchField u i = .ok x → h'.fetchField u i = .ok x

namespace Grafted

variable {metaclass m : Value} (hg : Grafted metaclass m h h')
include hg

theorem isMetatype_iff {v : Value} : IsMetatype metaclass h' v ↔ IsMetatype metaclass h v := by
  unfold IsMetatype
  rw [hg.types]

theorem isType_iff {v : Value} : IsType metaclass h' v ↔ IsType metaclass h v := by
  simp only [IsType, hg.types, hg.isMetatype_iff]

theorem isKind_iff {v : Value} : IsKind metaclass h' v ↔ IsKind metaclass h v := by
  simp only [IsKind, hg.isMetatype_iff, hg.isType_iff]

/-- No type is `Metaclass` or a metatype. -/
theorem definedAs (hself : IsMetatype metaclass h metaclass) (hm : IsMetatype metaclass h m)
    {v supertype : Value} {fixed : Nat} (hv : DefinedAs metaclass h v supertype fixed) :
    DefinedAs metaclass h' v supertype fixed := by
  have hne : v ≠ metaclass := fun heq => hself.not_isType (heq ▸ hv.isType)
  have hne' : v ≠ m := fun heq => hm.not_isType (heq ▸ hv.isType)
  exact ⟨hg.isType_iff.mpr hv.isType,
    hg.fields _ _ _ (.inl rfl) hne (fun heq => hne' heq.1) hv.supertype_eq,
    hg.fields _ _ _ (.inr rfl) hne (fun heq => hne' heq.1) hv.fixed_eq⟩

end Grafted

/-- The metatype of `Object` is put below a type. -/
theorem Family.graft {nil metaclass object m base : Value}
    (hf : Family ⟨nil, metaclass, object, nil, m⟩ h) (hg : Grafted metaclass m h h')
    (hobject : IsType metaclass h object) (hm : h.typeOf object = .ok m)
    (hsuper : h.fetchField object Slot.supertype = .ok nil) (hbase : IsType metaclass h base)
    (hunfilled : h.fetchField metaclass Slot.supertype = .ok nil)
    (hnew : h'.fetchField m Slot.supertype = .ok base) :
    Family ⟨nil, metaclass, object, base, object⟩ h' := by
  obtain ⟨-, m', hm', hmeta, hne⟩ := id hobject
  cases hm.symm.trans hm'
  have hself : IsMetatype metaclass h metaclass := hf.self
  have hobjectNe : object ≠ metaclass := by
    rintro rfl
    exact hself.not_isType hobject
  have hobjectNe' : object ≠ m := fun heq => (heq ▸ hmeta).not_isType hobject
  have hmsuper : h.fetchField m Slot.supertype = .ok nil := by
    rcases hf.joined object m hobject.1 hmeta hne hm with ⟨-, -, htop⟩ | ⟨u, w, hu, hkind, -⟩
    · exact htop
    · cases hsuper.symm.trans hu
      exact absurd rfl (hf.rooted _ hkind).2
  have htypes : ∀ v, IsType metaclass h v → Reaches nil metaclass h' v object := by
    intro v hv
    have hreach := hf.types_end v hv
    obtain ⟨chain, hl, hlast, hkinds⟩ := id hreach
    refine ⟨chain, hl.transfer fun t ht x hx => ?_, hlast, fun t ht => hg.isKind_iff.mpr (hkinds t ht)⟩
    refine hg.fields t _ x (.inl rfl) ?_ ?_ hx
    · rintro rfl
      exact hobjectNe (hreach.last_eq hunfilled hl ht).symm
    · rintro ⟨rfl, -⟩
      exact hobjectNe' (hreach.last_eq hmsuper hl ht).symm
  refine ⟨hg.settled, hg.isMetatype_iff.mpr hf.self, fun v hv => hf.rooted v (hg.isKind_iff.mp hv),
    ?_, ?_, ?_, fun v hv => htypes v (hg.isType_iff.mp hv), ?_⟩
  · intro u t ht
    exact (hf.typed u t (hg.types u ▸ ht)).imp_left hg.isKind_iff.mpr
  · intro v w t htag htag' ht hne hv hw
    exact hf.alone v w t htag htag' (hg.isMetatype_iff.mp ht) hne (hg.types v ▸ hv) (hg.types w ▸ hw)
  · intro v t htag ht hne' hv
    have ht := hg.isMetatype_iff.mp ht
    have hv : h.typeOf v = .ok t := hg.types v ▸ hv
    have htype : IsType metaclass h v := ⟨htag, t, hv, ht, hne'⟩
    have hvNe : v ≠ metaclass := by
      rintro rfl
      exact hself.not_isType htype
    have hvNe' : v ≠ m := fun heq => (heq ▸ hmeta).not_isType htype
    rcases hf.joined v t htag ht hne' hv with ⟨rfl, hvsuper, -⟩ |
      ⟨u, w, hvsuper, hu, hw, htsuper⟩
    · cases hm.symm.trans hv
      exact .inl ⟨rfl, hg.fields _ _ _ (.inl rfl) hobjectNe (fun h => hobjectNe' h.1) hvsuper, hnew⟩
    · have htNe : t ≠ m := by
        rintro rfl
        cases hf.alone v object t htag hobject.1 hmeta hne hv hm
        cases hsuper.symm.trans hvsuper
        exact (hf.rooted _ hu).2 rfl
      refine .inr ⟨u, w, hg.fields _ _ _ (.inl rfl) hvNe (fun h => hvNe' h.1) hvsuper,
        hg.isKind_iff.mpr hu, (hg.types u).trans hw,
        hg.fields _ _ _ (.inl rfl) hne' (fun h => htNe h.1) htsuper⟩
  · intro v hv hne'
    have hreach := hf.metatypes_end v (hg.isMetatype_iff.mp hv) hne'
    obtain ⟨chain, hl, hlast, hkinds⟩ := id hreach
    obtain ⟨chain', hl', hlast', hkinds'⟩ := htypes base hbase
    refine ⟨chain ++ chain', hl.append hlast (fun t ht htne x hx => ?_) hnew hl', ?_, ?_⟩
    · refine hg.fields t _ x (.inl rfl) ?_ (fun h => htne h.1) hx
      rintro rfl
      exact hne (hreach.last_eq hunfilled hl ht).symm
    · rw [List.getLast?_append, hlast']
      rfl
    · intro t ht
      rcases List.mem_append.mp ht with ht | ht
      · exact hg.isKind_iff.mpr (hkinds t ht)
      · exact hkinds' t ht

/-! ## The end of the making of types -/

/-- What filling the fields of a type does. -/
structure FilledIn (h : Heap) (v supertype : Value) (fixed : Nat) (h' : Heap) : Prop where
  settled : h'.Settled
  types : ∀ u, h'.typeOf u = h.typeOf u
  supertype_eq : h'.fetchField v Slot.supertype = .ok supertype
  fixed_eq : h'.fetchField v Slot.fixedFields = .ok (.wrapping fixed)
  other : ∀ u i x, u ≠ v → (h'.fetchField u i = .ok x ↔ h.fetchField u i = .ok x)

theorem filledIn_of_fillType (hsettled : h.Settled) {v supertype : Value} {fixed : Nat}
    {format : Format} {r : Unit} (hrun : Boot.fillType v supertype fixed format h = .ok r h') :
    FilledIn h v supertype fixed h' := by
  obtain ⟨_, h₁, hstore₁, hrest⟩ := bind_eq_ok.mp hrun
  obtain ⟨_, h₂, hstore₂, hrest⟩ := bind_eq_ok.mp hrest
  obtain ⟨_, h₃, hstore₃, hstore₄⟩ := bind_eq_ok.mp hrest
  have hs₁ := Heap.stored_of_eq_ok hsettled hstore₁
  have hs₂ := Heap.stored_of_eq_ok hs₁.settled hstore₂
  have hs₃ := Heap.stored_of_eq_ok hs₂.settled hstore₃
  have hs₄ := Heap.stored_of_eq_ok hs₃.settled hstore₄
  refine ⟨hs₄.settled, fun u => ?_, ?_, ?_, fun u i x hne => ?_⟩
  · rw [hs₄.types, hs₃.types, hs₂.types, hs₁.types]
  · rw [hs₄.other _ _ _ (.inr (by decide)), hs₃.other _ _ _ (.inr (by decide)),
      hs₂.other _ _ _ (.inr (by decide))]
    exact hs₁.self
  · rw [hs₄.other _ _ _ (.inr (by decide)), hs₃.other _ _ _ (.inr (by decide))]
    exact hs₂.self
  · rw [hs₄.other _ _ _ (.inl hne), hs₃.other _ _ _ (.inl hne), hs₂.other _ _ _ (.inl hne),
      hs₁.other _ _ _ (.inl hne)]

/-- An object that is no kind is given a type. -/
theorem Steady.of_setType {metaclass v type : Value} {r : Unit} (hsettled : h.Settled)
    (hset : Heap.setType v type h = .ok r h') (htype : IsType metaclass h type)
    (hv : ∀ u, IsKind metaclass h u → u.handle? ≠ v.handle?) : Steady metaclass h h' := by
  have hretyped := Heap.retyped_of_eq_ok hsettled hset
  refine ⟨hretyped.settled, fun u hu t => Heap.typeOf_setType_of_ne hset (hv u hu),
    fun u _ x => hretyped.fetchField_iff.mpr, fun u _ n => hretyped.fetchField_iff.mpr,
    fun u t ht => ?_⟩
  rcases Heap.typeOf_of_setType hset ht with ⟨hold, -⟩ | ⟨-, rfl⟩
  · exact .inl hold
  · exact .inr htype

/-- All types are there, and nothing has a number for its type. -/
structure Crowned (k : Landmarks) (h : Heap) : Prop where
  family : Family (summit k) h
  nil_rooted : (k .nil).Rooted
  nil_exists : ∃ t, h.typeOf (k .nil) = .ok t
  typed : ∀ u t, h.typeOf u = .ok t → t ≠ placeholder
  planned : ∀ entry ∈ Boot.firstTypes,
    DefinedAs (k .metaclass) h (k entry.1) (k entry.2.1) entry.2.2.1
  distinct : ∀ l ∈ Boot.firstTypes.map Prod.fst, ∀ l' ∈ Boot.firstTypes.map Prod.fst,
    k l = k l' → l = l'
  metaclass_super : h.fetchField (k .metaclass) Slot.supertype = .ok (k .classType)
  metaclass_fixed : h.fetchField (k .metaclass) Slot.fixedFields = .ok (.wrapping Slot.typeSize)

/-- The singletons are no kinds, as long as they have numbers for types. -/
theorem singleton_apart {metaclass p : Value} (hp : h.typeOf p = .ok placeholder) {u : Value}
    (hu : IsKind metaclass h u) (hself : IsMetatype metaclass h metaclass) :
    u.handle? ≠ p.handle? := by
  intro hhandle
  have hmeta := hu.isMetatype_typeOf hself (Heap.typeOf_congr hhandle.symm hp)
  cases hmeta.1

/-- The types have been made, and the metatype of `Object` and `Metaclass` are put below `Class`. -/
theorem Sown.crowned {made : List TypeEntry} {m : Value} {h₁ h₂ h₃ h₄ h₅ : Heap}
    {r : Unit} (hs : Sown k made m h)
    (hmade : ∀ entry ∈ Boot.firstTypes, entry ∈ made)
    (hstore : Heap.storeField m Slot.supertype (k .classType) h = .ok r h₁)
    (hfill : Boot.fillType (k .metaclass) (k .classType) Slot.typeSize .fixed h₁ = .ok r h₂)
    (hnil : Heap.setType (k .nil) (k .undefinedObject) h₂ = .ok r h₃)
    (htrue : Heap.setType (k .true) (k .trueType) h₃ = .ok r h₄)
    (hfalse : Heap.setType (k .false) (k .falseType) h₄ = .ok r h₅) : Crowned k h₅ := by
  have htype : ∀ l ∈ Boot.firstTypes.map Prod.fst, IsType (k .metaclass) h (k l) := by
    intro l hl
    obtain ⟨entry, hentry, rfl⟩ := List.mem_map.mp hl
    exact (hs.made entry (hmade entry hentry)).isType
  have hmapped : ∀ l ∈ Boot.firstTypes.map Prod.fst, l ∈ made.map Prod.fst := by
    intro l hl
    obtain ⟨entry, hentry, rfl⟩ := List.mem_map.mp hl
    exact List.mem_map_of_mem (hmade entry hentry)
  obtain ⟨-, m', hm', hmeta, hne⟩ := id (htype .object (by decide))
  cases hs.object_type.symm.trans hm'
  -- the metatype of `Object` and `Metaclass` get their supertypes
  have hstored := Heap.stored_of_eq_ok hs.family.settled hstore
  have hfilled := filledIn_of_fillType hstored.settled hfill
  have hg : Grafted (k .metaclass) m h h₂ := by
    refine ⟨hfilled.settled, fun u => (hfilled.types u).trans (hstored.types u), ?_⟩
    intro u i x _ hu hi hx
    refine (hfilled.other u i x hu).mpr ((hstored.other u i x ?_).mpr hx)
    exact Classical.not_and_iff_not_or_not.mp hi
  have hclassType := htype .classType (by decide)
  have hf₂ : Family (summit k) h₂ := hs.family.graft hg (htype .object (by decide))
    hs.object_type hs.object_super hclassType hs.unfilled
    ((hfilled.other _ _ _ hne).mpr hstored.self)
  have hplanned : ∀ entry ∈ Boot.firstTypes,
      DefinedAs (k .metaclass) h₂ (k entry.1) (k entry.2.1) entry.2.2.1 := fun entry hentry =>
    hg.definedAs hs.family.self hmeta (hs.made entry (hmade entry hentry))
  -- the singletons get their types
  have hself : IsMetatype (k .metaclass) h₂ (k .metaclass) := hf₂.self
  have hapart : ∀ l ∈ singletonLandmarks, ∀ u, IsKind (k .metaclass) h₂ u →
      u.handle? ≠ (k l).handle? := by
    intro l hl u hu
    exact singleton_apart ((hg.types _).trans (hs.singles l hl)) hu hself
  have htype₂ : ∀ l ∈ Boot.firstTypes.map Prod.fst, IsType (k .metaclass) h₂ (k l) :=
    fun l hl => hg.isType_iff.mpr (htype l hl)
  have hs₃ : Steady (k .metaclass) h₂ h₃ := .of_setType hf₂.settled hnil (htype₂ _ (by decide))
    (hapart .nil (by decide))
  have hs₄ : Steady (k .metaclass) h₂ h₄ := hs₃.trans hself <|
    .of_setType hs₃.settled htrue (hs₃.isType (htype₂ _ (by decide))) fun u hu =>
      hapart .true (by decide) u (hs₃.isKind_back hself hu)
  have hs₅ : Steady (k .metaclass) h₂ h₅ := hs₄.trans hself <|
    .of_setType hs₄.settled hfalse (hs₄.isType (htype₂ _ (by decide))) fun u hu =>
      hapart .false (by decide) u (hs₄.isKind_back hself hu)
  have hexist : ∃ t, h₅.typeOf (k .nil) = .ok t :=
    (Heap.retyped_of_eq_ok hs₄.settled hfalse).exist _
      ((Heap.retyped_of_eq_ok hs₃.settled htrue).exist _
        ⟨_, (Heap.retyped_of_eq_ok hf₂.settled hnil).self⟩)
  refine ⟨hf₂.steady hs₅, hs.nil_rooted, hexist, ?_, fun e he => hs₅.definedAs (hplanned e he),
    fun l hl l' hl' => hs.distinct l (hmapped l hl) l' (hmapped l' hl'),
    hs₅.supertypes _ (.inl hself) _ hfilled.supertype_eq,
    hs₅.fixed _ (.inl hself) _ hfilled.fixed_eq⟩
  · -- whatever had a number for its type is a singleton, and has got a type now
    rintro u _ ht rfl
    have hplace : ∀ l ∈ Boot.firstTypes.map Prod.fst, placeholder ≠ k l := fun l hl heq =>
      (htype l hl).ne_placeholder heq.symm
    rcases Heap.typeOf_of_setType hfalse ht with ⟨ht₄, hne₅⟩ | ⟨-, heq⟩
    · rcases Heap.typeOf_of_setType htrue ht₄ with ⟨ht₃, hne₄⟩ | ⟨-, heq⟩
      · rcases Heap.typeOf_of_setType hnil ht₃ with ⟨ht₂, hne₃⟩ | ⟨-, heq⟩
        · obtain ⟨l, hl, hhandle⟩ := hs.pending u (hg.types u ▸ ht₂)
          simp only [singletonLandmarks, List.mem_cons, List.not_mem_nil, or_false] at hl
          rcases hl with rfl | rfl | rfl
          · exact hne₃ hhandle
          · exact hne₄ hhandle
          · exact hne₅ hhandle
        · exact hplace _ (by decide) heq
      · exact hplace _ (by decide) heq
    · exact hplace _ (by decide) heq

theorem crowned_types (hb : Barren k h) (hrun : Boot.types k h = .ok k' h') : Crowned k' h' := by
  obtain ⟨k₁, h₁, hfold, hothers⟩ := bind_eq_ok.mp hrun
  obtain ⟨objectType, hobjectType, hrest⟩ := Heap.read_bind_eq_ok.mp hothers
  obtain ⟨_, h₃, hstore, hrest⟩ := bind_eq_ok.mp hrest
  obtain ⟨_, h₄, hfill, hrest⟩ := bind_eq_ok.mp hrest
  obtain ⟨_, h₅, hset₅, hrest⟩ := bind_eq_ok.mp hrest
  obtain ⟨_, h₆, hset₆, hrest⟩ := bind_eq_ok.mp hrest
  obtain ⟨_, h₇, hset₇, hend⟩ := bind_eq_ok.mp hrest
  obtain ⟨rfl, rfl⟩ := pure_eq_ok.mp hend
  have hlist : Boot.firstTypes = (.object, .nil, 0, .fixed) :: Boot.firstTypes.tail := rfl
  rw [hlist, List.foldlM_cons] at hfold
  obtain ⟨k₀, h₀, hfirst, hfold⟩ := bind_eq_ok.mp hfold
  obtain ⟨v, _, hv, hend⟩ := bind_eq_ok.mp hfirst
  obtain ⟨rfl, rfl⟩ := pure_eq_ok.mp hend
  obtain ⟨m, hsown⟩ := hb.sown hv
  have hs := hsown.foldTypes (by decide) hfold
  cases hs.object_type.symm.trans hobjectType
  exact hs.crowned (by decide) hstore hfill hset₅ hset₆ hset₇

end MessageMachine
