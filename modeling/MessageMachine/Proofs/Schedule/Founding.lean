import MessageMachine.Machine.Boot
import MessageMachine.Proofs.Schedule.Stores

/-!
# The first types

What the order of processes needs to know about the types that booting makes: they are permanent
objects, distinct from each other and from nil, and no object has the type of semaphores or links
until the processor is made.

`Typed k made h` is the invariant of the making of types.  `made` lists the landmarks that have been
given their objects; as soon as an object is given one of them as its type, that one leaves the list.
-/

namespace MessageMachine

variable {k k' : Landmarks} {h h' : Heap} {made made' : List Landmark}

/-! ## Landmarks -/

theorem Landmark.index_inj {l l' : Landmark} (heq : l.index = l'.index) : l = l' := by
  rw [← ofNat_ctorIdx l, ← ofNat_ctorIdx l']
  exact congrArg _ (congrArg Fin.val heq)

namespace Landmarks

@[simp] theorem get_set_self (k : Landmarks) (l : Landmark) (v : Value) : (k.set l v) l = v := by
  simp [get, set]

theorem get_set_of_ne (k : Landmarks) {l l' : Landmark} (hne : l' ≠ l) (v : Value) :
    (k.set l v) l' = k l' := by
  have hindex : l.index.val ≠ l'.index.val := fun heq =>
    hne (Landmark.index_inj (Fin.ext heq.symm))
  simp [get, set, Vector.getElem_set_ne _ _ hindex]

@[simp] theorem get_filled (v : Value) (l : Landmark) : filled v l = v := by
  simp [get, filled]

end Landmarks

/-! ## Permanent objects -/

/-- A reference to a permanent fielded object. -/
def Value.Rooted (v : Value) : Prop := ∃ a, v = .object a ∧ a.space = .root

namespace Heap

theorem space_of_allocateFields (hsettled : h.Settled) {space : Space} {type fill v : Value}
    {count : Nat} (hallocate : allocateFields space type count fill h = .ok v h') :
    ∃ a, v = .object a ∧ a.space = space := by
  obtain ⟨_, -, hrest⟩ := read_bind_eq_ok.mp hallocate
  obtain ⟨a, t, ha, hv⟩ := bind_eq_ok.mp hrest
  obtain ⟨rfl, rfl⟩ := pure_eq_ok.mp hv
  exact ⟨a, rfl, (allocate_eq_ok hsettled ha).1⟩

/-- What a change of type does, as types and fields are read. -/
structure Retyped (h : Heap) (v type : Value) (h' : Heap) : Prop where
  settled : h'.Settled
  self : h'.typeOf v = .ok type
  exist : ∀ u, (∃ t, h.typeOf u = .ok t) → ∃ t, h'.typeOf u = .ok t
  types : ∀ u t, h'.typeOf u = .ok t → h.typeOf u = .ok t ∨ t = type
  fields : ∀ u xs, h'.fields u = .ok xs ↔ h.fields u = .ok xs

theorem retyped_of_eq_ok (hsettled : h.Settled) {v type : Value} {u : Unit}
    (hset : setType v type h = .ok u h') : Retyped h v type h' := by
  obtain ⟨⟨o, ho⟩, hupdate⟩ := change_eq_ok hset
  obtain ⟨a, ha, ho⟩ := object_eq_ok.mp ho
  obtain rfl := hupdate a ha
  have hput := putAt_update ho (·.setType type)
  have hafter : (h.update a (·.setType type)).Settled := by
    have hkeeps : Keeps Settled (setType v type) := keeps_settled_change v _ fun _ => rfl
    have hafter := hkeeps h hsettled
    rwa [hset] at hafter
  refine ⟨hafter, typeOf_eq_ok.mpr ⟨a, _, ha, hput.resolve_self, rfl⟩, ?_, ?_, ?_⟩
  · rintro w ⟨t, ht⟩
    obtain ⟨b, o', hb, ho', -⟩ := typeOf_eq_ok.mp ht
    by_cases heq : b = a
    · subst heq
      exact ⟨_, typeOf_eq_ok.mpr ⟨b, _, hb, hput.resolve_self, rfl⟩⟩
    · exact ⟨_, typeOf_eq_ok.mpr ⟨b, o', hb, by rw [hput.resolve_of_ne heq, ho'], rfl⟩⟩
  · intro w t ht
    obtain ⟨b, o', hb, ho', htype⟩ := typeOf_eq_ok.mp ht
    by_cases heq : b = a
    · subst heq
      rw [hput.resolve_self] at ho'
      cases ho'
      exact .inr htype.symm
    · rw [hput.resolve_of_ne heq] at ho'
      exact .inl (typeOf_eq_ok.mpr ⟨b, o', hb, ho', htype⟩)
  · intro w xs
    by_cases hw : w = .object a
    · subst hw
      constructor
      · intro hxs
        obtain ⟨b, o', hb, ho', hbody⟩ := fields_eq_ok.mp hxs
        cases hb
        rw [hput.resolve_self] at ho'
        cases ho'
        exact fields_eq_ok.mpr ⟨a, o, rfl, ho, hbody⟩
      · intro hxs
        obtain ⟨b, o', hb, ho', hbody⟩ := fields_eq_ok.mp hxs
        cases hb
        cases ho.symm.trans ho'
        exact fields_eq_ok.mpr ⟨a, _, rfl, hput.resolve_self, hbody⟩
    · rw [hput.fields_of_ne hw]

end Heap

/-! ## The invariant -/

namespace Boot

/-- The types that objects are given before there are types. -/
abbrev placeholder : Value := .ofNat 0

/-- The landmarks of `made` have their objects, and no object has one of them as its type. -/
structure Typed (k : Landmarks) (made : List Landmark) (h : Heap) : Prop where
  settled : h.Settled
  nil_empty : h.fieldCount (k .nil) = .ok 0
  nil_made : .nil ∈ made
  rooted : ∀ l ∈ made, (k l).Rooted
  exist : ∀ l ∈ made, ∃ t, h.typeOf (k l) = .ok t
  distinct : ∀ l ∈ made, ∀ l' ∈ made, k l = k l' → l = l'
  unused : ∀ l ∈ made, ∀ u, h.typeOf u ≠ .ok (k l)
  /-- Types are permanent objects that exist. -/
  types : ∀ u t, h.typeOf u = .ok t → t ≠ placeholder → t.Rooted ∧ ∃ t', h.typeOf t = .ok t'
  /-- No table has its arrays yet. -/
  vacant : ∀ u i x, i = Slot.selectors ∨ i = Slot.methods → h.fetchField u i = .ok x → x = k .nil

namespace Typed

theorem mono (ht : Typed k made h) (hsub : ∀ l ∈ made', l ∈ made) (hnil : .nil ∈ made') :
    Typed k made' h :=
  ⟨ht.settled, ht.nil_empty, hnil, fun l hl => ht.rooted l (hsub l hl),
    fun l hl => ht.exist l (hsub l hl), fun l hl l' hl' => ht.distinct l (hsub l hl) l' (hsub l' hl'),
    fun l hl => ht.unused l (hsub l hl), ht.types, ht.vacant⟩

/-- Only the landmarks that have been made count. -/
theorem congr (ht : Typed k made h) (heq : ∀ l ∈ made, k' l = k l) : Typed k' made h := by
  have hnil := heq .nil ht.nil_made
  refine ⟨ht.settled, by rw [hnil]; exact ht.nil_empty, ht.nil_made, ?_, ?_, ?_, ?_, ht.types, ?_⟩
  · intro l hl
    rw [heq l hl]
    exact ht.rooted l hl
  · intro l hl
    rw [heq l hl]
    exact ht.exist l hl
  · intro l hl l' hl'
    rw [heq l hl, heq l' hl']
    exact ht.distinct l hl l' hl'
  · intro l hl
    rw [heq l hl]
    exact ht.unused l hl
  · rw [hnil]
    exact ht.vacant

/-- A new landmark for an object that is not the type of another. -/
theorem add (ht : Typed k made h) {l : Landmark} (hl : l ∉ made) {v : Value} (hrooted : v.Rooted)
    (hexist : ∃ t, h.typeOf v = .ok t) (hnew : ∀ l' ∈ made, k l' ≠ v)
    (hunused : ∀ u, h.typeOf u ≠ .ok v) : Typed (k.set l v) (l :: made) h := by
  have hold : ∀ l' ∈ made, (k.set l v) l' = k l' := by
    intro l' hl'
    refine k.get_set_of_ne ?_ v
    rintro rfl
    exact hl hl'
  have ht' := ht.congr hold
  refine ⟨ht'.settled, ht'.nil_empty, List.mem_cons_of_mem _ ht'.nil_made, ?_, ?_, ?_, ?_, ht'.types,
    ht'.vacant⟩
  · rintro l' (_ | ⟨_, hl'⟩)
    · rw [k.get_set_self]
      exact hrooted
    · exact ht'.rooted l' hl'
  · rintro l' (_ | ⟨_, hl'⟩)
    · rw [k.get_set_self]
      exact hexist
    · exact ht'.exist l' hl'
  · rintro l₁ (_ | ⟨_, hl₁⟩) l₂ (_ | ⟨_, hl₂⟩) heq
    · rfl
    · rw [k.get_set_self, hold l₂ hl₂] at heq
      exact absurd heq.symm (hnew l₂ hl₂)
    · rw [k.get_set_self, hold l₁ hl₁] at heq
      exact absurd heq (hnew l₁ hl₁)
    · exact ht'.distinct l₁ hl₁ l₂ hl₂ heq
  · rintro l' (_ | ⟨_, hl'⟩)
    · rw [k.get_set_self]
      exact hunused
    · exact ht'.unused l' hl'

/-- A new object, of a type that is no landmark of the list. -/
theorem allocated (ht : Typed k made h) {v type : Value} {count : Nat}
    (hmade : Heap.Made h v type count (k .nil) h')
    (htype : type ≠ placeholder → type.Rooted ∧ ∃ t, h.typeOf type = .ok t)
    (hfree : ∀ l ∈ made, k l ≠ type) : Typed k made h' := by
  refine ⟨hmade.settled, ?_, ht.nil_made, ht.rooted, ?_, ht.distinct, ?_, ?_, ?_⟩
  · rw [hmade.counts _ (hmade.ne (Heap.exists_typeOf_of_count ht.nil_empty))]
    exact ht.nil_empty
  · intro l hl
    obtain ⟨t, ht⟩ := ht.exist l hl
    exact ⟨t, hmade.types _ _ ht⟩
  · intro l hl u hu
    rcases hmade.types_new u _ hu with hold | heq
    · exact ht.unused l hl u hold
    · exact hfree l hl heq
  · intro u t hu hne
    have hexist : t.Rooted ∧ ∃ t', h.typeOf t = .ok t' := by
      rcases hmade.types_new u t hu with hold | rfl
      · exact ht.types u t hold hne
      · exact htype hne
    obtain ⟨hrooted, t', ht'⟩ := hexist
    exact ⟨hrooted, t', hmade.types _ _ ht'⟩
  · intro u i x hi hx
    by_cases hu : u = v
    · subst hu
      exact ((hmade.self i x).mp hx).2
    · exact ht.vacant u i x hi ((hmade.other u i x hu).mp hx)

/-- A store that is not one of an array of a method table. -/
theorem stored (ht : Typed k made h) {v new : Value} {i : Nat}
    (hstored : Heap.Stored h v i new h') (hi : i ≠ Slot.selectors ∧ i ≠ Slot.methods) :
    Typed k made h' := by
  refine ⟨hstored.settled, (hstored.counts _).trans ht.nil_empty, ht.nil_made, ht.rooted, ?_,
    ht.distinct, ?_, ?_, ?_⟩
  · intro l hl
    rw [hstored.types]
    exact ht.exist l hl
  · intro l hl u
    rw [hstored.types]
    exact ht.unused l hl u
  · intro u t
    rw [hstored.types, hstored.types]
    exact ht.types u t
  · intro u j x hj hx
    refine ht.vacant u j x hj ((hstored.other u j x (.inr ?_)).mp hx)
    rintro rfl
    rcases hj with rfl | rfl
    · exact hi.1 rfl
    · exact hi.2 rfl

/-- An object is given a type that is no landmark of the list. -/
theorem retyped (ht : Typed k made h) {v type : Value} (hretyped : Heap.Retyped h v type h')
    (htype : type.Rooted ∧ ∃ t, h.typeOf type = .ok t) (hfree : ∀ l ∈ made, k l ≠ type) :
    Typed k made h' := by
  refine ⟨hretyped.settled, ?_, ht.nil_made, ht.rooted, ?_, ht.distinct, ?_, ?_, ?_⟩
  · obtain ⟨xs, hxs, hsize⟩ := Heap.fieldCount_eq_ok.mp ht.nil_empty
    exact Heap.fieldCount_eq_ok.mpr ⟨xs, (hretyped.fields _ _).mpr hxs, hsize⟩
  · exact fun l hl => hretyped.exist _ (ht.exist l hl)
  · intro l hl u hu
    rcases hretyped.types u _ hu with hold | heq
    · exact ht.unused l hl u hold
    · exact hfree l hl heq
  · intro u t hu hne
    have hexist : t.Rooted ∧ ∃ t', h.typeOf t = .ok t' := by
      rcases hretyped.types u t hu with hold | rfl
      · exact ht.types u t hold hne
      · exact htype
    exact ⟨hexist.1, hretyped.exist t hexist.2⟩
  · intro u i x hi hx
    obtain ⟨xs, hxs, hget⟩ := Heap.fetchField_eq_ok.mp hx
    exact ht.vacant u i x hi (Heap.fetchField_eq_ok.mpr ⟨xs, (hretyped.fields _ _).mp hxs, hget⟩)

/-- What is true of the type of types. -/
def Reflexive (k : Landmarks) (h : Heap) : Prop :=
  (k .metaclass).Rooted ∧ h.typeOf (k .metaclass) = .ok (k .metaclass)

theorem metaclass_free (ht : Typed k made h) (hself : Reflexive k h) :
    ∀ l ∈ made, k l ≠ k .metaclass := by
  intro l hl heq
  refine ht.unused l hl (k .metaclass) ?_
  rw [heq]
  exact hself.2

theorem fillType (ht : Typed k made h) {type supertype : Value} {fixed : Nat} {format : Format}
    {u : Unit} (hrun : fillType type supertype fixed format h = .ok u h') :
    Typed k made h' ∧ ∀ w, h'.typeOf w = h.typeOf w := by
  obtain ⟨_, h₁, hstore₁, hrest⟩ := bind_eq_ok.mp hrun
  obtain ⟨_, h₂, hstore₂, hrest⟩ := bind_eq_ok.mp hrest
  obtain ⟨_, h₃, hstore₃, hstore₄⟩ := bind_eq_ok.mp hrest
  have hstored₁ := Heap.stored_of_eq_ok ht.settled hstore₁
  have hstored₂ := Heap.stored_of_eq_ok hstored₁.settled hstore₂
  have hstored₃ := Heap.stored_of_eq_ok hstored₂.settled hstore₃
  have hstored₄ := Heap.stored_of_eq_ok hstored₃.settled hstore₄
  refine ⟨(((ht.stored hstored₁ (by decide)).stored hstored₂ (by decide)).stored hstored₃
    (by decide)).stored hstored₄ (by decide), fun w => ?_⟩
  rw [hstored₄.types, hstored₃.types, hstored₂.types, hstored₁.types]

/-- What a new type is like. -/
structure New (k : Landmarks) (made : List Landmark) (h : Heap) (v : Value) (h' : Heap) : Prop where
  typed : Typed k made h'
  rooted : v.Rooted
  exist : ∃ t, h'.typeOf v = .ok t
  new : ∀ l ∈ made, k l ≠ v
  unused : ∀ u, h'.typeOf u ≠ .ok v
  types : ∀ u t, h.typeOf u = .ok t → h'.typeOf u = .ok t

theorem newType (ht : Typed k made h) (hself : Reflexive k h) {supertype v : Value} {fixed : Nat}
    {format : Format}
    (hrun : newType (k .nil) (k .metaclass) supertype fixed format h = .ok v h') :
    New k made h v h' := by
  have hmain : ∃ metaSuper, (do
      let metatype ← Heap.allocateFields .root (k .metaclass) Slot.typeSize (k .nil)
      Boot.fillType metatype metaSuper Slot.typeSize .fixed
      let type ← Heap.allocateFields .root metatype Slot.typeSize (k .nil)
      Boot.fillType type supertype fixed format
      return type : HeapM Value) h = .ok v h' := by
    unfold Boot.newType at hrun
    split at hrun
    · obtain ⟨metaSuper, _, hsuper, hrest⟩ := bind_eq_ok.mp hrun
      obtain ⟨-, rfl⟩ := pure_eq_ok.mp hsuper
      exact ⟨metaSuper, hrest⟩
    · obtain ⟨metaSuper, _, hsuper, hrest⟩ := bind_eq_ok.mp hrun
      obtain ⟨-, rfl⟩ := Heap.read_eq_ok.mp hsuper
      exact ⟨metaSuper, hrest⟩
  obtain ⟨metaSuper, hrest⟩ := hmain
  obtain ⟨metatype, h₁, hmeta, hrest⟩ := bind_eq_ok.mp hrest
  obtain ⟨_, h₂, hfill₂, hrest⟩ := bind_eq_ok.mp hrest
  obtain ⟨type, h₃, htype, hrest⟩ := bind_eq_ok.mp hrest
  obtain ⟨_, h₄, hfill₄, hend⟩ := bind_eq_ok.mp hrest
  obtain ⟨rfl, rfl⟩ := pure_eq_ok.mp hend
  have hmade₁ := Heap.made_of_eq_ok ht.settled hmeta
  have ht₁ := ht.allocated hmade₁ (fun _ => ⟨hself.1, _, hself.2⟩) (ht.metaclass_free hself)
  obtain ⟨ht₂, htypes₂⟩ := ht₁.fillType hfill₂
  have hmade₃ := Heap.made_of_eq_ok ht₂.settled htype
  have hmetaType : h₂.typeOf metatype = .ok (k .metaclass) := by
    rw [htypes₂]
    exact hmade₁.type_eq
  have hmetaNew : ∀ l ∈ made, k l ≠ metatype := by
    intro l hl
    exact hmade₁.ne (ht.exist l hl)
  have ht₃ := ht₂.allocated hmade₃
    (fun _ => ⟨Heap.space_of_allocateFields ht.settled hmeta, _, hmetaType⟩) hmetaNew
  obtain ⟨ht₄, htypes₄⟩ := ht₃.fillType hfill₄
  have hrooted : type.Rooted := Heap.space_of_allocateFields ht₂.settled htype
  refine ⟨ht₄, hrooted, ⟨metatype, by rw [htypes₄]; exact hmade₃.type_eq⟩, ?_, ?_, ?_⟩
  · exact fun l hl => hmade₃.ne (ht₂.exist l hl)
  · intro u hu
    rw [htypes₄] at hu
    rcases hmade₃.types_new u type hu with hold | rfl
    · obtain ⟨a, rfl, -⟩ := hrooted
      obtain ⟨-, t, hexist⟩ := ht₂.types u _ hold nofun
      exact hmade₃.stale t hexist
    · exact hmade₃.stale _ hmetaType
  · intro u t hu
    rw [htypes₄]
    refine hmade₃.types u t ?_
    rw [htypes₂]
    exact hmade₁.types u t hu

/-- The types are made one after another. -/
theorem foldTypes {entries : List (Landmark × Landmark × Nat × Format)} (ht : Typed k made h)
    (hself : Reflexive k h) (hnodup : (entries.map Prod.fst).Nodup)
    (hnew : ∀ entry ∈ entries, entry.1 ∉ made ∧ entry.1 ≠ .metaclass)
    (hrun : (entries.foldlM
      (fun known (landmark, supertype, fixed, format) => do
        return known.set landmark (← Boot.newType (known .nil) (known .metaclass) (known supertype)
          fixed format)) k : HeapM Landmarks) h = .ok k' h') :
    Typed k' ((entries.map Prod.fst).reverse ++ made) h' ∧ Reflexive k' h' ∧
      (∀ l ∉ entries.map Prod.fst, k' l = k l) ∧
      ∀ u t, h.typeOf u = .ok t → h'.typeOf u = .ok t := by
  induction entries generalizing k h made with
  | nil =>
      obtain ⟨rfl, rfl⟩ := pure_eq_ok.mp hrun
      exact ⟨ht, hself, fun _ _ => rfl, fun _ _ => id⟩
  | cons entry entries ih =>
      obtain ⟨l, supertype, fixed, format⟩ := entry
      rw [List.foldlM_cons] at hrun
      obtain ⟨k₁, h₁, hfirst, hrest⟩ := bind_eq_ok.mp hrun
      obtain ⟨v, h₂, hv, hend⟩ := bind_eq_ok.mp hfirst
      obtain ⟨rfl, rfl⟩ := pure_eq_ok.mp hend
      obtain ⟨hlnew, hmeta⟩ := hnew _ List.mem_cons_self
      rw [List.map_cons, List.nodup_cons] at hnodup
      have htype := ht.newType hself hv
      have ht₁ := htype.typed.add hlnew htype.rooted htype.exist htype.new htype.unused
      have hmetaclass : (k.set l v) .metaclass = k .metaclass := k.get_set_of_ne (Ne.symm hmeta) v
      have hself₁ : Reflexive (k.set l v) h₂ := by
        unfold Reflexive
        rw [hmetaclass]
        exact ⟨hself.1, htype.types _ _ hself.2⟩
      have hrestNew : ∀ entry ∈ entries, entry.1 ∉ l :: made ∧ entry.1 ≠ .metaclass := by
        intro entry hentry
        obtain ⟨hout, hne⟩ := hnew entry (List.mem_cons_of_mem _ hentry)
        refine ⟨?_, hne⟩
        rw [List.mem_cons, not_or]
        refine ⟨?_, hout⟩
        rintro rfl
        exact hnodup.1 (List.mem_map.mpr ⟨entry, hentry, rfl⟩)
      obtain ⟨ht', hself', hsame, htypes⟩ := ih ht₁ hself₁ hnodup.2 hrestNew hrest
      refine ⟨?_, hself', ?_, fun u t hu => htypes u t (htype.types u t hu)⟩
      · rw [List.map_cons, List.reverse_cons, List.append_assoc]
        exact ht'
      · intro l' hl'
        rw [List.map_cons, List.mem_cons, not_or] at hl'
        rw [hsame l' hl'.2]
        exact k.get_set_of_ne hl'.1 v

end Typed

/-! ## Singletons and types -/

open Typed in
/-- After the singletons have been made, nil is the only landmark with an object that is no type. -/
theorem typed_singletons (hempty : ∀ u t, h.typeOf u ≠ .ok t) (hsettled : h.Settled)
    (hrun : singletons h = .ok k h') : Typed k [.nil] h' ∧ Reflexive k h' := by
  obtain ⟨nil, h₁, hnil, hrest⟩ := bind_eq_ok.mp hrun
  obtain ⟨trueObject, h₂, htrue, hrest⟩ := bind_eq_ok.mp hrest
  obtain ⟨falseObject, h₃, hfalse, hrest⟩ := bind_eq_ok.mp hrest
  obtain ⟨metaclass, h₄, hmeta, hrest⟩ := bind_eq_ok.mp hrest
  obtain ⟨_, h₅, hset, hend⟩ := bind_eq_ok.mp hrest
  obtain ⟨rfl, rfl⟩ := pure_eq_ok.mp hend
  have hmade₁ := Heap.made_of_eq_ok hsettled hnil
  have hnilRooted : nil.Rooted := Heap.space_of_allocateFields hsettled hnil
  have hplain : ∀ u t, h₁.typeOf u = .ok t → t = placeholder := by
    intro u t hu
    rcases hmade₁.types_new u t hu with hold | heq
    · exact absurd hold (hempty u t)
    · exact heq
  have ht₁ : Typed (.filled nil) [.nil] h₁ := by
    refine ⟨hmade₁.settled, ?_, by simp, ?_, ?_, ?_, ?_, ?_, ?_⟩
    · rw [Landmarks.get_filled]
      exact Heap.fieldCount_eq_ok.mpr ⟨_, (Heap.fields_allocateFields hsettled hnil).2.1, by simp⟩
    · intro l _
      rw [Landmarks.get_filled]
      exact hnilRooted
    · intro l _
      rw [Landmarks.get_filled]
      exact ⟨_, hmade₁.type_eq⟩
    · intro l hl l' hl' _
      rw [List.mem_singleton.mp hl, List.mem_singleton.mp hl']
    · intro l _ u hu
      rw [Landmarks.get_filled] at hu
      obtain ⟨a, rfl, -⟩ := hnilRooted
      cases hplain u _ hu
    · intro u t hu hne
      exact absurd (hplain u t hu) hne
    · intro u i x _ hx
      obtain ⟨t, ht⟩ := Heap.exists_typeOf_of_fetchField hx
      by_cases hu : u = nil
      · subst hu
        exact absurd ((hmade₁.self i x).mp hx).1 (Nat.not_lt_zero i)
      · exact absurd (Heap.exists_typeOf_of_fetchField ((hmade₁.other u i x hu).mp hx))
          (fun ⟨t, ht⟩ => hempty u t ht)
  have hplaced : ∀ {t t' v count}, Typed (.filled nil) [.nil] t →
      Heap.allocateFields .root placeholder count nil t = .ok v t' →
      Typed (.filled nil) [.nil] t' := by
    intro t t' v count ht hallocate
    have hmade := Heap.made_of_eq_ok ht.settled hallocate
    rw [← Landmarks.get_filled nil .nil] at hmade
    refine ht.allocated hmade (fun hne => absurd rfl hne) ?_
    intro l _
    rw [Landmarks.get_filled]
    obtain ⟨a, rfl, -⟩ := hnilRooted
    nofun
  have ht₃ := hplaced (hplaced ht₁ htrue) hfalse
  have ht₄ := hplaced ht₃ hmeta
  have hmade₄ := Heap.made_of_eq_ok ht₃.settled hmeta
  have hmetaRooted : metaclass.Rooted := Heap.space_of_allocateFields ht₃.settled hmeta
  have hretyped := Heap.retyped_of_eq_ok ht₄.settled hset
  have ht₅ := ht₄.retyped hretyped ⟨hmetaRooted, _, hmade₄.type_eq⟩
    fun l hl => hmade₄.ne (ht₃.exist l hl)
  refine ⟨ht₅.congr ?_, ?_, ?_⟩
  · intro l hl
    rw [List.mem_singleton.mp hl, Landmarks.get_set_of_ne _ (by decide),
      Landmarks.get_set_of_ne _ (by decide), Landmarks.get_set_of_ne _ (by decide)]
  · rw [Landmarks.get_set_self]
    exact hmetaRooted
  · rw [Landmarks.get_set_self]
    exact hretyped.self

/-- The landmarks of types that no singleton belongs to. -/
def plainLandmarks : List Landmark :=
  [.nil, .object, .boolean, .smallInteger, .string, .symbol, .array, .byteArray, .wordArray,
    .compiledMethod, .methodContext, .blockContext, .process, .semaphore, .link,
    .processorScheduler, .dictionary, .symbolTableType, .classType]

open Typed in
theorem typed_types (ht : Typed k [.nil] h) (hself : Reflexive k h)
    (hrun : types k h = .ok k' h') : Typed k' plainLandmarks h' ∧
      ∀ l ∈ Landmark.metaclass :: firstTypes.map Prod.fst, ∃ t, h'.typeOf (k' l) = .ok t := by
  obtain ⟨k₁, h₁, hfold, hothers⟩ := bind_eq_ok.mp hrun
  obtain ⟨ht₁, hself₁, -, -⟩ := ht.foldTypes hself (by decide) (by decide) hfold
  obtain ⟨objectType, -, hrest⟩ := Heap.read_bind_eq_ok.mp hothers
  obtain ⟨_, h₃, hstore, hrest⟩ := bind_eq_ok.mp hrest
  obtain ⟨_, h₄, hfill, hrest⟩ := bind_eq_ok.mp hrest
  obtain ⟨_, h₅, hset₅, hrest⟩ := bind_eq_ok.mp hrest
  obtain ⟨_, h₆, hset₆, hrest⟩ := bind_eq_ok.mp hrest
  obtain ⟨_, h₇, hset₇, hend⟩ := bind_eq_ok.mp hrest
  obtain ⟨rfl, rfl⟩ := pure_eq_ok.mp hend
  have hstored := Heap.stored_of_eq_ok ht₁.settled hstore
  have ht₃ := ht₁.stored hstored (by decide)
  obtain ⟨ht₄, htypes₄⟩ := ht₃.fillType hfill
  -- each singleton takes its type off the list
  have hretype : ∀ {t t' : Heap} {v l made' made''} {u : Unit}, Typed k₁ made' t →
      Heap.setType v (k₁ l) t = .ok u t' → l ∈ made' → (∀ l' ∈ made'', l' ∈ made' ∧ l' ≠ l) →
      .nil ∈ made'' → Typed k₁ made'' t' := by
    intro t t' v l made' made'' u ht hset hl hsub hnil
    refine (ht.mono (fun l' hl' => (hsub l' hl').1) hnil).retyped
      (Heap.retyped_of_eq_ok ht.settled hset) ⟨ht.rooted l hl, ht.exist l hl⟩ ?_
    intro l' hl' heq
    exact (hsub l' hl').2 (ht.distinct l' (hsub l' hl').1 l hl heq)
  have ht₅ : Typed k₁ (.trueType :: .falseType :: plainLandmarks) h₅ :=
    hretype ht₄ hset₅ (by decide) (by decide) (by decide)
  have ht₆ : Typed k₁ (.falseType :: plainLandmarks) h₆ :=
    hretype ht₅ hset₆ (by decide) (by decide) (by decide)
  refine ⟨hretype ht₆ hset₇ (by decide) (by decide) (by decide), fun l hl => ?_⟩
  have hexist : ∃ t, h₄.typeOf (k₁ l) = .ok t := by
    rcases List.mem_cons.mp hl with rfl | hl
    · exact ⟨k₁ .metaclass, by rw [htypes₄, hstored.types, hself₁.2]⟩
    · exact ht₄.exist l (List.mem_append_left _ (List.mem_reverse.mpr hl))
  exact (Heap.retyped_of_eq_ok ht₆.settled hset₇).exist _
    ((Heap.retyped_of_eq_ok ht₅.settled hset₆).exist _
      ((Heap.retyped_of_eq_ok ht₄.settled hset₅).exist _ hexist))

end Boot

end MessageMachine
