import MessageMachine.Proofs.Heap.Draft
import MessageMachine.Proofs.Lookup.Lineage
import MessageMachine.Proofs.Schedule.Creation

/-!
# The hierarchy of types

Every type has a metatype, the type of which it is the only instance, and metatypes are instances of
`Metaclass`.  Metatypes inherit from each other as their types do.  In a heap this makes two trees,
tied together at the top: the metatype of `Object` inherits from `Class`.

* `IsMetatype`, `IsType`, `IsKind`: what is a metatype (or `Metaclass` itself), what is the instance
  of one, and what is either.
* `Summit`: the objects at the top of the trees.  While the first types are made the two trees are
  not tied together yet, so it also says where the chains of metatypes end.
* `Family s h`: all kinds of the heap are joined to each other as they should be, and all their chains
  of supertypes end at the summit.
* `Steady metaclass h h'`: no kind has been made, and kinds have kept their types, supertypes and
  numbers of fields.  A family stays one (`Family.steady`).

A family grows by a metatype and then by its type (`Family.metatype`, `Family.type`), which is how
`Boot.newType` makes them.
-/

namespace MessageMachine

open Boot (placeholder)

variable {metaclass : Value} {h h' h'' : Heap}

/-! ## Kinds -/

/-- A type of a type, or `Metaclass` itself. -/
def IsMetatype (metaclass : Value) (h : Heap) (v : Value) : Prop :=
  v.tag = .object ∧ h.typeOf v = .ok metaclass

/-- The instance of a metatype. -/
def IsType (metaclass : Value) (h : Heap) (v : Value) : Prop :=
  v.tag = .object ∧ ∃ m, h.typeOf v = .ok m ∧ IsMetatype metaclass h m ∧ m ≠ metaclass

/-- A type, a metatype or `Metaclass`. -/
def IsKind (metaclass : Value) (h : Heap) (v : Value) : Prop :=
  IsMetatype metaclass h v ∨ IsType metaclass h v

theorem IsType.ne_placeholder {v : Value} (hv : IsType metaclass h v) : v ≠ placeholder := by
  rintro rfl
  cases hv.1

theorem IsKind.exists_type {v : Value} (hv : IsKind metaclass h v) : ∃ m, h.typeOf v = .ok m := by
  rcases hv with ⟨-, hm⟩ | ⟨-, m, hm, -⟩
  · exact ⟨metaclass, hm⟩
  · exact ⟨m, hm⟩

/-- The type of a type is no instance of a metatype. -/
theorem IsMetatype.not_isType {v : Value} (hv : IsMetatype metaclass h v) :
    ¬IsType metaclass h v := by
  rintro ⟨-, m, hm, -, hne⟩
  cases hm.symm.trans hv.2
  exact hne rfl

/-- The type of a kind is a metatype. -/
theorem IsKind.isMetatype_typeOf (hself : IsMetatype metaclass h metaclass) {v m : Value}
    (hv : IsKind metaclass h v) (hm : h.typeOf v = .ok m) : IsMetatype metaclass h m := by
  rcases hv with ⟨-, hv⟩ | ⟨-, m', hm', hmeta, -⟩
  · cases hm.symm.trans hv
    exact hself
  · cases hm.symm.trans hm'
    exact hmeta

/-! ## Chains of kinds -/

/-- The supertypes of a kind are kinds, up to the last. -/
def Reaches (nil metaclass : Value) (h : Heap) (v last : Value) : Prop :=
  ∃ chain, Lineage nil h v chain ∧ chain.getLast? = some last ∧ ∀ t ∈ chain, IsKind metaclass h t

theorem Reaches.cons {nil v u last : Value} (hv : IsKind metaclass h v) (hnil : v ≠ nil)
    (hsuper : h.fetchField v Slot.supertype = .ok u) (hu : Reaches nil metaclass h u last) :
    Reaches nil metaclass h v last := by
  obtain ⟨chain, hl, hlast, hkinds⟩ := hu
  refine ⟨v :: chain, .cons hnil hsuper hl, ?_, List.forall_mem_cons.mpr ⟨hv, hkinds⟩⟩
  rw [List.getLast?_cons, hlast]
  rfl

theorem Reaches.last {nil v : Value} (hv : IsKind metaclass h v) (hnil : v ≠ nil)
    (hsuper : h.fetchField v Slot.supertype = .ok nil) : Reaches nil metaclass h v v :=
  ⟨[v], .cons hnil hsuper .root, rfl, List.forall_mem_singleton.mpr hv⟩

theorem Reaches.isKind {nil v last : Value} (hv : Reaches nil metaclass h v last) :
    IsKind metaclass h v := by
  obtain ⟨chain, hl, hlast, hkinds⟩ := hv
  cases hl with
  | root => cases hlast
  | cons => exact hkinds _ List.mem_cons_self

/-! ## Changes that make no kinds -/

/-- What the definition of a type lays down: its supertype and its number of fields. -/
structure DefinedAs (metaclass : Value) (h : Heap) (v supertype : Value) (fixed : Nat) : Prop where
  isType : IsType metaclass h v
  supertype_eq : h.fetchField v Slot.supertype = .ok supertype
  fixed_eq : h.fetchField v Slot.fixedFields = .ok (.wrapping fixed)

/-- Kinds have kept their types, supertypes and numbers of fields, and new objects are no kinds. -/
structure Steady (metaclass : Value) (h h' : Heap) : Prop where
  settled : h'.Settled
  types : ∀ v, IsKind metaclass h v → ∀ t, h.typeOf v = .ok t → h'.typeOf v = .ok t
  supertypes : ∀ v, IsKind metaclass h v → ∀ x, h.fetchField v Slot.supertype = .ok x →
    h'.fetchField v Slot.supertype = .ok x
  fixed : ∀ v, IsKind metaclass h v → ∀ n, h.fetchField v Slot.fixedFields = .ok (.int n) →
    h'.fetchField v Slot.fixedFields = .ok (.int n)
  fresh : ∀ u t, h'.typeOf u = .ok t → h.typeOf u = .ok t ∨ IsType metaclass h t

namespace Steady

theorem refl (hsettled : h.Settled) : Steady metaclass h h :=
  ⟨hsettled, fun _ _ _ => id, fun _ _ _ => id, fun _ _ _ => id, fun _ _ => .inl⟩

variable (hs : Steady metaclass h h')
include hs

theorem isMetatype {v : Value} (hv : IsMetatype metaclass h v) : IsMetatype metaclass h' v :=
  ⟨hv.1, hs.types v (.inl hv) _ hv.2⟩

theorem isType {v : Value} (hv : IsType metaclass h v) : IsType metaclass h' v := by
  obtain ⟨htag, m, hm, hmeta, hne⟩ := hv
  exact ⟨htag, m, hs.types v (.inr ⟨htag, m, hm, hmeta, hne⟩) m hm, hs.isMetatype hmeta, hne⟩

theorem isKind {v : Value} (hv : IsKind metaclass h v) : IsKind metaclass h' v :=
  hv.imp hs.isMetatype hs.isType

/-- An instance of a metatype was one before. -/
theorem typeOf_back {v m : Value} (hm : IsMetatype metaclass h m) (hv : h'.typeOf v = .ok m) :
    h.typeOf v = .ok m :=
  (hs.fresh v m hv).resolve_right hm.not_isType

theorem isMetatype_back (hself : IsMetatype metaclass h metaclass) {v : Value}
    (hv : IsMetatype metaclass h' v) : IsMetatype metaclass h v :=
  ⟨hv.1, hs.typeOf_back hself hv.2⟩

theorem isType_back (hself : IsMetatype metaclass h metaclass) {v : Value}
    (hv : IsType metaclass h' v) : IsType metaclass h v := by
  obtain ⟨htag, m, hm, hmeta, hne⟩ := hv
  have hmeta' := hs.isMetatype_back hself hmeta
  exact ⟨htag, m, hs.typeOf_back hmeta' hm, hmeta', hne⟩

theorem isKind_back (hself : IsMetatype metaclass h metaclass) {v : Value}
    (hv : IsKind metaclass h' v) : IsKind metaclass h v :=
  hv.imp (hs.isMetatype_back hself) (hs.isType_back hself)

theorem reaches {nil v last : Value} (hv : Reaches nil metaclass h v last) :
    Reaches nil metaclass h' v last := by
  obtain ⟨chain, hl, hlast, hkinds⟩ := hv
  refine ⟨chain, hl.transfer fun t ht x hx => ?_, hlast, fun t ht => hs.isKind (hkinds t ht)⟩
  exact hs.supertypes t (hkinds t ht) x hx

theorem definedAs {v supertype : Value} {fixed : Nat}
    (hv : DefinedAs metaclass h v supertype fixed) : DefinedAs metaclass h' v supertype fixed :=
  have hkind : IsKind metaclass h v := .inr hv.isType
  ⟨hs.isType hv.isType, hs.supertypes v hkind _ hv.supertype_eq, hs.fixed v hkind _ hv.fixed_eq⟩

theorem trans (hself : IsMetatype metaclass h metaclass) (hs' : Steady metaclass h' h'') :
    Steady metaclass h h'' := by
  refine ⟨hs'.settled, ?_, ?_, ?_, ?_⟩
  · exact fun v hv t ht => hs'.types v (hs.isKind hv) t (hs.types v hv t ht)
  · exact fun v hv x hx => hs'.supertypes v (hs.isKind hv) x (hs.supertypes v hv x hx)
  · exact fun v hv n hn => hs'.fixed v (hs.isKind hv) n (hs.fixed v hv n hn)
  · intro u t ht
    rcases hs'.fresh u t ht with hold | hnew
    · exact hs.fresh u t hold
    · exact .inr (hs.isType_back hself hnew)

omit hs

theorem of_stored {v new : Value} {i : Nat} (hstored : Heap.Stored h v i new h')
    (hv : IsKind metaclass h v → i ≠ Slot.supertype ∧ i ≠ Slot.fixedFields) :
    Steady metaclass h h' := by
  have hslot : ∀ u, IsKind metaclass h u → ∀ j, j = Slot.supertype ∨ j = Slot.fixedFields →
      ∀ x, h.fetchField u j = .ok x → h'.fetchField u j = .ok x := by
    intro u hu j hj x hx
    refine (hstored.other u j x ?_).mpr hx
    by_contra hsame
    obtain ⟨rfl, rfl⟩ := not_or.mp hsame |>.imp not_not.mp not_not.mp
    exact hj.elim (hv hu).1 (hv hu).2
  refine ⟨hstored.settled, fun u _ t => (hstored.types u ▸ id), fun u hu => hslot u hu _ (.inl rfl),
    fun u hu n => hslot u hu _ (.inr rfl) _, fun u t ht => ?_⟩
  rw [hstored.types] at ht
  exact .inl ht

theorem of_made {v type fill : Value} {count : Nat} (hmade : Heap.Made h v type count fill h')
    (htype : IsType metaclass h type) : Steady metaclass h h' := by
  have hslot : ∀ u, IsKind metaclass h u → ∀ i x, h.fetchField u i = .ok x →
      h'.fetchField u i = .ok x := fun u hu i x =>
    (hmade.other u i x (hmade.ne hu.exists_type)).mpr
  refine ⟨hmade.settled, fun u _ t => hmade.types u t, fun u hu => hslot u hu _,
    fun u hu n => hslot u hu _ _, ?_⟩
  intro u t ht
  refine (hmade.types_new u t ht).imp_right ?_
  rintro rfl
  exact htype

theorem of_buffered {type : Value} (hbuffered : Heap.Buffered h type h')
    (htype : IsType metaclass h type) : Steady metaclass h h' := by
  have hslot : ∀ u i x, h.fetchField u i = .ok x → h'.fetchField u i = .ok x := by
    intro u i x hx
    obtain ⟨xs, hxs, hget⟩ := Heap.fetchField_eq_ok.mp hx
    exact Heap.fetchField_eq_ok.mpr ⟨xs, (hbuffered.fields u xs).mpr hxs, hget⟩
  refine ⟨hbuffered.settled, fun u _ t => hbuffered.types u t, fun u _ => hslot u _,
    fun u _ n => hslot u _ _, ?_⟩
  intro u t ht
  refine (hbuffered.types_new u t ht).imp_right ?_
  rintro rfl
  exact htype

end Steady

/-! ## Families -/

/-- The objects at the top of the two trees.  The metatype of `object` inherits from `top`, and `last`
is where the chains of metatypes end. -/
structure Summit where
  nil : Value
  metaclass : Value
  object : Value
  top : Value
  last : Value

/-- A type inherits as its metatype does. -/
def Joined (s : Summit) (h : Heap) (v m : Value) : Prop :=
  (v = s.object ∧ h.fetchField v Slot.supertype = .ok s.nil ∧
    h.fetchField m Slot.supertype = .ok s.top) ∨
  ∃ u w, h.fetchField v Slot.supertype = .ok u ∧ IsKind s.metaclass h u ∧ h.typeOf u = .ok w ∧
    h.fetchField m Slot.supertype = .ok w

/-- All kinds are where they should be. -/
structure Family (s : Summit) (h : Heap) : Prop where
  settled : h.Settled
  self : IsMetatype s.metaclass h s.metaclass
  rooted : ∀ v, IsKind s.metaclass h v → v.Rooted ∧ v ≠ s.nil
  typed : ∀ u t, h.typeOf u = .ok t → IsKind s.metaclass h t ∨ t = placeholder
  alone : ∀ v w m, v.tag = .object → w.tag = .object → IsMetatype s.metaclass h m →
    m ≠ s.metaclass → h.typeOf v = .ok m → h.typeOf w = .ok m → v = w
  joined : ∀ v m, v.tag = .object → IsMetatype s.metaclass h m → m ≠ s.metaclass →
    h.typeOf v = .ok m → Joined s h v m
  types_end : ∀ v, IsType s.metaclass h v → Reaches s.nil s.metaclass h v s.object
  metatypes_end : ∀ v, IsMetatype s.metaclass h v → v ≠ s.metaclass →
    Reaches s.nil s.metaclass h v s.last

namespace Family

variable {s : Summit}

theorem steady (hf : Family s h) (hs : Steady s.metaclass h h') : Family s h' := by
  refine ⟨hs.settled, hs.isMetatype hf.self, fun v hv => hf.rooted v (hs.isKind_back hf.self hv),
    ?_, ?_, ?_, fun v hv => hs.reaches (hf.types_end v (hs.isType_back hf.self hv)),
    fun v hv hne => hs.reaches (hf.metatypes_end v (hs.isMetatype_back hf.self hv) hne)⟩
  · intro u t ht
    rcases hs.fresh u t ht with hold | hnew
    · exact (hf.typed u t hold).imp_left hs.isKind
    · exact .inl (.inr (hs.isType hnew))
  · intro v w m htag htag' hm hne hv hw
    have hm' := hs.isMetatype_back hf.self hm
    exact hf.alone v w m htag htag' hm' hne (hs.typeOf_back hm' hv)
      (hs.typeOf_back hm' hw)
  · intro v m htag hm hne hv
    have hm' := hs.isMetatype_back hf.self hm
    have hv' := hs.typeOf_back hm' hv
    have hkind : IsKind s.metaclass h v := .inr ⟨htag, m, hv', hm', hne⟩
    rcases hf.joined v m htag hm' hne hv' with ⟨rfl, hsuper, htop⟩ | hjoined
    · exact .inl ⟨rfl, hs.supertypes _ hkind _ hsuper,
        hs.supertypes m (.inl hm') _ htop⟩
    · obtain ⟨u, w, hsuper, hu, hw, hmeta⟩ := hjoined
      exact .inr ⟨u, w, hs.supertypes v hkind _ hsuper, hs.isKind hu, hs.types u hu w hw,
        hs.supertypes m (.inl hm') _ hmeta⟩

end Family

/-! ## New kinds -/

/-- The object `v` is new and permanent, with the fields of a type that `xs` lists. -/
structure Drawn (h : Heap) (v type : Value) (xs : Nat → Value) (h' : Heap) : Prop extends
    Heap.Drafted h v type Slot.typeSize xs h' where
  rooted : v.Rooted
  types_new : ∀ u t, h'.typeOf u = .ok t → h.typeOf u = .ok t ∨ u.handle? = v.handle? ∧ t = type

namespace Drawn

variable {v type : Value} {xs : Nat → Value} (hd : Drawn h v type xs h')
include hd

theorem tag_eq : v.tag = .object := by
  obtain ⟨a, rfl, -⟩ := hd.rooted
  rfl

/-- A new object is referred to in one way only. -/
theorem eq_of_handle {u : Value} (hu : u.tag = .object) (hhandle : u.handle? = v.handle?) :
    u = v := by
  obtain ⟨a, rfl, -⟩ := hd.rooted
  exact Value.eq_object_iff.mp ⟨hhandle, hu⟩

theorem typeOf_eq_ok {u t : Value} (hu : u.tag = .object) :
    h'.typeOf u = .ok t ↔ h.typeOf u = .ok t ∨ u = v ∧ t = type := by
  constructor
  · intro ht
    refine (hd.types_new u t ht).imp_right ?_
    rintro ⟨hhandle, rfl⟩
    exact ⟨hd.eq_of_handle hu hhandle, rfl⟩
  · rintro (hold | ⟨rfl, rfl⟩)
    · exact hd.types u t hold
    · exact hd.type_eq

theorem field {i : Nat} (hi : i < Slot.typeSize) : h'.fetchField v i = .ok (xs i) :=
  (hd.self i _).mpr ⟨hi, rfl⟩

end Drawn

theorem Heap.types_new_of_allocateFields (hsettled : h.Settled) {space : Space}
    {type fill v : Value} {count : Nat}
    (hallocate : allocateFields space type count fill h = .ok v h') (u t : Value)
    (ht : h'.typeOf u = .ok t) : h.typeOf u = .ok t ∨ u.handle? = v.handle? ∧ t = type := by
  obtain ⟨_, -, hrest⟩ := read_bind_eq_ok.mp hallocate
  obtain ⟨a, g, ha, hv⟩ := bind_eq_ok.mp hrest
  obtain ⟨rfl, rfl⟩ := pure_eq_ok.mp hv
  obtain ⟨-, -, hput⟩ := allocate_eq_ok hsettled ha
  obtain ⟨b, o, hb, ho, rfl⟩ := typeOf_eq_ok.mp ht
  by_cases heq : b = a
  · subst heq
    rw [hput.resolve_self] at ho
    cases ho
    exact .inr ⟨hb, rfl⟩
  · rw [hput.resolve_of_ne heq] at ho
    exact .inl (typeOf_eq_ok.mpr ⟨b, o, hb, ho, rfl⟩)

theorem Drawn.stored {v type : Value} {xs : Nat → Value} {i : Nat} {new : Value}
    (hd : Drawn h v type xs h') (hstored : Heap.Stored h' v i new h'') :
    Drawn h v type (Function.update xs i new) h'' :=
  ⟨hd.toDrafted.stored hstored, hd.rooted, fun u t ht => hd.types_new u t (hstored.types u ▸ ht)⟩

/-- A field of a new type can be set. -/
theorem Drawn.exists_store {v type : Value} {xs : Nat → Value} {i : Nat} (hd : Drawn h v type xs h')
    (hi : i < Slot.typeSize) (new : Value) :
    ∃ h'', Heap.storeField v i new h' = .ok () h'' ∧ Drawn h v type (Function.update xs i new) h'' := by
  obtain ⟨h'', hstore⟩ := Heap.storeField_of_fetchField (hd.field hi) new
  exact ⟨h'', hstore, hd.stored (Heap.stored_of_eq_ok hd.settled hstore)⟩

/-- What the fields of a type say, apart from its name. -/
structure TypeFields (nil supertype : Value) (fixed : Nat) (xs : Nat → Value) : Prop where
  supertype_eq : xs Slot.supertype = supertype
  fixed_eq : xs Slot.fixedFields = .wrapping fixed
  selectors_eq : xs Slot.selectors = nil
  methods_eq : xs Slot.methods = nil

/-- Once there is room for a type, its fields can be filled. -/
theorem drawn_of_allocate (hsettled : h.Settled) {nil type v : Value} (supertype : Value)
    (fixed : Nat) (format : Format)
    (hallocate : Heap.allocateFields .root type Slot.typeSize nil h = .ok v h') :
    ∃ h'' xs, Boot.fillType v supertype fixed format h' = .ok () h'' ∧ Drawn h v type xs h'' ∧
      TypeFields nil supertype fixed xs := by
  have hd : Drawn h v type (fun _ => nil) h' :=
    ⟨(Heap.made_of_eq_ok hsettled hallocate).drafted (by decide),
      Heap.space_of_allocateFields hsettled hallocate,
      Heap.types_new_of_allocateFields hsettled hallocate⟩
  obtain ⟨h₁, hstore₁, hd₁⟩ := hd.exists_store (i := Slot.supertype) (by decide) supertype
  obtain ⟨h₂, hstore₂, hd₂⟩ := hd₁.exists_store (i := Slot.fixedFields) (by decide) (.wrapping fixed)
  obtain ⟨h₃, hstore₃, hd₃⟩ := hd₂.exists_store (i := Slot.methodTally) (by decide) (.ofNat 0)
  obtain ⟨h₄, hstore₄, hd₄⟩ := hd₃.exists_store (i := Slot.format) (by decide) format.toValue
  refine ⟨h₄, _, ?_, hd₄, rfl, rfl, rfl, rfl⟩
  unfold Boot.fillType
  rw [bind_eq_of_ok hstore₁, bind_eq_of_ok hstore₂, bind_eq_of_ok hstore₃, hstore₄]

namespace Drawn

variable {v type : Value} {xs : Nat → Value} (hd : Drawn h v type xs h')
include hd

theorem isMetatype {u : Value} (hu : IsMetatype metaclass h u) : IsMetatype metaclass h' u :=
  ⟨hu.1, hd.types u _ hu.2⟩

theorem isType {u : Value} (hu : IsType metaclass h u) : IsType metaclass h' u := by
  obtain ⟨htag, m, hm, hmeta, hne⟩ := hu
  exact ⟨htag, m, hd.types u m hm, hd.isMetatype hmeta, hne⟩

theorem isKind {u : Value} (hu : IsKind metaclass h u) : IsKind metaclass h' u :=
  hu.imp hd.isMetatype hd.isType

theorem fetchField {u x : Value} {i : Nat} (hx : h.fetchField u i = .ok x) :
    h'.fetchField u i = .ok x :=
  (hd.other u i x (hd.ne (Heap.exists_typeOf_of_fetchField hx))).mpr hx

theorem reaches {nil u last : Value} (hu : Reaches nil metaclass h u last) :
    Reaches nil metaclass h' u last := by
  obtain ⟨chain, hl, hlast, hkinds⟩ := hu
  exact ⟨chain, hl.transfer fun t _ x hx => hd.fetchField hx, hlast,
    fun t ht => hd.isKind (hkinds t ht)⟩

theorem joined {s : Summit} {u m : Value} (hu : Joined s h u m) : Joined s h' u m := by
  rcases hu with ⟨rfl, hsuper, htop⟩ | ⟨w, t, hsuper, hw, ht, hmeta⟩
  · exact .inl ⟨rfl, hd.fetchField hsuper, hd.fetchField htop⟩
  · exact .inr ⟨w, t, hd.fetchField hsuper, hd.isKind hw, hd.types w t ht, hd.fetchField hmeta⟩

end Drawn

namespace Family

variable {s : Summit} {v : Value} {xs : Nat → Value} (hf : Family s h)
include hf

/-- A new object is not the type of another. -/
theorem unused {type : Value} (hd : Drawn h v type xs h') (u : Value) : h.typeOf u ≠ .ok v := by
  intro hu
  rcases hf.typed u v hu with hkind | rfl
  · obtain ⟨t, ht⟩ := hkind.exists_type
    exact hd.stale t ht
  · cases hd.tag_eq

/-- A new metatype. -/
theorem metatype (hd : Drawn h v s.metaclass xs h') (hnil : ∃ t, h.typeOf s.nil = .ok t)
    (habove : Reaches s.nil s.metaclass h (xs Slot.supertype) s.last ∨
      xs Slot.supertype = s.nil ∧ v = s.last) : Family s h' := by
  have hmetatypes : ∀ u, IsMetatype s.metaclass h' u → IsMetatype s.metaclass h u ∨ u = v := by
    rintro u ⟨htag, hu⟩
    exact ((hd.typeOf_eq_ok htag).mp hu).imp (⟨htag, ·⟩) And.left
  have hold : ∀ u m, u.tag = .object → m ≠ s.metaclass → h'.typeOf u = .ok m →
      h.typeOf u = .ok m := by
    intro u m htag hne hu
    exact ((hd.typeOf_eq_ok htag).mp hu).resolve_right fun hnew => hne hnew.2
  have htypes : ∀ u, IsType s.metaclass h' u → IsType s.metaclass h u := by
    rintro u ⟨htag, m, hm, hmeta, hne⟩
    have hm' := hold u m htag hne hm
    refine ⟨htag, m, hm', (hmetatypes m hmeta).resolve_right ?_, hne⟩
    rintro rfl
    exact hf.unused hd u hm'
  have hvnil : v ≠ s.nil := (hd.ne hnil).symm
  have hvkind : IsKind s.metaclass h' v := .inl ⟨hd.tag_eq, hd.type_eq⟩
  have hinstance : ∀ u m, u.tag = .object → IsMetatype s.metaclass h' m → m ≠ s.metaclass →
      h'.typeOf u = .ok m → h.typeOf u = .ok m ∧ IsMetatype s.metaclass h m := by
    intro u m htag hm hne hu
    have hu' := hold u m htag hne hu
    refine ⟨hu', (hmetatypes m hm).resolve_right ?_⟩
    rintro rfl
    exact hf.unused hd u hu'
  refine ⟨hd.settled, hd.isMetatype hf.self, ?_, ?_, ?_, ?_, ?_, ?_⟩
  · rintro u (hu | hu)
    · rcases hmetatypes u hu with hold | rfl
      · exact hf.rooted u (.inl hold)
      · exact ⟨hd.rooted, hvnil⟩
    · exact hf.rooted u (.inr (htypes u hu))
  · intro u t ht
    rcases hd.types_new u t ht with hold | ⟨-, rfl⟩
    · exact (hf.typed u t hold).imp_left hd.isKind
    · exact .inl (.inl (hd.isMetatype hf.self))
  · intro u w m htag htag' hm hne hu hw
    obtain ⟨hu', hm'⟩ := hinstance u m htag hm hne hu
    exact hf.alone u w m htag htag' hm' hne hu' (hinstance w m htag' hm hne hw).1
  · intro u m htag hm hne hu
    obtain ⟨hu', hm'⟩ := hinstance u m htag hm hne hu
    exact hd.joined (hf.joined u m htag hm' hne hu')
  · exact fun u hu => hd.reaches (hf.types_end u (htypes u hu))
  · intro u hu hne
    rcases hmetatypes u hu with hold | rfl
    · exact hd.reaches (hf.metatypes_end u hold hne)
    · have hsuper := hd.field (i := Slot.supertype) (by decide)
      rcases habove with habove | ⟨hend, rfl⟩
      · exact .cons hvkind hvnil hsuper (hd.reaches habove)
      · rw [hend] at hsuper
        exact .last hvkind hvnil hsuper

/-- The instance of a metatype that had none. -/
theorem type {m : Value} (hd : Drawn h v m xs h') (hnil : ∃ t, h.typeOf s.nil = .ok t)
    (hm : IsMetatype s.metaclass h m) (hne : m ≠ s.metaclass) (hfree : ∀ u, h.typeOf u ≠ .ok m)
    (hjoined : Joined s h' v m)
    (habove : Reaches s.nil s.metaclass h (xs Slot.supertype) s.object ∨
      xs Slot.supertype = s.nil ∧ v = s.object) : Family s h' := by
  have hmetatypes : ∀ u, IsMetatype s.metaclass h' u → IsMetatype s.metaclass h u := by
    rintro u ⟨htag, hu⟩
    rcases (hd.typeOf_eq_ok htag).mp hu with hold | ⟨rfl, heq⟩
    · exact ⟨htag, hold⟩
    · exact absurd heq.symm hne
  have htypes : ∀ u, IsType s.metaclass h' u → IsType s.metaclass h u ∨ u = v := by
    rintro u ⟨htag, t, ht, hmeta, hne'⟩
    exact ((hd.typeOf_eq_ok htag).mp ht).imp (⟨htag, t, ·, hmetatypes t hmeta, hne'⟩) And.left
  have hvnil : v ≠ s.nil := (hd.ne hnil).symm
  have hvkind : IsKind s.metaclass h' v := .inr ⟨hd.tag_eq, m, hd.type_eq, hd.isMetatype hm, hne⟩
  refine ⟨hd.settled, hd.isMetatype hf.self, ?_, ?_, ?_, ?_, ?_, ?_⟩
  · rintro u (hu | hu)
    · exact hf.rooted u (.inl (hmetatypes u hu))
    · rcases htypes u hu with hold | rfl
      · exact hf.rooted u (.inr hold)
      · exact ⟨hd.rooted, hvnil⟩
  · intro u t ht
    rcases hd.types_new u t ht with hold | ⟨-, rfl⟩
    · exact (hf.typed u t hold).imp_left hd.isKind
    · exact .inl (.inl (hd.isMetatype hm))
  · intro u w t htag htag' ht hne' hu hw
    have ht' := hmetatypes t ht
    rcases (hd.typeOf_eq_ok htag).mp hu with hu | ⟨rfl, rfl⟩
    · rcases (hd.typeOf_eq_ok htag').mp hw with hw | ⟨rfl, rfl⟩
      · exact hf.alone u w t htag htag' ht' hne' hu hw
      · exact absurd hu (hfree u)
    · rcases (hd.typeOf_eq_ok htag').mp hw with hw | ⟨rfl, -⟩
      · exact absurd hw (hfree w)
      · rfl
  · intro u t htag ht hne' hu
    rcases (hd.typeOf_eq_ok htag).mp hu with hu | ⟨rfl, rfl⟩
    · exact hd.joined (hf.joined u t htag (hmetatypes t ht) hne' hu)
    · exact hjoined
  · intro u hu
    rcases htypes u hu with hold | rfl
    · exact hd.reaches (hf.types_end u hold)
    · have hsuper := hd.field (i := Slot.supertype) (by decide)
      rcases habove with habove | ⟨hend, rfl⟩
      · exact .cons hvkind hvnil hsuper (hd.reaches habove)
      · rw [hend] at hsuper
        exact .last hvkind hvnil hsuper
  · exact fun u hu hne' => hd.reaches (hf.metatypes_end u (hmetatypes u hu) hne')

end Family

/-! ## Making a type -/

/-- Kinds may have been made, and all else is as it was. -/
structure Enlarged (nil metaclass : Value) (h h' : Heap) : Prop where
  settled : h'.Settled
  types : ∀ u t, h.typeOf u = .ok t → h'.typeOf u = .ok t
  fields : ∀ u i x, h.fetchField u i = .ok x → h'.fetchField u i = .ok x
  fields_back : ∀ u i x, (∃ t, h.typeOf u = .ok t) → h'.fetchField u i = .ok x →
    h.fetchField u i = .ok x
  types_new : ∀ u t, h'.typeOf u = .ok t → h.typeOf u = .ok t ∨ IsMetatype metaclass h' t
  /-- New types have no methods. -/
  bare : ∀ u i x, i = Slot.selectors ∨ i = Slot.methods → h'.fetchField u i = .ok x →
    h.fetchField u i = .ok x ∨ x = nil

namespace Enlarged

variable {nil : Value}

theorem refl (hsettled : h.Settled) : Enlarged nil metaclass h h :=
  ⟨hsettled, fun _ _ => id, fun _ _ _ => id, fun _ _ _ _ => id, fun _ _ => .inl,
    fun _ _ _ _ => .inl⟩

theorem isMetatype (he : Enlarged nil metaclass h h') {v : Value} (hv : IsMetatype metaclass h v) :
    IsMetatype metaclass h' v := ⟨hv.1, he.types v _ hv.2⟩

theorem isType (he : Enlarged nil metaclass h h') {v : Value} (hv : IsType metaclass h v) :
    IsType metaclass h' v := by
  obtain ⟨htag, m, hm, hmeta, hne⟩ := hv
  exact ⟨htag, m, he.types v m hm, he.isMetatype hmeta, hne⟩

theorem isKind (he : Enlarged nil metaclass h h') {v : Value} (hv : IsKind metaclass h v) :
    IsKind metaclass h' v := hv.imp he.isMetatype he.isType

theorem definedAs (he : Enlarged nil metaclass h h') {v supertype : Value} {fixed : Nat}
    (hv : DefinedAs metaclass h v supertype fixed) : DefinedAs metaclass h' v supertype fixed :=
  ⟨he.isType hv.isType, he.fields _ _ _ hv.supertype_eq, he.fields _ _ _ hv.fixed_eq⟩

theorem trans (he : Enlarged nil metaclass h h') (he' : Enlarged nil metaclass h' h'') :
    Enlarged nil metaclass h h'' := by
  refine ⟨he'.settled, fun u t ht => he'.types u t (he.types u t ht),
    fun u i x hx => he'.fields u i x (he.fields u i x hx), ?_, ?_, ?_⟩
  · rintro u i x ⟨t, ht⟩ hx
    exact he.fields_back u i x ⟨t, ht⟩ (he'.fields_back u i x ⟨t, he.types u t ht⟩ hx)
  · intro u t ht
    rcases he'.types_new u t ht with hold | hnew
    · exact (he.types_new u t hold).imp_right he'.isMetatype
    · exact .inr hnew
  · intro u i x hi hx
    rcases he'.bare u i x hi hx with hold | rfl
    · exact he.bare u i x hi hold
    · exact .inr rfl

theorem of_drawn {v type supertype : Value} {fixed : Nat} {xs : Nat → Value}
    (hd : Drawn h v type xs h') (hfilled : TypeFields nil supertype fixed xs)
    (htype : IsMetatype metaclass h type) : Enlarged nil metaclass h h' := by
  refine ⟨hd.settled, hd.types, fun u i x => hd.fetchField,
    fun u i x hexists => (hd.other u i x (hd.ne hexists)).mp, ?_, ?_⟩
  · intro u t ht
    refine (hd.types_new u t ht).imp_right ?_
    rintro ⟨-, rfl⟩
    exact hd.isMetatype htype
  · intro u i x hi hx
    by_cases hu : u = v
    · subst hu
      obtain ⟨-, rfl⟩ := (hd.self i x).mp hx
      rcases hi with rfl | rfl
      · exact .inr hfilled.selectors_eq
      · exact .inr hfilled.methods_eq
    · exact .inl ((hd.other u i x hu).mp hx)

/-- A kind that has existed before was a kind before. -/
theorem isKind_back {s : Summit} (he : Enlarged s.nil s.metaclass h h') (hf : Family s h) {v : Value}
    (hold : ∃ t, h.typeOf v = .ok t) (hv : IsKind s.metaclass h' v) : IsKind s.metaclass h v := by
  obtain ⟨t, ht⟩ := hold
  have hnew := he.types v t ht
  rcases hv with ⟨htag, hmeta⟩ | ⟨htag, m, hm, hmeta, hne⟩
  · cases hnew.symm.trans hmeta
    exact .inl ⟨htag, ht⟩
  · cases hnew.symm.trans hm
    refine .inr ⟨htag, t, ht, ?_, hne⟩
    rcases hf.typed v t ht with (hold | ⟨-, m', hm', -, hne'⟩) | rfl
    · exact hold
    · cases (he.types t m' hm').symm.trans hmeta.2
      exact absurd rfl hne'
    · cases hmeta.1

end Enlarged

/-- What the metatype of a new type inherits from. -/
def MetatypeAbove (nil : Value) (h : Heap) (supertype w : Value) : Prop :=
  if supertype = nil then w = nil else h.typeOf supertype = .ok w

/-- `Boot.newType`, once it is known what the metatype inherits from. -/
def makeType (nil metaclass supertype w : Value) (fixed : Nat) (format : Format) :
    HeapM Value := do
  let metatype ← Heap.allocateFields .root metaclass Slot.typeSize nil
  Boot.fillType metatype w Slot.typeSize .fixed
  let type ← Heap.allocateFields .root metatype Slot.typeSize nil
  Boot.fillType type supertype fixed format
  return type

theorem newType_run (nil metaclass supertype : Value) (fixed : Nat) (format : Format) (h : Heap) :
    (∃ fault, Boot.newType nil metaclass supertype fixed format h = .error fault h) ∨
    ∃ w, MetatypeAbove nil h supertype w ∧
      Boot.newType nil metaclass supertype fixed format h =
        makeType nil metaclass supertype w fixed format h := by
  unfold Boot.newType MetatypeAbove
  split
  · exact .inr ⟨nil, rfl, rfl⟩
  · cases hw : h.typeOf supertype with
    | ok w =>
      have hread : Heap.read (·.typeOf supertype) h = .ok w h := Heap.read_eq_ok.mpr ⟨hw, rfl⟩
      exact .inr ⟨w, rfl, bind_eq_of_ok hread⟩
    | error fault =>
      have hread : Heap.read (·.typeOf supertype) h = .error fault h := by
        rw [Heap.read, hw]
      exact .inl ⟨fault, bind_eq_of_error hread⟩

/-- A new type is made after its metatype.  If there is no room for it, the metatype stays. -/
theorem newType_outcome (hsettled : h.Settled) (nil metaclass supertype : Value) (fixed : Nat)
    (format : Format) :
    (∃ fault, Boot.newType nil metaclass supertype fixed format h = .error fault h) ∨
    ∃ w m xs h₂, MetatypeAbove nil h supertype w ∧ Drawn h m metaclass xs h₂ ∧
      TypeFields nil w Slot.typeSize xs ∧
      ((∃ fault, Boot.newType nil metaclass supertype fixed format h = .error fault h₂) ∨
      ∃ v ys h₄, Boot.newType nil metaclass supertype fixed format h = .ok v h₄ ∧
        Drawn h₂ v m ys h₄ ∧ TypeFields nil supertype fixed ys) := by
  rcases newType_run nil metaclass supertype fixed format h with hfault | ⟨w, habove, hrun⟩
  · exact .inl hfault
  rw [hrun, makeType]
  cases hmeta : Heap.allocateFields .root metaclass Slot.typeSize nil h with
  | error fault g =>
    obtain rfl := Heap.heap_of_checked_error hmeta
    exact .inl ⟨fault, bind_eq_of_error hmeta⟩
  | ok m h₁ =>
    obtain ⟨h₂, xs, hfill, hd, hfilled⟩ :=
      drawn_of_allocate hsettled w Slot.typeSize .fixed hmeta
    refine .inr ⟨w, m, xs, h₂, habove, hd, hfilled, ?_⟩
    rw [bind_eq_of_ok hmeta, bind_eq_of_ok hfill]
    cases htype : Heap.allocateFields .root m Slot.typeSize nil h₂ with
    | error fault g =>
      obtain rfl := Heap.heap_of_checked_error htype
      exact .inl ⟨fault, bind_eq_of_error htype⟩
    | ok v h₃ =>
      obtain ⟨h₄, ys, hfill', hd', hfilled'⟩ :=
        drawn_of_allocate hd.settled supertype fixed format htype
      refine .inr ⟨v, ys, h₄, ?_, hd', hfilled'⟩
      rw [bind_eq_of_ok htype, bind_eq_of_ok hfill']
      rfl

namespace Family

variable {s : Summit}

/-- What a new type may inherit from. -/
structure Fertile (s : Summit) (h : Heap) (u : Value) : Prop where
  end_eq : Reaches s.nil s.metaclass h u s.object
  typeOf_end : ∃ w, h.typeOf u = .ok w ∧ Reaches s.nil s.metaclass h w s.last

/-- What the making of a type leaves. -/
structure Born (s : Summit) (h : Heap) (u : Value) (fixed : Nat) (v : Value) (h' : Heap) : Prop where
  family : Family s h'
  enlarged : Enlarged s.nil s.metaclass h h'
  definedAs : DefinedAs s.metaclass h' v u fixed
  new : ∀ t, h.typeOf v ≠ .ok t

/-- The metatype has been made, and now the type is. -/
theorem born {m v w u : Value} {xs ys : Nat → Value} {fixed : Nat} (hnil : ∃ t, h.typeOf s.nil = .ok t)
    (hself : IsMetatype s.metaclass h s.metaclass) (hd : Drawn h m s.metaclass xs h')
    (hfilled : TypeFields s.nil w Slot.typeSize xs) (hf : Family s h') (hd' : Drawn h' v m ys h'')
    (hfilled' : TypeFields s.nil u fixed ys) (hjoined : Joined s h'' v m)
    (habove : Reaches s.nil s.metaclass h' u s.object ∨ u = s.nil ∧ v = s.object)
    (hfree : ∀ t, h'.typeOf t ≠ .ok m) : Born s h u fixed v h'' := by
  have hm : IsMetatype s.metaclass h' m := ⟨hd.tag_eq, hd.type_eq⟩
  have hne : m ≠ s.metaclass := (hd.ne ⟨_, hself.2⟩).symm
  obtain ⟨t, ht⟩ := hnil
  have habove' : Reaches s.nil s.metaclass h' (ys Slot.supertype) s.object ∨
      ys Slot.supertype = s.nil ∧ v = s.object := by
    rw [hfilled'.supertype_eq]
    exact habove
  refine ⟨hf.type hd' ⟨t, hd.types _ t ht⟩ hm hne hfree hjoined habove',
    (Enlarged.of_drawn hd hfilled hself).trans (.of_drawn hd' hfilled' hm),
    ⟨⟨hd'.tag_eq, m, hd'.type_eq, hd'.isMetatype hm, hne⟩, ?_, ?_⟩,
    fun t ht => hd'.ne ⟨t, hd.types v t ht⟩ rfl⟩
  · exact (hd'.field (by decide)).trans (congrArg _ hfilled'.supertype_eq)
  · exact (hd'.field (by decide)).trans (congrArg _ hfilled'.fixed_eq)

/-- A new metatype has no instances. -/
theorem metatype_free (hf : Family s h) {m : Value} {xs : Nat → Value}
    (hd : Drawn h m s.metaclass xs h') (t : Value) : h'.typeOf t ≠ .ok m := by
  intro ht
  rcases hd.types_new t m ht with hold | ⟨-, heq⟩
  · exact hf.unused hd t hold
  · exact hd.ne ⟨_, hf.self.2⟩ heq.symm

theorem newType (hf : Family s h) (hnil : ∃ t, h.typeOf s.nil = .ok t) {u : Value}
    (hu : Fertile s h u) (fixed : Nat) (format : Format) :
    match Boot.newType s.nil s.metaclass u fixed format h with
    | .ok v h' => Born s h u fixed v h'
    | .error _ h' => Family s h' ∧ Enlarged s.nil s.metaclass h h' := by
  have hune : u ≠ s.nil := (hf.rooted u hu.end_eq.isKind).2
  rcases newType_outcome hf.settled s.nil s.metaclass u fixed format with ⟨fault, hrun⟩ |
    ⟨w, m, xs, h₂, habove, hd, hfilled, hrest⟩
  · rw [hrun]
    exact ⟨hf, .refl hf.settled⟩
  rw [MetatypeAbove, if_neg hune] at habove
  obtain ⟨w', hw', hend⟩ := hu.typeOf_end
  cases habove.symm.trans hw'
  have hf₂ := hf.metatype hd hnil (.inl (hfilled.supertype_eq ▸ hend))
  rcases hrest with ⟨fault, hrun⟩ | ⟨v, ys, h₄, hrun, hd', hfilled'⟩
  · rw [hrun]
    exact ⟨hf₂, .of_drawn hd hfilled hf.self⟩
  rw [hrun]
  have hjoined : Joined s h₄ v m := by
    refine .inr ⟨u, w, ?_, hd'.isKind (hd.isKind hu.end_eq.isKind),
      hd'.types u w (hd.types u w habove), ?_⟩
    · exact (hd'.field (by decide)).trans (congrArg _ hfilled'.supertype_eq)
    · exact hd'.fetchField ((hd.field (by decide)).trans (congrArg _ hfilled.supertype_eq))
  exact born hnil hf.self hd hfilled hf₂ hd' hfilled' hjoined (.inl (hd.reaches hu.end_eq))
    (hf.metatype_free hd)

end Family

end MessageMachine
