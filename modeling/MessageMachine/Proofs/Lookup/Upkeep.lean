import MessageMachine.Proofs.Lookup.Hierarchy
import MessageMachine.Proofs.Table.Refusal

/-!
# Keeping up the hierarchy of types

Besides making types, a machine writes into its tables: into those of its symbols and globals and into
the methods of its kinds.  It also makes objects and fills them.  None of that reaches the fields by
which kinds are joined.

* `Hierarchy k h`: the kinds of a machine with the landmarks `k` are a family, the first types are among
  them, and the arrays of all tables are movable objects, so no kind is mistaken for one.
* `Upheld k h₀ h`: the hierarchy has come from `h₀` to `h` without new kinds.
* `Plain k h v`: the object is no kind and has no table, so anything may be stored into it.
-/

namespace MessageMachine

open Boot (placeholder)

variable {k k' : Landmarks} {h h' h₀ : Heap}

/-- The field of the owner of a table holds its keys or its values. -/
def Table.Kind.HasArray (kind : Table.Kind) (i : Nat) : Prop := i = kind.keys ∨ kind.values? = some i

/-! ## Hierarchies -/

/-- The top of the finished trees: the metatype of `Object` inherits from `Class`, and so all metatypes
end at `Object`. -/
def summit (k : Landmarks) : Summit :=
  ⟨k .nil, k .metaclass, k .object, k .classType, k .object⟩

/-- The tables of a machine: the symbols, the globals and the methods of each kind. -/
inductive TableOf (k : Landmarks) (h : Heap) : Table → Prop where
  | symbols : TableOf k h ⟨k .symbolTable, .symbols⟩
  | globals : TableOf k h ⟨k .globals, .globals⟩
  | methods {v : Value} : IsKind (k .metaclass) h v → TableOf k h ⟨v, .methods⟩

/-- The owner of a table of names: a permanent object that is neither a kind nor a method. -/
structure NamesOwner (k : Landmarks) (h : Heap) (v : Value) : Prop where
  rooted : v.Rooted
  ne_nil : v ≠ k .nil
  typeOf_eq : ∃ t, h.typeOf v = .ok t ∧ IsType (k .metaclass) h t ∧ t ≠ k .compiledMethod

/-- But for the first of all, the first types are below one of them that has no fields. -/
theorem planned_above : ∀ entry ∈ Boot.firstTypes,
    entry.2.1 = .nil ∨ ∃ above ∈ Boot.firstTypes, above.1 = entry.2.1 ∧ above.2.2.1 = 0 := by
  decide

/-- The kinds are in order, and no table has one of them for an array. -/
structure Hierarchy (k : Landmarks) (h : Heap) : Prop where
  family : Family (summit k) h
  nil_rooted : (k .nil).Rooted
  nil_exists : ∃ t, h.typeOf (k .nil) = .ok t
  typed : ∀ u t, h.typeOf u = .ok t → t ≠ placeholder
  planned : ∀ entry ∈ Boot.firstTypes,
    DefinedAs (k .metaclass) h (k entry.1) (k entry.2.1) entry.2.2.1
  distinct : ∀ l ∈ Boot.firstTypes.map Prod.fst, ∀ l' ∈ Boot.firstTypes.map Prod.fst,
    k l = k l' → l = l'
  metaclass_super : h.fetchField (k .metaclass) Slot.supertype = .ok (k .classType)
  metaclass_fixed : h.fetchField (k .metaclass) Slot.fixedFields = .ok (.wrapping Slot.typeSize)
  symbols_owner : NamesOwner k h (k .symbolTable)
  globals_owner : NamesOwner k h (k .globals)
  arrays : ∀ t, TableOf k h t → ∀ i, t.kind.HasArray i → ∀ v, h.fetchField t.owner i = .ok v →
    Portable k v

/-- No kind, and the owner of no table. -/
structure Plain (k : Landmarks) (h : Heap) (v : Value) : Prop where
  not_isKind : ¬IsKind (k .metaclass) h v
  ne_symbols : v ≠ k .symbolTable
  ne_globals : v ≠ k .globals

theorem Plain.ne_owner {v : Value} (hv : Plain k h v) {t : Table} (ht : TableOf k h t) :
    t.owner ≠ v := by
  rintro rfl
  cases ht with
  | symbols => exact hv.ne_symbols rfl
  | globals => exact hv.ne_globals rfl
  | methods hkind => exact hv.not_isKind hkind

theorem Steady.tableOf (hs : Steady (k .metaclass) h h') {t : Table} (ht : TableOf k h t) :
    TableOf k h' t := by
  cases ht with
  | symbols => exact .symbols
  | globals => exact .globals
  | methods hkind => exact .methods (hs.isKind hkind)

theorem NamesOwner.steady {v : Value} (ho : NamesOwner k h v) (hs : Steady (k .metaclass) h h')
    (hkept : ∀ u t, u.Rooted → h.typeOf u = .ok t → h'.typeOf u = .ok t) : NamesOwner k h' v := by
  obtain ⟨hrooted, hne, t, ht, htype, hmethod⟩ := ho
  exact ⟨hrooted, hne, t, hkept v t hrooted ht, hs.isType htype, hmethod⟩

namespace Hierarchy

variable (hh : Hierarchy k h)
include hh

theorem self : IsMetatype (k .metaclass) h (k .metaclass) := hh.family.self

theorem first (l : Landmark) (hl : l ∈ Boot.firstTypes.map Prod.fst) :
    IsType (k .metaclass) h (k l) := by
  obtain ⟨entry, hentry, rfl⟩ := List.mem_map.mp hl
  exact (hh.planned entry hentry).isType

theorem isKind_first {l : Landmark} (hl : l ∈ Boot.firstTypes.map Prod.fst) :
    IsKind (k .metaclass) h (k l) := .inr (hh.first l hl)

/-- What makes no kinds, keeps permanent objects as they are and lets no kind into a table keeps the
hierarchy. -/
theorem steady (hs : Steady (k .metaclass) h h')
    (hkept : ∀ u t, u.Rooted → h.typeOf u = .ok t → h'.typeOf u = .ok t)
    (harrays : ∀ t, TableOf k h t → ∀ i, t.kind.HasArray i → ∀ v,
      h'.fetchField t.owner i = .ok v → Portable k v) : Hierarchy k h' := by
  refine ⟨hh.family.steady hs, hh.nil_rooted, ?_, ?_, fun e he => hs.definedAs (hh.planned e he),
    hh.distinct,
    hs.supertypes _ (.inl hh.self) _ hh.metaclass_super,
    hs.fixed _ (.inl hh.self) _ hh.metaclass_fixed, hh.symbols_owner.steady hs hkept,
    hh.globals_owner.steady hs hkept, ?_⟩
  · obtain ⟨t, ht⟩ := hh.nil_exists
    exact ⟨t, hkept _ t hh.nil_rooted ht⟩
  · intro u t ht
    rcases hs.fresh u t ht with hold | htype
    · exact hh.typed u t hold
    · exact htype.ne_placeholder
  · intro t ht
    refine harrays t ?_
    cases ht with
    | symbols => exact .symbols
    | globals => exact .globals
    | methods hkind => exact .methods (hs.isKind_back hh.self hkind)

/-- Only the landmarks of types and tables count. -/
theorem congr (heq : ∀ l, l ∈ [Landmark.nil, .metaclass, .symbolTable, .globals] ∨
    l ∈ Boot.firstTypes.map Prod.fst → k' l = k l) : Hierarchy k' h := by
  have hnil := heq .nil (by decide)
  have hmetaclass := heq .metaclass (by decide)
  have hclass := heq .classType (by decide)
  have hsymbols := heq .symbolTable (by decide)
  have hglobals := heq .globals (by decide)
  have hmethod := heq .compiledMethod (by decide)
  have hsummit : summit k' = summit k := by
    simp only [summit, hnil, hmetaclass, hclass, heq .object (by decide)]
  have howner : ∀ v, NamesOwner k h v → NamesOwner k' h v := by
    rintro v ⟨hrooted, hne, t, ht, htype, hmethod'⟩
    exact ⟨hrooted, hnil ▸ hne, t, ht, hmetaclass ▸ htype, hmethod ▸ hmethod'⟩
  refine ⟨hsummit ▸ hh.family, hnil ▸ hh.nil_rooted, hnil ▸ hh.nil_exists, hh.typed, ?_, ?_, ?_, ?_,
    hsymbols ▸ howner _ hh.symbols_owner, hglobals ▸ howner _ hh.globals_owner, ?_⟩
  · intro entry hentry
    have hsupertype : k' entry.2.1 = k entry.2.1 := by
      rcases planned_above entry hentry with hnil' | ⟨above, habove, habove', -⟩
      · rw [hnil', hnil]
      · rw [← habove', heq above.1 (.inr (List.mem_map_of_mem habove))]
    rw [hmetaclass, heq entry.1 (.inr (List.mem_map_of_mem hentry)), hsupertype]
    exact hh.planned entry hentry
  · intro l hl l' hl'
    rw [heq l (.inr hl), heq l' (.inr hl')]
    exact hh.distinct l hl l' hl'
  · rw [hmetaclass, hclass]
    exact hh.metaclass_super
  · rw [hmetaclass]
    exact hh.metaclass_fixed
  · intro t ht i hi v hv hrooted
    rw [hnil]
    refine hh.arrays t ?_ i hi v hv hrooted
    cases ht with
    | symbols => exact hsymbols ▸ .symbols
    | globals => exact hglobals ▸ .globals
    | methods hkind => exact .methods (hmetaclass ▸ hkind)

/-! ### Plain objects -/

/-- The owner of a table of names is no kind: its type is not a metatype. -/
theorem not_isKind_of_isType {v t : Value} (ht : h.typeOf v = .ok t)
    (htype : IsType (k .metaclass) h t) : ¬IsKind (k .metaclass) h v := fun hkind =>
  (hkind.isMetatype_typeOf hh.self ht).not_isType htype

/-- The only table of a kind is that of its methods. -/
theorem kind_of_isKind {t : Table} (ht : TableOf k h t) (hkind : IsKind (k .metaclass) h t.owner) :
    t.kind = .methods := by
  have howner : ∀ v, NamesOwner k h v → ¬IsKind (k .metaclass) h v := by
    intro v hv
    obtain ⟨type, htype, hist, -⟩ := hv.typeOf_eq
    exact hh.not_isKind_of_isType htype hist
  cases ht with
  | symbols => exact absurd hkind (howner _ hh.symbols_owner)
  | globals => exact absurd hkind (howner _ hh.globals_owner)
  | methods _ => rfl

/-- The array of a table is plain. -/
theorem plain_of_portable {v : Value} (hv : Portable k v) : Plain k h v := by
  refine ⟨fun hkind => ?_, ?_, ?_⟩
  · obtain ⟨hrooted, hne⟩ := hh.family.rooted v hkind
    exact hne (hv hrooted)
  · rintro rfl
    exact hh.symbols_owner.ne_nil (hv hh.symbols_owner.rooted)
  · rintro rfl
    exact hh.globals_owner.ne_nil (hv hh.globals_owner.rooted)

/-- A method is plain. -/
theorem plain_of_method {v : Value} (hv : h.typeOf v = .ok (k .compiledMethod)) : Plain k h v := by
  refine ⟨hh.not_isKind_of_isType hv (hh.first _ (by decide)), ?_, ?_⟩
  · rintro rfl
    obtain ⟨t, ht, -, hne⟩ := hh.symbols_owner.typeOf_eq
    exact hne (Except.ok.inj (ht.symm.trans hv))
  · rintro rfl
    obtain ⟨t, ht, -, hne⟩ := hh.globals_owner.typeOf_eq
    exact hne (Except.ok.inj (ht.symm.trans hv))

/-- What does not exist yet is plain. -/
theorem plain_of_new {v : Value} (hv : ∀ t, h.typeOf v ≠ .ok t) : Plain k h v := by
  refine ⟨fun hkind => ?_, ?_, ?_⟩
  · obtain ⟨t, ht⟩ := hkind.exists_type
    exact hv t ht
  · rintro rfl
    obtain ⟨t, ht, -⟩ := hh.symbols_owner.typeOf_eq
    exact hv t ht
  · rintro rfl
    obtain ⟨t, ht, -⟩ := hh.globals_owner.typeOf_eq
    exact hv t ht

/-! ### New types -/

/-- A hierarchy of which the family has grown. -/
theorem enlarged (hf : Family (summit k) h') (he : Enlarged (k .nil) (k .metaclass) h h') :
    Hierarchy k h' := by
  have howner : ∀ v, NamesOwner k h v → NamesOwner k h' v := by
    rintro v ⟨hrooted, hne, t, ht, htype, hmethod⟩
    exact ⟨hrooted, hne, t, he.types v t ht, he.isType htype, hmethod⟩
  refine ⟨hf, hh.nil_rooted, ?_, ?_, fun e hmem => he.definedAs (hh.planned e hmem),
    hh.distinct, he.fields _ _ _ hh.metaclass_super, he.fields _ _ _ hh.metaclass_fixed,
    howner _ hh.symbols_owner, howner _ hh.globals_owner, ?_⟩
  · obtain ⟨t, ht⟩ := hh.nil_exists
    exact ⟨t, he.types _ t ht⟩
  · intro u t ht
    rcases he.types_new u t ht with hold | ⟨htag, -⟩
    · exact hh.typed u t hold
    · rintro rfl
      cases htag
  · have hold : ∀ t, TableOf k h t → ∀ i, t.kind.HasArray i → ∀ v,
        h'.fetchField t.owner i = .ok v → (∃ type, h.typeOf t.owner = .ok type) → Portable k v :=
      fun t ht i hi v hv hexists => hh.arrays t ht i hi v (he.fields_back _ i v hexists hv)
    intro t ht i hi v hv
    cases ht with
    | symbols =>
        obtain ⟨type, htype, -⟩ := hh.symbols_owner.typeOf_eq
        exact hold _ .symbols i hi v hv ⟨type, htype⟩
    | globals =>
        obtain ⟨type, htype, -⟩ := hh.globals_owner.typeOf_eq
        exact hold _ .globals i hi v hv ⟨type, htype⟩
    | @methods owner hkind =>
        have hslot : i = Slot.selectors ∨ i = Slot.methods :=
          hi.imp id fun hi => (Option.some.inj hi).symm
        rcases he.bare owner i v hslot hv with hfetch | rfl
        · have hexists := Heap.exists_typeOf_of_fetchField hfetch
          exact hold _ (.methods (he.isKind_back hh.family hexists hkind)) i hi v hv hexists
        · exact fun _ => rfl

/-- Types and `Metaclass` may be inherited from. -/
theorem fertile {u : Value} (hu : IsType (k .metaclass) h u ∨ u = k .metaclass) :
    Family.Fertile (summit k) h u := by
  have hmetaclass : Reaches (k .nil) (k .metaclass) h (k .metaclass) (k .object) := by
    refine .cons (.inl hh.self) (hh.family.rooted _ (.inl hh.self)).2 hh.metaclass_super ?_
    exact hh.family.types_end _ (hh.first .classType (by decide))
  rcases hu with hu | rfl
  · obtain ⟨-, w, hw, hmeta, hne⟩ := id hu
    exact ⟨hh.family.types_end u hu, w, hw, hh.family.metatypes_end w hmeta hne⟩
  · exact ⟨hmetaclass, _, hh.self.2, hmetaclass⟩

theorem newType {u : Value} (hu : IsType (k .metaclass) h u ∨ u = k .metaclass) (fixed : Nat)
    (format : Format) :
    match Boot.newType (k .nil) (k .metaclass) u fixed format h with
    | .ok v h' => Hierarchy k h' ∧ Enlarged (k .nil) (k .metaclass) h h' ∧
        DefinedAs (k .metaclass) h' v u fixed ∧ ∀ t, h.typeOf v ≠ .ok t
    | .error _ h' => Hierarchy k h' ∧ Enlarged (k .nil) (k .metaclass) h h' := by
  have houtcome := hh.family.newType hh.nil_exists (hh.fertile hu) fixed format
  change match Boot.newType (k .nil) (k .metaclass) u fixed format h with
    | .ok v h' => Family.Born (summit k) h u fixed v h'
    | .error _ h' => Family (summit k) h' ∧ Enlarged (k .nil) (k .metaclass) h h' at houtcome
  cases hrun : Boot.newType (k .nil) (k .metaclass) u fixed format h with
  | ok v h' =>
      rw [hrun] at houtcome
      exact ⟨hh.enlarged houtcome.family houtcome.enlarged, houtcome.enlarged, houtcome.definedAs,
        houtcome.new⟩
  | error fault h' =>
      rw [hrun] at houtcome
      exact ⟨hh.enlarged houtcome.1 houtcome.2, houtcome.2⟩

end Hierarchy

/-! ## Hierarchies without new kinds -/

/-- The hierarchy has come from `h₀` to `h` without new kinds. -/
structure Upheld (k : Landmarks) (h₀ h : Heap) : Prop where
  start : Hierarchy k h₀
  hierarchy : Hierarchy k h
  steady : Steady (k .metaclass) h₀ h

theorem Hierarchy.tended (hh : Hierarchy k h) : Upheld k h h :=
  ⟨hh, hh, .refl hh.family.settled⟩

namespace Upheld

variable (ht : Upheld k h₀ h)
include ht

theorem isKind_iff {v : Value} : IsKind (k .metaclass) h v ↔ IsKind (k .metaclass) h₀ v :=
  ⟨ht.steady.isKind_back ht.start.self, ht.steady.isKind⟩

theorem tableOf_iff {t : Table} : TableOf k h t ↔ TableOf k h₀ t := by
  refine ⟨fun htable => ?_, ht.steady.tableOf⟩
  cases htable with
  | symbols => exact .symbols
  | globals => exact .globals
  | methods hkind => exact .methods (ht.isKind_iff.mp hkind)

theorem plain_iff {v : Value} : Plain k h v ↔ Plain k h₀ v :=
  ⟨fun hv => ⟨fun hkind => hv.not_isKind (ht.isKind_iff.mpr hkind), hv.ne_symbols, hv.ne_globals⟩,
    fun hv => ⟨fun hkind => hv.not_isKind (ht.isKind_iff.mp hkind), hv.ne_symbols, hv.ne_globals⟩⟩

/-- Another change that makes no kinds. -/
theorem step (hs : Steady (k .metaclass) h h')
    (hkept : ∀ u t, u.Rooted → h.typeOf u = .ok t → h'.typeOf u = .ok t)
    (harrays : ∀ t, TableOf k h t → ∀ i, t.kind.HasArray i → ∀ v,
      h'.fetchField t.owner i = .ok v → Portable k v) : Upheld k h₀ h' :=
  ⟨ht.start, ht.hierarchy.steady hs hkept harrays, ht.steady.trans ht.start.self hs⟩

omit ht

/-! ### Stores and new objects -/

/-- A store that joins no kinds otherwise and puts only movable arrays into tables. -/
theorem keeps_storeField {v new : Value} {i : Nat}
    (hkind : IsKind (k .metaclass) h₀ v → i ≠ Slot.supertype ∧ i ≠ Slot.fixedFields)
    (harray : ∀ t, TableOf k h₀ t → t.owner = v → t.kind.HasArray i → Portable k new) :
    Keeps (Upheld k h₀) (Heap.storeField v i new) := by
  intro h ht
  cases hrun : Heap.storeField v i new h with
  | error fault h' =>
      rw [Heap.heap_of_change_error hrun]
      exact ht
  | ok u h' =>
      have hstored := Heap.stored_of_eq_ok ht.hierarchy.family.settled hrun
      refine ht.step (.of_stored hstored fun hk => hkind (ht.isKind_iff.mp hk)) ?_ ?_
      · exact fun u t _ htype => (hstored.types u).trans htype
      · intro t htable j hj x hx
        by_cases hself : t.owner = v ∧ j = i
        · obtain ⟨rfl, rfl⟩ := hself
          cases hstored.self.symm.trans hx
          exact harray t (ht.tableOf_iff.mp htable) rfl hj
        · exact ht.hierarchy.arrays t htable j hj x
            ((hstored.other _ _ _ (Classical.not_and_iff_not_or_not.mp hself)).mp hx)

theorem keeps_store_plain {v : Value} (hv : Plain k h₀ v) (i : Nat) (new : Value) :
    Keeps (Upheld k h₀) (Heap.storeField v i new) :=
  keeps_storeField (fun hkind => absurd hkind hv.not_isKind)
    fun _ htable heq => absurd heq (hv.ne_owner htable)

/-- A store of something movable into the owner of a table, but not where kinds are joined. -/
theorem keeps_store_owner {t : Table} (ht : TableOf k h₀ t) {i : Nat} {new : Value}
    (hi : t.kind = .methods → i ≠ Slot.supertype ∧ i ≠ Slot.fixedFields) (hnew : Portable k new) :
    Keeps (Upheld k h₀) (Heap.storeField t.owner i new) := by
  intro h htended
  refine keeps_storeField (fun hkind => hi ?_) (fun _ _ _ _ => hnew) h htended
  exact htended.start.kind_of_isKind ht hkind

theorem ensures_allocateFields {type : Value} (htype : IsType (k .metaclass) h₀ type)
    (space : Space) (count : Nat) :
    Ensures (Upheld k h₀) (Heap.allocateFields space type count (k .nil))
      (fun v h => Upheld k h₀ h ∧ (space = .ephemeral → Portable k v) ∧ Plain k h₀ v ∧
        h.typeOf v = .ok type)
      fun _ => Upheld k h₀ := by
  intro h ht
  cases hrun : Heap.allocateFields space type count (k .nil) h with
  | error fault h' =>
      rw [Heap.heap_of_checked_error hrun]
      exact ht
  | ok v h' =>
      have hmade := Heap.made_of_eq_ok ht.hierarchy.family.settled hrun
      obtain ⟨a, rfl, hspace⟩ := Heap.space_of_allocateFields ht.hierarchy.family.settled hrun
      have hplain := ht.hierarchy.plain_of_new hmade.stale
      refine ⟨ht.step (.of_made hmade (ht.steady.isType htype)) ?_ ?_, ?_, ht.plain_iff.mp hplain,
        hmade.type_eq⟩
      · exact fun u t _ => hmade.types u t
      · intro t htable j hj x hx
        exact ht.hierarchy.arrays t htable j hj x
          ((hmade.other _ _ _ (hplain.ne_owner htable)).mp hx)
      · rintro rfl ⟨b, hb, hroot⟩
        cases hb
        rw [hspace] at hroot
        cases hroot

theorem keeps_allocateBytesFrom {type : Value} (htype : IsType (k .metaclass) h₀ type)
    (space : Space) (bytes : Array UInt8) :
    Keeps (Upheld k h₀) (Heap.allocateBytesFrom space type bytes) := by
  intro h ht
  cases hrun : Heap.allocateBytesFrom space type bytes h with
  | error fault h' =>
      rw [Heap.heap_of_checked_error hrun]
      exact ht
  | ok v h' =>
      have hbuffered := Heap.buffered_of_eq_ok ht.hierarchy.family.settled hrun
      refine ht.step (.of_buffered hbuffered (ht.steady.isType htype))
        (fun u t _ => hbuffered.types u t) ?_
      intro t htable i hi x hx
      obtain ⟨xs, hxs, hget⟩ := Heap.fetchField_eq_ok.mp hx
      exact ht.hierarchy.arrays t htable i hi x
        (Heap.fetchField_eq_ok.mpr ⟨xs, (hbuffered.fields _ _).mp hxs, hget⟩)

/-! ### Tables and names -/

/-- The name of a kind is not what joins it to others. -/
theorem keeps_setName (hh : Hierarchy k h₀) {v : Value} (hv : IsKind (k .metaclass) h₀ v)
    (name : Value) : Keeps (Upheld k h₀) (Heap.storeField v Slot.typeName name) := by
  refine keeps_storeField (fun _ => by decide) fun t ht heq hslot => ?_
  rw [hh.kind_of_isKind ht (heq ▸ hv)] at hslot
  rcases hslot with heq | heq <;> cases heq

section Tables

variable (hh : Hierarchy k h₀) {config : Table.Config} (hnil : config.nil = k .nil)
  (harray : config.array = k .array)
include hh hnil harray

theorem footprint {t : Table} (ht : TableOf k h₀ t) :
    Table.Footprint config t (Upheld k h₀) (Portable k) := by
  have hslots : ∀ i, i = t.kind.tally ∨ i = t.kind.keys ∨ t.kind.values? = some i →
      t.kind = .methods → i ≠ Slot.supertype ∧ i ≠ Slot.fixedFields := by
    intro i hi hkind
    rw [hkind] at hi
    rcases hi with rfl | rfl | hi
    · decide
    · decide
    · obtain rfl := Option.some.inj hi
      decide
  refine ⟨fun h v htended => htended.hierarchy.arrays t (htended.tableOf_iff.mpr ht) _ (.inl rfl) v,
    fun slot hslot h v htended =>
      htended.hierarchy.arrays t (htended.tableOf_iff.mpr ht) _ (.inr hslot) v,
    fun v i new hv => keeps_store_plain (hh.plain_of_portable hv) i new,
    fun n => keeps_store_owner ht (hslots _ (.inl rfl)) (portable_int k _),
    fun v hv => keeps_store_owner ht (hslots _ (.inr (.inl rfl))) hv,
    fun slot hslot v hv => keeps_store_owner ht (hslots _ (.inr (.inr hslot))) hv, fun count => ?_⟩
  rw [hnil, harray]
  exact (ensures_allocateFields (hh.first .array (by decide)) .ephemeral count).weaken
    (fun _ => id) (fun v h hv => ⟨hv.1, hv.2.1 rfl⟩) fun _ _ => id

variable {known : Landmarks}

theorem keeps_intern (hsymbols : known .symbolTable = k .symbolTable)
    (hsymbol : known .symbol = k .symbol) (name : String) :
    Keeps (Upheld k h₀) (Boot.intern config known name) := by
  unfold Boot.intern
  rw [hsymbols, hsymbol]
  exact (footprint hh hnil harray .symbols).keeps_intern rfl
    (keeps_allocateBytesFrom (hh.first .symbol (by decide)) _ _)

theorem keeps_setGlobal (hglobals : known .globals = k .globals) (symbol value : Value) :
    Keeps (Upheld k h₀) (Boot.setGlobal config known symbol value) := by
  unfold Boot.setGlobal
  rw [hglobals]
  exact (footprint hh hnil harray .globals).keeps_insert symbol value

theorem keeps_nameType (hsymbols : known .symbolTable = k .symbolTable)
    (hsymbol : known .symbol = k .symbol) (hglobals : known .globals = k .globals) {type : Value}
    (htype : IsKind (k .metaclass) h₀ type) (name : String) :
    Keeps (Upheld k h₀) (Boot.nameType config known type name) := by
  unfold Boot.nameType
  refine (keeps_intern hh hnil harray hsymbols hsymbol name).bind fun symbol =>
    (keeps_setName hh htype symbol).bind fun _ => ?_
  refine Ensures.keeps (Ensures.bind (Heap.ensures_read _) fun metatype => ?_)
  rintro h ⟨ht, hread⟩
  refine Keeps.ensures ?_ h ht
  have hglobal := keeps_setGlobal hh hnil harray hglobals symbol type
  have hmeta : IsKind (k .metaclass) h₀ metatype := by
    refine ht.isKind_iff.mp (.inl ?_)
    exact (ht.isKind_iff.mpr htype).isMetatype_typeOf ht.hierarchy.self hread
  split
  · refine (keeps_intern hh hnil harray hsymbols hsymbol (name ++ " class")).bind fun symbol => ?_
    exact (keeps_setName hh hmeta symbol).bind fun _ => hglobal
  · exact hglobal

end Tables

end Upheld

/-! ## Machines -/

namespace Machine

/-- A machine that has come from the heap `h₀` without new kinds, and in which no context is active. -/
structure Tending (k : Landmarks) (h₀ : Heap) (m : Machine) : Prop where
  known_eq : m.known = k
  idle : m.regs.activeContext = k .nil
  tended : Upheld k h₀ m.heap

namespace Tending

theorem keeps_onHeap {action : Machine → HeapM α} (hkeeps : ∀ m, Tending k h₀ m →
    Keeps (Upheld k h₀) (action m)) : Keeps (Tending k h₀) (fun m => onHeap (action m) m) := by
  intro m hm
  change Tending k h₀ (stateAfter (onHeap (action m) m))
  rw [stateAfter_onHeap]
  exact ⟨hm.known_eq, hm.idle, hkeeps m hm _ hm.tended⟩

theorem keeps_intern (name : String) : Keeps (Tending k h₀) (intern name) := by
  refine keeps_onHeap fun m hm => ?_
  obtain ⟨rfl, -, ht⟩ := hm
  exact Upheld.keeps_intern ht.start rfl rfl rfl rfl name

theorem ensures_newMethod (count : Nat) :
    Ensures (Tending k h₀) (newObject .compiledMethod count)
      (fun v m => Tending k h₀ m ∧ Plain k h₀ v) fun _ => Tending k h₀ := by
  rintro m ⟨rfl, hidle, ht⟩
  have houtcome := Upheld.ensures_allocateFields (ht.start.first .compiledMethod (by decide))
    .ephemeral count m.heap ht
  have hnew : newObject .compiledMethod count m =
      onHeap (Heap.allocateFields .ephemeral (m.known .compiledMethod) count (m.known .nil)) m := rfl
  rw [hnew, onHeap_run]
  cases hrun : Heap.allocateFields .ephemeral (m.known .compiledMethod) count (m.known .nil) m.heap with
  | ok v h =>
      rw [hrun] at houtcome
      exact ⟨⟨rfl, hidle, houtcome.1⟩, houtcome.2.2.1⟩
  | error fault h =>
      rw [hrun] at houtcome
      exact ⟨rfl, hidle, houtcome⟩

theorem keeps_storeField {v : Value} (hv : Plain k h₀ v) (i : Nat) (new : Value) :
    Keeps (Tending k h₀) (storeField v i new) :=
  keeps_onHeap fun _ _ => Upheld.keeps_store_plain hv i new

/-- Compiling a method makes no kinds and stores into none. -/
theorem compiles : Compiles (Tending k h₀) (Plain k h₀) where
  intern := keeps_intern
  buffer := by
    rintro l hl _ bytes m hm rfl
    have hkeeps : Keeps (Tending k h₀)
        (fun m' => onHeap (Heap.allocateBytesFrom .ephemeral (m.known l) bytes) m') := by
      refine keeps_onHeap fun m' hm' => Upheld.keeps_allocateBytesFrom ?_ _ _
      rw [hm.known_eq]
      refine hm.tended.start.first l ?_
      revert l
      decide
    exact hkeeps m hm
  make := ensures_newMethod
  fill := fun _ i new hv => keeps_storeField hv i new

/-- Methods go into the tables of kinds. -/
theorem keeps_installMethod {type method : Value} (htype : IsKind (k .metaclass) h₀ type)
    (hmethod : Plain k h₀ method) : Keeps (Tending k h₀) (installMethod type method) := by
  refine (keeps_fetchField _ _).bind fun selector => (keeps_storeField hmethod _ _).bind fun _ => ?_
  refine Keeps.bind (keeps_onHeap fun m hm => ?_) fun _ => ?_
  · obtain ⟨rfl, -, ht⟩ := hm
    exact (Upheld.footprint ht.start rfl rfl (.methods htype)).keeps_insert _ _
  · exact fun m hm => ⟨hm.known_eq, hm.idle, hm.tended⟩

theorem keeps_defineMethod {type : Value} (htype : IsKind (k .metaclass) h₀ type)
    (spec : MethodSpec) : Keeps (Tending k h₀) (defineMethod type spec) := by
  refine Ensures.keeps (Ensures.bind (compiles.ensures_compileMethod spec) fun method => ?_)
  rintro m ⟨hm, hmethod⟩
  exact ((keeps_installMethod htype hmethod).bind fun _ => Keeps.pure _).ensures m hm

theorem keeps_nameType {type : Value} (htype : IsKind (k .metaclass) h₀ type) (name : String) :
    Keeps (Tending k h₀) (fun m => onHeap (Boot.nameType m.tableConfig m.known type name) m) := by
  refine keeps_onHeap fun m hm => ?_
  obtain ⟨rfl, -, ht⟩ := hm
  exact Upheld.keeps_nameType ht.start rfl rfl rfl rfl rfl htype name

end Tending

end Machine

end MessageMachine
