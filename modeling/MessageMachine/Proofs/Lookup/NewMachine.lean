import MessageMachine.Machine.Kernel
import MessageMachine.Proofs.Lookup.FirstTypes

/-!
# The types of a new machine

A new machine has its types in order, whatever its settings (`Machine.hierarchy_create`): when the types
have been made, booting makes tables, the objects of the scheduler and the special selectors, names the
types, and installs the kernel methods, none of which makes kinds or joins them otherwise.
-/

namespace MessageMachine

variable {k k' known : Landmarks} {h h' h₀ : Heap} {config : Table.Config}

/-! ## The tables -/

namespace Crowned

theorem first (hc : Crowned k h) (l : Landmark) (hl : l ∈ Boot.firstTypes.map Prod.fst) :
    IsType (k .metaclass) h (k l) := by
  obtain ⟨entry, hentry, rfl⟩ := List.mem_map.mp hl
  exact (hc.planned entry hentry).isType

/-- A new object of one of the first types. -/
theorem made (hc : Crowned k h) {l : Landmark} (hl : l ∈ Boot.firstTypes.map Prod.fst) {v : Value}
    {space : Space} {count : Nat} {fill : Value}
    (hrun : Heap.allocateFields space (k l) count fill h = .ok v h') :
    Steady (k .metaclass) h h' ∧ ¬IsKind (k .metaclass) h' v := by
  have hmade := Heap.made_of_eq_ok hc.family.settled hrun
  have htype := hc.first l hl
  have hs := Steady.of_made hmade htype
  refine ⟨hs, fun hkind => ?_⟩
  obtain ⟨t, ht⟩ := (hs.isKind_back hc.family.self hkind).exists_type
  exact hmade.stale t ht

/-- What makes no kinds and keeps the types of objects. -/
theorem steady (hc : Crowned k h) (hs : Steady (k .metaclass) h h')
    (hkept : ∀ u t, h.typeOf u = .ok t → h'.typeOf u = .ok t) : Crowned k h' := by
  have hself : IsMetatype (k .metaclass) h (k .metaclass) := hc.family.self
  obtain ⟨t, ht⟩ := hc.nil_exists
  refine ⟨hc.family.steady hs, hc.nil_rooted, ⟨t, hkept _ t ht⟩, ?_,
    fun e he => hs.definedAs (hc.planned e he), hc.distinct, hs.supertypes _ (.inl hself) _ hc.metaclass_super,
    hs.fixed _ (.inl hself) _ hc.metaclass_fixed⟩
  intro u t ht
  rcases hs.fresh u t ht with hold | htype
  · exact hc.typed u t hold
  · exact htype.ne_placeholder

/-- With its two tables the machine has a hierarchy. -/
theorem tables (hc : Crowned k h) (ht : Boot.Typed k Boot.plainLandmarks h)
    (hrun : Boot.tables k h = .ok k' h') : Hierarchy k' h' := by
  obtain ⟨symbolTable, globals, hk', hblank, ht'⟩ := Boot.blank_tables ht hrun
  obtain ⟨symbolTable', h₁, hsymbols, hrest⟩ := bind_eq_ok.mp hrun
  obtain ⟨_, h₂, hstore₂, hrest⟩ := bind_eq_ok.mp hrest
  obtain ⟨globals', h₃, hglobals, hrest⟩ := bind_eq_ok.mp hrest
  obtain ⟨_, h₄, hstore₄, hend⟩ := bind_eq_ok.mp hrest
  obtain ⟨hsame, rfl⟩ := pure_eq_ok.mp hend
  have hk : ∀ l, l ≠ .symbolTable → l ≠ .globals → k' l = k l := by
    intro l hl hl'
    rw [hk', Landmarks.get_set_of_ne _ hl', Landmarks.get_set_of_ne _ hl]
  have hsymbolTable : k' .symbolTable = symbolTable := by
    rw [hk', Landmarks.get_set_of_ne _ (by decide), Landmarks.get_set_self]
  have hglobalTable : k' .globals = globals := by
    rw [hk', Landmarks.get_set_self]
  obtain rfl : symbolTable' = symbolTable := by
    rw [← hsymbolTable, ← hsame, Landmarks.get_set_of_ne _ (by decide), Landmarks.get_set_self]
  obtain rfl : globals' = globals := by
    rw [← hglobalTable, ← hsame, Landmarks.get_set_self]
  have hmade₁ := Heap.made_of_eq_ok hc.family.settled hsymbols
  obtain ⟨hs₁, hplain₁⟩ := hc.made (by decide) hsymbols
  have hc₁ := hc.steady hs₁ hmade₁.types
  have hstored₂ := Heap.stored_of_eq_ok hc₁.family.settled hstore₂
  have hc₂ := hc₁.steady (.of_stored hstored₂ fun hkind => absurd hkind hplain₁)
    fun u t hu => (hstored₂.types u).trans hu
  have hmade₃ := Heap.made_of_eq_ok hc₂.family.settled hglobals
  obtain ⟨hs₃, hplain₃⟩ := hc₂.made (by decide) hglobals
  have hc₃ := hc₂.steady hs₃ hmade₃.types
  have hstored₄ := Heap.stored_of_eq_ok hc₃.family.settled hstore₄
  have hc₄ := hc₃.steady (.of_stored hstored₄ fun hkind => absurd hkind hplain₃)
    fun u t hu => (hstored₄.types u).trans hu
  have hsymbolsType : h₄.typeOf symbolTable' = .ok (k .symbolTableType) := by
    rw [hstored₄.types]
    refine hmade₃.types _ _ ?_
    rw [hstored₂.types]
    exact hmade₁.type_eq
  have hglobalsType : h₄.typeOf globals' = .ok (k .dictionary) :=
    (hstored₄.types _).trans hmade₃.type_eq
  obtain ⟨t, hnil⟩ := hc.nil_exists
  have hnilNe : symbolTable' ≠ k .nil ∧ globals' ≠ k .nil := by
    constructor
    · rintro rfl
      exact (hblank.new t).1 hnil
    · rintro rfl
      exact (hblank.new t).2 hnil
  have hdistinct : ∀ l ∈ [Landmark.symbolTableType, .dictionary], k l ≠ k .compiledMethod := by
    intro l hl
    have hplain : l ∈ Boot.plainLandmarks ∧ l ≠ .compiledMethod := by
      revert l
      decide
    exact fun heq => hplain.2 (ht.distinct l hplain.1 _ (by decide) heq)
  have hnilEq := hk .nil (by decide) (by decide)
  have hmetaclass := hk .metaclass (by decide) (by decide)
  have hclass := hk .classType (by decide) (by decide)
  have hmethod := hk .compiledMethod (by decide) (by decide)
  have hsummit : summit k' = summit k := by
    simp only [summit, hnilEq, hmetaclass, hclass, hk .object (by decide) (by decide)]
  refine ⟨hsummit ▸ hc₄.family, hnilEq ▸ hc₄.nil_rooted, hnilEq ▸ hc₄.nil_exists, hc₄.typed, ?_, ?_, ?_, ?_,
    ⟨hsymbolTable ▸ hblank.rooted.1, ?_, k .symbolTableType, ?_, ?_, ?_⟩,
    ⟨hglobalTable ▸ hblank.rooted.2, ?_, k .dictionary, ?_, ?_, ?_⟩, ?_⟩
  · intro entry hentry
    have hne : entry.1 ≠ .symbolTable ∧ entry.1 ≠ .globals ∧ entry.2.1 ≠ .symbolTable ∧
        entry.2.1 ≠ .globals := by
      revert entry
      decide
    rw [hmetaclass, hk entry.1 hne.1 hne.2.1, hk entry.2.1 hne.2.2.1 hne.2.2.2]
    exact hc₄.planned entry hentry
  · have hfirst : ∀ l ∈ Boot.firstTypes.map Prod.fst, k' l = k l := by
      intro l hl
      have hne : l ≠ .symbolTable ∧ l ≠ .globals := by
        revert l
        decide
      exact hk l hne.1 hne.2
    intro l hl l' hl'
    rw [hfirst l hl, hfirst l' hl']
    exact hc₄.distinct l hl l' hl'
  · rw [hmetaclass, hclass]
    exact hc₄.metaclass_super
  · rw [hmetaclass]
    exact hc₄.metaclass_fixed
  · rw [hsymbolTable, hnilEq]
    exact hnilNe.1
  · rw [hsymbolTable]
    exact hsymbolsType
  · rw [hmetaclass]
    exact hc₄.first .symbolTableType (by decide)
  · rw [hmethod]
    exact hdistinct _ (by decide)
  · rw [hglobalTable, hnilEq]
    exact hnilNe.2
  · rw [hglobalTable]
    exact hglobalsType
  · rw [hmetaclass]
    exact hc₄.first .dictionary (by decide)
  · rw [hmethod]
    exact hdistinct _ (by decide)
  · -- no table has its arrays yet
    intro t htable i hi v hv _
    rw [hnilEq]
    cases htable with
    | symbols =>
        rw [hsymbolTable] at hv
        rcases hi with rfl | hi
        · exact hblank.keys v hv
        · cases hi
    | globals =>
        rw [hglobalTable] at hv
        exact hblank.arrays i v (hi.imp id fun hi => (Option.some.inj hi).symm) hv
    | methods _ =>
        exact ht'.vacant _ i v (hi.imp id fun hi => (Option.some.inj hi).symm) hv

end Crowned

/-! ## The rest of booting -/

/-- The landmarks that the later steps of booting read. -/
structure Boot.Reads (k : Landmarks) (config : Table.Config) (known : Landmarks) : Prop where
  nil_eq : config.nil = k .nil
  array_eq : config.array = k .array
  known_eq : ∀ l, l ∉ [Landmark.processor, .specialSelectors, .doesNotUnderstand] → known l = k l

namespace Upheld

section

variable (hh : Hierarchy k h₀) (hreads : Boot.Reads k config known)
include hh hreads

/-- A new permanent object of one of the first types, which may then be filled. -/
theorem ensures_instanceOf {l : Landmark} (hl : l ∈ Boot.firstTypes.map Prod.fst) (size : Nat) :
    Ensures (Upheld k h₀) (Boot.instanceOf known l size)
      (fun v h => Upheld k h₀ h ∧ Plain k h₀ v) fun _ => Upheld k h₀ := by
  have hne : l ∉ [Landmark.processor, .specialSelectors, .doesNotUnderstand] := by
    revert l
    decide
  unfold Boot.instanceOf
  rw [hreads.known_eq l hne, hreads.known_eq .nil (by decide)]
  exact (ensures_allocateFields (hh.first l hl) .root size).weaken (fun _ => id)
    (fun _ _ hv => ⟨hv.1, hv.2.2.1⟩) fun _ _ => id

theorem keeps_names (name : String) : Keeps (Upheld k h₀) (Boot.intern config known name) :=
  keeps_intern hh hreads.nil_eq hreads.array_eq (hreads.known_eq _ (by decide))
    (hreads.known_eq _ (by decide)) name

theorem keeps_global (symbol value : Value) :
    Keeps (Upheld k h₀) (Boot.setGlobal config known symbol value) :=
  keeps_setGlobal hh hreads.nil_eq hreads.array_eq (hreads.known_eq _ (by decide)) symbol value

theorem keeps_typeNames : Keeps (Upheld k h₀) (Boot.typeNames.forM fun (name, landmark) =>
    Boot.nameType config known (known landmark) name) := by
  refine Keeps.forM fun entry hentry => ?_
  have hentry : entry.2 = .metaclass ∨ entry.2 ∈ Boot.firstTypes.map Prod.fst := by
    revert entry
    decide
  have hkind : IsKind (k .metaclass) h₀ (k entry.2) := by
    rcases hentry with heq | hmem
    · rw [heq]
      exact .inl hh.self
    · exact hh.isKind_first hmem
  have hne : entry.2 ∉ [Landmark.processor, .specialSelectors, .doesNotUnderstand] := by
    rcases hentry with heq | hmem
    · rw [heq]
      decide
    · revert hmem
      generalize entry.2 = l
      revert l
      decide
  dsimp only
  rw [hreads.known_eq _ hne]
  exact keeps_nameType hh hreads.nil_eq hreads.array_eq (hreads.known_eq _ (by decide))
    (hreads.known_eq _ (by decide)) (hreads.known_eq _ (by decide)) hkind entry.1

theorem keeps_processor : Keeps (Upheld k h₀) (Boot.processor config known) := by
  unfold Boot.processor
  have hfresh : ∀ {l : Landmark} (size : Nat) {β : Type} {f : Value → HeapM β},
      l ∈ Boot.firstTypes.map Prod.fst → (∀ v, Plain k h₀ v → Keeps (Upheld k h₀) (f v)) →
      Keeps (Upheld k h₀) (Boot.instanceOf known l size >>= f) := by
    intro l size β f hl hf
    refine Ensures.keeps (Ensures.bind (ensures_instanceOf hh hreads hl size) fun v => ?_)
    rintro h ⟨ht, hv⟩
    exact (hf v hv).ensures h ht
  refine hfresh _ (by decide) fun timer htimer => hfresh _ (by decide) fun input hinput =>
    hfresh _ (by decide) fun interrupts hinterrupts => ?_
  refine (keeps_store_plain htimer _ _).bind fun _ => (keeps_store_plain hinterrupts _ _).bind fun _ =>
    (keeps_store_plain hinput _ _).bind fun _ => (keeps_store_plain hinterrupts _ _).bind fun _ => ?_
  refine hfresh _ (by decide) fun entry hentry => (keeps_store_plain hentry _ _).bind fun _ => ?_
  refine hfresh _ (by decide) fun processor hprocessor =>
    (keeps_store_plain hprocessor _ _).bind fun _ => (keeps_store_plain hprocessor _ _).bind fun _ => ?_
  refine Keeps.bind (Keeps.forM fun entry _ => ?_) fun _ => Keeps.pure _
  exact (keeps_names hh hreads _).bind fun symbol => keeps_global hh hreads symbol _

theorem keeps_selectors : Keeps (Upheld k h₀) (Boot.selectors config known) := by
  unfold Boot.selectors
  refine Ensures.keeps (Ensures.bind (ensures_instanceOf hh hreads (by decide) _) fun array => ?_)
  rintro h ⟨ht, harray⟩
  refine Keeps.ensures (Keeps.bind (Keeps.forM fun entry _ => ?_) fun _ => ?_) h ht
  · exact (keeps_names hh hreads _).bind fun symbol => keeps_store_plain harray _ _
  · exact (keeps_names hh hreads _).bind fun _ => Keeps.pure _

end

end Upheld

namespace Boot

/-- Making the scheduler's objects gives the processor its landmark, and no other. -/
theorem processor_eq_ok (hrun : processor config known h = .ok k' h') :
    ∃ v, k' = known.set .processor v := by
  obtain ⟨timer, _, -, hrest⟩ := bind_eq_ok.mp hrun
  obtain ⟨input, _, -, hrest⟩ := bind_eq_ok.mp hrest
  obtain ⟨interrupts, _, -, hrest⟩ := bind_eq_ok.mp hrest
  obtain ⟨_, _, -, hrest⟩ := bind_eq_ok.mp hrest
  obtain ⟨_, _, -, hrest⟩ := bind_eq_ok.mp hrest
  obtain ⟨_, _, -, hrest⟩ := bind_eq_ok.mp hrest
  obtain ⟨_, _, -, hrest⟩ := bind_eq_ok.mp hrest
  obtain ⟨entry, _, -, hrest⟩ := bind_eq_ok.mp hrest
  obtain ⟨_, _, -, hrest⟩ := bind_eq_ok.mp hrest
  obtain ⟨v, _, -, hrest⟩ := bind_eq_ok.mp hrest
  obtain ⟨_, _, -, hrest⟩ := bind_eq_ok.mp hrest
  obtain ⟨_, _, -, hrest⟩ := bind_eq_ok.mp hrest
  obtain ⟨_, _, -, hend⟩ := bind_eq_ok.mp hrest
  exact ⟨v, (pure_eq_ok.mp hend).1.symm⟩

/-- Booting leaves a hierarchy of types. -/
theorem hierarchy_boot {settings : Machine.Settings} (hempty : ∀ u t, h.typeOf u ≠ .ok t)
    (hsettled : h.Settled) (hrun : boot settings h = .ok k h') : Hierarchy k h' := by
  obtain ⟨k₀, t₀, hsingletons, hothers⟩ := bind_eq_ok.mp hrun
  obtain ⟨k₁, t₁, htypes, hothers⟩ := bind_eq_ok.mp hothers
  obtain ⟨k₂, t₂, htables, hothers⟩ := bind_eq_ok.mp hothers
  obtain ⟨_, t₃, hnames, hothers⟩ := bind_eq_ok.mp hothers
  obtain ⟨k₃, t₄, hprocessor, hselectors⟩ := bind_eq_ok.mp hothers
  obtain ⟨ht₀, hself⟩ := typed_singletons hempty hsettled hsingletons
  obtain ⟨ht₁, -⟩ := typed_types ht₀ hself htypes
  have hcrowned := crowned_types (barren_singletons hempty hsettled hsingletons) htypes
  have hh := hcrowned.tables ht₁ htables
  have hreads : Reads k₂ ⟨k₂ .nil, k₂ .array, settings.tableCapacity, settings.tableGrowth⟩ k₂ :=
    ⟨rfl, rfl, fun _ _ => rfl⟩
  obtain ⟨v, rfl⟩ := processor_eq_ok hprocessor
  have hreads' : Reads k₂ ⟨k₂ .nil, k₂ .array, settings.tableCapacity, settings.tableGrowth⟩
      (k₂.set .processor v) := by
    refine ⟨rfl, rfl, fun l hl => Landmarks.get_set_of_ne _ ?_ v⟩
    rintro rfl
    exact hl (by decide)
  have hnamed := Upheld.keeps_typeNames hh hreads t₂ hh.tended
  rw [hnames] at hnamed
  have hfounded := Upheld.keeps_processor hh hreads t₃ hnamed
  rw [hprocessor] at hfounded
  have hselected := Upheld.keeps_selectors hh hreads' t₄ hfounded
  rw [hselectors] at hselected
  obtain ⟨array, unknown, rfl⟩ := selectors_eq_ok hselectors
  refine hselected.hierarchy.congr fun l hl => ?_
  have hne : l ≠ .processor ∧ l ≠ .specialSelectors ∧ l ≠ .doesNotUnderstand := by
    rcases hl with hl | hl <;> revert l <;> decide
  rw [Landmarks.get_set_of_ne _ hne.2.2, Landmarks.get_set_of_ne _ hne.2.1,
    Landmarks.get_set_of_ne _ hne.1]

end Boot

/-! ## The kernel -/

namespace Machine

variable {m : Machine}

/-- The kernel methods are installed in first types, and in the type of one of them. -/
theorem Tending.keeps_install (method : KernelMethod)
    (hmethod : method.type ∈ Boot.firstTypes.map Prod.fst) :
    Keeps (Tending k h₀) method.install := by
  rintro m ⟨rfl, hidle, ht⟩
  have hkind : IsKind (m.known .metaclass) h₀ (m.known method.type) :=
    ht.start.isKind_first hmethod
  have hdefine : ∀ type, IsKind (m.known .metaclass) h₀ type →
      Keeps (Tending m.known h₀) (defineMethod type method.spec >>= fun _ => pure ()) :=
    fun type htype => (keeps_defineMethod htype _).bind fun _ => Keeps.pure _
  change Tending m.known h₀ (stateAfter ((if method.onType then
    readHeap (·.typeOf (m.known method.type)) >>= fun type =>
      defineMethod type method.spec >>= fun _ => pure ()
    else defineMethod (m.known method.type) method.spec >>= fun _ => pure ()) m))
  split
  · refine Ensures.after (P := Tending m.known h₀)
      (Ensures.bind (ensures_readHeap _ _) fun metatype => ?_) ⟨rfl, hidle, ht⟩
    rintro m' ⟨hm', hmeta⟩
    refine (hdefine metatype ?_).ensures m' hm'
    refine hm'.tended.isKind_iff.mp (.inl ?_)
    exact (hm'.tended.isKind_iff.mpr hkind).isMetatype_typeOf hm'.tended.hierarchy.self hmeta
  · exact hdefine _ hkind m ⟨rfl, hidle, ht⟩

theorem hierarchy_bare {settings : Settings} (hbare : bare settings = .ok m) :
    Tending m.known m.heap m := by
  unfold bare at hbare
  split at hbare
  · cases hbare
  obtain ⟨empty, hempty, hrest⟩ := reading_bind_eq_ok.mp hbare
  have hcreate := liftFault_eq_ok.mp hempty
  split at hrest
  · cases hrest
  next known heap hboot =>
  obtain ⟨entryProcess, -, hend⟩ := reading_bind_eq_ok.mp hrest
  obtain rfl := reading_pure_eq_ok.mp hend
  have hh := Boot.hierarchy_boot (typeOf_create hcreate) (Heap.settled_create hcreate) hboot
  exact ⟨rfl, rfl, hh.tended⟩

/-- A new machine has its types in order, whatever its settings. -/
theorem hierarchy_create {settings : Settings} (hcreate : create settings = .ok m) :
    Hierarchy m.known m.heap ∧ m.regs.activeContext = m.known .nil := by
  unfold create at hcreate
  obtain ⟨m₀, hbare, hrest⟩ := reading_bind_eq_ok.mp hcreate
  have hkeeps : Keeps (Tending m₀.known m₀.heap) (KernelMethod.table.forM KernelMethod.install) := by
    refine Keeps.forM fun method hmethod => Tending.keeps_install method ?_
    revert method
    decide
  have hm := hkeeps m₀ (hierarchy_bare hbare)
  split at hrest
  · next m' hrun =>
    obtain rfl := reading_pure_eq_ok.mp hrest
    rw [hrun] at hm
    obtain ⟨hknown, hidle, htended⟩ := hm
    change m'.known = m₀.known at hknown
    exact ⟨hknown ▸ htended.hierarchy, hknown ▸ hidle⟩
  · cases hrest

end Machine

end MessageMachine
