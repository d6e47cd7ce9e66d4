import MessageMachine.Machine.Kernel
import MessageMachine.Proofs.Machine.Compiling
import MessageMachine.Proofs.Schedule.Founding

/-!
# New machines

A new machine has its processes in order, whatever its settings: there is one process, it is active,
and all queues are empty (`Machine.orderly_create`).

Booting makes the processor, its interrupt table, two semaphores and the entry process, and goes on
to intern names, to fill the globals and to install the kernel methods.  What has to be shown is that
none of this touches the objects just made.

* `Portable v` says that `v` is not a permanent object, or is nil; the arrays of a table are such.
* `Guarded core tables h₀ h` says that `h` came from `h₀` by stores into the owners of `tables` and
  into portable objects only.  `Site` says that those tables and the `core` have nothing in common.
* `Placed` follows the making of the scheduler's objects cell by cell, and `Founded` is the state in
  which all of them are in place; everything after it keeps `Founded`.
* `Nascent` is `Founded` for a machine, kept by compiling and installing the kernel methods.
-/

namespace MessageMachine

variable {k : Landmarks} {h h' h₀ : Heap}

/-! ## Fields that stay -/

namespace Heap

theorem fields_eq_of_storeField {u v new : Value} {i : Nat} {r : Unit}
    (hstore : storeField v i new h = .ok r h') (hne : u ≠ v) : h'.fields u = h.fields u := by
  obtain ⟨a, o, xs, rfl, -, -, -, hput⟩ := storeField_eq_ok hstore
  exact hput.fields_of_ne hne

theorem fields_eq_of_allocateFields (hsettled : h.Settled) {space : Space} {type fill u v : Value}
    {count : Nat} (hallocate : allocateFields space type count fill h = .ok v h') (hne : u ≠ v) :
    h'.fields u = h.fields u := by
  obtain ⟨_, -, hrest⟩ := read_bind_eq_ok.mp hallocate
  obtain ⟨a, t, ha, hv⟩ := bind_eq_ok.mp hrest
  obtain ⟨rfl, rfl⟩ := pure_eq_ok.mp hv
  exact (allocate_eq_ok hsettled ha).2.2.fields_of_ne hne

/-! ## New buffers -/

/-- What making a buffer does, as types and fields are read. -/
structure Buffered (h : Heap) (type : Value) (h' : Heap) : Prop where
  settled : h'.Settled
  types : ∀ u t, h.typeOf u = .ok t → h'.typeOf u = .ok t
  types_new : ∀ u t, h'.typeOf u = .ok t → h.typeOf u = .ok t ∨ t = type
  fields : ∀ u xs, h'.fields u = .ok xs ↔ h.fields u = .ok xs

theorem buffered_of_eq_ok (hsettled : h.Settled) {space : Space} {type v : Value}
    {bytes : Array UInt8} (hallocate : allocateBytesFrom space type bytes h = .ok v h') :
    Buffered h type h' := by
  have hafter := (bytes_allocateBytesFrom hsettled hallocate).2.2.2
  obtain ⟨_, -, hrest⟩ := read_bind_eq_ok.mp hallocate
  obtain ⟨a, t, ha, hv⟩ := bind_eq_ok.mp hrest
  obtain ⟨rfl, rfl⟩ := pure_eq_ok.mp hv
  obtain ⟨-, hstale, hput⟩ := allocate_eq_ok hsettled ha
  have hne : ∀ b o, h.resolve b = .ok o → b ≠ a := by
    rintro b o ho rfl
    rw [hstale] at ho
    cases ho
  refine ⟨hafter, ?_, ?_, ?_⟩
  · intro u t' htype
    obtain ⟨b, o, hb, ho, rfl⟩ := typeOf_eq_ok.mp htype
    exact typeOf_eq_ok.mpr ⟨b, o, hb, by rw [hput.resolve_of_ne (hne b o ho), ho], rfl⟩
  · intro u t' htype
    obtain ⟨b, o, hb, ho, rfl⟩ := typeOf_eq_ok.mp htype
    by_cases heq : b = a
    · subst heq
      rw [hput.resolve_self] at ho
      cases ho
      exact .inr rfl
    · rw [hput.resolve_of_ne heq] at ho
      exact .inl (typeOf_eq_ok.mpr ⟨b, o, hb, ho, rfl⟩)
  · intro u xs
    constructor
    · intro hxs
      obtain ⟨b, o, rfl, ho, hbody⟩ := fields_eq_ok.mp hxs
      by_cases heq : b = a
      · subst heq
        rw [hput.resolve_self] at ho
        cases ho
        cases hbody
      · rw [hput.resolve_of_ne heq] at ho
        exact fields_eq_ok.mpr ⟨b, o, rfl, ho, hbody⟩
    · intro hxs
      obtain ⟨b, o, rfl, ho, hbody⟩ := fields_eq_ok.mp hxs
      exact fields_eq_ok.mpr ⟨b, o, rfl, by rw [hput.resolve_of_ne (hne b o ho), ho], hbody⟩

theorem Grows.of_buffered {type : Value} {held : List Landmark} (hbuffered : Buffered h type h')
    (htype : ∀ l ∈ held, type ≠ k l) : Grows held k h h' := by
  refine ⟨hbuffered.settled, hbuffered.types, fun u n _ => ?_, ?_⟩
  · simp only [fieldCount_eq_ok, hbuffered.fields]
  · intro u hnew l hl hnewType
    rcases hbuffered.types_new u _ hnewType with hold | heq
    · exact hnew _ hold
    · exact htype l hl heq.symm

end Heap

/-! ## Objects that tables leave alone -/

/-- Nil, or anything but a permanent fielded object. -/
def Portable (k : Landmarks) (v : Value) : Prop := v.Rooted → v = k .nil

theorem portable_int (k : Landmarks) (n : Int) : Portable k (.int n) := by
  rintro ⟨a, ha, -⟩
  cases ha

/-- Some permanent objects that are not to change, and the tables that do. -/
structure Site (k : Landmarks) (core : Value → Prop) (tables : Set Table) (h₀ : Heap) : Prop where
  core_rooted : ∀ v, core v → v.Rooted ∧ v ≠ k .nil ∧ ∃ t, h₀.typeOf v = .ok t
  owner_rooted : ∀ t ∈ tables, t.owner.Rooted ∧ t.owner ≠ k .nil ∧ ¬core t.owner ∧
    ∃ t', h₀.typeOf t.owner = .ok t'
  /-- The types of the objects that are made. -/
  made_types : ∀ l ∈ [Landmark.array, .symbol, .string, .byteArray, .compiledMethod],
    ∀ l' ∈ runLandmarks, k l ≠ k l'

/-- The heap has grown from `h₀`, the core is the same, and the arrays of the tables are new. -/
structure Guarded (k : Landmarks) (core : Value → Prop) (tables : Set Table) (h₀ h : Heap) :
    Prop where
  grows : Heap.Grows runLandmarks k h₀ h
  spared : ∀ v xs, core v → h₀.fields v = .ok xs → h.fields v = .ok xs
  arrays : ∀ t ∈ tables, ∀ i v, i = t.kind.keys ∨ t.kind.values? = some i →
    h.fetchField t.owner i = .ok v → Portable k v

namespace Site

variable {core : Value → Prop} {tables : Set Table}

theorem keeps_storeField {v new : Value} {i : Nat} (hcore : ¬core v)
    (howner : ∀ t ∈ tables, t.owner = v → i = t.kind.keys ∨ t.kind.values? = some i →
      Portable k new) : Keeps (Guarded k core tables h₀) (Heap.storeField v i new) := by
  intro h hg
  cases hrun : Heap.storeField v i new h with
  | error fault h' =>
      rw [Heap.heap_of_change_error hrun]
      exact hg
  | ok u h' =>
      have hstored := Heap.stored_of_eq_ok hg.grows.settled hrun
      refine ⟨hg.grows.trans (.of_stored hstored), ?_, ?_⟩
      · intro w xs hw hxs
        refine (Heap.retains_storeField hrun).fields w xs ?_ (hg.spared w xs hw hxs)
        rintro rfl
        exact hcore hw
      · intro t ht j x hj hx
        by_cases hself : t.owner = v ∧ j = i
        · obtain ⟨rfl, rfl⟩ := hself
          cases hstored.self.symm.trans hx
          exact howner t ht rfl hj
        · exact hg.arrays t ht j x hj
            ((hstored.other _ _ _ (Classical.not_and_iff_not_or_not.mp hself)).mp hx)

/-- A store into an array of a table, or into nothing at all. -/
theorem keeps_fill (hsite : Site k core tables h₀) {v : Value} (hv : Portable k v) (i : Nat)
    (new : Value) : Keeps (Guarded k core tables h₀) (Heap.storeField v i new) := by
  refine keeps_storeField ?_ ?_
  · intro hcore
    obtain ⟨hrooted, hnil, -⟩ := hsite.core_rooted v hcore
    exact hnil (hv hrooted)
  · rintro t ht rfl
    obtain ⟨hrooted, hnil, -⟩ := hsite.owner_rooted t ht
    exact absurd (hv hrooted) hnil

theorem ensures_allocateFields (hsite : Site k core tables h₀) {type : Value}
    (htype : ∀ l ∈ runLandmarks, type ≠ k l) (space : Space) (count : Nat) :
    Ensures (Guarded k core tables h₀) (Heap.allocateFields space type count (k .nil))
      (fun v h => Guarded k core tables h₀ h ∧ (space = .ephemeral → Portable k v) ∧
        ¬core v ∧ ∀ t ∈ tables, t.owner ≠ v) fun _ => Guarded k core tables h₀ := by
  intro h hg
  cases hrun : Heap.allocateFields space type count (k .nil) h with
  | error fault h' =>
      rw [Heap.heap_of_checked_error hrun]
      exact hg
  | ok v h' =>
      have hmade := Heap.made_of_eq_ok hg.grows.settled hrun
      have hretains := (Heap.fields_allocateFields hg.grows.settled hrun).2.2.1
      obtain ⟨a, rfl, hspace⟩ := Heap.space_of_allocateFields hg.grows.settled hrun
      have hnew : ∀ u, (∃ t, h₀.typeOf u = .ok t) → u ≠ .object a := by
        rintro u ⟨t, hu⟩
        exact hmade.ne ⟨t, hg.grows.types u t hu⟩
      have howner : ∀ t ∈ tables, t.owner ≠ .object a := fun t ht =>
        hnew _ (hsite.owner_rooted t ht).2.2.2
      refine ⟨⟨hg.grows.trans (.of_made hmade htype), ?_, ?_⟩, ?_, ?_, howner⟩
      · exact fun w xs hw hxs => hretains.fields w xs (fun h => h) (hg.spared w xs hw hxs)
      · intro t ht j x hj hx
        exact hg.arrays t ht j x hj ((hmade.other _ _ _ (howner t ht)).mp hx)
      · rintro rfl ⟨b, hb, hroot⟩
        cases hb
        rw [hspace] at hroot
        cases hroot
      · intro hcore
        exact hnew _ (hsite.core_rooted _ hcore).2.2 rfl

/-- A table operation writes into the arrays of its table. -/
theorem footprint (hsite : Site k core tables h₀) {config : Table.Config} {t : Table}
    (ht : t ∈ tables) (hnil : config.nil = k .nil) (harray : config.array = k .array) :
    Table.Footprint config t (Guarded k core tables h₀) (Portable k) := by
  have howner := (hsite.owner_rooted t ht).2.2.1
  refine ⟨fun h v hg => hg.arrays t ht _ v (.inl rfl),
    fun slot hslot h v hg => hg.arrays t ht _ v (.inr hslot),
    fun v i new hv => hsite.keeps_fill hv i new,
    fun n => keeps_storeField howner fun _ _ _ _ => portable_int k _,
    fun v hv => keeps_storeField howner fun _ _ _ _ => hv,
    fun _ _ v hv => keeps_storeField howner fun _ _ _ _ => hv, fun count => ?_⟩
  rw [hnil, harray]
  exact (hsite.ensures_allocateFields (hsite.made_types .array (by decide)) .ephemeral count).weaken
    (fun _ => id) (fun v h hv => ⟨hv.1, hv.2.1 rfl⟩) fun _ _ => id

theorem keeps_allocateBytesFrom (hsite : Site k core tables h₀) {l : Landmark}
    (hl : l ∈ [Landmark.array, .symbol, .string, .byteArray, .compiledMethod]) (space : Space)
    (bytes : Array UInt8) :
    Keeps (Guarded k core tables h₀) (Heap.allocateBytesFrom space (k l) bytes) := by
  intro h hg
  cases hrun : Heap.allocateBytesFrom space (k l) bytes h with
  | error fault h' =>
      rw [Heap.heap_of_checked_error hrun]
      exact hg
  | ok v h' =>
      have hbuffered := Heap.buffered_of_eq_ok hg.grows.settled hrun
      refine ⟨hg.grows.trans (.of_buffered hbuffered (hsite.made_types l hl)), ?_, ?_⟩
      · exact fun w xs hw hxs => (hbuffered.fields w xs).mpr (hg.spared w xs hw hxs)
      · intro t ht j x hj hx
        refine hg.arrays t ht j x hj ?_
        obtain ⟨xs, hxs, hget⟩ := Heap.fetchField_eq_ok.mp hx
        exact Heap.fetchField_eq_ok.mpr ⟨xs, (hbuffered.fields _ _).mp hxs, hget⟩

/-! ## Names -/

variable {config : Table.Config} {known : Landmarks}

/-- The landmarks known so far, where the making of names reads them. -/
structure Naming (k : Landmarks) (tables : Set Table) (config : Table.Config) (known : Landmarks) :
    Prop where
  nil_eq : config.nil = k .nil
  array_eq : config.array = k .array
  symbol_eq : known .symbol = k .symbol
  symbols_mem : ⟨known .symbolTable, .symbols⟩ ∈ tables
  globals_mem : ⟨known .globals, .globals⟩ ∈ tables

theorem keeps_intern (hsite : Site k core tables h₀) (hnaming : Naming k tables config known)
    (name : String) : Keeps (Guarded k core tables h₀) (Boot.intern config known name) := by
  unfold Boot.intern
  rw [hnaming.symbol_eq]
  exact (hsite.footprint hnaming.symbols_mem hnaming.nil_eq hnaming.array_eq).keeps_intern rfl
    (hsite.keeps_allocateBytesFrom (by decide) _ _)

theorem keeps_setGlobal (hsite : Site k core tables h₀) (hnaming : Naming k tables config known)
    (symbol value : Value) :
    Keeps (Guarded k core tables h₀) (Boot.setGlobal config known symbol value) :=
  (hsite.footprint hnaming.globals_mem hnaming.nil_eq hnaming.array_eq).keeps_insert symbol value

/-- The objects named here are types, which have no other table than that of their methods. -/
theorem keeps_nameType (hsite : Site k core tables h₀) (hnaming : Naming k tables config known)
    {type : Value} (htype : ¬core type ∧ ∀ t ∈ tables, t.owner = type → t.kind = .methods)
    (hmeta : ∀ h metatype, Guarded k core tables h₀ h → h.typeOf type = .ok metatype →
      ¬core metatype ∧ ∀ t ∈ tables, t.owner = metatype → t.kind = .methods) (name : String) :
    Keeps (Guarded k core tables h₀) (Boot.nameType config known type name) := by
  have hstore : ∀ {v new : Value}, (¬core v ∧ ∀ t ∈ tables, t.owner = v → t.kind = .methods) →
      Keeps (Guarded k core tables h₀) (Heap.storeField v Slot.typeName new) := by
    rintro v new ⟨hcore, hmethods⟩
    refine keeps_storeField hcore fun t ht hv hslot => ?_
    rw [hmethods t ht hv] at hslot
    rcases hslot with heq | heq <;> cases heq
  unfold Boot.nameType
  refine (hsite.keeps_intern hnaming name).bind fun symbol => (hstore htype).bind fun _ => ?_
  refine Ensures.keeps (Ensures.bind (Heap.ensures_read _) fun metatype => ?_)
  rintro h ⟨hg, hread⟩
  refine Keeps.ensures ?_ h hg
  have hglobal := hsite.keeps_setGlobal hnaming symbol type
  split
  · refine (hsite.keeps_intern hnaming (name ++ " class")).bind fun symbol => ?_
    exact (hstore (hmeta h metatype hg hread)).bind fun _ => hglobal
  · exact hglobal

end Site

/-! ## The processor -/

/-- New objects with their types and fields; what existed in `h₀` is as it was. -/
structure Placed (k : Landmarks) (h₀ : Heap) (cells : List (Value × Value × Array Value))
    (h : Heap) : Prop where
  settled : h.Settled
  types : ∀ u t, h₀.typeOf u = .ok t → h.typeOf u = .ok t
  fields : ∀ u, (∃ t, h₀.typeOf u = .ok t) → h.fields u = h₀.fields u
  new : ∀ c ∈ cells, c.1.Rooted ∧ ∀ t, h₀.typeOf c.1 ≠ .ok t
  holds : ∀ c ∈ cells, h.typeOf c.1 = .ok c.2.1 ∧ h.fields c.1 = .ok c.2.2
  /-- Every semaphore, link, process and context is among the new objects. -/
  only : ∀ u xs, h.fields u = .ok xs → ∀ l ∈ runLandmarks, h.typeOf u = .ok (k l) →
    u ∈ cells.map Prod.fst

namespace Placed

variable {cells : List (Value × Value × Array Value)}

theorem start (hsettled : h.Settled) (hnone : ∀ u, ∀ l ∈ runLandmarks, h.typeOf u ≠ .ok (k l)) :
    Placed k h [] h :=
  ⟨hsettled, fun _ _ => id, fun _ _ => rfl, nofun, nofun,
    fun u _ _ l hl hu => absurd hu (hnone u l hl)⟩

theorem allocate (hp : Placed k h₀ cells h) {type fill v : Value} {count : Nat}
    (hrun : Heap.allocateFields .root type count fill h = .ok v h') :
    Placed k h₀ ((v, type, Array.replicate count fill) :: cells) h' ∧ v ∉ cells.map Prod.fst := by
  have hmade := Heap.made_of_eq_ok hp.settled hrun
  have hself := (Heap.fields_allocateFields hp.settled hrun).2.1
  have hkept : ∀ u, (∃ t, h.typeOf u = .ok t) → h'.fields u = h.fields u := fun u hu =>
    Heap.fields_eq_of_allocateFields hp.settled hrun (hmade.ne hu)
  refine ⟨⟨hmade.settled, fun u t hu => hmade.types u t (hp.types u t hu), ?_, ?_, ?_, ?_⟩, ?_⟩
  · rintro u ⟨t, ht⟩
    rw [hkept u ⟨t, hp.types u t ht⟩, hp.fields u ⟨t, ht⟩]
  · rintro c (_ | ⟨_, hc⟩)
    · exact ⟨Heap.space_of_allocateFields hp.settled hrun,
        fun t ht => hmade.stale t (hp.types v t ht)⟩
    · exact hp.new c hc
  · rintro c (_ | ⟨_, hc⟩)
    · exact ⟨hmade.type_eq, hself⟩
    · obtain ⟨htype, hfields⟩ := hp.holds c hc
      exact ⟨hmade.types _ _ htype, (hkept _ ⟨_, htype⟩).trans hfields⟩
  · intro u xs hxs l hl htype
    rw [List.map_cons, List.mem_cons]
    by_cases hu : u = v
    · exact .inl hu
    · have hcount := (hmade.counts u hu).symm.trans (Heap.fieldCount_eq_ok.mpr ⟨xs, hxs, rfl⟩)
      obtain ⟨ys, hys, -⟩ := Heap.fieldCount_eq_ok.mp hcount
      obtain ⟨t, ht⟩ := Heap.exists_typeOf_of_fields hys
      rw [hmade.types u t ht, ← ht] at htype
      exact .inr (hp.only u ys hys l hl htype)
  · intro hmem
    obtain ⟨c, hc, rfl⟩ := List.mem_map.mp hmem
    exact hmade.stale _ (hp.holds c hc).1

/-- The cells after a store. -/
def setCell (cells : List (Value × Value × Array Value)) (v : Value) (i : Nat) (new : Value) :
    List (Value × Value × Array Value) :=
  cells.map fun c => (c.1, c.2.1, if c.1 = v then c.2.2.setIfInBounds i new else c.2.2)

@[simp] theorem map_fst_setCell (cells : List (Value × Value × Array Value)) (v : Value) (i : Nat)
    (new : Value) : (setCell cells v i new).map Prod.fst = cells.map Prod.fst := by
  simp [setCell, Function.comp_def]

/-- A store into one of the new objects. -/
theorem store (hp : Placed k h₀ cells h) {v new : Value} {i : Nat} {u : Unit}
    (hv : v ∈ cells.map Prod.fst) (hrun : Heap.storeField v i new h = .ok u h') :
    Placed k h₀ (setCell cells v i new) h' := by
  have hstored := Heap.stored_of_eq_ok hp.settled hrun
  refine ⟨hstored.settled, fun w t hw => (hstored.types w).trans (hp.types w t hw), ?_, ?_, ?_, ?_⟩
  · rintro w ⟨t, ht⟩
    rw [Heap.fields_eq_of_storeField hrun, hp.fields w ⟨t, ht⟩]
    rintro rfl
    obtain ⟨c, hc, rfl⟩ := List.mem_map.mp hv
    exact (hp.new c hc).2 t ht
  · intro c' hc'
    obtain ⟨c, hc, rfl⟩ := List.mem_map.mp hc'
    exact hp.new c hc
  · intro c' hc'
    obtain ⟨c, hc, rfl⟩ := List.mem_map.mp hc'
    obtain ⟨htype, hfields⟩ := hp.holds c hc
    refine ⟨(hstored.types _).trans htype, ?_⟩
    by_cases heq : c.1 = v
    · rw [if_pos heq]
      subst heq
      exact (Heap.fields_storeField hrun hfields).1
    · rw [if_neg heq]
      rw [Heap.fields_eq_of_storeField hrun heq, hfields]
  · intro w xs hxs l hl htype
    have hcount := (hstored.counts w).symm.trans (Heap.fieldCount_eq_ok.mpr ⟨xs, hxs, rfl⟩)
    obtain ⟨ys, hys, -⟩ := Heap.fieldCount_eq_ok.mp hcount
    rw [hstored.types] at htype
    rw [map_fst_setCell]
    exact hp.only w ys hys l hl htype

theorem congr {k' : Landmarks}
    (hp : Placed k h₀ cells h) (hsame : ∀ l ∈ runLandmarks, k' l = k l) : Placed k' h₀ cells h := by
  refine ⟨hp.settled, hp.types, hp.fields, hp.new, hp.holds, fun u xs hxs l hl htype => ?_⟩
  rw [hsame l hl] at htype
  exact hp.only u xs hxs l hl htype

end Placed

namespace Boot

/-- The cells of the scheduler: the processor, the entry process, the interrupt table and the two
semaphores. -/
def schedulerCells (k : Landmarks) (processor entry interrupts input timer : Value) :
    List (Value × Value × Array Value) :=
  [(processor, k .processorScheduler, #[entry, interrupts, k .nil, k .nil]),
    (entry, k .process, #[k .nil, .ofNat 0]),
    (interrupts, k .array, #[timer, input]),
    (input, k .semaphore, #[.ofNat 0, k .nil, k .nil]),
    (timer, k .semaphore, #[.ofNat 0, k .nil, k .nil])]

theorem placed_processor {config : Table.Config} {known k' : Landmarks} (hsettled : h.Settled)
    (hnone : ∀ u, ∀ l ∈ runLandmarks, h.typeOf u ≠ .ok (known l)) (hrun : processor config known h = .ok k' h') :
    ∃ processor entry interrupts input timer h₁,
      Placed known h (schedulerCells known processor entry interrupts input timer) h₁ ∧
      [processor, entry, interrupts, input, timer].Nodup ∧ k' = known.set .processor processor ∧
      ([("Processor", processor), ("TimerSemaphore", timer), ("InputSemaphore", input)].forM
        fun (name, value) => do setGlobal config known (← intern config known name) value :
          HeapM Unit) h₁ = .ok () h' := by
  obtain ⟨timer, h₁, htimer, hrest⟩ := bind_eq_ok.mp hrun
  obtain ⟨input, h₂, hinput, hrest⟩ := bind_eq_ok.mp hrest
  obtain ⟨interrupts, h₃, hinterrupts, hrest⟩ := bind_eq_ok.mp hrest
  obtain ⟨_, h₄, hstore₄, hrest⟩ := bind_eq_ok.mp hrest
  obtain ⟨_, h₅, hstore₅, hrest⟩ := bind_eq_ok.mp hrest
  obtain ⟨_, h₆, hstore₆, hrest⟩ := bind_eq_ok.mp hrest
  obtain ⟨_, h₇, hstore₇, hrest⟩ := bind_eq_ok.mp hrest
  obtain ⟨entry, h₈, hentry, hrest⟩ := bind_eq_ok.mp hrest
  obtain ⟨_, h₉, hstore₉, hrest⟩ := bind_eq_ok.mp hrest
  obtain ⟨processor, h₁₀, hprocessor, hrest⟩ := bind_eq_ok.mp hrest
  obtain ⟨_, h₁₁, hstore₁₁, hrest⟩ := bind_eq_ok.mp hrest
  obtain ⟨_, h₁₂, hstore₁₂, hrest⟩ := bind_eq_ok.mp hrest
  obtain ⟨_, h₁₃, hglobals, hend⟩ := bind_eq_ok.mp hrest
  obtain ⟨rfl, rfl⟩ := pure_eq_ok.mp hend
  obtain ⟨hp₁, -⟩ := (Placed.start hsettled hnone).allocate htimer
  obtain ⟨hp₂, hne₂⟩ := hp₁.allocate hinput
  obtain ⟨hp₃, hne₃⟩ := hp₂.allocate hinterrupts
  have hp₄ := hp₃.store (by simp) hstore₄
  have hp₅ := hp₄.store (by simp) hstore₅
  have hp₆ := hp₅.store (by simp) hstore₆
  have hp₇ := hp₆.store (by simp) hstore₇
  obtain ⟨hp₈, hne₈⟩ := hp₇.allocate hentry
  have hp₉ := hp₈.store (by simp) hstore₉
  obtain ⟨hp₁₀, hne₁₀⟩ := hp₉.allocate hprocessor
  have hp₁₁ := hp₁₀.store (by simp) hstore₁₁
  have hp₁₂ := hp₁₁.store (by simp) hstore₁₂
  simp only [Placed.map_fst_setCell, List.map_cons, List.map_nil, List.mem_cons, List.not_mem_nil,
    or_false, not_or] at hne₂ hne₃ hne₈ hne₁₀
  refine ⟨processor, entry, interrupts, input, timer, h₁₂, ?_, ?_, rfl, hglobals⟩
  · have hprocessorCell : ((Array.replicate Slot.processorSize (known .nil)).setIfInBounds
        Slot.activeProcess entry).setIfInBounds Slot.interruptTable interrupts =
        #[entry, interrupts, known .nil, known .nil] := rfl
    have hentryCell : (Array.replicate Slot.processSize (known .nil)).setIfInBounds
        Slot.processTime (.ofNat 0) = #[known .nil, .ofNat 0] := rfl
    have htableCell : ((Array.replicate Slot.interruptTableSize (known .nil)).setIfInBounds
        Slot.timerInterrupt timer).setIfInBounds Slot.inputInterrupt input = #[timer, input] := rfl
    have hsemaphoreCell : (Array.replicate Slot.semaphoreSize (known .nil)).setIfInBounds
        Slot.excessSignals (.ofNat 0) = #[.ofNat 0, known .nil, known .nil] := rfl
    convert hp₁₂ using 1
    simp [Placed.setCell, schedulerCells, hne₂, hne₃, hne₈, hne₁₀, Ne.symm, hprocessorCell,
      hentryCell, htableCell, hsemaphoreCell]
  · simp [hne₂, hne₃, hne₈, hne₁₀]

/-! ## The steps of booting -/

/-- The types of which there is no instance before the processor is made. -/
def idleLandmarks : List Landmark :=
  [.nil, .smallInteger, .compiledMethod, .methodContext, .blockContext, .process, .semaphore, .link,
    .processorScheduler]

/-- The two tables that booting makes, as they are before any name. -/
structure Blank (h₁ : Heap) (symbolTable globals nil : Value) (h : Heap) : Prop where
  rooted : symbolTable.Rooted ∧ globals.Rooted
  new : ∀ t, h₁.typeOf symbolTable ≠ .ok t ∧ h₁.typeOf globals ≠ .ok t
  exist : (∃ t, h.typeOf symbolTable = .ok t) ∧ ∃ t, h.typeOf globals = .ok t
  types : ∀ u t, h₁.typeOf u = .ok t → h.typeOf u = .ok t
  keys : ∀ v, h.fetchField symbolTable Slot.symbolKeys = .ok v → v = nil
  arrays : ∀ i v, i = Slot.dictionaryKeys ∨ i = Slot.dictionaryValues →
    h.fetchField globals i = .ok v → v = nil

theorem blank_tables {k' : Landmarks} (ht : Typed k plainLandmarks h)
    (hrun : Boot.tables k h = .ok k' h') : ∃ symbolTable globals,
      k' = (k.set .symbolTable symbolTable).set .globals globals ∧
      Blank h symbolTable globals (k .nil) h' ∧ Typed k idleLandmarks h' := by
  obtain ⟨symbolTable, h₁, hsymbols, hrest⟩ := bind_eq_ok.mp hrun
  obtain ⟨_, h₂, hstore₂, hrest⟩ := bind_eq_ok.mp hrest
  obtain ⟨globals, h₃, hglobals, hrest⟩ := bind_eq_ok.mp hrest
  obtain ⟨_, h₄, hstore₄, hend⟩ := bind_eq_ok.mp hrest
  obtain ⟨rfl, rfl⟩ := pure_eq_ok.mp hend
  have hmade₁ := Heap.made_of_eq_ok ht.settled hsymbols
  have hstored₂ := Heap.stored_of_eq_ok hmade₁.settled hstore₂
  have hmade₃ := Heap.made_of_eq_ok hstored₂.settled hglobals
  have hstored₄ := Heap.stored_of_eq_ok hmade₃.settled hstore₄
  have htypes : ∀ u t, h.typeOf u = .ok t → h₄.typeOf u = .ok t := by
    intro u t hu
    rw [hstored₄.types]
    refine hmade₃.types u t ?_
    rw [hstored₂.types]
    exact hmade₁.types u t hu
  have hsymbolsExist : ∃ t, h₂.typeOf symbolTable = .ok t :=
    ⟨_, (hstored₂.types _).trans hmade₁.type_eq⟩
  have hne : symbolTable ≠ globals := hmade₃.ne hsymbolsExist
  refine ⟨symbolTable, globals, rfl, ⟨⟨Heap.space_of_allocateFields ht.settled hsymbols,
    Heap.space_of_allocateFields hstored₂.settled hglobals⟩, ?_, ?_, htypes, ?_, ?_⟩, ?_⟩
  · intro t
    refine ⟨hmade₁.stale t, fun hold => hmade₃.stale t ?_⟩
    rw [hstored₂.types]
    exact hmade₁.types _ t hold
  · refine ⟨⟨k .symbolTableType, ?_⟩, ⟨k .dictionary, (hstored₄.types _).trans hmade₃.type_eq⟩⟩
    rw [hstored₄.types]
    refine hmade₃.types _ _ ?_
    rw [hstored₂.types]
    exact hmade₁.type_eq
  · intro v hv
    have hv₃ := (hstored₄.other _ _ _ (.inl hne)).mp hv
    have hv₂ := (hmade₃.other _ _ _ hne).mp hv₃
    have hv₁ := (hstored₂.other _ _ _ (.inr (by decide))).mp hv₂
    exact ((hmade₁.self _ _).mp hv₁).2
  · intro i v hi hv
    have hslot : i ≠ Slot.dictionaryTally := by
      rcases hi with rfl | rfl <;> decide
    exact ((hmade₃.self _ _).mp ((hstored₄.other _ _ _ (.inr hslot)).mp hv)).2
  · have hallocated : ∀ {t t' v l count} {made made' : List Landmark}, Typed k made t →
        Heap.Made t v (k l) count (k .nil) t' → l ∈ made → (∀ l' ∈ made', l' ∈ made ∧ l' ≠ l) →
        .nil ∈ made' → Typed k made' t' := by
      intro t t' v l count made made' ht hmade hl hsub hnil
      refine (ht.mono (fun l' hl' => (hsub l' hl').1) hnil).allocated hmade
        (fun _ => ⟨ht.rooted l hl, ht.exist l hl⟩) ?_
      intro l' hl' heq
      exact (hsub l' hl').2 (ht.distinct l' (hsub l' hl').1 l hl heq)
    have ht₁ : Typed k (.dictionary :: idleLandmarks) h₁ :=
      hallocated ht hmade₁ (by decide) (by decide) (by decide)
    have ht₃ : Typed k idleLandmarks h₃ :=
      hallocated (ht₁.stored hstored₂ (by decide)) hmade₃ (by decide) (by decide) (by decide)
    exact ht₃.stored hstored₄ (by decide)

theorem runLandmarks_idle : ∀ l ∈ runLandmarks, l ∈ idleLandmarks := by decide

theorem runLandmarks_plain : ∀ l ∈ runLandmarks, l ∈ plainLandmarks := by decide

/-- The types can be told apart. -/
def Apart (k : Landmarks) : Prop := ∀ l ∈ plainLandmarks, ∀ l' ∈ plainLandmarks, k l = k l' → l = l'

theorem Apart.ne (ha : Apart k) {l l' : Landmark} (hl : l ∈ plainLandmarks) (hl' : l' ∈ plainLandmarks)
    (hne : l ≠ l') : k l ≠ k l' := fun heq => hne (ha l hl l' hl' heq)

theorem Apart.plain (ha : Apart k) {l : Landmark} (hl : l ∈ [Landmark.array, .methodContext,
    .blockContext, .process, .processorScheduler]) : k l ≠ k .semaphore ∧ k l ≠ k .link := by
  have hcases : l ∈ plainLandmarks ∧ l ≠ .semaphore ∧ l ≠ .link := by
    revert l
    decide
  exact ⟨ha.ne hcases.1 (by decide) hcases.2.1, ha.ne hcases.1 (by decide) hcases.2.2⟩

/-- The symbols, the globals, and the methods of every type that exists in `h₁`. -/
def tableSet (k : Landmarks) (h₁ : Heap) : Set Table :=
  {t | t = ⟨k .symbolTable, .symbols⟩ ∨ t = ⟨k .globals, .globals⟩ ∨
    t.kind = .methods ∧ t.owner.Rooted ∧ t.owner ≠ k .nil ∧ ∃ type, h₁.typeOf t.owner = .ok type}

/-- What is true of the objects of a heap in which nothing has a name yet. -/
structure Unnamed (k : Landmarks) (h₁ h₂ : Heap) : Prop where
  apart : Apart k
  blank : Blank h₁ (k .symbolTable) (k .globals) (k .nil) h₂
  nil_exists : ∃ t, h₁.typeOf (k .nil) = .ok t
  typed : Typed k idleLandmarks h₂

namespace Unnamed

variable {h₁ h₂ : Heap}

/-- The tables belong to permanent objects that are not nil. -/
theorem owner_rooted (hu : Unnamed k h₁ h₂) {t : Table} (ht : t ∈ tableSet k h₁) :
    t.owner.Rooted ∧ t.owner ≠ k .nil ∧ ∃ type, h₂.typeOf t.owner = .ok type := by
  obtain ⟨type, hnil⟩ := hu.nil_exists
  rcases ht with rfl | rfl | ⟨-, hrooted, hne, type, htype⟩
  · refine ⟨hu.blank.rooted.1, ?_, hu.blank.exist.1⟩
    exact fun heq => (hu.blank.new type).1 ((congrArg h₁.typeOf heq).trans hnil)
  · refine ⟨hu.blank.rooted.2, ?_, hu.blank.exist.2⟩
    exact fun heq => (hu.blank.new type).2 ((congrArg h₁.typeOf heq).trans hnil)
  · exact ⟨hrooted, hne, type, hu.blank.types _ _ htype⟩

theorem site (hu : Unnamed k h₁ h₂) : Site k (fun _ => False) (tableSet k h₁) h₂ := by
  refine ⟨nofun, fun t ht => ?_, fun l hl l' hl' => ?_⟩
  · obtain ⟨hrooted, hne, hexist⟩ := hu.owner_rooted ht
    exact ⟨hrooted, hne, fun hfalse => hfalse, hexist⟩
  · have hcases : l ∈ plainLandmarks ∧ l' ∈ plainLandmarks ∧ l ≠ l' := by
      revert l l'
      decide
    exact hu.apart.ne hcases.1 hcases.2.1 hcases.2.2

theorem guarded (hu : Unnamed k h₁ h₂) : Guarded k (fun _ => False) (tableSet k h₁) h₂ h₂ := by
  refine ⟨.refl hu.typed.settled, nofun, ?_⟩
  have hnil : ∀ v, v = k .nil → Portable k v := fun v heq _ => heq
  rintro t (rfl | rfl | ⟨hkind, -⟩) i v hi hv
  · rcases hi with rfl | hi
    · exact hnil v (hu.blank.keys v hv)
    · cases hi
  · refine hnil v (hu.blank.arrays i v ?_ hv)
    exact hi.imp id fun hi => (Option.some.inj hi).symm
  · rw [hkind] at hi
    refine hnil v (hu.typed.vacant _ i v ?_ hv)
    exact hi.imp id fun hi => (Option.some.inj hi).symm

/-- What existed when the types had been made has no table but that of its methods. -/
theorem kind_of_exists (hu : Unnamed k h₁ h₂) {v : Value} (hexist : ∃ t, h₁.typeOf v = .ok t) :
    ¬False ∧ ∀ t ∈ tableSet k h₁, t.owner = v → t.kind = .methods := by
  refine ⟨fun hfalse => hfalse, ?_⟩
  obtain ⟨type, htype⟩ := hexist
  rintro t (rfl | rfl | ⟨hkind, -⟩) heq
  · exact absurd ((congrArg h₁.typeOf heq).trans htype) (hu.blank.new type).1
  · exact absurd ((congrArg h₁.typeOf heq).trans htype) (hu.blank.new type).2
  · exact hkind

theorem guarded_names (hu : Unnamed k h₁ h₂) {config : Table.Config} {known : Landmarks}
    (hnaming : Site.Naming k (tableSet k h₁) config known) (hknown : ∀ l ∈ typeNames.map Prod.snd,
      ∃ t, h₁.typeOf (known l) = .ok t)
    (htypes : ∀ u t, h₁.typeOf u = .ok t → t ≠ placeholder → ∃ t', h₁.typeOf t = .ok t') :
    Keeps (Guarded k (fun _ => False) (tableSet k h₁) h₂)
      (typeNames.forM fun (name, landmark) => nameType config known (known landmark) name) := by
  refine Keeps.forM fun entry hentry => ?_
  obtain ⟨type, htype⟩ := hknown entry.2 (List.mem_map_of_mem hentry)
  refine hu.site.keeps_nameType hnaming (hu.kind_of_exists ⟨type, htype⟩) ?_ entry.1
  intro h metatype hg hmeta
  have hold : metatype = type := by
    have hnew := hg.grows.types _ _ (hu.blank.types _ _ htype)
    exact Except.ok.inj (hmeta.symm.trans hnew)
  subst hold
  by_cases hplace : metatype = placeholder
  · refine ⟨fun hfalse => hfalse, fun t ht heq => ?_⟩
    obtain ⟨⟨a, ha, -⟩, -⟩ := hu.owner_rooted ht
    rw [heq, hplace] at ha
    cases ha
  · exact hu.kind_of_exists (htypes _ _ htype hplace)

/-- There are no semaphores, links, processes and contexts yet. -/
theorem typeOf_ne (hu : Unnamed k h₁ h₂) (hg : Guarded k (fun _ => False) (tableSet k h₁) h₂ h)
    (u : Value) : ∀ l ∈ runLandmarks, h.typeOf u ≠ .ok (k l) := by
  intro l hl htype
  by_cases hold : ∃ t, h₂.typeOf u = .ok t
  · obtain ⟨t, ht⟩ := hold
    cases htype.symm.trans (hg.grows.types u t ht)
    exact hu.typed.unused l (runLandmarks_idle l hl) u ht
  · exact hg.grows.fresh u (fun t ht => hold ⟨t, ht⟩) l hl htype

end Unnamed

/-! ## The scheduler's own objects -/

/-- The objects that the scheduler reads: the processor, the entry process, the interrupt table and
the two semaphores. -/
def IsCore (k : Landmarks) (entry interrupts input timer v : Value) : Prop :=
  v = k .processor ∨ v = entry ∨ v = interrupts ∨ v = input ∨ v = timer

/-- The objects of the scheduler have been made, and what has been done since left them alone. -/
structure Founded (k : Landmarks) (tables : Set Table) (h₀ : Heap)
    (entry interrupts input timer : Value) (h : Heap) : Prop where
  apart : Apart k
  nil_empty : h₀.fieldCount (k .nil) = .ok 0
  site : Site k (IsCore k entry interrupts input timer) tables h₀
  holds : ∀ c ∈ schedulerCells k (k .processor) entry interrupts input timer,
    h₀.typeOf c.1 = .ok c.2.1 ∧ h₀.fields c.1 = .ok c.2.2
  only : ∀ u xs, h₀.fields u = .ok xs → ∀ l ∈ runLandmarks, h₀.typeOf u = .ok (k l) →
    l = .process ∧ u = entry ∨ l = .semaphore ∧ (u = input ∨ u = timer)
  guarded : Guarded k (IsCore k entry interrupts input timer) tables h₀ h

theorem Unnamed.founded {h₁ h₂ h₃ : Heap} {entry interrupts input timer : Value}
    (hu : Unnamed k h₁ h₂) (hg : Guarded k (fun _ => False) (tableSet k h₁) h₂ h)
    (hp : Placed k h (schedulerCells k (k .processor) entry interrupts input timer) h₃) :
    Founded k (tableSet k h₁) h₃ entry interrupts input timer h₃ := by
  have hold : ∀ u, (∃ t, h₂.typeOf u = .ok t) → ∃ t, h.typeOf u = .ok t := by
    rintro u ⟨t, ht⟩
    exact ⟨t, hg.grows.types u t ht⟩
  have hnil : ∃ t, h.typeOf (k .nil) = .ok t := hold _ (hu.typed.exist .nil (by decide))
  have hcore : ∀ v, IsCore k entry interrupts input timer v →
      ∃ c ∈ schedulerCells k (k .processor) entry interrupts input timer, c.1 = v := by
    rintro v (rfl | rfl | rfl | rfl | rfl) <;> simp [schedulerCells]
  have hnew : ∀ v, IsCore k entry interrupts input timer v → ∀ t, h.typeOf v ≠ .ok t := by
    intro v hv
    obtain ⟨c, hc, rfl⟩ := hcore v hv
    exact (hp.new c hc).2
  have hcount : h.fieldCount (k .nil) = .ok 0 :=
    (hg.grows.sizes _ _ (hu.typed.exist .nil (by decide))).mpr hu.typed.nil_empty
  refine ⟨hu.apart, ?_, ⟨?_, ?_, hu.site.made_types⟩, hp.holds, ?_,
    ⟨.refl hp.settled, fun _ _ _ => id, ?_⟩⟩
  · unfold Heap.fieldCount at hcount ⊢
    rw [hp.fields _ hnil]
    exact hcount
  · intro v hv
    obtain ⟨c, hc, rfl⟩ := hcore v hv
    refine ⟨(hp.new c hc).1, ?_, _, (hp.holds c hc).1⟩
    intro heq
    obtain ⟨t, ht⟩ := hnil
    exact hnew _ hv t (heq ▸ ht)
  · intro t ht
    obtain ⟨hrooted, hne, hexist⟩ := hu.owner_rooted ht
    obtain ⟨type, htype⟩ := hold _ hexist
    exact ⟨hrooted, hne, fun hv => hnew _ hv type htype, type, hp.types _ _ htype⟩
  · intro u xs hxs l hl htype
    have hmem := hp.only u xs hxs l hl htype
    have hkind : ∀ l', l' ∈ plainLandmarks →
        (∃ c ∈ schedulerCells k (k .processor) entry interrupts input timer, c.1 = u ∧ c.2.1 = k l') →
        l = l' := by
      rintro l' hl' ⟨c, hc, rfl, heq⟩
      refine hu.apart l (runLandmarks_plain l hl) l' hl' ?_
      rw [← heq]
      exact Except.ok.inj (htype.symm.trans (hp.holds c hc).1)
    simp only [schedulerCells, List.map_cons, List.map_nil, List.mem_cons, List.not_mem_nil,
      or_false] at hmem
    rcases hmem with rfl | rfl | rfl | hmem
    · obtain rfl := hkind .processorScheduler (by decide) (by simp [schedulerCells])
      exact absurd hl (by decide)
    · exact .inl ⟨hkind _ (by decide) (by simp [schedulerCells]), rfl⟩
    · obtain rfl := hkind .array (by decide) (by simp [schedulerCells])
      exact absurd hl (by decide)
    · refine .inr ⟨hkind _ (by decide) ?_, hmem⟩
      rcases hmem with rfl | rfl <;> simp [schedulerCells]
  · intro t ht i v hi hv
    obtain ⟨-, -, hexist⟩ := hu.owner_rooted ht
    refine hg.arrays t ht i v hi ?_
    unfold Heap.fetchField at hv ⊢
    rw [hp.fields _ (hold _ hexist)] at hv
    exact hv

namespace Founded

variable {tables : Set Table} {entry interrupts input timer : Value}

theorem keeps (hf : Founded k tables h₀ entry interrupts input timer h) {action : HeapM α}
    (hkeeps : Keeps (Guarded k (IsCore k entry interrupts input timer) tables h₀) action) :
    Founded k tables h₀ entry interrupts input timer (stateAfter (action h)) :=
  ⟨hf.apart, hf.nil_empty, hf.site, hf.holds, hf.only, hkeeps h hf.guarded⟩

/-- The special selectors are interned and kept in an array of their own. -/
theorem keeps_selectors {config : Table.Config} {known : Landmarks}
    (hf : Founded k tables h₀ entry interrupts input timer h)
    (hnaming : Site.Naming k tables config known) (hnil : known .nil = k .nil)
    (harray : known .array = k .array) :
    Keeps (Guarded k (IsCore k entry interrupts input timer) tables h₀) (selectors config known) := by
  have hsite := hf.site
  unfold selectors instanceOf
  rw [hnil, harray]
  refine Ensures.keeps (Ensures.bind
    (hsite.ensures_allocateFields (hsite.made_types .array (by decide)) _ _) fun array => ?_)
  rintro t ⟨hg, -, hcore, howner⟩
  refine Keeps.ensures (Keeps.bind (Keeps.forM fun entry _ => ?_) fun _ => ?_) t hg
  · refine Keeps.bind (hsite.keeps_intern hnaming _) fun symbol => ?_
    exact Site.keeps_storeField hcore fun t ht heq => absurd heq (howner t ht)
  · exact Keeps.bind (hsite.keeps_intern hnaming _) fun _ => Keeps.pure _

end Founded

theorem selectors_eq_ok {config : Table.Config} {known k' : Landmarks}
    (hrun : selectors config known h = .ok k' h') : ∃ array unknown,
      k' = (known.set .specialSelectors array).set .doesNotUnderstand unknown := by
  obtain ⟨array, _, -, hrest⟩ := bind_eq_ok.mp hrun
  obtain ⟨_, _, -, hrest⟩ := bind_eq_ok.mp hrest
  obtain ⟨unknown, _, -, hend⟩ := bind_eq_ok.mp hrest
  exact ⟨array, unknown, (pure_eq_ok.mp hend).1.symm⟩

/-- The landmarks that have their objects before anything is named. -/
def Extends (k : Landmarks) (symbolTable globals : Value) (k' : Landmarks) : Prop :=
  (∀ l ∈ plainLandmarks, k' l = k l) ∧ k' .symbolTable = symbolTable ∧ k' .globals = globals

theorem extends_set (k : Landmarks) (symbolTable globals : Value) :
    Extends k symbolTable globals ((k.set .symbolTable symbolTable).set .globals globals) := by
  refine ⟨fun l hl => ?_, ?_, Landmarks.get_set_self _ _ _⟩
  · have hne : l ≠ .globals ∧ l ≠ .symbolTable := by
      revert l
      decide
    rw [Landmarks.get_set_of_ne _ hne.1, Landmarks.get_set_of_ne _ hne.2]
  · rw [Landmarks.get_set_of_ne _ (by decide), Landmarks.get_set_self]

theorem Extends.set {symbolTable globals v : Value} {k' : Landmarks} {l : Landmark}
    (he : Extends k symbolTable globals k')
    (hl : l ∈ [Landmark.processor, .specialSelectors, .doesNotUnderstand]) :
    Extends k symbolTable globals (k'.set l v) := by
  have hne : ∀ l' ∈ Landmark.symbolTable :: .globals :: plainLandmarks, l' ≠ l := by
    revert l
    decide
  refine ⟨fun l' hl' => ?_, ?_, ?_⟩
  · rw [Landmarks.get_set_of_ne _ (hne l' (by simp [hl']))]
    exact he.1 l' hl'
  · rw [Landmarks.get_set_of_ne _ (hne _ (by decide))]
    exact he.2.1
  · rw [Landmarks.get_set_of_ne _ (hne _ (by decide))]
    exact he.2.2

theorem Extends.unnamed {h₁ h₂ : Heap} {symbolTable globals : Value} {k' : Landmarks}
    (he : Extends k symbolTable globals k') (ht : Typed k plainLandmarks h₁)
    (hblank : Blank h₁ symbolTable globals (k .nil) h₂) (ht₂ : Typed k idleLandmarks h₂) :
    Unnamed k' h₁ h₂ := by
  have ht' := ht.congr he.1
  refine ⟨ht'.distinct, ?_, ht'.exist .nil (by decide), ht₂.congr fun l hl => he.1 l ?_⟩
  · rw [he.2.1, he.2.2, he.1 .nil (by decide)]
    exact hblank
  · revert l
    decide

theorem Extends.naming {h₁ : Heap} {symbolTable globals : Value} {known k' : Landmarks}
    (hknown : Extends k symbolTable globals known) (he : Extends k symbolTable globals k')
    {config : Table.Config} (hnil : config.nil = k .nil) (harray : config.array = k .array) :
    Site.Naming k' (tableSet k' h₁) config known := by
  refine ⟨?_, ?_, ?_, .inl ?_, .inr (.inl ?_)⟩
  · rw [hnil, he.1 .nil (by decide)]
  · rw [harray, he.1 .array (by decide)]
  · rw [hknown.1 .symbol (by decide), he.1 .symbol (by decide)]
  · rw [hknown.2.1, he.2.1]
  · rw [hknown.2.2, he.2.2]

/-- What booting leaves: the types and the objects of the scheduler. -/
theorem founded_boot {settings : Machine.Settings} (hempty : ∀ u t, h.typeOf u ≠ .ok t)
    (hsettled : h.Settled) (hrun : boot settings h = .ok k h') :
    ∃ h₁ h₀ entry interrupts input timer, Typed k plainLandmarks h₁ ∧
      (∀ u t, h₁.typeOf u = .ok t → h₀.typeOf u = .ok t) ∧
      Founded k (tableSet k h₁) h₀ entry interrupts input timer h' := by
  obtain ⟨k₀, t₀, hsingletons, hothers⟩ := bind_eq_ok.mp hrun
  obtain ⟨k₁, t₁, htypes, hothers⟩ := bind_eq_ok.mp hothers
  obtain ⟨k₂, t₂, htables, hothers⟩ := bind_eq_ok.mp hothers
  obtain ⟨_, t₃, hnames, hothers⟩ := bind_eq_ok.mp hothers
  obtain ⟨k₃, t₄, hprocessor, hselectors⟩ := bind_eq_ok.mp hothers
  obtain ⟨ht₀, hself⟩ := typed_singletons hempty hsettled hsingletons
  obtain ⟨ht₁, hexist⟩ := typed_types ht₀ hself htypes
  obtain ⟨symbolTable, globals, hk₂, hblank, ht₂⟩ := blank_tables ht₁ htables
  have he₂ : Extends k₁ symbolTable globals k₂ := hk₂ ▸ extends_set k₁ symbolTable globals
  let config : Table.Config :=
    ⟨k₂ .nil, k₂ .array, settings.tableCapacity, settings.tableGrowth⟩
  have hnaming : ∀ known K, Extends k₁ symbolTable globals known →
      Extends k₁ symbolTable globals K → Site.Naming K (tableSet K t₁) config known :=
    fun known K hknown he => hknown.naming he (he₂.1 .nil (by decide)) (he₂.1 .array (by decide))
  have hnamed : ∀ K, Extends k₁ symbolTable globals K →
      Guarded K (fun _ => False) (tableSet K t₁) t₂ t₃ := by
    intro K he
    have hu := he.unnamed ht₁ hblank ht₂
    have hknown : ∀ l ∈ typeNames.map Prod.snd, ∃ t, t₁.typeOf (k₂ l) = .ok t := by
      intro l hl
      have hmem : l ∈ Landmark.metaclass :: firstTypes.map Prod.fst ∧ l ≠ .symbolTable ∧
          l ≠ .globals := by
        revert l
        decide
      rw [hk₂, Landmarks.get_set_of_ne _ hmem.2.2, Landmarks.get_set_of_ne _ hmem.2.1]
      exact hexist l hmem.1
    have hafter := hu.guarded_names (hnaming k₂ K he₂ he) hknown
      (fun u t htype hne => (ht₁.types u t htype hne).2) t₂ hu.guarded
    rw [hnames] at hafter
    exact hafter
  have hu₂ := he₂.unnamed ht₁ hblank ht₂
  obtain ⟨processor, entry, interrupts, input, timer, t₅, hplaced, -, hk₃, hglobals⟩ :=
    placed_processor (hnamed k₂ he₂).grows.settled (hu₂.typeOf_ne (hnamed k₂ he₂)) hprocessor
  obtain ⟨array, unknown, hk⟩ := selectors_eq_ok hselectors
  have he₃ : Extends k₁ symbolTable globals k₃ := hk₃ ▸ he₂.set (by decide)
  have he : Extends k₁ symbolTable globals k := hk ▸ (he₃.set (by decide)).set (by decide)
  have hkprocessor : k .processor = processor := by
    rw [hk, Landmarks.get_set_of_ne _ (by decide), Landmarks.get_set_of_ne _ (by decide), hk₃,
      Landmarks.get_set_self]
  have hsame : ∀ l ∈ plainLandmarks, k l = k₂ l := fun l hl => (he.1 l hl).trans (he₂.1 l hl).symm
  have hplaced' : Placed k t₃ (schedulerCells k (k .processor) entry interrupts input timer) t₅ := by
    have hcells : schedulerCells k (k .processor) entry interrupts input timer =
        schedulerCells k₂ processor entry interrupts input timer := by
      simp only [schedulerCells, hkprocessor, hsame .nil (by decide), hsame .array (by decide),
        hsame .process (by decide), hsame .processorScheduler (by decide),
        hsame .semaphore (by decide)]
    rw [hcells]
    exact hplaced.congr fun l hl => hsame l (runLandmarks_plain l hl)
  have hfounded := (he.unnamed ht₁ hblank ht₂).founded (hnamed k he) hplaced'
  refine ⟨t₁, t₅, entry, interrupts, input, timer, ht₁.congr he.1, ?_, ?_⟩
  · exact fun u t hu => hplaced.types u t ((hnamed k he).grows.types u t (hblank.types u t hu))
  have hset : Keeps (Guarded k (IsCore k entry interrupts input timer) (tableSet k t₁) t₅)
      ([("Processor", processor), ("TimerSemaphore", timer), ("InputSemaphore", input)].forM
        fun (name, value) => do setGlobal config k₂ (← intern config k₂ name) value) := by
    refine Keeps.forM fun entry _ => ?_
    refine Keeps.bind (hfounded.site.keeps_intern (hnaming k₂ k he₂ he) _) fun symbol => ?_
    exact hfounded.site.keeps_setGlobal (hnaming k₂ k he₂ he) symbol _
  have hgloballed := hfounded.keeps hset
  rw [hglobals] at hgloballed
  have hselected := hgloballed.keeps (hgloballed.keeps_selectors (hnaming k₃ k he₃ he)
    ((he₃.1 .nil (by decide)).trans (he.1 .nil (by decide)).symm)
    ((he₃.1 .array (by decide)).trans (he.1 .array (by decide)).symm))
  have hrun' : selectors config k₃ t₄ = .ok k h' := hselectors
  rw [stateAfter_ok, hrun'] at hselected
  exact hselected

end Boot

/-! ## The kernel -/

namespace Machine

open Boot

variable {h₁ : Heap} {entry interrupts input timer : Value}

/-- A machine that has been booted and has run nothing yet. -/
structure Nascent (k : Landmarks) (h₁ h₀ : Heap) (entry interrupts input timer : Value)
    (m : Machine) : Prop where
  known_eq : m.known = k
  regs_eq : m.regs = .cleared (k .nil) entry
  schedule_eq : m.schedule = .initial
  founded : Founded k (tableSet k h₁) h₀ entry interrupts input timer m.heap

theorem Nascent.naming {m : Machine} (hm : Nascent k h₁ h₀ entry interrupts input timer m) :
    Site.Naming k (tableSet k h₁) m.tableConfig m.known := by
  obtain ⟨rfl, -⟩ := hm
  exact ⟨rfl, rfl, rfl, .inl rfl, .inr (.inl rfl)⟩

/-- What leaves the scheduler's objects alone keeps a machine nascent. -/
theorem keeps_nascent {action : Machine → HeapM α} (hkeeps : ∀ m,
    Nascent k h₁ h₀ entry interrupts input timer m →
      Keeps (Guarded k (IsCore k entry interrupts input timer) (tableSet k h₁) h₀) (action m)) :
    Keeps (Nascent k h₁ h₀ entry interrupts input timer) (fun m => onHeap (action m) m) := by
  intro m hm
  change Nascent k h₁ h₀ entry interrupts input timer (stateAfter (onHeap (action m) m))
  rw [stateAfter_onHeap]
  exact ⟨hm.known_eq, hm.regs_eq, hm.schedule_eq, hm.founded.keeps (hkeeps m hm)⟩

theorem keeps_nascent_intern (name : String) :
    Keeps (Nascent k h₁ h₀ entry interrupts input timer) (intern name) :=
  keeps_nascent fun _ hm => hm.founded.site.keeps_intern hm.naming name

theorem keeps_nascent_storeField {v : Value} (hv : Portable k v) (i : Nat) (new : Value) :
    Keeps (Nascent k h₁ h₀ entry interrupts input timer) (storeField v i new) :=
  keeps_nascent fun _ hm => hm.founded.site.keeps_fill hv i new

theorem keeps_nascent_allocateBytes {l : Landmark}
    (hl : l ∈ [Landmark.array, .symbol, .string, .byteArray, .compiledMethod])
    (bytes : Array UInt8) : Keeps (Nascent k h₁ h₀ entry interrupts input timer)
      (onHeap (Heap.allocateBytesFrom .ephemeral (k l) bytes)) :=
  keeps_nascent fun _ hm => hm.founded.site.keeps_allocateBytesFrom hl _ _

/-- The type of a new buffer is read before the buffer is made. -/
theorem keeps_nascent_landmark {l : Landmark} {f : Value → MachineM α}
    (hf : Keeps (Nascent k h₁ h₀ entry interrupts input timer) (f (k l))) :
    Keeps (Nascent k h₁ h₀ entry interrupts input timer) (landmark l >>= f) := by
  intro m hm
  have heq : (landmark l >>= f) m = f (k l) m := by
    rw [← hm.known_eq]
    rfl
  rw [heq]
  exact hf m hm

theorem ensures_newMethod (count : Nat) :
    Ensures (Nascent k h₁ h₀ entry interrupts input timer) (newObject .compiledMethod count)
      (fun v m => Nascent k h₁ h₀ entry interrupts input timer m ∧ Portable k v)
      fun _ => Nascent k h₁ h₀ entry interrupts input timer := by
  intro m hm
  have houtcome := hm.founded.site.ensures_allocateFields
    (hm.founded.site.made_types .compiledMethod (by decide)) .ephemeral count m.heap
    hm.founded.guarded
  have hnew : newObject .compiledMethod count m =
      onHeap (Heap.allocateFields .ephemeral (m.known .compiledMethod) count (m.known .nil)) m := rfl
  have hfounded := hm.founded
  rw [hnew, onHeap_run, hm.known_eq]
  cases hrun : Heap.allocateFields .ephemeral (k .compiledMethod) count (k .nil) m.heap with
  | ok v h =>
      rw [hrun] at houtcome
      exact ⟨⟨hm.known_eq, hm.regs_eq, hm.schedule_eq, ⟨hfounded.apart, hfounded.nil_empty,
        hfounded.site, hfounded.holds, hfounded.only, houtcome.1⟩⟩, houtcome.2.1 rfl⟩
  | error fault h =>
      rw [hrun] at houtcome
      exact ⟨hm.known_eq, hm.regs_eq, hm.schedule_eq, ⟨hfounded.apart, hfounded.nil_empty,
        hfounded.site, hfounded.holds, hfounded.only, houtcome⟩⟩

/-- Compiling a method touches nothing that was there but the symbols. -/
theorem compiles_nascent :
    Compiles (Nascent k h₁ h₀ entry interrupts input timer) (Portable k) where
  intern := keeps_nascent_intern
  buffer := by
    rintro l hl _ bytes m hm rfl
    rw [hm.known_eq]
    refine keeps_nascent_allocateBytes ?_ bytes m hm
    revert l
    decide
  make := ensures_newMethod
  fill := fun _ i new hv => keeps_nascent_storeField hv i new

/-- Methods go into the tables of types. -/
theorem keeps_nascent_insert {type : Value}
    (htype : ⟨type, .methods⟩ ∈ tableSet k h₁ ∨ type = placeholder) (selector method : Value) :
    Keeps (Nascent k h₁ h₀ entry interrupts input timer)
      (fun m => onHeap (Table.insert m.tableConfig ⟨type, .methods⟩ selector method) m) := by
  refine keeps_nascent fun m hm => ?_
  have hnaming := hm.naming
  rcases htype with hmem | rfl
  · exact (hm.founded.site.footprint hmem hnaming.nil_eq hnaming.array_eq).keeps_insert _ _
  · -- an integer has no fields, so the keys of its table cannot be read
    intro h hg
    exact hg

theorem keeps_nascent_installMethod {type method : Value}
    (htype : ⟨type, .methods⟩ ∈ tableSet k h₁ ∨ type = placeholder) (hmethod : Portable k method) :
    Keeps (Nascent k h₁ h₀ entry interrupts input timer) (installMethod type method) := by
  refine (keeps_fetchField _ _).bind fun selector => ?_
  refine (keeps_nascent_storeField hmethod _ _).bind fun _ => ?_
  refine (keeps_nascent_insert htype selector method).bind fun _ => ?_
  exact fun m hm => ⟨hm.known_eq, hm.regs_eq, hm.schedule_eq, hm.founded⟩

theorem keeps_nascent_install (ht : Typed k plainLandmarks h₁)
    (htypes : ∀ u t, h₁.typeOf u = .ok t → h₀.typeOf u = .ok t) (method : KernelMethod)
    (hmethod : method.type ∈ plainLandmarks ∧ method.type ≠ .nil) :
    Keeps (Nascent k h₁ h₀ entry interrupts input timer) method.install := by
  have hne : k method.type ≠ k .nil := fun heq =>
    hmethod.2 (ht.distinct _ hmethod.1 _ (by decide) heq)
  have hdefine : ∀ type, ⟨type, .methods⟩ ∈ tableSet k h₁ ∨ type = placeholder →
      Keeps (Nascent k h₁ h₀ entry interrupts input timer)
        (defineMethod type method.spec >>= fun _ => pure ()) := by
    intro type htype
    refine Keeps.bind (Ensures.keeps (Ensures.bind (compiles_nascent.ensures_compileMethod _) fun v => ?_))
      fun _ => Keeps.pure _
    rintro m ⟨hm, hv⟩
    exact (Keeps.bind (keeps_nascent_installMethod htype hv) fun _ => Keeps.pure _).ensures m hm
  refine keeps_nascent_landmark ?_
  split
  · refine Ensures.keeps (Ensures.bind (ensures_readHeap _ _) fun metatype => ?_)
    rintro m ⟨hm, hmeta⟩
    refine (hdefine metatype ?_).ensures m hm
    obtain ⟨t, htype⟩ := ht.exist _ hmethod.1
    have heq : metatype = t := Except.ok.inj
      (hmeta.symm.trans (hm.founded.guarded.grows.types _ _ (htypes _ _ htype)))
    subst heq
    by_cases hplace : metatype = placeholder
    · exact .inr hplace
    · obtain ⟨hrooted, hexist⟩ := ht.types _ _ htype hplace
      refine .inl (.inr (.inr ⟨rfl, hrooted, ?_, hexist⟩))
      exact fun heq => ht.unused .nil (by decide) _ (htype.trans (congrArg _ heq))
  · exact hdefine _ (.inl (.inr (.inr ⟨rfl, ht.rooted _ hmethod.1, hne, ht.exist _ hmethod.1⟩)))

theorem typeOf_create {settings : Heap.Settings} (hcreate : Heap.create settings = .ok h)
    (u t : Value) : h.typeOf u ≠ .ok t := by
  intro htype
  obtain ⟨a, o, -, ho, -⟩ := Heap.typeOf_eq_ok.mp htype
  obtain ⟨-, -, hat⟩ := Heap.resolve_eq_ok.mp ho
  unfold Heap.create at hcreate
  split at hcreate
  · cases hcreate
  · cases hcreate
    cases hspace : a.space with
    | root =>
        rw [hspace] at hat
        cases (Pool.at?_empty _ _ _ _ _ _).symm.trans hat
    | ephemeral =>
        rw [hspace] at hat
        cases (Pool.at?_empty _ _ _ _ _ _).symm.trans hat

theorem nascent_bare {settings : Settings} {m : Machine} (hbare : bare settings = .ok m) :
    ∃ k h₁ h₀ entry interrupts input timer, Typed k plainLandmarks h₁ ∧
      (∀ u t, h₁.typeOf u = .ok t → h₀.typeOf u = .ok t) ∧
      Nascent k h₁ h₀ entry interrupts input timer m := by
  unfold bare at hbare
  split at hbare
  · cases hbare
  obtain ⟨empty, hempty, hrest⟩ := reading_bind_eq_ok.mp hbare
  have hcreate := liftFault_eq_ok.mp hempty
  split at hrest
  · cases hrest
  next known heap hboot =>
  obtain ⟨entryProcess, hentry, hend⟩ := reading_bind_eq_ok.mp hrest
  obtain rfl := reading_pure_eq_ok.mp hend
  obtain ⟨h₁, h₀, entry, interrupts, input, timer, ht, htypes, hfounded⟩ :=
    founded_boot (typeOf_create hcreate) (Heap.settled_create hcreate) hboot
  refine ⟨known, h₁, h₀, entry, interrupts, input, timer, ht, htypes, rfl, ?_, rfl, hfounded⟩
  have hprocessor := hfounded.guarded.spared _ _ (.inl rfl)
    (hfounded.holds _ List.mem_cons_self).2
  obtain ⟨xs, hxs, hget⟩ := Heap.fetchField_eq_ok.mp (liftFault_eq_ok.mp hentry)
  cases hprocessor.symm.trans hxs
  cases hget
  rfl

/-- A new machine has its objects as booting left them. -/
theorem nascent_create {settings : Settings} {m : Machine} (hcreate : create settings = .ok m) :
    ∃ k h₁ h₀ entry interrupts input timer, Nascent k h₁ h₀ entry interrupts input timer m := by
  unfold create at hcreate
  obtain ⟨m₀, hbare, hrest⟩ := reading_bind_eq_ok.mp hcreate
  obtain ⟨k, h₁, h₀, entry, interrupts, input, timer, ht, htypes, hm₀⟩ := nascent_bare hbare
  have hkeeps : Keeps (Nascent k h₁ h₀ entry interrupts input timer)
      (KernelMethod.table.forM KernelMethod.install) := by
    refine Keeps.forM fun method hmethod => keeps_nascent_install ht htypes method ?_
    revert method
    decide
  have hm := hkeeps m₀ hm₀
  split at hrest
  · next m' hrun =>
    obtain rfl := reading_pure_eq_ok.mp hrest
    rw [hrun] at hm
    exact ⟨k, h₁, h₀, entry, interrupts, input, timer, hm⟩
  · cases hrest

end Machine

/-! ## The order of a new machine -/

namespace Boot.Founded

variable {tables : Set Table} {entry interrupts input timer : Value}
  (hf : Founded k tables h₀ entry interrupts input timer h)
include hf

theorem types : h.typeOf (k .processor) = .ok (k .processorScheduler) ∧
    h.typeOf entry = .ok (k .process) ∧ h.typeOf interrupts = .ok (k .array) ∧
    h.typeOf input = .ok (k .semaphore) ∧ h.typeOf timer = .ok (k .semaphore) := by
  have htype : ∀ c ∈ schedulerCells k (k .processor) entry interrupts input timer,
      h.typeOf c.1 = .ok c.2.1 := fun c hc => hf.guarded.grows.types _ _ (hf.holds c hc).1
  simp only [schedulerCells, List.forall_mem_cons] at htype
  exact ⟨htype.1, htype.2.1, htype.2.2.1, htype.2.2.2.1, htype.2.2.2.2.1⟩

theorem fields : h.fields (k .processor) = .ok #[entry, interrupts, k .nil, k .nil] ∧
    h.fields entry = .ok #[k .nil, .ofNat 0] ∧ h.fields interrupts = .ok #[timer, input] ∧
    h.fields input = .ok #[.ofNat 0, k .nil, k .nil] ∧
    h.fields timer = .ok #[.ofNat 0, k .nil, k .nil] := by
  have hcell : ∀ c ∈ schedulerCells k (k .processor) entry interrupts input timer,
      IsCore k entry interrupts input timer c.1 → h.fields c.1 = .ok c.2.2 :=
    fun c hc hcore => hf.guarded.spared _ _ hcore (hf.holds c hc).2
  simp only [schedulerCells, List.forall_mem_cons] at hcell
  exact ⟨hcell.1 (.inl rfl), hcell.2.1 (.inr (.inl rfl)), hcell.2.2.1 (.inr (.inr (.inl rfl))),
    hcell.2.2.2.1 (.inr (.inr (.inr (.inl rfl)))), hcell.2.2.2.2.1 (.inr (.inr (.inr (.inr rfl))))⟩

/-- The entry process and the two semaphores are the only objects of the sorts that running makes. -/
theorem only_run {u : Value} {xs : Array Value} {l : Landmark} (hl : l ∈ runLandmarks)
    (hxs : h.fields u = .ok xs) (htype : h.typeOf u = .ok (k l)) :
    l = .process ∧ u = entry ∨ l = .semaphore ∧ (u = input ∨ u = timer) := by
  have hold : ∃ t, h₀.typeOf u = .ok t := by
    by_contra hnew
    exact hf.guarded.grows.fresh u (fun t ht => hnew ⟨t, ht⟩) l hl htype
  obtain ⟨t, ht⟩ := hold
  have hcount := (hf.guarded.grows.sizes u xs.size ⟨t, ht⟩).mp
    (Heap.fieldCount_eq_ok.mpr ⟨xs, hxs, rfl⟩)
  obtain ⟨ys, hys, -⟩ := Heap.fieldCount_eq_ok.mp hcount
  refine hf.only u ys hys l hl ?_
  rw [ht, ← htype, hf.guarded.grows.types u t ht]

/-- The two semaphores are the only objects with queues of their own. -/
theorem semaphore_fields {u : Value} {xs : Array Value} (hxs : h.fields u = .ok xs)
    (hqueueing : Queueing k h u) : xs = #[.ofNat 0, k .nil, k .nil] := by
  obtain ⟨-, -, -, hinput, htimer⟩ := hf.fields
  have honly : u = input ∨ u = timer := by
    rcases hqueueing with htype | htype
    · rcases hf.only_run (by decide) hxs htype with ⟨heq, -⟩ | ⟨-, honly⟩
      · cases heq
      · exact honly
    · rcases hf.only_run (by decide) hxs htype with ⟨heq, -⟩ | ⟨heq, -⟩ <;> cases heq
  rcases honly with rfl | rfl
  · exact Except.ok.inj (hxs.symm.trans hinput)
  · exact Except.ok.inj (hxs.symm.trans htimer)

theorem furnished : Furnished k h := by
  obtain ⟨hprocessor, hentry, htable, hinput, htimer⟩ := hf.types
  obtain ⟨hprocessorFields, hentryFields, htableFields, -, -⟩ := hf.fields
  have hnone : ∀ {u l}, h.typeOf u = .ok (k l) → k l ≠ k .semaphore ∧ k l ≠ k .link →
      ¬Queueing k h u := by
    rintro u l hu ⟨hsemaphore, hlink⟩ (hq | hq)
    · exact hsemaphore (Except.ok.inj (hu.symm.trans hq))
    · exact hlink (Except.ok.inj (hu.symm.trans hq))
  have hnil := (hf.guarded.grows.sizes _ _ (Heap.exists_typeOf_of_count hf.nil_empty)).mpr hf.nil_empty
  refine ⟨hf.guarded.grows.settled, hnil, Heap.fieldCount_eq_ok.mpr ⟨_, hprocessorFields, rfl⟩,
    hnone hprocessor (hf.apart.plain (by decide)), ?_, ?_,
    hf.apart.ne (by decide) (by decide) (by decide), ?_, ?_, ?_⟩
  · rw [hprocessor]
    exact fun heq => hf.apart.ne (by decide) (by decide) (by decide) (Except.ok.inj heq)
  · -- the only process has fields
    intro htype
    obtain ⟨xs, hxs, hsize⟩ := Heap.fieldCount_eq_ok.mp hnil
    rcases hf.only_run (by decide) hxs htype with ⟨-, heq⟩ | ⟨hne, -⟩
    · rw [heq, hentryFields] at hxs
      cases hxs
      cases hsize
    · cases hne
  · intro l hl
    refine hf.apart.plain ?_
    revert l
    decide
  · intro v i x hqueueing hlow _ hx
    obtain ⟨xs, hxs, hget⟩ := Heap.fetchField_eq_ok.mp hx
    rw [hf.semaphore_fields hxs hqueueing] at hget
    have hlt := (Array.getElem?_eq_some_iff.mp hget).1
    exact absurd hlt (Nat.not_lt.mpr hlow)
  · intro t ht _
    obtain ⟨xs, hxs, hget⟩ := Heap.fetchField_eq_ok.mp ht
    cases hprocessorFields.symm.trans hxs
    obtain rfl : interrupts = t := Option.some.inj hget
    refine ⟨Heap.fieldCount_eq_ok.mpr ⟨_, htableFields, rfl⟩, ?_,
      hnone htable (hf.apart.plain (by decide)), ?_, ?_⟩
    · rintro heq
      rw [heq, hprocessorFields] at htableFields
      cases htableFields
    · rw [htable]
      exact fun heq => hf.apart.ne (by decide) (by decide) (by decide) (Except.ok.inj heq)
    · intro i s hs _
      obtain ⟨xs, hxs, hget⟩ := Heap.fetchField_eq_ok.mp hs
      cases htableFields.symm.trans hxs
      match i with
      | 0 =>
          cases hget
          exact htimer
      | 1 =>
          cases hget
          exact hinput
      | i + 2 => cases hget

/-- All queues of a new machine are empty. -/
theorem ends_nil {q : Queue} (hq : q.Belongs k h) {v : Value}
    (hv : h.fetchField q.owner q.first = .ok v ∨ h.fetchField q.owner q.last = .ok v) :
    v = k .nil := by
  have hread : ∀ i, i = q.first ∨ i = q.last → h.fetchField q.owner i = .ok v → v = k .nil := by
    intro i hi hfetch
    obtain ⟨xs, hxs, hget⟩ := Heap.fetchField_eq_ok.mp hfetch
    rcases hq with hq | ⟨hq, htype⟩
    · rw [hq] at hi hxs
      cases hf.fields.1.symm.trans hxs
      rcases hi with rfl | rfl <;> exact (Option.some.inj hget).symm
    · rw [hf.semaphore_fields hxs (.inl htype)] at hget
      rw [hq] at hi
      rcases hi with rfl | rfl <;> exact (Option.some.inj hget).symm
  rcases hv with hv | hv
  · exact hread _ (.inl rfl) hv
  · exact hread _ (.inr rfl) hv

theorem arranged : Arranged k h fun _ => [] := by
  refine ⟨?_, fun _ _ => rfl, fun _ => List.nodup_nil, ?_, ?_, ?_, ?_, ?_⟩
  · intro q v hq hfirst
    rw [hf.ends_nil hq (.inl hfirst)]
    exact .nil
  · rintro o o' p ⟨link, hmem⟩
    cases hmem
  · rintro o p ⟨link, hmem⟩
    cases hmem
  · exact fun q l hq hlast hne => absurd (hf.ends_nil hq (.inr hlast)) hne
  · rintro q l o p - - hmem
    cases hmem
  · exact fun q q' l hq _ hlast _ hne => absurd (hf.ends_nil hq (.inr hlast)) hne

end Boot.Founded

/-- The processes of a new machine are in order: there is one, and it is active. -/
theorem Machine.orderly_create {settings : Machine.Settings} {m : Machine}
    (hcreate : Machine.create settings = .ok m) : m.Orderly none ∅ := by
  obtain ⟨k, h₁, h₀, entry, interrupts, input, timer, rfl, hregs, hschedule, hf⟩ :=
    nascent_create hcreate
  have hfurnished := hf.furnished
  have hqueued : ∀ p o, ¬Queued (fun _ => []) p o := by
    rintro p o ⟨link, hmem⟩
    cases hmem
  have hentry := hf.types.2.1
  refine ⟨fun _ => [], ⟨hfurnished, ?_, ?_⟩, hf.arranged, ?_, ?_, ?_, ?_, ?_⟩
  · rw [hregs]
    exact hfurnished.open_nil
  · rw [hregs]
    exact .inl rfl
  · refine ⟨entry, Heap.fetchField_eq_ok.mpr ⟨_, hf.fields.1, rfl⟩, .inr ⟨hentry, ?_⟩⟩
    exact fun _ o => hqueued entry o
  · rw [hregs]
    exact hentry
  · exact fun o hq => absurd hq (hqueued _ o)
  · rw [hregs]
    exact fun hne => absurd rfl hne
  · intro p hover
    rcases hover with hp | ⟨hp, -⟩
    · cases hp
    · cases hp

end MessageMachine
