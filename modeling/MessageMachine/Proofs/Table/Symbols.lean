import MessageMachine.Proofs.Table.Mapping

/-!
# Interned symbols

A symbol table has no values: its keys are byte buffers, looked for by contents.  `Spelled` says that
it holds one symbol for each of a list of names.  Interning a name adds it if it is new, and
answers the symbol it has otherwise.
-/

namespace MessageMachine.Table

variable {config : Config} {h h' : Heap} {symbols : Value}
  {names : List (Array UInt8 × Value)}

/-- The table of symbols has a symbol for each name of the list, and no others. -/
structure Spelled (config : Config) (h : Heap) (symbols : Value)
    (names : List (Array UInt8 × Value)) : Prop where
  holds : Holds config h ⟨symbols, .symbols⟩ fun k v => v = k ∧ ∃ name, (name, k) ∈ names
  bytes_eq : ∀ e ∈ names, h.bytes e.2 = .ok e.1
  ne_nil : ∀ e ∈ names, e.2 ≠ config.nil
  unique : ∀ e ∈ names, ∀ e' ∈ names, e.1 = e'.1 → e.2 = e'.2

theorem not_valued_symbols : ¬Kind.symbols.Valued := fun h => h rfl

namespace Spelled

theorem lookup_eq_some_iff (hs : Spelled config h symbols names) {name : Array UInt8}
    {symbol : Value} : names.lookup name = some symbol ↔ (name, symbol) ∈ names := by
  constructor
  · intro hlookup
    obtain ⟨before, after, rfl, -⟩ := List.lookup_eq_some_iff.mp hlookup
    simp
  · intro hmem
    cases hlookup : names.lookup name with
    | none => exact absurd (List.lookup_eq_none_iff.mp hlookup _ hmem) (by simp)
    | some other =>
        obtain ⟨before, after, rfl, -⟩ := List.lookup_eq_some_iff.mp hlookup
        exact congrArg some (hs.unique (name, other) (by simp) _ hmem rfl)

/-- Two names of one symbol are the same. -/
theorem injective (hs : Spelled config h symbols names) {e e' : Array UInt8 × Value}
    (he : e ∈ names) (he' : e' ∈ names) (heq : e.2 = e'.2) : e.1 = e'.1 := by
  have hbytes := hs.bytes_eq e he
  rw [heq, hs.bytes_eq e' he'] at hbytes
  exact (Except.ok.inj hbytes).symm

/-- The table finds the symbol of a name exactly if it has one. -/
theorem findSymbol (hs : Spelled config h symbols names) (name : Array UInt8) :
    Table.findSymbol config h symbols name = .ok (names.lookup name) := by
  classical
  obtain ⟨tally, keyRef, valueRef, keys, values, hlaid, hfilled, -, -⟩ := hs.holds
  have hspelling : ∀ (i : Nat) (k : Value), keys[i]? = some k → k ≠ config.nil →
      ∃ spelling, (spelling, k) ∈ names := by
    intro i k hi hnil
    obtain ⟨v, -, hspelling⟩ := hfilled.exists_entry hi hnil
    exact hspelling
  have hcompare : ∀ k ∈ keys, k ≠ config.nil →
      (do return (← h.bytes k) = name : Except HeapFault Bool) =
        .ok (decide (h.bytes k = .ok name)) := by
    intro k hk hnil
    obtain ⟨i, hi, hik⟩ := Array.mem_iff_getElem.mp hk
    obtain ⟨spelling, hmem⟩ := hspelling i k (Array.getElem?_eq_some_iff.mpr ⟨hi, hik⟩) hnil
    rw [hs.bytes_eq _ hmem]
    refine reading_bind_eq_ok.mpr ⟨spelling, rfl, ?_⟩
    simp
  obtain ⟨r, hprobe, hends⟩ := probe_ends (contentHash name) hcompare
  have habsent : (∀ place, r ≠ .found place) → names.lookup name = none := by
    intro hr
    cases hlookup : names.lookup name with
    | none => rfl
    | some symbol =>
        have hmem := hs.lookup_eq_some_iff.mp hlookup
        have hnil := hs.ne_nil _ hmem
        have hbytes := hs.bytes_eq _ hmem
        obtain ⟨i, hi, -⟩ := (hfilled.entry_iff symbol symbol hnil).mp ⟨rfl, name, hmem⟩
        obtain ⟨place, hfound⟩ := hfilled.found_of_mem (fun _ _ _ => Hash.functional) hends hi hnil
          hbytes (hash_bytes hbytes)
        exact absurd hfound (hr place)
  refine reading_bind_eq_ok.mpr ⟨keyRef, hlaid.keyRef_eq, ?_⟩
  refine reading_bind_eq_ok.mpr ⟨keys, hlaid.keyArray_eq, ?_⟩
  refine reading_bind_eq_ok.mpr ⟨r, hprobe, ?_⟩
  cases r with
  | found place =>
      obtain ⟨k, hk, hnil, hbytes⟩ := hends
      obtain ⟨spelling, hmem⟩ := hspelling place k hk hnil
      rw [hs.bytes_eq _ hmem] at hbytes
      cases hbytes
      rw [hs.lookup_eq_some_iff.mpr hmem]
      have hne := hlaid.ne_nil_of_lt (Array.getElem?_eq_some_iff.mp hk).1
      exact reading_bind_eq_ok.mpr ⟨k, Heap.fetchField_eq_ok.mpr
        ⟨keys, (hlaid.allocated hne).keys_eq, hk⟩, rfl⟩
  | vacant place =>
      rw [habsent (by rintro _ ⟨⟩)]
      rfl
  | full =>
      rw [habsent (by rintro _ ⟨⟩)]
      rfl

/-- Interning answers the symbol of the name, which the table has from then on. -/
theorem intern (hs : Spelled config h symbols names) {symbolType symbol : Value}
    {name : Array UInt8} (hrun : Table.intern config symbols symbolType name h = .ok symbol h') :
    Spelled config h' symbols ((name, symbol) :: names) := by
  obtain ⟨found, hfind, hrun⟩ := Heap.read_bind_eq_ok.mp hrun
  rw [hs.findSymbol name] at hfind
  cases hfind
  cases hlookup : names.lookup name with
  | some known =>
      rw [hlookup] at hrun
      obtain ⟨rfl, rfl⟩ := pure_eq_ok.mp hrun
      have hmem := hs.lookup_eq_some_iff.mp hlookup
      have hsame : ∀ e, e ∈ (name, known) :: names ↔ e ∈ names := by
        intro e
        rw [List.mem_cons, or_iff_right_of_imp]
        rintro rfl
        exact hmem
      refine ⟨?_, ?_, ?_, ?_⟩
      · simpa only [hsame] using hs.holds
      · simpa only [hsame] using hs.bytes_eq
      · simpa only [hsame] using hs.ne_nil
      · simpa only [hsame] using hs.unique
  | none =>
      rw [hlookup] at hrun
      obtain ⟨new, h₁, hallocate, hrun⟩ := bind_eq_ok.mp hrun
      obtain ⟨_, h₂, hinsert, hrun⟩ := bind_eq_ok.mp hrun
      obtain ⟨rfl, rfl⟩ := pure_eq_ok.mp hrun
      have hnew : ∀ e ∈ names, e.1 ≠ name := by
        intro e he heq
        exact absurd (List.lookup_eq_none_iff.mp hlookup e he) (by simp [heq])
      obtain ⟨⟨a, rfl, hstale⟩, hbytes, hretains, hsettled⟩ :=
        Heap.bytes_allocateBytesFrom hs.holds.settled hallocate
      have hnil : Value.bytes a ≠ config.nil := hs.holds.nil_denotes.ne_of_stale rfl hstale
      have hfresh : ∀ e ∈ names, e.2 ≠ .bytes a := by
        intro e he heq
        obtain ⟨b, o, hb, ho, -⟩ := Heap.bytes_eq_ok.mp (hs.bytes_eq e he)
        rw [heq] at hb
        cases hb
        rw [hstale] at ho
        cases ho
      obtain ⟨tally, keyRef, valueRef, keys, values, hlaid, hfilled, htally, -⟩ :=
        hs.holds.of_spares (spares_of_retains hretains hsettled hs.holds.nil_denotes)
      obtain ⟨hholds, hretains'⟩ := hlaid.insertNew hfilled htally hnil
        (fun v hv => by
          obtain ⟨-, spelling, hmem⟩ := hv
          exact hfresh _ hmem rfl)
        (hash_bytes hbytes) (fun hyes => absurd hyes not_valued_symbols) (fun _ => rfl) hinsert
      have hbytes' := hretains'.bytes _ _ hbytes
      refine ⟨?_, ?_, ?_, ?_⟩
      · refine hholds.congr fun k v hk => ?_
        by_cases heq : k = .bytes a
        · subst heq
          simp
        · simp [heq]
      · intro e he
        rcases List.mem_cons.mp he with rfl | hrest
        · exact hbytes'
        · exact hretains'.bytes _ _ (hretains.bytes _ _ (hs.bytes_eq e hrest))
      · intro e he
        rcases List.mem_cons.mp he with rfl | hrest
        · exact hnil
        · exact hs.ne_nil e hrest
      · intro e he e' he' heq
        rcases List.mem_cons.mp he with rfl | hrest
        · rcases List.mem_cons.mp he' with rfl | hrest'
          · rfl
          · exact absurd heq.symm (hnew e' hrest')
        · rcases List.mem_cons.mp he' with rfl | hrest'
          · exact absurd heq (hnew e hrest)
          · exact hs.unique e hrest e' hrest' heq

/-- A symbol of the table is among its keys. -/
theorem kept {roots : List Value} (hs : Spelled config h symbols names)
    (howner : Heap.Kept h roots symbols) {e : Array UInt8 × Value} (he : e ∈ names) :
    Heap.Kept h roots e.2 := by
  obtain ⟨tally, keyRef, valueRef, keys, values, hlaid, hfilled, -, -⟩ := hs.holds
  obtain ⟨i, hi, -⟩ := (hfilled.entry_iff e.2 e.2 (hs.ne_nil e he)).mp ⟨rfl, e.1, he⟩
  exact hlaid.kept howner e.2 (Array.mem_of_getElem? hi)

theorem map {roots roots' : List Value} {φ : Handle → Handle}
    (hs : Spelled config h symbols names) (hr : Heap.Relocation h roots h' roots' φ)
    (hsettled' : h'.Settled) (howner : Heap.Kept h roots symbols)
    (hnil : Heap.Kept h roots config.nil) :
    Spelled (config.map φ) h' (symbols.map φ) (names.map fun e => (e.1, e.2.map φ)) := by
  have hkept : ∀ e ∈ names, Heap.Kept h roots e.2 := fun e he => hs.kept howner he
  refine ⟨?_, ?_, ?_, ?_⟩
  · refine (hs.holds.map hr hsettled' howner hnil).1.congr fun k' v' _ => ?_
    constructor
    · rintro ⟨rfl, name, hmem⟩
      obtain ⟨e, he, heq⟩ := List.mem_map.mp hmem
      cases heq
      exact ⟨e.2, e.2, hs.ne_nil e he, ⟨rfl, e.1, he⟩, rfl, rfl⟩
    · rintro ⟨k, v, -, ⟨rfl, name, hmem⟩, rfl, rfl⟩
      exact ⟨rfl, name, List.mem_map.mpr ⟨(name, v), hmem, rfl⟩⟩
  · intro e' he'
    obtain ⟨e, he, rfl⟩ := List.mem_map.mp he'
    exact hr.bytes_map hsettled' (hkept e he) (hs.bytes_eq e he)
  · intro e' he' heq
    obtain ⟨e, he, rfl⟩ := List.mem_map.mp he'
    exact hs.ne_nil e he (hr.map_injective hsettled' (hkept e he) hnil heq)
  · intro x hx y hy heq
    obtain ⟨e, he, rfl⟩ := List.mem_map.mp hx
    obtain ⟨e', he', rfl⟩ := List.mem_map.mp hy
    exact congrArg (Value.map φ) (hs.unique e he e' he' heq)

theorem of_spares (hs : Spelled config h symbols names)
    (hspares : Spares config ⟨symbols, .symbols⟩ h h') : Spelled config h' symbols names := by
  refine ⟨hs.holds.of_spares hspares, ?_, hs.ne_nil, hs.unique⟩
  intro e he
  obtain ⟨tally, keyRef, valueRef, keys, values, hlaid, hfilled, -, -⟩ := hs.holds
  obtain ⟨i, hi, -⟩ := (hfilled.entry_iff e.2 e.2 (hs.ne_nil e he)).mp ⟨rfl, e.1, he⟩
  have hne := hlaid.ne_nil_of_lt (Array.getElem?_eq_some_iff.mp hi).1
  exact (hspares.keys keyRef keys e.2 hlaid.keyRef_eq (hlaid.allocated hne).keys_eq
    (Array.mem_of_getElem? hi)).1 _ (hs.bytes_eq e he)

end Spelled

/-! ## Histories of a table of symbols -/

/-- What has been done to a table of symbols since it was fresh.  The list has every name that was
interned and the symbol that was answered, latest first; a collection replaces the handles. -/
inductive Interned : Config → Heap → Value → List (Array UInt8 × Value) → Prop where
  | fresh {config : Config} {h : Heap} {symbols : Value} :
      Fresh config h ⟨symbols, .symbols⟩ → Interned config h symbols []
  | intern {config : Config} {h h' : Heap} {symbols symbolType symbol : Value}
      {name : Array UInt8} {names : List (Array UInt8 × Value)} :
      Interned config h symbols names →
      Table.intern config symbols symbolType name h = .ok symbol h' →
      Interned config h' symbols ((name, symbol) :: names)
  | collect {config : Config} {h h' : Heap} {symbols : Value}
      {names : List (Array UInt8 × Value)} {roots roots' : List Value} {cycle : Heap.Cycle}
      {φ : Handle → Handle} :
      Interned config h symbols names → Heap.Kept h roots symbols →
      Heap.Kept h roots config.nil → h.collect roots = ⟨.ok cycle, roots', h'⟩ →
      Heap.Relocation h roots h' roots' φ →
      Interned (config.map φ) h' (symbols.map φ) (names.map fun e => (e.1, e.2.map φ))
  | elsewhere {config : Config} {h h' : Heap} {symbols : Value}
      {names : List (Array UInt8 × Value)} :
      Interned config h symbols names → Spares config ⟨symbols, .symbols⟩ h h' →
      Interned config h' symbols names

theorem Interned.spelled (hinterned : Interned config h symbols names) :
    Spelled config h symbols names := by
  induction hinterned with
  | fresh hfresh => exact ⟨hfresh.holds.congr fun k v _ => by simp, nofun, nofun, nofun⟩
  | intern _ hrun ih => exact ih.intern hrun
  | @collect config h h' symbols names roots roots' cycle φ _ howner hnil hcollect hr ih =>
      have hsettled' := Heap.settled_collect ih.holds.settled roots
      rw [hcollect] at hsettled'
      exact ih.map hr hsettled' howner hnil
  | elsewhere _ hspares ih => exact ih.of_spares hspares

end MessageMachine.Table
