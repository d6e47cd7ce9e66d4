import MessageMachine.Proofs.Table.Symbols

/-!
# Tables are finite maps

The statement about tables as a whole, for every history of a table: `table_refines_map`.  The two
previous files follow a table with values and a table of symbols through their histories; here is
what a reader of the tables sees.
-/

namespace MessageMachine.Table

variable {config : Config} {h h' : Heap} {t : Table}

/-- No key is in two places, the owner's count is the number of taken places, and at most three
quarters of all places are taken. -/
def Balanced (config : Config) (h : Heap) (t : Table) : Prop :=
  ∃ tally keyRef keys, h.fetchField t.owner t.kind.tally = .ok (.ofNat tally) ∧
    h.fetchField t.owner t.kind.keys = .ok keyRef ∧ keyArray config h keyRef = .ok keys ∧
    (∀ (i j : Nat) (k : Value), keys[i]? = some k → keys[j]? = some k → k ≠ config.nil → i = j) ∧
    tally = keys.countP (· ≠ config.nil) ∧ 4 * tally ≤ 3 * keys.size

theorem Holds.balanced {entry : Value → Value → Prop} (hholds : Holds config h t entry) :
    Balanced config h t := by
  obtain ⟨tally, keyRef, valueRef, keys, values, hlaid, hfilled, htally, hroom⟩ := hholds
  exact ⟨tally, keyRef, keys, hlaid.tally_eq, hlaid.keyRef_eq, hlaid.keyArray_eq, hfilled.distinct,
    htally, hroom⟩

/-- Whatever has been done to a table, it answers for each key the value inserted last, and for each
name the one symbol answered when it was interned. -/
theorem table_refines_map :
    (∀ {config : Config} {h : Heap} {t : Table} {entries : List (Value × Value)},
      History config h t entries →
        (∀ key n, key ≠ config.nil → keyHash h key = .ok n →
          lookup config h t key = .ok (entries.lookup key)) ∧
        Balanced config h t) ∧
      ∀ {config : Config} {h : Heap} {symbols : Value} {names : List (Array UInt8 × Value)},
        Interned config h symbols names →
          (∀ name, findSymbol config h symbols name = .ok (names.lookup name)) ∧
          (∀ x ∈ names, ∀ y ∈ names, x.1 = y.1 ↔ x.2 = y.2) ∧
          (∀ x ∈ names, names.lookup x.1 = some x.2) ∧
          Balanced config h ⟨symbols, .symbols⟩ := by
  constructor
  · intro config h t entries hhistory
    obtain ⟨hvalued, hholds, -⟩ := hhistory.holds
    refine ⟨?_, hholds.balanced⟩
    intro key n hnil hn
    obtain ⟨r, hlookup, hr⟩ := hholds.lookup hvalued hnil hn
    rw [hlookup]
    exact congrArg _ (Option.ext hr)
  · intro config h symbols names hinterned
    have hs := hinterned.spelled
    refine ⟨hs.findSymbol, ?_, ?_, hs.holds.balanced⟩
    · exact fun x hx y hy => ⟨hs.unique x hx y hy, hs.injective hx hy⟩
    · exact fun x hx => hs.lookup_eq_some_iff.mpr hx

/-! ## Two keys with one home -/

/-- Nil and an empty dictionary, both in the root pool. -/
def dictionaryHeap : Heap :=
  [Heap.Operation.allocateFields .root (.int 0) 1 (.int 0),
    .allocateFields .root (.int 0) Slot.dictionarySize (.object ⟨.root, 0, 0, 0⟩),
    .storeField (.object ⟨.root, 0, 0, 1⟩) Slot.dictionaryTally (.int 0)].foldl
    (fun h op => op.perform h)
    { settings := {}
      root := .empty .root 0 65536 16
      ephemeral := .empty .ephemeral 1 65536 1024
      threshold := 8
      collections := 0 }

/-- Tables of four places, so that 1 and 5 have the same home. -/
def fourPlaces : Config := ⟨.object ⟨.root, 0, 0, 0⟩, .int 0, 4, 4⟩

def dictionary : Table := ⟨.object ⟨.root, 0, 0, 1⟩, .globals⟩

/-- The dictionary with 10 at 1. -/
def dictionaryHeap₁ : Heap := stateAfter (insert fourPlaces dictionary (.int 1) (.int 10) dictionaryHeap)

/-- The dictionary with 10 at 1 and 50 at 5. -/
def dictionaryHeap₂ : Heap := stateAfter (insert fourPlaces dictionary (.int 5) (.int 50) dictionaryHeap₁)

theorem fresh_dictionaryHeap : Fresh fourPlaces dictionaryHeap dictionary := by
  have hcreate : Heap.create {} = .ok
      { settings := {}
        root := .empty .root 0 65536 16
        ephemeral := .empty .ephemeral 1 65536 1024
        threshold := 8
        collections := 0 } := by rfl
  have hnil : dictionaryHeap.resolve ⟨.root, 0, 0, 0⟩ =
      .ok ⟨⟨1, 0, .int 0, .permanent⟩, .fields #[.int 0]⟩ := by decide +kernel
  refine ⟨((Heap.Built.create hcreate).performAll _).settled, ?_, ?_, ?_, ?_⟩
  · intro a ha
    cases ha
    exact ⟨_, hnil⟩
  · decide +kernel
  · decide +kernel
  · intro slot hslot
    cases hslot
    decide +kernel

/-- Both keys are found after their arrays have moved, and a third key of the same home is not. -/
theorem table_refines_map_dictionaryHeap :
    lookup fourPlaces (dictionaryHeap₂.collect []).heap dictionary (.int 1) =
        .ok (some (.int 10)) ∧
      lookup fourPlaces (dictionaryHeap₂.collect []).heap dictionary (.int 5) =
        .ok (some (.int 50)) ∧
      lookup fourPlaces (dictionaryHeap₂.collect []).heap dictionary (.int 9) = .ok none := by
  have hfirst : History fourPlaces dictionaryHeap₁ dictionary [(.int 1, .int 10)] :=
    .insert (.fresh (by decide) fresh_dictionaryHeap) (by decide)
      (eq_ok_of_succeeds (by decide +kernel))
  have hsecond : History fourPlaces dictionaryHeap₂ dictionary
      [(.int 5, .int 50), (.int 1, .int 10)] :=
    .insert hfirst (by decide) (eq_ok_of_succeeds (by decide +kernel))
  have hresult : (dictionaryHeap₂.collect []).result = .ok ⟨2, 2, 12, 1, 1⟩ := by decide +kernel
  have hcollect : dictionaryHeap₂.collect [] = ⟨.ok ⟨2, 2, 12, 1, 1⟩,
      (dictionaryHeap₂.collect []).roots, (dictionaryHeap₂.collect []).heap⟩ := by
    rw [← hresult]
  obtain ⟨φ, hr⟩ := Heap.collect_relocates hsecond.holds.2.1.settled hcollect
  have hfixed : ∀ a : Handle, a.space = .root → Heap.Kept dictionaryHeap₂ [] (.object a) := by
    intro a ha b hb
    cases hb.1
    cases ha.symm.trans hb.2
  have hthird := History.collect hsecond (hfixed _ rfl) (hfixed _ rfl) hcollect hr
  have hconfig : fourPlaces.map φ = fourPlaces := by
    simp [Config.map, fourPlaces, Value.map, hr.fixes_root]
  have htable : dictionary.map φ = dictionary := by
    simp [Table.map, dictionary, Value.map, hr.fixes_root]
  rw [hconfig, htable] at hthird
  have hlookup := (table_refines_map.1 hthird).1
  exact ⟨hlookup (.int 1) 1 (by decide) rfl, hlookup (.int 5) 5 (by decide) rfl,
    hlookup (.int 9) 9 (by decide) rfl⟩

end MessageMachine.Table
