import MessageMachine.Proofs.Table.Refinement
import MessageMachine.Proofs.Table.Refusal

/-!
# A failed insertion leaves the table as it was

An insertion may need room three times: for a symbol, for an array of keys and for an array of
values.  Wherever it runs out, everything that existed is as it was (`Heap.Extended`), and so the
table is: its owner and its arrays, what is found in it (`Untouched`), and its invariant.

`failed_insertion` says so for every kind of table.
-/

namespace MessageMachine.Table

variable {config : Config} {h h' : Heap} {t : Table} {entry : Value → Value → Prop}

/-- The owner and the arrays are the same, and so is the answer of every search that has one. -/
structure Untouched (config : Config) (t : Table) (h h' : Heap) : Prop where
  tally : h'.fetchField t.owner t.kind.tally = h.fetchField t.owner t.kind.tally
  keys : h'.fetchField t.owner t.kind.keys = h.fetchField t.owner t.kind.keys
  values : ∀ slot, t.kind.values? = some slot →
    h'.fetchField t.owner slot = h.fetchField t.owner slot
  arrays : ∀ slot ref xs, slot = t.kind.keys ∨ t.kind.values? = some slot →
    h.fetchField t.owner slot = .ok ref → keyArray config h ref = .ok xs →
    keyArray config h' ref = .ok xs
  lookup : ∀ key r, Table.lookup config h t key = .ok r → Table.lookup config h' t key = .ok r
  findSymbol : ∀ name r, Table.findSymbol config h t.owner name = .ok r →
    Table.findSymbol config h' t.owner name = .ok r

/-- A search ends where it ended if every comparison that was answered is answered the same. -/
theorem probeFrom_mono {nil : Value} {keys : Array Value}
    {isKey isKey' : Value → Except HeapFault Bool}
    (hmono : ∀ k b, isKey k = .ok b → isKey' k = .ok b) {remaining place : Nat} {r : Probe}
    (hprobe : probeFrom nil keys isKey remaining place = .ok r) :
    probeFrom nil keys isKey' remaining place = .ok r := by
  induction remaining generalizing place with
  | zero => exact hprobe
  | succ remaining ih =>
      unfold probeFrom at hprobe ⊢
      split
      · next hnone =>
        rw [hnone] at hprobe
        exact hprobe
      · next key hkey =>
        rw [hkey] at hprobe
        dsimp only at hprobe
        by_cases hnil : key = nil
        · rw [if_pos hnil] at hprobe ⊢
          exact hprobe
        · rw [if_neg hnil] at hprobe ⊢
          cases hcompare : isKey key with
          | error fault =>
              rw [hcompare] at hprobe
              cases hprobe
          | ok b =>
              rw [hcompare] at hprobe
              rw [hmono key b hcompare]
              cases b with
              | true => exact hprobe
              | false => exact ih hprobe

section Extended

variable (hextended : Heap.Extended h h')

include hextended

theorem fetchField_of_extended {v x : Value} {i : Nat} (hfetch : h.fetchField v i = .ok x) :
    h'.fetchField v i = .ok x := hextended.retains.fetchField id hfetch

theorem keyArray_of_extended {ref : Value} {xs : Array Value}
    (hkeys : Table.keyArray config h ref = .ok xs) : Table.keyArray config h' ref = .ok xs := by
  unfold Table.keyArray at hkeys ⊢
  split
  · next hnil =>
    rw [if_pos hnil] at hkeys
    exact hkeys
  · next hne =>
    rw [if_neg hne] at hkeys
    exact hextended.retains.fields ref xs id hkeys

theorem lookup_of_extended {key : Value} {r : Option Value}
    (hlookup : Table.lookup config h t key = .ok r) : Table.lookup config h' t key = .ok r := by
  obtain ⟨keyRef, hkeyRef, hlookup⟩ := reading_bind_eq_ok.mp hlookup
  obtain ⟨place, hprobe, hlookup⟩ := reading_bind_eq_ok.mp hlookup
  obtain ⟨n, hn, hprobe⟩ := reading_bind_eq_ok.mp hprobe
  obtain ⟨keys, hkeys, hprobe⟩ := reading_bind_eq_ok.mp hprobe
  have hn' : Hash h' key n := Hash.of_retains hn hextended.retains
  refine reading_bind_eq_ok.mpr ⟨keyRef, fetchField_of_extended hextended hkeyRef, ?_⟩
  refine reading_bind_eq_ok.mpr ⟨place, reading_bind_eq_ok.mpr ⟨n, hn', reading_bind_eq_ok.mpr
    ⟨keys, keyArray_of_extended hextended hkeys, hprobe⟩⟩, ?_⟩
  cases place with
  | found place =>
      cases hkind : t.kind.values? with
      | none =>
          rw [hkind] at hlookup
          exact hlookup
      | some slot =>
          rw [hkind] at hlookup
          obtain ⟨valueRef, hvalueRef, hlookup⟩ := reading_bind_eq_ok.mp hlookup
          obtain ⟨value, hvalue, hr⟩ := reading_bind_eq_ok.mp hlookup
          refine reading_bind_eq_ok.mpr ⟨valueRef, fetchField_of_extended hextended hvalueRef, ?_⟩
          exact reading_bind_eq_ok.mpr ⟨value, fetchField_of_extended hextended hvalue, hr⟩
  | vacant place => exact hlookup
  | full => exact hlookup

theorem findSymbol_of_extended {symbols : Value} {name : Array UInt8} {r : Option Value}
    (hfind : Table.findSymbol config h symbols name = .ok r) :
    Table.findSymbol config h' symbols name = .ok r := by
  obtain ⟨keyRef, hkeyRef, hfind⟩ := reading_bind_eq_ok.mp hfind
  obtain ⟨keys, hkeys, hfind⟩ := reading_bind_eq_ok.mp hfind
  obtain ⟨place, hprobe, hfind⟩ := reading_bind_eq_ok.mp hfind
  have hcompare : ∀ (k : Value) (b : Bool),
      (do return (← h.bytes k) = name : Except HeapFault Bool) = .ok b →
        (do return (← h'.bytes k) = name : Except HeapFault Bool) = .ok b := by
    intro k b hb
    obtain ⟨xs, hxs, hb⟩ := reading_bind_eq_ok.mp hb
    exact reading_bind_eq_ok.mpr ⟨xs, hextended.retains.bytes k xs hxs, hb⟩
  refine reading_bind_eq_ok.mpr ⟨keyRef, fetchField_of_extended hextended hkeyRef, ?_⟩
  refine reading_bind_eq_ok.mpr ⟨keys, keyArray_of_extended hextended hkeys, ?_⟩
  refine reading_bind_eq_ok.mpr ⟨place, probeFrom_mono hcompare hprobe, ?_⟩
  cases place with
  | found place =>
      obtain ⟨symbol, hsymbol, hr⟩ := reading_bind_eq_ok.mp hfind
      exact reading_bind_eq_ok.mpr ⟨symbol, fetchField_of_extended hextended hsymbol, hr⟩
  | vacant place => exact hfind
  | full => exact hfind

/-- What only adds objects leaves a table alone. -/
theorem Holds.untouched (hholds : Holds config h t entry) : Untouched config t h h' := by
  obtain ⟨tally, keyRef, valueRef, keys, values, hlaid, -⟩ := hholds
  have hkept : ∀ {i x}, h.fetchField t.owner i = .ok x →
      h'.fetchField t.owner i = h.fetchField t.owner i := by
    intro i x hfetch
    rw [hfetch]
    exact fetchField_of_extended hextended hfetch
  refine ⟨hkept hlaid.tally_eq, hkept hlaid.keyRef_eq,
    fun slot hslot => hkept (hlaid.valueRef_eq slot hslot),
    fun _ ref xs _ _ => keyArray_of_extended hextended, fun key r => lookup_of_extended hextended,
    fun name r => findSymbol_of_extended hextended⟩

theorem Holds.of_extended (hholds : Holds config h t entry) : Holds config h' t entry :=
  hholds.of_spares (spares_of_retains hextended.retains hextended.settled hholds.nil_denotes)

end Extended

/-- An insertion that fails, at whatever point, leaves the table as it was and in order. -/
theorem failed_insertion (config : Config) (h : Heap) (t : Table) (entry : Value → Value → Prop)
    (hholds : Holds config h t entry) :
    (∀ key value fault h', insert config t key value h = .error fault h' →
      Untouched config t h h' ∧ Holds config h' t entry) ∧
    ∀ symbolType name fault h', t.kind = .symbols →
      intern config t.owner symbolType name h = .error fault h' →
      Untouched config t h h' ∧ Holds config h' t entry ∧
        ∀ names, Spelled config h t.owner names → Spelled config h' t.owner names := by
  constructor
  · intro key value fault h' hrun
    have hextended := hholds.extended_of_insert_error hrun
    exact ⟨hholds.untouched hextended, hholds.of_extended hextended⟩
  · intro symbolType name fault h' hkind hrun
    obtain ⟨owner, kind⟩ := t
    obtain rfl : kind = .symbols := hkind
    have hextended := hholds.extended_of_intern_error hrun
    refine ⟨hholds.untouched hextended, hholds.of_extended hextended, fun names hspelled => ?_⟩
    exact hspelled.of_spares
      (spares_of_retains hextended.retains hextended.settled hspelled.holds.nil_denotes)

/-! ## No room for the values -/

/-- An empty dictionary on a heap with room for its first arrays and for one array of sixty places. -/
def crampedHeap : Heap :=
  [Heap.Operation.allocateFields .root (.int 0) 1 (.int 0),
    .allocateFields .root (.int 0) Slot.dictionarySize (.object ⟨.root, 0, 0, 0⟩),
    .storeField (.object ⟨.root, 0, 0, 1⟩) Slot.dictionaryTally (.int 0)].foldl
    (fun h op => op.perform h)
    { settings := ⟨64, 1, 2, 2⟩
      root := .empty .root 0 64 1
      ephemeral := .empty .ephemeral 1 64 2
      threshold := 2
      collections := 0 }

/-- Tables of four places, which grow to sixty. -/
def leapingPlaces : Config := ⟨.object ⟨.root, 0, 0, 0⟩, .int 0, 4, 56⟩

/-- The dictionary with entries, the latest first. -/
def crampedWith : List (Int × Int) → Heap
  | [] => crampedHeap
  | (key, value) :: entries =>
    stateAfter (insert leapingPlaces dictionary (.int key) (.int value) (crampedWith entries))

theorem fresh_crampedHeap : Fresh leapingPlaces crampedHeap dictionary := by
  have hcreate : Heap.create ⟨64, 1, 2, 2⟩ = .ok
      { settings := ⟨64, 1, 2, 2⟩
        root := .empty .root 0 64 1
        ephemeral := .empty .ephemeral 1 64 2
        threshold := 2
        collections := 0 } := by rfl
  have hnil : crampedHeap.resolve ⟨.root, 0, 0, 0⟩ =
      .ok ⟨⟨1, 0, .int 0, .permanent⟩, .fields #[.int 0]⟩ := by decide +kernel
  refine ⟨((Heap.Built.create hcreate).performAll _).settled, ?_, ?_, ?_, ?_⟩
  · intro a ha
    cases ha
    exact ⟨_, hnil⟩
  · decide +kernel
  · decide +kernel
  · intro slot hslot
    cases hslot
    decide +kernel

/-- Three entries, two of them with the same home, fill the first arrays.  For a fourth the array of keys is
made and that of values is not, and the three are found as before. -/
theorem failed_insertion_crampedHeap : ∃ fault h',
    insert leapingPlaces dictionary (.int 3) (.int 30) (crampedWith [(2, 20), (5, 50), (1, 10)]) =
        .error fault h' ∧
      h'.ephemeral.objectCount = 3 ∧
      Untouched leapingPlaces dictionary (crampedWith [(2, 20), (5, 50), (1, 10)]) h' ∧
      Holds leapingPlaces h' dictionary
        (Listed [(.int 2, .int 20), (.int 5, .int 50), (.int 1, .int 10)]) ∧
      lookup leapingPlaces h' dictionary (.int 1) = .ok (some (.int 10)) ∧
      lookup leapingPlaces h' dictionary (.int 5) = .ok (some (.int 50)) ∧
      lookup leapingPlaces h' dictionary (.int 2) = .ok (some (.int 20)) := by
  have hfirst : History leapingPlaces (crampedWith [(1, 10)]) dictionary [(.int 1, .int 10)] :=
    .insert (.fresh (by decide) fresh_crampedHeap) (by decide) (eq_ok_of_succeeds (by decide +kernel))
  have hsecond : History leapingPlaces (crampedWith [(5, 50), (1, 10)]) dictionary
      [(.int 5, .int 50), (.int 1, .int 10)] :=
    .insert hfirst (by decide) (eq_ok_of_succeeds (by decide +kernel))
  have hthird : History leapingPlaces (crampedWith [(2, 20), (5, 50), (1, 10)]) dictionary
      [(.int 2, .int 20), (.int 5, .int 50), (.int 1, .int 10)] :=
    .insert hsecond (by decide) (eq_ok_of_succeeds (by decide +kernel))
  obtain ⟨hvalued, hholds, -⟩ := hthird.holds
  let insertion := insert leapingPlaces dictionary (.int 3) (.int 30)
    (crampedWith [(2, 20), (5, 50), (1, 10)])
  have hfails : succeeds insertion = false := by decide +kernel
  have hcount : (stateAfter insertion).ephemeral.objectCount = 3 := by decide +kernel
  cases hrun : insertion with
  | ok u h' =>
      rw [hrun] at hfails
      cases hfails
  | error fault h' =>
      rw [hrun] at hcount
      obtain ⟨huntouched, hheld⟩ := (failed_insertion leapingPlaces
        (crampedWith [(2, 20), (5, 50), (1, 10)]) dictionary _ hholds).1 _ _ _ _ hrun
      exact ⟨fault, h', hrun, hcount, huntouched, hheld, huntouched.lookup _ _ (by decide +kernel),
        huntouched.lookup _ _ (by decide +kernel), huntouched.lookup _ _ (by decide +kernel)⟩

end MessageMachine.Table
