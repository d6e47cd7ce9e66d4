import MessageMachine.Proofs.Heap.Access
import MessageMachine.Proofs.Table.Probing

/-!
# Tables on the heap

A table is laid out over its owner, an array of keys and an array of values (`Laid`), and `Holds`
says that these arrays are filled with given pairs and that the owner's count is right.  This file
proves that growing keeps the pairs and that inserting adds one.

Growing moves the keys one place after the other; `Rehashed` says how far it has come, and
`Rehashed.step` moves on by one place.
-/

namespace MessageMachine.Table

variable {config : Config} {h h' : Heap} {t : Table}

/-! ## Hashes -/

/-- What `keyHash` answers, as a relation. -/
def Hash (h : Heap) (key : Value) (n : Nat) : Prop := keyHash h key = .ok n

theorem Hash.functional {key : Value} {n m : Nat} (hn : Hash h key n) (hm : Hash h key m) :
    n = m := by
  unfold Hash at hn hm
  rw [hn] at hm
  exact Except.ok.inj hm

theorem hash_bytes {v : Value} {xs : Array UInt8} (hbytes : h.bytes v = .ok xs) :
    Hash h v (contentHash xs) := by
  obtain ⟨a, o, rfl, -⟩ := Heap.bytes_eq_ok.mp hbytes
  unfold Hash keyHash Heap.hashOf Heap.content
  exact reading_bind_eq_ok.mpr ⟨xs, hbytes, rfl⟩

/-- The hash of a key depends on the contents of buffers alone. -/
theorem Hash.of_contents {key key' : Value} {n : Nat} (hn : Hash h key n) {φ : Handle → Handle}
    (hkey : key' = key.map φ) (hbytes : ∀ xs, h.bytes key = .ok xs → h'.bytes key' = .ok xs)
    (hwords : ∀ xs, h.words key = .ok xs → h'.words key' = .ok xs) : Hash h' key' n := by
  subst hkey
  cases key with
  | int m => exact hn
  | object a => exact hn
  | bytes a =>
      obtain ⟨xs, hxs, heq⟩ := reading_bind_eq_ok.mp hn
      exact reading_bind_eq_ok.mpr ⟨xs, hbytes xs hxs, heq⟩
  | words a =>
      obtain ⟨xs, hxs, heq⟩ := reading_bind_eq_ok.mp hn
      obtain ⟨ws, hws, hcontent⟩ := reading_bind_eq_ok.mp hxs
      exact reading_bind_eq_ok.mpr
        ⟨xs, reading_bind_eq_ok.mpr ⟨ws, hwords ws hws, hcontent⟩, heq⟩

theorem Hash.of_retains {touched : Value → Prop} {key : Value} {n : Nat} (hn : Hash h key n)
    (hretains : Heap.Retains touched h h') : Hash h' key n :=
  hn.of_contents (φ := id) (Value.map_eq_self fun _ _ => rfl).symm (hretains.bytes key)
    (hretains.words key)

/-! ## Searching -/

theorem keyArray_of_ne {ref : Value} (hne : ref ≠ config.nil) : keyArray config h ref = h.fields ref :=
  if_neg hne

/-- A search for a free place takes any key for another one. -/
theorem ends_of_probeVacant {ref : Value} {keys : Array Value} {n : Nat} {r : Probe}
    (hkeys : keyArray config h ref = .ok keys) (hprobe : probeVacant config h ref n = .ok r) :
    Ends config.nil keys (fun _ => False) n r := by
  obtain ⟨keys', hkeys', hprobe⟩ := reading_bind_eq_ok.mp hprobe
  rw [hkeys] at hkeys'
  cases hkeys'
  have hcompare : ∀ k ∈ keys, k ≠ config.nil →
      (.ok false : Except HeapFault Bool) = .ok (decide False) := fun _ _ _ => rfl
  obtain ⟨r', hr', hends⟩ := probe_ends n hcompare
  rw [hprobe] at hr'
  cases hr'
  exact hends

/-- A search for a key compares by identity. -/
theorem probeIdentity_ends {ref key : Value} {keys : Array Value} {n : Nat}
    (hkeys : keyArray config h ref = .ok keys) (hn : Hash h key n) :
    ∃ r, probeIdentity config h ref key = .ok r ∧ Ends config.nil keys (· = key) n r := by
  have hcompare : ∀ k ∈ keys, k ≠ config.nil →
      (.ok (k = key) : Except HeapFault Bool) = .ok (decide (k = key)) := fun _ _ _ => rfl
  obtain ⟨r, hr, hends⟩ := probe_ends n hcompare
  exact ⟨r, reading_bind_eq_ok.mpr ⟨n, hn, reading_bind_eq_ok.mpr ⟨keys, hkeys, hr⟩⟩, hends⟩

/-! ## The arrays of a table -/

/-- An array of keys and an array of values on the heap.  A table without values has one array in
both roles. -/
structure Arrays (valued : Prop) (h : Heap) (keyRef valueRef : Value)
    (keys values : Array Value) : Prop where
  keys_eq : h.fields keyRef = .ok keys
  values_eq : h.fields valueRef = .ok values
  apart : valued → valueRef ≠ keyRef
  joint : ¬valued → valueRef = keyRef

/-- One of the two arrays. -/
def IsArray (keyRef valueRef v : Value) : Prop := v = keyRef ∨ v = valueRef

namespace Arrays

variable {valued : Prop} {keyRef valueRef : Value} {keys values : Array Value}

theorem of_retains (harrays : Arrays valued h keyRef valueRef keys values)
    {touched : Value → Prop} (hretains : Heap.Retains touched h h') (hkey : ¬touched keyRef)
    (hvalue : ¬touched valueRef) : Arrays valued h' keyRef valueRef keys values :=
  ⟨hretains.fields _ _ hkey harrays.keys_eq, hretains.fields _ _ hvalue harrays.values_eq,
    harrays.apart, harrays.joint⟩

theorem values_eq_keys (harrays : Arrays valued h keyRef valueRef keys values)
    (hvalued : ¬valued) : values = keys := by
  have hvalues := harrays.values_eq
  rw [harrays.joint hvalued, harrays.keys_eq] at hvalues
  exact (Except.ok.inj hvalues).symm

/-- Storing a key and its value in one place of the arrays. -/
theorem store (harrays : Arrays valued h keyRef valueRef keys values) (hsettled : h.Settled)
    {place : Nat} {key value : Value} {u : Unit} {h₁ h₂ : Heap}
    (hkey : Heap.storeField keyRef place key h = .ok u h₁)
    (hvalue : valued → Heap.storeField valueRef place value h₁ = .ok u h₂)
    (hnone : ¬valued → h₂ = h₁ ∧ value = key) :
    Arrays valued h₂ keyRef valueRef (keys.setIfInBounds place key)
        (values.setIfInBounds place value) ∧
      Heap.Retains (IsArray keyRef valueRef) h h₂ ∧ h₂.Settled := by
  obtain ⟨hkeys, hretains⟩ := Heap.fields_storeField hkey harrays.keys_eq
  have hsettled₁ := Heap.settled_storeField hsettled hkey
  have hretains₁ : Heap.Retains (IsArray keyRef valueRef) h h₁ := hretains.mono fun _ => .inl
  by_cases hvalued : valued
  · have hapart := harrays.apart hvalued
    have hvalues₁ := hretains.fields valueRef values hapart harrays.values_eq
    obtain ⟨hvalues₂, hretains₂⟩ := Heap.fields_storeField (hvalue hvalued) hvalues₁
    refine ⟨⟨?_, hvalues₂, harrays.apart, harrays.joint⟩, ?_, ?_⟩
    · exact hretains₂.fields keyRef _ (Ne.symm hapart) hkeys
    · exact hretains₁.trans (hretains₂.mono fun _ => .inr)
    · exact Heap.settled_storeField hsettled₁ (hvalue hvalued)
  · obtain ⟨rfl, rfl⟩ := hnone hvalued
    obtain rfl := harrays.values_eq_keys hvalued
    refine ⟨⟨hkeys, ?_, harrays.apart, harrays.joint⟩, hretains₁, hsettled₁⟩
    rw [harrays.joint hvalued]
    exact hkeys

/-- Storing a new key at the place that the search for a free one answered. -/
theorem add {entry : Value → Value → Prop} (harrays : Arrays valued h keyRef valueRef keys values)
    (hsettled : h.Settled) (hfilled : Filled config.nil (Hash h) keys values entry)
    (href : keyRef ≠ config.nil) {key value : Value} (hnil : key ≠ config.nil)
    (habsent : ∀ i : Nat, keys[i]? ≠ some key) {n place : Nat} (hn : Hash h key n)
    (hprobe : probeVacant config h keyRef n = .ok (.vacant place)) {u : Unit} {h₁ h₂ : Heap}
    (hkey : Heap.storeField keyRef place key h = .ok u h₁)
    (hvalue : valued → Heap.storeField valueRef place value h₁ = .ok u h₂)
    (hnone : ¬valued → h₂ = h₁ ∧ value = key) :
    ∃ keys' values', Arrays valued h₂ keyRef valueRef keys' values' ∧
      (Filled config.nil (Hash h₂) keys' values' fun k v =>
        if k = key then v = value else entry k v) ∧
      taken config.nil keys' = taken config.nil keys + 1 ∧ keys'.size = keys.size ∧
      Heap.Retains (IsArray keyRef valueRef) h h₂ ∧ h₂.Settled := by
  have hends := ends_of_probeVacant ((keyArray_of_ne href).trans harrays.keys_eq) hprobe
  obtain ⟨hfree, d, hd, hplace, hwalked⟩ := hends
  obtain ⟨harrays₂, hretains, hsettled₂⟩ := harrays.store hsettled hkey hvalue hnone
  refine ⟨_, _, harrays₂, ?_, taken_fill hnil hfree, Array.size_setIfInBounds .., hretains, hsettled₂⟩
  refine Filled.mono ?_ fun k _ m hm => Hash.of_retains hm hretains
  exact hfilled.fill hnil habsent hn hfree hd hplace (hwalked.mono fun _ _ => trivial) value

end Arrays

/-! ## Growing -/

/-- The pairs in the places before `count`. -/
def Before (count : Nat) (keys values : Array Value) (k v : Value) : Prop :=
  ∃ i < count, keys[i]? = some k ∧ values[i]? = some v

/-- One place further there is one pair more. -/
theorem before_succ {hash : Value → Nat → Prop} {nil : Value} {keys values : Array Value}
    {entry : Value → Value → Prop} (hfilled : Filled nil hash keys values entry) {p : Nat}
    {key value : Value} (hkey : keys[p]? = some key) (hvalue : values[p]? = some value)
    (k v : Value) (hnil : k ≠ nil) :
    Before (p + 1) keys values k v ↔ if k = key then v = value else Before p keys values k v := by
  constructor
  · rintro ⟨i, hi, hk, hv⟩
    rcases Nat.lt_succ_iff_lt_or_eq.mp hi with hlt | rfl
    · rw [if_neg]
      · exact ⟨i, hlt, hk, hv⟩
      · rintro rfl
        exact absurd (hfilled.distinct i p k hk hkey hnil) (Nat.ne_of_lt hlt)
    · rw [hkey] at hk
      rw [hvalue] at hv
      rw [if_pos (Option.some.inj hk).symm]
      exact (Option.some.inj hv).symm
  · intro hpair
    split at hpair
    · next heq =>
      subst heq hpair
      exact ⟨p, Nat.lt_succ_self p, hkey, hvalue⟩
    · obtain ⟨i, hi, hk, hv⟩ := hpair
      exact ⟨i, Nat.lt_succ_of_lt hi, hk, hv⟩

/-- How far growing has come: the pairs in the first `count` places of the old arrays, and no
others, are in the new ones. -/
structure Rehashed (config : Config) (valued : Prop) (h₀ : Heap) (old oldValues : Array Value)
    (keyRef valueRef : Value) (capacity count : Nat) (h : Heap) : Prop where
  settled : h.Settled
  retains : Heap.Retains (IsArray keyRef valueRef) h₀ h
  moved : ∃ keys values, Arrays valued h keyRef valueRef keys values ∧
    Filled config.nil (Hash h) keys values (Before count old oldValues) ∧
    taken config.nil keys = taken config.nil (old.extract 0 count) ∧ keys.size = capacity

theorem Rehashed.step {valued : Prop} {h₀ : Heap} {old oldValues : Array Value}
    {oldRef oldValueRef keyRef valueRef : Value} {oldNewValues : Option (Value × Value)}
    {capacity p : Nat} {entry : Value → Value → Prop} {hash : Value → Nat → Prop} {u : Unit}
    (hold : Filled config.nil hash old oldValues entry)
    (holdArrays : Arrays valued h₀ oldRef oldValueRef old oldValues)
    (hkeyOut : ¬IsArray keyRef valueRef oldRef) (hvalueOut : ¬IsArray keyRef valueRef oldValueRef)
    (href : keyRef ≠ config.nil) (hvalued : valued → oldNewValues = some (oldValueRef, valueRef))
    (hnone : ¬valued → oldNewValues = none) (hp : p < old.size)
    (hrehashed : Rehashed config valued h₀ old oldValues keyRef valueRef capacity p h)
    (hrun : rehash config oldRef keyRef oldNewValues capacity p h = .ok u h') :
    Rehashed config valued h₀ old oldValues keyRef valueRef capacity (p + 1) h' := by
  obtain ⟨hsettled, hretains, keys, values, harrays, hfilled, htaken, hsize⟩ := hrehashed
  have holdArrays' := holdArrays.of_retains hretains hkeyOut hvalueOut
  obtain ⟨key, hfetch, hrun⟩ := Heap.read_bind_eq_ok.mp hrun
  obtain ⟨xs, hxs, hkey⟩ := Heap.fetchField_eq_ok.mp hfetch
  rw [holdArrays'.keys_eq] at hxs
  cases hxs
  obtain ⟨value, hvalue⟩ : ∃ value, oldValues[p]? = some value :=
    ⟨_, Array.getElem?_eq_getElem (by rw [hold.size_eq]; exact hp)⟩
  have hcount : taken config.nil (old.extract 0 (p + 1)) = _ := taken_extract_succ hkey
  by_cases hnil : key = config.nil
  · -- a free place holds no pair
    rw [if_pos hnil] at hrun
    obtain ⟨-, rfl⟩ := pure_eq_ok.mp hrun
    refine ⟨hsettled, hretains, keys, values, harrays, ?_, ?_, hsize⟩
    · refine hfilled.congr fun k v hk => ?_
      rw [before_succ hold hkey hvalue k v hk, if_neg (fun heq => hk (heq.trans hnil))]
    · rw [hcount, if_pos hnil, htaken, Nat.add_zero]
  · rw [if_neg hnil] at hrun
    obtain ⟨n, hn, hrun⟩ := Heap.read_bind_eq_ok.mp hrun
    obtain ⟨r, hprobe, hrun⟩ := Heap.read_bind_eq_ok.mp hrun
    cases r with
    | found place => exact absurd hrun throw_ne_ok
    | full => exact absurd hrun throw_ne_ok
    | vacant place =>
        obtain ⟨_, h₁, hstoreKey, hrun⟩ := bind_eq_ok.mp hrun
        have habsent : ∀ i : Nat, keys[i]? ≠ some key := by
          intro i hi
          obtain ⟨v, hv⟩ := hfilled.exists_entry hi hnil
          obtain ⟨j, hj, hjkey, -⟩ := hv
          exact absurd (hold.distinct j p key hjkey hkey hnil) (Nat.ne_of_lt hj)
        have hstoreValue : valued → Heap.storeField valueRef place value h₁ = .ok () h' := by
          intro hyes
          rw [hvalued hyes] at hrun
          obtain ⟨value', hfetchValue, hstore⟩ := Heap.read_bind_eq_ok.mp hrun
          obtain ⟨-, hretains₁⟩ := Heap.fields_storeField hstoreKey harrays.keys_eq
          have hvalues₁ := hretains₁.fields oldValueRef oldValues (fun heq => hvalueOut (.inl heq))
            holdArrays'.values_eq
          obtain ⟨ys, hys, hvalue'⟩ := Heap.fetchField_eq_ok.mp hfetchValue
          rw [hvalues₁] at hys
          cases hys
          rw [hvalue] at hvalue'
          cases hvalue'
          exact hstore
        have hskip : ¬valued → h' = h₁ ∧ value = key := by
          intro hno
          rw [hnone hno] at hrun
          obtain ⟨-, rfl⟩ := pure_eq_ok.mp hrun
          rw [holdArrays.values_eq_keys hno, hkey] at hvalue
          exact ⟨rfl, (Option.some.inj hvalue).symm⟩
        obtain ⟨keys', values', harrays', hfilled', htaken', hsize', hretains', hsettled'⟩ :=
          harrays.add hsettled hfilled href hnil habsent hn hprobe hstoreKey hstoreValue hskip
        refine ⟨hsettled', hretains.trans hretains', keys', values', harrays', ?_, ?_, ?_⟩
        · exact hfilled'.congr fun k v hk => before_succ hold hkey hvalue k v hk
        · rw [htaken', hcount, if_neg hnil, htaken]
        · rw [hsize', hsize]

/-! ## The layout of a table -/

/-- Whether a table has values beside its keys. -/
def Kind.Valued (kind : Kind) : Prop := kind.values? ≠ none

/-- Where a table has its count and its arrays.  Before its first growth it has no arrays. -/
structure Laid (config : Config) (h : Heap) (t : Table) (tally : Nat) (keyRef valueRef : Value)
    (keys values : Array Value) : Prop where
  settled : h.Settled
  nil_denotes : h.Denotes config.nil
  tally_eq : h.fetchField t.owner t.kind.tally = .ok (.ofNat tally)
  keyRef_eq : h.fetchField t.owner t.kind.keys = .ok keyRef
  valueRef_eq : ∀ slot, t.kind.values? = some slot → h.fetchField t.owner slot = .ok valueRef
  unallocated : keyRef = config.nil → keys = #[] ∧ values = #[]
  allocated : keyRef ≠ config.nil → Arrays t.kind.Valued h keyRef valueRef keys values
  owner_apart : keyRef ≠ config.nil → ¬IsArray keyRef valueRef t.owner

theorem Kind.keys_ne_tally (kind : Kind) : kind.tally ≠ kind.keys := by
  cases kind <;> decide

theorem Kind.ne_of_values {kind : Kind} {slot : Nat} (hslot : kind.values? = some slot) :
    kind.tally ≠ slot ∧ kind.keys ≠ slot := by
  cases kind with
  | methods => cases hslot; decide
  | globals => cases hslot; decide
  | symbols => cases hslot

namespace Laid

variable {tally : Nat} {keyRef valueRef : Value} {keys values : Array Value}

theorem keyArray_eq (hlaid : Laid config h t tally keyRef valueRef keys values) :
    keyArray config h keyRef = .ok keys := by
  by_cases hnil : keyRef = config.nil
  · rw [keyArray, if_pos hnil, (hlaid.unallocated hnil).1]
  · rw [keyArray_of_ne hnil]
    exact (hlaid.allocated hnil).keys_eq

theorem owner_fields (hlaid : Laid config h t tally keyRef valueRef keys values) :
    ∃ xs, h.fields t.owner = .ok xs := by
  obtain ⟨xs, hxs, -⟩ := Heap.fetchField_eq_ok.mp hlaid.tally_eq
  exact ⟨xs, hxs⟩

/-- A table with keys has arrays. -/
theorem ne_nil_of_lt (hlaid : Laid config h t tally keyRef valueRef keys values) {p : Nat}
    (hp : p < keys.size) : keyRef ≠ config.nil := by
  intro hnil
  rw [(hlaid.unallocated hnil).1] at hp
  cases hp

end Laid

/-- The steps of growing a table. -/
theorem grow_eq_ok {capacity : Nat} {u : Unit} (hrun : grow config t capacity h = .ok u h') :
    ∃ oldRef oldValueRef old keyRef valueRef oldNewValues h₁ h₂ h₃ h₄,
      h.fetchField t.owner t.kind.keys = .ok oldRef ∧
      Heap.allocateFields .ephemeral config.array capacity config.nil h = .ok keyRef h₁ ∧
      keyArray config h₂ oldRef = .ok old ∧
      (List.range old.size).forM (rehash config oldRef keyRef oldNewValues capacity) h₂ =
        .ok () h₃ ∧
      Heap.storeField t.owner t.kind.keys keyRef h₃ = .ok () h₄ ∧
      (∀ slot, t.kind.values? = some slot →
        h.fetchField t.owner slot = .ok oldValueRef ∧
        Heap.allocateFields .ephemeral config.array capacity config.nil h₁ = .ok valueRef h₂ ∧
        oldNewValues = some (oldValueRef, valueRef) ∧
        Heap.storeField t.owner slot valueRef h₄ = .ok () h') ∧
      (t.kind.values? = none →
        valueRef = keyRef ∧ h₂ = h₁ ∧ oldNewValues = none ∧ h' = h₄) := by
  obtain ⟨oldRef, holdRef, hrun⟩ := Heap.read_bind_eq_ok.mp hrun
  cases hkind : t.kind.values? with
  | none =>
      rw [hkind] at hrun
      obtain ⟨_, _, hvalues, hrun⟩ := bind_eq_ok.mp hrun
      obtain ⟨rfl, rfl⟩ := pure_eq_ok.mp hvalues
      obtain ⟨keyRef, h₁, hkeyRef, hrun⟩ := bind_eq_ok.mp hrun
      obtain ⟨_, _, hpair, hrun⟩ := bind_eq_ok.mp hrun
      obtain ⟨rfl, rfl⟩ := pure_eq_ok.mp hpair
      obtain ⟨old, hold, hrun⟩ := Heap.read_bind_eq_ok.mp hrun
      obtain ⟨_, h₃, hloop, hrun⟩ := bind_eq_ok.mp hrun
      obtain ⟨_, h₄, hstore, hrun⟩ := bind_eq_ok.mp hrun
      obtain ⟨-, rfl⟩ := pure_eq_ok.mp hrun
      refine ⟨oldRef, oldRef, old, keyRef, keyRef, none, h₁, h₁, h₃, h₄, holdRef, hkeyRef, hold,
        hloop, hstore, ?_, fun _ => ⟨rfl, rfl, rfl, rfl⟩⟩
      intro slot hslot
      cases hslot
  | some slot =>
      rw [hkind] at hrun
      obtain ⟨values, t₁, hvalues, hrun⟩ := bind_eq_ok.mp hrun
      obtain ⟨oldValueRef, holdValueRef, hsome⟩ := Heap.read_bind_eq_ok.mp hvalues
      obtain ⟨rfl, rfl⟩ := pure_eq_ok.mp hsome
      obtain ⟨keyRef, h₁, hkeyRef, hrun⟩ := bind_eq_ok.mp hrun
      obtain ⟨pair, h₂, hpair, hrun⟩ := bind_eq_ok.mp hrun
      obtain ⟨pair', h₂', hpair', hsome⟩ := bind_eq_ok.mp hpair
      obtain ⟨rfl, rfl⟩ := pure_eq_ok.mp hsome
      obtain ⟨valueRef, h₂'', hvalueRef, hsome⟩ := bind_eq_ok.mp hpair'
      obtain ⟨rfl, rfl⟩ := pure_eq_ok.mp hsome
      obtain ⟨old, hold, hrun⟩ := Heap.read_bind_eq_ok.mp hrun
      obtain ⟨_, h₃, hloop, hrun⟩ := bind_eq_ok.mp hrun
      obtain ⟨_, h₄, hstore, hrun⟩ := bind_eq_ok.mp hrun
      refine ⟨oldRef, oldValueRef, old, keyRef, valueRef, _, h₁, _, h₃, h₄, holdRef, hkeyRef, hold,
        hloop, hstore, ?_, nofun⟩
      intro slot' hslot
      cases hslot
      exact ⟨holdValueRef, hvalueRef, rfl, hrun⟩

/-- New arrays are apart from all objects that exist, and free in all places. -/
theorem arrays_of_allocate {valued : Prop} {capacity : Nat} {keyRef valueRef : Value}
    {h₁ h₂ : Heap} (hsettled : h.Settled) (hnil : h.Denotes config.nil)
    (hkey : Heap.allocateFields .ephemeral config.array capacity config.nil h = .ok keyRef h₁)
    (hvalue : valued →
      Heap.allocateFields .ephemeral config.array capacity config.nil h₁ = .ok valueRef h₂)
    (hnone : ¬valued → valueRef = keyRef ∧ h₂ = h₁) :
    Arrays valued h₂ keyRef valueRef (Array.replicate capacity config.nil)
        (Array.replicate capacity config.nil) ∧
      (∀ v xs, h.fields v = .ok xs → ¬IsArray keyRef valueRef v) ∧ keyRef ≠ config.nil ∧
      Heap.Retains (fun _ => False) h h₂ ∧ h₂.Settled := by
  obtain ⟨⟨a, hkeyRef, hstale⟩, hkeys, hretains₁, hsettled₁⟩ :=
    Heap.fields_allocateFields hsettled hkey
  have hkeyNew : ∀ v xs, h.fields v = .ok xs → v ≠ keyRef := fun v xs hv =>
    (Heap.ne_of_stale hv hkeyRef hstale).symm
  have hkeyNil : keyRef ≠ config.nil := hnil.ne_of_stale (hkeyRef ▸ rfl) hstale
  by_cases hvalued : valued
  · obtain ⟨⟨b, hvalueRef, hstale'⟩, hvalues, hretains₂, hsettled₂⟩ :=
      Heap.fields_allocateFields hsettled₁ (hvalue hvalued)
    have hapart : valueRef ≠ keyRef := Heap.ne_of_stale hkeys hvalueRef hstale'
    have hkeys₂ := hretains₂.fields keyRef _ id hkeys
    refine ⟨⟨hkeys₂, hvalues, fun _ => hapart, fun hno => absurd hvalued hno⟩, ?_, hkeyNil,
      hretains₁.trans hretains₂, hsettled₂⟩
    rintro v xs hv (rfl | rfl)
    · exact hkeyNew _ xs hv rfl
    · exact Heap.ne_of_stale (hretains₁.fields _ xs id hv) hvalueRef hstale' rfl
  · obtain ⟨rfl, rfl⟩ := hnone hvalued
    refine ⟨⟨hkeys, hkeys, fun hyes => absurd hyes hvalued, fun _ => rfl⟩, ?_, hkeyNil,
      hretains₁, hsettled₁⟩
    rintro v xs hv (rfl | rfl)
    · exact hkeyNew _ xs hv rfl
    · exact hkeyNew _ xs hv rfl

/-- Before the first round of growing nothing has been moved. -/
theorem rehashed_zero {valued : Prop} {keyRef valueRef : Value} {capacity : Nat}
    {old oldValues : Array Value} (hsettled : h.Settled)
    (harrays : Arrays valued h keyRef valueRef (Array.replicate capacity config.nil)
      (Array.replicate capacity config.nil)) :
    Rehashed config valued h old oldValues keyRef valueRef capacity 0 h := by
  refine ⟨hsettled, .refl _ _, _, _, harrays, ?_, ?_, Array.size_replicate⟩
  · refine (Filled.replicate config.nil (Hash h) capacity).congr fun k v _ => ?_
    simp [Before]
  · rw [taken_replicate]
    simp [taken]

/-- The owner gets new arrays and keeps its count. -/
theorem owner_of_stores {keyRef valueRef x : Value} {h₁ : Heap} (hsettled : h.Settled)
    (htally : h.fetchField t.owner t.kind.tally = .ok x)
    (hkeys : Heap.storeField t.owner t.kind.keys keyRef h = .ok () h₁)
    (hvalues : ∀ slot, t.kind.values? = some slot →
      Heap.storeField t.owner slot valueRef h₁ = .ok () h')
    (hnone : t.kind.values? = none → h' = h₁) :
    h'.Settled ∧ Heap.Retains (· = t.owner) h h' ∧
      h'.fetchField t.owner t.kind.tally = .ok x ∧
      h'.fetchField t.owner t.kind.keys = .ok keyRef ∧
      ∀ slot, t.kind.values? = some slot → h'.fetchField t.owner slot = .ok valueRef := by
  have hsettled₁ := Heap.settled_storeField hsettled hkeys
  have hretains₁ := Heap.retains_storeField hkeys
  have htally₁ := Heap.fetchField_storeField_of_ne hkeys (Kind.keys_ne_tally _) htally
  have hkeys₁ := Heap.fetchField_storeField hkeys
  cases hkind : t.kind.values? with
  | none =>
      obtain rfl := hnone hkind
      exact ⟨hsettled₁, hretains₁, htally₁, hkeys₁, nofun⟩
  | some slot =>
      have hstore := hvalues slot hkind
      obtain ⟨htallyNe, hkeysNe⟩ := Kind.ne_of_values hkind
      refine ⟨Heap.settled_storeField hsettled₁ hstore,
        hretains₁.trans (Heap.retains_storeField hstore),
        Heap.fetchField_storeField_of_ne hstore htallyNe htally₁,
        Heap.fetchField_storeField_of_ne hstore hkeysNe hkeys₁, ?_⟩
      intro slot' hslot
      cases hslot
      exact Heap.fetchField_storeField hstore

/-- Growing a table moves its pairs to new arrays of the given size. -/
theorem Laid.grow {tally capacity : Nat} {oldRef oldValueRef : Value} {old oldValues : Array Value}
    {entry : Value → Value → Prop} {u : Unit}
    (hlaid : Laid config h t tally oldRef oldValueRef old oldValues)
    (hold : Filled config.nil (Hash h) old oldValues entry)
    (hrun : Table.grow config t capacity h = .ok u h') :
    ∃ keyRef valueRef keys values, Laid config h' t tally keyRef valueRef keys values ∧
      keyRef ≠ config.nil ∧ Filled config.nil (Hash h') keys values entry ∧
      taken config.nil keys = taken config.nil old ∧ keys.size = capacity ∧
      (∀ v xs, h.fields v = .ok xs → ¬IsArray keyRef valueRef v) ∧
      Heap.Retains (· = t.owner) h h' := by
  obtain ⟨oldRef', oldValueRef', old', keyRef, valueRef, oldNewValues, h₁, h₂, h₃, h₄, holdRef,
    hallocate, hkeyArray, hloop, hstore, hvalued, hnone⟩ := grow_eq_ok hrun
  rw [hlaid.keyRef_eq] at holdRef
  cases holdRef
  have hunvalued : ¬t.kind.Valued → t.kind.values? = none := not_not.mp
  have hallocateValues : t.kind.Valued →
      Heap.allocateFields .ephemeral config.array capacity config.nil h₁ = .ok valueRef h₂ := by
    intro hyes
    obtain ⟨slot, hslot⟩ := Option.ne_none_iff_exists'.mp hyes
    exact (hvalued slot hslot).2.1
  obtain ⟨harrays, hfresh, hkeyNil, hretains₂, hsettled₂⟩ :=
    arrays_of_allocate hlaid.settled hlaid.nil_denotes hallocate hallocateValues
      fun hno => ⟨(hnone (hunvalued hno)).1, (hnone (hunvalued hno)).2.1⟩
  -- the loop sees the old arrays as they were
  have hsame : old' = old := by
    by_cases hnil : oldRef = config.nil
    · rw [keyArray, if_pos hnil] at hkeyArray
      rw [(hlaid.unallocated hnil).1]
      exact (Except.ok.inj hkeyArray).symm
    · rw [keyArray_of_ne hnil, hretains₂.fields _ _ id (hlaid.allocated hnil).keys_eq] at hkeyArray
      exact (Except.ok.inj hkeyArray).symm
  subst hsame
  have hrehashed : Rehashed config t.kind.Valued h₂ old' oldValues keyRef valueRef capacity
      old'.size h₃ := by
    refine forM_range_eq_ok hloop (rehashed_zero hsettled₂ harrays) ?_
    intro p hp s s' _ hcurrent hround
    have hne := hlaid.ne_nil_of_lt hp
    have hallocated := hlaid.allocated hne
    refine hcurrent.step hold (hallocated.of_retains hretains₂ id id)
      (hfresh _ _ hallocated.keys_eq) (hfresh _ _ hallocated.values_eq) hkeyNil ?_ ?_ hp hround
    · intro hyes
      obtain ⟨slot, hslot⟩ := Option.ne_none_iff_exists'.mp hyes
      obtain ⟨hfetch, -, hpair, -⟩ := hvalued slot hslot
      rw [hlaid.valueRef_eq slot hslot] at hfetch
      cases hfetch
      exact hpair
    · exact fun hno => (hnone (hunvalued hno)).2.2.1
  obtain ⟨hsettled₃, hretains₃, keys, values, harrays₃, hfilled₃, htaken₃, hsize₃⟩ := hrehashed
  obtain ⟨xs, hxs⟩ := hlaid.owner_fields
  have howner := hfresh _ _ hxs
  obtain ⟨hsettled', hretains', htally', hkeys', hvalues'⟩ :=
    owner_of_stores hsettled₃ (hretains₃.fetchField howner (hretains₂.fetchField id hlaid.tally_eq))
      hstore (fun slot hslot => (hvalued slot hslot).2.2.2) fun hno => (hnone hno).2.2.2
  have hall : Heap.Retains (· = t.owner) h h' := by
    have hmiddle : Heap.Retains (IsArray keyRef valueRef) h h₃ :=
      (hretains₂.mono fun _ => False.elim).trans hretains₃
    refine (hmiddle.restrict fun v ys harray hv => ?_).trans hretains'
    exact absurd harray (hfresh v ys hv)
  refine ⟨keyRef, valueRef, keys, values, ?_, hkeyNil, ?_, ?_, hsize₃, hfresh, hall⟩
  · refine ⟨hsettled', hlaid.nil_denotes.of_retains hall, htally', hkeys', hvalues',
      fun hnil => absurd hnil hkeyNil, fun _ => ?_, fun _ => howner⟩
    exact harrays₃.of_retains hretains' (fun heq => howner (.inl heq.symm))
      fun heq => howner (.inr heq.symm)
  · refine (hfilled₃.mono fun k _ n hn => Hash.of_retains hn hretains').congr fun k v hk => ?_
    rw [hold.entry_iff k v hk]
    refine exists_congr fun i => ?_
    constructor
    · rintro ⟨hi, hv⟩
      exact ⟨(Array.getElem?_eq_some_iff.mp hi).1, hi, hv⟩
    · rintro ⟨-, hi, hv⟩
      exact ⟨hi, hv⟩
  · rw [htaken₃, Array.extract_size]

/-! ## Inserting -/

/-- The table holds the pairs `entry`, its count is right, and it is at most three quarters full. -/
def Holds (config : Config) (h : Heap) (t : Table) (entry : Value → Value → Prop) : Prop :=
  ∃ tally keyRef valueRef keys values, Laid config h t tally keyRef valueRef keys values ∧
    Filled config.nil (Hash h) keys values entry ∧ tally = taken config.nil keys ∧
    4 * tally ≤ 3 * keys.size

theorem fits_iff {tally capacity : Nat} :
    fits tally capacity = true ↔ 4 * (tally + 1) ≤ 3 * capacity := by
  unfold fits
  rw [decide_eq_true_iff]
  omega

/-- There is room for one more entry after growing. -/
theorem fits_grownCapacity (config : Config) (tally capacity : Nat) :
    fits tally (grownCapacity config tally capacity) = true := by
  rw [fits_iff]
  unfold grownCapacity
  dsimp only
  generalize (if capacity = 0 then config.capacity else capacity) = base
  have hstep : 0 < max config.growth 1 := by omega
  generalize max config.growth 1 = step at hstep
  generalize hneeded : ((tally + 1) * 4 + 2) / 3 = needed
  have hdiv := Nat.div_add_mod (needed - base + step - 1) step
  have hmod := Nat.mod_lt (needed - base + step - 1) hstep
  rw [Nat.mul_comm] at hdiv
  generalize (needed - base + step - 1) / step * step = steps at hdiv ⊢
  omega

/-- The steps of adding an entry. -/
theorem insertNew_eq_ok {n : Nat} {key value : Value} {u : Unit}
    (hrun : insertNew config t n key value h = .ok u h') :
    ∃ tally oldRef old h₁ keyRef place h₂ h₃,
      h.fetchField t.owner t.kind.tally = .ok (.ofNat tally) ∧
      h.fetchField t.owner t.kind.keys = .ok oldRef ∧ keyArray config h oldRef = .ok old ∧
      (fits tally old.size = true ∧ h₁ = h ∨ ¬fits tally old.size = true ∧
        grow config t (grownCapacity config tally old.size) h = .ok () h₁) ∧
      h₁.fetchField t.owner t.kind.keys = .ok keyRef ∧
      probeVacant config h₁ keyRef n = .ok (.vacant place) ∧
      Heap.storeField keyRef place key h₁ = .ok () h₂ ∧
      (∀ slot, t.kind.values? = some slot → ∃ valueRef,
        h₂.fetchField t.owner slot = .ok valueRef ∧
        Heap.storeField valueRef place value h₂ = .ok () h₃) ∧
      (t.kind.values? = none → h₃ = h₂) ∧
      Heap.storeField t.owner t.kind.tally (.ofNat (tally + 1)) h₃ = .ok () h' := by
  obtain ⟨tally, htally, hrun⟩ := Heap.read_bind_eq_ok.mp hrun
  obtain ⟨capacity, hcapacity, hrun⟩ := Heap.read_bind_eq_ok.mp hrun
  obtain ⟨count, hcount, hindex⟩ := reading_bind_eq_ok.mp htally
  obtain rfl := Value.index_eq_ok.mp (lift_eq_ok.mp hindex)
  obtain ⟨oldRef, holdRef, hcapacity⟩ := reading_bind_eq_ok.mp hcapacity
  obtain ⟨old, hold, hsize⟩ := reading_bind_eq_ok.mp hcapacity
  obtain rfl := reading_pure_eq_ok.mp hsize
  obtain ⟨h₁, hroom, hrun⟩ := ite_skip_eq_ok hrun
  obtain ⟨keyRef, hkeyRef, hrun⟩ := Heap.read_bind_eq_ok.mp hrun
  obtain ⟨r, hprobe, hrun⟩ := Heap.read_bind_eq_ok.mp hrun
  cases r with
  | found place => exact absurd hrun throw_ne_ok
  | full => exact absurd hrun throw_ne_ok
  | vacant place =>
      obtain ⟨_, h₂, hstoreKey, hrun⟩ := bind_eq_ok.mp hrun
      cases hkind : t.kind.values? with
      | none =>
          simp only [hkind] at hrun
          exact ⟨tally, oldRef, old, h₁, keyRef, place, h₂, h₂, hcount, holdRef, hold, hroom,
            hkeyRef, hprobe, hstoreKey, nofun, fun _ => rfl, hrun⟩
      | some slot =>
          simp only [hkind] at hrun
          obtain ⟨valueRef, hvalueRef, hrun⟩ := Heap.read_bind_eq_ok.mp hrun
          obtain ⟨_, h₃, hstoreValue, hrun⟩ := bind_eq_ok.mp hrun
          refine ⟨tally, oldRef, old, h₁, keyRef, place, h₂, h₃, hcount, holdRef, hold, hroom,
            hkeyRef, hprobe, hstoreKey, ?_, nofun, hrun⟩
          intro slot' hslot
          cases hslot
          exact ⟨valueRef, hvalueRef, hstoreValue⟩

/-- A table that has grown if need be has room for one more entry. -/
theorem Laid.make_room {tally : Nat} {keyRef valueRef : Value} {keys values : Array Value}
    {entry : Value → Value → Prop}
    (hlaid : Laid config h t tally keyRef valueRef keys values)
    (hfilled : Filled config.nil (Hash h) keys values entry)
    (hroom : fits tally keys.size = true ∧ h' = h ∨ ¬fits tally keys.size = true ∧
      Table.grow config t (grownCapacity config tally keys.size) h = .ok () h') :
    ∃ keyRef' valueRef' keys' values', Laid config h' t tally keyRef' valueRef' keys' values' ∧
      keyRef' ≠ config.nil ∧ Filled config.nil (Hash h') keys' values' entry ∧
      taken config.nil keys' = taken config.nil keys ∧ fits tally keys'.size = true ∧
      (∀ v xs, h.fields v = .ok xs → IsArray keyRef' valueRef' v → IsArray keyRef valueRef v) ∧
      Heap.Retains (· = t.owner) h h' := by
  rcases hroom with ⟨hfits, rfl⟩ | ⟨-, hgrow⟩
  · have hne : keyRef ≠ config.nil := by
      refine hlaid.ne_nil_of_lt (p := 0) ?_
      rw [fits_iff] at hfits
      omega
    exact ⟨keyRef, valueRef, keys, values, hlaid, hne, hfilled, rfl, hfits, fun _ _ _ => id,
      .refl _ _⟩
  · obtain ⟨keyRef', valueRef', keys', values', hlaid', hne, hfilled', htaken, hsize, hfresh,
      hretains⟩ := hlaid.grow hfilled hgrow
    refine ⟨keyRef', valueRef', keys', values', hlaid', hne, hfilled', htaken, ?_, ?_, hretains⟩
    · rw [hsize]
      exact fits_grownCapacity ..
    · exact fun v xs hv harray => absurd harray (hfresh v xs hv)

/-- Adding a key that the table does not have. -/
theorem Laid.insertNew {tally : Nat} {keyRef valueRef : Value} {keys values : Array Value}
    {entry : Value → Value → Prop} {key value stored : Value} {n : Nat} {u : Unit}
    (hlaid : Laid config h t tally keyRef valueRef keys values)
    (hfilled : Filled config.nil (Hash h) keys values entry)
    (htally : tally = taken config.nil keys) (hnil : key ≠ config.nil)
    (habsent : ∀ v, ¬entry key v) (hn : Hash h key n)
    (hvalued : t.kind.Valued → stored = value) (hunvalued : ¬t.kind.Valued → stored = key)
    (hrun : Table.insertNew config t n key value h = .ok u h') :
    (Holds config h' t fun k v => if k = key then v = stored else entry k v) ∧
      Heap.Retains (fun v => v = t.owner ∨ IsArray keyRef valueRef v) h h' := by
  obtain ⟨tally', oldRef, old, h₁, ref, place, h₂, h₃, htally', holdRef, hold, hroom, href, hprobe,
    hstoreKey, hstoreValue, hskip, hstoreTally⟩ := insertNew_eq_ok hrun
  rw [hlaid.tally_eq] at htally'
  obtain rfl : tally = tally' := Int.ofNat.inj (Value.int.inj (Except.ok.inj htally'))
  rw [hlaid.keyRef_eq] at holdRef
  cases holdRef
  rw [hlaid.keyArray_eq] at hold
  cases hold
  obtain ⟨keyRef₁, valueRef₁, keys₁, values₁, hlaid₁, hne, hfilled₁, htaken₁, hfits, hknown,
    hretains₁⟩ := hlaid.make_room hfilled hroom
  rw [hlaid₁.keyRef_eq] at href
  obtain rfl : keyRef₁ = ref := Except.ok.inj href
  have harrays₁ := hlaid₁.allocated hne
  have hapart := hlaid₁.owner_apart hne
  have habsent₁ : ∀ i : Nat, keys₁[i]? ≠ some key := by
    intro i hi
    obtain ⟨v, hv⟩ := hfilled₁.exists_entry hi hnil
    exact habsent v hv
  -- the value goes to the array that the owner names, which the store of the key leaves alone
  have hstoreStored : t.kind.Valued → Heap.storeField valueRef₁ place stored h₂ = .ok () h₃ := by
    intro hyes
    obtain ⟨slot, hslot⟩ := Option.ne_none_iff_exists'.mp hyes
    obtain ⟨ref, href, hstore⟩ := hstoreValue slot hslot
    have hfetch := (Heap.retains_storeField hstoreKey).fetchField
      (fun heq => hapart (.inl heq)) (hlaid₁.valueRef_eq slot hslot)
    rw [hfetch] at href
    cases href
    rw [hvalued hyes]
    exact hstore
  have hskipStored : ¬t.kind.Valued → h₃ = h₂ ∧ stored = key :=
    fun hno => ⟨hskip (not_not.mp hno), hunvalued hno⟩
  obtain ⟨keys₃, values₃, harrays₃, hfilled₃, htaken₃, hsize₃, hretains₃, hsettled₃⟩ :=
    harrays₁.add hlaid₁.settled hfilled₁ hne hnil habsent₁ (hn.of_retains hretains₁) hprobe
      hstoreKey hstoreStored hskipStored
  have hretainsTally := Heap.retains_storeField hstoreTally
  have hretains : Heap.Retains (fun v => v = t.owner ∨ IsArray keyRef₁ valueRef₁ v) h h' :=
    (hretains₁.mono fun _ => .inl).trans
      ((hretains₃.mono fun _ => .inr).trans (hretainsTally.mono fun _ => .inl))
  refine ⟨⟨tally + 1, keyRef₁, valueRef₁, keys₃, values₃, ?_, ?_, ?_, ?_⟩, ?_⟩
  · refine ⟨Heap.settled_storeField hsettled₃ hstoreTally, hlaid.nil_denotes.of_retains hretains,
      Heap.fetchField_storeField hstoreTally, ?_, ?_, fun heq => absurd heq hne, fun _ => ?_,
      fun _ => hapart⟩
    · exact Heap.fetchField_storeField_of_ne hstoreTally (Kind.keys_ne_tally _).symm
        (hretains₃.fetchField hapart hlaid₁.keyRef_eq)
    · intro slot hslot
      exact Heap.fetchField_storeField_of_ne hstoreTally (Kind.ne_of_values hslot).1.symm
        (hretains₃.fetchField hapart (hlaid₁.valueRef_eq slot hslot))
    · exact harrays₃.of_retains hretainsTally (fun heq => hapart (.inl heq.symm))
        fun heq => hapart (.inr heq.symm)
  · exact hfilled₃.mono fun k _ m hm => Hash.of_retains hm hretainsTally
  · rw [htaken₃, htaken₁, htally]
  · rw [hsize₃]
    exact fits_iff.mp hfits
  · exact hretains.restrict fun v xs htouched hv => htouched.imp id (hknown v xs hv)

end MessageMachine.Table
