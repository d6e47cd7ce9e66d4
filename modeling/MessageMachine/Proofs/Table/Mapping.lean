import MessageMachine.Proofs.Table.Insertion

/-!
# Tables with values

A table with values answers, for each key, the value inserted last.  `Holds` of the previous file says
which pairs a table has; here it is followed through lookups, insertions (`Holds.insert`),
collections (`Holds.map`) and everything that leaves the table alone (`Holds.of_spares`).

`History` puts these together: it lists what was inserted since the table was fresh, and
`History.holds` says that the table holds what is listed.
-/

namespace MessageMachine.Table

variable {config : Config} {h h' : Heap} {t : Table} {entry : Value → Value → Prop}

/-! ## Reading and writing by identity -/

/-- A table answers the value of each key, and none for other keys. -/
theorem Holds.lookup (hholds : Holds config h t entry) (hkind : t.kind.Valued) {key : Value}
    (hnil : key ≠ config.nil) {n : Nat} (hn : Hash h key n) :
    ∃ r, Table.lookup config h t key = .ok r ∧ ∀ v, r = some v ↔ entry key v := by
  obtain ⟨tally, keyRef, valueRef, keys, values, hlaid, hfilled, -, -⟩ := hholds
  obtain ⟨slot, hslot⟩ := Option.ne_none_iff_exists'.mp hkind
  obtain ⟨r, hprobe, hends⟩ := probeIdentity_ends hlaid.keyArray_eq hn
  have habsent : (∀ place, r ≠ .found place) → ∀ v, (none : Option Value) = some v ↔ entry key v := by
    intro hr v
    refine ⟨by rintro ⟨⟩, fun hv => ?_⟩
    obtain ⟨i, hi, -⟩ := (hfilled.entry_iff key v hnil).mp hv
    exact absurd hi
      (hfilled.not_mem_of_ends (fun _ _ _ => Hash.functional) hends hr hnil hn i)
  cases r with
  | found place =>
      obtain ⟨k, hk, -, rfl⟩ := hends
      obtain ⟨v, hv⟩ := hfilled.exists_entry hk hnil
      obtain ⟨i, hi, hvalue⟩ := (hfilled.entry_iff k v hnil).mp hv
      obtain rfl := hfilled.distinct i place k hi hk hnil
      have hne := hlaid.ne_nil_of_lt (Array.getElem?_eq_some_iff.mp hk).1
      have hfetch : h.fetchField valueRef i = .ok v :=
        Heap.fetchField_eq_ok.mpr ⟨values, (hlaid.allocated hne).values_eq, hvalue⟩
      refine ⟨some v, reading_bind_eq_ok.mpr ⟨keyRef, hlaid.keyRef_eq,
        reading_bind_eq_ok.mpr ⟨_, hprobe, ?_⟩⟩, fun w => ⟨?_, fun hw => ?_⟩⟩
      · rw [hslot]
        exact reading_bind_eq_ok.mpr ⟨valueRef, hlaid.valueRef_eq slot hslot,
          reading_bind_eq_ok.mpr ⟨v, hfetch, rfl⟩⟩
      · rintro ⟨⟩
        exact hv
      · obtain ⟨j, hj, hother⟩ := (hfilled.entry_iff k w hnil).mp hw
        obtain rfl := hfilled.distinct j i k hj hi hnil
        rw [← hvalue, hother]
  | vacant place =>
      exact ⟨none, reading_bind_eq_ok.mpr ⟨keyRef, hlaid.keyRef_eq,
        reading_bind_eq_ok.mpr ⟨_, hprobe, rfl⟩⟩, habsent (by rintro _ ⟨⟩)⟩
  | full =>
      exact ⟨none, reading_bind_eq_ok.mpr ⟨keyRef, hlaid.keyRef_eq,
        reading_bind_eq_ok.mpr ⟨_, hprobe, rfl⟩⟩, habsent (by rintro _ ⟨⟩)⟩

/-- Storing another value for a key that the table has. -/
theorem Laid.replace {tally : Nat} {keyRef valueRef : Value} {keys values : Array Value}
    (hlaid : Laid config h t tally keyRef valueRef keys values)
    (hfilled : Filled config.nil (Hash h) keys values entry) (hkind : t.kind.Valued)
    {key value : Value} {place : Nat} {u : Unit} (hnil : key ≠ config.nil)
    (hkey : keys[place]? = some key) (hstore : Heap.storeField valueRef place value h = .ok u h') :
    Laid config h' t tally keyRef valueRef keys (values.setIfInBounds place value) ∧
      Filled config.nil (Hash h') keys (values.setIfInBounds place value) fun k v =>
        if k = key then v = value else entry k v := by
  have hne := hlaid.ne_nil_of_lt (Array.getElem?_eq_some_iff.mp hkey).1
  have hapart := hlaid.owner_apart hne
  have harrays := hlaid.allocated hne
  have howner : ¬t.owner = valueRef := fun heq => hapart (.inr heq)
  obtain ⟨hvalues, hretains⟩ := Heap.fields_storeField hstore harrays.values_eq
  constructor
  · refine ⟨Heap.settled_storeField hlaid.settled hstore, hlaid.nil_denotes.of_retains hretains,
      hretains.fetchField howner hlaid.tally_eq, hretains.fetchField howner hlaid.keyRef_eq,
      fun slot hslot => hretains.fetchField howner (hlaid.valueRef_eq slot hslot),
      fun heq => absurd heq hne, fun _ => ?_, fun _ => hapart⟩
    exact ⟨hretains.fields _ _ (harrays.apart hkind).symm harrays.keys_eq, hvalues,
      harrays.apart, harrays.joint⟩
  · exact (hfilled.replace hnil hkey value).mono fun k _ m hm => Hash.of_retains hm hretains

/-- Setting the value of a key changes that value and no other. -/
theorem Holds.insert (hholds : Holds config h t entry) (hkind : t.kind.Valued) {key value : Value}
    {u : Unit} (hnil : key ≠ config.nil) (hrun : Table.insert config t key value h = .ok u h') :
    Holds config h' t fun k v => if k = key then v = value else entry k v := by
  obtain ⟨tally, keyRef, valueRef, keys, values, hlaid, hfilled, htally, hroom⟩ := hholds
  obtain ⟨slot, hslot⟩ := Option.ne_none_iff_exists'.mp hkind
  obtain ⟨ref, href, hrun⟩ := Heap.read_bind_eq_ok.mp hrun
  rw [hlaid.keyRef_eq] at href
  cases href
  obtain ⟨r, hprobe, hrun⟩ := Heap.read_bind_eq_ok.mp hrun
  obtain ⟨n, hn, -⟩ := reading_bind_eq_ok.mp hprobe
  obtain ⟨r', hprobe', hends⟩ := probeIdentity_ends hlaid.keyArray_eq hn
  rw [hprobe] at hprobe'
  cases hprobe'
  have hnew : (∀ place, r ≠ .found place) →
      (Heap.read (keyHash · key) >>= fun hash => Table.insertNew config t hash key value) h =
        .ok u h' →
      Holds config h' t fun k v => if k = key then v = value else entry k v := by
    intro hr hrest
    obtain ⟨m, hm, hinsert⟩ := Heap.read_bind_eq_ok.mp hrest
    refine (hlaid.insertNew hfilled htally hnil ?_ hm (fun _ => rfl)
      (fun hno => absurd hkind hno) hinsert).1
    intro v hv
    obtain ⟨i, hi, -⟩ := (hfilled.entry_iff key v hnil).mp hv
    exact hfilled.not_mem_of_ends (fun _ _ _ => Hash.functional) hends hr hnil hn i hi
  cases r with
  | found place =>
      obtain ⟨k, hk, -, rfl⟩ := hends
      simp only [hslot] at hrun
      obtain ⟨ref, href, hstore⟩ := Heap.read_bind_eq_ok.mp hrun
      rw [hlaid.valueRef_eq slot hslot] at href
      cases href
      obtain ⟨hlaid', hfilled'⟩ := hlaid.replace hfilled hkind hnil hk hstore
      exact ⟨tally, keyRef, valueRef, keys, _, hlaid', hfilled', htally, hroom⟩
  | vacant place => exact hnew nofun hrun
  | full => exact hnew nofun hrun

/-! ## Collections -/

/-- The configuration as it reads after a relocation. -/
def Config.map (φ : Handle → Handle) (config : Config) : Config :=
  { config with nil := config.nil.map φ, array := config.array.map φ }

/-- The table as it reads after a relocation. -/
def map (φ : Handle → Handle) (t : Table) : Table := { t with owner := t.owner.map φ }

section Collection

variable {roots roots' : List Value} {φ : Handle → Handle}

/-- A collection that keeps the owner of a table keeps its keys. -/
theorem Laid.kept {tally : Nat} {keyRef valueRef : Value} {keys values : Array Value}
    (hlaid : Laid config h t tally keyRef valueRef keys values)
    (howner : Heap.Kept h roots t.owner) : ∀ k ∈ keys, Heap.Kept h roots k := by
  intro k hk
  obtain ⟨i, hi, -⟩ := Array.mem_iff_getElem.mp hk
  have hkeyRef := howner.of_fetchField hlaid.keyRef_eq
  exact hkeyRef.of_fields (hlaid.allocated (hlaid.ne_nil_of_lt hi)).keys_eq hk

theorem Laid.map {tally : Nat} {keyRef valueRef : Value} {keys values : Array Value}
    (hlaid : Laid config h t tally keyRef valueRef keys values)
    (hr : Heap.Relocation h roots h' roots' φ) (hsettled' : h'.Settled)
    (howner : Heap.Kept h roots t.owner) (hnil : Heap.Kept h roots config.nil) :
    Laid (config.map φ) h' (t.map φ) tally (keyRef.map φ) (valueRef.map φ)
      (keys.map (·.map φ)) (values.map (·.map φ)) := by
  have hkeyRef := howner.of_fetchField hlaid.keyRef_eq
  have hne : keyRef.map φ ≠ config.nil.map φ → keyRef ≠ config.nil :=
    fun h heq => h (congrArg _ heq)
  have hvalueRef : keyRef ≠ config.nil → Heap.Kept h roots valueRef := by
    intro hne
    cases hkind : t.kind.values? with
    | some slot => exact howner.of_fetchField (hlaid.valueRef_eq slot hkind)
    | none =>
        rw [(hlaid.allocated hne).joint fun hyes => hyes hkind]
        exact hkeyRef
  refine ⟨hsettled', hr.denotes_map hsettled' hnil hlaid.nil_denotes,
    hr.fetchField_map hsettled' howner hlaid.tally_eq,
    hr.fetchField_map hsettled' howner hlaid.keyRef_eq, ?_, ?_, ?_, ?_⟩
  · exact fun slot hslot => hr.fetchField_map hsettled' howner (hlaid.valueRef_eq slot hslot)
  · intro heq
    obtain ⟨rfl, rfl⟩ := hlaid.unallocated (hr.map_injective hsettled' hkeyRef hnil heq)
    exact ⟨Array.map_empty, Array.map_empty⟩
  · intro hmapped
    have harrays := hlaid.allocated (hne hmapped)
    refine ⟨hr.fields_map hsettled' hkeyRef harrays.keys_eq,
      hr.fields_map hsettled' (hvalueRef (hne hmapped)) harrays.values_eq, ?_, ?_⟩
    · exact fun hyes heq => harrays.apart hyes
        (hr.map_injective hsettled' (hvalueRef (hne hmapped)) hkeyRef heq)
    · exact fun hno => congrArg _ (harrays.joint hno)
  · rintro hmapped (heq | heq)
    · exact hlaid.owner_apart (hne hmapped) (.inl (hr.map_injective hsettled' howner hkeyRef heq))
    · exact hlaid.owner_apart (hne hmapped)
        (.inr (hr.map_injective hsettled' howner (hvalueRef (hne hmapped)) heq))

/-- The hash of a kept key stays. -/
theorem Hash.map (hr : Heap.Relocation h roots h' roots' φ) (hsettled' : h'.Settled) {key : Value}
    (hkept : Heap.Kept h roots key) {n : Nat} (hn : Hash h key n) : Hash h' (key.map φ) n :=
  hn.of_contents rfl (fun _ => hr.bytes_map hsettled' hkept)
    (fun _ => hr.words_map hsettled' hkept)

/-- A collection keeps what a table holds, and its keys apart. -/
theorem Holds.map (hholds : Holds config h t entry) (hr : Heap.Relocation h roots h' roots' φ)
    (hsettled' : h'.Settled) (howner : Heap.Kept h roots t.owner)
    (hnil : Heap.Kept h roots config.nil) :
    (Holds (config.map φ) h' (t.map φ) fun k' v' =>
        ∃ k v, k ≠ config.nil ∧ entry k v ∧ k.map φ = k' ∧ v.map φ = v') ∧
      ∀ k v, k ≠ config.nil → entry k v → Heap.Kept h roots k := by
  obtain ⟨tally, keyRef, valueRef, keys, values, hlaid, hfilled, htally, hroom⟩ := hholds
  have hkept := hlaid.kept howner
  constructor
  · refine ⟨tally, keyRef.map φ, valueRef.map φ, _, _, hlaid.map hr hsettled' howner hnil, ?_, ?_, ?_⟩
    · refine hfilled.map ?_ fun k hk n hn => Hash.map hr hsettled' (hkept k hk) hn
      intro k hk k' hk'
      refine hr.map_injective hsettled' (hkept k hk) ?_
      rcases List.mem_cons.mp hk' with rfl | hmem
      · exact hnil
      · exact hkept k' (by simpa using hmem)
    · rw [htally]
      exact (taken_map fun k hk => hr.map_injective hsettled' (hkept k hk) hnil).symm
    · rwa [Array.size_map]
  · intro k v hk hv
    obtain ⟨i, hi, -⟩ := (hfilled.entry_iff k v hk).mp hv
    exact hkept k (Array.mem_of_getElem? hi)

end Collection

/-! ## Undisturbed tables -/

theorem Holds.settled (hholds : Holds config h t entry) : h.Settled := by
  obtain ⟨tally, keyRef, valueRef, keys, values, hlaid, -⟩ := hholds
  exact hlaid.settled

theorem Holds.nil_denotes (hholds : Holds config h t entry) : h.Denotes config.nil := by
  obtain ⟨tally, keyRef, valueRef, keys, values, hlaid, -⟩ := hholds
  exact hlaid.nil_denotes

theorem Holds.congr (hholds : Holds config h t entry) {entry' : Value → Value → Prop}
    (hentry : ∀ k v, k ≠ config.nil → (entry' k v ↔ entry k v)) : Holds config h t entry' := by
  obtain ⟨tally, keyRef, valueRef, keys, values, hlaid, hfilled, hrest⟩ := hholds
  exact ⟨tally, keyRef, valueRef, keys, values, hlaid, hfilled.congr hentry, hrest⟩

/-- What happened to the heap has left the table alone: the fields of its owner and of its arrays,
and the contents of the buffers among its keys. -/
structure Spares (config : Config) (t : Table) (h h' : Heap) : Prop where
  settled : h'.Settled
  nil_denotes : h'.Denotes config.nil
  owner : ∀ xs, h.fields t.owner = .ok xs → h'.fields t.owner = .ok xs
  arrays : ∀ slot ref xs, slot = t.kind.keys ∨ t.kind.values? = some slot →
    h.fetchField t.owner slot = .ok ref → h.fields ref = .ok xs → h'.fields ref = .ok xs
  keys : ∀ ref xs key, h.fetchField t.owner t.kind.keys = .ok ref → h.fields ref = .ok xs →
    key ∈ xs → (∀ bs, h.bytes key = .ok bs → h'.bytes key = .ok bs) ∧
      ∀ ws, h.words key = .ok ws → h'.words key = .ok ws

/-- Allocating leaves a table alone. -/
theorem spares_of_retains (hretains : Heap.Retains (fun _ => False) h h') (hsettled : h'.Settled)
    (hnil : h.Denotes config.nil) : Spares config t h h' :=
  ⟨hsettled, hnil.of_retains hretains, fun xs => hretains.fields _ xs id,
    fun _ ref xs _ _ => hretains.fields ref xs id,
    fun _ _ key _ _ _ => ⟨hretains.bytes key, hretains.words key⟩⟩

theorem Spares.fetchField (hspares : Spares config t h h') {i : Nat} {x : Value}
    (hfetch : h.fetchField t.owner i = .ok x) : h'.fetchField t.owner i = .ok x := by
  obtain ⟨xs, hxs, hx⟩ := Heap.fetchField_eq_ok.mp hfetch
  exact Heap.fetchField_eq_ok.mpr ⟨xs, hspares.owner xs hxs, hx⟩

theorem Laid.of_spares {tally : Nat} {keyRef valueRef : Value} {keys values : Array Value}
    (hlaid : Laid config h t tally keyRef valueRef keys values) (hspares : Spares config t h h') :
    Laid config h' t tally keyRef valueRef keys values := by
  refine ⟨hspares.settled, hspares.nil_denotes, hspares.fetchField hlaid.tally_eq,
    hspares.fetchField hlaid.keyRef_eq,
    fun slot hslot => hspares.fetchField (hlaid.valueRef_eq slot hslot), hlaid.unallocated, ?_,
    hlaid.owner_apart⟩
  intro hne
  have harrays := hlaid.allocated hne
  have hkeys := hspares.arrays _ keyRef keys (.inl rfl) hlaid.keyRef_eq harrays.keys_eq
  refine ⟨hkeys, ?_, harrays.apart, harrays.joint⟩
  cases hkind : t.kind.values? with
  | some slot =>
      exact hspares.arrays slot valueRef values (.inr hkind) (hlaid.valueRef_eq slot hkind)
        harrays.values_eq
  | none =>
      have hno : ¬t.kind.Valued := fun hyes => hyes hkind
      rw [harrays.joint hno, harrays.values_eq_keys hno]
      exact hkeys

theorem Holds.of_spares (hholds : Holds config h t entry) (hspares : Spares config t h h') :
    Holds config h' t entry := by
  obtain ⟨tally, keyRef, valueRef, keys, values, hlaid, hfilled, htally, hroom⟩ := hholds
  refine ⟨tally, keyRef, valueRef, keys, values, hlaid.of_spares hspares, ?_, htally, hroom⟩
  refine hfilled.mono fun k hk n hn => ?_
  obtain ⟨i, hi, -⟩ := Array.mem_iff_getElem.mp hk
  have hkeys := (hlaid.allocated (hlaid.ne_nil_of_lt hi)).keys_eq
  obtain ⟨hbytes, hwords⟩ := hspares.keys keyRef keys k hlaid.keyRef_eq hkeys hk
  exact hn.of_contents (φ := id) (Value.map_eq_self fun _ _ => rfl).symm hbytes hwords

/-! ## Fresh tables -/

/-- An owner that has just been made: no entries and no arrays. -/
structure Fresh (config : Config) (h : Heap) (t : Table) : Prop where
  settled : h.Settled
  nil_denotes : h.Denotes config.nil
  tally_eq : h.fetchField t.owner t.kind.tally = .ok (.ofNat 0)
  keys_eq : h.fetchField t.owner t.kind.keys = .ok config.nil
  values_eq : ∀ slot, t.kind.values? = some slot → h.fetchField t.owner slot = .ok config.nil

theorem Fresh.holds (hfresh : Fresh config h t) : Holds config h t fun _ _ => False := by
  refine ⟨0, config.nil, config.nil, #[], #[], ?_, ?_, rfl, Nat.zero_le _⟩
  · exact ⟨hfresh.settled, hfresh.nil_denotes, hfresh.tally_eq, hfresh.keys_eq, hfresh.values_eq,
      fun _ => ⟨rfl, rfl⟩, fun hne => absurd rfl hne, fun hne => absurd rfl hne⟩
  · exact Filled.replicate config.nil (Hash h) 0

/-! ## Histories of a table with values -/

/-- What has been done to a table since it was fresh.  The list has what was inserted, latest first;
a collection replaces its handles. -/
inductive History : Config → Heap → Table → List (Value × Value) → Prop where
  | fresh {config : Config} {h : Heap} {t : Table} :
      t.kind ≠ .symbols → Fresh config h t → History config h t []
  | insert {config : Config} {h h' : Heap} {t : Table} {entries : List (Value × Value)}
      {key value : Value} :
      History config h t entries → key ≠ config.nil →
      Table.insert config t key value h = .ok () h' → History config h' t ((key, value) :: entries)
  | collect {config : Config} {h h' : Heap} {t : Table} {entries : List (Value × Value)}
      {roots roots' : List Value} {cycle : Heap.Cycle} {φ : Handle → Handle} :
      History config h t entries → Heap.Kept h roots t.owner → Heap.Kept h roots config.nil →
      h.collect roots = ⟨.ok cycle, roots', h'⟩ → Heap.Relocation h roots h' roots' φ →
      History (config.map φ) h' (t.map φ) (entries.map fun e => (e.1.map φ, e.2.map φ))
  | elsewhere {config : Config} {h h' : Heap} {t : Table} {entries : List (Value × Value)} :
      History config h t entries → Spares config t h h' → History config h' t entries

/-- The pairs of a list, the earlier one hiding later ones of the same key. -/
def Listed (entries : List (Value × Value)) (k v : Value) : Prop := entries.lookup k = some v

theorem listed_cons (entries : List (Value × Value)) (key value k v : Value) :
    Listed ((key, value) :: entries) k v ↔ if k = key then v = value else Listed entries k v := by
  unfold Listed
  rw [List.lookup_cons]
  by_cases heq : k = key
  · simp [heq, eq_comm]
  · rw [beq_eq_false_iff_ne.mpr heq, if_neg heq]

theorem mem_of_listed {entries : List (Value × Value)} {k v : Value} (h : Listed entries k v) :
    (k, v) ∈ entries := by
  obtain ⟨before, after, rfl, -⟩ := List.lookup_eq_some_iff.mp h
  simp

theorem exists_listed {entries : List (Value × Value)} {e : Value × Value} (he : e ∈ entries) :
    ∃ v, Listed entries e.1 v := by
  induction entries with
  | nil => cases he
  | cons first rest ih =>
      obtain ⟨key, value⟩ := first
      simp only [listed_cons]
      by_cases heq : e.1 = key
      · exact ⟨value, by rw [if_pos heq]⟩
      · rcases List.mem_cons.mp he with rfl | hrest
        · exact absurd rfl heq
        · obtain ⟨v, hv⟩ := ih hrest
          exact ⟨v, by rwa [if_neg heq]⟩

/-- Renaming a list of pairs renames what it lists, when no two keys are confused. -/
theorem listed_map {entries : List (Value × Value)} {ψ : Value → Value}
    (hinj : ∀ e ∈ entries, ∀ e' ∈ entries, ψ e.1 = ψ e'.1 → e.1 = e'.1) (k' v' : Value) :
    Listed (entries.map fun e => (ψ e.1, ψ e.2)) k' v' ↔
      ∃ k v, Listed entries k v ∧ ψ k = k' ∧ ψ v = v' := by
  induction entries with
  | nil => simp [Listed]
  | cons first rest ih =>
      obtain ⟨key, value⟩ := first
      have hrest := ih fun e he e' he' =>
        hinj e (List.mem_cons_of_mem _ he) e' (List.mem_cons_of_mem _ he')
      rw [List.map_cons, listed_cons]
      split
      · next heq =>
        subst heq
        constructor
        · rintro rfl
          exact ⟨key, value, (listed_cons ..).mpr (by rw [if_pos rfl]), rfl, rfl⟩
        · rintro ⟨k, v, hlisted, hk, rfl⟩
          rw [listed_cons] at hlisted
          split at hlisted
          · rw [hlisted]
          · next hne =>
            -- an older pair of the same new key would be one of the same old key
            obtain ⟨e, he, hek⟩ : ∃ e ∈ rest, e.1 = k :=
              ⟨(k, v), mem_of_listed hlisted, rfl⟩
            subst hek
            exact absurd (hinj e (List.mem_cons_of_mem _ he) _ (List.mem_cons_self ..) hk) hne
      · next hne =>
        rw [hrest]
        refine exists_congr fun k => exists_congr fun v => ?_
        refine and_congr_left ?_
        rintro ⟨rfl, rfl⟩
        rw [listed_cons, if_neg]
        rintro rfl
        exact hne rfl

/-- A table holds what its history lists. -/
theorem History.holds {entries : List (Value × Value)} (hhistory : History config h t entries) :
    t.kind.Valued ∧ Holds config h t (Listed entries) ∧ ∀ e ∈ entries, e.1 ≠ config.nil := by
  induction hhistory with
  | @fresh config h t hkind hfresh =>
      have hvalued : t.kind.Valued := by
        unfold Kind.Valued
        cases hk : t.kind with
        | methods => nofun
        | globals => nofun
        | symbols => exact absurd hk hkind
      refine ⟨hvalued, ?_, nofun⟩
      exact hfresh.holds.congr fun k v _ => by simp [Listed]
  | @insert config h h' t entries key value _ hnil hrun ih =>
      obtain ⟨hvalued, hholds, hkeys⟩ := ih
      refine ⟨hvalued, ?_, ?_⟩
      · exact (hholds.insert hvalued hnil hrun).congr fun k v _ => listed_cons ..
      · intro e he
        rcases List.mem_cons.mp he with rfl | hrest
        · exact hnil
        · exact hkeys e hrest
  | @collect config h h' t entries roots roots' cycle φ _ howner hnil hcollect hr ih =>
      obtain ⟨hvalued, hholds, hkeys⟩ := ih
      have hsettled' : h'.Settled := by
        have := Heap.settled_collect hholds.settled roots
        rwa [hcollect] at this
      obtain ⟨hholds', hkept⟩ := hholds.map hr hsettled' howner hnil
      have hkeptKey : ∀ e ∈ entries, Heap.Kept h roots e.1 := by
        intro e he
        obtain ⟨v, hv⟩ := exists_listed he
        exact hkept e.1 v (hkeys e he) hv
      refine ⟨hvalued, ?_, ?_⟩
      · refine hholds'.congr fun k' v' _ => ?_
        rw [listed_map (ψ := (·.map φ)) fun e he e' he' =>
          hr.map_injective hsettled' (hkeptKey e he) (hkeptKey e' he')]
        refine exists_congr fun k => exists_congr fun v => ?_
        refine ⟨fun hlisted => ⟨?_, hlisted⟩, fun hlisted => hlisted.2⟩
        exact hkeys (k, v) (mem_of_listed hlisted.1)
      · intro e' he'
        obtain ⟨e, he, rfl⟩ := List.mem_map.mp he'
        exact fun heq => hkeys e he (hr.map_injective hsettled' (hkeptKey e he) hnil heq)
  | elsewhere _ hspares ih => exact ⟨ih.1, ih.2.1.of_spares hspares, ih.2.2⟩

end MessageMachine.Table
