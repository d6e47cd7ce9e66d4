import Mathlib.Data.Nat.ModEq
import MessageMachine.Table

/-!
# Open addressing

A search walks from the hash of a key to the first place that has the key or is free.  This file
proves about plain arrays why that finds every key.

* `probe_ends`: what is known about the places walked over, for each way in which a search ends.
* `Filled nil hash keys values entry`: the arrays hold the pairs `entry`, no key is in two places,
  and no place between the hash of a key and the key itself is free (`clustered`).
* `Filled.fill` and `Filled.replace` keep all that, and `Filled.found_of_entry` says that a search
  for a key of the table does not end at a free place before it.
-/

namespace MessageMachine.Table

variable {nil : Value} {keys values : Array Value}

/-! ## Walking over places -/

/-- The `count` places from `hash` on, wrapping around, are taken by keys with `P`. -/
def Walked (nil : Value) (keys : Array Value) (P : Value → Prop) (hash count : Nat) : Prop :=
  ∀ e < count, ∃ k, keys[(hash + e) % keys.size]? = some k ∧ k ≠ nil ∧ P k

/-- What is known when a search for a key with `P` has ended. -/
def Ends (nil : Value) (keys : Array Value) (P : Value → Prop) (hash : Nat) : Probe → Prop
  | .found place => ∃ k, keys[place]? = some k ∧ k ≠ nil ∧ P k
  | .vacant place =>
    keys[place]? = some nil ∧ ∃ d < keys.size, place = (hash + d) % keys.size ∧
      Walked nil keys (¬P ·) hash d
  | .full => Walked nil keys (¬P ·) hash keys.size

theorem Walked.succ {P : Value → Prop} {hash count : Nat} (hwalked : Walked nil keys P hash count)
    {k : Value} (hk : keys[(hash + count) % keys.size]? = some k) (hnil : k ≠ nil) (hP : P k) :
    Walked nil keys P hash (count + 1) := by
  intro e he
  rcases Nat.lt_succ_iff_lt_or_eq.mp he with hlt | rfl
  · exact hwalked e hlt
  · exact ⟨k, hk, hnil, hP⟩

theorem Walked.mono {P Q : Value → Prop} {hash count : Nat}
    (hwalked : Walked nil keys P hash count) (himp : ∀ k, P k → Q k) :
    Walked nil keys Q hash count := by
  intro e he
  obtain ⟨k, hk, hnil, hP⟩ := hwalked e he
  exact ⟨k, hk, hnil, himp k hP⟩

/-- Filling a free place leaves the places walked over as they are. -/
theorem Walked.setIfInBounds {P : Value → Prop} {hash count : Nat}
    (hwalked : Walked nil keys P hash count) {place : Nat} (hfree : keys[place]? = some nil)
    (key : Value) : Walked nil (keys.setIfInBounds place key) P hash count := by
  intro e he
  obtain ⟨k, hk, hnil, hP⟩ := hwalked e he
  refine ⟨k, ?_, hnil, hP⟩
  rw [Array.size_setIfInBounds, Array.getElem?_setIfInBounds_ne, hk]
  rintro rfl
  rw [hfree] at hk
  exact hnil (Option.some.inj hk).symm

theorem probeFrom_ends {isKey : Value → Except HeapFault Bool} {P : Value → Prop}
    [DecidablePred P] {hash : Nat} (hkey : ∀ k ∈ keys, k ≠ nil → isKey k = .ok (decide (P k))) :
    ∀ {remaining place count : Nat}, count + remaining = keys.size →
      place % keys.size = (hash + count) % keys.size → Walked nil keys (¬P ·) hash count →
      ∃ r, probeFrom nil keys isKey remaining place = .ok r ∧ Ends nil keys P hash r := by
  intro remaining
  induction remaining with
  | zero =>
      intro place count hsize _ hwalked
      refine ⟨.full, rfl, ?_⟩
      rw [Nat.add_zero] at hsize
      rwa [hsize] at hwalked
  | succ remaining ih =>
      intro place count hsize hplace hwalked
      obtain ⟨key, hat⟩ : ∃ key, keys[place % keys.size]? = some key :=
        ⟨_, Array.getElem?_eq_getElem (Nat.mod_lt _ (by omega))⟩
      rw [probeFrom, hat]
      dsimp only
      split
      · next hnil =>
        refine ⟨.vacant (place % keys.size), rfl, ?_, count, by omega, hplace, hwalked⟩
        rw [hat, hnil]
      · next hnil =>
        rw [hkey key (Array.mem_of_getElem? hat) hnil]
        by_cases hP : P key
        · exact ⟨.found (place % keys.size), by simp [hP], key, hat, hnil, hP⟩
        · rw [hplace] at hat
          have hnext : (place + 1) % keys.size = (hash + (count + 1)) % keys.size :=
            Nat.ModEq.add_right 1 hplace
          obtain ⟨r, hr, hends⟩ := ih (by omega) hnext (hwalked.succ hat hnil hP)
          exact ⟨r, by simpa [hP] using hr, hends⟩

/-- A search always ends, and what it walked over did not have the key. -/
theorem probe_ends {isKey : Value → Except HeapFault Bool} {P : Value → Prop} [DecidablePred P]
    (hash : Nat) (hkey : ∀ k ∈ keys, k ≠ nil → isKey k = .ok (decide (P k))) :
    ∃ r, probe nil keys hash isKey = .ok r ∧ Ends nil keys P hash r := by
  refine probeFrom_ends hkey (Nat.zero_add _) ?_ ?_
  · rw [Nat.mod_mod, Nat.add_zero]
  · intro e he
    cases he

/-! ## Filled arrays -/

/-- The arrays of a table whose pairs are `entry`: keys are looked for from their hash on. -/
structure Filled (nil : Value) (hash : Value → Nat → Prop) (keys values : Array Value)
    (entry : Value → Value → Prop) : Prop where
  size_eq : values.size = keys.size
  /-- No key is in two places. -/
  distinct : ∀ (i j : Nat) (k : Value), keys[i]? = some k → keys[j]? = some k → k ≠ nil → i = j
  /-- No place between the hash of a key and the key itself is free. -/
  clustered : ∀ (i : Nat) (k : Value), keys[i]? = some k → k ≠ nil →
    ∃ n d, hash k n ∧ d < keys.size ∧ i = (n + d) % keys.size ∧
      Walked nil keys (fun _ => True) n d
  entry_iff : ∀ k v, k ≠ nil → (entry k v ↔ ∃ i : Nat, keys[i]? = some k ∧ values[i]? = some v)

namespace Filled

variable {hash : Value → Nat → Prop} {entry : Value → Value → Prop}

theorem replicate (nil : Value) (hash : Value → Nat → Prop) (n : Nat) :
    Filled nil hash (Array.replicate n nil) (Array.replicate n nil) fun _ _ => False := by
  have hfree : ∀ (i : Nat) (k : Value), (Array.replicate n nil)[i]? = some k → k = nil := by
    intro i k hk
    obtain ⟨hi, rfl⟩ := Array.getElem?_eq_some_iff.mp hk
    simp
  refine ⟨rfl, ?_, ?_, ?_⟩
  · intro i j k hi _ hnil
    exact absurd (hfree i k hi) hnil
  · intro i k hi hnil
    exact absurd (hfree i k hi) hnil
  · intro k v hnil
    refine ⟨False.elim, ?_⟩
    rintro ⟨i, hi, -⟩
    exact hnil (hfree i k hi)

theorem mono (hfilled : Filled nil hash keys values entry) {hash' : Value → Nat → Prop}
    (hhash : ∀ k ∈ keys, ∀ n, hash k n → hash' k n) :
    Filled nil hash' keys values entry := by
  refine ⟨hfilled.size_eq, hfilled.distinct, ?_, hfilled.entry_iff⟩
  intro i k hi hnil
  obtain ⟨n, d, hn, hrest⟩ := hfilled.clustered i k hi hnil
  exact ⟨n, d, hhash k (Array.mem_of_getElem? hi) n hn, hrest⟩

theorem congr (hfilled : Filled nil hash keys values entry) {entry' : Value → Value → Prop}
    (hentry : ∀ k v, k ≠ nil → (entry' k v ↔ entry k v)) :
    Filled nil hash keys values entry' :=
  ⟨hfilled.size_eq, hfilled.distinct, hfilled.clustered,
    fun k v hnil => (hentry k v hnil).trans (hfilled.entry_iff k v hnil)⟩

/-- Every key of the arrays has a value. -/
theorem exists_entry (hfilled : Filled nil hash keys values entry) {i : Nat} {k : Value}
    (hi : keys[i]? = some k) (hnil : k ≠ nil) : ∃ v, entry k v := by
  have hbound : i < values.size := by
    rw [hfilled.size_eq]
    exact (Array.getElem?_eq_some_iff.mp hi).1
  exact ⟨values[i], (hfilled.entry_iff k _ hnil).mpr ⟨i, hi, Array.getElem?_eq_getElem hbound⟩⟩

/-- A search from the hash of a key of the table finds a key. -/
theorem found_of_mem (hfilled : Filled nil hash keys values entry)
    (hfunctional : ∀ k n m, hash k n → hash k m → n = m) {P : Value → Prop} {n : Nat} {r : Probe}
    (hends : Ends nil keys P n r) {i : Nat} {k : Value} (hi : keys[i]? = some k) (hnil : k ≠ nil)
    (hP : P k) (hn : hash k n) : ∃ place, r = .found place := by
  obtain ⟨m, d, hm, hd, rfl, hwalked⟩ := hfilled.clustered i k hi hnil
  obtain rfl := hfunctional k n m hn hm
  cases r with
  | found place => exact ⟨place, rfl⟩
  | vacant place =>
      obtain ⟨hfree, d', hd', rfl, hwalked'⟩ := hends
      exfalso
      rcases Nat.lt_trichotomy d' d with hlt | rfl | hgt
      · -- the free place would lie between the hash and the key
        obtain ⟨k', hk', hnil', -⟩ := hwalked d' hlt
        rw [hfree] at hk'
        exact hnil' (Option.some.inj hk').symm
      · rw [hfree] at hi
        exact hnil (Option.some.inj hi).symm
      · -- the search would have walked over the key
        obtain ⟨k', hk', -, hnot⟩ := hwalked' d hgt
        rw [hi] at hk'
        exact hnot (Option.some.inj hk' ▸ hP)
  | full =>
      obtain ⟨k', hk', -, hnot⟩ := hends d hd
      rw [hi] at hk'
      exact absurd (Option.some.inj hk' ▸ hP) hnot

/-- A search that ends elsewhere shows that the key is not in the table. -/
theorem not_mem_of_ends (hfilled : Filled nil hash keys values entry)
    (hfunctional : ∀ k n m, hash k n → hash k m → n = m) {key : Value} {n : Nat} {r : Probe}
    (hends : Ends nil keys (· = key) n r) (hr : ∀ place, r ≠ .found place) (hnil : key ≠ nil)
    (hn : hash key n) (i : Nat) : keys[i]? ≠ some key := by
  intro hi
  obtain ⟨place, hfound⟩ := hfilled.found_of_mem hfunctional hends hi hnil rfl hn
  exact hr place hfound

/-! ## Adding and replacing -/

/-- A new key goes to the first free place from its hash on. -/
theorem fill (hfilled : Filled nil hash keys values entry) {key : Value} (hnil : key ≠ nil)
    (habsent : ∀ i : Nat, keys[i]? ≠ some key) {n d place : Nat} (hn : hash key n)
    (hfree : keys[place]? = some nil) (hd : d < keys.size) (hplace : place = (n + d) % keys.size)
    (hwalked : Walked nil keys (fun _ => True) n d) (value : Value) :
    Filled nil hash (keys.setIfInBounds place key) (values.setIfInBounds place value)
      fun k v => if k = key then v = value else entry k v := by
  have hbound : place < keys.size := (Array.getElem?_eq_some_iff.mp hfree).1
  have hself : (keys.setIfInBounds place key)[place]? = some key :=
    Array.getElem?_setIfInBounds_self_of_lt hbound
  have hother : ∀ i, i ≠ place → (keys.setIfInBounds place key)[i]? = keys[i]? :=
    fun i hi => Array.getElem?_setIfInBounds_ne (Ne.symm hi)
  -- the new key is in its place only, and any other key is where it was
  have hold : ∀ (i : Nat) (k : Value), k ≠ nil → k ≠ key →
      ((keys.setIfInBounds place key)[i]? = some k ↔ keys[i]? = some k) := by
    intro i k hknil hkey
    by_cases hi : i = place
    · subst hi
      rw [hself, hfree]
      simp [Ne.symm hkey, Ne.symm hknil]
    · rw [hother i hi]
  have hnew : ∀ i : Nat, (keys.setIfInBounds place key)[i]? = some key → i = place := by
    intro i hi
    by_contra hne
    rw [hother i hne] at hi
    exact habsent i hi
  refine ⟨?_, ?_, ?_, ?_⟩
  · simpa using hfilled.size_eq
  · intro i j k hi hj hknil
    by_cases hkey : k = key
    · subst hkey
      rw [hnew i hi, hnew j hj]
    · rw [hold i k hknil hkey] at hi
      rw [hold j k hknil hkey] at hj
      exact hfilled.distinct i j k hi hj hknil
  · intro i k hi hknil
    rw [Array.size_setIfInBounds]
    by_cases hkey : k = key
    · subst hkey
      exact ⟨n, d, hn, hd, (hnew i hi).trans hplace, hwalked.setIfInBounds hfree k⟩
    · rw [hold i k hknil hkey] at hi
      obtain ⟨m, e, hm, he, hie, hwalkedOld⟩ := hfilled.clustered i k hi hknil
      exact ⟨m, e, hm, he, hie, hwalkedOld.setIfInBounds hfree key⟩
  · intro k v hknil
    by_cases hkey : k = key
    · subst hkey
      rw [if_pos rfl]
      have hvalue : (values.setIfInBounds place value)[place]? = some value :=
        Array.getElem?_setIfInBounds_self_of_lt (by rw [hfilled.size_eq]; exact hbound)
      constructor
      · rintro rfl
        exact ⟨place, hself, hvalue⟩
      · rintro ⟨i, hi, hv⟩
        rw [hnew i hi, hvalue] at hv
        exact (Option.some.inj hv).symm
    · rw [if_neg hkey, hfilled.entry_iff k v hknil]
      refine exists_congr fun i => ?_
      rw [hold i k hknil hkey]
      refine and_congr_right fun hi => ?_
      rw [Array.getElem?_setIfInBounds_ne]
      rintro rfl
      rw [hfree] at hi
      exact hknil (Option.some.inj hi).symm

/-- A key of the table gets another value in its place. -/
theorem replace (hfilled : Filled nil hash keys values entry) {key : Value} (hnil : key ≠ nil)
    {place : Nat} (hplace : keys[place]? = some key) (value : Value) :
    Filled nil hash keys (values.setIfInBounds place value)
      fun k v => if k = key then v = value else entry k v := by
  have hbound : place < values.size := by
    rw [hfilled.size_eq]
    exact (Array.getElem?_eq_some_iff.mp hplace).1
  refine ⟨by simpa using hfilled.size_eq, hfilled.distinct, hfilled.clustered, ?_⟩
  intro k v hknil
  by_cases hkey : k = key
  · subst hkey
    rw [if_pos rfl]
    constructor
    · rintro rfl
      exact ⟨place, hplace, Array.getElem?_setIfInBounds_self_of_lt hbound⟩
    · rintro ⟨i, hi, hv⟩
      rw [hfilled.distinct i place k hi hplace hknil,
        Array.getElem?_setIfInBounds_self_of_lt hbound] at hv
      exact (Option.some.inj hv).symm
  · rw [if_neg hkey, hfilled.entry_iff k v hknil]
    refine exists_congr fun i => and_congr_right fun hi => ?_
    rw [Array.getElem?_setIfInBounds_ne]
    rintro rfl
    rw [hplace] at hi
    exact hkey (Option.some.inj hi).symm

/-! ## Renaming -/

/-- Renaming all values keeps a table filled when no key is confused with another or with nil. -/
theorem map (hfilled : Filled nil hash keys values entry) {ψ : Value → Value}
    (hinj : ∀ k ∈ keys, ∀ k' ∈ nil :: keys.toList, ψ k = ψ k' → k = k')
    {hash' : Value → Nat → Prop} (hhash : ∀ k ∈ keys, ∀ n, hash k n → hash' (ψ k) n) :
    Filled (ψ nil) hash' (keys.map ψ) (values.map ψ)
      fun k' v' => ∃ k v, k ≠ nil ∧ entry k v ∧ ψ k = k' ∧ ψ v = v' := by
  have hat : ∀ (i : Nat) (k' : Value), (keys.map ψ)[i]? = some k' → k' ≠ ψ nil →
      ∃ k, keys[i]? = some k ∧ k ≠ nil ∧ ψ k = k' := by
    intro i k' hi hnil
    rw [Array.getElem?_map] at hi
    obtain ⟨k, hk, rfl⟩ := Option.map_eq_some_iff.mp hi
    exact ⟨k, hk, fun h => hnil (congrArg ψ h), rfl⟩
  refine ⟨by simpa using hfilled.size_eq, ?_, ?_, ?_⟩
  · intro i j k' hi hj hnil
    obtain ⟨k, hk, hknil, rfl⟩ := hat i k' hi hnil
    obtain ⟨l, hl, -, heq⟩ := hat j _ hj hnil
    obtain rfl := hinj l (Array.mem_of_getElem? hl) k
      (List.mem_cons_of_mem _ (by simpa using Array.mem_of_getElem? hk)) heq
    exact hfilled.distinct i j l hk hl hknil
  · intro i k' hi hnil
    obtain ⟨k, hk, hknil, rfl⟩ := hat i k' hi hnil
    obtain ⟨n, d, hn, hd, hplace, hwalked⟩ := hfilled.clustered i k hk hknil
    rw [Array.size_map]
    refine ⟨n, d, hhash k (Array.mem_of_getElem? hk) n hn, hd, hplace, ?_⟩
    intro e he
    obtain ⟨l, hl, hlnil, -⟩ := hwalked e he
    refine ⟨ψ l, by rw [Array.size_map, Array.getElem?_map, hl]; rfl, fun heq => ?_, trivial⟩
    exact hlnil (hinj l (Array.mem_of_getElem? hl) nil (List.mem_cons_self ..) heq)
  · intro k' v' hnil
    constructor
    · rintro ⟨k, v, hknil, hentry, rfl, rfl⟩
      obtain ⟨i, hi, hv⟩ := (hfilled.entry_iff k v hknil).mp hentry
      exact ⟨i, by rw [Array.getElem?_map, hi]; rfl, by rw [Array.getElem?_map, hv]; rfl⟩
    · rintro ⟨i, hi, hv⟩
      obtain ⟨k, hk, hknil, rfl⟩ := hat i k' hi hnil
      rw [Array.getElem?_map] at hv
      obtain ⟨v, hvalue, rfl⟩ := Option.map_eq_some_iff.mp hv
      exact ⟨k, v, hknil, (hfilled.entry_iff k v hknil).mpr ⟨i, hk, hvalue⟩, rfl, rfl⟩

end Filled

/-! ## Counting -/

/-- How many places are taken. -/
def taken (nil : Value) (keys : Array Value) : Nat := keys.countP (· ≠ nil)

theorem taken_replicate (nil : Value) (n : Nat) : taken nil (Array.replicate n nil) = 0 := by
  simp [taken, Array.countP_replicate]

theorem taken_fill {key : Value} (hnil : key ≠ nil) {place : Nat}
    (hfree : keys[place]? = some nil) :
    taken nil (keys.setIfInBounds place key) = taken nil keys + 1 := by
  obtain ⟨hbound, hat⟩ := Array.getElem?_eq_some_iff.mp hfree
  rw [taken, taken, Array.setIfInBounds, dif_pos hbound, Array.countP_set hbound]
  simp [hat, hnil]

/-- Counting one place further. -/
theorem taken_extract_succ {p : Nat} {k : Value} (hk : keys[p]? = some k) :
    taken nil (keys.extract 0 (p + 1)) =
      taken nil (keys.extract 0 p) + if k = nil then 0 else 1 := by
  obtain ⟨hp, rfl⟩ := Array.getElem?_eq_some_iff.mp hk
  have hpush : (keys.extract 0 p).push keys[p] = keys.extract 0 (p + 1) := by
    rw [Array.push_extract_getElem hp, Nat.zero_min]
  rw [← hpush, taken, taken, Array.countP_push]
  by_cases hnil : keys[p] = nil
  · simp [hnil]
  · simp [hnil]

theorem taken_map {ψ : Value → Value} (hinj : ∀ k ∈ keys, ψ k = ψ nil → k = nil) :
    taken (ψ nil) (keys.map ψ) = taken nil keys := by
  rw [taken, taken, Array.countP_map]
  apply Array.countP_congr
  intro k hk
  simp only [Function.comp_apply, decide_eq_true_eq, ne_eq, not_iff_not]
  exact ⟨hinj k hk, congrArg ψ⟩

end MessageMachine.Table
