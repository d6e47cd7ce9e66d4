import MessageMachine.Proofs.Schedule.Shield
import MessageMachine.Proofs.Table.Footprint
import MessageMachine.Proofs.Table.Mapping

/-!
# Insertions that fail

An insertion into a table in order fails only where it looks for room: before it has written to
anything that existed.  From the first write on every step succeeds, because the table has a free
place and its owner and arrays have the fields that are written.

So after a failure everything that existed is as it was (`Holds.extended_of_insert_error`); there may
be new arrays that nothing refers to.
-/

namespace MessageMachine

variable {h h' h'' : Heap}

namespace Heap

/-! ## Heaps with more objects -/

/-- What existed is as it was. -/
structure Extended (h h' : Heap) : Prop where
  settled : h'.Settled
  types : ∀ v t, h.typeOf v = .ok t → h'.typeOf v = .ok t
  retains : Retains (fun _ => False) h h'

namespace Extended

theorem refl (hsettled : h.Settled) : Extended h h := ⟨hsettled, fun _ _ => id, .refl _ _⟩

theorem trans (hfirst : Extended h h') (hsecond : Extended h' h'') : Extended h h'' :=
  ⟨hsecond.settled, fun v t ht => hsecond.types v t (hfirst.types v t ht),
    hfirst.retains.trans hsecond.retains⟩

theorem of_allocateFields (hsettled : h.Settled) {space : Space} {type fill v : Value} {count : Nat}
    (hallocate : allocateFields space type count fill h = .ok v h') : Extended h h' :=
  have hmade := made_of_eq_ok hsettled hallocate
  ⟨hmade.settled, hmade.types, (fields_allocateFields hsettled hallocate).2.2.1⟩

theorem of_allocateBytesFrom (hsettled : h.Settled) {space : Space} {type v : Value}
    {bytes : Array UInt8} (hallocate : allocateBytesFrom space type bytes h = .ok v h') :
    Extended h h' := by
  obtain ⟨-, -, hretains, hsettled'⟩ := bytes_allocateBytesFrom hsettled hallocate
  obtain ⟨_, -, hrest⟩ := read_bind_eq_ok.mp hallocate
  obtain ⟨a, t, ha, hv⟩ := bind_eq_ok.mp hrest
  obtain ⟨rfl, rfl⟩ := pure_eq_ok.mp hv
  obtain ⟨-, hstale, hput⟩ := allocate_eq_ok hsettled ha
  refine ⟨hsettled', fun w type' htype => ?_, hretains⟩
  obtain ⟨b, o, hw, ho, hheader⟩ := typeOf_eq_ok.mp htype
  have hne : b ≠ a := by
    rintro rfl
    cases hstale.symm.trans ho
  exact typeOf_eq_ok.mpr ⟨b, o, hw, (hput.resolve_of_ne hne).trans ho, hheader⟩

end Extended

theorem error_of_read_bind {f : Heap → Except HeapFault α} {g : α → HeapM β} {fault : HeapFault}
    (hrun : (read f >>= g) h = .error fault h') :
    h' = h ∨ ∃ a, f h = .ok a ∧ g a h = .error fault h' := by
  rcases error_of_bind hrun with hread | ⟨a, h₁, hread, hrest⟩
  · exact .inl (heap_of_read_error hread)
  · obtain ⟨ha, rfl⟩ := read_eq_ok.mp hread
    exact .inr ⟨a, ha, hrest⟩

end Heap

namespace Table

variable {config : Config} {t : Table} {entry : Value → Value → Prop} {slot : Nat}

/-! ## Growing -/

/-- What is written into new arrays. -/
structure Drafted (keyRef valueRef : Value) (h₀ h : Heap) : Prop where
  settled : h.Settled
  types : ∀ v t, h₀.typeOf v = .ok t → h.typeOf v = .ok t
  retains : Heap.Retains (IsArray keyRef valueRef) h₀ h

theorem keeps_drafted_storeField {keyRef valueRef : Value} {h₀ : Heap} {v new : Value}
    (hv : IsArray keyRef valueRef v) (i : Nat) :
    Keeps (Drafted keyRef valueRef h₀) (Heap.storeField v i new) := by
  intro h hd
  cases hrun : Heap.storeField v i new h with
  | error fault h' =>
      rw [Heap.heap_of_change_error hrun]
      exact hd
  | ok u h' =>
      have hstored := Heap.stored_of_eq_ok hd.settled hrun
      refine ⟨hstored.settled, fun w t ht => (hstored.types w).trans (hd.types w t ht), ?_⟩
      refine hd.retains.trans ((Heap.retains_storeField hrun).mono fun w hw => ?_)
      rwa [hw]

theorem keeps_drafted_rehash {keyRef valueRef oldRef : Value}
    {oldNewValues : Option (Value × Value)} {h₀ : Heap}
    (hvalues : ∀ old new, oldNewValues = some (old, new) → new = valueRef)
    (capacity place : Nat) : Keeps (Drafted keyRef valueRef h₀)
      (rehash config oldRef keyRef oldNewValues capacity place) := by
  refine (Heap.keeps_read _).bind fun key => Keeps.ite (Keeps.pure _) ?_
  refine (Heap.keeps_read _).bind fun hash => (Heap.keeps_read _).bind fun probe => ?_
  cases probe with
  | found place => exact Keeps.throw _
  | full => exact Keeps.throw _
  | vacant place =>
      refine (keeps_drafted_storeField (.inl rfl) _).bind fun _ => ?_
      cases oldNewValues with
      | none => exact Keeps.pure _
      | some pair =>
          obtain rfl := hvalues pair.1 pair.2 rfl
          exact (Heap.keeps_read _).bind fun value => keeps_drafted_storeField (.inr rfl) _

/-- Once the new arrays are there, growing can fail only before the owner gets the array of keys.
What comes after that starts from a heap where everything else is as it was. -/
theorem extended_of_moving_error {h₀ : Heap} {oldRef newKeys newValues : Value}
    {oldNewValues : Option (Value × Value)} {capacity : Nat} {rest : HeapM Unit}
    (hextended : Heap.Extended h₀ h)
    (hfresh : ∀ v xs, h₀.fields v = .ok xs → ¬IsArray newKeys newValues v)
    (hvalues : ∀ old new, oldNewValues = some (old, new) → new = newValues)
    {fault : HeapFault}
    (hrun : (do
      let oldSize := (← Heap.read (keyArray config · oldRef)).size
      (List.range oldSize).forM (rehash config oldRef newKeys oldNewValues capacity)
      Heap.storeField t.owner t.kind.keys newKeys
      rest : HeapM Unit) h = .error fault h') :
    Heap.Extended h₀ h' ∨ ∃ h₁ h₂, Heap.Extended h₀ h₁ ∧
      Heap.storeField t.owner t.kind.keys newKeys h₁ = .ok () h₂ ∧ rest h₂ = .error fault h' := by
  have hdraft : ∀ {h₁}, Drafted newKeys newValues h h₁ → Heap.Extended h₀ h₁ := by
    intro h₁ hd
    refine ⟨hd.settled, fun v t ht => hd.types v t (hextended.types v t ht), ?_⟩
    refine ((hextended.retains.mono fun _ => False.elim).trans hd.retains).restrict ?_
    exact fun v xs harray hxs => hfresh v xs hxs harray
  rcases Heap.error_of_read_bind hrun with heq | ⟨old, -, hrun₁⟩
  · rw [heq]
    exact .inl hextended
  have hround : ∀ p ∈ List.range old.size, Keeps (Drafted newKeys newValues h)
      (rehash config oldRef newKeys oldNewValues capacity p) :=
    fun p _ => keeps_drafted_rehash hvalues capacity p
  have hloop := Keeps.forM hround h ⟨hextended.settled, fun _ _ => id, .refl _ _⟩
  rcases error_of_bind hrun₁ with hmoving | ⟨_, h₁, hmoving, hrun₂⟩
  · rw [hmoving] at hloop
    exact .inl (hdraft hloop)
  rw [hmoving] at hloop
  rcases error_of_bind hrun₂ with hstore | ⟨_, h₂, hstore, hrest⟩
  · rw [Heap.heap_of_change_error hstore]
    exact .inl (hdraft hloop)
  · exact .inr ⟨h₁, h₂, hdraft hloop, hstore, hrest⟩

/-- If growing fails, that is before the owner gets its new arrays. -/
theorem Laid.extended_of_grow_error {tally capacity : Nat} {keyRef valueRef : Value}
    {keys values : Array Value} (hlaid : Laid config h t tally keyRef valueRef keys values)
    {fault : HeapFault} (hrun : Table.grow config t capacity h = .error fault h') :
    Heap.Extended h h' := by
  have hsettled := hlaid.settled
  have hsame : ∀ {t : Heap}, t = h → Heap.Extended h t := by
    intro t heq
    rw [heq]
    exact .refl hsettled
  rcases Heap.error_of_read_bind hrun with heq | ⟨oldRef, -, hrun₁⟩
  · exact hsame heq
  cases hkind : t.kind.values? with
  | none =>
      rw [hkind] at hrun₁
      rcases error_of_bind hrun₁ with hpure | ⟨_, _, hpure, hrun₂⟩
      · cases hpure
      obtain ⟨rfl, rfl⟩ := pure_eq_ok.mp hpure
      rcases error_of_bind hrun₂ with hallocate | ⟨newKeys, h₁, hallocate, hrun₃⟩
      · exact hsame (Heap.heap_of_checked_error hallocate)
      rcases error_of_bind hrun₃ with hpure | ⟨_, _, hpure, hrun₄⟩
      · cases hpure
      obtain ⟨rfl, rfl⟩ := pure_eq_ok.mp hpure
      have hfresh := (arrays_of_allocate hsettled hlaid.nil_denotes hallocate
        (fun hno : False => hno.elim) fun _ => ⟨rfl, rfl⟩).2.1
      rcases extended_of_moving_error (.of_allocateFields hsettled hallocate) hfresh
          (fun _ _ heq => by cases heq) hrun₄ with hextended | ⟨h₂, h₃, -, -, hpure⟩
      · exact hextended
      · cases hpure
  | some slot =>
      rw [hkind] at hrun₁
      rcases error_of_bind hrun₁ with hread | ⟨_, _, hread, hrun₂⟩
      · rcases Heap.error_of_read_bind hread with heq | ⟨_, -, hpure⟩
        · exact hsame heq
        · cases hpure
      obtain ⟨oldValueRef, -, hsome⟩ := Heap.read_bind_eq_ok.mp hread
      obtain ⟨rfl, rfl⟩ := pure_eq_ok.mp hsome
      rcases error_of_bind hrun₂ with hallocate | ⟨newKeys, h₁, hallocate, hrun₃⟩
      · exact hsame (Heap.heap_of_checked_error hallocate)
      have hextended₁ := Heap.Extended.of_allocateFields hsettled hallocate
      rcases error_of_bind hrun₃ with hpair | ⟨_, h₂, hpair, hrun₄⟩
      · rcases error_of_bind hpair with hpair' | ⟨_, _, -, hpure⟩
        · rcases error_of_bind hpair' with hallocate' | ⟨_, _, -, hpure⟩
          · rw [Heap.heap_of_checked_error hallocate']
            exact hextended₁
          · cases hpure
        · cases hpure
      obtain ⟨_, h₂', hpair', hsome⟩ := bind_eq_ok.mp hpair
      obtain ⟨rfl, rfl⟩ := pure_eq_ok.mp hsome
      obtain ⟨newValues, h₂'', hallocate', hsome'⟩ := bind_eq_ok.mp hpair'
      obtain ⟨rfl, rfl⟩ := pure_eq_ok.mp hsome'
      have hfresh := (arrays_of_allocate hsettled hlaid.nil_denotes hallocate
        (fun _ : True => hallocate') fun hno => absurd trivial hno).2.1
      have hpaired : ∀ old new, some (oldValueRef, newValues) = some (old, new) → new = newValues := by
        intro old new heq
        cases heq
        rfl
      rcases extended_of_moving_error
          (hextended₁.trans (.of_allocateFields hextended₁.settled hallocate')) hfresh hpaired hrun₄
        with hextended | ⟨h₃, h₄, hextended, hstore, hrest⟩
      · exact hextended
      · -- the second store succeeds like the first
        have hvalueRef := hextended.retains.fetchField id (hlaid.valueRef_eq slot hkind)
        have hvalueRef' :=
          Heap.fetchField_storeField_of_ne hstore (Kind.ne_of_values hkind).2.symm hvalueRef
        obtain ⟨h₅, hstore'⟩ := Heap.storeField_of_fetchField hvalueRef' newValues
        cases hrest.symm.trans hstore'

/-! ## Inserting -/

/-- A search of a table that has room does not end without a place. -/
theorem not_full_of_taken {nil : Value} {keys : Array Value} {n : Nat} {P : Value → Prop}
    (hroom : taken nil keys < keys.size) : ¬Ends nil keys P n .full := by
  intro hfull
  refine absurd (Array.countP_eq_size.mpr fun k hk => ?_) (Nat.ne_of_lt hroom)
  obtain ⟨i, hi, rfl⟩ := Array.mem_iff_getElem.mp hk
  -- every place is some number of places after the hash
  have hplace : (n + (i + keys.size - n % keys.size) % keys.size) % keys.size = i := by
    have hmod := Nat.mod_lt n (Nat.zero_lt_of_lt hi)
    rw [Nat.add_mod_mod, ← Nat.mod_add_mod]
    have hsum : n % keys.size + (i + keys.size - n % keys.size) = i + keys.size := by omega
    rw [hsum, Nat.add_mod_right, Nat.mod_eq_of_lt hi]
  obtain ⟨k, hat, hne, -⟩ := hfull _ (Nat.mod_lt _ (Nat.zero_lt_of_lt hi))
  rw [hplace, Array.getElem?_eq_getElem hi] at hat
  cases hat
  exact decide_eq_true hne

/-- A table that has grown if need be takes the entry. -/
theorem Laid.exists_insert {tally : Nat} {keyRef valueRef : Value} {keys values : Array Value}
    {key value : Value} {n : Nat}
    (hlaid : Laid config h t tally keyRef valueRef keys values) (hne : keyRef ≠ config.nil)
    (hsize : values.size = keys.size) (hroom : taken config.nil keys < keys.size) :
    ∃ h', (do
      let keys ← Heap.read (·.fetchField t.owner t.kind.keys)
      match ← Heap.read (probeVacant config · keys n) with
      | .vacant place =>
        Heap.storeField keys place key
        match t.kind.values? with
        | some slot => Heap.storeField (← Heap.read (·.fetchField t.owner slot)) place value
        | none => pure ()
        Heap.storeField t.owner t.kind.tally (.ofNat (tally + 1))
      | _ => throw (.value (.outOfRange tally tally)) : HeapM Unit) h = .ok () h' := by
  have harrays := hlaid.allocated hne
  have hapart := hlaid.owner_apart hne
  have hcompare : ∀ k ∈ keys, k ≠ config.nil →
      (.ok false : Except HeapFault Bool) = .ok (decide False) := fun _ _ _ => rfl
  obtain ⟨r, hr, hends⟩ := probe_ends n hcompare
  have hprobe : probeVacant config h keyRef n = .ok r :=
    reading_bind_eq_ok.mpr ⟨keys, hlaid.keyArray_eq, hr⟩
  cases r with
  | found place =>
      obtain ⟨k, -, -, hfalse⟩ := hends
      exact hfalse.elim
  | full => exact absurd hends (not_full_of_taken hroom)
  | vacant place =>
      have hkey : h.fetchField keyRef place = .ok config.nil :=
        Heap.fetchField_eq_ok.mpr ⟨keys, harrays.keys_eq, hends.1⟩
      obtain ⟨h₁, hstoreKey⟩ := Heap.storeField_of_fetchField hkey key
      have hretains₁ := Heap.retains_storeField hstoreKey
      have htally₁ : h₁.fetchField t.owner t.kind.tally = .ok (.ofNat tally) :=
        hretains₁.fetchField (fun heq => hapart (.inl heq)) hlaid.tally_eq
      cases hkind : t.kind.values? with
      | none =>
          obtain ⟨h₂, hstoreTally⟩ := Heap.storeField_of_fetchField htally₁ (.ofNat (tally + 1))
          refine ⟨h₂, Heap.read_bind_eq_ok.mpr ⟨keyRef, hlaid.keyRef_eq, ?_⟩⟩
          refine Heap.read_bind_eq_ok.mpr ⟨.vacant place, hprobe, ?_⟩
          exact bind_eq_ok.mpr ⟨(), h₁, hstoreKey, hstoreTally⟩
      | some slot =>
          have hvalueRef : h₁.fetchField t.owner slot = .ok valueRef :=
            hretains₁.fetchField (fun heq => hapart (.inl heq)) (hlaid.valueRef_eq slot hkind)
          have hbound : place < values.size := by
            rw [hsize]
            exact (Array.getElem?_eq_some_iff.mp hends.1).1
          have hvalued : t.kind.Valued := fun hnone => by
            rw [hkind] at hnone
            cases hnone
          have hvalue : h₁.fetchField valueRef place = .ok values[place] :=
            hretains₁.fetchField (harrays.apart hvalued) (Heap.fetchField_eq_ok.mpr
              ⟨values, harrays.values_eq, Array.getElem?_eq_getElem hbound⟩)
          obtain ⟨h₂, hstoreValue⟩ := Heap.storeField_of_fetchField hvalue value
          have htally₂ : h₂.fetchField t.owner t.kind.tally = .ok (.ofNat tally) :=
            (Heap.retains_storeField hstoreValue).fetchField (fun heq => hapart (.inr heq)) htally₁
          obtain ⟨h₃, hstoreTally⟩ := Heap.storeField_of_fetchField htally₂ (.ofNat (tally + 1))
          refine ⟨h₃, Heap.read_bind_eq_ok.mpr ⟨keyRef, hlaid.keyRef_eq, ?_⟩⟩
          refine Heap.read_bind_eq_ok.mpr ⟨.vacant place, hprobe, ?_⟩
          refine bind_eq_ok.mpr ⟨(), h₁, hstoreKey, ?_⟩
          refine Heap.read_bind_eq_ok.mpr ⟨valueRef, hvalueRef, ?_⟩
          exact bind_eq_ok.mpr ⟨(), h₂, hstoreValue, hstoreTally⟩

/-- An entry fails to be added only where the table fails to grow. -/
theorem Holds.extended_of_insertNew_error (hholds : Holds config h t entry) {n : Nat}
    {key value : Value} {fault : HeapFault}
    (hrun : Table.insertNew config t n key value h = .error fault h') : Heap.Extended h h' := by
  obtain ⟨tally, keyRef, valueRef, keys, values, hlaid, hfilled, htally, -⟩ := hholds
  have hsame : h' = h → Heap.Extended h h' := by
    intro heq
    rw [heq]
    exact .refl hlaid.settled
  rcases Heap.error_of_read_bind hrun with heq | ⟨tally', hreadTally, hrun₁⟩
  · exact hsame heq
  rcases Heap.error_of_read_bind hrun₁ with heq | ⟨capacity, hcapacity, hrun₂⟩
  · exact hsame heq
  obtain ⟨count, hcount, hindex⟩ := reading_bind_eq_ok.mp hreadTally
  rw [hlaid.tally_eq] at hcount
  cases hcount
  obtain rfl : tally = tally' :=
    Int.ofNat.inj (Value.int.inj (Value.index_eq_ok.mp (lift_eq_ok.mp hindex)))
  obtain ⟨ref, href, hkeys⟩ := reading_bind_eq_ok.mp hcapacity
  rw [hlaid.keyRef_eq] at href
  cases href
  obtain ⟨old, hold, hsize⟩ := reading_bind_eq_ok.mp hkeys
  rw [hlaid.keyArray_eq] at hold
  cases hold
  obtain rfl := reading_pure_eq_ok.mp hsize
  rcases error_of_ite_skip hrun₂ with ⟨-, hgrow⟩ | ⟨h₁, hgrown, hrest⟩
  · exact hlaid.extended_of_grow_error hgrow
  · -- there is room now, so nothing can fail any more
    obtain ⟨keyRef', valueRef', keys', values', hlaid', hne, hfilled', htaken, hfits, -⟩ :=
      hlaid.make_room hfilled hgrown
    have hroom : taken config.nil keys' < keys'.size := by
      have hthree := fits_iff.mp hfits
      omega
    obtain ⟨h₂, hdone⟩ := hlaid'.exists_insert hne hfilled'.size_eq hroom
    cases hrest.symm.trans hdone

theorem Holds.extended_of_insert_error (hholds : Holds config h t entry) {key value : Value}
    {fault : HeapFault} (hrun : Table.insert config t key value h = .error fault h') :
    Heap.Extended h h' := by
  have hsame : h' = h → Heap.Extended h h' := by
    intro heq
    rw [heq]
    exact .refl hholds.settled
  rcases Heap.error_of_read_bind hrun with heq | ⟨_, -, hrun₁⟩
  · exact hsame heq
  rcases Heap.error_of_read_bind hrun₁ with heq | ⟨r, -, hrun₂⟩
  · exact hsame heq
  have hnew : (do
      let hash ← Heap.read (keyHash · key)
      Table.insertNew config t hash key value : HeapM Unit) h = .error fault h' → Heap.Extended h h' := by
    intro hrun₃
    rcases Heap.error_of_read_bind hrun₃ with heq | ⟨n, -, hrun₄⟩
    · exact hsame heq
    · exact hholds.extended_of_insertNew_error hrun₄
  cases r with
  | found place =>
      cases hkind : t.kind.values? with
      | none =>
          rw [hkind] at hrun₂
          cases hrun₂
      | some slot =>
          rw [hkind] at hrun₂
          rcases Heap.error_of_read_bind hrun₂ with heq | ⟨_, -, hstore⟩
          · exact hsame heq
          · exact hsame (Heap.heap_of_change_error hstore)
  | vacant place => exact hnew hrun₂
  | full => exact hnew hrun₂

/-- Interning fails only where there is no room for the symbol or the table fails to grow. -/
theorem Holds.extended_of_intern_error {symbols symbolType : Value}
    (hholds : Holds config h ⟨symbols, .symbols⟩ entry) {name : Array UInt8} {fault : HeapFault}
    (hrun : Table.intern config symbols symbolType name h = .error fault h') :
    Heap.Extended h h' := by
  have hsame : h' = h → Heap.Extended h h' := by
    intro heq
    rw [heq]
    exact .refl hholds.settled
  rcases Heap.error_of_read_bind hrun with heq | ⟨found, -, hrun₁⟩
  · exact hsame heq
  cases found with
  | some symbol => cases hrun₁
  | none =>
      rcases error_of_bind hrun₁ with hallocate | ⟨symbol, h₁, hallocate, hrun₂⟩
      · exact hsame (Heap.heap_of_checked_error hallocate)
      have hextended := Heap.Extended.of_allocateBytesFrom hholds.settled hallocate
      have hholds₁ := hholds.of_spares
        (spares_of_retains hextended.retains hextended.settled hholds.nil_denotes)
      rcases error_of_bind hrun₂ with hinsert | ⟨_, h₂, -, hpure⟩
      · exact hextended.trans (hholds₁.extended_of_insertNew_error hinsert)
      · cases hpure

end Table

end MessageMachine
