import MessageMachine.Proofs.Schedule.Shield

/-!
# What actions on the heap do, field by field

Relations between a heap and a later one, as types, sizes and fields are read:

* `Altered h v touched h'`: some fields of `v` may have changed, those that `touched` names.
* `Transferred h source i target j count h'`: `count` fields have been copied, as by
  `Heap.transferFields`.
* `Extends fill h h'`: fields are as they were, and those of new objects are all `fill`.
* `Drafted h v type n xs h'`: one object is new, with `n` fields that `xs` lists.  It stands for all
  that is done to a new object before anything else can see it.
-/

namespace MessageMachine.Heap

variable {h h' h₁ h₂ : Heap}

/-! ## Fields of one object -/

/-- Types and sizes are the same, and so are all fields but those of `v` that `touched` names. -/
structure Altered (h : Heap) (v : Value) (touched : Nat → Prop) (h' : Heap) : Prop where
  settled : h'.Settled
  types : ∀ u, h'.typeOf u = h.typeOf u
  counts : ∀ u, h'.fieldCount u = h.fieldCount u
  other : ∀ u j x, (u ≠ v ∨ ¬touched j) → (h'.fetchField u j = .ok x ↔ h.fetchField u j = .ok x)

theorem Stored.altered {v new : Value} {i : Nat} (hstored : Stored h v i new h') :
    Altered h v (· = i) h' :=
  ⟨hstored.settled, hstored.types, hstored.counts, hstored.other⟩

/-- The object at a handle has other fields, as many as before. -/
theorem altered_of_putAt (hsettled : h'.Settled) {a : Handle} {o : Object} {xs ys : Array Value}
    (ho : h.resolve a = .ok o) (hbody : o.body = .fields xs) (hsize : ys.size = xs.size)
    (hput : PutAt h a ⟨o.header, .fields ys⟩ h') {touched : Nat → Prop}
    (hsame : ∀ j, ¬touched j → ys[j]? = xs[j]?) : Altered h (.object a) touched h' := by
  have hold : h.fields (.object a) = .ok xs := fields_eq_ok.mpr ⟨a, o, rfl, ho, hbody⟩
  have hnew : h'.fields (.object a) = .ok ys :=
    fields_eq_ok.mpr ⟨a, _, rfl, hput.resolve_self, rfl⟩
  refine ⟨hsettled, typeOf_of_putAt hput ho rfl, ?_, ?_⟩
  · intro u
    unfold fieldCount
    by_cases hu : u = .object a
    · subst hu
      rw [hold, hnew]
      simp only [bind, Except.bind, pure, Except.pure, hsize]
    · rw [hput.fields_of_ne hu]
  · intro u j x hother
    by_cases hu : u = .object a
    · subst hu
      have hj := hsame j (hother.resolve_left fun hne => hne rfl)
      simp only [fetchField_eq_ok, hold, hnew, Except.ok.injEq, exists_eq_left', hj]
    · simp only [fetchField_eq_ok, hput.fields_of_ne hu]

/-- An object that keeps its size and its fields keeps all of them. -/
theorem fields_of_fetchField {v : Value} {xs : Array Value}
    (hcount : ∀ {n}, h.fieldCount v = .ok n → h'.fieldCount v = .ok n)
    (hkeep : ∀ i x, h.fetchField v i = .ok x → h'.fetchField v i = .ok x)
    (hxs : h.fields v = .ok xs) : h'.fields v = .ok xs := by
  obtain ⟨ys, hys, hsize⟩ := fieldCount_eq_ok.mp (hcount (fieldCount_eq_ok.mpr ⟨xs, hxs, rfl⟩))
  suffices hsame : ys = xs by rw [hys, hsame]
  refine Array.ext hsize fun i _ hi => ?_
  have hold : h.fetchField v i = .ok xs[i] :=
    fetchField_eq_ok.mpr ⟨xs, hxs, Array.getElem?_eq_getElem hi⟩
  obtain ⟨ys', hys', hget⟩ := fetchField_eq_ok.mp (hkeep i _ hold)
  cases hys.symm.trans hys'
  exact Array.getElem_eq_iff.mpr hget

/-! ## Transfers -/

/-- The elements of an array from a place on, in another array of the same size. -/
theorem getElem?_overwrite {xs ys : Array α} {start : Nat} (hfits : start + ys.size ≤ xs.size)
    (j : Nat) : (overwrite xs start ys)[j]? =
      if start ≤ j ∧ j < start + ys.size then ys[j - start]? else xs[j]? := by
  rw [overwrite, Array.getElem?_mapIdx]
  by_cases hin : start ≤ j ∧ j < start + ys.size
  · have hj : j < xs.size := Nat.lt_of_lt_of_le hin.2 hfits
    have hsub : j - start < ys.size := by omega
    rw [if_pos hin, Array.getElem?_eq_getElem hj, Array.getElem?_eq_getElem hsub]
    simp [hin.1]
  · rw [if_neg hin]
    cases hx : xs[j]? with
    | none => rfl
    | some x =>
        rw [Option.map_some]
        split
        · next hle =>
          have hnone : ys[j - start]? = none := Array.getElem?_eq_none (by omega)
          rw [hnone, Option.getD_none]
        · rfl

/-- `count` fields of `target` have become those of `source`. -/
structure Transferred (h : Heap) (source : Value) (i : Nat) (target : Value) (j count : Nat)
    (h' : Heap) : Prop where
  altered : Altered h target (fun n => j ≤ n ∧ n < j + count) h'
  fits : ∃ n, h.fieldCount target = .ok n ∧ j + count ≤ n
  moved : ∀ n < count, ∃ x, h.fetchField source (i + n) = .ok x ∧
    h'.fetchField target (j + n) = .ok x

theorem slice_eq_ok {xs ys : Array α} {start count : Nat} :
    slice xs start count = .ok ys ↔
      start + count ≤ xs.size ∧ ys = xs.extract start (start + count) := by
  unfold slice
  split
  · next hfits => simp [hfits, eq_comm]
  · next hnot => simp [hnot]

/-- Replacing part of the fields of an object. -/
theorem altered_overwrite (hsettled : h.Settled) {target : Value} {start count : Nat}
    {moved : Array Value} {u : Unit} (hsize : moved.size = count)
    (hrun : change target (fun h => do slice (← h.fields target) start count) (fun
      | ⟨header, .fields xs⟩ => ⟨header, .fields (overwrite xs start moved)⟩
      | o => o) h = .ok u h') :
    Altered h target (fun n => start ≤ n ∧ n < start + count) h' ∧
      (∃ n, h.fieldCount target = .ok n ∧ start + count ≤ n) ∧
      ∀ n < count, ∃ x, moved[n]? = some x ∧ h'.fetchField target (start + n) = .ok x := by
  obtain ⟨⟨ys, hcheck⟩, hupdate⟩ := change_eq_ok hrun
  obtain ⟨xs, hxs, hslice⟩ := reading_bind_eq_ok.mp hcheck
  obtain ⟨hfits, -⟩ := slice_eq_ok.mp hslice
  obtain ⟨a, ⟨header, body⟩, rfl, ho, rfl⟩ := fields_eq_ok.mp hxs
  have hafter : h'.Settled := by
    have hkeeps := keeps_settled_change (.object a)
      (fun h => do slice (← h.fields (.object a)) start count) (f := fun
        | ⟨header, .fields xs⟩ => ⟨header, .fields (overwrite xs start moved)⟩
        | o => o) fun ⟨_, body⟩ => by cases body <;> rfl
    have hafter := hkeeps h hsettled
    rwa [hrun] at hafter
  have hput : PutAt h a ⟨header, .fields (overwrite xs start moved)⟩ h' := by
    rw [hupdate a rfl]
    exact putAt_update ho _
  have hoverwrite := @getElem?_overwrite _ xs moved start (by rwa [hsize])
  refine ⟨altered_of_putAt hafter ho rfl (by simp [overwrite]) hput ?_,
    ⟨xs.size, fieldCount_eq_ok.mpr ⟨xs, hxs, rfl⟩, hfits⟩, ?_⟩
  · intro j hj
    rw [hoverwrite, if_neg (by rwa [hsize])]
  · intro n hn
    refine ⟨moved[n], Array.getElem?_eq_getElem (by rwa [hsize]),
      fetchField_eq_ok.mpr ⟨_, fields_eq_ok.mpr ⟨a, _, rfl, hput.resolve_self, rfl⟩, ?_⟩⟩
    rw [hoverwrite, if_pos ⟨Nat.le_add_right .., by omega⟩, Nat.add_sub_cancel_left]
    exact Array.getElem?_eq_getElem (by rwa [hsize])

theorem transferred_of_eq_ok (hsettled : h.Settled) {source target : Value} {i j count : Nat}
    {u : Unit} (hrun : transferFields source i target j count h = .ok u h') :
    Transferred h source i target j count h' := by
  obtain ⟨moved, hmoved, hchange⟩ := read_bind_eq_ok.mp hrun
  obtain ⟨xs, hxs, hslice⟩ := reading_bind_eq_ok.mp hmoved
  obtain ⟨hfits, rfl⟩ := slice_eq_ok.mp hslice
  have hsize : (xs.extract i (i + count)).size = count := by
    rw [Array.size_extract]
    omega
  obtain ⟨haltered, hroom, hread⟩ := altered_overwrite hsettled hsize hchange
  refine ⟨haltered, hroom, fun n hn => ?_⟩
  obtain ⟨x, hx, hfetch⟩ := hread n hn
  rw [Array.getElem?_extract, if_pos (by omega)] at hx
  exact ⟨x, fetchField_eq_ok.mpr ⟨xs, hxs, hx⟩, hfetch⟩

theorem heap_of_transfer_error {source target : Value} {i j count : Nat} {fault : HeapFault}
    (hrun : transferFields source i target j count h = .error fault h') : h' = h := by
  rcases error_of_bind hrun with hread | ⟨moved, t, hread, hchange⟩
  · exact heap_of_read_error hread
  · obtain ⟨-, rfl⟩ := read_eq_ok.mp hread
    exact heap_of_change_error hchange

/-! ## Growth -/

/-- Fields are as they were, and those of new objects are `fill`. -/
structure Extends (fill : Value) (h h' : Heap) : Prop where
  settled : h'.Settled
  types : ∀ u t, h.typeOf u = .ok t → h'.typeOf u = .ok t
  counts : ∀ u n, (∃ t, h.typeOf u = .ok t) → (h'.fieldCount u = .ok n ↔ h.fieldCount u = .ok n)
  fields : ∀ u i x, h.fetchField u i = .ok x → h'.fetchField u i = .ok x
  fresh : ∀ u i x, (∀ t, h.typeOf u ≠ .ok t) → h'.fetchField u i = .ok x → x = fill

namespace Extends

variable {fill : Value}

theorem refl (hsettled : h.Settled) : Extends fill h h :=
  ⟨hsettled, fun _ _ => id, fun _ _ _ => Iff.rfl, fun _ _ _ => id, fun _ _ _ hnew hx =>
    have ⟨t, ht⟩ := exists_typeOf_of_fetchField hx
    absurd ht (hnew t)⟩

/-- A new object, or one without fields that has changed into another such one. -/
theorem of_putAt (hsettled : h'.Settled) {a : Handle} {o : Object} (hput : PutAt h a o h')
    (hold : ∀ o', h.resolve a = .ok o' → o.header.type = o'.header.type ∧
      (∀ xs, o'.body ≠ .fields xs) ∧ ∀ xs, o.body ≠ .fields xs)
    (hblank : ∀ xs, o.body = .fields xs → ∀ x ∈ xs, x = fill) : Extends fill h h' := by
  have hne : ∀ {b o' xs}, h.resolve b = .ok o' → o'.body = .fields xs → b ≠ a := by
    rintro b o' xs ho' hbody rfl
    exact (hold o' ho').2.1 xs hbody
  have hkept : ∀ u xs, h.fields u = .ok xs → h'.fields u = .ok xs := by
    intro u xs hxs
    obtain ⟨b, o', rfl, ho', hbody⟩ := fields_eq_ok.mp hxs
    refine fields_eq_ok.mpr ⟨b, o', rfl, ?_, hbody⟩
    rw [hput.resolve_of_ne (hne ho' hbody), ho']
  have hback : ∀ u xs, (∃ t, h.typeOf u = .ok t) → h'.fields u = .ok xs → h.fields u = .ok xs := by
    rintro u xs ⟨t, ht⟩ hxs
    obtain ⟨b, o', rfl, ho', hbody⟩ := fields_eq_ok.mp hxs
    obtain ⟨c, o₁, hc, ho₁, -⟩ := typeOf_eq_ok.mp ht
    obtain rfl : b = c := Option.some.inj hc
    refine fields_eq_ok.mpr ⟨b, o', rfl, ?_, hbody⟩
    rwa [hput.resolve_of_ne] at ho'
    rintro rfl
    rw [hput.resolve_self] at ho'
    cases ho'
    exact (hold o₁ ho₁).2.2 xs hbody
  refine ⟨hsettled, ?_, ?_, ?_, ?_⟩
  · intro u t ht
    obtain ⟨b, o', hb, ho', rfl⟩ := typeOf_eq_ok.mp ht
    by_cases heq : b = a
    · subst heq
      exact typeOf_eq_ok.mpr ⟨b, o, hb, hput.resolve_self, (hold o' ho').1⟩
    · exact typeOf_eq_ok.mpr ⟨b, o', hb, by rw [hput.resolve_of_ne heq, ho'], rfl⟩
  · intro u n hexists
    simp only [fieldCount_eq_ok]
    exact exists_congr fun xs => and_congr_left fun _ => ⟨hback u xs hexists, hkept u xs⟩
  · intro u i x hx
    obtain ⟨xs, hxs, hget⟩ := fetchField_eq_ok.mp hx
    exact fetchField_eq_ok.mpr ⟨xs, hkept u xs hxs, hget⟩
  · intro u i x hnew hx
    obtain ⟨xs, hxs, hget⟩ := fetchField_eq_ok.mp hx
    obtain ⟨b, o', rfl, ho', hbody⟩ := fields_eq_ok.mp hxs
    by_cases heq : b = a
    · subst heq
      rw [hput.resolve_self] at ho'
      cases ho'
      exact hblank xs hbody x (Array.mem_of_getElem? hget)
    · rw [hput.resolve_of_ne heq] at ho'
      exact absurd (typeOf_eq_ok.mpr ⟨b, o', rfl, ho', rfl⟩) (hnew _)

theorem of_made {v type : Value} {count : Nat} (hmade : Made h v type count fill h') :
    Extends fill h h' := by
  refine ⟨hmade.settled, hmade.types, fun u n hu => ?_, fun u i x hx => ?_, fun u i x hnew hx => ?_⟩
  · rw [hmade.counts u (hmade.ne hu)]
  · exact (hmade.other u i x (hmade.ne (exists_typeOf_of_fetchField hx))).mpr hx
  · by_cases hu : u = v
    · subst hu
      exact ((hmade.self i x).mp hx).2
    · obtain ⟨t, ht⟩ := exists_typeOf_of_fetchField ((hmade.other u i x hu).mp hx)
      exact absurd ht (hnew t)

/-- A change of a body without fields. -/
theorem of_change (hsettled : h.Settled) {v : Value} {check : Heap → Except HeapFault α}
    {f : Object → Object} (hheader : ∀ o, (f o).header = o.header)
    (hcheck : ∀ c, check h = .ok c → ∃ a o, v.handle? = some a ∧ h.resolve a = .ok o ∧
      (∀ xs, o.body ≠ .fields xs) ∧ ∀ xs, (f o).body ≠ .fields xs) :
    Extends fill h (stateAfter (change v check f h)) := by
  have hafter : (stateAfter (change v check f h)).Settled :=
    keeps_settled_change v check (fun o => by rw [hheader]) h hsettled
  cases hrun : change v check f h with
  | error fault h' =>
      rw [heap_of_change_error hrun]
      exact .refl hsettled
  | ok u h' =>
      rw [hrun] at hafter
      obtain ⟨⟨c, hc⟩, hupdate⟩ := change_eq_ok hrun
      obtain ⟨a, o, ha, ho, hold, hnew⟩ := hcheck c hc
      have hput := putAt_update ho f
      rw [← hupdate a ha] at hput
      refine of_putAt hafter hput (fun o' ho' => ?_) fun xs hxs => absurd hxs (hnew xs)
      cases ho.symm.trans ho'
      exact ⟨congrArg _ (hheader o), hold, hnew⟩

theorem of_storeByte (hsettled : h.Settled) (v : Value) (i : Nat) (b : UInt8) :
    Extends fill h (stateAfter (storeByte v i b h)) := by
  refine of_change hsettled (fun ⟨_, body⟩ => by cases body <;> rfl) fun x hfetch => ?_
  obtain ⟨xs, hxs, -⟩ := reading_bind_eq_ok.mp hfetch
  obtain ⟨a, ⟨header, body⟩, rfl, ho, rfl⟩ := bytes_eq_ok.mp hxs
  exact ⟨a, _, rfl, ho, nofun, nofun⟩

theorem of_storeWord (hsettled : h.Settled) (v : Value) (i : Nat) (w : UInt64) :
    Extends fill h (stateAfter (storeWord v i w h)) := by
  refine of_change hsettled (fun ⟨_, body⟩ => by cases body <;> rfl) fun x hfetch => ?_
  obtain ⟨xs, hxs, -⟩ := reading_bind_eq_ok.mp hfetch
  obtain ⟨a, ⟨header, body⟩, rfl, ho, rfl⟩ := words_eq_ok.mp hxs
  exact ⟨a, _, rfl, ho, nofun, nofun⟩

/-- An allocation behind a check of its size. -/
theorem of_allocate (hsettled : h.Settled) {words : Nat} {space : Space} {o : Object}
    (hstate : o.header.state = .initial space)
    (hblank : ∀ xs, o.body = .fields xs → ∀ x ∈ xs, x = fill) (f : Handle → Value) :
    Extends fill h (stateAfter ((do
      Heap.read (·.checkSize words)
      return f (← Heap.allocate space o) : HeapM Value) h)) := by
  cases hrun : (do
      Heap.read (·.checkSize words)
      return f (← Heap.allocate space o) : HeapM Value) h with
  | error fault h' =>
      rw [heap_of_checked_error hrun]
      exact .refl hsettled
  | ok v h' =>
      obtain ⟨_, -, hrest⟩ := read_bind_eq_ok.mp hrun
      obtain ⟨a, t, hallocate, hv⟩ := bind_eq_ok.mp hrest
      obtain ⟨rfl, rfl⟩ := pure_eq_ok.mp hv
      have hafter := keeps_settled_allocate space hstate h hsettled
      rw [hallocate] at hafter
      obtain ⟨-, hstale, hput⟩ := allocate_eq_ok hsettled hallocate
      refine of_putAt hafter hput (fun o' ho' => ?_) hblank
      rw [hstale] at ho'
      cases ho'

end Extends

/-! ## New objects -/

/-- `v` is new, with `n` fields that `xs` lists, and all else is as it was. -/
structure Drafted (h : Heap) (v type : Value) (n : Nat) (xs : Nat → Value) (h' : Heap) : Prop where
  settled : h'.Settled
  stale : ∀ t, h.typeOf v ≠ .ok t
  type_eq : h'.typeOf v = .ok type
  count_eq : h'.fieldCount v = .ok n
  self : ∀ j x, h'.fetchField v j = .ok x ↔ j < n ∧ x = xs j
  types : ∀ u t, h.typeOf u = .ok t → h'.typeOf u = .ok t
  counts : ∀ u, u ≠ v → h'.fieldCount u = h.fieldCount u
  other : ∀ u j x, u ≠ v → (h'.fetchField u j = .ok x ↔ h.fetchField u j = .ok x)

theorem Made.drafted {v type fill : Value} {n : Nat} (hmade : Made h v type n fill h')
    (hpos : 0 < n) : Drafted h v type n (fun _ => fill) h' := by
  have hcount : h'.fieldCount v = .ok n := by
    obtain ⟨m, hm⟩ := exists_count_of_fetchField ((hmade.self 0 _).mpr ⟨hpos, rfl⟩)
    have hle : ¬m < n := by
      intro hlt
      exact absurd (lt_of_fetchField hm ((hmade.self m _).mpr ⟨hlt, rfl⟩)) (Nat.lt_irrefl m)
    have hge : ¬n < m := by
      intro hlt
      obtain ⟨x, hx⟩ := exists_fetchField hm hlt
      exact absurd ((hmade.self n x).mp hx).1 (Nat.lt_irrefl n)
    rw [hm, Nat.le_antisymm (Nat.le_of_not_lt hge) (Nat.le_of_not_lt hle)]
  exact ⟨hmade.settled, hmade.stale, hmade.type_eq, hcount, hmade.self, hmade.types, hmade.counts,
    hmade.other⟩

namespace Drafted

variable {v type : Value} {n : Nat} {xs : Nat → Value}

theorem ne (hd : Drafted h v type n xs h') {u : Value} (hexists : ∃ t, h.typeOf u = .ok t) :
    u ≠ v := by
  rintro rfl
  obtain ⟨t, ht⟩ := hexists
  exact hd.stale t ht

/-- Other objects have the fields that they had. -/
theorem fields_eq_ok (hd : Drafted h v type n xs h') {u : Value} (hu : u ≠ v) {zs : Array Value}
    (hzs : h.fields u = .ok zs) : h'.fields u = .ok zs :=
  fields_of_fetchField (hd.counts u hu).trans (fun i x => (hd.other u i x hu).mpr) hzs

/-- Fields of the new object are changed. -/
theorem altered (hd : Drafted h v type n xs h₁) {touched : Nat → Prop}
    (haltered : Altered h₁ v touched h₂) {ys : Nat → Value}
    (hsame : ∀ j, ¬touched j → ys j = xs j)
    (hnew : ∀ j, touched j → j < n → h₂.fetchField v j = .ok (ys j)) :
    Drafted h v type n ys h₂ := by
  refine ⟨haltered.settled, hd.stale, (haltered.types v).trans hd.type_eq,
    (haltered.counts v).trans hd.count_eq, ?_, fun u t ht => (haltered.types u).trans (hd.types u t ht),
    fun u hu => (haltered.counts u).trans (hd.counts u hu),
    fun u j x hu => (haltered.other u j x (.inl hu)).trans (hd.other u j x hu)⟩
  intro j x
  by_cases hj : touched j
  · constructor
    · intro hx
      have hlt := lt_of_fetchField ((haltered.counts v).trans hd.count_eq) hx
      exact ⟨hlt, Except.ok.inj (hx.symm.trans (hnew j hj hlt))⟩
    · rintro ⟨hlt, rfl⟩
      exact hnew j hj hlt
  · rw [haltered.other v j x (.inr hj), hd.self, hsame j hj]

theorem stored (hd : Drafted h v type n xs h₁) {i : Nat} {new : Value}
    (hstored : Stored h₁ v i new h₂) : Drafted h v type n (Function.update xs i new) h₂ := by
  refine hd.altered hstored.altered (fun j hj => Function.update_of_ne hj _ _) ?_
  rintro j rfl -
  rw [Function.update_self]
  exact hstored.self

/-- A store into a new object succeeds if there is such a field. -/
theorem exists_field (hd : Drafted h v type n xs h₁) {i : Nat} (hi : i < n) :
    h₁.fetchField v i = .ok (xs i) := (hd.self i _).mpr ⟨hi, rfl⟩

/-- Fields of another object are copied into the new one. -/
theorem transferred (hd : Drafted h v type n xs h₁) {source : Value} {i j count : Nat}
    (htransferred : Transferred h₁ source i v j count h₂) :
    ∃ ys, Drafted h v type n ys h₂ ∧ (∀ l, (l < j ∨ j + count ≤ l) → ys l = xs l) ∧
      j + count ≤ n ∧ ∀ l < count, h₁.fetchField source (i + l) = .ok (ys (j + l)) := by
  classical
  obtain ⟨m, hm, hfits⟩ := htransferred.fits
  cases hm.symm.trans hd.count_eq
  have hread : ∀ l, ∃ x, (l < count → h₁.fetchField source (i + l) = .ok x ∧
      h₂.fetchField v (j + l) = .ok x) := by
    intro l
    by_cases hl : l < count
    · obtain ⟨x, hx⟩ := htransferred.moved l hl
      exact ⟨x, fun _ => hx⟩
    · exact ⟨v, fun hlt => absurd hlt hl⟩
  choose moved hmoved using hread
  refine ⟨fun l => if j ≤ l ∧ l < j + count then moved (l - j) else xs l,
    hd.altered htransferred.altered (fun l hl => if_neg hl) ?_, ?_, hfits, ?_⟩
  · rintro l ⟨hle, hlt⟩ -
    rw [if_pos ⟨hle, hlt⟩]
    have hread := (hmoved (l - j) (by omega)).2
    rwa [Nat.add_sub_cancel' hle] at hread
  · intro l hl
    exact if_neg (by omega)
  · intro l hl
    dsimp only
    rw [if_pos ⟨Nat.le_add_right .., by omega⟩, Nat.add_sub_cancel_left]
    exact (hmoved l hl).1

end Drafted

end MessageMachine.Heap
