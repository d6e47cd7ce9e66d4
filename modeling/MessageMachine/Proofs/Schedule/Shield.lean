import MessageMachine.Machine.Basic
import MessageMachine.Proofs.Heap.Access

/-!
# What holds the queues

The queues of processes live in four sorts of object: semaphores, links, the processor, and the
table with its interrupt semaphores.  These are `Shielded`.  Everything else that code can reach may
be changed at will.

* `Open k h v`: the value exists and is not shielded.
* `Calm k h h'`: objects have kept their types and sizes, shielded ones also their first fields, and
  new semaphores and links are blank.  There is one exception.  A context that has been left gets nil
  for its instruction pointer, and code can have forged that context, so field 1 of a shielded object
  may have become nil.  In a semaphore this is the first link and in a link the next one: a queue can
  be cut, and what is behind the cut is lost.
-/

namespace MessageMachine

namespace Heap

variable {h h' : Heap}

theorem typeOf_eq_ok {v t : Value} :
    h.typeOf v = .ok t ↔ ∃ a o, v.handle? = some a ∧ h.resolve a = .ok o ∧ o.header.type = t := by
  simp only [typeOf, reading_bind_eq_ok, object_eq_ok, reading_pure_eq_ok]
  constructor
  · rintro ⟨o, ⟨a, ha, ho⟩, htype⟩
    exact ⟨a, o, ha, ho, htype⟩
  · rintro ⟨a, o, ha, ho, htype⟩
    exact ⟨o, ⟨a, ha, ho⟩, htype⟩

theorem fieldCount_eq_ok {v : Value} {n : Nat} :
    h.fieldCount v = .ok n ↔ ∃ xs, h.fields v = .ok xs ∧ xs.size = n := by
  simp only [fieldCount, reading_bind_eq_ok, reading_pure_eq_ok]

/-- What has fields has a type. -/
theorem exists_typeOf_of_fields {v : Value} {xs : Array Value} (hfields : h.fields v = .ok xs) :
    ∃ t, h.typeOf v = .ok t := by
  obtain ⟨a, o, rfl, ho, -⟩ := fields_eq_ok.mp hfields
  exact ⟨_, typeOf_eq_ok.mpr ⟨a, o, rfl, ho, rfl⟩⟩

theorem exists_typeOf_of_count {v : Value} {n : Nat} (hcount : h.fieldCount v = .ok n) :
    ∃ t, h.typeOf v = .ok t := by
  obtain ⟨xs, hxs, -⟩ := fieldCount_eq_ok.mp hcount
  exact exists_typeOf_of_fields hxs

theorem exists_typeOf_of_fetchField {v x : Value} {i : Nat} (hfetch : h.fetchField v i = .ok x) :
    ∃ t, h.typeOf v = .ok t := by
  obtain ⟨xs, hxs, -⟩ := fetchField_eq_ok.mp hfetch
  exact exists_typeOf_of_fields hxs

theorem lt_of_fetchField {v x : Value} {i n : Nat} (hcount : h.fieldCount v = .ok n)
    (hfetch : h.fetchField v i = .ok x) : i < n := by
  obtain ⟨xs, hxs, rfl⟩ := fieldCount_eq_ok.mp hcount
  obtain ⟨ys, hys, hx⟩ := fetchField_eq_ok.mp hfetch
  cases hxs.symm.trans hys
  exact (Array.getElem?_eq_some_iff.mp hx).1

theorem exists_count_of_fetchField {v x : Value} {i : Nat} (hfetch : h.fetchField v i = .ok x) :
    ∃ n, h.fieldCount v = .ok n := by
  obtain ⟨xs, hxs, -⟩ := fetchField_eq_ok.mp hfetch
  exact ⟨xs.size, fieldCount_eq_ok.mpr ⟨xs, hxs, rfl⟩⟩

theorem exists_fetchField {v : Value} {i n : Nat} (hcount : h.fieldCount v = .ok n) (hi : i < n) :
    ∃ x, h.fetchField v i = .ok x := by
  obtain ⟨xs, hxs, rfl⟩ := fieldCount_eq_ok.mp hcount
  exact ⟨xs[i], fetchField_eq_ok.mpr ⟨xs, hxs, Array.getElem?_eq_getElem hi⟩⟩

/-! ## Exact effects -/

theorem heap_of_read_error {f : Heap → Except HeapFault α} {fault : HeapFault}
    (hread : read f h = .error fault h') : h' = h := by
  unfold read at hread
  split at hread <;> cases hread
  rfl

theorem heap_of_change_error {v : Value} {check : Heap → Except HeapFault α} {f : Object → Object}
    {fault : HeapFault} (hchange : change v check f h = .error fault h') : h' = h := by
  unfold change at hchange
  split at hchange
  · cases hchange
    rfl
  · split at hchange <;> cases hchange

theorem heap_of_allocate_error {space : Space} {o : Object} {fault : HeapFault}
    (hallocate : allocate space o h = .error fault h') : h' = h := by
  unfold allocate at hallocate
  split at hallocate <;> cases hallocate
  rfl

/-- An allocation behind a check of its size that fails leaves the heap as it is. -/
theorem heap_of_checked_error {words : Nat} {space : Space} {o : Object} {f : Handle → Value}
    {fault : HeapFault} (hrun : (do
      Heap.read (·.checkSize words)
      return f (← Heap.allocate space o) : HeapM Value) h = .error fault h') : h' = h := by
  rw [bind_run] at hrun
  cases hread : read (·.checkSize words) h with
  | error fault' t =>
      rw [hread] at hrun
      cases hrun
      exact heap_of_read_error hread
  | ok u t =>
      obtain ⟨-, rfl⟩ := read_eq_ok.mp hread
      rw [hread] at hrun
      simp only [bind_run] at hrun
      cases hallocate : allocate space o t with
      | error fault' t' =>
          rw [hallocate] at hrun
          cases hrun
          exact heap_of_allocate_error hallocate
      | ok a t' =>
          rw [hallocate] at hrun
          cases hrun

/-- What a store does, as types and fields are read. -/
structure Stored (h : Heap) (v : Value) (i : Nat) (new : Value) (h' : Heap) : Prop where
  settled : h'.Settled
  types : ∀ u, h'.typeOf u = h.typeOf u
  counts : ∀ u, h'.fieldCount u = h.fieldCount u
  before : ∃ old, h.fetchField v i = .ok old
  self : h'.fetchField v i = .ok new
  other : ∀ u j x, (u ≠ v ∨ j ≠ i) → (h'.fetchField u j = .ok x ↔ h.fetchField u j = .ok x)

theorem typeOf_of_putAt {a : Handle} {o o' : Object} (hput : PutAt h a o' h')
    (ho : h.resolve a = .ok o) (htype : o'.header.type = o.header.type) (v : Value) :
    h'.typeOf v = h.typeOf v := by
  unfold Heap.typeOf Heap.object
  cases hhandle : v.handle with
  | error fault => rfl
  | ok b =>
      change (h'.resolve b >>= _) = (h.resolve b >>= _)
      by_cases hb : b = a
      · subst hb
        rw [hput.resolve_self, ho]
        simp only [bind, Except.bind, pure, Except.pure, htype]
      · rw [hput.resolve_of_ne hb]

theorem stored_of_eq_ok (hsettled : h.Settled) {v new : Value} {i : Nat} {u : Unit}
    (hstore : storeField v i new h = .ok u h') : Stored h v i new h' := by
  have hself := fetchField_storeField hstore
  obtain ⟨a, o, xs, rfl, ho, hbody, hi, hput⟩ := storeField_eq_ok hstore
  have hold : h.fields (.object a) = .ok xs := fields_eq_ok.mpr ⟨a, o, rfl, ho, hbody⟩
  have hnew : h'.fields (.object a) = .ok (xs.setIfInBounds i new) :=
    fields_eq_ok.mpr ⟨a, _, rfl, hput.resolve_self, rfl⟩
  refine ⟨settled_storeField hsettled hstore, typeOf_of_putAt hput ho rfl, ?_,
    ⟨xs[i], fetchField_eq_ok.mpr ⟨xs, hold, Array.getElem?_eq_getElem hi⟩⟩, hself, ?_⟩
  · intro w
    unfold fieldCount
    by_cases hw : w = .object a
    · subst hw
      rw [hold, hnew]
      simp only [bind, Except.bind, pure, Except.pure, Array.size_setIfInBounds]
    · rw [hput.fields_of_ne hw]
  intro w j x hother
  by_cases hw : w = .object a
  · subst hw
    have hj : i ≠ j := by
      rcases hother with hne | hne
      · exact absurd rfl hne
      · exact hne.symm
    simp only [fetchField_eq_ok, hold, hnew, Except.ok.injEq, exists_eq_left',
      Array.getElem?_setIfInBounds_ne hj]
  · simp only [fetchField_eq_ok, hput.fields_of_ne hw]

/-- A store into a field that is there succeeds. -/
theorem storeField_of_fetchField {v old : Value} {i : Nat} (hfetch : h.fetchField v i = .ok old)
    (new : Value) : ∃ h', storeField v i new h = .ok () h' := by
  obtain ⟨xs, hxs, -⟩ := fetchField_eq_ok.mp hfetch
  obtain ⟨a, o, rfl, -⟩ := fields_eq_ok.mp hxs
  refine ⟨h.update a (·.setField i new), ?_⟩
  simp [storeField, change, hfetch, Value.handle?]

/-- Stores into two fields commute. -/
theorem Stored.comm {h₁ h₂ : Heap} {v w x y : Value} {i j : Nat} (hsettled : h.Settled)
    (hfirst : Stored h v i x h₁) (hsecond : Stored h₁ w j y h₂) (hne : v ≠ w ∨ i ≠ j) :
    ∃ t, Stored h w j y t ∧ Stored t v i x h₂ := by
  have hne' : w ≠ v ∨ j ≠ i := hne.imp Ne.symm Ne.symm
  obtain ⟨old, hold⟩ := hsecond.before
  obtain ⟨old', hold'⟩ := hfirst.before
  obtain ⟨t, ht⟩ := storeField_of_fetchField ((hfirst.other w j old hne').mp hold) y
  have hother := stored_of_eq_ok hsettled ht
  refine ⟨t, hother, hsecond.settled, ?_, ?_, ⟨old', (hother.other v i old' hne).mpr hold'⟩,
    (hsecond.other v i x hne).mpr hfirst.self, ?_⟩
  · intro u
    rw [hsecond.types, hfirst.types, hother.types]
  · intro u
    rw [hsecond.counts, hfirst.counts, hother.counts]
  · intro u l z hu
    by_cases heq : u = w ∧ l = j
    · obtain ⟨rfl, rfl⟩ := heq
      rw [hsecond.self, hother.self]
    · have hw : u ≠ w ∨ l ≠ j := not_and_or.mp heq
      rw [hsecond.other u l z hw, hfirst.other u l z hu, hother.other u l z hw]

/-- What making an object does, as types and fields are read. -/
structure Made (h : Heap) (v type : Value) (count : Nat) (fill : Value) (h' : Heap) : Prop where
  settled : h'.Settled
  stale : ∀ t, h.typeOf v ≠ .ok t
  type_eq : h'.typeOf v = .ok type
  types : ∀ u t, h.typeOf u = .ok t → h'.typeOf u = .ok t
  counts : ∀ u, u ≠ v → h'.fieldCount u = h.fieldCount u
  types_new : ∀ u t, h'.typeOf u = .ok t → h.typeOf u = .ok t ∨ t = type
  self : ∀ j x, h'.fetchField v j = .ok x ↔ j < count ∧ x = fill
  other : ∀ u j x, u ≠ v → (h'.fetchField u j = .ok x ↔ h.fetchField u j = .ok x)

/-- A new object is none of those that existed. -/
theorem Made.ne {v type fill : Value} {count : Nat} (hmade : Made h v type count fill h')
    {u : Value} (hexists : ∃ t, h.typeOf u = .ok t) : u ≠ v := by
  rintro rfl
  obtain ⟨t, ht⟩ := hexists
  exact hmade.stale t ht

theorem made_of_eq_ok (hsettled : h.Settled) {space : Space} {type fill v : Value} {count : Nat}
    (hallocate : allocateFields space type count fill h = .ok v h') :
    Made h v type count fill h' := by
  have hafter := (fields_allocateFields hsettled hallocate).2.2.2
  obtain ⟨_, -, hrest⟩ := read_bind_eq_ok.mp hallocate
  obtain ⟨a, t, ha, hv⟩ := bind_eq_ok.mp hrest
  obtain ⟨rfl, rfl⟩ := pure_eq_ok.mp hv
  obtain ⟨-, hstale, hput⟩ := allocate_eq_ok hsettled ha
  have hself : t.fields (.object a) = .ok (Array.replicate count fill) :=
    fields_eq_ok.mpr ⟨a, _, rfl, hput.resolve_self, rfl⟩
  refine ⟨hafter, ?_, typeOf_eq_ok.mpr ⟨a, _, rfl, hput.resolve_self, rfl⟩, ?_, ?_, ?_, ?_, ?_⟩
  · intro t' htype
    obtain ⟨b, o, hb, ho, -⟩ := typeOf_eq_ok.mp htype
    cases hb
    rw [hstale] at ho
    cases ho
  · intro u t' htype
    obtain ⟨b, o, hb, ho, rfl⟩ := typeOf_eq_ok.mp htype
    refine typeOf_eq_ok.mpr ⟨b, o, hb, ?_, rfl⟩
    rw [hput.resolve_of_ne, ho]
    rintro rfl
    rw [hstale] at ho
    cases ho
  · intro u hu
    unfold fieldCount
    rw [hput.fields_of_ne hu]
  · intro u t' htype
    obtain ⟨b, o, hb, ho, rfl⟩ := typeOf_eq_ok.mp htype
    by_cases heq : b = a
    · subst heq
      rw [hput.resolve_self] at ho
      cases ho
      exact .inr rfl
    · rw [hput.resolve_of_ne heq] at ho
      exact .inl (typeOf_eq_ok.mpr ⟨b, o, hb, ho, rfl⟩)
  · intro j x
    simp only [fetchField_eq_ok, hself, Except.ok.injEq, exists_eq_left',
      Array.getElem?_replicate, Option.ite_none_right_eq_some, Option.some.injEq]
    rw [eq_comm (a := fill)]
  · intro u j x hu
    simp only [fetchField_eq_ok, hput.fields_of_ne hu]

end Heap

variable {k : Landmarks} {h h' : Heap}

/-! ## Shielded objects -/

/-- A semaphore or a link. -/
def Queueing (k : Landmarks) (h : Heap) (v : Value) : Prop :=
  h.typeOf v = .ok (k .semaphore) ∨ h.typeOf v = .ok (k .link)

/-- A semaphore, a link, the processor or its interrupt table. -/
def Shielded (k : Landmarks) (h : Heap) (v : Value) : Prop :=
  v ≠ k .nil ∧ (Queueing k h v ∨ v = k .processor ∨
    h.fetchField (k .processor) Slot.interruptTable = .ok v)

/-- The value exists and is not shielded. -/
def Open (k : Landmarks) (h : Heap) (v : Value) : Prop :=
  (∃ t, h.typeOf v = .ok t) ∧ ¬Shielded k h v

/-- How many fields of a shielded object count; a temporary of a context has a later one. -/
abbrev watched : Nat := Slot.contextTail

/-- A change that leaves the queues alone, up to cuts. -/
structure Calm (k : Landmarks) (h h' : Heap) : Prop where
  settled : h'.Settled
  types : ∀ v t, h.typeOf v = .ok t → h'.typeOf v = .ok t
  sizes : ∀ v n, (∃ t, h.typeOf v = .ok t) → (h'.fieldCount v = .ok n ↔ h.fieldCount v = .ok n)
  fields : ∀ v i x, Shielded k h v → i < watched → h.fetchField v i = .ok x →
    h'.fetchField v i = .ok x ∨ i = 1 ∧ h'.fetchField v i = .ok (k .nil)
  fresh : ∀ v i x, (∀ t, h.typeOf v ≠ .ok t) → Queueing k h' v → h'.fetchField v i = .ok x →
    x = k .nil

theorem Calm.refl (hsettled : h.Settled) : Calm k h h := by
  refine ⟨hsettled, fun _ _ => id, fun _ _ _ => Iff.rfl, fun _ _ _ _ _ => .inl, ?_⟩
  intro v i x hnew htype
  rcases htype with htype | htype
  · exact absurd htype (hnew _)
  · exact absurd htype (hnew _)

theorem Calm.type_of_exists (hcalm : Calm k h h') {v t : Value} (hold : ∃ t, h.typeOf v = .ok t)
    (htype : h'.typeOf v = .ok t) : h.typeOf v = .ok t := by
  obtain ⟨t', ht'⟩ := hold
  rw [ht', ← htype, hcalm.types v t' ht']

/-- Types do not change, so semaphores and links that existed are those from before. -/
theorem Calm.queueing_of_exists (hcalm : Calm k h h') {v : Value} (hold : ∃ t, h.typeOf v = .ok t)
    (hqueueing : Queueing k h' v) : Queueing k h v := by
  obtain ⟨t, ht⟩ := hold
  have ht' := hcalm.types v t ht
  unfold Queueing at hqueueing ⊢
  rw [ht'] at hqueueing
  rw [ht]
  exact hqueueing

/-! ## Changing one object -/

/-- What may become of the fields of an object in a calm change, when the object is shielded. -/
def Allowed (k : Landmarks) (xs xs' : Array Value) : Prop :=
  ∀ i x, i < watched → xs[i]? = some x → xs'[i]? = some x ∨ i = 1 ∧ xs'[i]? = some (k .nil)

/-- How a calm change can leave the body of the object at a handle. -/
def Body.Follows (k : Landmarks) (h : Heap) (a : Handle) (body body' : Body) : Prop :=
  (∃ xs xs', body = .fields xs ∧ body' = .fields xs' ∧ xs'.size = xs.size ∧
    (Shielded k h (.object a) → Allowed k xs xs')) ∨
  (∀ xs, body ≠ .fields xs) ∧ ∀ xs, body' ≠ .fields xs

theorem calm_of_putAt {a : Handle} {o o' : Object} (hsettled : h'.Settled)
    (ho : h.resolve a = .ok o) (hput : Heap.PutAt h a o' h')
    (htype : o'.header.type = o.header.type) (hbody : Body.Follows k h a o.body o'.body) :
    Calm k h h' := by
  have htypes := Heap.typeOf_of_putAt hput ho htype
  have hold : ∀ xs, h.fields (.object a) = .ok xs ↔ o.body = .fields xs := by
    intro xs
    rw [Heap.fields_eq_ok]
    constructor
    · rintro ⟨b, o₁, hb, ho₁, hbody₁⟩
      cases hb
      cases ho.symm.trans ho₁
      exact hbody₁
    · exact fun hxs => ⟨a, o, rfl, ho, hxs⟩
  have hnew : ∀ xs, h'.fields (.object a) = .ok xs ↔ o'.body = .fields xs := by
    intro xs
    rw [Heap.fields_eq_ok]
    constructor
    · rintro ⟨b, o₁, hb, ho₁, hbody₁⟩
      cases hb
      cases hput.resolve_self.symm.trans ho₁
      exact hbody₁
    · exact fun hxs => ⟨a, o', rfl, hput.resolve_self, hxs⟩
  refine ⟨hsettled, fun v t => ?_, ?_, ?_, ?_⟩
  · rw [htypes v]
    exact id
  · intro v n _
    simp only [Heap.fieldCount_eq_ok]
    by_cases hv : v = .object a
    · subst hv
      simp only [hold, hnew]
      rcases hbody with ⟨xs, xs', hxs, hxs', hsize, -⟩ | ⟨hxs, hxs'⟩
      · simp only [hxs, hxs', Body.fields.injEq, exists_eq_left', hsize]
      · simp only [hxs, hxs', false_and, exists_const]
    · rw [hput.fields_of_ne hv]
  · intro v i x hshielded hi hfetch
    obtain ⟨ys, hys, hx⟩ := Heap.fetchField_eq_ok.mp hfetch
    by_cases hv : v = .object a
    · subst hv
      rcases hbody with ⟨xs, xs', hxs, hxs', -, hallowed⟩ | ⟨hnone, -⟩
      · cases hxs.symm.trans ((hold ys).mp hys)
        have hself := (hnew xs').mpr hxs'
        rcases hallowed hshielded i x hi hx with hsame | ⟨hone, hnil⟩
        · exact .inl (Heap.fetchField_eq_ok.mpr ⟨xs', hself, hsame⟩)
        · exact .inr ⟨hone, Heap.fetchField_eq_ok.mpr ⟨xs', hself, hnil⟩⟩
      · exact absurd ((hold ys).mp hys) (hnone ys)
    · exact .inl (Heap.fetchField_eq_ok.mpr ⟨ys, by rw [hput.fields_of_ne hv, hys], hx⟩)
  · intro v i x hunknown hqueueing
    unfold Queueing at hqueueing
    rw [htypes v] at hqueueing
    rcases hqueueing with htype | htype
    · exact absurd htype (hunknown _)
    · exact absurd htype (hunknown _)

/-- Putting a new object without fields other than nil is calm. -/
theorem calm_of_new {a : Handle} {o : Object} (hsettled : h'.Settled)
    (hstale : h.resolve a = .error (.staleHandle a)) (hput : Heap.PutAt h a o h')
    (hblank : ∀ xs, o.body = .fields xs → ∀ x ∈ xs, x = k .nil) : Calm k h h' := by
  have hold : ∀ b o', h.resolve b = .ok o' → h'.resolve b = .ok o' := by
    intro b o' ho'
    rw [hput.resolve_of_ne, ho']
    rintro rfl
    rw [hstale] at ho'
    cases ho'
  have hkept : ∀ v xs, h.fields v = .ok xs → h'.fields v = .ok xs := by
    intro v xs hxs
    obtain ⟨b, o', rfl, ho', hbody⟩ := Heap.fields_eq_ok.mp hxs
    exact Heap.fields_eq_ok.mpr ⟨b, o', rfl, hold b o' ho', hbody⟩
  refine ⟨hsettled, ?_, ?_, ?_, ?_⟩
  · intro v t htype
    obtain ⟨b, o', hb, ho', rfl⟩ := Heap.typeOf_eq_ok.mp htype
    exact Heap.typeOf_eq_ok.mpr ⟨b, o', hb, hold b o' ho', rfl⟩
  · intro v n hexists
    obtain ⟨t, ht⟩ := hexists
    obtain ⟨b, o', hb, ho', -⟩ := Heap.typeOf_eq_ok.mp ht
    simp only [Heap.fieldCount_eq_ok]
    rw [hput.fields_of_ne]
    rintro rfl
    cases hb
    rw [hstale] at ho'
    cases ho'
  · intro v i x _ _ hfetch
    obtain ⟨xs, hxs, hx⟩ := Heap.fetchField_eq_ok.mp hfetch
    exact .inl (Heap.fetchField_eq_ok.mpr ⟨xs, hkept v xs hxs, hx⟩)
  · intro v i x hnew _ hfetch
    obtain ⟨xs, hxs, hx⟩ := Heap.fetchField_eq_ok.mp hfetch
    obtain ⟨b, o', rfl, ho', hbody⟩ := Heap.fields_eq_ok.mp hxs
    by_cases hb : b = a
    · subst hb
      rw [hput.resolve_self] at ho'
      cases ho'
      exact hblank xs hbody x (Array.mem_of_getElem? hx)
    · rw [hput.resolve_of_ne hb] at ho'
      exact absurd (Heap.typeOf_eq_ok.mpr ⟨b, o', rfl, ho', rfl⟩) (hnew _)

/-- A store into an open object is calm. -/
theorem Heap.Stored.calm {v new : Value} {i : Nat} (hstored : Heap.Stored h v i new h')
    (hopen : Open k h v) : Calm k h h' := by
  refine ⟨hstored.settled, ?_, fun u n _ => by rw [hstored.counts], ?_, ?_⟩
  · intro u t hu
    rw [hstored.types, hu]
  · intro u j x hshielded _ hx
    refine .inl ((hstored.other u j x (.inl ?_)).mpr hx)
    rintro rfl
    exact hopen.2 hshielded
  · intro u j x hnew hqueueing
    unfold Queueing at hqueueing
    rw [hstored.types] at hqueueing
    rcases hqueueing with htype | htype
    · exact absurd htype (hnew _)
    · exact absurd htype (hnew _)

/-- Making an object with all fields nil is calm. -/
theorem Heap.Made.calm {v type : Value} {count : Nat}
    (hmade : Heap.Made h v type count (k .nil) h') : Calm k h h' := by
  refine ⟨hmade.settled, hmade.types, ?_, ?_, ?_⟩
  · intro u n hu
    rw [hmade.counts u (hmade.ne hu)]
  · intro u j x _ _ hx
    exact .inl ((hmade.other u j x (hmade.ne (Heap.exists_typeOf_of_fetchField hx))).mpr hx)
  · intro u j x hnew _ hx
    by_cases hu : u = v
    · subst hu
      exact ((hmade.self j x).mp hx).2
    · obtain ⟨t, ht⟩ := Heap.exists_typeOf_of_fetchField ((hmade.other u j x hu).mp hx)
      exact absurd ht (hnew t)

/-! ## The operations of the heap -/

/-- A change of a body that has been checked to be there. -/
theorem calm_change {v : Value} {check : Heap → Except HeapFault α} {f : Object → Object}
    (hsettled : h.Settled) (hheader : ∀ o, (f o).header = o.header)
    (hcheck : ∀ c, check h = .ok c → ∃ a o, v.handle? = some a ∧ h.resolve a = .ok o ∧
      Body.Follows k h a o.body (f o).body) :
    Calm k h (stateAfter (Heap.change v check f h)) := by
  have hafter : (stateAfter (Heap.change v check f h)).Settled :=
    Heap.keeps_settled_change v check (fun o => by rw [hheader]) h hsettled
  cases hrun : Heap.change v check f h with
  | error fault h' =>
      rw [Heap.heap_of_change_error hrun]
      exact Calm.refl hsettled
  | ok u h' =>
      rw [hrun] at hafter
      obtain ⟨⟨c, hc⟩, hupdate⟩ := Heap.change_eq_ok hrun
      obtain ⟨a, o, ha, ho, hfields⟩ := hcheck c hc
      have hput := Heap.putAt_update ho f
      rw [← hupdate a ha] at hput
      exact calm_of_putAt hafter ho hput (by rw [hheader]) hfields

theorem calm_storeField (hsettled : h.Settled) {v new : Value} {i : Nat}
    (hallowed : Open k h v ∨ watched ≤ i ∨ i = 1 ∧ new = k .nil) :
    Calm k h (stateAfter (Heap.storeField v i new h)) := by
  refine calm_change hsettled (fun ⟨_, body⟩ => by cases body <;> rfl) ?_
  intro x hfetch
  obtain ⟨xs, hxs, hx⟩ := Heap.fetchField_eq_ok.mp hfetch
  obtain ⟨a, ⟨header, body⟩, rfl, ho, rfl⟩ := Heap.fields_eq_ok.mp hxs
  refine ⟨a, _, rfl, ho, .inl ⟨xs, xs.setIfInBounds i new, rfl, rfl, Array.size_setIfInBounds, ?_⟩⟩
  intro hshielded j y hj hy
  rcases hallowed with hopen | hlate | ⟨rfl, rfl⟩
  · exact absurd hshielded hopen.2
  · rw [Array.getElem?_setIfInBounds_ne (by omega), hy]
    exact .inl rfl
  · by_cases hone : j = 1
    · subst hone
      exact .inr ⟨rfl, Array.getElem?_setIfInBounds_self_of_lt (Array.getElem?_eq_some_iff.mp hx).1⟩
    · rw [Array.getElem?_setIfInBounds_ne (Ne.symm hone), hy]
      exact .inl rfl

theorem calm_transferFields (hsettled : h.Settled) {source target : Value}
    {sourceStart targetStart count : Nat} (hopen : Open k h target) :
    Calm k h (stateAfter
      (Heap.transferFields source sourceStart target targetStart count h)) := by
  unfold Heap.transferFields
  rw [bind_run]
  cases hread : Heap.read (fun h => do Heap.slice (← h.fields source) sourceStart count) h with
  | error fault h' =>
      rw [Heap.heap_of_read_error hread]
      exact Calm.refl hsettled
  | ok moved h' =>
      obtain ⟨-, rfl⟩ := Heap.read_eq_ok.mp hread
      refine calm_change hsettled (fun ⟨_, body⟩ => by cases body <;> rfl) ?_
      intro ys hcheck
      obtain ⟨xs, hxs, -⟩ := reading_bind_eq_ok.mp hcheck
      obtain ⟨a, ⟨header, body⟩, rfl, ho, rfl⟩ := Heap.fields_eq_ok.mp hxs
      exact ⟨a, _, rfl, ho, .inl ⟨xs, _, rfl, rfl, by simp [Heap.overwrite],
        fun hshielded => absurd hshielded hopen.2⟩⟩

theorem calm_storeByte (hsettled : h.Settled) {v : Value} {i : Nat} {b : UInt8} :
    Calm k h (stateAfter (Heap.storeByte v i b h)) := by
  refine calm_change hsettled (fun ⟨_, body⟩ => by cases body <;> rfl) ?_
  intro x hfetch
  obtain ⟨xs, hxs, -⟩ := reading_bind_eq_ok.mp hfetch
  obtain ⟨a, ⟨header, body⟩, rfl, ho, rfl⟩ := Heap.bytes_eq_ok.mp hxs
  exact ⟨a, _, rfl, ho, .inr ⟨nofun, nofun⟩⟩

theorem calm_storeWord (hsettled : h.Settled) {v : Value} {i : Nat} {w : UInt64} :
    Calm k h (stateAfter (Heap.storeWord v i w h)) := by
  refine calm_change hsettled (fun ⟨_, body⟩ => by cases body <;> rfl) ?_
  intro x hfetch
  obtain ⟨xs, hxs, -⟩ := reading_bind_eq_ok.mp hfetch
  obtain ⟨a, ⟨header, body⟩, rfl, ho, rfl⟩ := Heap.words_eq_ok.mp hxs
  exact ⟨a, _, rfl, ho, .inr ⟨nofun, nofun⟩⟩

/-- An allocation behind a check of its size, of an object without fields other than nil. -/
theorem calm_allocate (hsettled : h.Settled) {words : Nat} {space : Space} {o : Object}
    (hstate : o.header.state = .initial space)
    (hblank : ∀ xs, o.body = .fields xs → ∀ x ∈ xs, x = k .nil) (f : Handle → Value) :
    Calm k h (stateAfter ((do
      Heap.read (·.checkSize words)
      return f (← Heap.allocate space o) : HeapM Value) h)) := by
  cases hrun : (do
      Heap.read (·.checkSize words)
      return f (← Heap.allocate space o) : HeapM Value) h with
  | error fault h' =>
      rw [Heap.heap_of_checked_error hrun]
      exact Calm.refl hsettled
  | ok v h' =>
      obtain ⟨_, -, hrest⟩ := Heap.read_bind_eq_ok.mp hrun
      obtain ⟨a, t, hallocate, hv⟩ := bind_eq_ok.mp hrest
      obtain ⟨rfl, rfl⟩ := pure_eq_ok.mp hv
      have hafter := Heap.keeps_settled_allocate space hstate h hsettled
      rw [hallocate] at hafter
      obtain ⟨-, hstale, hput⟩ := Heap.allocate_eq_ok hsettled hallocate
      exact calm_of_new hafter hstale hput hblank

/-! ## The objects of the scheduler -/

/-- The types that the machine gives to objects of its own which hold no queue. -/
def plainTypes : List Landmark := [.array, .methodContext, .blockContext, .process]

/-- What is true of the shielded objects at all times, apart from the queues themselves.  A value
that can be loaded as a context has a method in a field where shielded objects have nil, or no field
at all, so it is open (`open_of_loadContext`). -/
structure Furnished (k : Landmarks) (h : Heap) : Prop where
  settled : h.Settled
  nil_empty : h.fieldCount (k .nil) = .ok 0
  processor_size : h.fieldCount (k .processor) = .ok Slot.processorSize
  processor_plain : ¬Queueing k h (k .processor)
  processor_type : h.typeOf (k .processor) ≠ .ok (k .process)
  nil_type : h.typeOf (k .nil) ≠ .ok (k .process)
  link_ne : k .link ≠ k .semaphore
  plain : ∀ l ∈ plainTypes, k l ≠ k .semaphore ∧ k l ≠ k .link
  blank : ∀ v i x, Queueing k h v → Slot.semaphoreSize ≤ i → i < watched →
    h.fetchField v i = .ok x → x = k .nil
  table : ∀ t, h.fetchField (k .processor) Slot.interruptTable = .ok t → t ≠ k .nil →
    h.fieldCount t = .ok Slot.interruptTableSize ∧ t ≠ k .processor ∧ ¬Queueing k h t ∧
      h.typeOf t ≠ .ok (k .process) ∧ ∀ i s, h.fetchField t i = .ok s → s ≠ k .nil →
        h.typeOf s = .ok (k .semaphore)

/-- The fields that hold queues and the active process. -/
def QueueSlot (k : Landmarks) (h : Heap) (v : Value) (i : Nat) : Prop :=
  Queueing k h v ∧ i < Slot.semaphoreSize ∨ v = k .processor ∧ i ≠ Slot.interruptTable

namespace Furnished

theorem nil_fetchField (hf : Furnished k h) (i : Nat) (x : Value) :
    h.fetchField (k .nil) i ≠ .ok x := by
  intro hfetch
  exact absurd (Heap.lt_of_fetchField hf.nil_empty hfetch) (Nat.not_lt_zero i)

theorem processor_ne_nil (hf : Furnished k h) : k .processor ≠ k .nil := by
  intro heq
  have hsize := hf.processor_size
  rw [heq, hf.nil_empty] at hsize
  cases hsize

theorem shielded_processor (hf : Furnished k h) : Shielded k h (k .processor) :=
  ⟨hf.processor_ne_nil, .inr (.inl rfl)⟩

/-- Nil is open. -/
theorem open_nil (hf : Furnished k h) : Open k h (k .nil) :=
  ⟨Heap.exists_typeOf_of_count hf.nil_empty, fun hshielded => hshielded.1 rfl⟩

end Furnished

theorem Calm.size (hcalm : Calm k h h') {v : Value} {n : Nat} (hcount : h.fieldCount v = .ok n) :
    h'.fieldCount v = .ok n :=
  (hcalm.sizes v n (Heap.exists_typeOf_of_count hcount)).mpr hcount

/-- Processes are open. -/
theorem Furnished.open_process (hf : Furnished k h) {p : Value}
    (hp : h.typeOf p = .ok (k .process)) : Open k h p := by
  refine ⟨⟨_, hp⟩, ?_⟩
  have hplain := hf.plain .process (by simp [plainTypes])
  rintro ⟨hnil, (htype | htype) | rfl | htable⟩
  · exact hplain.1 (Except.ok.inj (hp.symm.trans htype))
  · exact hplain.2 (Except.ok.inj (hp.symm.trans htype))
  · exact hf.processor_type hp
  · exact (hf.table p htable hnil).2.2.2.1 hp

/-- A watched field of a shielded object after a calm change. -/
theorem Calm.fetchField_back (hcalm : Calm k h h') {v x : Value} {i : Nat}
    (hshielded : Shielded k h v) (hexists : ∃ t, h.typeOf v = .ok t) (hi : i < watched)
    (hfetch : h'.fetchField v i = .ok x) :
    h.fetchField v i = .ok x ∨ i = 1 ∧ x = k .nil := by
  obtain ⟨n, hn⟩ := Heap.exists_count_of_fetchField hfetch
  obtain ⟨y, hy⟩ := Heap.exists_fetchField ((hcalm.sizes v n hexists).mp hn)
    (Heap.lt_of_fetchField hn hfetch)
  rcases hcalm.fields v i y hshielded hi hy with hsame | ⟨hone, hnil⟩
  · rw [hfetch] at hsame
    cases hsame
    exact .inl hy
  · rw [hfetch] at hnil
    cases hnil
    exact .inr ⟨hone, rfl⟩

theorem Open.calm (hf : Furnished k h) (hcalm : Calm k h h') {v : Value} (hopen : Open k h v) :
    Open k h' v := by
  obtain ⟨⟨t, ht⟩, hnot⟩ := hopen
  refine ⟨⟨t, hcalm.types v t ht⟩, ?_⟩
  rintro ⟨hnil, hqueueing | hprocessor | htable⟩
  · exact hnot ⟨hnil, .inl (hcalm.queueing_of_exists ⟨t, ht⟩ hqueueing)⟩
  · exact hnot ⟨hnil, .inr (.inl hprocessor)⟩
  · rcases hcalm.fetchField_back hf.shielded_processor
      (Heap.exists_typeOf_of_count hf.processor_size) (by decide) htable with
      hold | ⟨-, heq⟩
    · exact hnot ⟨hnil, .inr (.inr hold)⟩
    · exact hnil heq

theorem Open.stored (hf : Furnished k h) {v new : Value} {i : Nat}
    (hstored : Heap.Stored h v i new h') (hslot : QueueSlot k h v i) {u : Value}
    (hopen : Open k h u) : Open k h' u := by
  obtain ⟨⟨t, ht⟩, hnot⟩ := hopen
  refine ⟨⟨t, by rw [hstored.types u, ht]⟩, ?_⟩
  rintro ⟨hnil, hshielded⟩
  refine hnot ⟨hnil, ?_⟩
  unfold Queueing at hshielded ⊢
  rw [hstored.types u] at hshielded
  refine hshielded.imp_right (Or.imp_right fun htable => ?_)
  refine (hstored.other _ _ _ ?_).mp htable
  rcases hslot with ⟨hqueueing, -⟩ | ⟨-, hi⟩
  · left
    rintro rfl
    exact hf.processor_plain hqueueing
  · exact .inr (Ne.symm hi)

theorem Open.made (hf : Furnished k h) {v type fill : Value} {count : Nat}
    (hmade : Heap.Made h v type count fill h') {u : Value} (hopen : Open k h u) : Open k h' u := by
  obtain ⟨⟨t, ht⟩, hnot⟩ := hopen
  refine ⟨⟨t, hmade.types u t ht⟩, ?_⟩
  rintro ⟨hnil, hqueueing | hprocessor | htable⟩
  · unfold Queueing at hqueueing
    rw [hmade.types u t ht] at hqueueing
    exact hnot ⟨hnil, .inl (by unfold Queueing; rwa [ht])⟩
  · exact hnot ⟨hnil, .inr (.inl hprocessor)⟩
  · refine hnot ⟨hnil, .inr (.inr ((hmade.other _ _ _ ?_).mp htable))⟩
    exact hmade.ne (Heap.exists_typeOf_of_count hf.processor_size)

/-- A new object of a type without queues is open. -/
theorem Heap.Made.open (hf : Furnished k h) {v type fill : Value} {count : Nat}
    (hmade : Heap.Made h v type count fill h') (hsemaphore : type ≠ k .semaphore)
    (hlink : type ≠ k .link) : Open k h' v := by
  refine ⟨⟨type, hmade.type_eq⟩, ?_⟩
  rintro ⟨hnil, hqueueing | hprocessor | htable⟩
  · unfold Queueing at hqueueing
    rw [hmade.type_eq] at hqueueing
    rcases hqueueing with heq | heq
    · exact hsemaphore (Except.ok.inj heq)
    · exact hlink (Except.ok.inj heq)
  · exact hmade.ne (Heap.exists_typeOf_of_count hf.processor_size) hprocessor.symm
  · have hne := hmade.ne (Heap.exists_typeOf_of_count hf.processor_size)
    have hold := (hmade.other _ _ _ hne).mp htable
    exact hmade.ne (Heap.exists_typeOf_of_count (hf.table v hold hnil).1) rfl

namespace Furnished

theorem calm (hf : Furnished k h) (hcalm : Calm k h h') : Furnished k h' where
  settled := hcalm.settled
  nil_empty := hcalm.size hf.nil_empty
  processor_size := hcalm.size hf.processor_size
  processor_plain hqueueing :=
    hf.processor_plain
      (hcalm.queueing_of_exists (Heap.exists_typeOf_of_count hf.processor_size) hqueueing)
  processor_type htype :=
    hf.processor_type (hcalm.type_of_exists (Heap.exists_typeOf_of_count hf.processor_size) htype)
  nil_type htype :=
    hf.nil_type (hcalm.type_of_exists (Heap.exists_typeOf_of_count hf.nil_empty) htype)
  link_ne := hf.link_ne
  plain := hf.plain
  blank := by
    intro v i x hqueueing hlow hi hfetch
    by_cases hold : ∃ t, h.typeOf v = .ok t
    · have hqueueing' := hcalm.queueing_of_exists hold hqueueing
      have hnil : v ≠ k .nil := by
        rintro rfl
        exact absurd (Heap.lt_of_fetchField (hcalm.size hf.nil_empty) hfetch) (Nat.not_lt_zero i)
      rcases hcalm.fetchField_back ⟨hnil, .inl hqueueing'⟩ hold hi hfetch with hsame | ⟨-, hx⟩
      · exact hf.blank v i x hqueueing' hlow hi hsame
      · exact hx
    · exact hcalm.fresh v i x (fun t ht => hold ⟨t, ht⟩) hqueueing hfetch
  table := by
    intro t htable hnil
    have hold : h.fetchField (k .processor) Slot.interruptTable = .ok t := by
      rcases hcalm.fetchField_back hf.shielded_processor
        (Heap.exists_typeOf_of_count hf.processor_size) (by decide) htable with hold | ⟨-, heq⟩
      · exact hold
      · exact absurd heq hnil
    obtain ⟨hsize, hne, hplain, hprocess, hentries⟩ := hf.table t hold hnil
    have hexists := Heap.exists_typeOf_of_count hsize
    refine ⟨hcalm.size hsize, hne, fun hq => hplain (hcalm.queueing_of_exists hexists hq),
      fun htype => hprocess (hcalm.type_of_exists hexists htype), ?_⟩
    intro i s hfetch hs
    have hi : i < watched :=
      Nat.lt_trans (Heap.lt_of_fetchField (hcalm.size hsize) hfetch) (by decide)
    rcases hcalm.fetchField_back ⟨hnil, .inr (.inr hold)⟩ hexists hi hfetch with hsame | ⟨-, heq⟩
    · exact hcalm.types s _ (hentries i s hsame hs)
    · exact absurd heq hs

theorem stored (hf : Furnished k h) {v new : Value} {i : Nat}
    (hstored : Heap.Stored h v i new h') (hslot : QueueSlot k h v i) : Furnished k h' := by
  have hqueueing : ∀ u, Queueing k h' u → Queueing k h u := by
    intro u hu
    unfold Queueing at hu
    rwa [hstored.types u] at hu
  refine ⟨hstored.settled, (hstored.counts _).trans hf.nil_empty,
    (hstored.counts _).trans hf.processor_size, fun hq => hf.processor_plain (hqueueing _ hq),
    fun ht => hf.processor_type ((hstored.types _).symm.trans ht),
    fun ht => hf.nil_type ((hstored.types _).symm.trans ht), hf.link_ne, hf.plain, ?_, ?_⟩
  · intro u j x hu hlow hj hfetch
    refine hf.blank u j x (hqueueing u hu) hlow hj ((hstored.other u j x ?_).mp hfetch)
    rcases hslot with ⟨-, hi⟩ | ⟨rfl, -⟩
    · right
      omega
    · left
      rintro rfl
      exact hf.processor_plain (hqueueing _ hu)
  · intro t htable hnil
    have hold : h.fetchField (k .processor) Slot.interruptTable = .ok t := by
      refine (hstored.other _ _ _ ?_).mp htable
      rcases hslot with ⟨hv, -⟩ | ⟨-, hi⟩
      · left
        rintro rfl
        exact hf.processor_plain hv
      · exact .inr (Ne.symm hi)
    obtain ⟨hsize, hne, hplain, hprocess, hentries⟩ := hf.table t hold hnil
    refine ⟨(hstored.counts _).trans hsize, hne, fun hq => hplain (hqueueing t hq),
      fun ht => hprocess ((hstored.types _).symm.trans ht), ?_⟩
    intro j s hfetch hs
    rw [hstored.types s]
    refine hentries j s ((hstored.other _ _ _ ?_).mp hfetch) hs
    left
    rintro rfl
    rcases hslot with ⟨hv, -⟩ | ⟨hv, -⟩
    · exact hplain hv
    · exact hne hv

/-- A new link or any other new object with all fields nil. -/
theorem made (hf : Furnished k h) {v type : Value} {count : Nat}
    (hmade : Heap.Made h v type count (k .nil) h') : Furnished k h' := by
  have hqueueing : ∀ u, (∃ t, h.typeOf u = .ok t) → Queueing k h' u → Queueing k h u := by
    rintro u ⟨t, ht⟩ hu
    unfold Queueing at hu
    rw [hmade.types u t ht] at hu
    unfold Queueing
    rwa [ht]
  have hold : ∀ u t, (∃ t, h.typeOf u = .ok t) → h'.typeOf u = .ok t → h.typeOf u = .ok t := by
    rintro u t ⟨t', ht'⟩ ht
    rw [ht', ← ht, hmade.types u t' ht']
  have hprocessor := Heap.exists_typeOf_of_count hf.processor_size
  have hcount : ∀ {u n}, h.fieldCount u = .ok n → h'.fieldCount u = .ok n := fun hn =>
    (hmade.counts _ (hmade.ne (Heap.exists_typeOf_of_count hn))).trans hn
  refine ⟨hmade.settled, hcount hf.nil_empty, hcount hf.processor_size,
    fun hq => hf.processor_plain (hqueueing _ hprocessor hq),
    fun ht => hf.processor_type (hold _ _ hprocessor ht),
    fun ht => hf.nil_type (hold _ _ (Heap.exists_typeOf_of_count hf.nil_empty) ht), hf.link_ne,
    hf.plain, ?_, ?_⟩
  · intro u j x hu hlow hj hfetch
    by_cases hv : u = v
    · subst hv
      exact ((hmade.self j x).mp hfetch).2
    · have hold := (hmade.other u j x hv).mp hfetch
      exact hf.blank u j x (hqueueing u (Heap.exists_typeOf_of_fetchField hold) hu) hlow hj hold
  · intro t htable hnil
    have htable := (hmade.other _ _ _ (hmade.ne hprocessor)).mp htable
    obtain ⟨hsize, hne, hplain, hprocess, hentries⟩ := hf.table t htable hnil
    have hexists := Heap.exists_typeOf_of_count hsize
    refine ⟨hcount hsize, hne, fun hq => hplain (hqueueing t hexists hq),
      fun ht => hprocess (hold _ _ hexists ht), ?_⟩
    intro j s hfetch hs
    exact hmade.types s _ (hentries j s ((hmade.other _ _ _ (hmade.ne hexists)).mp hfetch) hs)

end Furnished

end MessageMachine
