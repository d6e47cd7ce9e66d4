import MessageMachine.Heap.Content
import MessageMachine.Proofs.Heap.Collection

/-!
# Reading a heap

Everything that is read from a heap goes through `resolve`, the object at a handle.  A store and an
allocation change the answer at one handle (`PutAt`), and a relocation moves the answers along
(`Relocation.resolve_map`).  From these come the equations for fields and contents.

* `storeField_eq_ok` and `allocateFields_eq_ok`: what an operation that succeeds has done.
* `Retains touched h h'`: what existed still exists, buffers have kept their contents, and objects
  outside `touched` their fields.
* `Kept h roots v`: a collection with these roots keeps what `v` refers to.
-/

namespace MessageMachine

/-! ## Values read as what they should be -/

@[simp] theorem lift_eq_ok {x : Except ValueFault α} {a : α} :
    (liftM x : Except HeapFault α) = .ok a ↔ x = .ok a := by
  cases x with
  | ok b => simp [liftM, monadLift, MonadLift.monadLift]
  | error fault => simp [liftM, monadLift, MonadLift.monadLift]

namespace Value

theorem handle_eq_ok {v : Value} {a : Handle} : v.handle = .ok a ↔ v.handle? = some a := by
  unfold handle
  cases v.handle? with
  | none => simp
  | some b => simp

theorem expect_eq_ok {v : Value} {wanted : Tag} {a : Handle} :
    v.expect wanted = .ok a ↔ v.handle? = some a ∧ v.tag = wanted := by
  unfold expect
  cases v.handle? with
  | none => simp
  | some b => by_cases htag : v.tag = wanted <;> simp [htag]

theorem eq_object_iff {v : Value} {a : Handle} :
    v.handle? = some a ∧ v.tag = .object ↔ v = .object a := by
  cases v <;> simp [handle?, tag]

theorem eq_bytes_iff {v : Value} {a : Handle} :
    v.handle? = some a ∧ v.tag = .bytes ↔ v = .bytes a := by
  cases v <;> simp [handle?, tag]

theorem eq_words_iff {v : Value} {a : Handle} :
    v.handle? = some a ∧ v.tag = .words ↔ v = .words a := by
  cases v <;> simp [handle?, tag]

theorem index_eq_ok {v : Value} {n : Nat} : v.index = .ok n ↔ v = .ofNat n := by
  cases v with
  | int m =>
      by_cases hneg : m < 0
      · simp only [index, hneg, if_true, reduceCtorEq, ofNat, Value.int.injEq, false_iff]
        omega
      · simp only [index, hneg, if_false, Except.ok.injEq, ofNat, Value.int.injEq]
        omega
  | object a => simp [index]
  | bytes a => simp [index]
  | words a => simp [index]

end Value

namespace Heap

variable {h h' : Heap}

/-! ## One view of the heap -/

/-- The object at a handle, in whichever pool. -/
def resolve (h : Heap) (a : Handle) : Except HeapFault Object := (h.pool a.space).get a

/-- Reading with success leaves the heap as it is. -/
theorem read_eq_ok {f : Heap → Except HeapFault α} {a : α} :
    read f h = .ok a h' ↔ f h = .ok a ∧ h' = h := by
  unfold read
  cases f h with
  | ok b => simp [eq_comm]
  | error fault => simp

theorem read_bind_eq_ok {f : Heap → Except HeapFault α} {g : α → HeapM β} {b : β} :
    (read f >>= g) h = .ok b h' ↔ ∃ a, f h = .ok a ∧ g a h = .ok b h' := by
  rw [bind_eq_ok]
  constructor
  · rintro ⟨a, t, hread, hrest⟩
    obtain ⟨hf, rfl⟩ := read_eq_ok.mp hread
    exact ⟨a, hf, hrest⟩
  · rintro ⟨a, hf, hrest⟩
    exact ⟨a, h, read_eq_ok.mpr ⟨hf, rfl⟩, hrest⟩

theorem element_eq_ok {xs : Array α} {i : Nat} {x : α} :
    element xs i = .ok x ↔ xs[i]? = some x := by
  unfold element
  cases xs[i]? with
  | some y => simp
  | none => simp

theorem object_eq_ok {v : Value} {o : Object} :
    h.object v = .ok o ↔ ∃ a, v.handle? = some a ∧ h.resolve a = .ok o := by
  simp only [object, reading_bind_eq_ok, lift_eq_ok, Value.handle_eq_ok]
  rfl

theorem fields_eq_ok {v : Value} {xs : Array Value} :
    h.fields v = .ok xs ↔ ∃ a o, v = .object a ∧ h.resolve a = .ok o ∧ o.body = .fields xs := by
  simp only [fields, reading_bind_eq_ok, lift_eq_ok, Value.expect_eq_ok, object_eq_ok]
  constructor
  · rintro ⟨a, hv, o, ⟨b, hb, ho⟩, hbody⟩
    obtain rfl := Option.some.inj (hv.1.symm.trans hb)
    refine ⟨a, o, Value.eq_object_iff.mp hv, ho, ?_⟩
    split at hbody <;> simp_all
  · rintro ⟨a, o, rfl, ho, hbody⟩
    exact ⟨a, ⟨rfl, rfl⟩, o, ⟨a, rfl, ho⟩, by simp [hbody]⟩

theorem bytes_eq_ok {v : Value} {xs : Array UInt8} :
    h.bytes v = .ok xs ↔ ∃ a o, v = .bytes a ∧ h.resolve a = .ok o ∧ o.body = .bytes xs := by
  simp only [bytes, reading_bind_eq_ok, lift_eq_ok, Value.expect_eq_ok, object_eq_ok]
  constructor
  · rintro ⟨a, hv, o, ⟨b, hb, ho⟩, hbody⟩
    obtain rfl := Option.some.inj (hv.1.symm.trans hb)
    refine ⟨a, o, Value.eq_bytes_iff.mp hv, ho, ?_⟩
    split at hbody <;> simp_all
  · rintro ⟨a, o, rfl, ho, hbody⟩
    exact ⟨a, ⟨rfl, rfl⟩, o, ⟨a, rfl, ho⟩, by simp [hbody]⟩

theorem words_eq_ok {v : Value} {xs : Array UInt64} :
    h.words v = .ok xs ↔ ∃ a o, v = .words a ∧ h.resolve a = .ok o ∧ o.body = .words xs := by
  simp only [words, reading_bind_eq_ok, lift_eq_ok, Value.expect_eq_ok, object_eq_ok]
  constructor
  · rintro ⟨a, hv, o, ⟨b, hb, ho⟩, hbody⟩
    obtain rfl := Option.some.inj (hv.1.symm.trans hb)
    refine ⟨a, o, Value.eq_words_iff.mp hv, ho, ?_⟩
    split at hbody <;> simp_all
  · rintro ⟨a, o, rfl, ho, hbody⟩
    exact ⟨a, ⟨rfl, rfl⟩, o, ⟨a, rfl, ho⟩, by simp [hbody]⟩

theorem fetchField_eq_ok {v : Value} {i : Nat} {x : Value} :
    h.fetchField v i = .ok x ↔ ∃ xs, h.fields v = .ok xs ∧ xs[i]? = some x := by
  simp only [fetchField, reading_bind_eq_ok, element_eq_ok]

/-! ## Changing one object -/

/-- The second heap answers `o` at `a`, and what the first answers everywhere else. -/
def PutAt (h : Heap) (a : Handle) (o : Object) (h' : Heap) : Prop :=
  ∀ b, h'.resolve b = if b = a then .ok o else h.resolve b

theorem PutAt.resolve_self {a : Handle} {o : Object} (hput : PutAt h a o h') :
    h'.resolve a = .ok o := by
  rw [hput a, if_pos rfl]

theorem PutAt.resolve_of_ne {a b : Handle} {o : Object} (hput : PutAt h a o h') (hne : b ≠ a) :
    h'.resolve b = h.resolve b := by
  rw [hput b, if_neg hne]

/-- A reference to another object reads the same fields. -/
theorem PutAt.fields_of_ne {a : Handle} {o : Object} (hput : PutAt h a o h') {v : Value}
    (hne : v ≠ .object a) : h'.fields v = h.fields v := by
  cases v with
  | object b =>
      have hresolve := hput.resolve_of_ne fun heq : b = a => hne (congrArg _ heq)
      have hobject : h'.object (.object b) = h.object (.object b) := hresolve
      unfold fields
      rw [hobject]
  | int n => rfl
  | bytes b => rfl
  | words b => rfl

theorem resolve_eq_ok {a : Handle} {o : Object} :
    h.resolve a = .ok o ↔ a.space = (h.pool a.space).space ∧ a.epoch = (h.pool a.space).epoch ∧
      (h.pool a.space).at? a.segment a.index = some o :=
  Pool.get_eq_ok_iff

@[simp] theorem pool_modifyPool_self (h : Heap) (space : Space) (f : Pool → Pool) :
    (h.modifyPool space f).pool space = f (h.pool space) := by
  cases space <;> rfl

theorem pool_modifyPool_of_ne (h : Heap) {space other : Space} (f : Pool → Pool)
    (hne : other ≠ space) : (h.modifyPool space f).pool other = h.pool other := by
  cases space <;> cases other <;> first | rfl | exact absurd rfl hne

theorem putAt_update {a : Handle} {o : Object} (hget : h.resolve a = .ok o)
    (f : Object → Object) : PutAt h a (f o) (h.update a f) := by
  obtain ⟨hspace, hepoch, hat⟩ := resolve_eq_ok.mp hget
  intro b
  by_cases hb : b.space = a.space
  · unfold resolve Heap.update
    rw [hb, pool_modifyPool_self]
    by_cases hplace : b.segment = a.segment ∧ b.index = a.index
    · by_cases hcurrent : b.epoch = a.epoch
      · obtain rfl := Handle.eq_of_place hb hcurrent hplace.1 hplace.2
        rw [if_pos rfl, Pool.get_eq_ok_iff, Pool.space_update, Pool.epoch_update,
          Pool.at?_update_self, hat]
        exact ⟨hspace, hepoch, rfl⟩
      · rw [if_neg fun heq => hcurrent (congrArg _ heq)]
        have hstale : ¬b.epoch = (h.pool a.space).epoch := hepoch ▸ hcurrent
        simp [Pool.get, hstale]
    · rw [if_neg fun heq => hplace ⟨congrArg _ heq, congrArg _ heq⟩]
      exact Pool.get_congr (Pool.space_update ..) (Pool.epoch_update ..)
        (Pool.at?_update_of_ne _ f hplace)
  · rw [if_neg fun heq => hb (congrArg _ heq)]
    unfold resolve Heap.update
    rw [pool_modifyPool_of_ne h _ hb]

/-- A change that is checked is made. -/
theorem change_run {v : Value} {check : Heap → Except HeapFault α} {c : α} {a : Handle}
    (f : Object → Object) (hcheck : check h = .ok c) (hv : v.handle? = some a) :
    change v check f h = .ok () (h.update a f) := by
  unfold change
  rw [hcheck, hv]

/-- A change that is refused is not made. -/
theorem change_of_error {v : Value} {check : Heap → Except HeapFault α} {f : Object → Object}
    {fault : HeapFault} (hcheck : check h = .error fault) : change v check f h = .error fault h := by
  unfold change
  rw [hcheck]

/-- A change that succeeds has passed its check. -/
theorem change_eq_ok {v : Value} {check : Heap → Except HeapFault α} {f : Object → Object}
    {u : Unit} (hchange : change v check f h = .ok u h') :
    (∃ c, check h = .ok c) ∧ ∀ a, v.handle? = some a → h' = h.update a f := by
  unfold change at hchange
  cases hcheck : check h with
  | error fault =>
      rw [hcheck] at hchange
      cases hchange
  | ok c =>
      rw [hcheck] at hchange
      refine ⟨⟨c, rfl⟩, ?_⟩
      intro a ha
      rw [ha] at hchange
      cases hchange
      rfl

/-- What a store into a field has done when it succeeds. -/
theorem storeField_eq_ok {v : Value} {i : Nat} {new : Value} {u : Unit}
    (hstore : storeField v i new h = .ok u h') :
    ∃ a o xs, v = .object a ∧ h.resolve a = .ok o ∧ o.body = .fields xs ∧ i < xs.size ∧
      PutAt h a ⟨o.header, .fields (xs.setIfInBounds i new)⟩ h' := by
  obtain ⟨⟨x, hfetch⟩, hupdate⟩ := change_eq_ok hstore
  obtain ⟨xs, hfields, hx⟩ := fetchField_eq_ok.mp hfetch
  obtain ⟨a, ⟨header, body⟩, rfl, hresolve, rfl⟩ := fields_eq_ok.mp hfields
  refine ⟨a, _, xs, rfl, hresolve, rfl, (Array.getElem?_eq_some_iff.mp hx).1, ?_⟩
  rw [hupdate a rfl]
  exact putAt_update hresolve _

/-- What an allocation has done when it succeeds: a handle that answered nothing has the object. -/
theorem allocate_eq_ok (hsettled : h.Settled) {space : Space} {o : Object} {a : Handle}
    (hallocate : allocate space o h = .ok a h') :
    a.space = space ∧ h.resolve a = .error (.staleHandle a) ∧ PutAt h a o h' := by
  have hpool : (h.pool space).space = space := by
    cases space with
    | root => exact hsettled.root_space
    | ephemeral => exact hsettled.ephemeral_space
  unfold allocate at hallocate
  cases hreserve : (h.pool space).reserve o.words with
  | error fault =>
      rw [hreserve] at hallocate
      cases hallocate
  | ok b =>
      rw [hreserve] at hallocate
      cases hallocate
      have hspace : a.space = space := (Pool.space_of_reserve hreserve).trans hpool
      refine ⟨hspace, ?_, ?_⟩
      · have hfree := Pool.at?_of_reserve hreserve
        unfold resolve Pool.get
        rw [hspace, hfree]
        split <;> rfl
      · intro b
        unfold resolve
        by_cases hb : b.space = space
        · rw [hb, pool_modifyPool_self]
          by_cases heq : b = a
          · subst heq
            rw [if_pos rfl]
            exact Pool.get_push_self hreserve
          · rw [if_neg heq]
            unfold Pool.get
            rw [Pool.space_push, Pool.epoch_push]
            split
            · next hcurrent =>
              rw [Pool.at?_push hreserve, if_neg]
              rintro ⟨hsegment, hindex⟩
              exact heq (Handle.eq_of_place (hb.trans hspace.symm)
                (hcurrent.2.trans (Pool.epoch_of_reserve hreserve).symm) hsegment hindex)
            · rfl
        · rw [if_neg fun heq : b = a => hb (heq ▸ hspace), pool_modifyPool_of_ne h _ hb]

/-! ## What stays -/

/-- What existed still exists, buffers have kept their contents, and objects outside `touched` have
kept their fields. -/
structure Retains (touched : Value → Prop) (h h' : Heap) : Prop where
  exist : ∀ a o, h.resolve a = .ok o → ∃ o', h'.resolve a = .ok o'
  bytes : ∀ v xs, h.bytes v = .ok xs → h'.bytes v = .ok xs
  words : ∀ v xs, h.words v = .ok xs → h'.words v = .ok xs
  fields : ∀ v xs, ¬touched v → h.fields v = .ok xs → h'.fields v = .ok xs

namespace Retains

variable {touched : Value → Prop}

theorem refl (touched : Value → Prop) (h : Heap) : Retains touched h h :=
  ⟨fun _ o ho => ⟨o, ho⟩, fun _ _ hv => hv, fun _ _ hv => hv, fun _ _ _ hv => hv⟩

theorem trans {h'' : Heap} (hfirst : Retains touched h h') (hsecond : Retains touched h' h'') :
    Retains touched h h'' := by
  refine ⟨?_, ?_, ?_, ?_⟩
  · intro a o ho
    obtain ⟨o', ho'⟩ := hfirst.exist a o ho
    exact hsecond.exist a o' ho'
  · exact fun v xs hv => hsecond.bytes v xs (hfirst.bytes v xs hv)
  · exact fun v xs hv => hsecond.words v xs (hfirst.words v xs hv)
  · exact fun v xs hout hv => hsecond.fields v xs hout (hfirst.fields v xs hout hv)

theorem mono {touched' : Value → Prop} (hretains : Retains touched h h')
    (himp : ∀ v, touched v → touched' v) : Retains touched' h h' :=
  ⟨hretains.exist, hretains.bytes, hretains.words,
    fun v xs hout => hretains.fields v xs fun hv => hout (himp v hv)⟩

/-- Objects that did not exist may be touched. -/
theorem restrict {touched' : Value → Prop} (hretains : Retains touched h h')
    (hnew : ∀ v xs, touched v → h.fields v = .ok xs → touched' v) : Retains touched' h h' :=
  ⟨hretains.exist, hretains.bytes, hretains.words,
    fun v xs hout hv => hretains.fields v xs (fun ht => hout (hnew v xs ht hv)) hv⟩

theorem fetchField (hretains : Retains touched h h') {v : Value} (hout : ¬touched v) {i : Nat}
    {x : Value} (hfetch : h.fetchField v i = .ok x) : h'.fetchField v i = .ok x := by
  obtain ⟨xs, hxs, hx⟩ := fetchField_eq_ok.mp hfetch
  exact fetchField_eq_ok.mpr ⟨xs, hretains.fields v xs hout hxs, hx⟩

/-- Putting an object where there was none, or another fielded one, keeps all else. -/
theorem of_putAt {a : Handle} {o : Object} (hput : PutAt h a o h')
    (hold : ∀ o', h.resolve a = .ok o' → ∃ xs, o'.body = .fields xs ∧ touched (.object a)) :
    Retains touched h h' := by
  have hother : ∀ b o', h.resolve b = .ok o' → ((∃ xs, o'.body = .fields xs) → ¬touched (.object b)) →
      h'.resolve b = .ok o' := by
    intro b o' ho' hbody
    rw [hput.resolve_of_ne, ho']
    rintro rfl
    obtain ⟨xs, hxs, htouched⟩ := hold o' ho'
    exact hbody ⟨xs, hxs⟩ htouched
  refine ⟨?_, ?_, ?_, ?_⟩
  · intro b o' ho'
    by_cases hb : b = a
    · subst hb
      exact ⟨o, hput.resolve_self⟩
    · exact ⟨o', by rw [hput.resolve_of_ne hb, ho']⟩
  · intro v xs hv
    obtain ⟨b, o', rfl, ho', hbody⟩ := bytes_eq_ok.mp hv
    exact bytes_eq_ok.mpr ⟨b, o', rfl, hother b o' ho' (by simp [hbody]), hbody⟩
  · intro v xs hv
    obtain ⟨b, o', rfl, ho', hbody⟩ := words_eq_ok.mp hv
    exact words_eq_ok.mpr ⟨b, o', rfl, hother b o' ho' (by simp [hbody]), hbody⟩
  · intro v xs hout hv
    obtain ⟨b, o', rfl, ho', hbody⟩ := fields_eq_ok.mp hv
    exact fields_eq_ok.mpr ⟨b, o', rfl, hother b o' ho' fun _ => hout, hbody⟩

end Retains

/-- The value is an integer or refers to an object that exists. -/
def Denotes (h : Heap) (v : Value) : Prop := ∀ a, v.handle? = some a → ∃ o, h.resolve a = .ok o

theorem Denotes.of_retains {touched : Value → Prop} {v : Value} (hdenotes : h.Denotes v)
    (hretains : Retains touched h h') : h'.Denotes v := by
  intro a ha
  obtain ⟨o, ho⟩ := hdenotes a ha
  exact hretains.exist a o ho

/-- What denotes something is not a reference to a free place. -/
theorem Denotes.ne_of_stale {v w : Value} (hdenotes : h.Denotes v) {a : Handle}
    (hw : w.handle? = some a) (hstale : h.resolve a = .error (.staleHandle a)) : w ≠ v := by
  rintro rfl
  obtain ⟨o, ho⟩ := hdenotes a hw
  rw [hstale] at ho
  cases ho

/-- An object that has fields is not a reference to a free place. -/
theorem ne_of_stale {v w : Value} {xs : Array Value} (hfields : h.fields v = .ok xs) {a : Handle}
    (hw : w = .object a) (hstale : h.resolve a = .error (.staleHandle a)) : w ≠ v := by
  rintro rfl
  obtain ⟨b, o, hb, ho, -⟩ := fields_eq_ok.mp hfields
  cases hw.symm.trans hb
  rw [hstale] at ho
  cases ho

/-- A store that succeeds changes one field and nothing else. -/
theorem fields_storeField {v : Value} {i : Nat} {new : Value} {u : Unit}
    (hstore : storeField v i new h = .ok u h') {xs : Array Value} (hfields : h.fields v = .ok xs) :
    h'.fields v = .ok (xs.setIfInBounds i new) ∧ Retains (· = v) h h' := by
  obtain ⟨a, o, ys, rfl, hresolve, hbody, -, hput⟩ := storeField_eq_ok hstore
  obtain ⟨b, o', hb, hresolve', hbody'⟩ := fields_eq_ok.mp hfields
  cases hb
  rw [hresolve] at hresolve'
  cases hresolve'
  rw [hbody] at hbody'
  cases hbody'
  refine ⟨fields_eq_ok.mpr ⟨a, _, rfl, hput.resolve_self, rfl⟩, ?_⟩
  refine Retains.of_putAt hput fun o' ho' => ⟨xs, ?_, rfl⟩
  rw [hresolve] at ho'
  cases ho'
  exact hbody

theorem fields_of_storeField {v : Value} {i : Nat} {new : Value} {u : Unit}
    (hstore : storeField v i new h = .ok u h') : ∃ xs, h.fields v = .ok xs ∧ i < xs.size := by
  obtain ⟨a, o, xs, rfl, hresolve, hbody, hi, -⟩ := storeField_eq_ok hstore
  exact ⟨xs, fields_eq_ok.mpr ⟨a, o, rfl, hresolve, hbody⟩, hi⟩

theorem retains_storeField {v : Value} {i : Nat} {new : Value} {u : Unit}
    (hstore : storeField v i new h = .ok u h') : Retains (· = v) h h' := by
  obtain ⟨xs, hxs, -⟩ := fields_of_storeField hstore
  exact (fields_storeField hstore hxs).2

theorem fetchField_storeField {v : Value} {i : Nat} {new : Value} {u : Unit}
    (hstore : storeField v i new h = .ok u h') : h'.fetchField v i = .ok new := by
  obtain ⟨xs, hxs, hi⟩ := fields_of_storeField hstore
  exact fetchField_eq_ok.mpr
    ⟨_, (fields_storeField hstore hxs).1, Array.getElem?_setIfInBounds_self_of_lt hi⟩

theorem fetchField_storeField_of_ne {v : Value} {i j : Nat} {new x : Value} {u : Unit}
    (hstore : storeField v i new h = .ok u h') (hne : j ≠ i) (hfetch : h.fetchField v j = .ok x) :
    h'.fetchField v j = .ok x := by
  obtain ⟨xs, hxs, hx⟩ := fetchField_eq_ok.mp hfetch
  refine fetchField_eq_ok.mpr ⟨_, (fields_storeField hstore hxs).1, ?_⟩
  rw [Array.getElem?_setIfInBounds_ne (Ne.symm hne), hx]

theorem settled_storeField (hsettled : h.Settled) {v : Value} {i : Nat} {new : Value} {u : Unit}
    (hstore : storeField v i new h = .ok u h') : h'.Settled := by
  have hkeeps : Keeps Settled (storeField v i new) :=
    keeps_settled_change v _ fun o => by
      rcases o with ⟨header, body⟩
      cases body <;> rfl
  have hafter := hkeeps h hsettled
  rwa [hstore] at hafter

/-- A new fielded object is distinct from all that existed, and all that existed is kept. -/
theorem fields_allocateFields (hsettled : h.Settled) {space : Space} {type fill v : Value}
    {count : Nat} (hallocate : allocateFields space type count fill h = .ok v h') :
    (∃ a, v = .object a ∧ h.resolve a = .error (.staleHandle a)) ∧
      h'.fields v = .ok (Array.replicate count fill) ∧ Retains (fun _ => False) h h' ∧
      h'.Settled := by
  obtain ⟨_, -, hrest⟩ := read_bind_eq_ok.mp hallocate
  obtain ⟨a, t, ha, hv⟩ := bind_eq_ok.mp hrest
  obtain ⟨rfl, rfl⟩ := pure_eq_ok.mp hv
  obtain ⟨-, hstale, hput⟩ := allocate_eq_ok hsettled ha
  refine ⟨⟨a, rfl, hstale⟩, fields_eq_ok.mpr ⟨a, _, rfl, hput.resolve_self, rfl⟩, ?_, ?_⟩
  · refine Retains.of_putAt hput fun o' ho' => ?_
    rw [hstale] at ho'
    cases ho'
  · have hafter := keeps_settled_allocate space (o := .ofFields space type count fill) rfl h hsettled
    rwa [ha] at hafter

/-- A new buffer is distinct from all that existed, and all that existed is kept. -/
theorem bytes_allocateBytesFrom (hsettled : h.Settled) {space : Space} {type v : Value}
    {bytes : Array UInt8} (hallocate : allocateBytesFrom space type bytes h = .ok v h') :
    (∃ a, v = .bytes a ∧ h.resolve a = .error (.staleHandle a)) ∧ h'.bytes v = .ok bytes ∧
      Retains (fun _ => False) h h' ∧ h'.Settled := by
  obtain ⟨_, -, hrest⟩ := read_bind_eq_ok.mp hallocate
  obtain ⟨a, t, ha, hv⟩ := bind_eq_ok.mp hrest
  obtain ⟨rfl, rfl⟩ := pure_eq_ok.mp hv
  obtain ⟨-, hstale, hput⟩ := allocate_eq_ok hsettled ha
  refine ⟨⟨a, rfl, hstale⟩, bytes_eq_ok.mpr ⟨a, _, rfl, hput.resolve_self, rfl⟩, ?_, ?_⟩
  · refine Retains.of_putAt hput fun o' ho' => ?_
    rw [hstale] at ho'
    cases ho'
  · have hafter := keeps_settled_allocate space (o := .ofBytes space type bytes) rfl h hsettled
    rwa [ha] at hafter

/-! ## Reading through a relocation -/

/-- A collection with these roots keeps what the value refers to. -/
def Kept (h : Heap) (roots : List Value) (v : Value) : Prop :=
  ∀ a, v.Refers a → Reachable h roots a

theorem kept_of_mem {roots : List Value} {v : Value} (hv : v ∈ roots) : Kept h roots v :=
  fun _ ha => .root hv ha

/-- What a kept object refers to is kept. -/
theorem Kept.of_references {roots : List Value} {v w : Value} (hkept : Kept h roots v)
    {a : Handle} {o : Object} (ha : v.handle? = some a)
    (ho : h.resolve a = .ok o) (hw : w ∈ o.references) : Kept h roots w := by
  intro b hb
  unfold resolve at ho
  cases hspace : a.space with
  | root =>
      rw [hspace] at ho
      exact .permanent (Pool.get_eq_ok_iff.mp ho).2.2 hw hb
  | ephemeral =>
      rw [hspace] at ho
      exact .step (hkept a ⟨ha, hspace⟩) ho hw hb

theorem Kept.of_fields {roots : List Value} {v x : Value} (hkept : Kept h roots v)
    {xs : Array Value} (hfields : h.fields v = .ok xs) (hx : x ∈ xs) :
    Kept h roots x := by
  obtain ⟨a, o, rfl, ho, hbody⟩ := fields_eq_ok.mp hfields
  refine hkept.of_references rfl ho ?_
  rw [Object.references, hbody]
  exact List.mem_cons_of_mem _ (by simpa using hx)

theorem Kept.of_fetchField {roots : List Value} {v x : Value} (hkept : Kept h roots v) {i : Nat}
    (hfetch : h.fetchField v i = .ok x) : Kept h roots x := by
  obtain ⟨xs, hxs, hx⟩ := fetchField_eq_ok.mp hfetch
  exact hkept.of_fields hxs (Array.mem_of_getElem? hx)

namespace Relocation

variable {roots roots' : List Value} {φ : Handle → Handle}

/-- The copy of a reachable object is ephemeral. -/
theorem space_of_reachable (hr : Relocation h roots h' roots' φ) (hsettled' : h'.Settled)
    {a : Handle} (ha : Reachable h roots a) : (φ a).space = .ephemeral := by
  obtain ⟨o, ho⟩ := hr.bijOn.mapsTo ha
  rw [(Pool.get_eq_ok_iff.mp ho).1, hsettled'.ephemeral_space]

theorem resolve_map (hr : Relocation h roots h' roots' φ) (hsettled' : h'.Settled)
    {v : Value} (hkept : Kept h roots v) {a : Handle}
    (ha : v.handle? = some a) {o : Object} (ho : h.resolve a = .ok o) :
    h'.resolve (φ a) = .ok (o.map φ) := by
  unfold resolve at ho ⊢
  cases hspace : a.space with
  | root =>
      rw [hspace] at ho
      rw [hr.fixes_root a hspace, hspace]
      obtain ⟨-, hepoch, hat⟩ := Pool.get_eq_ok_iff.mp ho
      refine Pool.get_eq_ok_iff.mpr ⟨?_, hepoch.trans hr.root_epoch.symm, ?_⟩
      · exact hspace.trans hsettled'.root_space.symm
      · change h'.root.at? _ _ = _
        rw [hr.root_at?, show h.root.at? a.segment a.index = some o from hat]
        rfl
  | ephemeral =>
      rw [hspace] at ho
      have hreach := hkept a ⟨ha, hspace⟩
      rw [hr.space_of_reachable hsettled' hreach]
      obtain ⟨o', ho', hcopy⟩ := hr.get_copy a hreach
      rw [show h.ephemeral.get a = .ok o from ho] at ho'
      cases ho'
      exact hcopy

theorem fields_map (hr : Relocation h roots h' roots' φ) (hsettled' : h'.Settled)
    {v : Value} (hkept : Kept h roots v) {xs : Array Value}
    (hfields : h.fields v = .ok xs) : h'.fields (v.map φ) = .ok (xs.map (·.map φ)) := by
  obtain ⟨a, o, rfl, ho, hbody⟩ := fields_eq_ok.mp hfields
  refine fields_eq_ok.mpr ⟨φ a, o.map φ, rfl, hr.resolve_map hsettled' hkept rfl ho, ?_⟩
  simp only [Object.map, hbody]

theorem fetchField_map (hr : Relocation h roots h' roots' φ) (hsettled' : h'.Settled)
    {v : Value} (hkept : Kept h roots v) {i : Nat} {x : Value} (hfetch : h.fetchField v i = .ok x) :
    h'.fetchField (v.map φ) i = .ok (x.map φ) := by
  obtain ⟨xs, hxs, hx⟩ := fetchField_eq_ok.mp hfetch
  refine fetchField_eq_ok.mpr ⟨_, hr.fields_map hsettled' hkept hxs, ?_⟩
  rw [Array.getElem?_map, hx]
  rfl

theorem denotes_map (hr : Relocation h roots h' roots' φ) (hsettled' : h'.Settled) {v : Value}
    (hkept : Kept h roots v) (hdenotes : h.Denotes v) : h'.Denotes (v.map φ) := by
  intro b hb
  rw [Value.handle?_map] at hb
  obtain ⟨a, ha, rfl⟩ := Option.map_eq_some_iff.mp hb
  obtain ⟨o, ho⟩ := hdenotes a ha
  exact ⟨_, hr.resolve_map hsettled' hkept ha ho⟩

theorem bytes_map (hr : Relocation h roots h' roots' φ) (hsettled' : h'.Settled)
    {v : Value} (hkept : Kept h roots v) {xs : Array UInt8}
    (hbytes : h.bytes v = .ok xs) : h'.bytes (v.map φ) = .ok xs := by
  obtain ⟨a, o, rfl, ho, hbody⟩ := bytes_eq_ok.mp hbytes
  refine bytes_eq_ok.mpr ⟨φ a, o.map φ, rfl, hr.resolve_map hsettled' hkept rfl ho, ?_⟩
  simp only [Object.map, hbody]

theorem words_map (hr : Relocation h roots h' roots' φ) (hsettled' : h'.Settled)
    {v : Value} (hkept : Kept h roots v) {xs : Array UInt64}
    (hwords : h.words v = .ok xs) : h'.words (v.map φ) = .ok xs := by
  obtain ⟨a, o, rfl, ho, hbody⟩ := words_eq_ok.mp hwords
  refine words_eq_ok.mpr ⟨φ a, o.map φ, rfl, hr.resolve_map hsettled' hkept rfl ho, ?_⟩
  simp only [Object.map, hbody]

/-- Kept handles stay apart. -/
theorem handle_injective (hr : Relocation h roots h' roots' φ) (hsettled' : h'.Settled)
    {a b : Handle} (ha : a.space = .ephemeral → Reachable h roots a)
    (hb : b.space = .ephemeral → Reachable h roots b) (heq : φ a = φ b) : a = b := by
  cases hspace : a.space with
  | root =>
      cases hspace' : b.space with
      | root => rwa [hr.fixes_root a hspace, hr.fixes_root b hspace'] at heq
      | ephemeral =>
          have hcopy := hr.space_of_reachable hsettled' (hb hspace')
          rw [← heq, hr.fixes_root a hspace, hspace] at hcopy
          cases hcopy
  | ephemeral =>
      cases hspace' : b.space with
      | root =>
          have hcopy := hr.space_of_reachable hsettled' (ha hspace)
          rw [heq, hr.fixes_root b hspace', hspace'] at hcopy
          cases hcopy
      | ephemeral => exact hr.bijOn.injOn (ha hspace) (hb hspace') heq

/-- Kept values stay apart. -/
theorem map_injective (hr : Relocation h roots h' roots' φ) (hsettled' : h'.Settled)
    {v w : Value} (hv : Kept h roots v) (hw : Kept h roots w) (heq : v.map φ = w.map φ) :
    v = w := by
  have hhandle : ∀ a b, v.handle? = some a → w.handle? = some b → φ a = φ b → a = b := by
    intro a b ha hb
    exact hr.handle_injective hsettled' (fun hspace => hv a ⟨ha, hspace⟩)
      fun hspace => hw b ⟨hb, hspace⟩
  cases v <;> cases w <;> simp only [Value.map, reduceCtorEq, Value.int.injEq, Value.object.injEq,
    Value.bytes.injEq, Value.words.injEq] at heq ⊢
  · exact heq
  · exact hhandle _ _ rfl rfl heq
  · exact hhandle _ _ rfl rfl heq
  · exact hhandle _ _ rfl rfl heq

end Relocation

/-! ## How many objects there are -/

theorem length_le_of_resolve {handles : List Handle} (hnodup : handles.Nodup)
    (hresolve : ∀ a ∈ handles, ∃ o, h.resolve a = .ok o) : handles.length ≤ h.objectCount := by
  have hside : ∀ space, (handles.filter (·.space = space)).length ≤ (h.pool space).objectCount := by
    intro space
    refine Pool.length_le_of_get (hnodup.filter _) fun a ha => ?_
    obtain ⟨hmem, hspace⟩ := List.mem_filter.mp ha
    obtain rfl := of_decide_eq_true hspace
    exact hresolve a hmem
  calc handles.length
      = (handles.filter (·.space = .root)).length +
          (handles.filter (fun a => !decide (a.space = .root))).length :=
        (List.length_eq_length_filter_add _)
    _ = (handles.filter (·.space = .root)).length +
          (handles.filter (·.space = .ephemeral)).length := by
        congr 3
        funext a
        cases a.space <;> rfl
    _ ≤ h.objectCount := Nat.add_le_add (hside .root) (hside .ephemeral)

/-- The values in a list without repetition that have fields are at most as many as there are
objects. -/
theorem length_le_of_fields {vs : List Value} (hnodup : vs.Nodup)
    (hfields : ∀ v ∈ vs, ∃ xs, h.fields v = .ok xs) : vs.length ≤ h.objectCount := by
  have hobject : ∀ v ∈ vs, ∃ a o, v = .object a ∧ h.resolve a = .ok o := by
    intro v hv
    obtain ⟨xs, hxs⟩ := hfields v hv
    obtain ⟨a, o, rfl, ho, -⟩ := fields_eq_ok.mp hxs
    exact ⟨a, o, rfl, ho⟩
  have hhandles : (vs.map fun v => v.handle?.getD default).Nodup := by
    rw [List.nodup_map_iff_inj_on hnodup]
    intro v hv w hw heq
    obtain ⟨a, o, rfl, -⟩ := hobject v hv
    obtain ⟨b, o', rfl, -⟩ := hobject w hw
    exact congrArg Value.object heq
  rw [← List.length_map fun v : Value => v.handle?.getD default]
  refine length_le_of_resolve hhandles fun a ha => ?_
  obtain ⟨v, hv, rfl⟩ := List.mem_map.mp ha
  obtain ⟨a, o, rfl, ho⟩ := hobject v hv
  exact ⟨o, ho⟩

end Heap

end MessageMachine
