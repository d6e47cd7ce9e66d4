import MessageMachine.Proofs.Schedule.Shield

/-!
# Heaps that agree but for some elements

`Heap.Agrees but h h'` says that the same objects exist in both heaps, with the same headers and
bodies of the same shape, and that their elements are the same but at the places in `but`.  Unlike
`Heap.Retains` it is about all that can be asked of a heap, refusals included: types and sizes are
the same (`typeOf_eq`, `fieldCount_eq`), and so is every element outside `but` (`fetchField_eq`).

A store into a field, a byte or a word changes one element (`agrees_storeField`,
`agrees_storeByte`, `agrees_storeWord`), and changes add up (`Agrees.trans`).
-/

namespace MessageMachine

/-- The bodies at a handle have the same shape, and the same elements but at the places in `but`. -/
inductive Body.Agrees (but : Value → Nat → Prop) (a : Handle) : Body → Body → Prop
  | fields {xs ys : Array Value} (hsize : ys.size = xs.size)
      (helements : ∀ i, ¬but (.object a) i → ys[i]? = xs[i]?) :
      Agrees but a (.fields xs) (.fields ys)
  | bytes {xs ys : Array UInt8} (hsize : ys.size = xs.size)
      (helements : ∀ i, ¬but (.bytes a) i → ys[i]? = xs[i]?) :
      Agrees but a (.bytes xs) (.bytes ys)
  | words {xs ys : Array UInt64} (hsize : ys.size = xs.size)
      (helements : ∀ i, ¬but (.words a) i → ys[i]? = xs[i]?) :
      Agrees but a (.words xs) (.words ys)

/-- The objects at a handle have the same header and agreeing bodies. -/
structure Object.Agrees (but : Value → Nat → Prop) (a : Handle) (o o' : Object) : Prop where
  header : o'.header = o.header
  body : Body.Agrees but a o.body o'.body

namespace Body.Agrees

variable {but but' : Value → Nat → Prop} {a : Handle} {b b' b'' : Body}

theorem trans (hfirst : Agrees but a b b') (hsecond : Agrees but' a b' b'') :
    Agrees (fun v i => but v i ∨ but' v i) a b b'' := by
  cases hfirst with
  | fields hsize helements =>
      cases hsecond with
      | fields hsize' helements' =>
          refine .fields (hsize'.trans hsize) fun i hi => ?_
          exact (helements' i (not_or.mp hi).2).trans (helements i (not_or.mp hi).1)
  | bytes hsize helements =>
      cases hsecond with
      | bytes hsize' helements' =>
          refine .bytes (hsize'.trans hsize) fun i hi => ?_
          exact (helements' i (not_or.mp hi).2).trans (helements i (not_or.mp hi).1)
  | words hsize helements =>
      cases hsecond with
      | words hsize' helements' =>
          refine .words (hsize'.trans hsize) fun i hi => ?_
          exact (helements' i (not_or.mp hi).2).trans (helements i (not_or.mp hi).1)

theorem mono (hagrees : Agrees but a b b') (himp : ∀ v i, but v i → but' v i) :
    Agrees but' a b b' := by
  cases hagrees with
  | fields hsize helements => exact .fields hsize fun i hi => helements i fun hb => hi (himp _ i hb)
  | bytes hsize helements => exact .bytes hsize fun i hi => helements i fun hb => hi (himp _ i hb)
  | words hsize helements => exact .words hsize fun i hi => helements i fun hb => hi (himp _ i hb)

theorem symm (hagrees : Agrees but a b b') : Agrees but a b' b := by
  cases hagrees with
  | fields hsize helements => exact .fields hsize.symm fun i hi => (helements i hi).symm
  | bytes hsize helements => exact .bytes hsize.symm fun i hi => (helements i hi).symm
  | words hsize helements => exact .words hsize.symm fun i hi => (helements i hi).symm

end Body.Agrees

namespace Object

variable {but but' : Value → Nat → Prop} {a : Handle} {o o' o'' : Object}

theorem Agrees.refl (but : Value → Nat → Prop) (a : Handle) (o : Object) : Agrees but a o o := by
  obtain ⟨header, body⟩ := o
  cases body with
  | fields xs => exact ⟨rfl, .fields rfl fun _ _ => rfl⟩
  | bytes xs => exact ⟨rfl, .bytes rfl fun _ _ => rfl⟩
  | words xs => exact ⟨rfl, .words rfl fun _ _ => rfl⟩

theorem Agrees.trans (hfirst : Agrees but a o o') (hsecond : Agrees but' a o' o'') :
    Agrees (fun v i => but v i ∨ but' v i) a o o'' :=
  ⟨hsecond.header.trans hfirst.header, hfirst.body.trans hsecond.body⟩

theorem Agrees.mono (hagrees : Agrees but a o o') (himp : ∀ v i, but v i → but' v i) :
    Agrees but' a o o' := ⟨hagrees.header, hagrees.body.mono himp⟩

theorem Agrees.symm (hagrees : Agrees but a o o') : Agrees but a o' o :=
  ⟨hagrees.header.symm, hagrees.body.symm⟩

/-- The element `i` of what `v` refers to. -/
def ElementOf (v : Value) (i : Nat) (w : Value) (j : Nat) : Prop := w = v ∧ j = i

theorem agrees_setField (a : Handle) (o : Object) (i : Nat) (x : Value) :
    Agrees (ElementOf (.object a) i) a o (o.setField i x) := by
  obtain ⟨header, body⟩ := o
  cases body with
  | fields xs =>
      refine ⟨rfl, .fields (Array.size_setIfInBounds ..) fun j hj => ?_⟩
      exact Array.getElem?_setIfInBounds_ne fun heq => hj ⟨rfl, heq.symm⟩
  | bytes xs => exact Agrees.refl ..
  | words xs => exact Agrees.refl ..

/-- The same field is changed in both. -/
theorem Agrees.setField (hagrees : Agrees but a o o') (i : Nat) (x : Value) :
    Agrees but a (o.setField i x) (o'.setField i x) := by
  obtain ⟨header, body⟩ := o
  obtain ⟨header', body'⟩ := o'
  obtain ⟨hheader, hbody⟩ := hagrees
  cases hbody with
  | @fields xs ys hsize helements =>
      refine ⟨hheader, .fields ?_ fun j hj => ?_⟩
      · rw [Array.size_setIfInBounds, Array.size_setIfInBounds, hsize]
      · rw [Array.getElem?_setIfInBounds, Array.getElem?_setIfInBounds, hsize, helements j hj]
  | bytes hsize helements => exact ⟨hheader, .bytes hsize helements⟩
  | words hsize helements => exact ⟨hheader, .words hsize helements⟩

/-- The same fields are overwritten in both. -/
theorem agrees_overwrite (first : Nat) (moved : Array Value) : Agrees but a o o' → Agrees but a
      (match o with
        | ⟨header, .fields xs⟩ => ⟨header, .fields (Heap.overwrite xs first moved)⟩
        | o => o)
      (match o' with
        | ⟨header, .fields xs⟩ => ⟨header, .fields (Heap.overwrite xs first moved)⟩
        | o => o) := by
  intro hagrees
  obtain ⟨header, body⟩ := o
  obtain ⟨header', body'⟩ := o'
  obtain ⟨hheader, hbody⟩ := hagrees
  cases hbody with
  | @fields xs ys hsize helements =>
      refine ⟨hheader, .fields ?_ fun j hj => ?_⟩
      · simp only [Heap.overwrite, Array.size_mapIdx, hsize]
      · simp only [Heap.overwrite, Array.getElem?_mapIdx, helements j hj]
  | bytes hsize helements => exact ⟨hheader, .bytes hsize helements⟩
  | words hsize helements => exact ⟨hheader, .words hsize helements⟩

theorem agrees_setByte (a : Handle) (o : Object) (i : Nat) (b : UInt8) :
    Agrees (ElementOf (.bytes a) i) a o (o.setByte i b) := by
  obtain ⟨header, body⟩ := o
  cases body with
  | fields xs => exact Agrees.refl ..
  | bytes xs =>
      refine ⟨rfl, .bytes (Array.size_setIfInBounds ..) fun j hj => ?_⟩
      exact Array.getElem?_setIfInBounds_ne fun heq => hj ⟨rfl, heq.symm⟩
  | words xs => exact Agrees.refl ..

theorem agrees_setWord (a : Handle) (o : Object) (i : Nat) (w : UInt64) :
    Agrees (ElementOf (.words a) i) a o (o.setWord i w) := by
  obtain ⟨header, body⟩ := o
  cases body with
  | fields xs => exact Agrees.refl ..
  | bytes xs => exact Agrees.refl ..
  | words xs =>
      refine ⟨rfl, .words (Array.size_setIfInBounds ..) fun j hj => ?_⟩
      exact Array.getElem?_setIfInBounds_ne fun heq => hj ⟨rfl, heq.symm⟩

end Object

namespace Heap

open Object (ElementOf)

variable {h h' h'' : Heap} {but but' : Value → Nat → Prop} {v : Value} {i : Nat}

/-- The heaps have the same objects, with the same headers, shapes and elements, but for the
elements in `but`. -/
structure Agrees (but : Value → Nat → Prop) (h h' : Heap) : Prop where
  object : ∀ a o, h.resolve a = .ok o → ∃ o', h'.resolve a = .ok o' ∧ Object.Agrees but a o o'
  fault : ∀ a fault, h.resolve a = .error fault → h'.resolve a = .error fault

namespace Agrees

theorem refl (but : Value → Nat → Prop) (h : Heap) : Agrees but h h :=
  ⟨fun a o ho => ⟨o, ho, .refl but a o⟩, fun _ _ hfault => hfault⟩

theorem trans (hfirst : Agrees but h h') (hsecond : Agrees but' h' h'') :
    Agrees (fun v i => but v i ∨ but' v i) h h'' := by
  constructor
  · intro a o ho
    obtain ⟨o', ho', hagrees⟩ := hfirst.object a o ho
    obtain ⟨o'', ho'', hagrees'⟩ := hsecond.object a o' ho'
    exact ⟨o'', ho'', hagrees.trans hagrees'⟩
  · intro a fault hfault
    exact hsecond.fault a fault (hfirst.fault a fault hfault)

theorem mono (hagrees : Agrees but h h') (himp : ∀ v i, but v i → but' v i) :
    Agrees but' h h' := by
  refine ⟨fun a o ho => ?_, hagrees.fault⟩
  obtain ⟨o', ho', hobject⟩ := hagrees.object a o ho
  exact ⟨o', ho', hobject.mono himp⟩

theorem symm (hagrees : Agrees but h h') : Agrees but h' h := by
  constructor
  · intro a o ho
    cases hold : h.resolve a with
    | error fault => cases ho.symm.trans (hagrees.fault a fault hold)
    | ok o' =>
        obtain ⟨o'', ho'', hobject⟩ := hagrees.object a o' hold
        cases ho.symm.trans ho''
        exact ⟨o', rfl, hobject.symm⟩
  · intro a fault hfault
    cases hold : h.resolve a with
    | error fault' =>
        cases hfault.symm.trans (hagrees.fault a fault' hold)
        rfl
    | ok o' =>
        obtain ⟨o'', ho'', -⟩ := hagrees.object a o' hold
        cases hfault.symm.trans ho''

/-- One changed object agrees with what it was before. -/
theorem of_putAt {a : Handle} {o o' : Object} (ho : h.resolve a = .ok o) (hput : PutAt h a o' h')
    (hobject : Object.Agrees but a o o') : Agrees but h h' := by
  constructor
  · intro b ob hob
    by_cases hb : b = a
    · subst hb
      cases ho.symm.trans hob
      exact ⟨o', hput.resolve_self, hobject⟩
    · exact ⟨ob, (hput.resolve_of_ne hb).trans hob, .refl ..⟩
  · intro b fault hfault
    have hb : b ≠ a := by
      rintro rfl
      cases ho.symm.trans hfault
    exact (hput.resolve_of_ne hb).trans hfault

/-! ## What is read -/

/-- A value refers to the same object or to agreeing ones. -/
theorem object_or (hagrees : Agrees but h h') (v : Value) : h'.object v = h.object v ∨
    ∃ a o o', v.handle? = some a ∧ h.object v = .ok o ∧ h'.object v = .ok o' ∧
      Object.Agrees but a o o' := by
  cases ha : v.handle? with
  | none =>
      left
      unfold Heap.object Value.handle
      rw [ha]
      rfl
  | some a =>
      have hobject : ∀ g : Heap, g.object v = g.resolve a := by
        intro g
        unfold Heap.object Value.handle
        rw [ha]
        rfl
      rw [hobject h, hobject h']
      cases hresolve : h.resolve a with
      | error fault => exact .inl (hagrees.fault a fault hresolve)
      | ok o =>
          obtain ⟨o', ho', hbody⟩ := hagrees.object a o hresolve
          exact .inr ⟨a, o, o', rfl, rfl, ho', hbody⟩

theorem typeOf_eq (hagrees : Agrees but h h') (v : Value) : h'.typeOf v = h.typeOf v := by
  unfold Heap.typeOf
  rcases hagrees.object_or v with heq | ⟨a, o, o', -, ho, ho', hbody⟩
  · rw [heq]
  · rw [ho, ho']
    exact congrArg (fun header => Except.ok (Header.type header)) hbody.header

/-- The fields of a value are the same, or as many that are the same outside `but`. -/
theorem fields_or (hagrees : Agrees but h h') (v : Value) : h'.fields v = h.fields v ∨
    ∃ xs ys, h.fields v = .ok xs ∧ h'.fields v = .ok ys ∧ ys.size = xs.size ∧
      ∀ i, ¬but v i → ys[i]? = xs[i]? := by
  unfold Heap.fields
  rcases hagrees.object_or v with heq | ⟨a, ⟨header, body⟩, ⟨header', body'⟩, ha, ho, ho', -, hbody⟩
  · exact .inl (by rw [heq])
  · rw [ho, ho']
    cases hv : v.expect .object with
    | error fault => exact .inl rfl
    | ok b =>
        obtain rfl := Value.eq_object_iff.mp ⟨ha, (Value.expect_eq_ok.mp hv).2⟩
        cases hbody with
        | fields hsize helements => exact .inr ⟨_, _, rfl, rfl, hsize, helements⟩
        | bytes hsize => exact .inl rfl
        | words hsize => exact .inl rfl

theorem bytes_or (hagrees : Agrees but h h') (v : Value) : h'.bytes v = h.bytes v ∨
    ∃ xs ys, h.bytes v = .ok xs ∧ h'.bytes v = .ok ys ∧ ys.size = xs.size ∧
      ∀ i, ¬but v i → ys[i]? = xs[i]? := by
  unfold Heap.bytes
  rcases hagrees.object_or v with heq | ⟨a, ⟨header, body⟩, ⟨header', body'⟩, ha, ho, ho', -, hbody⟩
  · exact .inl (by rw [heq])
  · rw [ho, ho']
    cases hv : v.expect .bytes with
    | error fault => exact .inl rfl
    | ok b =>
        obtain rfl := Value.eq_bytes_iff.mp ⟨ha, (Value.expect_eq_ok.mp hv).2⟩
        cases hbody with
        | fields hsize => exact .inl rfl
        | bytes hsize helements => exact .inr ⟨_, _, rfl, rfl, hsize, helements⟩
        | words hsize => exact .inl rfl

theorem words_or (hagrees : Agrees but h h') (v : Value) : h'.words v = h.words v ∨
    ∃ xs ys, h.words v = .ok xs ∧ h'.words v = .ok ys ∧ ys.size = xs.size ∧
      ∀ i, ¬but v i → ys[i]? = xs[i]? := by
  unfold Heap.words
  rcases hagrees.object_or v with heq | ⟨a, ⟨header, body⟩, ⟨header', body'⟩, ha, ho, ho', -, hbody⟩
  · exact .inl (by rw [heq])
  · rw [ho, ho']
    cases hv : v.expect .words with
    | error fault => exact .inl rfl
    | ok b =>
        obtain rfl := Value.eq_words_iff.mp ⟨ha, (Value.expect_eq_ok.mp hv).2⟩
        cases hbody with
        | fields hsize => exact .inl rfl
        | bytes hsize => exact .inl rfl
        | words hsize helements => exact .inr ⟨_, _, rfl, rfl, hsize, helements⟩

/-- As many elements are counted. -/
theorem size_eq {x y : Except HeapFault (Array α)} {p : Nat → Prop} (hor : y = x ∨ ∃ xs ys,
      x = .ok xs ∧ y = .ok ys ∧ ys.size = xs.size ∧ ∀ i, ¬p i → ys[i]? = xs[i]?) :
    (do return (← y).size : Except HeapFault Nat) = (do return (← x).size) := by
  rcases hor with heq | ⟨xs, ys, hxs, hys, hsize, -⟩
  · rw [heq]
  · rw [hxs, hys]
    exact congrArg Except.ok hsize

/-- The same element is read outside of `p`. -/
theorem element_eq {x y : Except HeapFault (Array α)} {p : Nat → Prop} (hor : y = x ∨ ∃ xs ys,
      x = .ok xs ∧ y = .ok ys ∧ ys.size = xs.size ∧ ∀ i, ¬p i → ys[i]? = xs[i]?) (hout : ¬p i) :
    (do Heap.element (← y) i) = (do Heap.element (← x) i) := by
  rcases hor with heq | ⟨xs, ys, hxs, hys, hsize, helements⟩
  · rw [heq]
  · rw [hxs, hys]
    show Heap.element ys i = Heap.element xs i
    unfold Heap.element
    rw [helements i hout, hsize]

theorem fieldCount_eq (hagrees : Agrees but h h') (v : Value) : h'.fieldCount v = h.fieldCount v :=
  size_eq (hagrees.fields_or v)

theorem byteSize_eq (hagrees : Agrees but h h') (v : Value) : h'.byteSize v = h.byteSize v :=
  size_eq (hagrees.bytes_or v)

theorem wordCount_eq (hagrees : Agrees but h h') (v : Value) : h'.wordCount v = h.wordCount v :=
  size_eq (hagrees.words_or v)

theorem fetchField_eq (hagrees : Agrees but h h') (hout : ¬but v i) :
    h'.fetchField v i = h.fetchField v i :=
  element_eq (hagrees.fields_or v) hout

/-- The same fields are read in a row. -/
theorem slice_eq (hagrees : Agrees but h h') {start count : Nat}
    (hout : ∀ i, start ≤ i → i < start + count → ¬but v i) :
    (do Heap.slice (← h.fields v) start count) = (do Heap.slice (← h'.fields v) start count) := by
  rcases hagrees.fields_or v with heq | ⟨xs, ys, hxs, hys, hsize, helements⟩
  · rw [heq]
  · rw [hxs, hys]
    show Heap.slice xs start count = Heap.slice ys start count
    have hextract : xs.extract start (start + count) = ys.extract start (start + count) := by
      apply Array.ext_getElem?
      intro j
      rw [Array.getElem?_extract, Array.getElem?_extract, hsize]
      by_cases hj : j < min (start + count) xs.size - start
      · rw [if_pos hj, if_pos hj, helements _ (hout _ (Nat.le_add_right ..) (by omega))]
      · rw [if_neg hj, if_neg hj]
    unfold Heap.slice
    rw [hsize, hextract]

theorem fetchByte_eq (hagrees : Agrees but h h') (hout : ¬but v i) :
    h'.fetchByte v i = h.fetchByte v i :=
  element_eq (hagrees.bytes_or v) hout

theorem fetchWord_eq (hagrees : Agrees but h h') (hout : ¬but v i) :
    h'.fetchWord v i = h.fetchWord v i :=
  element_eq (hagrees.words_or v) hout

end Agrees

/-! ## Changes of one element -/

theorem agrees_storeField {x : Value} {u : Unit} (hstore : storeField v i x h = .ok u h') :
    Agrees (ElementOf v i) h h' := by
  obtain ⟨⟨c, hc⟩, hupdate⟩ := change_eq_ok hstore
  obtain ⟨xs, hxs, -⟩ := fetchField_eq_ok.mp hc
  obtain ⟨a, o, rfl, ho, -⟩ := fields_eq_ok.mp hxs
  rw [hupdate a rfl]
  exact .of_putAt ho (putAt_update ho _) (Object.agrees_setField a o i x)

theorem agrees_storeByte {b : UInt8} {u : Unit} (hstore : storeByte v i b h = .ok u h') :
    Agrees (ElementOf v i) h h' := by
  obtain ⟨⟨c, hc⟩, hupdate⟩ := change_eq_ok hstore
  obtain ⟨xs, hxs, -⟩ := reading_bind_eq_ok.mp hc
  obtain ⟨a, o, rfl, ho, -⟩ := bytes_eq_ok.mp hxs
  rw [hupdate a rfl]
  exact .of_putAt ho (putAt_update ho _) (Object.agrees_setByte a o i b)

/-- A store of a byte leaves the fields of all objects. -/
theorem fields_storeByte {b : UInt8} {u : Unit} (hstore : storeByte v i b h = .ok u h') (x : Value) :
    h'.fields x = h.fields x := by
  obtain ⟨⟨old, hold⟩, -⟩ := change_eq_ok hstore
  obtain ⟨bytes, hbytes, -⟩ := reading_bind_eq_ok.mp hold
  obtain ⟨a, o, rfl, -⟩ := bytes_eq_ok.mp hbytes
  rcases (agrees_storeByte hstore).fields_or x with heq | ⟨xs, ys, hxs, hys, -, helements⟩
  · exact heq
  · obtain ⟨b, o, rfl, -⟩ := fields_eq_ok.mp hxs
    have heq : ys = xs := Array.ext_getElem? fun j => helements j fun hsame => by cases hsame.1
    rw [hys, hxs, heq]

theorem agrees_storeWord {w : UInt64} {u : Unit} (hstore : storeWord v i w h = .ok u h') :
    Agrees (ElementOf v i) h h' := by
  obtain ⟨⟨c, hc⟩, hupdate⟩ := change_eq_ok hstore
  obtain ⟨xs, hxs, -⟩ := reading_bind_eq_ok.mp hc
  obtain ⟨a, o, rfl, ho, -⟩ := words_eq_ok.mp hxs
  rw [hupdate a rfl]
  exact .of_putAt ho (putAt_update ho _) (Object.agrees_setWord a o i w)

/-- A byte that is there can be replaced. -/
theorem exists_storeByte {old : UInt8} (hfetch : h.fetchByte v i = .ok old) (b : UInt8) :
    ∃ h', storeByte v i b h = .ok () h' ∧ h'.fetchByte v i = .ok b := by
  obtain ⟨xs, hxs, hold⟩ := reading_bind_eq_ok.mp hfetch
  obtain ⟨a, ⟨header, body⟩, rfl, ho, rfl⟩ := bytes_eq_ok.mp hxs
  refine ⟨h.update a (·.setByte i b), ?_, ?_⟩
  · unfold storeByte change
    dsimp only
    rw [hfetch]
    rfl
  · have hself := (putAt_update ho (·.setByte i b)).resolve_self
    refine reading_bind_eq_ok.mpr ⟨_, bytes_eq_ok.mpr ⟨a, _, rfl, hself, rfl⟩, ?_⟩
    have hi := (Array.getElem?_eq_some_iff.mp (element_eq_ok.mp hold)).1
    exact element_eq_ok.mpr (Array.getElem?_setIfInBounds_self_of_lt hi)

/-- A word that is there can be replaced. -/
theorem exists_storeWord {old : UInt64} (hfetch : h.fetchWord v i = .ok old) (w : UInt64) :
    ∃ h', storeWord v i w h = .ok () h' ∧ h'.fetchWord v i = .ok w := by
  obtain ⟨xs, hxs, hold⟩ := reading_bind_eq_ok.mp hfetch
  obtain ⟨a, ⟨header, body⟩, rfl, ho, rfl⟩ := words_eq_ok.mp hxs
  refine ⟨h.update a (·.setWord i w), ?_, ?_⟩
  · unfold storeWord change
    dsimp only
    rw [hfetch]
    rfl
  · have hself := (putAt_update ho (·.setWord i w)).resolve_self
    refine reading_bind_eq_ok.mpr ⟨_, words_eq_ok.mpr ⟨a, _, rfl, hself, rfl⟩, ?_⟩
    have hi := (Array.getElem?_eq_some_iff.mp (element_eq_ok.mp hold)).1
    exact element_eq_ok.mpr (Array.getElem?_setIfInBounds_self_of_lt hi)

end Heap

end MessageMachine
