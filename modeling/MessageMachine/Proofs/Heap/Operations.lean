import MessageMachine.Proofs.Heap.Access

/-!
# What an operation does to a heap

An operation other than a collection leaves the heap alone, or puts one new object into a pool, or
changes one object in its place.  `Operation.performed` says which, once and for all; everything
that is proved about sequences of operations is proved from it.

* `Measured o`: the header of an object measures its body.
* `Reshapes f`: a change keeps the header, up to the type, and the kind and the length of the body.
* `Operation.allocation?` and `Operation.target?`: what an operation allocates, or whose object it
  changes.
* `performAll ops h`: the heap after a sequence of operations.
-/

namespace MessageMachine

/-! ## Objects and their headers -/

/-- The kind of the values that refer to a body. -/
def Body.tag : Body → Tag
  | .fields _ => .object
  | .bytes _ => .bytes
  | .words _ => .words

/-- How many words it takes to hold a body. -/
def Body.wordCount : Body → Nat
  | .fields xs => xs.size
  | .bytes xs => Header.wordsForBytes xs.size
  | .words xs => xs.size

namespace Object

/-- The header measures the body. -/
structure Measured (o : Object) : Prop where
  size_eq : o.header.size = o.body.wordCount
  odd_lt : o.header.odd < 8
  bytes_size : ∀ xs, o.body = .bytes xs → o.header.size * 8 - o.header.odd = xs.size

/-- The two objects differ at most in their type and in the elements of their bodies. -/
structure SameShape (o o' : Object) : Prop where
  header_eq : o'.header = { o.header with type := o'.header.type }
  tag_eq : o'.body.tag = o.body.tag
  wordCount_eq : o'.body.wordCount = o.body.wordCount
  bytes_size : ∀ ys, o'.body = .bytes ys → ∃ xs, o.body = .bytes xs ∧ ys.size = xs.size

theorem SameShape.refl (o : Object) : SameShape o o := ⟨rfl, rfl, rfl, fun ys h => ⟨ys, h, rfl⟩⟩

theorem SameShape.trans {o o' o'' : Object} (hs : SameShape o o') (hs' : SameShape o' o'') :
    SameShape o o'' := by
  refine ⟨?_, hs'.tag_eq.trans hs.tag_eq, hs'.wordCount_eq.trans hs.wordCount_eq, ?_⟩
  · rw [hs'.header_eq, hs.header_eq]
  · intro zs hzs
    obtain ⟨ys, hys, hsize'⟩ := hs'.bytes_size zs hzs
    obtain ⟨xs, hxs, hsize⟩ := hs.bytes_size ys hys
    exact ⟨xs, hxs, hsize'.trans hsize⟩

theorem SameShape.words_eq {o o' : Object} (hs : SameShape o o') : o'.words = o.words := by
  unfold words
  rw [hs.header_eq]
  rfl

theorem SameShape.state_eq {o o' : Object} (hs : SameShape o o') :
    o'.header.state = o.header.state := by
  rw [hs.header_eq]

theorem Measured.of_sameShape {o o' : Object} (hm : Measured o) (hs : SameShape o o') :
    Measured o' := by
  constructor
  case size_eq =>
    rw [hs.header_eq, hs.wordCount_eq]
    exact hm.size_eq
  case odd_lt =>
    rw [hs.header_eq]
    exact hm.odd_lt
  case bytes_size =>
    intro ys hys
    obtain ⟨xs, hxs, hsize⟩ := hs.bytes_size ys hys
    rw [hs.header_eq, hsize]
    exact hm.bytes_size xs hxs

/-- A change keeps the shape of every object. -/
def Reshapes (f : Object → Object) : Prop := ∀ o, SameShape o (f o)

theorem Reshapes.state_eq {f : Object → Object} (hf : Reshapes f) (o : Object) :
    (f o).header.state = o.header.state := (hf o).state_eq

theorem reshapes_setType (type : Value) : Reshapes (·.setType type) :=
  fun _ => ⟨rfl, rfl, rfl, fun ys h => ⟨ys, h, rfl⟩⟩

theorem reshapes_setField (i : Nat) (v : Value) : Reshapes (·.setField i v) := by
  rintro ⟨header, body⟩
  cases body with
  | fields xs => exact ⟨rfl, rfl, by simp [setField, Body.wordCount], by rintro _ ⟨⟩⟩
  | bytes xs => exact SameShape.refl _
  | words xs => exact SameShape.refl _

theorem reshapes_setByte (i : Nat) (b : UInt8) : Reshapes (·.setByte i b) := by
  rintro ⟨header, body⟩
  cases body with
  | fields xs => exact SameShape.refl _
  | bytes xs =>
      refine ⟨rfl, rfl, by simp [setByte, Body.wordCount], ?_⟩
      rintro ys ⟨⟩
      exact ⟨xs, rfl, by simp⟩
  | words xs => exact SameShape.refl _

theorem reshapes_setWord (i : Nat) (w : UInt64) : Reshapes (·.setWord i w) := by
  rintro ⟨header, body⟩
  cases body with
  | fields xs => exact SameShape.refl _
  | bytes xs => exact SameShape.refl _
  | words xs => exact ⟨rfl, rfl, by simp [setWord, Body.wordCount], by rintro _ ⟨⟩⟩

theorem reshapes_overwriteFields (start : Nat) (moved : Array Value) :
    Reshapes fun
      | ⟨header, .fields xs⟩ => ⟨header, .fields (Heap.overwrite xs start moved)⟩
      | o => o := by
  rintro ⟨header, body⟩
  cases body with
  | fields xs => exact ⟨rfl, rfl, by simp [Heap.overwrite, Body.wordCount], by rintro _ ⟨⟩⟩
  | bytes xs => exact SameShape.refl _
  | words xs => exact SameShape.refl _

theorem reshapes_overwriteBytes (start : Nat) (moved : Array UInt8) :
    Reshapes fun
      | ⟨header, .bytes xs⟩ => ⟨header, .bytes (Heap.overwrite xs start moved)⟩
      | o => o := by
  rintro ⟨header, body⟩
  cases body with
  | fields xs => exact SameShape.refl _
  | bytes xs =>
      refine ⟨rfl, rfl, by simp [Heap.overwrite, Body.wordCount], ?_⟩
      rintro ys ⟨⟩
      exact ⟨xs, rfl, by simp [Heap.overwrite]⟩
  | words xs => exact SameShape.refl _

theorem sameShape_map (φ : Handle → Handle) (o : Object) : SameShape o (o.map φ) := by
  obtain ⟨header, body⟩ := o
  cases body with
  | fields xs => exact ⟨rfl, rfl, by simp [map, Body.wordCount], by rintro _ ⟨⟩⟩
  | bytes xs => exact ⟨rfl, rfl, rfl, fun ys h => ⟨ys, h, rfl⟩⟩
  | words xs => exact ⟨rfl, rfl, rfl, by rintro _ ⟨⟩⟩

/-! ## New objects -/

theorem measured_ofFields (space : Space) (type : Value) (count : Nat) (fill : Value) :
    Measured (ofFields space type count fill) :=
  ⟨by simp [ofFields, Body.wordCount], by simp [ofFields], by rintro _ ⟨⟩⟩

theorem measured_ofWords (space : Space) (type : Value) (count : Nat) :
    Measured (ofWords space type count) :=
  ⟨by simp [ofWords, Body.wordCount], by simp [ofWords], by rintro _ ⟨⟩⟩

/-- A byte buffer whose words can be counted in 32 bits. -/
theorem measured_ofBytes (space : Space) (type : Value) {bytes : Array UInt8}
    (hsize : Header.wordsForBytes bytes.size < 2 ^ 32) : Measured (ofBytes space type bytes) := by
  have hwords : Header.wordsForBytes bytes.size % 2 ^ 32 = Header.wordsForBytes bytes.size :=
    Nat.mod_eq_of_lt hsize
  have hcover : bytes.size ≤ Header.wordsForBytes bytes.size * 8 ∧
      Header.wordsForBytes bytes.size * 8 < bytes.size + 8 := by
    unfold Header.wordsForBytes
    omega
  constructor
  case size_eq => exact hwords
  case odd_lt =>
    change Header.wordsForBytes bytes.size * 8 - bytes.size < 8
    omega
  case bytes_size =>
    rintro xs ⟨⟩
    change Header.wordsForBytes bytes.size % 2 ^ 32 * 8 -
      (Header.wordsForBytes bytes.size * 8 - bytes.size) = bytes.size
    rw [hwords]
    omega

end Object

namespace Heap

variable {α β : Type} {h h' : Heap}

/-! ## Operations -/

/-- What an operation allocates, if it does. -/
def Operation.allocation? : Operation → Option (HeapM Value)
  | .allocateFields space type count fill => some (Heap.allocateFields space type count fill)
  | .allocateBytes space type length => some (Heap.allocateBytes space type length)
  | .allocateBytesFrom space type bytes => some (Heap.allocateBytesFrom space type bytes)
  | .allocateWords space type count => some (Heap.allocateWords space type count)
  | _ => none

/-- The value whose object an operation changes, if it does. -/
def Operation.target? : Operation → Option Value
  | .setType v _ | .storeField v _ _ | .storeByte v _ _ | .storeWord v _ _ => some v
  | .transferFields _ _ v _ _ | .transferBytes _ _ v _ _ => some v
  | _ => none

/-- The roots of a collection, if the operation is one. -/
def Operation.roots? : Operation → Option (List Value)
  | .collect roots => some roots
  | _ => none

/-- The heap after a sequence of operations. -/
def performAll (ops : List Operation) (h : Heap) : Heap := ops.foldl (fun h op => op.perform h) h

@[simp] theorem performAll_append (xs ys : List Operation) (h : Heap) :
    performAll (xs ++ ys) h = performAll ys (performAll xs h) := List.foldl_append

@[simp] theorem performAll_cons (op : Operation) (ops : List Operation) (h : Heap) :
    performAll (op :: ops) h = performAll ops (op.perform h) := rfl

@[simp] theorem performAll_nil (h : Heap) : performAll [] h = h := rfl

/-- What follows a reading is done with what has been read. -/
theorem read_bind_run (f : Heap → Except HeapFault α) (g : α → HeapM β) (h : Heap) :
    (read f >>= g) h = match f h with
      | .ok a => g a h
      | .error fault => .error fault h := by
  rw [bind_run]
  unfold read
  cases f h <;> rfl

/-! ## Allocations -/

/-- An allocation has put `o` at `a`. -/
structure Allocated (h : Heap) (space : Space) (o : Object) (a : Handle) (h' : Heap) : Prop where
  measured : o.Measured
  state_eq : o.header.state = .initial space
  words_le : o.words ≤ h.settings.segmentWords
  reserve_eq : (h.pool space).reserve o.words = .ok a
  heap_eq : h' = h.modifyPool space (·.push o)

/-- How an allocation ends: with a value for a new object, or with a fault and no change. -/
def Allocating (h : Heap) : EStateM.Result HeapFault Heap Value → Prop
  | .ok v h' => ∃ space o a, v.handle? = some a ∧ v.tag = o.body.tag ∧ Allocated h space o a h'
  | .error fault h' => h' = h ∧ ((∃ words capacity, fault = .objectTooLarge words capacity) ∨
      ∃ space segments, fault = .outOfMemory space segments)

theorem checkSize_eq_ok {bodyWords : Nat} {u : Unit} (hsettings : h.settings.segmentWords < 2 ^ 32)
    (hcheck : h.checkSize bodyWords = .ok u) : headerWords + bodyWords ≤ h.settings.segmentWords := by
  unfold checkSize at hcheck
  dsimp only at hcheck
  split at hcheck
  · cases hcheck
  · next hle =>
    rw [Nat.not_lt] at hle
    rcases Nat.le_total (bodyWords + headerWords) maxCount with hsmall | hlarge
    · rw [Nat.min_eq_left hsmall] at hle
      omega
    · rw [Nat.min_eq_right hlarge] at hle
      exact absurd (hle.trans_lt hsettings) (by decide)

theorem checkSize_eq_error {bodyWords : Nat} {fault : HeapFault}
    (hcheck : h.checkSize bodyWords = .error fault) :
    ∃ words capacity, fault = .objectTooLarge words capacity := by
  unfold checkSize at hcheck
  dsimp only at hcheck
  split at hcheck
  · cases hcheck
    exact ⟨_, _, rfl⟩
  · cases hcheck

/-- An allocation checks the size of the body and then reserves a place. -/
theorem allocating {bodyWords : Nat} {space : Space} {o : Object} {wrap : Handle → Value}
    (hsettings : h.settings.segmentWords < 2 ^ 32) (hwrap : ∀ a, (wrap a).handle? = some a)
    (htag : ∀ a, (wrap a).tag = o.body.tag) (hstate : o.header.state = .initial space)
    (ho : headerWords + bodyWords ≤ h.settings.segmentWords →
      o.Measured ∧ o.words ≤ h.settings.segmentWords) :
    Allocating h ((do
      read (·.checkSize bodyWords)
      return wrap (← allocate space o) : HeapM Value) h) := by
  rw [read_bind_run]
  cases hcheck : h.checkSize bodyWords with
  | error fault => exact ⟨rfl, .inl (checkSize_eq_error hcheck)⟩
  | ok u =>
      obtain ⟨hmeasured, hwords⟩ := ho (checkSize_eq_ok hsettings hcheck)
      dsimp only
      rw [bind_run]
      unfold allocate
      cases hreserve : (h.pool space).reserve o.words with
      | error fault =>
          obtain ⟨segments, rfl⟩ := Pool.reserve_eq_error hreserve
          exact ⟨rfl, .inr ⟨_, _, rfl⟩⟩
      | ok a => exact ⟨space, o, a, hwrap a, htag a, hmeasured, hstate, hwords, hreserve, rfl⟩

theorem allocating_bytes {space : Space} {type : Value} {bytes : Array UInt8}
    (hsettings : h.settings.segmentWords < 2 ^ 32) :
    Allocating h (Heap.allocateBytesFrom space type bytes h) := by
  refine allocating hsettings (fun _ => rfl) (fun _ => rfl) rfl fun hle => ?_
  have hsmall : Header.wordsForBytes bytes.size < 2 ^ 32 := by omega
  refine ⟨Object.measured_ofBytes space type hsmall, ?_⟩
  change headerWords + Header.wordsForBytes bytes.size % 2 ^ 32 ≤ _
  rw [Nat.mod_eq_of_lt hsmall]
  exact hle

/-- Every operation that allocates does so in this way. -/
theorem Operation.allocating {op : Operation} {action : HeapM Value}
    (hop : op.allocation? = some action) (hsettings : h.settings.segmentWords < 2 ^ 32) :
    Allocating h (action h) := by
  cases op <;> cases hop
  case allocateFields space type count fill =>
    exact Heap.allocating hsettings (fun _ => rfl) (fun _ => rfl) rfl
      fun hle => ⟨Object.measured_ofFields space type count fill, hle⟩
  case allocateWords space type count =>
    exact Heap.allocating hsettings (fun _ => rfl) (fun _ => rfl) rfl
      fun hle => ⟨Object.measured_ofWords space type count, hle⟩
  case allocateBytesFrom space type bytes => exact allocating_bytes hsettings
  case allocateBytes space type length =>
    unfold Heap.allocateBytes
    rw [read_bind_run]
    cases hcheck : h.checkSize (Header.wordsForBytes length) with
    | error fault => exact ⟨rfl, .inl (checkSize_eq_error hcheck)⟩
    | ok u => exact allocating_bytes hsettings

/-! ## Changes -/

/-- How a change of the object of `v` ends: with that object reshaped, or with no change. -/
def Changing (v : Value) (h h' : Heap) : Prop :=
  h' = h ∨ ∃ a f, v.handle? = some a ∧ (∃ o, h.resolve a = .ok o) ∧ Object.Reshapes f ∧
    h' = h.update a f

/-- A check that can only be passed by a value with an object. -/
def Finds (v : Value) (check : Heap → Except HeapFault α) : Prop :=
  ∀ h c, check h = .ok c → ∃ o, h.object v = .ok o

theorem changing {v : Value} {check : Heap → Except HeapFault α} {f : Object → Object}
    (hcheck : Finds v check) (hf : Object.Reshapes f) :
    Changing v h (stateAfter (change v check f h)) := by
  unfold change
  split
  · exact .inl rfl
  · next c hc =>
    obtain ⟨o, ho⟩ := hcheck h c hc
    obtain ⟨a, ha, hget⟩ := object_eq_ok.mp ho
    rw [ha]
    exact .inr ⟨a, f, ha, ⟨o, hget⟩, hf, rfl⟩

theorem finds_object (v : Value) : Finds v (·.object v) := fun _ o h => ⟨o, h⟩

theorem finds_bind {v : Value} {x : Heap → Except HeapFault α} (hx : Finds v x)
    (f : Heap → α → Except HeapFault β) : Finds v fun h => x h >>= f h := by
  intro h b hb
  obtain ⟨a, ha, -⟩ := reading_bind_eq_ok.mp hb
  exact hx h a ha

theorem finds_fields (v : Value) : Finds v (·.fields v) := by
  intro h xs hxs
  obtain ⟨a, o, rfl, ho, -⟩ := fields_eq_ok.mp hxs
  exact ⟨o, object_eq_ok.mpr ⟨a, rfl, ho⟩⟩

theorem finds_bytes (v : Value) : Finds v (·.bytes v) := by
  intro h xs hxs
  obtain ⟨a, o, rfl, ho, -⟩ := bytes_eq_ok.mp hxs
  exact ⟨o, object_eq_ok.mpr ⟨a, rfl, ho⟩⟩

theorem finds_words (v : Value) : Finds v (·.words v) := by
  intro h xs hxs
  obtain ⟨a, o, rfl, ho, -⟩ := words_eq_ok.mp hxs
  exact ⟨o, object_eq_ok.mpr ⟨a, rfl, ho⟩⟩

/-- A change that is made with what has been read before. -/
theorem changing_read {v : Value} {f : Heap → Except HeapFault α} {action : α → HeapM Unit}
    (haction : ∀ a, Changing v h (stateAfter (action a h))) :
    Changing v h (stateAfter ((Heap.read f >>= action) h)) := by
  rw [read_bind_run]
  cases f h with
  | error fault => exact .inl rfl
  | ok a => exact haction a

theorem Operation.changing {op : Operation} {v : Value} (hop : op.target? = some v) :
    Changing v h (op.perform h) := by
  cases op <;> cases hop
  case setType type => exact Heap.changing (finds_object _) (Object.reshapes_setType type)
  case storeField i new =>
    exact Heap.changing (finds_bind (finds_fields _) _) (Object.reshapes_setField i new)
  case storeByte i b =>
    exact Heap.changing (finds_bind (finds_bytes _) _) (Object.reshapes_setByte i b)
  case storeWord i w =>
    exact Heap.changing (finds_bind (finds_words _) _) (Object.reshapes_setWord i w)
  case transferFields source sourceStart start count =>
    exact changing_read fun moved => Heap.changing (finds_bind (finds_fields _) _)
      (Object.reshapes_overwriteFields start moved)
  case transferBytes source sourceStart start count =>
    exact changing_read fun moved => Heap.changing (finds_bind (finds_bytes _) _)
      (Object.reshapes_overwriteBytes start moved)

/-! ## The step -/

/-- What an operation does. -/
inductive Performed (h : Heap) (op : Operation) : Heap → Prop where
  | unchanged : Performed h op h
  | allocated {space : Space} {o : Object} {a : Handle} {h' : Heap} :
      Allocated h space o a h' → Performed h op h'
  | changed {v : Value} {a : Handle} {o : Object} {f : Object → Object} : op.target? = some v →
      v.handle? = some a → h.resolve a = .ok o → Object.Reshapes f → Performed h op (h.update a f)
  | collected {roots : List Value} : op.roots? = some roots →
      Performed h op (h.collect roots).heap

theorem Operation.performed (hsettings : h.settings.segmentWords < 2 ^ 32) (op : Operation) :
    Performed h op (op.perform h) := by
  have hallocation : ∀ {action : HeapM Value}, op.allocation? = some action →
      op.perform h = stateAfter (action h) → Performed h op (op.perform h) := by
    intro action hop heq
    have hallocating := op.allocating hop hsettings
    rw [heq]
    cases hrun : action h with
    | ok v h' =>
        rw [hrun] at hallocating
        obtain ⟨space, o, a, -, -, hnew⟩ := hallocating
        exact .allocated hnew
    | error fault h' =>
        rw [hrun] at hallocating
        obtain ⟨rfl, -⟩ := hallocating
        exact .unchanged
  have hchange : ∀ {v}, op.target? = some v → Performed h op (op.perform h) := by
    intro v hop
    rcases op.changing (h := h) hop with heq | ⟨a, f, ha, ⟨o, ho⟩, hf, heq⟩
    · rw [heq]
      exact .unchanged
    · rw [heq]
      exact .changed hop ha ho hf
  cases op
  case allocateFields => exact hallocation rfl rfl
  case allocateBytes => exact hallocation rfl rfl
  case allocateBytesFrom => exact hallocation rfl rfl
  case allocateWords => exact hallocation rfl rfl
  case collect roots => exact .collected rfl
  all_goals exact hchange rfl

end Heap

end MessageMachine
