import MessageMachine.Proofs.Heap.Operations

/-!
# How accessors are refused

An `Accessor` is a request to the heap that names one object by a value: a reading, a store, or one
end of a transfer or comparison.  All of them ask for the kind of the value first and then for the
object, so a value whose handle is stale is refused in one of two ways: for its kind, if the accessor
wants another one, and as stale otherwise (`fault?_of_stale`).
-/

namespace MessageMachine.Heap

variable {α β : Type} {h : Heap} {v : Value} {a : Handle}

/-- The requests that name one object. -/
inductive Accessor where
  | header
  | typeOf
  | isPermanent
  | setType (type : Value)
  | fieldCount
  | fetchField (i : Nat)
  | storeField (i : Nat) (new : Value)
  /-- The object is the source of a transfer. -/
  | fieldsTo (start : Nat) (target : Value) (targetStart count : Nat)
  /-- The object is the target of a transfer. -/
  | fieldsFrom (source : Value) (sourceStart start count : Nat)
  | bytes
  | byteSize
  | fetchByte (i : Nat)
  | storeByte (i : Nat) (b : UInt8)
  | bytesTo (start : Nat) (target : Value) (targetStart count : Nat)
  | bytesFrom (source : Value) (sourceStart start count : Nat)
  | wordCount
  | fetchWord (i : Nat)
  | storeWord (i : Nat) (w : UInt64)
  | hashOf
  | compareWith (other : Value)
  /-- The object is the second of a comparison. -/
  | comparedWith (other : Value)
  | equalTo (other : Value)
  deriving Repr

/-- The fault of a reading that fails. -/
def readingFault : Except HeapFault α → Option HeapFault
  | .ok _ => none
  | .error fault => some fault

/-- The fault of an action that fails. -/
def actionFault : EStateM.Result HeapFault Heap α → Option HeapFault
  | .ok _ _ => none
  | .error fault _ => some fault

namespace Accessor

/-- How the accessor is refused for `v`, if it is. -/
def fault? (v : Value) (h : Heap) : Accessor → Option HeapFault
  | header => readingFault (h.header v)
  | typeOf => readingFault (h.typeOf v)
  | isPermanent => readingFault (h.isPermanent v)
  | setType type => actionFault (Heap.setType v type h)
  | fieldCount => readingFault (h.fieldCount v)
  | fetchField i => readingFault (h.fetchField v i)
  | storeField i new => actionFault (Heap.storeField v i new h)
  | fieldsTo start target targetStart count =>
    actionFault (transferFields v start target targetStart count h)
  | fieldsFrom source sourceStart start count =>
    actionFault (transferFields source sourceStart v start count h)
  | bytes => readingFault (h.bytes v)
  | byteSize => readingFault (h.byteSize v)
  | fetchByte i => readingFault (h.fetchByte v i)
  | storeByte i b => actionFault (Heap.storeByte v i b h)
  | bytesTo start target targetStart count =>
    actionFault (transferBytes v start target targetStart count h)
  | bytesFrom source sourceStart start count =>
    actionFault (transferBytes source sourceStart v start count h)
  | wordCount => readingFault (h.wordCount v)
  | fetchWord i => readingFault (h.fetchWord v i)
  | storeWord i w => actionFault (Heap.storeWord v i w h)
  | hashOf => readingFault (h.hashOf v)
  | compareWith other => readingFault (h.contentCompare v other)
  | comparedWith other => readingFault (h.contentCompare other v)
  | equalTo other => readingFault (h.contentEquals v other)

/-- The kinds of value that the accessor is for. -/
def accepts : Accessor → Tag → Bool
  | header, _ | typeOf, _ | isPermanent, _ | setType _, _ => true
  | fieldCount, t | fetchField _, t | storeField _ _, t | fieldsTo .., t | fieldsFrom .., t =>
    t = .object
  | bytes, t | byteSize, t | fetchByte _, t | storeByte _ _, t | bytesTo .., t | bytesFrom .., t =>
    t = .bytes
  | wordCount, t | fetchWord _, t | storeWord _ _, t => t = .words
  | hashOf, t | compareWith _, t | comparedWith _, t | equalTo _, t => t = .bytes ∨ t = .words

/-- The kind that a refusal for the kind of the value names. -/
def expected : Accessor → Tag
  | header | typeOf | isPermanent | setType _ => .object
  | fieldCount | fetchField _ | storeField _ _ | fieldsTo .. | fieldsFrom .. => .object
  | bytes | byteSize | fetchByte _ | storeByte _ _ | bytesTo .. | bytesFrom .. => .bytes
  | wordCount | fetchWord _ | storeWord _ _ => .words
  | hashOf | compareWith _ | comparedWith _ | equalTo _ => .bytes

/-- The other object of the request, if it is looked at first, can be read. -/
def Ready (h : Heap) : Accessor → Prop
  | fieldsFrom source sourceStart _ count =>
    ∃ xs, (do slice (← h.fields source) sourceStart count) = .ok xs
  | bytesFrom source sourceStart _ count =>
    ∃ xs, (do slice (← h.bytes source) sourceStart count) = .ok xs
  | comparedWith other => ∃ xs, h.content other = .ok xs
  | _ => True

/-- How the accessor is refused for a value whose handle is stale. -/
def refusal (x : Accessor) (v : Value) (a : Handle) : HeapFault :=
  if x.accepts v.tag then .staleHandle a else .value (.tagMismatch x.expected v.tag)

end Accessor

/-! ## Stale values -/

/-- How a value is refused by a request for one kind. -/
def kindRefusal (wanted : Tag) (v : Value) (a : Handle) : HeapFault :=
  if decide (v.tag = wanted) then .staleHandle a else .value (.tagMismatch wanted v.tag)

/-- The value refers to no object of the heap. -/
structure Stale (h : Heap) (v : Value) (a : Handle) : Prop where
  handle_eq : v.handle? = some a
  resolve_eq : h.resolve a = .error (.staleHandle a)

namespace Stale

variable (hs : Stale h v a)
include hs

theorem object_eq : h.object v = .error (.staleHandle a) := by
  have hhandle : v.handle = .ok a := Value.handle_eq_ok.mpr hs.handle_eq
  unfold Heap.object
  rw [hhandle]
  exact hs.resolve_eq

theorem expect_eq (wanted : Tag) : v.expect wanted =
    if v.tag = wanted then .ok a else .error (.tagMismatch wanted v.tag) := by
  unfold Value.expect
  rw [hs.handle_eq]

/-- A request for one kind asks for the kind first. -/
theorem expect_bind_eq {wanted : Tag} {f : Object → Except HeapFault α} :
    (do
      let _ ← v.expect wanted
      f (← h.object v) : Except HeapFault α) = .error (kindRefusal wanted v a) := by
  rw [hs.expect_eq, hs.object_eq]
  unfold kindRefusal
  by_cases htag : v.tag = wanted <;> simp only [htag, decide_true, decide_false, if_true] <;> rfl

theorem fields_eq : h.fields v = .error (kindRefusal .object v a) := hs.expect_bind_eq

theorem bytes_eq : h.bytes v = .error (kindRefusal .bytes v a) := hs.expect_bind_eq

theorem words_eq : h.words v = .error (kindRefusal .words v a) := hs.expect_bind_eq

theorem content_eq : h.content v = .error
    (if decide (v.tag = .bytes ∨ v.tag = .words) then .staleHandle a
      else .value (.tagMismatch .bytes v.tag)) := by
  have hhandle := hs.handle_eq
  cases v with
  | int n => cases hhandle
  | object b => rfl
  | bytes b => exact hs.bytes_eq
  | words b =>
      unfold content
      rw [hs.words_eq]
      rfl

end Stale

theorem readingFault_bind {x : Except HeapFault α} {fault : HeapFault} (hx : x = .error fault)
    (f : α → Except HeapFault β) : readingFault (x >>= f) = some fault := by
  rw [hx]
  rfl

theorem actionFault_change {check : Heap → Except HeapFault α} {fault : HeapFault}
    (hcheck : check h = .error fault) (f : Object → Object) :
    actionFault (change v check f h) = some fault := by
  unfold change
  rw [hcheck]
  rfl

theorem actionFault_read_bind {f : Heap → Except HeapFault α} {fault : HeapFault}
    (hf : f h = .error fault) (g : α → HeapM β) : actionFault ((read f >>= g) h) = some fault := by
  rw [read_bind_run, hf]
  rfl

theorem error_bind {x : Except HeapFault α} {fault : HeapFault} (hx : x = .error fault)
    (f : α → Except HeapFault β) : (x >>= f) = .error fault := by
  rw [hx]
  rfl

/-- A stale value is refused by every accessor, for its kind or as stale. -/
theorem fault?_of_stale (hs : Stale h v a) (x : Accessor) (hready : x.Ready h) :
    x.fault? v h = some (x.refusal v a) := by
  have hobject := hs.object_eq
  have hfields := hs.fields_eq
  have hbytes := hs.bytes_eq
  have hwords := hs.words_eq
  have hcontent := hs.content_eq
  cases x with
  | header | typeOf | isPermanent => exact readingFault_bind hobject _
  | setType type => exact actionFault_change hobject _
  | fieldCount => exact readingFault_bind hfields _
  | fetchField i => exact readingFault_bind hfields _
  | storeField i new => exact actionFault_change (error_bind hfields _) _
  | fieldsTo start target targetStart count =>
      exact actionFault_read_bind (error_bind hfields _) _
  | fieldsFrom source sourceStart start count =>
      obtain ⟨xs, hxs⟩ := hready
      change actionFault ((read _ >>= _) h) = _
      rw [read_bind_run, hxs]
      exact actionFault_change (error_bind hfields _) _
  | bytes =>
      exact congrArg readingFault hbytes
  | byteSize => exact readingFault_bind hbytes _
  | fetchByte i => exact readingFault_bind hbytes _
  | storeByte i b => exact actionFault_change (error_bind hbytes _) _
  | bytesTo start target targetStart count =>
      exact actionFault_read_bind (error_bind hbytes _) _
  | bytesFrom source sourceStart start count =>
      obtain ⟨xs, hxs⟩ := hready
      change actionFault ((read _ >>= _) h) = _
      rw [read_bind_run, hxs]
      exact actionFault_change (error_bind hbytes _) _
  | wordCount => exact readingFault_bind hwords _
  | fetchWord i => exact readingFault_bind hwords _
  | storeWord i w => exact actionFault_change (error_bind hwords _) _
  | hashOf => exact readingFault_bind hcontent _
  | compareWith other => exact readingFault_bind hcontent _
  | comparedWith other =>
      obtain ⟨xs, hxs⟩ := hready
      change readingFault (h.content other >>= fun x => h.content v >>= _) = _
      rw [hxs]
      exact readingFault_bind hcontent _
  | equalTo other => exact readingFault_bind (error_bind hcontent _) _

end MessageMachine.Heap
