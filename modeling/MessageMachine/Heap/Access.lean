import MessageMachine.Heap.Basic

/-!
# Checked access to objects

Every access first checks the kind of the value, then that its handle is current, then the kind of
the body it finds, then the index.  The first check that fails decides the fault, and a refused
access changes nothing.
-/

namespace MessageMachine.Heap

/-! ## Objects -/

/-- The object that a value refers to. -/
def object (h : Heap) (v : Value) : Except HeapFault Object := do
  let a ← v.handle
  (h.pool a.space).get a

/-- The heap with the object at a handle changed. -/
def update (h : Heap) (a : Handle) (f : Object → Object) : Heap :=
  h.modifyPool a.space (·.update a.segment a.index f)

/-- The header of an object. -/
def header (h : Heap) (v : Value) : Except HeapFault Header := do
  return (← h.object v).header

/-- The type recorded in the header of an object. -/
def typeOf (h : Heap) (v : Value) : Except HeapFault Value := do
  return (← h.object v).header.type

/-- Whether an object is never moved. -/
def isPermanent (h : Heap) (v : Value) : Except HeapFault Bool := do
  return (← h.object v).header.isPermanent

/-- Changes the object of `v` once `check` has accepted the heap. -/
def change (v : Value) (check : Heap → Except HeapFault α) (f : Object → Object) : HeapM Unit :=
  fun h =>
    match check h with
    | .error fault => .error fault h
    | .ok _ =>
      match v.handle? with
      | some a => .ok () (h.update a f)
      | none => .ok () h

/-- Records another type for an object. -/
def setType (v type : Value) : HeapM Unit := change v (·.object v) (·.setType type)

/-! ## Bodies -/

/-- The fields of a fielded object. -/
def fields (h : Heap) (v : Value) : Except HeapFault (Array Value) := do
  let _ ← v.expect .object
  match (← h.object v).body with
  | .fields xs => return xs
  | _ => throw (.value (.tagMismatch .object v.tag))

/-- The contents of a byte buffer. -/
def bytes (h : Heap) (v : Value) : Except HeapFault (Array UInt8) := do
  let _ ← v.expect .bytes
  match (← h.object v).body with
  | .bytes xs => return xs
  | _ => throw (.value (.tagMismatch .bytes v.tag))

/-- The contents of a word buffer. -/
def words (h : Heap) (v : Value) : Except HeapFault (Array UInt64) := do
  let _ ← v.expect .words
  match (← h.object v).body with
  | .words xs => return xs
  | _ => throw (.value (.tagMismatch .words v.tag))

/-- The element of an array at an index. -/
def element (xs : Array α) (i : Nat) : Except HeapFault α :=
  match xs[i]? with
  | some x => .ok x
  | none => .error (.value (.outOfRange i xs.size))

/-- How many fields an object has. -/
def fieldCount (h : Heap) (v : Value) : Except HeapFault Nat := do
  return (← h.fields v).size

/-- How many bytes a buffer has. -/
def byteSize (h : Heap) (v : Value) : Except HeapFault Nat := do
  return (← h.bytes v).size

/-- How many words a buffer has. -/
def wordCount (h : Heap) (v : Value) : Except HeapFault Nat := do
  return (← h.words v).size

/-- A field of an object. -/
def fetchField (h : Heap) (v : Value) (i : Nat) : Except HeapFault Value := do
  element (← h.fields v) i

/-- A byte of a buffer. -/
def fetchByte (h : Heap) (v : Value) (i : Nat) : Except HeapFault UInt8 := do
  element (← h.bytes v) i

/-- A word of a buffer. -/
def fetchWord (h : Heap) (v : Value) (i : Nat) : Except HeapFault UInt64 := do
  element (← h.words v) i

/-! ## Stores -/

/-- Sets a field of an object. -/
def storeField (v : Value) (i : Nat) (new : Value) : HeapM Unit :=
  change v (·.fetchField v i) (·.setField i new)

/-- Sets a byte of a buffer. -/
def storeByte (v : Value) (i : Nat) (b : UInt8) : HeapM Unit :=
  change v (·.fetchByte v i) (·.setByte i b)

/-- Sets a word of a buffer. -/
def storeWord (v : Value) (i : Nat) (w : UInt64) : HeapM Unit :=
  change v (·.fetchWord v i) (·.setWord i w)

/-! ## Transfers -/

/-- The elements `start, …, start + count - 1` of an array. -/
def slice (xs : Array α) (start count : Nat) : Except HeapFault (Array α) :=
  if start + count ≤ xs.size then .ok (xs.extract start (start + count))
  else .error (.value (.outOfRange (start + count) xs.size))

/-- The array with the elements from `start` on replaced by those of `ys`. -/
def overwrite (xs : Array α) (start : Nat) (ys : Array α) : Array α :=
  xs.mapIdx fun i x => if start ≤ i then (ys[i - start]?).getD x else x

/-- Copies `count` fields of `source` over fields of `target`.  The source range is read before
anything is written, so the ranges may overlap. -/
def transferFields (source : Value) (sourceStart : Nat) (target : Value)
    (targetStart count : Nat) : HeapM Unit := do
  let moved ← read fun h => do slice (← h.fields source) sourceStart count
  change target (fun h => do slice (← h.fields target) targetStart count) fun
    | ⟨header, .fields xs⟩ => ⟨header, .fields (overwrite xs targetStart moved)⟩
    | o => o

/-- Copies `count` bytes of `source` over bytes of `target`, as `transferFields` does. -/
def transferBytes (source : Value) (sourceStart : Nat) (target : Value)
    (targetStart count : Nat) : HeapM Unit := do
  let moved ← read fun h => do slice (← h.bytes source) sourceStart count
  change target (fun h => do slice (← h.bytes target) targetStart count) fun
    | ⟨header, .bytes xs⟩ => ⟨header, .bytes (overwrite xs targetStart moved)⟩
    | o => o

end MessageMachine.Heap
