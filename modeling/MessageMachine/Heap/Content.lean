import MessageMachine.Heap.Access

/-!
# Contents of buffers

Byte and word buffers are compared and hashed by contents; a word counts as its eight bytes, lowest
first.  Shorter contents come first, and contents of one length are ordered byte by byte.
-/

namespace MessageMachine

/-- A byte read as a signed number. -/
def signedByte (b : UInt8) : Int := b.toInt8.toInt

/-- The hash of contents: the absolute value of the sum of the bytes, read as signed. -/
def contentHash (bytes : Array UInt8) : Nat :=
  (bytes.foldl (fun sum b => sum + signedByte b) 0).natAbs

/-- The eight bytes of a word, lowest first. -/
def wordBytes (w : UInt64) : List UInt8 :=
  (List.range 8).map fun k => (w >>> (8 * k).toUInt64).toUInt8

/-- The order of contents: by length, then byte by byte. -/
def compareContents (a b : List UInt8) : Ordering :=
  (compare a.length b.length).then (List.compareLex compare a b)

namespace Heap

/-- The contents of a buffer, as bytes. -/
def content (h : Heap) (v : Value) : Except HeapFault (Array UInt8) :=
  match v with
  | .bytes _ => h.bytes v
  | .words _ => do return ((← h.words v).toList.flatMap wordBytes).toArray
  | _ => throw (.value (.tagMismatch .bytes v.tag))

/-- The hash of the contents of a buffer. -/
def hashOf (h : Heap) (v : Value) : Except HeapFault Nat := do
  return contentHash (← h.content v)

/-- The order of the contents of two buffers. -/
def contentCompare (h : Heap) (a b : Value) : Except HeapFault Ordering := do
  let x ← h.content a
  let y ← h.content b
  return compareContents x.toList y.toList

/-- Whether two buffers have the same contents. -/
def contentEquals (h : Heap) (a b : Value) : Except HeapFault Bool := do
  return (← h.contentCompare a b) = .eq

end Heap

end MessageMachine
