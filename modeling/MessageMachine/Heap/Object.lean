import MessageMachine.Heap.Fault

/-!
# Objects

An object is a header and a body.  The header counts the body in words; for a byte buffer it also
counts the unused bytes of the last word.
-/

namespace MessageMachine

/-- Where an object is in its life. -/
inductive Lifecycle where
  /-- In its place in the current epoch. -/
  | live
  /-- Moved by the collection under way; its copy is at the handle. -/
  | forwarded (copy : Handle)
  /-- In the root pool, never moved. -/
  | permanent
  deriving DecidableEq, Repr, Inhabited

namespace Lifecycle

/-- The text of a state. -/
def text : Lifecycle → String
  | live => "Original"
  | forwarded copy => "Forwarded(" ++ copy.text ++ ")"
  | permanent => "Permanent"

/-- How objects of a pool start. -/
def initial : Space → Lifecycle
  | .ephemeral => live
  | .root => permanent

end Lifecycle

/-- How many words a header takes. -/
abbrev headerWords : Nat := 2

/-- What is known about an object besides its body. -/
structure Header where
  /-- Body words. -/
  size : Nat
  /-- Unused bytes of the last word of a byte buffer. -/
  odd : Nat
  type : Value
  state : Lifecycle
  deriving DecidableEq, Repr, Inhabited

namespace Header

/-- How many words it takes to hold `length` bytes. -/
def wordsForBytes (length : Nat) : Nat := (length + 7) / 8

/-- The header of a byte buffer.  The size is kept in 32 bits. -/
def forBytes (length : Nat) (type : Value) (state : Lifecycle) : Header :=
  let words := wordsForBytes length
  ⟨words % (1 <<< 32), words * 8 - length, type, state⟩

/-- The length of a byte buffer. -/
def byteLength (h : Header) : Nat := h.size * 8 - h.odd

/-- Header and body, in words. -/
def totalWords (h : Header) : Nat := headerWords + h.size

/-- Whether the object has been moved. -/
def isForwarded (h : Header) : Bool :=
  match h.state with
  | .forwarded _ => true
  | _ => false

/-- Whether the object is never moved. -/
def isPermanent (h : Header) : Bool := h.state = .permanent

end Header

/-- The contents of an object. -/
inductive Body where
  | fields (xs : Array Value)
  | bytes (xs : Array UInt8)
  | words (xs : Array UInt64)
  deriving DecidableEq, Repr, Inhabited

/-- A header and a body. -/
structure Object where
  header : Header
  body : Body
  deriving DecidableEq, Repr, Inhabited

namespace Object

/-- Header and body, in words. -/
def words (o : Object) : Nat := o.header.totalWords

/-- A fielded object whose fields are all `fill`. -/
def ofFields (space : Space) (type : Value) (count : Nat) (fill : Value) : Object :=
  ⟨⟨count, 0, type, .initial space⟩, .fields (Array.replicate count fill)⟩

/-- A byte buffer. -/
def ofBytes (space : Space) (type : Value) (bytes : Array UInt8) : Object :=
  ⟨.forBytes bytes.size type (.initial space), .bytes bytes⟩

/-- A word buffer of zeros. -/
def ofWords (space : Space) (type : Value) (count : Nat) : Object :=
  ⟨⟨count, 0, type, .initial space⟩, .words (Array.replicate count 0)⟩

/-- The object with another type. -/
def setType (o : Object) (type : Value) : Object := { o with header.type := type }

/-- The object with a field changed. -/
def setField (o : Object) (i : Nat) (v : Value) : Object :=
  match o with
  | ⟨header, .fields xs⟩ => ⟨header, .fields (xs.setIfInBounds i v)⟩
  | o => o

/-- The object with a byte changed. -/
def setByte (o : Object) (i : Nat) (b : UInt8) : Object :=
  match o with
  | ⟨header, .bytes xs⟩ => ⟨header, .bytes (xs.setIfInBounds i b)⟩
  | o => o

/-- The object with a word changed. -/
def setWord (o : Object) (i : Nat) (w : UInt64) : Object :=
  match o with
  | ⟨header, .words xs⟩ => ⟨header, .words (xs.setIfInBounds i w)⟩
  | o => o

end Object

end MessageMachine
