import MessageMachine.Value.Access

/-!
# Instance formats

A type says how its instances are stored and whether they have indexed slots beyond their fixed
fields.  The format is kept in the type as a small integer: the low two bits name the storage and
the third bit says that instances are indexable.
-/

namespace MessageMachine

/-- How the body of an object is stored. -/
inductive Storage where
  | fields
  | bytes
  | words
  deriving DecidableEq, Repr, Inhabited

namespace Storage

/-- The kind of value that refers to a body stored this way. -/
def tag : Storage → Tag
  | fields => .object
  | bytes => .bytes
  | words => .words

/-- The two-bit code of a storage. -/
def code : Storage → Nat
  | fields => 0
  | bytes => 1
  | words => 2

end Storage

/-- How the instances of a type are stored, and whether they have indexed slots. -/
structure Format where
  storage : Storage
  indexable : Bool
  deriving DecidableEq, Repr, Inhabited

namespace Format

/-- Fields only, as many as the type declares. -/
def fixed : Format := ⟨.fields, false⟩

/-- Declared fields followed by any number of indexed ones. -/
def indexed : Format := ⟨.fields, true⟩

/-- A byte buffer. -/
def byteBuffer : Format := ⟨.bytes, true⟩

/-- A word buffer. -/
def wordBuffer : Format := ⟨.words, true⟩

/-- The small integer that stands for a format. -/
def code (f : Format) : Nat := f.storage.code + (if f.indexable then 4 else 0)

/-- The format as it is kept in a type. -/
def toValue (f : Format) : Value := .ofNat f.code

/-- The format that a value stands for.  Bits above the third are ignored; storage code 3 is
refused. -/
def ofValue (v : Value) : Except ValueFault Format := do
  let bits ← v.smallInt
  let indexable := bits / 4 % 2 = 1
  match (bits % 4).toNat with
  | 0 => return ⟨.fields, indexable⟩
  | 1 => return ⟨.bytes, indexable⟩
  | 2 => return ⟨.words, indexable⟩
  | code => throw (.outOfRange code 3)

theorem ofValue_toValue (f : Format) : ofValue f.toValue = .ok f := by
  rcases f with ⟨s, i⟩
  cases s <;> cases i <;> rfl

end Format

end MessageMachine
