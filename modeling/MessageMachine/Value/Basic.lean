/-!
# Values

Everything a program can hold is a `Value`: a small integer, or a reference to a heap object
tagged with the way that object stores its body (fields, bytes or words).  A reference carries a
`Handle`, which names the object by pool, epoch, segment and position instead of by address.

Two values are the same object of the language exactly when they are equal here, so identity is
decidable equality.
-/

namespace MessageMachine

/-! ## Handles -/

/-- The allocation pool an object lives in. -/
inductive Space where
  /-- Ordinary objects, moved by every collection. -/
  | ephemeral
  /-- Permanent objects, never moved and always scanned. -/
  | root
  deriving DecidableEq, Repr, Inhabited

namespace Space

/-- The name used in messages. -/
def name : Space → String
  | ephemeral => "Ephemeral"
  | root => "Root"

/-- The letter that starts the text of a handle. -/
def letter : Space → String
  | ephemeral => "e"
  | root => "r"

end Space

/-- Where an object is: its pool, the epoch of that pool in which the handle was issued, and its
segment and position there.  The epoch tells a handle kept across a collection from one issued
after it, even when the position is occupied again. -/
structure Handle where
  space : Space
  epoch : Nat
  segment : Nat
  index : Nat
  deriving DecidableEq, Repr, Inhabited

namespace Handle

/-- The largest position in a segment that a handle can name. -/
abbrev maxIndex : Nat := 1 <<< 20 - 1

/-- The largest segment number that a handle can name. -/
abbrev maxSegment : Nat := 1 <<< 12 - 1

/-- The largest epoch that a handle can carry; the epoch after it is zero. -/
abbrev maxEpoch : Nat := 1 <<< 28 - 1

/-- The handles whose numbers fit their places in a word. -/
structure InRange (a : Handle) : Prop where
  epoch_le : a.epoch ≤ maxEpoch
  segment_le : a.segment ≤ maxSegment
  index_le : a.index ≤ maxIndex

instance (a : Handle) : Decidable a.InRange :=
  decidable_of_iff (a.epoch ≤ maxEpoch ∧ a.segment ≤ maxSegment ∧ a.index ≤ maxIndex)
    ⟨fun ⟨h₁, h₂, h₃⟩ => ⟨h₁, h₂, h₃⟩, fun ⟨h₁, h₂, h₃⟩ => ⟨h₁, h₂, h₃⟩⟩

/-- The text of a handle, such as `e1:0:3`. -/
def text (a : Handle) : String :=
  a.space.letter ++ toString a.epoch ++ ":" ++ toString a.segment ++ ":" ++ toString a.index

end Handle

/-! ## Values -/

/-- The four kinds of value. -/
inductive Tag where
  | smallInt
  | object
  | bytes
  | words
  deriving DecidableEq, Repr, Inhabited

namespace Tag

/-- The name used in messages. -/
def name : Tag → String
  | smallInt => "SmallInt"
  | object => "Object"
  | bytes => "Bytes"
  | words => "Words"

end Tag

/-- A small integer, or a reference to a fielded object, a byte buffer or a word buffer. -/
inductive Value where
  | int (n : Int)
  | object (a : Handle)
  | bytes (a : Handle)
  | words (a : Handle)
  deriving DecidableEq, Repr, Inhabited

namespace Value

/-- The smallest small integer. -/
abbrev minInt : Int := -(1 <<< 62 : Nat)

/-- The largest small integer. -/
abbrev maxInt : Int := (1 <<< 62 : Nat) - 1

/-- A count or position as a value. -/
abbrev ofNat (n : Nat) : Value := .int n

/-- An integer as a value, of which only the lowest 63 bits are kept. -/
abbrev wrapping (n : Int) : Value := .int (n.bmod (1 <<< 63))

/-- The kind of a value. -/
def tag : Value → Tag
  | .int _ => .smallInt
  | .object _ => .object
  | .bytes _ => .bytes
  | .words _ => .words

/-- Whether the value is a small integer. -/
def isInt : Value → Bool
  | .int _ => true
  | _ => false

/-- The integer, if the value is one. -/
def toInt? : Value → Option Int
  | .int n => some n
  | _ => none

/-- The handle, if the value is a reference. -/
def handle? : Value → Option Handle
  | .int _ => none
  | .object a | .bytes a | .words a => some a

/-- The same kind of reference, to another place.  An integer stays as it is. -/
def relocate (v : Value) (a : Handle) : Value :=
  match v with
  | .int n => .int n
  | .object _ => .object a
  | .bytes _ => .bytes a
  | .words _ => .words a

/-- The text of a value, such as `SmallInt(7)` or `Bytes(e1:0:3)`. -/
def text (v : Value) : String :=
  v.tag.name ++ "(" ++
    (match v with
      | .int n => toString n
      | .object a | .bytes a | .words a => a.text) ++ ")"

/-- A small integer is kept as it is. -/
theorem wrapping_eq {n : Int} (hmin : minInt ≤ n) (hmax : n ≤ maxInt) : wrapping n = .int n := by
  have hlow : minInt = -2 ^ 62 := by decide
  have hhigh : maxInt = 2 ^ 62 - 1 := by decide
  exact congrArg Value.int (Int.bmod_eq_of_le_mul_two (by omega) (by omega))

@[simp] theorem tag_relocate (v : Value) (a : Handle) : (v.relocate a).tag = v.tag := by
  cases v <;> rfl

@[simp] theorem relocate_relocate (v : Value) (a b : Handle) :
    (v.relocate a).relocate b = v.relocate b := by
  cases v <;> rfl

end Value

end MessageMachine
