import MessageMachine.Value.Basic

/-!
# Reading a value as what it should be

Each accessor answers the payload of a value or says why there is none.  `ValueFault` lists the
reasons; its `message` is the one place with their wording.
-/

namespace MessageMachine

/-- Why a value or an index was refused. -/
inductive ValueFault where
  | tagMismatch (expected found : Tag)
  | outOfRange (index limit : Nat)
  | negativeIndex (n : Int)
  | smallIntOverflow (n : Int)
  deriving DecidableEq, Repr, Inhabited

namespace ValueFault

/-- What is told about the refusal. -/
def message : ValueFault → String
  | tagMismatch expected found =>
    "tag mismatch: expected " ++ expected.name ++ ", found " ++ found.name
  | outOfRange index limit =>
    "index " ++ toString index ++ " out of range (limit " ++ toString limit ++ ")"
  | negativeIndex n => "negative index " ++ toString n
  | smallIntOverflow n => toString n ++ " does not fit in a small integer"

end ValueFault

namespace Value

/-- The integer as a value, if it is in the range of small integers. -/
def ofInt (n : Int) : Except ValueFault Value :=
  if minInt ≤ n ∧ n ≤ maxInt then .ok (.int n) else .error (.smallIntOverflow n)

/-- The integer of a small integer. -/
def smallInt (v : Value) : Except ValueFault Int :=
  match v with
  | .int n => .ok n
  | _ => .error (.tagMismatch .smallInt v.tag)

/-- A small integer as an index or count: it has to be non-negative. -/
def index (v : Value) : Except ValueFault Nat :=
  match v with
  | .int n => if n < 0 then .error (.negativeIndex n) else .ok n.toNat
  | _ => .error (.tagMismatch .smallInt v.tag)

/-- The handle of any reference. -/
def handle (v : Value) : Except ValueFault Handle :=
  match v.handle? with
  | some a => .ok a
  | none => .error (.tagMismatch .object .smallInt)

/-- The handle of a reference of the wanted kind.  No handle is ever expected of a small
integer. -/
def expect (v : Value) (wanted : Tag) : Except ValueFault Handle :=
  match v.handle? with
  | some a => if v.tag = wanted then .ok a else .error (.tagMismatch wanted v.tag)
  | none => .error (.tagMismatch wanted v.tag)

end Value

end MessageMachine
