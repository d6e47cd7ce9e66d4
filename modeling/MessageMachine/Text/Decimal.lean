/-!
# Reading decimal numbers

A number is an optional sign and at least one digit, and nothing else.  Reading refuses numbers
outside the given bounds.
-/

namespace MessageMachine.Decimal

/-- The number spelled by digits; none without digits or with any other character. -/
def digits? (cs : List Char) : Option Nat :=
  if cs.isEmpty then none
  else cs.foldlM (fun n c => if c.isDigit then some (n * 10 + (c.toNat - 48)) else none) 0

/-- A 64-bit signed integer. -/
def int? (s : String) : Option Int :=
  let number : Option Int :=
    match s.toList with
    | '-' :: cs => (digits? cs).map fun n => -(n : Int)
    | '+' :: cs => (digits? cs).map Int.ofNat
    | cs => (digits? cs).map Int.ofNat
  number.filter fun n => -(1 <<< 63 : Nat) ≤ n ∧ n < (1 <<< 63 : Nat)

/-- A 64-bit count; a minus sign is refused. -/
def nat? (s : String) : Option Nat :=
  let number :=
    match s.toList with
    | '+' :: cs => digits? cs
    | cs => digits? cs
  number.filter (· < 1 <<< 64)

end MessageMachine.Decimal
