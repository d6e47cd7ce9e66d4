/-!
# Integer arithmetic

Sums, differences and products, division that rounds down, the remainder that goes with it, and
shifts, on 64-bit integers.  An operation answers none where the result is undefined or does not
fit.
-/

namespace MessageMachine.Arithmetic

/-- The smallest 64-bit integer. -/
abbrev minWord : Int := -(1 <<< 63 : Nat)

/-- The largest 64-bit integer. -/
abbrev maxWord : Int := (1 <<< 63 : Nat) - 1

/-- Whether an integer has 64 bits. -/
def IsWord (n : Int) : Prop := minWord ≤ n ∧ n ≤ maxWord

instance (n : Int) : Decidable (IsWord n) :=
  inferInstanceAs (Decidable (minWord ≤ n ∧ n ≤ maxWord))

/-- A result, if it fits. -/
def checked (n : Int) : Option Int := if IsWord n then some n else none

/-- A result, without the bits that do not fit. -/
def wrapped (n : Int) : Int := (BitVec.ofInt 64 n).toInt

/-! ## Sums and products -/

/-- The sum. -/
def add (a b : Int) : Option Int := checked (a + b)

/-- The difference. -/
def sub (a b : Int) : Option Int := checked (a - b)

/-- The product. -/
def mul (a b : Int) : Option Int := checked (a * b)

/-! ## Division -/

/-- Whether dividing `a` by `b` has no 64-bit answer. -/
def Undivided (a b : Int) : Prop := b = 0 ∨ (a = minWord ∧ b = -1)

instance (a b : Int) : Decidable (Undivided a b) :=
  inferInstanceAs (Decidable (b = 0 ∨ (a = minWord ∧ b = -1)))

/-- The quotient rounded toward zero. -/
def quotient (a b : Int) : Option Int := if Undivided a b then none else some (a.tdiv b)

/-- The remainder with the sign of the dividend. -/
def remainder (a b : Int) : Option Int := if Undivided a b then none else some (a.tmod b)

/-- The quotient rounded down: one less than the one rounded toward zero if the two integers have
different signs and something remains. -/
def floorDiv (a b : Int) : Option Int := do
  let q ← quotient a b
  if a.tmod b ≠ 0 ∧ ¬(a < 0 ↔ b < 0) then return wrapped (q - 1) else return q

/-- The remainder with the sign of the divisor: a remainder of the other sign is moved by the
divisor. -/
def floorMod (a b : Int) : Option Int := do
  let r ← remainder a b
  if r ≠ 0 ∧ ¬(r < 0 ↔ b < 0) then return wrapped (r + b) else return r

/-! ## Bits -/

/-- `a` times two to the power `amount`, rounded down. -/
def shift (a amount : Int) : Option Int :=
  if 0 ≤ amount then
    if a = 0 then some 0
    else if 63 ≤ amount then none
    else checked (a * (1 <<< amount.toNat : Nat))
  else some (a >>> min amount.natAbs 63)

/-- The bitwise conjunction, in two's complement. -/
def bitAnd (a b : Int) : Int := (BitVec.ofInt 64 a &&& BitVec.ofInt 64 b).toInt

/-- The bitwise disjunction, in two's complement. -/
def bitOr (a b : Int) : Int := (BitVec.ofInt 64 a ||| BitVec.ofInt 64 b).toInt

end MessageMachine.Arithmetic
