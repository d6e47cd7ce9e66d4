import MessageMachine.Arithmetic
import MessageMachine.Primitive.Operand

/-!
# Integer primitives

An operand that is no integer, or a result that is no small integer, makes the primitive decline.
-/

namespace MessageMachine.Machine

/-- The two integers that an integer primitive works on. -/
def integers (m : Machine) : Except Fault (Int × Int) := do
  let a ← (← m.receiver 1).smallInt
  let b ← (← m.argument 1 0).smallInt
  return (a, b)

/-- Answers the result of an operation on integers. -/
def arithmetic (op : Int → Int → Option Int) : MachineM Bool := do
  let (a, b) ← read (·.integers)
  match op a b with
  | some n => answer 1 (← Value.ofInt n)
  | none => decline

/-- Answers whether two integers are related. -/
def comparison (op : Int → Int → Bool) : MachineM Bool := do
  let (a, b) ← read (·.integers)
  answer 1 ((← get).known.ofBool (op a b))

/-- Answers whether an integer equals any value, or whether it differs from it. -/
def integerEquality (wanted : Bool) : MachineM Bool := do
  let receiver ← read (·.receiver 1)
  unless receiver.isInt do return false
  let argument ← read (·.argument 1 0)
  answer 1 ((← get).known.ofBool (decide (receiver = argument) == wanted))

end MessageMachine.Machine
