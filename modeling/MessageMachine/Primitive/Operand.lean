import MessageMachine.Machine.Stack

/-!
# Operands of primitives

A primitive finds its receiver and arguments on top of the stack.  When it succeeds it has put its
answer in their place and answers `true`; when it declines it answers `false`, and whoever tried it
restores the stack pointer.
-/

namespace MessageMachine.Machine

/-- The receiver of a primitive with `argc` arguments. -/
def receiver (m : Machine) (argc : Nat) : Except Fault Value := m.stackValue argc

/-- The `n`-th argument, from 0, of a primitive with `argc` arguments. -/
def argument (m : Machine) (argc n : Nat) : Except Fault Value := m.stackValue (argc - 1 - n)

/-- Replaces the receiver and `argc` arguments by an answer. -/
def answer (argc : Nat) (v : Value) : MachineM Bool := do
  popN (argc + 1)
  push v
  return true

/-- Declines. -/
def decline : MachineM Bool := return false

end MessageMachine.Machine
