import MessageMachine.Machine.Context
import MessageMachine.Primitive.Operand

/-!
# Primitives of control

Evaluating blocks, processes and semaphores, and messages whose selector is computed.
-/

namespace MessageMachine.Machine

/-! ## Blocks -/

/-- Evaluates the receiver with the arguments on the stack. -/
def blockValue (argc : Nat) : MachineM Bool := do
  let block ← read (·.receiver argc)
  unless ← read (·.isBlock block) do return false
  let regs := (← get).regs
  activateBlock block regs.activeContext (regs.sp + 1 - argc) argc (argc + 1)
  return true

/-- Evaluates the receiver with the elements of an array as arguments. -/
def valueWithArguments : MachineM Bool := do
  let block ← read (·.receiver 1)
  let arguments ← read (·.argument 1 0)
  unless ← read (·.isBlock block) do return false
  unless ← read (·.isInstance arguments .array) do return false
  let count ← readHeap (·.fieldCount arguments)
  let expected ← read (·.blockArity block)
  unless count = expected do throw (.wrongArgumentCount expected count)
  activateBlock block arguments 0 count 2
  return true

/-! ## Processes and semaphores -/

/-- Runs the receiver, a block without arguments, in a new process, and answers the process. -/
def forkPrimitive : MachineM Bool := do
  let block ← read (·.receiver 0)
  unless ← read (·.isBlock block) do return false
  let expected ← read (·.blockArity block)
  unless expected = 0 do throw (.wrongArgumentCount expected 0)
  let context ← instantiateBlock block (← landmark .nil)
  answer 0 (← forkProcess context)

/-- Carries out an action on the receiver if that is a semaphore. -/
def onSemaphore (action : Value → MachineM Unit) : MachineM Bool := do
  let semaphore ← read (·.receiver 0)
  unless ← read (·.isInstance semaphore .semaphore) do return false
  action semaphore
  return true

/-- Lets the ready processes run first. -/
def yieldPrimitive : MachineM Bool := do
  yieldProcessor
  return true

/-- Answers the oldest input event, or nil. -/
def nextInputEventPrimitive : MachineM Bool := do
  match ← nextInputEvent with
  | some event => answer 0 (← Value.ofInt event)
  | none => answer 0 (← landmark .nil)

/-- A new semaphore without signals and waiting processes. -/
def newSemaphore : MachineM Value := do
  let semaphore ← newObject .semaphore Slot.semaphoreSize
  storeField semaphore Slot.excessSignals (.ofNat 0)
  return semaphore

/-- Answers a new semaphore. -/
def newSemaphorePrimitive : MachineM Bool := do answer 0 (← newSemaphore)

/-! ## Computed messages -/

/-- Takes the selector from the arguments and sends it with the others.  `send` sends a selector
with one argument fewer. -/
def perform (send : Value → MachineM Unit) (argc : Nat) : MachineM Bool := do
  let selector ← read (·.argument argc 0)
  unless ← read (·.isSymbol selector) do return false
  let context := (← get).regs.activeContext
  let slot := (← get).regs.sp + 1 - argc
  onHeap (Heap.transferFields context (slot + 1) context slot (argc - 1))
  let _ ← pop
  send selector
  return true

end MessageMachine.Machine
