import MessageMachine.Machine.Method
import MessageMachine.Primitive.Control
import MessageMachine.Primitive.Number
import MessageMachine.Primitive.Storage

/-!
# Sending messages

A send looks up the selector in the type of the receiver and invokes the method it finds.  A
primitive that declines leaves the stack pointer as it was, and the code of its method runs
instead.

A message without a method becomes `doesNotUnderstand:` with the selector as argument.  A receiver
without a method for that either fails the run.

## Computed messages

`perform:` sends a message from within a primitive, with one argument fewer than itself.  So sends
nest at most as deep as there are arguments, and `sendWith` recurses on their number.  The handler
of an unknown message is invoked with one argument; if it performs that selector, which is still
unknown, it would do so for ever.

## Stores of the program

A program stores into fields by `basicAt:put:`, by methods that are setters, and by instructions.
`store` carries out each of these stores; the machine itself uses `id`.
-/

namespace MessageMachine

namespace Primitive

open Machine

/-- Carries out a primitive that has its arguments on the stack.  `send` sends a selector with one
argument fewer. -/
def run (store : MachineM Unit → MachineM Unit) (send : Value → MachineM Unit) :
    Primitive → MachineM Bool
  | intAdd => arithmetic Arithmetic.add
  | intSub => arithmetic Arithmetic.sub
  | intMul => arithmetic Arithmetic.mul
  | intDiv => arithmetic Arithmetic.floorDiv
  | intMod => arithmetic Arithmetic.floorMod
  | intLess => comparison fun a b => a < b
  | intGreater => comparison fun a b => a > b
  | intLessEqual => comparison fun a b => a ≤ b
  | intGreaterEqual => comparison fun a b => a ≥ b
  | intEqual => integerEquality true
  | intNotEqual => integerEquality false
  | intBitAnd => arithmetic fun a b => some (Arithmetic.bitAnd a b)
  | intBitOr => arithmetic fun a b => some (Arithmetic.bitOr a b)
  | intBitShift => arithmetic Arithmetic.shift
  | identical => identicalPrimitive
  | classOf => classPrimitive
  | basicNew => Machine.basicNew
  | basicNewSized => Machine.basicNewSized
  | basicAt => Machine.basicAt
  | basicAtPut => Machine.basicAtPut store
  | basicSize => Machine.basicSize
  | hash => hashPrimitive
  | blockValue => Machine.blockValue 0
  | blockValue1 => Machine.blockValue 1
  | blockValue2 => Machine.blockValue 2
  | blockValue3 => Machine.blockValue 3
  | blockValueWithArguments => valueWithArguments
  | perform => Machine.perform send 1
  | performWith => Machine.perform send 2
  | performWithWith => Machine.perform send 3
  | fork => forkPrimitive
  | semaphoreWait => onSemaphore Machine.wait
  | semaphoreSignal => onSemaphore Machine.signal
  | processorYield => yieldPrimitive
  | nextInputEvent => nextInputEventPrimitive
  | newSemaphore => newSemaphorePrimitive

end Primitive

namespace Machine

variable (store : MachineM Unit → MachineM Unit)

/-! ## Invoking a method -/

/-- Carries out a primitive.  If it declines, or fails by a refused access, the stack pointer is
put back and the answer is `false`. -/
def attempt (action : MachineM Bool) : MachineM Bool := fun m =>
  let sp := m.regs.sp
  match action m with
  | .ok true m => .ok true m
  | .ok false m => .ok false { m with regs.sp := sp }
  | .error fault m =>
    if fault.abortsPrimitive then .error fault m else .ok false { m with regs.sp := sp }

/-- Tries a primitive by number.  An unknown number or a wrong count of arguments declines. -/
def tryPrimitive (send : Value → MachineM Unit) (number argc : Nat) : MachineM Bool :=
  match Primitive.ofNumber? number with
  | some p => if p.arity = argc then attempt (p.run store send) else return false
  | none => return false

/-- Runs a method for the receiver and arguments on the stack. -/
def invoke (send : Value → MachineM Unit) (method : Value) (argc : Nat) : MachineM Unit := do
  let header ← read fun m => do
    return (← MethodHeader.ofValue (← m.heap.fetchField method Slot.methodHeader) : MethodHeader)
  unless header.arguments.toNat = argc do
    throw (.wrongArgumentCount header.arguments.toNat argc)
  let index := header.index.toNat
  match header.kind with
  | .bytecodes => activateMethod method header argc
  | .primitive =>
    unless ← tryPrimitive store send index argc do activateMethod method header argc
  | .returnField =>
    let receiver ← pop
    push (← fetchField receiver index)
  | .popAndStoreField =>
    let v ← pop
    let receiver ← read (·.stackValue 0)
    store (storeField receiver index v)

/-! ## Sending -/

/-- Sends a selector with `argc` arguments.  `unknown` says what becomes of a message that the type
of the receiver has no method for. -/
def dispatch (unknown : Value → Value → Nat → MachineM Unit) (send : Value → MachineM Unit)
    (argc : Nat) (selector : Value) : MachineM Unit := do
  let receiver ← read (·.stackValue argc)
  let type ← read (·.classOf receiver)
  match ← lookup type selector with
  | some method => invoke store send method argc
  | none => unknown type selector argc

/-- Sends a selector, with the sends that this leads to at once. -/
def sendWith (unknown : Value → Value → Nat → MachineM Unit) :
    (argc : Nat) → (selector : Value) → MachineM Unit
  | 0 => dispatch store unknown (fun _ => throw .endless) 0
  | argc + 1 => dispatch store unknown (sendWith unknown argc) (argc + 1)

/-- Passes an unknown message on to the receiver's handler, or fails if there is none. -/
def doesNotUnderstand (type selector : Value) (argc : Nat) : MachineM Unit := do
  let handlerSelector ← landmark .doesNotUnderstand
  let handler ← if selector = handlerSelector then pure none else lookup type handlerSelector
  match handler with
  | some handler =>
    popN argc
    push selector
    invoke store (sendWith store (fun _ _ _ => throw .endless) 0) handler 1
  | none =>
    let selectorText ← read (·.textOf selector)
    let typeText ← read (·.typeName type)
    throw (.unknownSelector selectorText typeText)

/-- Sends a selector to the receiver below `argc` arguments on the stack. -/
def send (selector : Value) (argc : Nat) : MachineM Unit :=
  sendWith store (doesNotUnderstand store) argc selector

/-- Sends a selector of the special selector table, trying its primitive first. -/
def specialSend (index : UInt8) (argc : Nat) : MachineM Unit := do
  match SpecialSelector.table[index.toNat]? with
  | none => throw (.invalidSpecialSelector index)
  | some entry =>
    unless entry.arity = argc do throw (.wrongArgumentCount entry.arity argc)
    let done ← match entry.primitive with
      | some p => tryPrimitive store (send store · (argc - 1)) p.number argc
      | none => pure false
    unless done do
      send store (← fetchField (← landmark .specialSelectors) index.toNat) argc

end Machine

end MessageMachine
