import MessageMachine.Machine.Scheduler

/-!
# Contexts

Activating a method or a block makes a context for it; returning leaves the context and resumes
another one.  A context whose instruction pointer is nil has been left and cannot be resumed.

A block is made as a template.  Each evaluation runs in a context of its own, so a block can be
entered again while it runs.
-/

namespace MessageMachine.Machine

/-! ## Methods -/

/-- A new context for a method, without arguments. -/
def newMethodContext (method : Value) (header : MethodHeader) (sender receiver : Value) :
    MachineM Value := do
  let temps := header.temporaries.toNat
  let depth := (← get).settings.contextStackDepth
  let context ← newObject .methodContext (Slot.contextTail + temps + depth)
  storeField context Slot.sender sender
  storeField context Slot.ip (.ofNat 0)
  storeField context Slot.sp (.ofNat (Slot.contextTail + temps - 1))
  storeField context Slot.contextMethod method
  storeField context Slot.receiver receiver
  return context

/-- Activates a method for the receiver and arguments on the stack. -/
def activateMethod (method : Value) (header : MethodHeader) (argc : Nat) : MachineM Unit := do
  let receiver ← read (·.stackValue argc)
  let sender := (← get).regs.activeContext
  let context ← newMethodContext method header sender receiver
  let firstArgument := (← get).regs.sp + 1 - argc
  onHeap (Heap.transferFields sender firstArgument context Slot.contextTail argc)
  popN (argc + 1)
  flush
  reload context

/-- A context without sender, for a request from outside. -/
def entryContext (method receiver : Value) (arguments : List Value) : MachineM Value := do
  let header ← read fun m => do
    return (← MethodHeader.ofValue (← m.heap.fetchField method Slot.methodHeader) : MethodHeader)
  unless header.kind.hasCode do throw (.invalidMethod .noEntryCode)
  unless header.arguments.toNat = arguments.length do
    throw (.wrongArgumentCount header.arguments.toNat arguments.length)
  let context ← newMethodContext method header (← landmark .nil) receiver
  arguments.zipIdx.forM fun (v, i) => storeField context (Slot.contextTail + i) v
  return context

/-! ## Blocks -/

/-- Pushes a block for the code that follows, and skips that code. -/
def blockCopy (argc : UInt8) (length : UInt16) : MachineM Unit := do
  let body := (← get).regs.ip
  let depth := (← get).settings.contextStackDepth
  let block ← newObject .blockContext (Slot.contextTail + depth)
  let regs := (← get).regs
  let homeSender ← fetchField regs.homeContext Slot.sender
  storeField block Slot.sender homeSender
  storeField block Slot.ip (.ofNat body)
  storeField block Slot.sp (.ofNat (Slot.contextTail - 1))
  storeField block Slot.contextMethod regs.method
  storeField block Slot.receiver regs.receiver
  storeField block Slot.home regs.homeContext
  storeField block Slot.initialIp (.ofNat body)
  storeField block Slot.blockArguments (.ofNat argc.toNat)
  push block
  modifyRegs ({ · with ip := body + length.toNat })

/-- Whether a value is a block. -/
def isBlock (m : Machine) (v : Value) : Except Fault Bool := m.isInstance v .blockContext

/-- How many arguments a block takes. -/
def blockArity (m : Machine) (block : Value) : Except Fault Nat := do
  return (← (← m.heap.fetchField block Slot.blockArguments).index : Nat)

/-- A new context that runs a block from its start, with an empty stack. -/
def instantiateBlock (block caller : Value) : MachineM Value := do
  let size ← readHeap (·.fieldCount block)
  let context ← newObject .blockContext size
  onHeap (Heap.transferFields block 0 context 0 Slot.contextTail)
  let initialIp ← fetchField block Slot.initialIp
  storeField context Slot.ip initialIp
  storeField context Slot.sp (.ofNat (Slot.contextTail - 1))
  storeField context Slot.caller caller
  return context

/-- Evaluates a block with `argc` arguments, found in the fields of `source` from `first` on, after
dropping `consumed` values from the stack. -/
def activateBlock (block source : Value) (first argc consumed : Nat) : MachineM Unit := do
  let expected ← read (·.blockArity block)
  unless expected = argc do throw (.wrongArgumentCount expected argc)
  let context ← instantiateBlock block (← get).regs.activeContext
  onHeap (Heap.transferFields source first context Slot.contextTail argc)
  storeField context Slot.sp (.ofNat (Slot.contextTail + argc - 1))
  popN consumed
  flush
  reload context

/-! ## Returns -/

/-- Marks a context as left. -/
def markLeft (context : Value) : MachineM Unit := do
  storeField context Slot.ip (← landmark .nil)

/-- Whether a context has been left. -/
def hasBeenLeft (m : Machine) (context : Value) : Except Fault Bool := do
  return (← m.heap.fetchField context Slot.ip) = m.known .nil

/-- Goes on with a context, giving it a value; without one the process is finished. -/
def resume (target v : Value) : MachineM Unit := do
  if target = (← landmark .nil) then processFinished v
  else
    if ← read (·.hasBeenLeft target) then throw .cannotReturn
    reload target
    push v

/-- Answers a value to the sender of the home context.  From a block this leaves the home context
too, which must not have been left before. -/
def methodReturn (v : Value) : MachineM Unit := do
  let regs := (← get).regs
  if regs.homeContext ≠ regs.activeContext then
    if ← read (·.hasBeenLeft regs.homeContext) then throw .cannotReturn
    markLeft regs.activeContext
  let target ← fetchField regs.homeContext Slot.sender
  markLeft regs.homeContext
  resume target v

/-- Answers a value to the context that evaluated the block.  In a method this is a method
return. -/
def blockReturn (v : Value) : MachineM Unit := do
  let regs := (← get).regs
  if regs.activeContext = regs.homeContext then methodReturn v
  else
    let caller ← fetchField regs.activeContext Slot.caller
    storeField regs.activeContext Slot.caller (← landmark .nil)
    markLeft regs.activeContext
    resume caller v

end MessageMachine.Machine
