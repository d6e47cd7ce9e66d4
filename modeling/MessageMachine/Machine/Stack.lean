import MessageMachine.Machine.Basic
import MessageMachine.Method.Header

/-!
# Registers and the operand stack

The active context keeps the operand stack and, while it is not running, the instruction pointer
and stack pointer.  `flush` writes the two pointers back; `reload` makes a context active and loads
the registers from it.
-/

namespace MessageMachine.Machine

/-! ## Registers -/

/-- Writes the pointers back into the active context. -/
def flush : MachineM Unit := do
  let regs := (← get).regs
  unless regs.activeContext = (← landmark .nil) do
    storeField regs.activeContext Slot.ip (.ofNat regs.ip)
    storeField regs.activeContext Slot.sp (.ofNat regs.sp)

/-- The registers with `context` active.  A context with an argument count is of a block, and its
temporaries are those of its home. -/
def loadContext (h : Heap) (regs : Registers) (context : Value) : Except HeapFault Registers := do
  let method ← h.fetchField context Slot.contextMethod
  let ip ← (← h.fetchField context Slot.ip).index
  let sp ← (← h.fetchField context Slot.sp).index
  let receiver ← h.fetchField context Slot.receiver
  let isBlock := (← h.fetchField context Slot.blockArguments).isInt
  let home ← if isBlock then h.fetchField context Slot.home else pure context
  let header ← MethodHeader.ofValue (← h.fetchField method Slot.methodHeader)
  let code ← h.fetchField method Slot.methodCode
  let stackLimit ← h.fieldCount context
  let tempCount := header.temporaries.toNat
  return { regs with
    activeContext := context
    homeContext := home
    method, receiver, code, ip, sp, stackLimit, tempCount
    stackBase := if isBlock then Slot.contextTail else Slot.contextTail + tempCount }

/-- Makes a context active. -/
def reload (context : Value) : MachineM Unit := do
  let regs ← read fun m => loadContext m.heap m.regs context
  modifyRegs fun _ => regs

/-- Forgets the active context. -/
def clearRegisters : MachineM Unit := do
  let nil ← landmark .nil
  modifyRegs fun regs =>
    { regs with
      activeContext := nil
      homeContext := nil
      method := nil
      receiver := nil
      code := nil
      ip := 0
      sp := 0 }

/-! ## The operand stack -/

/-- Pushes a value. -/
def push (v : Value) : MachineM Unit := do
  let regs := (← get).regs
  let sp := regs.sp + 1
  if sp ≥ regs.stackLimit then throw (.stackOverflow regs.ip)
  storeField regs.activeContext sp v
  modifyRegs ({ · with sp })

/-- The value `depth` below the top. -/
def stackValue (m : Machine) (depth : Nat) : Except Fault Value := do
  if m.regs.sp < m.regs.stackBase + depth then throw (.stackUnderflow m.regs.ip)
  m.heap.fetchField m.regs.activeContext (m.regs.sp - depth)

/-- Takes the top value off. -/
def pop : MachineM Value := do
  let v ← read (·.stackValue 0)
  modifyRegs fun regs => { regs with sp := regs.sp - 1 }
  return v

/-- Drops `n` values. -/
def popN (n : Nat) : MachineM Unit := do
  let regs := (← get).regs
  if regs.sp + 1 < regs.stackBase + n then throw (.stackUnderflow regs.ip)
  modifyRegs fun regs => { regs with sp := regs.sp - n }

/-! ## Temporaries -/

/-- A temporary of the home context. -/
def temporary (m : Machine) (i : Nat) : Except Fault Value := do
  if i ≥ m.regs.tempCount then throw (.invalidMethod .noTemporary)
  m.heap.fetchField m.regs.homeContext (Slot.contextTail + i)

/-- Sets a temporary of the home context. -/
def storeTemporary (i : Nat) (v : Value) : MachineM Unit := do
  let regs := (← get).regs
  if i ≥ regs.tempCount then throw (.invalidMethod .noTemporary)
  storeField regs.homeContext (Slot.contextTail + i) v

/-- A literal of the running method. -/
def literal (m : Machine) (i : UInt8) : Except Fault Value :=
  m.heap.fetchField m.regs.method (Slot.methodLiterals + i.toNat)

end MessageMachine.Machine
