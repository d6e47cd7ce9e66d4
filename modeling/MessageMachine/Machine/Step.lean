import MessageMachine.Machine.Send

/-!
# Executing one instruction

`step` reads the instruction at the instruction pointer, moves the pointer past it and carries it
out.
-/

namespace MessageMachine.Machine

/-- The value of a special constant. -/
def specialValue (m : Machine) : SpecialConstant → Value
  | .receiver => m.regs.receiver
  | .true => m.known .true
  | .false => m.known .false
  | .nil => m.known .nil
  | .minusOne => .int (-1)
  | .zero => .int 0
  | .one => .int 1
  | .two => .int 2

/-- The value of the global named by a literal; nil if there is none. -/
def literalGlobal (m : Machine) (literal : UInt8) : Except Fault Value := do
  let name ← m.literal literal
  let found ← Table.lookup m.tableConfig m.heap ⟨m.known .globals, .globals⟩ name
  return found.getD (m.known .nil)

/-- Jumps forward. -/
def jump (delta : UInt16) : MachineM Unit :=
  modifyRegs fun regs => { regs with ip := regs.ip + delta.toNat }

/-- Jumps forward if the top of the stack, which has to be a truth value, is `wanted`. -/
def jumpIf (wanted : Bool) (delta : UInt16) : MachineM Unit := do
  let condition ← pop
  let truth ←
    if condition = (← landmark .true) then pure true
    else if condition = (← landmark .false) then pure false
    else throw .mustBeBoolean
  if truth = wanted then jump delta

/-- Returns from the running method or block. -/
def leave : ReturnKind → MachineM Unit
  | .receiver => do methodReturn (← get).regs.receiver
  | .true => do methodReturn (← landmark .true)
  | .false => do methodReturn (← landmark .false)
  | .nil => do methodReturn (← landmark .nil)
  | .topToSender => do methodReturn (← pop)
  | .topToCaller => do blockReturn (← pop)

/-- Carries out an instruction; the instruction pointer is already past it.  `store` carries out the
stores into fields and globals. -/
def execute (store : MachineM Unit → MachineM Unit) : Instruction → MachineM Unit
  | .ret kind => leave kind
  | .pushSpecial constant => do push ((← get).specialValue constant)
  | .pushLiteral index => do push (← read (·.literal index))
  | .pushTemporary index => do push (← read (·.temporary index.toNat))
  | .pushField index => do push (← fetchField (← get).regs.receiver index.toNat)
  | .pushGlobal literal => do push (← read (·.literalGlobal literal))
  | .popStoreTemporary index => do storeTemporary index.toNat (← pop)
  | .popStoreField index => do
    let v ← pop
    let receiver := (← get).regs.receiver
    store (storeField receiver index.toNat v)
  | .popStoreGlobal literal => do
    let name ← read (·.literal literal)
    let v ← pop
    store (setGlobal name v)
  | .pop => do let _ ← pop
  | .dup => do push (← read (·.stackValue 0))
  | .send literal argc => do send store (← read (·.literal literal)) argc.toNat
  | .specialSend selector argc => specialSend store selector argc.toNat
  | .jump delta => jump delta
  | .jumpBack delta => modifyRegs fun regs => { regs with ip := regs.ip - delta.toNat }
  | .jumpIfTrue delta => jumpIf true delta
  | .jumpIfFalse delta => jumpIf false delta
  | .blockCopy argc length => blockCopy argc length

/-- The instruction at the instruction pointer, and the offset after it. -/
def fetch (m : Machine) : Except Fault (Instruction × Nat) := do
  let code ← m.heap.bytes m.regs.code
  Instruction.decodeAt code m.regs.ip

/-- Executes one instruction, with its stores carried out by `store`. -/
def stepWith (store : MachineM Unit → MachineM Unit) : MachineM Unit := do
  let (instruction, next) ← read (·.fetch)
  modifyRegs ({ · with ip := next })
  execute store instruction

/-- Executes one instruction. -/
def step : MachineM Unit := stepWith id

end MessageMachine.Machine
