import MessageMachine.Instruction.Basic
import MessageMachine.Instruction.Opcode

/-!
# Reading instructions from bytes

`Instruction.decodeAt` reads the instruction that starts at an offset and answers it with the
offset after it.  `Instruction.listing` reads a whole body, instruction after instruction, up to
its end or to the first place that does not start an instruction.
-/

namespace MessageMachine

/-- Why bytes are not an instruction. -/
inductive Malformation where
  | pastEnd
  | unknownOpcode
  | truncatedJump
  | truncatedOperand
  | invalidReturn
  | invalidConstant
  | truncatedArgumentCount
  | truncatedBlockLength
  deriving DecidableEq, Repr, Inhabited

namespace Malformation

/-- What is told about it. -/
def message : Malformation → String
  | pastEnd => "instruction past end of code"
  | unknownOpcode => "unknown opcode"
  | truncatedJump => "truncated jump"
  | truncatedOperand => "truncated escape operand"
  | invalidReturn => "invalid return operand"
  | invalidConstant => "invalid special constant"
  | truncatedArgumentCount => "truncated argument count"
  | truncatedBlockLength => "truncated block length"

end Malformation

/-- An instruction that cannot be read: where it starts, its first byte (0 past the end) and what
is wrong with it. -/
structure MalformedCode where
  ip : Nat
  byte : UInt8
  reason : Malformation
  deriving DecidableEq, Repr, Inhabited

namespace MalformedCode

/-- A byte as two hexadecimal digits. -/
def hexByte (b : UInt8) : String :=
  String.ofList [Nat.digitChar (b.toNat / 16), Nat.digitChar (b.toNat % 16)]

/-- What is told about it. -/
def message (m : MalformedCode) : String :=
  "malformed bytecode at " ++ toString m.ip ++ ": " ++ m.reason.message ++
    " (byte 0x" ++ hexByte m.byte ++ ")"

end MalformedCode

namespace Instruction

/-- The byte at an offset and the offset after it. -/
def byteAt (code : Array UInt8) (pos : Nat) (missing : Malformation) :
    Except Malformation (UInt8 × Nat) :=
  match code[pos]? with
  | some b => .ok (b, pos + 1)
  | none => .error missing

/-- The operand of an instruction: the inline one, or the next byte if that is the escape. -/
def operandAt (code : Array UInt8) (inline : UInt8) (pos : Nat) :
    Except Malformation (UInt8 × Nat) :=
  if inline = Opcode.escape then byteAt code pos .truncatedOperand else .ok (inline, pos)

/-- The distance of a jump: high bits inline, low byte next. -/
def deltaAt (code : Array UInt8) (inline : UInt8) (pos : Nat) :
    Except Malformation (UInt16 × Nat) := do
  let (low, next) ← byteAt code pos .truncatedJump
  return (.ofNat (inline.toNat * 256 + low.toNat), next)

/-- The rest of an instruction of operation `op`, read from `pos` on, given the inline operand of
its first byte. -/
def operandsAt (code : Array UInt8) (op : Opcode) (inline : UInt8) (pos : Nat) :
    Except Malformation (Instruction × Nat) :=
  match op with
  | .ret => do
    let (n, next) ← operandAt code inline pos
    match ReturnKind.ofOperand? n with
    | some kind => return (ret kind, next)
    | none => throw .invalidReturn
  | .pushSpecial => do
    let (n, next) ← operandAt code inline pos
    match SpecialConstant.ofOperand? n with
    | some constant => return (pushSpecial constant, next)
    | none => throw .invalidConstant
  | .pushLiteral => operand pushLiteral
  | .pushTemporary => operand pushTemporary
  | .pushField => operand pushField
  | .pushGlobal => operand pushGlobal
  | .popStoreTemporary => operand popStoreTemporary
  | .popStoreField => operand popStoreField
  | .popStoreGlobal => operand popStoreGlobal
  | .pop => .ok (pop, pos)
  | .dup => .ok (dup, pos)
  | .send0 => operand (send · 0)
  | .send1 => operand (send · 1)
  | .send2 => operand (send · 2)
  | .sendN => counted send
  | .specialSend0 => operand (specialSend · 0)
  | .specialSend1 => operand (specialSend · 1)
  | .specialSend2 => operand (specialSend · 2)
  | .specialSendN => counted specialSend
  | .jump => distance jump
  | .jumpBack => distance jumpBack
  | .jumpIfTrue => distance jumpIfTrue
  | .jumpIfFalse => distance jumpIfFalse
  | .blockCopy => do
    let (argc, next) ← operandAt code inline pos
    let (high, next) ← byteAt code next .truncatedBlockLength
    let (low, next) ← byteAt code next .truncatedBlockLength
    return (blockCopy argc (.ofNat (high.toNat * 256 + low.toNat)), next)
where
  operand (make : UInt8 → Instruction) : Except Malformation (Instruction × Nat) := do
    let (n, next) ← operandAt code inline pos
    return (make n, next)
  counted (make : UInt8 → UInt8 → Instruction) : Except Malformation (Instruction × Nat) := do
    let (n, next) ← operandAt code inline pos
    let (argc, next) ← byteAt code next .truncatedArgumentCount
    return (make n argc, next)
  distance (make : UInt16 → Instruction) : Except Malformation (Instruction × Nat) := do
    let (delta, next) ← deltaAt code inline pos
    return (make delta, next)

/-- The instruction that starts at `ip`, and the offset after it. -/
def decodeAt (code : Array UInt8) (ip : Nat) : Except MalformedCode (Instruction × Nat) :=
  match code[ip]? with
  | none => .error ⟨ip, 0, .pastEnd⟩
  | some first =>
    match Opcode.ofCode? (Opcode.codeOf first) with
    | none => .error ⟨ip, first, .unknownOpcode⟩
    | some op =>
      match operandsAt code op (Opcode.inlineOf first) (ip + 1) with
      | .ok result => .ok result
      | .error reason => .error ⟨ip, first, reason⟩

/-- The instructions of a body with their offsets, the offset where reading stopped, and the
reason if that is not the end. -/
structure Listing where
  instructions : List (Nat × Instruction)
  offset : Nat
  fault : Option MalformedCode
  deriving DecidableEq, Repr, Inhabited

/-- Reads at most `fuel` instructions from `ip` on. -/
def listingFrom (code : Array UInt8) : (fuel : Nat) → (ip : Nat) → Listing
  | 0, ip => ⟨[], ip, none⟩
  | fuel + 1, ip =>
    if code.size ≤ ip then ⟨[], ip, none⟩
    else
      match decodeAt code ip with
      | .error fault => ⟨[], ip, some fault⟩
      | .ok (instruction, next) =>
        let rest := listingFrom code fuel next
        { rest with instructions := (ip, instruction) :: rest.instructions }

/-- Reads a whole body.  Every instruction takes at least one byte, so the size of the body bounds
their number. -/
def listing (code : Array UInt8) : Listing := listingFrom code code.size 0

/-- Accepts the bodies that are instructions from start to end. -/
def check (code : Array UInt8) : Except MalformedCode Unit :=
  match (listing code).fault with
  | some fault => .error fault
  | none => .ok ()

end Instruction

end MessageMachine
