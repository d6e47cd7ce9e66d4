/-!
# Operation codes

The first byte of an instruction holds its operation in the low five bits and a small operand in
the high three.  The operand 7 is an escape: the operand is then the next byte.  Jumps never
escape; their three bits are the high bits of an 11-bit distance whose low byte always follows.
-/

namespace MessageMachine

/-- The 24 operations. -/
inductive Opcode where
  | ret
  | pushSpecial
  | pushLiteral
  | pushTemporary
  | pushField
  | pushGlobal
  | popStoreTemporary
  | popStoreField
  | popStoreGlobal
  | pop
  | dup
  | send0
  | send1
  | send2
  | sendN
  | specialSend0
  | specialSend1
  | specialSend2
  | specialSendN
  | jump
  | jumpBack
  | jumpIfTrue
  | jumpIfFalse
  | blockCopy
  deriving DecidableEq, Repr, Inhabited

namespace Opcode

/-- Every operation, in the order of the codes. -/
def all : Array Opcode :=
  #[ret, pushSpecial, pushLiteral, pushTemporary, pushField, pushGlobal, popStoreTemporary,
    popStoreField, popStoreGlobal, pop, dup, send0, send1, send2, sendN, specialSend0,
    specialSend1, specialSend2, specialSendN, jump, jumpBack, jumpIfTrue, jumpIfFalse, blockCopy]

/-- How many operations there are. -/
def count : Nat := all.size

/-- The number of an operation. -/
def code (op : Opcode) : UInt8 := .ofNat op.ctorIdx

/-- The operation with a given number. -/
def ofCode? (n : UInt8) : Option Opcode := all[n.toNat]?

theorem ofCode?_code (op : Opcode) : ofCode? op.code = some op := by cases op <;> rfl

/-- Whether the operation transfers control by a distance. -/
def isJump : Opcode → Bool
  | jump | jumpBack | jumpIfTrue | jumpIfFalse => true
  | _ => false

/-- The name of an operation. -/
def name : Opcode → String
  | ret => "Return"
  | pushSpecial => "PushSpecial"
  | pushLiteral => "PushLiteral"
  | pushTemporary => "PushTemporary"
  | pushField => "PushField"
  | pushGlobal => "PushGlobal"
  | popStoreTemporary => "PopStoreTemporary"
  | popStoreField => "PopStoreField"
  | popStoreGlobal => "PopStoreGlobal"
  | pop => "Pop"
  | dup => "Dup"
  | send0 => "Send0"
  | send1 => "Send1"
  | send2 => "Send2"
  | sendN => "SendN"
  | specialSend0 => "SpecialSend0"
  | specialSend1 => "SpecialSend1"
  | specialSend2 => "SpecialSend2"
  | specialSendN => "SpecialSendN"
  | jump => "Jump"
  | jumpBack => "JumpBack"
  | jumpIfTrue => "JumpIfTrue"
  | jumpIfFalse => "JumpIfFalse"
  | blockCopy => "BlockCopy"

/-- The inline operand that defers to the next byte. -/
abbrev escape : UInt8 := 7

/-- The first byte of an instruction. -/
def withInline (op : Opcode) (inline : UInt8) : UInt8 := op.code ||| inline <<< 5

/-- The operation bits of a first byte. -/
def codeOf (first : UInt8) : UInt8 := first &&& 0x1f

/-- The inline operand of a first byte. -/
def inlineOf (first : UInt8) : UInt8 := first >>> 5

end Opcode

end MessageMachine
