/-!
# Instructions

The instructions of the machine with their operands, and the text of each.
-/

namespace MessageMachine

/-- What a return answers, and to whom. -/
inductive ReturnKind where
  | receiver
  | true
  | false
  | nil
  /-- The top of the stack, to the sender of the home context. -/
  | topToSender
  /-- The top of the stack, to the context that evaluated the block. -/
  | topToCaller
  deriving DecidableEq, Repr, Inhabited

namespace ReturnKind

/-- Every kind of return, in the order of the operands. -/
def all : Array ReturnKind := #[receiver, true, false, nil, topToSender, topToCaller]

/-- The operand that names a kind of return. -/
def operand (k : ReturnKind) : UInt8 := .ofNat k.ctorIdx

/-- The kind of return that an operand names. -/
def ofOperand? (n : UInt8) : Option ReturnKind := all[n.toNat]?

theorem ofOperand?_operand (k : ReturnKind) : ofOperand? k.operand = some k := by
  cases k <;> rfl

/-- The name of a kind of return. -/
def name : ReturnKind → String
  | receiver => "Receiver"
  | true => "True"
  | false => "False"
  | nil => "Nil"
  | topToSender => "TopToSender"
  | topToCaller => "TopToCaller"

end ReturnKind

/-- The constants that have an instruction of their own. -/
inductive SpecialConstant where
  | receiver
  | true
  | false
  | nil
  | minusOne
  | zero
  | one
  | two
  deriving DecidableEq, Repr, Inhabited

namespace SpecialConstant

/-- Every constant, in the order of the operands. -/
def all : Array SpecialConstant := #[receiver, true, false, nil, minusOne, zero, one, two]

/-- The operand that names a constant. -/
def operand (c : SpecialConstant) : UInt8 := .ofNat c.ctorIdx

/-- The constant that an operand names. -/
def ofOperand? (n : UInt8) : Option SpecialConstant := all[n.toNat]?

theorem ofOperand?_operand (c : SpecialConstant) : ofOperand? c.operand = some c := by
  cases c <;> rfl

/-- The integer of an integer constant. -/
def toInt? : SpecialConstant → Option Int
  | minusOne => some (-1)
  | zero => some 0
  | one => some 1
  | two => some 2
  | receiver | true | false | nil => none

/-- The name of a constant. -/
def name : SpecialConstant → String
  | receiver => "Receiver"
  | true => "True"
  | false => "False"
  | nil => "Nil"
  | minusOne => "MinusOne"
  | zero => "Zero"
  | one => "One"
  | two => "Two"

end SpecialConstant

/-- An instruction with its operands. -/
inductive Instruction where
  | ret (kind : ReturnKind)
  | pushSpecial (constant : SpecialConstant)
  | pushLiteral (index : UInt8)
  /-- Push a temporary of the home context. -/
  | pushTemporary (index : UInt8)
  /-- Push a field of the receiver. -/
  | pushField (index : UInt8)
  /-- Push the value of the global named by a literal. -/
  | pushGlobal (literal : UInt8)
  | popStoreTemporary (index : UInt8)
  | popStoreField (index : UInt8)
  | popStoreGlobal (literal : UInt8)
  | pop
  | dup
  /-- Send the selector in a literal. -/
  | send (literal argc : UInt8)
  /-- Send a selector of the special selector table. -/
  | specialSend (selector argc : UInt8)
  | jump (delta : UInt16)
  | jumpBack (delta : UInt16)
  | jumpIfTrue (delta : UInt16)
  | jumpIfFalse (delta : UInt16)
  /-- Make a block of the following `length` bytes of code and skip them. -/
  | blockCopy (argc : UInt8) (length : UInt16)
  deriving DecidableEq, Repr, Inhabited

namespace Instruction

/-- The text of an instruction. -/
def text : Instruction → String
  | ret kind => "Return " ++ kind.name
  | pushSpecial constant => "PushSpecial " ++ constant.name
  | pushLiteral index => "PushLiteral " ++ toString index.toNat
  | pushTemporary index => "PushTemporary " ++ toString index.toNat
  | pushField index => "PushField " ++ toString index.toNat
  | pushGlobal literal => "PushGlobal lit" ++ toString literal.toNat
  | popStoreTemporary index => "PopStoreTemporary " ++ toString index.toNat
  | popStoreField index => "PopStoreField " ++ toString index.toNat
  | popStoreGlobal literal => "PopStoreGlobal lit" ++ toString literal.toNat
  | pop => "Pop"
  | dup => "Dup"
  | send literal argc => "Send lit" ++ toString literal.toNat ++ " argc=" ++ toString argc.toNat
  | specialSend selector argc =>
    "SpecialSend #" ++ toString selector.toNat ++ " argc=" ++ toString argc.toNat
  | jump delta => "Jump +" ++ toString delta.toNat
  | jumpBack delta => "JumpBack -" ++ toString delta.toNat
  | jumpIfTrue delta => "JumpIfTrue +" ++ toString delta.toNat
  | jumpIfFalse delta => "JumpIfFalse +" ++ toString delta.toNat
  | blockCopy argc length =>
    "BlockCopy argc=" ++ toString argc.toNat ++ " len=" ++ toString length.toNat

end Instruction

end MessageMachine
