import MessageMachine.Instruction.Basic
import MessageMachine.Instruction.Opcode

/-!
# Assembling code

A program is assembled from a list of `Directive`s.  Most append one instruction.  Forward jumps
and blocks are written with distance 0 and remembered under a name; binding the name, or ending
the block, patches the distance in.  A mark remembers the current offset for jumps back to it.

Operands below 7 are written inline, all others as an escape byte.
-/

namespace MessageMachine

/-- One step of assembling a program. -/
inductive Directive where
  | pushSpecial (constant : SpecialConstant)
  | pushLiteral (index : UInt8)
  | pushTemporary (index : UInt8)
  | pushField (index : UInt8)
  | pushGlobal (literal : UInt8)
  | popStoreTemporary (index : UInt8)
  | popStoreField (index : UInt8)
  | popStoreGlobal (literal : UInt8)
  | pop
  | dup
  | send (literal argc : UInt8)
  | specialSend (selector argc : UInt8)
  | ret (kind : ReturnKind)
  /-- A forward jump to wherever `label` will be bound. -/
  | jump (label : String)
  | jumpIfTrue (label : String)
  | jumpIfFalse (label : String)
  /-- Lets the jump to `label` land here. -/
  | bind (label : String)
  /-- Remembers the current offset. -/
  | mark (name : String)
  /-- A jump back to a mark. -/
  | jumpBack (name : String)
  /-- Starts the body of a block. -/
  | block (argc : UInt8) (name : String)
  /-- Ends the body of a block. -/
  | endBlock (name : String)
  deriving DecidableEq, Repr, Inhabited

/-- The code written so far, with the offsets of the open jumps, the marks and the length bytes of
the open blocks. -/
structure Assembler where
  code : Array UInt8 := #[]
  jumps : List (String × Nat) := []
  marks : List (String × Nat) := []
  blocks : List (String × Nat) := []
  deriving Repr, Inhabited

namespace Assembler

/-- Appends bytes. -/
def write (a : Assembler) (bytes : List UInt8) : Assembler :=
  { a with code := a.code ++ bytes }

/-- The bytes of an operation with an operand, without what may follow the operand. -/
def operandBytes (op : Opcode) (operand : UInt8) : List UInt8 :=
  if operand < Opcode.escape then [op.withInline operand]
  else [op.withInline Opcode.escape, operand]

/-- The two bytes of a jump. -/
def jumpBytes (op : Opcode) (delta : Nat) : List UInt8 :=
  [op.withInline (.ofNat (delta / 256)), .ofNat delta]

/-- The bytes of a send: short forms for up to two arguments, else a count byte at the end. -/
def sendBytes (zero one two many : Opcode) (operand argc : UInt8) : List UInt8 :=
  match argc with
  | 0 => operandBytes zero operand
  | 1 => operandBytes one operand
  | 2 => operandBytes two operand
  | _ => operandBytes many operand ++ [argc]

/-- Starts a forward jump of distance 0 and remembers it. -/
def forward (a : Assembler) (op : Opcode) (label : String) : Assembler :=
  { a.write (jumpBytes op 0) with jumps := (label, a.code.size) :: a.jumps }

/-- Points the jump at offset `start` to the current offset. -/
def patchJump (a : Assembler) (start : Nat) : Assembler :=
  let delta := a.code.size - (start + 2)
  let first := a.code.getD start 0
  { a with
    code := (a.code.setIfInBounds start
        (Opcode.codeOf first ||| (UInt8.ofNat (delta / 256)) <<< 5)).setIfInBounds (start + 1)
          (.ofNat delta) }

/-- Writes the length of the block whose length bytes are at `start`, high byte first. -/
def patchLength (a : Assembler) (start : Nat) : Assembler :=
  let length := a.code.size - (start + 2)
  { a with
    code := (a.code.setIfInBounds start (.ofNat (length / 256))).setIfInBounds (start + 1)
      (.ofNat length) }

/-- Carries out one directive.  A name that is not open changes nothing. -/
def step (a : Assembler) : Directive → Assembler
  | .pushSpecial constant => a.write (operandBytes .pushSpecial constant.operand)
  | .pushLiteral index => a.write (operandBytes .pushLiteral index)
  | .pushTemporary index => a.write (operandBytes .pushTemporary index)
  | .pushField index => a.write (operandBytes .pushField index)
  | .pushGlobal literal => a.write (operandBytes .pushGlobal literal)
  | .popStoreTemporary index => a.write (operandBytes .popStoreTemporary index)
  | .popStoreField index => a.write (operandBytes .popStoreField index)
  | .popStoreGlobal literal => a.write (operandBytes .popStoreGlobal literal)
  | .pop => a.write [Opcode.pop.code]
  | .dup => a.write [Opcode.dup.code]
  | .send literal argc => a.write (sendBytes .send0 .send1 .send2 .sendN literal argc)
  | .specialSend selector argc =>
    a.write (sendBytes .specialSend0 .specialSend1 .specialSend2 .specialSendN selector argc)
  | .ret kind => a.write (operandBytes .ret kind.operand)
  | .jump label => a.forward .jump label
  | .jumpIfTrue label => a.forward .jumpIfTrue label
  | .jumpIfFalse label => a.forward .jumpIfFalse label
  | .bind label =>
    match a.jumps.lookup label with
    | some start => a.patchJump start
    | none => a
  | .mark name => { a with marks := (name, a.code.size) :: a.marks }
  | .jumpBack name =>
    match a.marks.lookup name with
    | some target => a.write (jumpBytes .jumpBack (a.code.size + 2 - target))
    | none => a
  | .block argc name =>
    let opened := a.write (operandBytes .blockCopy argc)
    { opened.write [0, 0] with blocks := (name, opened.code.size) :: a.blocks }
  | .endBlock name =>
    match a.blocks.lookup name with
    | some start => a.patchLength start
    | none => a

end Assembler

/-- The code of a program. -/
def assemble (program : List Directive) : Array UInt8 :=
  (program.foldl Assembler.step {}).code

end MessageMachine
