import MessageMachine.Instruction.Assembler
import MessageMachine.Proofs.Instruction.Grammar

/-!
# The bytes of an instruction

`Instruction.encode` is the form in which the assembler writes an instruction.  Wherever these bytes
stand, they are read back as that instruction (`decodeAt_encode`), provided the instruction is
`Encodable`: the distance of a jump has to fit in eleven bits.
-/

namespace MessageMachine

/-- An operation without operand is written with the inline operand 0. -/
theorem Opcode.withInline_zero (op : Opcode) : op.withInline 0 = op.code := by
  cases op <;> rfl

namespace Instruction

open Assembler

/-- The largest distance of a jump. -/
abbrev maxDistance : Nat := 2 ^ 11 - 1

/-- The bytes of an instruction, with an escaped operand only where it does not fit inline. -/
def encode : Instruction → List UInt8
  | .ret kind => operandBytes .ret kind.operand
  | .pushSpecial constant => operandBytes .pushSpecial constant.operand
  | .pushLiteral index => operandBytes .pushLiteral index
  | .pushTemporary index => operandBytes .pushTemporary index
  | .pushField index => operandBytes .pushField index
  | .pushGlobal literal => operandBytes .pushGlobal literal
  | .popStoreTemporary index => operandBytes .popStoreTemporary index
  | .popStoreField index => operandBytes .popStoreField index
  | .popStoreGlobal literal => operandBytes .popStoreGlobal literal
  | .pop => [Opcode.pop.code]
  | .dup => [Opcode.dup.code]
  | .send literal argc => sendBytes .send0 .send1 .send2 .sendN literal argc
  | .specialSend selector argc =>
    sendBytes .specialSend0 .specialSend1 .specialSend2 .specialSendN selector argc
  | .jump delta => jumpBytes .jump delta.toNat
  | .jumpBack delta => jumpBytes .jumpBack delta.toNat
  | .jumpIfTrue delta => jumpBytes .jumpIfTrue delta.toNat
  | .jumpIfFalse delta => jumpBytes .jumpIfFalse delta.toNat
  | .blockCopy argc length =>
    operandBytes .blockCopy argc ++ [.ofNat (length.toNat / 256), .ofNat length.toNat]

/-- The distance of a jump fits in its place. -/
def Encodable : Instruction → Prop
  | .jump delta | .jumpBack delta | .jumpIfTrue delta | .jumpIfFalse delta =>
    delta.toNat ≤ maxDistance
  | _ => True

/-! ## What is written is a form of the instruction -/

theorem operand_operandBytes (op : Opcode) (n : UInt8) : Operand op n (operandBytes op n) := by
  unfold operandBytes
  split
  · next h => exact .inline h
  · exact .escaped n

theorem length_operandBytes_pos (op : Opcode) (n : UInt8) : 0 < (operandBytes op n).length :=
  (operand_operandBytes op n).length_bounds.1

theorem length_encode_pos (i : Instruction) : 0 < i.encode.length := by
  cases i with
  | pop | dup => exact Nat.zero_lt_one
  | jump | jumpBack | jumpIfTrue | jumpIfFalse => exact Nat.zero_lt_two
  | send literal argc | specialSend literal argc =>
    simp only [encode, sendBytes]
    split <;> simp [length_operandBytes_pos]
  | blockCopy argc length => simp [encode]
  | ret | pushSpecial | pushLiteral | pushTemporary | pushField | pushGlobal | popStoreTemporary
  | popStoreField | popStoreGlobal => exact length_operandBytes_pos _ _

/-- A number of two bytes is put together again from its high and its low byte. -/
theorem bigEndian_high_low (n : UInt16) :
    bigEndian (.ofNat (n.toNat / 256)) (.ofNat n.toNat) = n := by
  have hlt := n.toNat_lt
  have hhigh : (UInt8.ofNat (n.toNat / 256)).toNat = n.toNat / 256 := by
    rw [UInt8.toNat_ofNat']
    omega
  have hlow : (UInt8.ofNat n.toNat).toNat = n.toNat % 256 := UInt8.toNat_ofNat'
  rw [bigEndian, hhigh, hlow, Nat.div_add_mod', UInt16.ofNat_toNat]

theorem high_lt {delta : UInt16} (h : delta.toNat ≤ maxDistance) :
    (UInt8.ofNat (delta.toNat / 256)).toNat < 8 := by
  have hle : delta.toNat ≤ 2047 := h
  rw [UInt8.toNat_ofNat']
  omega

/-- The four forms of a send. -/
theorem spells_sendBytes {zero one two many : Opcode} {make : UInt8 → UInt8 → Instruction}
    (hzero : ∀ {n bytes}, Operand zero n bytes → Spells (make n 0) bytes)
    (hone : ∀ {n bytes}, Operand one n bytes → Spells (make n 1) bytes)
    (htwo : ∀ {n bytes}, Operand two n bytes → Spells (make n 2) bytes)
    (hmany : ∀ {n bytes}, Operand many n bytes → ∀ argc, Spells (make n argc) (bytes ++ [argc]))
    (n argc : UInt8) : Spells (make n argc) (sendBytes zero one two many n argc) := by
  unfold sendBytes
  split
  · exact hzero (operand_operandBytes zero n)
  · exact hone (operand_operandBytes one n)
  · exact htwo (operand_operandBytes two n)
  · exact hmany (operand_operandBytes many n) argc

theorem spells_encode {i : Instruction} (hi : i.Encodable) : Spells i i.encode := by
  cases i with
  | ret kind => exact .ret (operand_operandBytes .ret _)
  | pushSpecial constant => exact .pushSpecial (operand_operandBytes .pushSpecial _)
  | pushLiteral index => exact .pushLiteral (operand_operandBytes .pushLiteral _)
  | pushTemporary index => exact .pushTemporary (operand_operandBytes .pushTemporary _)
  | pushField index => exact .pushField (operand_operandBytes .pushField _)
  | pushGlobal literal => exact .pushGlobal (operand_operandBytes .pushGlobal _)
  | popStoreTemporary index =>
    exact .popStoreTemporary (operand_operandBytes .popStoreTemporary _)
  | popStoreField index => exact .popStoreField (operand_operandBytes .popStoreField _)
  | popStoreGlobal literal => exact .popStoreGlobal (operand_operandBytes .popStoreGlobal _)
  | pop =>
    rw [encode, ← Opcode.withInline_zero]
    exact .pop (by decide)
  | dup =>
    rw [encode, ← Opcode.withInline_zero]
    exact .dup (by decide)
  | send literal argc => exact spells_sendBytes .send0 .send1 .send2 .sendN literal argc
  | specialSend selector argc =>
    exact spells_sendBytes .specialSend0 .specialSend1 .specialSend2 .specialSendN selector argc
  | jump delta =>
    have hspells := Spells.jump (high_lt hi) (.ofNat delta.toNat)
    rwa [bigEndian_high_low] at hspells
  | jumpBack delta =>
    have hspells := Spells.jumpBack (high_lt hi) (.ofNat delta.toNat)
    rwa [bigEndian_high_low] at hspells
  | jumpIfTrue delta =>
    have hspells := Spells.jumpIfTrue (high_lt hi) (.ofNat delta.toNat)
    rwa [bigEndian_high_low] at hspells
  | jumpIfFalse delta =>
    have hspells := Spells.jumpIfFalse (high_lt hi) (.ofNat delta.toNat)
    rwa [bigEndian_high_low] at hspells
  | blockCopy argc length =>
    have hspells := Spells.blockCopy (operand_operandBytes .blockCopy argc)
      (.ofNat (length.toNat / 256)) (.ofNat length.toNat)
    rwa [bigEndian_high_low] at hspells

/-- Where the bytes of an instruction stand, that instruction is read. -/
theorem decodeAt_encode {code : Array UInt8} {pos : Nat} {i : Instruction} (hi : i.Encodable)
    (h : BytesAt code pos i.encode) : decodeAt code pos = .ok (i, pos + i.encode.length) :=
  decodeAt_of_spells (spells_encode hi) h

end Instruction

end MessageMachine
