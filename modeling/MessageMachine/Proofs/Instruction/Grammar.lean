import Mathlib.Algebra.Ring.Nat
import MessageMachine.Instruction.Decoder
import MessageMachine.Proofs.Action

/-!
# The grammar of instructions

`Spells i bytes` says that `bytes` is one of the forms of the instruction `i`, without reference to a
decoder.  Its first byte holds an operation and three more bits, and what these mean depends on the
operation: an operand or its escape, the high bits of a distance, or nothing.

The decoder reads precisely this language: it misses no form (`decodeAt_of_spells`) and invents none
(`spells_of_decodeAt`).  Both directions follow the parts of a form, the operand (`Operand`) and what
stands after it.
-/

namespace MessageMachine

/-! ## Bytes in their places -/

/-- Reads the bytes of the code from a place on. -/
def BytesAt (code : Array UInt8) (pos : Nat) (bytes : List UInt8) : Prop :=
  ∀ k b, bytes[k]? = some b → code[pos + k]? = some b

namespace BytesAt

variable {code : Array UInt8} {pos : Nat}

theorem nil : BytesAt code pos [] := by
  intro k b hk
  cases hk

theorem cons {b : UInt8} {bytes : List UInt8} (hb : code[pos]? = some b)
    (h : BytesAt code (pos + 1) bytes) : BytesAt code pos (b :: bytes) := by
  intro k c hk
  cases k with
  | zero => exact hb.trans hk
  | succ k =>
    have hshift : pos + (k + 1) = pos + 1 + k := by omega
    rw [hshift]
    exact h k c hk

theorem head {b : UInt8} {bytes : List UInt8} (h : BytesAt code pos (b :: bytes)) :
    code[pos]? = some b := h 0 b rfl

theorem tail {b : UInt8} {bytes : List UInt8} (h : BytesAt code pos (b :: bytes)) :
    BytesAt code (pos + 1) bytes := by
  intro k c hk
  have hshift : pos + 1 + k = pos + (k + 1) := by omega
  rw [hshift]
  exact h (k + 1) c hk

theorem append {xs ys : List UInt8} (hxs : BytesAt code pos xs)
    (hys : BytesAt code (pos + xs.length) ys) : BytesAt code pos (xs ++ ys) := by
  induction xs generalizing pos with
  | nil => exact hys
  | cons x xs ih =>
    refine cons hxs.head (ih hxs.tail ?_)
    rwa [List.length_cons, ← Nat.add_assoc, Nat.add_right_comm] at hys

/-- Code that is put together from three parts holds the middle one where the first one ends. -/
theorem of_toList {xs ys zs : List UInt8} (h : code.toList = xs ++ ys ++ zs) :
    BytesAt code xs.length ys := by
  intro k b hk
  have hlt := (List.getElem?_eq_some_iff.mp hk).1
  rw [← Array.getElem?_toList, h, List.append_assoc,
    List.getElem?_append_right (Nat.le_add_right _ _), Nat.add_sub_cancel_left,
    List.getElem?_append_left hlt]
  exact hk

/-- Bytes that the rest of the code starts with are in their places. -/
theorem of_isPrefix {bytes : List UInt8} (hpos : pos ≤ code.size)
    (h : bytes <+: code.toList.drop pos) : BytesAt code pos bytes := by
  obtain ⟨rest, hrest⟩ := h
  have hlength : (code.toList.take pos).length = pos := by
    rw [List.length_take, Array.length_toList, Nat.min_eq_left hpos]
  have hplace : BytesAt code (code.toList.take pos).length bytes :=
    of_toList (by rw [List.append_assoc, hrest, List.take_append_drop])
  rwa [hlength] at hplace

theorem length_le {bytes : List UInt8} (hbytes : bytes ≠ []) (h : BytesAt code pos bytes) :
    pos + bytes.length ≤ code.size := by
  have hpos := List.length_pos_iff.mpr hbytes
  have hlast := h _ _ (List.getElem?_eq_getElem (Nat.sub_one_lt_of_lt hpos))
  obtain ⟨hlt, -⟩ := Array.getElem?_eq_some_iff.mp hlast
  omega

/-- Bytes in their places are that part of the code. -/
theorem extract_eq {bytes : List UInt8} (h : BytesAt code pos bytes) :
    (code.extract pos (pos + bytes.length)).toList = bytes := by
  apply List.ext_getElem?
  intro k
  rw [Array.getElem?_toList, Array.getElem?_extract]
  by_cases hk : k < bytes.length
  · obtain ⟨hlt, hget⟩ := Array.getElem?_eq_some_iff.mp (h k _ (List.getElem?_eq_getElem hk))
    rw [if_pos (by omega), List.getElem?_eq_getElem hk, ← hget, Array.getElem?_eq_getElem hlt]
  · rw [if_neg (by omega), List.getElem?_eq_none (by omega)]

/-- A part of the code is in its place. -/
theorem of_extract (code : Array UInt8) (pos next : Nat) :
    BytesAt code pos (code.extract pos next).toList := by
  intro k b hk
  rw [Array.getElem?_toList, Array.getElem?_extract] at hk
  split at hk
  · exact hk
  · cases hk

end BytesAt

/-- What stands in a table at the place of its number is found only under that number. -/
theorem number_of_getElem? {α : Type} {table : Array α} (number : α → UInt8)
    (htable : ∀ k < table.size, table[k]?.map number = some (UInt8.ofNat k)) {n : UInt8} {a : α}
    (h : table[n.toNat]? = some a) : number a = n := by
  obtain ⟨hlt, -⟩ := Array.getElem?_eq_some_iff.mp h
  have hnumber := htable n.toNat hlt
  rw [h, UInt8.ofNat_toNat] at hnumber
  exact Option.some.inj hnumber

namespace Opcode

/-- Operation and inline operand can be told apart again. -/
theorem first_withInline (op : Opcode) : ∀ n < 8, codeOf (op.withInline (.ofNat n)) = op.code ∧
    inlineOf (op.withInline (.ofNat n)) = .ofNat n := by
  cases op <;> decide

theorem codeOf_withInline (op : Opcode) {inline : UInt8} (h : inline.toNat < 8) :
    codeOf (op.withInline inline) = op.code := by
  have hfirst := (op.first_withInline inline.toNat h).1
  rwa [UInt8.ofNat_toNat] at hfirst

theorem inlineOf_withInline (op : Opcode) {inline : UInt8} (h : inline.toNat < 8) :
    inlineOf (op.withInline inline) = inline := by
  have hfirst := (op.first_withInline inline.toNat h).2
  rwa [UInt8.ofNat_toNat] at hfirst

theorem inlineOf_lt (first : UInt8) : (inlineOf first).toNat < 8 := by
  have hlt := first.toNat_lt
  simp [inlineOf, Nat.shiftRight_eq_div_pow]
  omega

theorem code_of_ofCode? {n : UInt8} {op : Opcode} (h : ofCode? n = some op) : op.code = n :=
  number_of_getElem? code (by decide) h

/-- A byte is its operation bits and its inline operand. -/
theorem codeOf_or_inlineOf (b : UInt8) : codeOf b ||| inlineOf b <<< 5 = b := by
  apply UInt8.toNat_inj.mp
  have hlt := b.toNat_lt
  have hlow : b.toNat &&& 31 = b.toNat % 2 ^ 5 := Nat.and_two_pow_sub_one_eq_mod b.toNat 5
  have hhigh : b.toNat >>> 5 <<< 5 = b.toNat / 2 ^ 5 * 2 ^ 5 := by
    rw [Nat.shiftRight_eq_div_pow, Nat.shiftLeft_eq]
  have hsmall : b.toNat >>> 5 <<< 5 % 2 ^ 8 = b.toNat >>> 5 <<< 5 := by
    rw [hhigh]
    omega
  change (b.toNat &&& 31) ||| (b.toNat >>> 5 <<< 5 % 2 ^ 8) = b.toNat
  rw [hsmall, hlow, Nat.or_comm, ← Nat.shiftLeft_add_eq_or_of_lt (Nat.mod_lt _ (by decide)),
    hhigh, Nat.div_add_mod']

/-- A byte with a known operation is that operation with some inline operand. -/
theorem withInline_inlineOf {b : UInt8} {op : Opcode} (h : ofCode? (codeOf b) = some op) :
    op.withInline (inlineOf b) = b := by
  rw [withInline, code_of_ofCode? h, codeOf_or_inlineOf]

end Opcode

namespace Instruction

/-! ## The forms of an instruction -/

/-- An operation with an operand: below the escape it may be written inline, and any byte may follow
the escape. -/
inductive Operand (op : Opcode) : UInt8 → List UInt8 → Prop
  | inline {n : UInt8} (hn : n < Opcode.escape) : Operand op n [op.withInline n]
  | escaped (n : UInt8) : Operand op n [op.withInline Opcode.escape, n]

/-- The number of two bytes, the high one first. -/
def bigEndian (high low : UInt8) : UInt16 := .ofNat (high.toNat * 256 + low.toNat)

/-- The forms of every instruction. -/
inductive Spells : Instruction → List UInt8 → Prop
  | ret {kind : ReturnKind} {bytes : List UInt8} (h : Operand .ret kind.operand bytes) :
    Spells (.ret kind) bytes
  | pushSpecial {constant : SpecialConstant} {bytes : List UInt8}
    (h : Operand .pushSpecial constant.operand bytes) : Spells (.pushSpecial constant) bytes
  | pushLiteral {n : UInt8} {bytes : List UInt8} (h : Operand .pushLiteral n bytes) :
    Spells (.pushLiteral n) bytes
  | pushTemporary {n : UInt8} {bytes : List UInt8} (h : Operand .pushTemporary n bytes) :
    Spells (.pushTemporary n) bytes
  | pushField {n : UInt8} {bytes : List UInt8} (h : Operand .pushField n bytes) :
    Spells (.pushField n) bytes
  | pushGlobal {n : UInt8} {bytes : List UInt8} (h : Operand .pushGlobal n bytes) :
    Spells (.pushGlobal n) bytes
  | popStoreTemporary {n : UInt8} {bytes : List UInt8} (h : Operand .popStoreTemporary n bytes) :
    Spells (.popStoreTemporary n) bytes
  | popStoreField {n : UInt8} {bytes : List UInt8} (h : Operand .popStoreField n bytes) :
    Spells (.popStoreField n) bytes
  | popStoreGlobal {n : UInt8} {bytes : List UInt8} (h : Operand .popStoreGlobal n bytes) :
    Spells (.popStoreGlobal n) bytes
  | pop {inline : UInt8} (h : inline.toNat < 8) : Spells .pop [Opcode.pop.withInline inline]
  | dup {inline : UInt8} (h : inline.toNat < 8) : Spells .dup [Opcode.dup.withInline inline]
  | send0 {n : UInt8} {bytes : List UInt8} (h : Operand .send0 n bytes) : Spells (.send n 0) bytes
  | send1 {n : UInt8} {bytes : List UInt8} (h : Operand .send1 n bytes) : Spells (.send n 1) bytes
  | send2 {n : UInt8} {bytes : List UInt8} (h : Operand .send2 n bytes) : Spells (.send n 2) bytes
  | sendN {n : UInt8} {bytes : List UInt8} (h : Operand .sendN n bytes) (argc : UInt8) :
    Spells (.send n argc) (bytes ++ [argc])
  | specialSend0 {n : UInt8} {bytes : List UInt8} (h : Operand .specialSend0 n bytes) :
    Spells (.specialSend n 0) bytes
  | specialSend1 {n : UInt8} {bytes : List UInt8} (h : Operand .specialSend1 n bytes) :
    Spells (.specialSend n 1) bytes
  | specialSend2 {n : UInt8} {bytes : List UInt8} (h : Operand .specialSend2 n bytes) :
    Spells (.specialSend n 2) bytes
  | specialSendN {n : UInt8} {bytes : List UInt8} (h : Operand .specialSendN n bytes)
    (argc : UInt8) : Spells (.specialSend n argc) (bytes ++ [argc])
  | jump {high : UInt8} (h : high.toNat < 8) (low : UInt8) :
    Spells (.jump (bigEndian high low)) [Opcode.jump.withInline high, low]
  | jumpBack {high : UInt8} (h : high.toNat < 8) (low : UInt8) :
    Spells (.jumpBack (bigEndian high low)) [Opcode.jumpBack.withInline high, low]
  | jumpIfTrue {high : UInt8} (h : high.toNat < 8) (low : UInt8) :
    Spells (.jumpIfTrue (bigEndian high low)) [Opcode.jumpIfTrue.withInline high, low]
  | jumpIfFalse {high : UInt8} (h : high.toNat < 8) (low : UInt8) :
    Spells (.jumpIfFalse (bigEndian high low)) [Opcode.jumpIfFalse.withInline high, low]
  | blockCopy {argc : UInt8} {bytes : List UInt8} (h : Operand .blockCopy argc bytes)
    (high low : UInt8) : Spells (.blockCopy argc (bigEndian high low)) (bytes ++ [high, low])

variable {code : Array UInt8} {pos next : Nat} {op : Opcode} {inline n : UInt8} {i : Instruction}
  {bytes : List UInt8}

theorem Operand.length_bounds (h : Operand op n bytes) : 1 ≤ bytes.length ∧ bytes.length ≤ 2 := by
  cases h <;> simp

/-- A form takes one to four bytes. -/
theorem Spells.length_bounds (h : Spells i bytes) : 1 ≤ bytes.length ∧ bytes.length ≤ 4 := by
  cases h with
  | pop | dup | jump | jumpBack | jumpIfTrue | jumpIfFalse => simp
  | sendN hn argc | specialSendN hn argc | blockCopy hn high low =>
    have hlength := hn.length_bounds
    simp only [List.length_append, List.length_cons, List.length_nil]
    omega
  | ret hn | pushSpecial hn | pushLiteral hn | pushTemporary hn | pushField hn | pushGlobal hn
  | popStoreTemporary hn | popStoreField hn | popStoreGlobal hn | send0 hn | send1 hn | send2 hn
  | specialSend0 hn | specialSend1 hn | specialSend2 hn =>
    have hlength := hn.length_bounds
    omega

/-! ## No form is missed -/

theorem byteAt_of_bytesAt {b : UInt8} (h : BytesAt code pos (b :: bytes))
    (missing : Malformation) : byteAt code pos missing = .ok (b, pos + 1) := by
  simp only [byteAt, h.head]

/-- Reading goes on with the rest of the instruction once the first byte is known. -/
theorem decodeAt_first (h : code[pos]? = some (op.withInline inline)) (hinline : inline.toNat < 8) :
    decodeAt code pos = match operandsAt code op inline (pos + 1) with
      | .ok result => .ok result
      | .error reason => .error ⟨pos, op.withInline inline, reason⟩ := by
  have hcode := op.codeOf_withInline hinline
  have hinlineOf := op.inlineOf_withInline hinline
  cases hrest : operandsAt code op inline (pos + 1) <;>
    simp only [decodeAt, h, hcode, hinlineOf, Opcode.ofCode?_code, hrest]

theorem decodeAt_eq_ok (h : BytesAt code pos (op.withInline inline :: bytes))
    (hinline : inline.toNat < 8)
    (hrest : operandsAt code op inline (pos + 1) = .ok (i, next)) :
    decodeAt code pos = .ok (i, next) := by
  rw [decodeAt_first h.head hinline, hrest]

/-- An instruction whose operand is followed by `more`. -/
theorem decodeAt_operand_append {more : List UInt8} (hn : Operand op n bytes)
    (h : BytesAt code pos (bytes ++ more))
    (hrest : ∀ inline next, BytesAt code next more →
      operandAt code inline (pos + 1) = .ok (n, next) →
      operandsAt code op inline (pos + 1) = .ok (i, next + more.length)) :
    decodeAt code pos = .ok (i, pos + (bytes ++ more).length) := by
  cases hn with
  | inline hn =>
    have hlt : n.toNat < 7 := UInt8.lt_iff_toNat_lt.mp hn
    have hne : n ≠ Opcode.escape := by
      rintro rfl
      exact absurd hn (by decide)
    refine decodeAt_eq_ok h (by omega) ?_
    rw [hrest n (pos + 1) h.tail (if_neg hne)]
    simp only [List.singleton_append, List.length_cons]
    congr 2
    omega
  | escaped =>
    refine decodeAt_eq_ok h (by decide) ?_
    rw [hrest Opcode.escape (pos + 1 + 1) h.tail.tail
      ((if_pos rfl).trans (byteAt_of_bytesAt h.tail _))]
    simp only [List.cons_append, List.nil_append, List.length_cons]
    congr 2
    omega

/-- An instruction of an operation and an operand. -/
theorem decodeAt_operand (hn : Operand op n bytes) (h : BytesAt code pos bytes)
    (hrest : ∀ inline next, operandAt code inline (pos + 1) = .ok (n, next) →
      operandsAt code op inline (pos + 1) = .ok (i, next)) :
    decodeAt code pos = .ok (i, pos + bytes.length) := by
  rw [← List.append_nil bytes] at h ⊢
  exact decodeAt_operand_append hn h fun inline next _ hoperand => hrest inline next hoperand

/-- An instruction with an operand that may be any byte. -/
theorem decodeAt_indexed (make : UInt8 → Instruction) (hn : Operand op n bytes)
    (h : BytesAt code pos bytes)
    (hop : ∀ inline, operandsAt code op inline (pos + 1) =
      operandsAt.operand code inline (pos + 1) make) :
    decodeAt code pos = .ok (make n, pos + bytes.length) := by
  refine decodeAt_operand hn h fun inline next hoperand => ?_
  rw [hop, operandsAt.operand, hoperand]
  rfl

/-- An instruction with an operand and an argument count. -/
theorem decodeAt_counted (make : UInt8 → UInt8 → Instruction) {argc : UInt8}
    (hn : Operand op n bytes) (h : BytesAt code pos (bytes ++ [argc]))
    (hop : ∀ inline, operandsAt code op inline (pos + 1) =
      operandsAt.counted code inline (pos + 1) make) :
    decodeAt code pos = .ok (make n argc, pos + (bytes ++ [argc]).length) := by
  refine decodeAt_operand_append hn h fun inline next hcount hoperand => ?_
  rw [hop, operandsAt.counted, hoperand]
  change (byteAt code next .truncatedArgumentCount >>= _) = _
  rw [byteAt_of_bytesAt hcount]
  rfl

/-- A jump. -/
theorem decodeAt_jump (make : UInt16 → Instruction) {high low : UInt8} (hhigh : high.toNat < 8)
    (h : BytesAt code pos [op.withInline high, low])
    (hop : operandsAt code op high (pos + 1) = operandsAt.distance code high (pos + 1) make) :
    decodeAt code pos = .ok (make (bigEndian high low), pos + 2) := by
  refine decodeAt_eq_ok h hhigh ?_
  rw [hop, operandsAt.distance, deltaAt, byteAt_of_bytesAt h.tail]
  rfl

/-- Where a form of an instruction stands, that instruction is read. -/
theorem decodeAt_of_spells (hi : Spells i bytes) (h : BytesAt code pos bytes) :
    decodeAt code pos = .ok (i, pos + bytes.length) := by
  cases hi with
  | ret hn =>
    refine decodeAt_operand hn h fun inline next hoperand => ?_
    simp only [operandsAt, hoperand, bind, Except.bind, ReturnKind.ofOperand?_operand]
    rfl
  | pushSpecial hn =>
    refine decodeAt_operand hn h fun inline next hoperand => ?_
    simp only [operandsAt, hoperand, bind, Except.bind, SpecialConstant.ofOperand?_operand]
    rfl
  | pushLiteral hn => exact decodeAt_indexed pushLiteral hn h fun _ => rfl
  | pushTemporary hn => exact decodeAt_indexed pushTemporary hn h fun _ => rfl
  | pushField hn => exact decodeAt_indexed pushField hn h fun _ => rfl
  | pushGlobal hn => exact decodeAt_indexed pushGlobal hn h fun _ => rfl
  | popStoreTemporary hn => exact decodeAt_indexed popStoreTemporary hn h fun _ => rfl
  | popStoreField hn => exact decodeAt_indexed popStoreField hn h fun _ => rfl
  | popStoreGlobal hn => exact decodeAt_indexed popStoreGlobal hn h fun _ => rfl
  | pop hinline => exact decodeAt_eq_ok h hinline rfl
  | dup hinline => exact decodeAt_eq_ok h hinline rfl
  | send0 hn => exact decodeAt_indexed (send · 0) hn h fun _ => rfl
  | send1 hn => exact decodeAt_indexed (send · 1) hn h fun _ => rfl
  | send2 hn => exact decodeAt_indexed (send · 2) hn h fun _ => rfl
  | sendN hn argc => exact decodeAt_counted send hn h fun _ => rfl
  | specialSend0 hn => exact decodeAt_indexed (specialSend · 0) hn h fun _ => rfl
  | specialSend1 hn => exact decodeAt_indexed (specialSend · 1) hn h fun _ => rfl
  | specialSend2 hn => exact decodeAt_indexed (specialSend · 2) hn h fun _ => rfl
  | specialSendN hn argc => exact decodeAt_counted specialSend hn h fun _ => rfl
  | jump hhigh low => exact decodeAt_jump jump hhigh h rfl
  | jumpBack hhigh low => exact decodeAt_jump jumpBack hhigh h rfl
  | jumpIfTrue hhigh low => exact decodeAt_jump jumpIfTrue hhigh h rfl
  | jumpIfFalse hhigh low => exact decodeAt_jump jumpIfFalse hhigh h rfl
  | blockCopy hn high low =>
    refine decodeAt_operand_append hn h fun inline next hlength hargc => ?_
    simp only [operandsAt, hargc]
    change (byteAt code next .truncatedBlockLength >>= _) = _
    rw [byteAt_of_bytesAt hlength]
    change (byteAt code (next + 1) .truncatedBlockLength >>= _) = _
    rw [byteAt_of_bytesAt hlength.tail]
    rfl

/-! ## No form is invented -/

theorem byteAt_eq_ok {missing : Malformation} {b : UInt8}
    (h : byteAt code pos missing = .ok (b, next)) : code[pos]? = some b ∧ next = pos + 1 := by
  unfold byteAt at h
  split at h
  · next found =>
    cases h
    exact ⟨found, rfl⟩
  · cases h

/-- What has been read as an operand is a form of that operand. -/
theorem exists_operand (hfirst : code[pos]? = some (op.withInline inline))
    (hinline : inline.toNat < 8) (h : operandAt code inline (pos + 1) = .ok (n, next)) :
    ∃ bytes, Operand op n bytes ∧ BytesAt code pos bytes ∧ next = pos + bytes.length := by
  unfold operandAt at h
  split at h
  · next hescape =>
    subst hescape
    obtain ⟨hbyte, rfl⟩ := byteAt_eq_ok h
    exact ⟨_, .escaped n, .cons hfirst (.cons hbyte .nil), rfl⟩
  · next hne =>
    cases h
    have hlt : inline < Opcode.escape := by
      have hnat : inline.toNat ≠ 7 := fun hseven => hne (UInt8.toNat_inj.mp hseven)
      exact UInt8.lt_iff_toNat_lt.mpr (show inline.toNat < 7 by omega)
    exact ⟨_, .inline hlt, .cons hfirst .nil, rfl⟩

/-- A form of the instruction stands between two offsets. -/
def Stands (code : Array UInt8) (i : Instruction) (pos next : Nat) : Prop :=
  ∃ bytes, Spells i bytes ∧ BytesAt code pos bytes ∧ next = pos + bytes.length

theorem stands_of_indexed {make : UInt8 → Instruction}
    (hspells : ∀ {n bytes}, Operand op n bytes → Spells (make n) bytes)
    (hfirst : code[pos]? = some (op.withInline inline)) (hinline : inline.toNat < 8)
    (h : operandsAt.operand code inline (pos + 1) make = .ok (i, next)) :
    Stands code i pos next := by
  obtain ⟨⟨n, mid⟩, hn, hmake⟩ := reading_bind_eq_ok.mp h
  cases hmake
  obtain ⟨bytes, hform, hplace⟩ := exists_operand hfirst hinline hn
  exact ⟨bytes, hspells hform, hplace⟩

theorem stands_of_counted {make : UInt8 → UInt8 → Instruction}
    (hspells : ∀ {n bytes}, Operand op n bytes → ∀ argc, Spells (make n argc) (bytes ++ [argc]))
    (hfirst : code[pos]? = some (op.withInline inline)) (hinline : inline.toNat < 8)
    (h : operandsAt.counted code inline (pos + 1) make = .ok (i, next)) :
    Stands code i pos next := by
  obtain ⟨⟨n, mid⟩, hn, hrest⟩ := reading_bind_eq_ok.mp h
  obtain ⟨⟨argc, last⟩, hargc, hmake⟩ := reading_bind_eq_ok.mp hrest
  cases hmake
  obtain ⟨bytes, hform, hbytes, rfl⟩ := exists_operand hfirst hinline hn
  obtain ⟨hcount, rfl⟩ := byteAt_eq_ok hargc
  refine ⟨bytes ++ [argc], hspells hform argc, hbytes.append (.cons hcount .nil), ?_⟩
  simp only [List.length_append, List.length_singleton, Nat.add_assoc]

theorem stands_of_distance {make : UInt16 → Instruction}
    (hspells : ∀ low, Spells (make (bigEndian inline low)) [op.withInline inline, low])
    (hfirst : code[pos]? = some (op.withInline inline))
    (h : operandsAt.distance code inline (pos + 1) make = .ok (i, next)) :
    Stands code i pos next := by
  obtain ⟨⟨delta, mid⟩, hdelta, hmake⟩ := reading_bind_eq_ok.mp h
  obtain ⟨⟨low, last⟩, hlow, hput⟩ := reading_bind_eq_ok.mp hdelta
  cases hmake
  cases hput
  obtain ⟨hbyte, rfl⟩ := byteAt_eq_ok hlow
  exact ⟨_, hspells low, .cons hfirst (.cons hbyte .nil), rfl⟩

theorem stands_of_blockCopy (hfirst : code[pos]? = some (Opcode.blockCopy.withInline inline))
    (hinline : inline.toNat < 8)
    (h : operandsAt code .blockCopy inline (pos + 1) = .ok (i, next)) :
    Stands code i pos next := by
  obtain ⟨⟨argc, mid⟩, hargc, hrest⟩ := reading_bind_eq_ok.mp h
  obtain ⟨⟨high, mid'⟩, hhigh, hrest⟩ := reading_bind_eq_ok.mp hrest
  obtain ⟨⟨low, last⟩, hlow, hmake⟩ := reading_bind_eq_ok.mp hrest
  cases hmake
  obtain ⟨bytes, hform, hbytes, rfl⟩ := exists_operand hfirst hinline hargc
  obtain ⟨hfirstByte, rfl⟩ := byteAt_eq_ok hhigh
  obtain ⟨hlastByte, rfl⟩ := byteAt_eq_ok hlow
  refine ⟨bytes ++ [high, low], .blockCopy hform high low,
    hbytes.append (.cons hfirstByte (.cons hlastByte .nil)), ?_⟩
  simp only [List.length_append, List.length_cons, List.length_nil, Nat.add_assoc]

theorem operand_of_returnKind {kind : ReturnKind} (h : ReturnKind.ofOperand? n = some kind) :
    kind.operand = n := number_of_getElem? ReturnKind.operand (by decide) h

theorem operand_of_specialConstant {constant : SpecialConstant}
    (h : SpecialConstant.ofOperand? n = some constant) : constant.operand = n :=
  number_of_getElem? SpecialConstant.operand (by decide) h

/-- A return is read only if its operand names a kind of return. -/
theorem stands_of_ret (hfirst : code[pos]? = some (Opcode.ret.withInline inline))
    (hinline : inline.toNat < 8) (h : operandsAt code .ret inline (pos + 1) = .ok (i, next)) :
    Stands code i pos next := by
  obtain ⟨⟨n, mid⟩, hn, hmake⟩ := reading_bind_eq_ok.mp h
  obtain ⟨bytes, hform, hplace⟩ := exists_operand hfirst hinline hn
  dsimp only at hmake
  split at hmake
  · next kind hkind =>
    cases hmake
    exact ⟨bytes, .ret (operand_of_returnKind hkind ▸ hform), hplace⟩
  · cases hmake

/-- A constant is read only if its operand names one. -/
theorem stands_of_pushSpecial
    (hfirst : code[pos]? = some (Opcode.pushSpecial.withInline inline))
    (hinline : inline.toNat < 8)
    (h : operandsAt code .pushSpecial inline (pos + 1) = .ok (i, next)) :
    Stands code i pos next := by
  obtain ⟨⟨n, mid⟩, hn, hmake⟩ := reading_bind_eq_ok.mp h
  obtain ⟨bytes, hform, hplace⟩ := exists_operand hfirst hinline hn
  dsimp only at hmake
  split at hmake
  · next constant hconstant =>
    cases hmake
    exact ⟨bytes, .pushSpecial (operand_of_specialConstant hconstant ▸ hform), hplace⟩
  · cases hmake

/-- The rest of an instruction is read only after the first byte of one of its forms. -/
theorem stands_of_operandsAt (hfirst : code[pos]? = some (op.withInline inline))
    (hinline : inline.toNat < 8) (h : operandsAt code op inline (pos + 1) = .ok (i, next)) :
    Stands code i pos next := by
  cases op with
  | ret => exact stands_of_ret hfirst hinline h
  | pushSpecial => exact stands_of_pushSpecial hfirst hinline h
  | pushLiteral => exact stands_of_indexed .pushLiteral hfirst hinline h
  | pushTemporary => exact stands_of_indexed .pushTemporary hfirst hinline h
  | pushField => exact stands_of_indexed .pushField hfirst hinline h
  | pushGlobal => exact stands_of_indexed .pushGlobal hfirst hinline h
  | popStoreTemporary => exact stands_of_indexed .popStoreTemporary hfirst hinline h
  | popStoreField => exact stands_of_indexed .popStoreField hfirst hinline h
  | popStoreGlobal => exact stands_of_indexed .popStoreGlobal hfirst hinline h
  | pop =>
    cases h
    exact ⟨_, .pop hinline, .cons hfirst .nil, rfl⟩
  | dup =>
    cases h
    exact ⟨_, .dup hinline, .cons hfirst .nil, rfl⟩
  | send0 => exact stands_of_indexed .send0 hfirst hinline h
  | send1 => exact stands_of_indexed .send1 hfirst hinline h
  | send2 => exact stands_of_indexed .send2 hfirst hinline h
  | sendN => exact stands_of_counted .sendN hfirst hinline h
  | specialSend0 => exact stands_of_indexed .specialSend0 hfirst hinline h
  | specialSend1 => exact stands_of_indexed .specialSend1 hfirst hinline h
  | specialSend2 => exact stands_of_indexed .specialSend2 hfirst hinline h
  | specialSendN => exact stands_of_counted .specialSendN hfirst hinline h
  | jump => exact stands_of_distance (.jump hinline) hfirst h
  | jumpBack => exact stands_of_distance (.jumpBack hinline) hfirst h
  | jumpIfTrue => exact stands_of_distance (.jumpIfTrue hinline) hfirst h
  | jumpIfFalse => exact stands_of_distance (.jumpIfFalse hinline) hfirst h
  | blockCopy => exact stands_of_blockCopy hfirst hinline h

/-- What has been read is a form of the instruction. -/
theorem stands_of_decodeAt (h : decodeAt code pos = .ok (i, next)) : Stands code i pos next := by
  unfold decodeAt at h
  split at h
  · cases h
  next first hfirst =>
  split at h
  · cases h
  next op hop =>
  split at h
  · next result hrest =>
    cases h
    rw [← Opcode.withInline_inlineOf hop] at hfirst
    exact stands_of_operandsAt hfirst (Opcode.inlineOf_lt first) hrest
  · cases h

/-- An instruction is read between two offsets if and only if the bytes between them are one of its
forms. -/
theorem decodeAt_eq_ok_iff : decodeAt code pos = .ok (i, next) ↔
    pos < next ∧ next ≤ code.size ∧ Spells i (code.extract pos next).toList := by
  constructor
  · intro h
    obtain ⟨bytes, hspells, hplace, rfl⟩ := stands_of_decodeAt h
    have hlength := hspells.length_bounds
    have hle := hplace.length_le (List.ne_nil_of_length_pos hlength.1)
    rw [hplace.extract_eq]
    exact ⟨by omega, hle, hspells⟩
  · rintro ⟨hlt, hle, hspells⟩
    have hread := decodeAt_of_spells hspells (.of_extract code pos next)
    have hlength : (code.extract pos next).toList.length = next - pos := by
      rw [Array.length_toList, Array.size_extract, Nat.min_eq_left hle]
    rwa [hlength, Nat.add_sub_cancel' (Nat.le_of_lt hlt)] at hread

/-- An instruction that cannot be read is reported with its place and its first byte. -/
theorem decodeAt_error {fault : MalformedCode} (h : decodeAt code pos = .error fault) :
    fault.ip = pos ∧ fault.byte = code[pos]?.getD 0 := by
  unfold decodeAt at h
  split at h
  · next hnone =>
    cases h
    exact ⟨rfl, by rw [hnone]; rfl⟩
  next first hfirst =>
  rw [hfirst]
  split at h
  · cases h
    exact ⟨rfl, rfl⟩
  · split at h
    · cases h
    · cases h
      exact ⟨rfl, rfl⟩

/-! ## Whole bodies -/

/-- Bytes cut into forms of instructions. -/
structure IsParse (parse : List (Instruction × List UInt8)) (bytes : List UInt8) : Prop where
  spells : ∀ part ∈ parse, Spells part.1 part.2
  flatten : parse.flatMap Prod.snd = bytes

/-- The bytes are one form of an instruction after another. -/
def Wellformed (bytes : List UInt8) : Prop := ∃ parse, IsParse parse bytes

/-- The instructions of a parse with the offsets at which they stand. -/
def placed (pos : Nat) : List (Instruction × List UInt8) → List (Nat × Instruction)
  | [] => []
  | (i, bytes) :: rest => (pos, i) :: placed (pos + bytes.length) rest

theorem isParse_nil {bytes : List UInt8} : IsParse [] bytes ↔ bytes = [] := by
  constructor
  · rintro ⟨-, rfl⟩
    rfl
  · rintro rfl
    exact ⟨by simp, rfl⟩

theorem isParse_cons {part : Instruction × List UInt8} {parse : List (Instruction × List UInt8)}
    {bytes : List UInt8} : IsParse (part :: parse) bytes ↔
      ∃ rest, bytes = part.2 ++ rest ∧ Spells part.1 part.2 ∧ IsParse parse rest := by
  constructor
  · rintro ⟨hspells, rfl⟩
    obtain ⟨hpart, hparse⟩ := List.forall_mem_cons.mp hspells
    exact ⟨_, rfl, hpart, hparse, rfl⟩
  · rintro ⟨rest, rfl, hpart, hparse, rfl⟩
    exact ⟨List.forall_mem_cons.mpr ⟨hpart, hparse⟩, rfl⟩

/-- Bytes start with at most one form. -/
theorem Spells.unique {i j : Instruction} {xs ys r s : List UInt8} (hi : Spells i xs)
    (hj : Spells j ys) (h : xs ++ r = ys ++ s) : i = j ∧ xs = ys ∧ r = s := by
  have hstart : ∀ zs t : List UInt8, BytesAt (zs ++ t).toArray 0 zs := fun zs t =>
    @BytesAt.of_toList (zs ++ t).toArray [] zs t rfl
  have hread := decodeAt_of_spells hi (hstart xs r)
  rw [h, decodeAt_of_spells hj (hstart ys s)] at hread
  have hpair := Prod.mk.inj (Except.ok.inj hread)
  have hlength : ys.length = xs.length := Nat.add_left_cancel hpair.2
  exact ⟨hpair.1.symm, List.append_inj h hlength.symm⟩

/-- A parse of the first bytes is the start of every parse of all of them. -/
theorem IsParse.split {parse whole : List (Instruction × List UInt8)} {xs ys : List UInt8}
    (h : IsParse parse xs) (hwhole : IsParse whole (xs ++ ys)) :
    ∃ rest, whole = parse ++ rest ∧ IsParse rest ys := by
  induction parse generalizing whole xs with
  | nil =>
    cases isParse_nil.mp h
    exact ⟨whole, rfl, hwhole⟩
  | cons part parse ih =>
    obtain ⟨xs', rfl, hpart, hparse⟩ := isParse_cons.mp h
    cases whole with
    | nil =>
      have hlength := hpart.length_bounds.1
      have hnil := isParse_nil.mp hwhole
      rw [List.append_assoc] at hnil
      rw [(List.append_eq_nil_iff.mp hnil).1] at hlength
      cases hlength
    | cons part' whole =>
      obtain ⟨rest', hbytes, hpart', hwhole'⟩ := isParse_cons.mp hwhole
      rw [List.append_assoc] at hbytes
      obtain ⟨hinstruction, hform, rfl⟩ := hpart.unique hpart' hbytes
      obtain ⟨rest, rfl, hrest⟩ := ih hparse hwhole'
      exact ⟨rest, by rw [Prod.ext hinstruction hform, List.cons_append], hrest⟩

theorem IsParse.eq_nil {parse : List (Instruction × List UInt8)} (h : IsParse parse []) :
    parse = [] := by
  cases parse with
  | nil => rfl
  | cons part parse =>
    obtain ⟨rest, hbytes, hpart, -⟩ := isParse_cons.mp h
    have hlength := hpart.length_bounds.1
    rw [(List.append_eq_nil_iff.mp hbytes.symm).1] at hlength
    cases hlength

/-- Bytes have at most one parse. -/
theorem IsParse.unique {parse parse' : List (Instruction × List UInt8)} {bytes : List UInt8}
    (h : IsParse parse bytes) (h' : IsParse parse' bytes) : parse' = parse := by
  rw [← List.append_nil bytes] at h'
  obtain ⟨rest, rfl, hrest⟩ := h.split h'
  rw [hrest.eq_nil, List.append_nil]

/-! ## Listings -/

/-- A listing has read a body as far as it consists of forms. -/
structure Reads (code : Array UInt8) (l : Listing) (parse : List (Instruction × List UInt8)) :
    Prop where
  parsed : IsParse parse (code.toList.take l.offset)
  instructions : l.instructions = placed 0 parse
  offset_le : l.offset ≤ code.size
  finished : l.fault = none ↔ l.offset = code.size
  stopped : ∀ fault, l.fault = some fault → fault.ip = l.offset ∧
    code[l.offset]? = some fault.byte ∧
    ∀ i bytes, Spells i bytes → ¬bytes <+: code.toList.drop l.offset

/-- What a listing from an offset has found, if it was not cut short. -/
theorem listingFrom_parts (fuel : Nat) (hpos : pos ≤ code.size) (hfuel : code.size - pos ≤ fuel) :
    ∃ parse : List (Instruction × List UInt8), (∀ part ∈ parse, Spells part.1 part.2) ∧
      BytesAt code pos (parse.flatMap Prod.snd) ∧
      (listingFrom code fuel pos).instructions = placed pos parse ∧
      (listingFrom code fuel pos).offset = pos + (parse.flatMap Prod.snd).length ∧
      ((listingFrom code fuel pos).fault = none ∧
          (listingFrom code fuel pos).offset = code.size ∨
        ∃ fault, (listingFrom code fuel pos).fault = some fault ∧
          (listingFrom code fuel pos).offset < code.size ∧
          decodeAt code (listingFrom code fuel pos).offset = .error fault) := by
  induction fuel generalizing pos with
  | zero =>
    have hend : pos = code.size := by omega
    exact ⟨[], by simp, .nil, rfl, rfl, .inl ⟨rfl, hend⟩⟩
  | succ fuel ih =>
    rw [listingFrom]
    split
    · next hend =>
      have hend : pos = code.size := by omega
      exact ⟨[], by simp, .nil, rfl, rfl, .inl ⟨rfl, hend⟩⟩
    next hlt =>
    split
    · next fault hfault =>
      exact ⟨[], by simp, .nil, rfl, rfl, .inr ⟨fault, rfl, Nat.lt_of_not_le hlt, hfault⟩⟩
    · next i next hread =>
      obtain ⟨bytes, hspells, hplace, rfl⟩ := stands_of_decodeAt hread
      have hlength := hspells.length_bounds.1
      have hle := hplace.length_le (List.ne_nil_of_length_pos hlength)
      obtain ⟨parse, hparse, hrest, hinstructions, hoffset, hstop⟩ := ih hle (by omega)
      refine ⟨(i, bytes) :: parse, List.forall_mem_cons.mpr ⟨hspells, hparse⟩,
        hplace.append hrest, ?_, ?_, hstop⟩
      · simp only [hinstructions, placed]
      · simp only [hoffset, List.flatMap_cons, List.length_append, Nat.add_assoc]

/-- A place that is not read does not start a form. -/
theorem not_spells_of_error {fault : MalformedCode} (hpos : pos ≤ code.size)
    (h : decodeAt code pos = .error fault) (hspells : Spells i bytes) :
    ¬bytes <+: code.toList.drop pos := by
  intro hstart
  rw [decodeAt_of_spells hspells (.of_isPrefix hpos hstart)] at h
  cases h

/-- The listing of a body ends at the first place that does not start a form. -/
theorem reads_listing (code : Array UInt8) : ∃ parse, Reads code (listing code) parse := by
  obtain ⟨parse, hparse, hplace, hinstructions, hoffset, hstop⟩ :=
    listingFrom_parts code.size (Nat.zero_le _) (Nat.sub_le code.size 0)
  change (listing code).instructions = _ at hinstructions
  change (listing code).offset = _ at hoffset
  change (listing code).fault = none ∧ (listing code).offset = code.size ∨
    ∃ fault, (listing code).fault = some fault ∧ (listing code).offset < code.size ∧
      decodeAt code (listing code).offset = .error fault at hstop
  have hparsed : parse.flatMap Prod.snd = code.toList.take (listing code).offset := by
    rw [← hplace.extract_eq, ← hoffset, Array.toList_extract]
    rfl
  refine ⟨parse, ⟨hparse, hparsed⟩, hinstructions, ?_, ?_, ?_⟩
  · obtain ⟨-, hend⟩ | ⟨fault, -, hlt, -⟩ := hstop
    · exact Nat.le_of_eq hend
    · exact Nat.le_of_lt hlt
  · obtain ⟨hnone, hend⟩ | ⟨fault, hsome, hlt, -⟩ := hstop
    · exact iff_of_true hnone hend
    · exact iff_of_false (by rw [hsome]; rintro ⟨⟩) (Nat.ne_of_lt hlt)
  · intro fault hfault
    obtain ⟨hnone, -⟩ | ⟨fault', hsome, hlt, herror⟩ := hstop
    · rw [hnone] at hfault
      cases hfault
    · rw [hfault] at hsome
      cases hsome
      obtain ⟨hip, hbyte⟩ := decodeAt_error herror
      refine ⟨hip, ?_, fun i bytes hspells => not_spells_of_error (Nat.le_of_lt hlt) herror hspells⟩
      rw [hbyte, Array.getElem?_eq_getElem hlt]
      rfl

/-- Reading stops before the end only if the body is not a row of forms. -/
theorem Reads.fault_eq_none {l : Listing} {parse : List (Instruction × List UInt8)}
    (h : Reads code l parse) : l.fault = none ↔ Wellformed code.toList := by
  constructor
  · intro hfault
    have hparsed := h.parsed
    rw [h.finished.mp hfault, ← Array.length_toList, List.take_length] at hparsed
    exact ⟨parse, hparsed⟩
  · rintro ⟨whole, hwhole⟩
    by_contra hsome
    obtain ⟨fault, hfault⟩ := Option.ne_none_iff_exists'.mp hsome
    obtain ⟨-, hbyte, hstart⟩ := h.stopped fault hfault
    rw [← List.take_append_drop l.offset code.toList] at hwhole
    obtain ⟨rest, -, hrest⟩ := h.parsed.split hwhole
    cases rest with
    | nil =>
      have hend := List.drop_eq_nil_iff.mp (isParse_nil.mp hrest)
      rw [Array.getElem?_eq_none hend] at hbyte
      cases hbyte
    | cons part rest =>
      obtain ⟨tail, htail, hpart, -⟩ := isParse_cons.mp hrest
      exact hstart _ _ hpart ⟨tail, htail.symm⟩

/-- A body is accepted if and only if it is a row of forms. -/
theorem check_eq_ok (code : Array UInt8) : check code = .ok () ↔ Wellformed code.toList := by
  obtain ⟨parse, hreads⟩ := reads_listing code
  rw [← hreads.fault_eq_none, check]
  cases (listing code).fault with
  | none => simp
  | some fault => simp

end Instruction

end MessageMachine
