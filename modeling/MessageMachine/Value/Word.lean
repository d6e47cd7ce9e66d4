import MessageMachine.Value.Access

/-!
# The tagged word of a value

A value is one 64-bit word.  The lowest bit tells integers from references:

* an integer `n` is `2 * n`, in two's complement;
* a reference is `8 * handle + 2 * kind + 1`, with kind 0, 1, 2 for fields, bytes and words.

A handle is `space * 2^60 + epoch * 2^32 + segment * 2^20 + index`.
-/

namespace MessageMachine

namespace Handle

/-- The 61-bit number of a handle. -/
def toNat (a : Handle) : Nat :=
  (match a.space with | .ephemeral => 0 | .root => 1 <<< 60) +
    a.epoch <<< 32 + a.segment <<< 20 + a.index

/-- The handle with a given number. -/
def ofNat (n : Nat) : Handle where
  space := if n >>> 60 % 2 = 1 then .root else .ephemeral
  epoch := n >>> 32 % (1 <<< 28)
  segment := n >>> 20 % (1 <<< 12)
  index := n % (1 <<< 20)

end Handle

namespace Value

/-- The word that stands for a value. -/
def toWord : Value → UInt64
  | .int n => ⟨BitVec.ofInt 64 (2 * n)⟩
  | .object a => UInt64.ofNat (8 * a.toNat + 1)
  | .bytes a => UInt64.ofNat (8 * a.toNat + 3)
  | .words a => UInt64.ofNat (8 * a.toNat + 5)

/-- The value that a word stands for.  Kind 3 is never written; it reads as words. -/
def ofWord (w : UInt64) : Value :=
  if w.toNat % 2 = 0 then .int (w.toBitVec.toInt / 2)
  else
    let a := Handle.ofNat (w.toNat / 8)
    match w.toNat / 2 % 4 with
    | 0 => .object a
    | 1 => .bytes a
    | _ => .words a

end Value

end MessageMachine
