import MessageMachine.Value.Basic

/-!
# Pins

A value held outside the heap goes stale at the next collection.  A pinned value is a root instead:
it stays alive, and its number always answers where it is now.  Numbers of unpinned values are used
again, the latest first.
-/

namespace MessageMachine

/-- The pinned values by number, and the numbers free for use. -/
structure Pins where
  slots : Array (Option Value)
  free : List Nat
  deriving DecidableEq, Repr, Inhabited

namespace Pins

/-- Nothing is pinned. -/
def empty : Pins := ⟨#[], []⟩

/-- Pins a value and answers its number. -/
def pin (p : Pins) (v : Value) : Nat × Pins :=
  match p.free with
  | id :: free => (id, ⟨p.slots.setIfInBounds id (some v), free⟩)
  | [] => (p.slots.size, ⟨p.slots.push (some v), []⟩)

/-- The value pinned under a number. -/
def get? (p : Pins) (id : Nat) : Option Value := p.slots[id]?.join

/-- Lets go of a number and answers the value pinned under it. -/
def unpin (p : Pins) (id : Nat) : Option Value × Pins :=
  match p.get? id with
  | some v => (some v, ⟨p.slots.setIfInBounds id none, id :: p.free⟩)
  | none => (none, p)

/-- The pinned values, in the order of their numbers. -/
def values (p : Pins) : List Value := p.slots.toList.filterMap id

/-- Replaces the pinned values of a list of slots in order. -/
def refillSlots : List (Option Value) → List Value → List (Option Value)
  | none :: slots, vs => none :: refillSlots slots vs
  | some _ :: slots, v :: vs => some v :: refillSlots slots vs
  | slots, _ => slots

/-- Replaces the pinned values in the order of their numbers. -/
def refill (p : Pins) (vs : List Value) : Pins :=
  { p with slots := (refillSlots p.slots.toList vs).toArray }

end Pins

end MessageMachine
