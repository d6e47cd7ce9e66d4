import MessageMachine.Value.Word

/-!
# The method cache

A direct-mapped cache of method lookups.  Each pair of a type and a selector has one place, and a
new entry replaces the old one there.  The cache counts how often it answered.
-/

namespace MessageMachine

/-- A lookup and its answer. -/
structure CacheEntry where
  type : Value
  selector : Value
  method : Value
  deriving DecidableEq, Repr, Inhabited

/-- The cached lookups, and how many were answered and not answered. -/
structure MethodCache where
  entries : Vector (Option CacheEntry) 256
  hits : Nat
  misses : Nat
  deriving Repr, Inhabited

namespace MethodCache

/-- A cache without entries. -/
def empty : MethodCache := ⟨Vector.replicate 256 none, 0, 0⟩

/-- The place of a pair: its words mixed by a rotation, without the tag bits. -/
def place (type selector : Value) : Fin 256 :=
  let s := selector.toWord
  let mixed := type.toWord ^^^ (s <<< 7 ||| s >>> 57)
  Fin.ofNat 256 (mixed >>> 3).toNat

/-- The cached method of a pair, without counting. -/
def find? (c : MethodCache) (type selector : Value) : Option Value :=
  match c.entries[place type selector] with
  | some e => if e.type = type ∧ e.selector = selector then some e.method else none
  | none => none

/-- The cached method of a pair. -/
def get (c : MethodCache) (type selector : Value) : Option Value × MethodCache :=
  match c.find? type selector with
  | some method => (some method, { c with hits := c.hits + 1 })
  | none => (none, { c with misses := c.misses + 1 })

/-- Remembers the method of a pair. -/
def put (c : MethodCache) (type selector method : Value) : MethodCache :=
  { c with entries := c.entries.set (place type selector) (some ⟨type, selector, method⟩) }

/-- Forgets all entries; the counts go on. -/
def flush (c : MethodCache) : MethodCache := { c with entries := Vector.replicate 256 none }

end MethodCache

end MessageMachine
