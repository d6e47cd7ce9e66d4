import MessageMachine.Heap.Content
import MessageMachine.Slot

/-!
# Tables

The machine keeps three kinds of table in ordinary objects: the methods of a type, the globals, and
the interned symbols.  A table's owner has a field with the number of entries and one or two fields
with arrays of keys and values; a free place holds nil in the key array.

A key goes to the first free place from its hash on, wrapping around, and a table grows before more
than three quarters of its places would be taken.
-/

namespace MessageMachine

/-- The kinds of table. -/
inductive Table.Kind where
  | methods
  | globals
  | symbols
  deriving DecidableEq, Repr, Inhabited

namespace Table.Kind

/-- The field of the owner with the number of entries. -/
def tally : Kind → Nat
  | methods => Slot.methodTally
  | globals => Slot.dictionaryTally
  | symbols => Slot.symbolTally

/-- The field of the owner with the keys. -/
def keys : Kind → Nat
  | methods => Slot.selectors
  | globals => Slot.dictionaryKeys
  | symbols => Slot.symbolKeys

/-- The field of the owner with the values, for tables that have values. -/
def values? : Kind → Option Nat
  | methods => some Slot.methods
  | globals => some Slot.dictionaryValues
  | symbols => none

end Table.Kind

/-- What all tables share: nil, the type of their arrays, their first capacity and their growth. -/
structure Table.Config where
  nil : Value
  array : Value
  capacity : Nat
  growth : Nat
  deriving DecidableEq, Repr, Inhabited

/-- A table: its owner and how the owner keeps it. -/
structure Table where
  owner : Value
  kind : Table.Kind
  deriving DecidableEq, Repr, Inhabited

namespace Table

/-! ## Probing -/

/-- Where a search ended. -/
inductive Probe where
  /-- At the key. -/
  | found (place : Nat)
  /-- At a free place. -/
  | vacant (place : Nat)
  /-- Nowhere: all places are taken by other keys. -/
  | full
  deriving DecidableEq, Repr, Inhabited

/-- Looks at `remaining` places from `place` on. -/
def probeFrom (nil : Value) (keys : Array Value) (isKey : Value → Except HeapFault Bool) :
    (remaining place : Nat) → Except HeapFault Probe
  | 0, _ => .ok .full
  | remaining + 1, place =>
    match keys[place % keys.size]? with
    | none => .ok .full
    | some key =>
      if key = nil then .ok (.vacant (place % keys.size))
      else
        match isKey key with
        | .error fault => .error fault
        | .ok true => .ok (.found (place % keys.size))
        | .ok false => probeFrom nil keys isKey remaining (place + 1)

/-- Looks for a key from its hash on, at each place once. -/
def probe (nil : Value) (keys : Array Value) (hash : Nat)
    (isKey : Value → Except HeapFault Bool) : Except HeapFault Probe :=
  probeFrom nil keys isKey keys.size (hash % keys.size)

/-- The keys of a table; none before its first growth. -/
def keyArray (config : Config) (h : Heap) (keys : Value) : Except HeapFault (Array Value) :=
  if keys = config.nil then .ok #[] else h.fields keys

/-- The hash of a key: integers hash to their magnitude, buffers by contents, fielded objects to
zero. -/
def keyHash (h : Heap) (key : Value) : Except HeapFault Nat :=
  match key with
  | .int n => .ok n.natAbs
  | .bytes _ | .words _ => h.hashOf key
  | .object _ => .ok 0

/-- Looks for a key by identity. -/
def probeIdentity (config : Config) (h : Heap) (keys key : Value) : Except HeapFault Probe := do
  let hash ← keyHash h key
  probe config.nil (← keyArray config h keys) hash fun k => .ok (k = key)

/-- Looks for a free place. -/
def probeVacant (config : Config) (h : Heap) (keys : Value) (hash : Nat) :
    Except HeapFault Probe := do
  probe config.nil (← keyArray config h keys) hash fun _ => .ok false

/-! ## Reading -/

/-- The value of a key, compared by identity. -/
def lookup (config : Config) (h : Heap) (t : Table) (key : Value) :
    Except HeapFault (Option Value) := do
  let keys ← h.fetchField t.owner t.kind.keys
  match ← probeIdentity config h keys key with
  | .found place =>
    match t.kind.values? with
    | some slot => return some (← h.fetchField (← h.fetchField t.owner slot) place)
    | none => return some key
  | .vacant _ | .full => return none

/-- The symbol with the given spelling, if it is in the table. -/
def findSymbol (config : Config) (h : Heap) (symbols : Value) (name : Array UInt8) :
    Except HeapFault (Option Value) := do
  let keys ← h.fetchField symbols Kind.symbols.keys
  let places ← keyArray config h keys
  match ← probe config.nil places (contentHash name) fun k => do return (← h.bytes k) = name with
  | .found place => return some (← h.fetchField keys place)
  | .vacant _ | .full => return none

/-! ## Growing -/

/-- Whether one more entry keeps a table of `capacity` places at most three quarters full. -/
def fits (tally capacity : Nat) : Bool := (tally + 1) * 4 ≤ capacity * 3

/-- The capacity to grow to: the present one, or the first one of an empty table, and as many
steps of growth as make room for one more entry. -/
def grownCapacity (config : Config) (tally capacity : Nat) : Nat :=
  let base := if capacity = 0 then config.capacity else capacity
  let step := max config.growth 1
  let needed := ((tally + 1) * 4 + 2) / 3
  base + (needed - base + step - 1) / step * step

/-- Moves the entry at `place` of the old arrays into the new ones. -/
def rehash (config : Config) (oldKeys newKeys : Value) (oldNewValues : Option (Value × Value))
    (capacity place : Nat) : HeapM Unit := do
  let key ← Heap.read (·.fetchField oldKeys place)
  if key = config.nil then return
  let hash ← Heap.read (keyHash · key)
  match ← Heap.read (probeVacant config · newKeys hash) with
  | .vacant newPlace =>
    Heap.storeField newKeys newPlace key
    match oldNewValues with
    | some (old, new) => Heap.storeField new newPlace (← Heap.read (·.fetchField old place))
    | none => pure ()
  | _ => throw (.value (.outOfRange capacity capacity))

/-- Moves all entries into fresh arrays of `capacity` places. -/
def grow (config : Config) (t : Table) (capacity : Nat) : HeapM Unit := do
  let oldKeys ← Heap.read (·.fetchField t.owner t.kind.keys)
  let oldValues ← t.kind.values?.mapM fun slot => Heap.read (·.fetchField t.owner slot)
  let keys ← Heap.allocateFields .ephemeral config.array capacity config.nil
  let oldNewValues ← oldValues.mapM fun old => do
    return (old, ← Heap.allocateFields .ephemeral config.array capacity config.nil)
  let oldSize := (← Heap.read (keyArray config · oldKeys)).size
  (List.range oldSize).forM (rehash config oldKeys keys oldNewValues capacity)
  Heap.storeField t.owner t.kind.keys keys
  match t.kind.values?, oldNewValues with
  | some slot, some (_, values) => Heap.storeField t.owner slot values
  | _, _ => pure ()

/-! ## Writing -/

/-- Adds an entry for a key that has none, growing first if need be. -/
def insertNew (config : Config) (t : Table) (hash : Nat) (key value : Value) : HeapM Unit := do
  let tally ← Heap.read fun h => do return (← (← h.fetchField t.owner t.kind.tally).index)
  let capacity ← Heap.read fun h => do
    return (← keyArray config h (← h.fetchField t.owner t.kind.keys)).size
  unless fits tally capacity do
    grow config t (grownCapacity config tally capacity)
  let keys ← Heap.read (·.fetchField t.owner t.kind.keys)
  match ← Heap.read (probeVacant config · keys hash) with
  | .vacant place =>
    Heap.storeField keys place key
    match t.kind.values? with
    | some slot => Heap.storeField (← Heap.read (·.fetchField t.owner slot)) place value
    | none => pure ()
    Heap.storeField t.owner t.kind.tally (.ofNat (tally + 1))
  | _ => throw (.value (.outOfRange tally tally))

/-- Sets the value of a key, compared by identity. -/
def insert (config : Config) (t : Table) (key value : Value) : HeapM Unit := do
  let keys ← Heap.read (·.fetchField t.owner t.kind.keys)
  match ← Heap.read (probeIdentity config · keys key) with
  | .found place =>
    match t.kind.values? with
    | some slot => Heap.storeField (← Heap.read (·.fetchField t.owner slot)) place value
    | none => pure ()
  | _ =>
    let hash ← Heap.read (keyHash · key)
    insertNew config t hash key value

/-- The only symbol with the given spelling, made on first use. -/
def intern (config : Config) (symbols symbolType : Value) (name : Array UInt8) : HeapM Value := do
  match ← Heap.read (findSymbol config · symbols name) with
  | some symbol => return symbol
  | none =>
    let symbol ← Heap.allocateBytesFrom .ephemeral symbolType name
    insertNew config ⟨symbols, .symbols⟩ (contentHash name) symbol config.nil
    return symbol

end Table

end MessageMachine
