import MessageMachine.Machine.Basic
import MessageMachine.Machine.Boot

/-!
# Symbols, strings, globals and new types

What the outside asks a machine to name and to make.
-/

namespace MessageMachine.Machine

/-! ## Symbols and text -/

/-- The symbol with the given spelling, made on first use. -/
def intern (name : String) : MachineM Value := fun m =>
  onHeap (Boot.intern m.tableConfig m.known name) m

/-- The symbol with the given spelling, if there is one. -/
def findSymbol (m : Machine) (name : String) : Except Fault (Option Value) :=
  Table.findSymbol m.tableConfig m.heap (m.known .symbolTable) (Utf8.encode name)

/-- The text of a symbol or string. -/
def textOf (m : Machine) (v : Value) : Except Fault String := do
  return Utf8.decodeLossy (← m.heap.bytes v)

/-- The name of a type. -/
def typeName (m : Machine) (type : Value) : Except Fault String := do
  let name ← m.heap.fetchField type Slot.typeName
  if name = m.known .nil then return "<anonymous>" else m.textOf name

/-- A new string. -/
def newString (text : String) : MachineM Value := do
  onHeap (Heap.allocateBytesFrom .ephemeral (← landmark .string) (Utf8.encode text))

/-- A new array with the given elements. -/
def newArray (elements : List Value) : MachineM Value := do
  let array ← newObject .array elements.length
  elements.zipIdx.forM fun (v, i) => storeField array i v
  return array

/-! ## Globals -/

/-- The value of a global. -/
def globalAt (m : Machine) (name : String) : Except Fault (Option Value) := do
  match ← m.findSymbol name with
  | none => return none
  | some symbol => Table.lookup m.tableConfig m.heap ⟨m.known .globals, .globals⟩ symbol

/-- Sets the value of the global named by a symbol. -/
def setGlobal (symbol value : Value) : MachineM Unit := fun m =>
  onHeap (Boot.setGlobal m.tableConfig m.known symbol value) m

/-- Sets the value of a global. -/
def globalAtPut (name : String) (value : Value) : MachineM Unit := do
  setGlobal (← intern name) value

/-! ## Types -/

/-- A new type with `fields` fields beyond those it inherits, registered as a global. -/
def defineType (name : String) (supertype : Value) (fields : Nat) (format : Format) :
    MachineM Value := do
  let inherited ← read fun m => do
    return (← (← m.heap.fetchField supertype Slot.fixedFields).index : Nat)
  let type ← onHeap (Boot.newType (← landmark .nil) (← landmark .metaclass) supertype
    (inherited + fields) format)
  fun m => onHeap (Boot.nameType m.tableConfig m.known type name) m
  return type

end MessageMachine.Machine
