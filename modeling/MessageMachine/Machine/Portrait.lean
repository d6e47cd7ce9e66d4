import MessageMachine.Machine.Naming

/-!
# Portraits

A portrait shows a value to a reader: what kind of thing it is and, to a given depth, what it is
made of.
-/

namespace MessageMachine

/-- What is shown of a value. -/
inductive Portrait where
  | nil
  | boolean (b : Bool)
  | integer (n : Int)
  | symbol (text : String)
  | bytes (type : String) (contents : Array UInt8)
  | words (type : String) (contents : Array UInt64)
  | type (name : String)
  /-- An object with its number of fields, and the first of them if the depth allows. -/
  | object (type : String) (size : Nat) (fields : Option (List Portrait))
  /-- A time that a process has run, which differs from run to run. -/
  | time
  /-- What could not be shown. -/
  | fault (fault : Fault)
  deriving Repr, Inhabited

namespace Machine

/-- How many fields of an object are shown. -/
abbrev shownFields : Nat := 16

/-- The name of a type as it is shown; an integer in the place of a type is shown as such. -/
def shownType (m : Machine) (type : Value) : Except Fault String :=
  if type.isInt then return type.text else m.typeName type

/-- Shows a value, with its fields shown by `field`.  The type of an object is shown first, so an
object whose type has no name is not shown at all, be it a type itself. -/
def portrayWith (m : Machine) (field : Option (Value → Portrait)) (v : Value) :
    Except Fault Portrait := do
  if v = m.known .nil then return .nil
  if v = m.known .true then return .boolean true
  if v = m.known .false then return .boolean false
  match v with
  | .int n => return .integer n
  | .bytes _ =>
    if ← m.isSymbol v then return .symbol (← m.textOf v)
    return .bytes (← m.shownType (← m.classOf v)) (← m.heap.bytes v)
  | .words _ => return .words (← m.shownType (← m.classOf v)) (← m.heap.words v)
  | .object _ =>
    let type ← m.classOf v
    let typeText ← m.shownType type
    unless type.isInt do
      if ← m.isType v then return .type (← m.typeName v)
    let fields ← m.heap.fields v
    let shown := field.map fun field =>
      (fields.toList.take shownFields).mapIdx fun i v =>
        if type = m.known .process ∧ i = Slot.processTime then .time else field v
    return .object typeText fields.size shown

/-- Shows a value to the given depth. -/
def portray (m : Machine) : (depth : Nat) → Value → Portrait
  | 0, v => finish (m.portrayWith none v)
  | depth + 1, v => finish (m.portrayWith (some (m.portray depth)) v)
where
  finish : Except Fault Portrait → Portrait
    | .ok p => p
    | .error fault => .fault fault

end Machine

end MessageMachine
