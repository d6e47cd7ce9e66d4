import MessageMachine.Value.Basic

/-!
# Landmarks

The objects that the machine itself has to know: the three singletons, the processor, the global
tables, and the types it gives its own objects.  `Landmarks` holds the value of each.
-/

namespace MessageMachine

/-- The objects known to the machine. -/
inductive Landmark where
  | nil
  | true
  | false
  | processor
  | globals
  | symbolTable
  /-- The array of special selectors. -/
  | specialSelectors
  /-- The selector sent when a receiver has no method for a message. -/
  | doesNotUnderstand
  | object
  | undefinedObject
  | boolean
  | trueType
  | falseType
  | smallInteger
  | symbol
  | string
  | array
  | byteArray
  | wordArray
  | compiledMethod
  | methodContext
  | blockContext
  | process
  | semaphore
  | link
  | processorScheduler
  | dictionary
  | symbolTableType
  | classType
  | metaclass
  deriving DecidableEq, Repr, Inhabited

namespace Landmark

/-- How many landmarks there are. -/
abbrev count : Nat := 30

/-- The place of a landmark. -/
def index (k : Landmark) : Fin count := ⟨k.ctorIdx, by cases k <;> decide⟩

end Landmark

/-- The values of the landmarks, in the order of their places. -/
structure Landmarks where
  values : Vector Value Landmark.count
  deriving DecidableEq, Repr, Inhabited

namespace Landmarks

/-- The value of a landmark. -/
def get (s : Landmarks) (k : Landmark) : Value := s.values[k.index]

instance : CoeFun Landmarks fun _ => Landmark → Value := ⟨get⟩

/-- All landmarks with one value. -/
def filled (v : Value) : Landmarks := ⟨Vector.replicate Landmark.count v⟩

/-- Gives a landmark its value. -/
def set (s : Landmarks) (k : Landmark) (v : Value) : Landmarks := ⟨s.values.set k.index v⟩

/-- The object of a truth value. -/
def ofBool (s : Landmarks) (b : Bool) : Value := if b then s .true else s .false

/-- The values in order. -/
def toList (s : Landmarks) : List Value := s.values.toList

/-- Replaces the values in order, as far as the list goes. -/
def refill (s : Landmarks) (vs : List Value) : Landmarks :=
  let vs := vs.toArray
  ⟨s.values.mapIdx fun i v => vs.getD i v⟩

end Landmarks

end MessageMachine
