import MessageMachine.Machine.Cache
import MessageMachine.Machine.Fault
import MessageMachine.Machine.InputFeed
import MessageMachine.Machine.Landmark
import MessageMachine.Machine.Pins
import MessageMachine.Heap.Collection
import MessageMachine.Table

/-!
# The machine

The state of a machine, and the actions on it.  What only reads the state is a function from it to
`Except Fault`; what changes it is an action of `MachineM`, which keeps the state also when the
action fails.
-/

namespace MessageMachine

/-- The registers of a machine.  All but `ip`, `sp` and the counts are roots of a collection. -/
structure Registers where
  activeContext : Value
  homeContext : Value
  method : Value
  receiver : Value
  /-- The code of `method`. -/
  code : Value
  ip : Nat
  /-- The field of the active context at the top of the operand stack. -/
  sp : Nat
  /-- The first operand stack field of the active context. -/
  stackBase : Nat
  /-- How many fields the active context has. -/
  stackLimit : Nat
  /-- How many temporaries the home context has. -/
  tempCount : Nat
  /-- The process that runs requests from outside. -/
  entryProcess : Value
  /-- The semaphore that the entry process waits on, or nil. -/
  entryWait : Value
  /-- What the entry process answered. -/
  result : Option Value
  deriving DecidableEq, Repr, Inhabited

/-- The registers before anything runs. -/
def Registers.cleared (nil entryProcess : Value) : Registers where
  activeContext := nil
  homeContext := nil
  method := nil
  receiver := nil
  code := nil
  ip := 0
  sp := 0
  stackBase := 0
  stackLimit := 0
  tempCount := 0
  entryProcess
  entryWait := nil
  result := none

/-- What the scheduler knows apart from the queues, which are kept in the heap. -/
structure Schedule where
  /-- A switch of processes is due at the next round of housekeeping. -/
  switchPending : Bool
  /-- How many switches there have been. -/
  switches : Nat
  /-- Events taken from the feed and not yet read, oldest first. -/
  pendingInput : List Int
  /-- The time, in nanoseconds since the machine was created. -/
  clock : Nat
  /-- When the timer last fired. -/
  lastTimer : Nat
  /-- When the running process was made active. -/
  lastSwitch : Nat
  deriving DecidableEq, Repr, Inhabited

/-- A schedule with nothing to do. -/
def Schedule.initial : Schedule := ⟨false, 0, [], 0, 0, 0⟩

/-- A machine: its heap, the objects it knows, its registers and its schedule. -/
structure Machine where
  settings : Machine.Settings
  heap : Heap
  known : Landmarks
  regs : Registers
  cache : MethodCache
  schedule : Schedule
  feed : InputFeed
  pins : Pins
  /-- Instructions since the last round of housekeeping. -/
  ticks : Nat
  /-- Instructions executed so far. -/
  instructions : Nat
  deriving Repr, Inhabited

/-- Actions on a machine. -/
abbrev MachineM := EStateM Fault Machine

instance : MonadLift (Except Fault) MachineM where
  monadLift
    | .ok a => pure a
    | .error fault => throw fault

namespace Machine

/-! ## Reading and changing the state -/

/-- The result of reading the machine, as an action. -/
def read (f : Machine → Except Fault α) : MachineM α := fun m =>
  match f m with
  | .ok a => .ok a m
  | .error fault => .error fault m

/-- The result of reading the heap, as an action. -/
def readHeap (f : Heap → Except HeapFault α) : MachineM α := fun m =>
  match f m.heap with
  | .ok a => .ok a m
  | .error fault => .error (.heap fault) m

/-- An action on the heap, as an action on the machine.  The machine lets go of the heap while the
action runs. -/
def onHeap (action : HeapM α) : MachineM α := fun
  | ⟨settings, heap, known, regs, cache, schedule, feed, pins, ticks, instructions⟩ =>
    let withHeap (heap : Heap) : Machine :=
      ⟨settings, heap, known, regs, cache, schedule, feed, pins, ticks, instructions⟩
    match action heap with
    | .ok a heap => .ok a (withHeap heap)
    | .error fault heap => .error (.heap fault) (withHeap heap)

/-- The value of a landmark. -/
def landmark (k : Landmark) : MachineM Value := fun m => .ok (m.known k) m

/-- What the tables of this machine share. -/
def tableConfig (m : Machine) : Table.Config where
  nil := m.known .nil
  array := m.known .array
  capacity := m.settings.tableCapacity
  growth := m.settings.tableGrowth

/-- Changes the registers. -/
def modifyRegs (f : Registers → Registers) : MachineM Unit :=
  modify fun m => { m with regs := f m.regs }

/-- Changes the schedule. -/
def modifySchedule (f : Schedule → Schedule) : MachineM Unit :=
  modify fun m => { m with schedule := f m.schedule }

/-! ## The heap of a machine -/

/-- A field of an object. -/
def fetchField (v : Value) (i : Nat) : MachineM Value := readHeap (·.fetchField v i)

/-- Sets a field of an object. -/
def storeField (v : Value) (i : Nat) (new : Value) : MachineM Unit :=
  onHeap (Heap.storeField v i new)

/-- A new ephemeral object of a known type, with all fields nil. -/
def newObject (type : Landmark) (count : Nat) : MachineM Value := do
  onHeap (Heap.allocateFields .ephemeral (← landmark type) count (← landmark .nil))

/-! ## Types -/

/-- The type of a value. -/
def classOf (m : Machine) (v : Value) : Except Fault Value :=
  match v with
  | .int _ => return m.known .smallInteger
  | _ => m.heap.typeOf v

/-- Whether a value is a type: its own type is the type of a type. -/
def isType (m : Machine) (v : Value) : Except Fault Bool :=
  match v with
  | .object _ => do return (← m.heap.typeOf (← m.heap.typeOf v)) = m.known .metaclass
  | _ => return false

/-- Whether a value is a byte buffer of the symbol type. -/
def isSymbol (m : Machine) (v : Value) : Except Fault Bool :=
  match v with
  | .bytes _ => do return (← m.heap.typeOf v) = m.known .symbol
  | _ => return false

/-- Whether a value is a fielded object of exactly the given known type. -/
def isInstance (m : Machine) (v : Value) (type : Landmark) : Except Fault Bool :=
  match v with
  | .object _ => do return (← m.heap.typeOf v) = m.known type
  | _ => return false

end Machine

end MessageMachine
