import MessageMachine.Heap.Settings

/-!
# Machine settings

The heap settings of a machine and the sizes and times of its own.  Times are in nanoseconds.
-/

namespace MessageMachine.Machine

/-- How a machine is created. -/
structure Settings where
  heap : Heap.Settings := {}
  /-- Operand stack slots of a new context, beyond its temporaries. -/
  contextStackDepth : Nat := 32
  /-- The first capacity of a table. -/
  tableCapacity : Nat := 32
  /-- How many places a table grows by. -/
  tableGrowth : Nat := 32
  /-- The period of the timer semaphore. -/
  timerInterval : Nat := 250000000
  /-- How long to sleep between polls while no process can run. -/
  idleSleep : Nat := 1000000
  /-- How long to idle before giving up; none for ever. -/
  idleLimit : Option Nat := some 5000000000
  /-- Instructions between two rounds of housekeeping. -/
  housekeepingPeriod : Nat := 1000
  deriving DecidableEq, Repr, Inhabited

/-- What can be wrong with machine settings. -/
inductive Settings.Defect where
  | heap (defect : Heap.Settings.Defect)
  | noStack
  | noTableRoom
  | noPeriod
  | noInterval
  deriving DecidableEq, Repr, Inhabited

namespace Settings

/-- What is told about a defect. -/
def Defect.message : Defect → String
  | heap defect => defect.message
  | noStack => "context_stack_depth must be > 0"
  | noTableRoom => "dictionary sizes must be > 0"
  | noPeriod => "housekeeping_period must be > 0"
  | noInterval => "timer_interval must be > 0"

/-- The first defect of the settings, if any; those of the heap come first. -/
def defect? (s : Settings) : Option Defect :=
  match s.heap.defect? with
  | some defect => some (.heap defect)
  | none =>
    if s.contextStackDepth = 0 then some .noStack
    else if s.tableCapacity = 0 ∨ s.tableGrowth = 0 then some .noTableRoom
    else if s.housekeepingPeriod = 0 then some .noPeriod
    else if s.timerInterval = 0 then some .noInterval
    else none

end Settings

end MessageMachine.Machine
