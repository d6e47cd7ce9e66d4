import MessageMachine.Machine.Step

/-!
# Running

A run executes instructions until the entry process answers.  Between two instructions it does the
housekeeping that is due and collects the heap if that has grown enough.

Programs need not end, so a run is given a budget of instructions.
-/

namespace MessageMachine.Machine

/-! ## Collecting -/

/-- The roots of a collection: the registers, the landmarks and the pinned values. -/
def roots (m : Machine) : List Value :=
  [m.regs.activeContext, m.regs.homeContext, m.regs.method, m.regs.receiver, m.regs.code,
    m.regs.entryProcess, m.regs.entryWait] ++ m.known.toList ++ m.pins.values

/-- The machine with other roots, in the same order. -/
def setRoots (m : Machine) : List Value → Machine
  | activeContext :: homeContext :: method :: receiver :: code :: entryProcess :: entryWait ::
      rest =>
    { m with
      regs := { m.regs with
        activeContext, homeContext, method, receiver, code, entryProcess, entryWait }
      known := m.known.refill rest
      pins := m.pins.refill (rest.drop Landmark.count) }
  | _ => m

/-- Collects the heap.  The pointers are saved before and the registers loaded again after. -/
def collectGarbage : MachineM Heap.Cycle := do
  flush
  let result ← modifyGet fun m =>
    let collected := m.heap.collect m.roots
    (collected.result, { m.setRoots collected.roots with heap := collected.heap })
  let cycle ← result
  modify fun m => { m with cache := m.cache.flush }
  let context := (← get).regs.activeContext
  unless context = (← landmark .nil) do reload context
  return cycle

/-! ## Running -/

/-- Executes one instruction after what is due before it, and answers the result of the run if that
was the last one. -/
def turn (fuel : Nat) : MachineM (Option Value) := do
  modify fun m => { m with ticks := m.ticks + 1 }
  let m ← get
  let housekeepingDue := m.schedule.switchPending || m.ticks ≥ m.settings.housekeepingPeriod
  if housekeepingDue then
    modify fun m => { m with ticks := 0 }
    housekeeping fuel
  let collectionDue := (← get).heap.needsCollection
  if collectionDue then
    let _ ← collectGarbage
  step
  modifyGet fun m =>
    (m.regs.result, { m with instructions := m.instructions + 1, regs.result := none })

/-- Runs for at most `budget` instructions. -/
def run : (budget : Nat) → Machine → EStateM.Result Fault Machine Value
  | 0, m => .error .outOfBudget m
  | budget + 1, m =>
    match turn budget m with
    | .ok (some v) m => .ok v m
    | .ok none m => run budget m
    | .error fault m => .error fault m

/-- Makes the entry process active, with a context for a method. -/
def startMethod (method receiver : Value) (arguments : List Value) : MachineM Unit := do
  let context ← entryContext method receiver arguments
  detachEntryProcess
  let entry := (← get).regs.entryProcess
  storeField (← landmark .processor) Slot.activeProcess entry
  storeField entry Slot.processContext context
  modifySchedule fun s => { s with switchPending := false, lastSwitch := s.clock }
  modifyRegs ({ · with result := none })
  reload context

/-- Runs a method in the entry process until its context answers. -/
def runMethod (budget : Nat) (method receiver : Value) (arguments : List Value) :
    MachineM Value := do
  startMethod method receiver arguments
  run budget

/-- Sends a message as code would, and runs until it is answered. -/
def sendMessage (budget : Nat) (receiver : Value) (selector : String) (arguments : List Value) :
    MachineM Value := do
  let method ← sendingMethod receiver selector arguments
  runMethod budget method (← landmark .nil) []

end MessageMachine.Machine
