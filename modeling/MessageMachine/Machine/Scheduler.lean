import MessageMachine.Machine.Queue
import MessageMachine.Machine.Stack

/-!
# Processes and semaphores

Processes give up the processor only at rounds of housekeeping.  Waiting, signalling, yielding and
forking change the queues and ask for a switch (`switchPending`); housekeeping polls the timer and
the input feed and then performs the switch.

Time is kept by a clock of the machine's own.  A poll takes a nanosecond, and idling as long as the
settings say.
-/

namespace MessageMachine.Machine

/-! ## Reading the schedule -/

/-- The running process, or nil. -/
def activeProcess (m : Machine) : Except Fault Value :=
  m.heap.fetchField (m.known .processor) Slot.activeProcess

/-- The processes ready to run, front first. -/
def readyProcesses (m : Machine) : Except Fault (List Value) := (Queue.ready m).toList m

/-- The processes waiting for a semaphore, front first. -/
def waitingProcesses (m : Machine) (semaphore : Value) : Except Fault (List Value) :=
  (Queue.waiting semaphore).toList m

/-- The signals of a semaphore that no process has waited for yet. -/
def excessSignals (m : Machine) (semaphore : Value) : Except Fault Int := do
  let excess ← m.heap.fetchField semaphore Slot.excessSignals
  if excess = m.known .nil then return 0
  excess.smallInt

/-! ## Transitions -/

/-- Asks for a switch of processes. -/
def requestSwitch : MachineM Unit := modifySchedule ({ · with switchPending := true })

/-- Puts the running process at the back of the ready queue, unless it is leaving the processor
already. -/
def requeueActive : MachineM Unit := do
  let active ← read (·.activeProcess)
  let pending := (← get).schedule.switchPending
  if active ≠ (← landmark .nil) ∧ ¬pending then
    (Queue.ready (← get)).pushBack active

/-- Wakes the process that has waited longest, or counts the signal.  The process woken runs
next. -/
def signal (semaphore : Value) : MachineM Unit := do
  match ← (Queue.waiting semaphore).popFront with
  | some waiter =>
    let nil ← landmark .nil
    if waiter = (← get).regs.entryProcess then modifyRegs ({ · with entryWait := nil })
    (Queue.ready (← get)).pushFront waiter
    requeueActive
    requestSwitch
  | none =>
    let excess ← read (·.excessSignals semaphore)
    storeField semaphore Slot.excessSignals (.wrapping (excess + 1))

/-- Consumes a counted signal, or queues the running process until there is one. -/
def wait (semaphore : Value) : MachineM Unit := do
  let excess ← read (·.excessSignals semaphore)
  if excess > 0 then
    storeField semaphore Slot.excessSignals (.int (excess - 1))
  else
    let active ← read (·.activeProcess)
    (Queue.waiting semaphore).pushBack active
    if active = (← get).regs.entryProcess then modifyRegs ({ · with entryWait := semaphore })
    requestSwitch

/-- Lets every ready process run before the running one goes on. -/
def yieldProcessor : MachineM Unit := do
  let first ← fetchField (← landmark .processor) Slot.firstReady
  unless first = (← landmark .nil) do
    requeueActive
    requestSwitch

/-- A new process for a context.  It runs before the process that forks it goes on. -/
def forkProcess (context : Value) : MachineM Value := do
  let process ← newObject .process Slot.processSize
  storeField process Slot.processContext context
  storeField process Slot.processTime (.ofNat 0)
  (Queue.ready (← get)).pushBack process
  requeueActive
  requestSwitch
  return process

/-- Takes the entry process off the queues that an aborted run left it on. -/
def detachEntryProcess : MachineM Unit := do
  let nil ← landmark .nil
  let entry := (← get).regs.entryProcess
  let _ ← (Queue.ready (← get)).unlink entry
  let semaphore := (← get).regs.entryWait
  unless semaphore = nil do
    let _ ← (Queue.waiting semaphore).unlink entry
    modifyRegs ({ · with entryWait := nil })

/-- Ends the running process, whose bottom context answered `v`. -/
def processFinished (v : Value) : MachineM Unit := do
  let nil ← landmark .nil
  let active ← read (·.activeProcess)
  unless active = nil do storeField active Slot.processContext nil
  clearRegisters
  if active = (← get).regs.entryProcess then modifyRegs ({ · with result := some v })
  else
    storeField (← landmark .processor) Slot.activeProcess nil
    requestSwitch

/-- Takes the oldest input event. -/
def nextInputEvent : MachineM (Option Int) := do
  match (← get).schedule.pendingInput with
  | [] => return none
  | event :: rest =>
    modifySchedule ({ · with pendingInput := rest })
    return some event

/-! ## Housekeeping -/

/-- Lets time pass. -/
def passTime (nanoseconds : Nat) : MachineM Unit :=
  modifySchedule fun s => { s with clock := s.clock + nanoseconds }

/-- Adds an event to those not yet read, and signals the input semaphore. -/
def receiveEvent (semaphore : Value) (event : Int) : MachineM Unit := do
  modifySchedule fun s => { s with pendingInput := s.pendingInput ++ [event] }
  signal semaphore

/-- Signals the timer semaphore if its period is over, and takes in the events of the feed. -/
def poll : MachineM Unit := do
  passTime 1
  let interrupts ← fetchField (← landmark .processor) Slot.interruptTable
  let schedule := (← get).schedule
  if schedule.clock - schedule.lastTimer ≥ (← get).settings.timerInterval then
    modifySchedule fun s => { s with lastTimer := s.clock }
    signal (← fetchField interrupts Slot.timerInterrupt)
  let events ← modifyGet fun m =>
    let (events, feed) := m.feed.drain
    (events, { m with feed })
  unless events.isEmpty do
    let semaphore ← fetchField interrupts Slot.inputInterrupt
    events.forM (receiveEvent semaphore)

/-- Whether a machine that has been idle since `since` gives up. -/
def givesUp (m : Machine) (since : Nat) : Bool :=
  match m.settings.idleLimit with
  | some limit => m.schedule.clock - since ≥ limit
  | none => false

/-- Takes the first ready process that has a context, idling until there is one.  `fuel` bounds
the attempts. -/
def nextProcess (since : Nat) : (fuel : Nat) → MachineM (Value × Value)
  | 0 => throw .outOfBudget
  | fuel + 1 => do
    match ← (Queue.ready (← get)).popFront with
    | some process =>
      let context ← fetchField process Slot.processContext
      if context ≠ (← landmark .nil) then return (process, context)
      nextProcess since fuel
    | none =>
      if (← get).givesUp since then throw .deadlock
      passTime (← get).settings.idleSleep
      poll
      nextProcess since fuel

/-- The largest time a process can have run, in microseconds. -/
abbrev maxTime : Int := (1 <<< 63 : Nat) - 1

/-- Saves the context of a process that leaves the processor, and adds to the time it ran. -/
def suspend (process : Value) : MachineM Unit := do
  let schedule := (← get).schedule
  let elapsed : Int := (schedule.clock - schedule.lastSwitch) / 1000
  let time ← fetchField process Slot.processTime
  let total ← Value.ofInt (min (time.toInt?.getD 0 + elapsed) maxTime)
  storeField process Slot.processTime total
  storeField process Slot.processContext (← get).regs.activeContext

/-- Saves the running process and runs the first ready one. -/
def contextSwitch (fuel : Nat) : MachineM Unit := do
  let nil ← landmark .nil
  let processor ← landmark .processor
  flush
  let outgoing ← read (·.activeProcess)
  unless outgoing = nil do suspend outgoing
  storeField processor Slot.activeProcess nil
  clearRegisters
  let (incoming, context) ← nextProcess (← get).schedule.clock fuel
  storeField processor Slot.activeProcess incoming
  reload context
  modifySchedule fun s =>
    { s with switchPending := false, switches := s.switches + 1, lastSwitch := s.clock }

/-- Polls the timer and the input feed, then switches processes if that is due. -/
def housekeeping (fuel : Nat) : MachineM Unit := do
  poll
  if (← get).schedule.switchPending then contextSwitch fuel

end MessageMachine.Machine
