import MessageMachine.Machine.Kernel
import MessageMachine.Proofs.Action

/-!
# Trying programs on new machines

What a definition excludes, and what a program can lead to, is shown by programs that are run on a new
machine.  To evaluate `create` takes long, so that a module evaluates it once, with all that it wants to
find out about the machine in one test (`passes`).
-/

namespace MessageMachine.Machine

variable {m : Machine} {s : Settings}

/-- Settings with room for the kernel in the first tables, and with short segments, so that it takes
little to change an object. -/
def roomySettings : Settings where
  tableCapacity := 150
  heap := { segmentWords := 256, maxRootSegments := 256, gcThresholdSegments := 256 }

/-- Settings with housekeeping and a timer signal before every instruction. -/
def promptSettings : Settings :=
  { roomySettings with timerInterval := 1, housekeepingPeriod := 1 }

/-! ## Tests -/

/-- Whether a machine can be created, and the test is true of it. -/
def passes (settings : Settings) (test : Machine → Bool) : Bool :=
  match create settings with
  | .ok m => test m
  | .error _ => false

theorem exists_create_of_passes {test : Machine → Bool} (hpasses : passes s test = true) :
    ∃ m, create s = .ok m ∧ test m = true := by
  unfold passes at hpasses
  split at hpasses
  · next m hcreate => exact ⟨m, hcreate, hpasses⟩
  · cases hpasses

/-- What an action answers, if it does. -/
def resultOf (r : EStateM.Result Fault Machine α) : Option α :=
  match r with
  | .ok a _ => some a
  | .error .. => none

theorem resultOf_eq_some {r : EStateM.Result Fault Machine α} {a : α} (h : resultOf r = some a) :
    ∃ m, r = .ok a m := by
  cases r with
  | ok b m =>
      cases h
      exact ⟨m, rfl⟩
  | error fault m => cases h

/-- The first method of a type. -/
def firstMethod (m : Machine) (type : Value) : Option Value := do
  let table ← (m.heap.fetchField type Slot.methods).toOption
  let methods ← (m.heap.fields table).toOption
  methods.find? (· ≠ m.known .nil)

end MessageMachine.Machine
