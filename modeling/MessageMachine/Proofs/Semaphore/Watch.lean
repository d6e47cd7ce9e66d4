import MessageMachine.Proofs.Schedule.Collection

/-!
# Watching a semaphore

A `Watch` is what somebody would write down who watches one semaphore from the moment it is made: the
signals it has received, the waits that have been let through, and the processes that wait.  None of
this is in the machine, which has only the number of signals left over and a queue.

`Event m w m' w'` is one thing that happens to the machine, with what it changes in the watch.  Only
signals and waits, the start of a run and collections change it.  A signal lets through a wait if the
process it takes from the queue has waited; a process taken from the queue that has not is a signal
lost.  `Serves m w m' w'` are any number of events, and after each of them it is noted who of those
that are blocked has left the processor.

Operations that fail are events too, and the machine goes on from where they have failed.  `Instructs` are
the events of one instruction, of which at most one is an operation that succeeds, and `Tends` are those of
a round of housekeeping.
-/

namespace MessageMachine.Machine

/-- What has happened to a semaphore. -/
structure Watch where
  /-- The semaphore, until it is reclaimed. -/
  semaphore : Option Value
  /-- How many signals there have been. -/
  signals : Nat
  /-- How many waits have been let through, at once or by a signal. -/
  passed : Nat
  /-- The processes that have waited and have not been let through. -/
  waiting : Set Value
  /-- Those of them that have blocked in the current run; only the entry process is in no later one. -/
  blocked : Set Value
  /-- Those that have left the processor since they have blocked. -/
  away : Set Value

namespace Watch

/-- Nothing has happened yet. -/
def opened (semaphore : Value) : Watch := ⟨some semaphore, 0, 0, ∅, ∅, ∅⟩

open Classical in
/-- A signal has taken a process from the queue, and lets it through if it has waited. -/
noncomputable def woken (w : Watch) (p : Value) : Watch :=
  { w with
    signals := w.signals + 1
    passed := if p ∈ w.waiting then w.passed + 1 else w.passed
    waiting := w.waiting \ {p}
    blocked := w.blocked \ {p}
    away := w.away \ {p} }

/-- What a signal from `m` changes.  One that fails before it has taken a process or has been counted
is no signal. -/
noncomputable def signalled (w : Watch) (semaphore : Value) (m : Machine) : Watch :=
  if w.semaphore = some semaphore then
    match (Queue.waiting semaphore).popFront m with
    | .ok (some p) _ => w.woken p
    | .ok none _ =>
      if succeeds (signal semaphore m) then { w with signals := w.signals + 1 } else w
    | .error .. => w
  else w

/-- The active process blocks. -/
def joined (w : Watch) (m : Machine) : Watch :=
  { w with
    waiting := w.waiting ∪ {p | m.activeProcess = .ok p}
    blocked := w.blocked ∪ {p | m.activeProcess = .ok p} }

/-- What a wait from `m` changes.  It is let through at once if there are signals left over. -/
def waited (w : Watch) (semaphore : Value) (m : Machine) : Watch :=
  if w.semaphore = some semaphore ∧ succeeds (wait semaphore m) = true then
    match m.excessSignals semaphore with
    | .ok excess => if 0 < excess then { w with passed := w.passed + 1 } else w.joined m
    | .error _ => w
  else w

/-- A run starts, in which the entry process has not blocked. -/
def restarted (w : Watch) (m : Machine) : Watch :=
  { w with
    blocked := w.blocked \ {m.regs.entryProcess}
    away := w.away \ {m.regs.entryProcess} }

open Classical in
/-- The objects are moved, and those that nothing leads to are reclaimed. -/
noncomputable def moved (w : Watch) (φ : Handle → Handle) (m : Machine) : Watch :=
  { w with
    semaphore := w.semaphore.bind fun s =>
      if Heap.Kept m.heap m.roots s then some (s.map φ) else none
    waiting := Relocated.survivors φ m w.waiting
    blocked := Relocated.survivors φ m w.blocked
    away := Relocated.survivors φ m w.away }

/-- Those that are not active have left the processor. -/
def noted (w : Watch) (m : Machine) : Watch :=
  { w with away := {p ∈ w.blocked | p ∈ w.away ∨ m.activeProcess ≠ .ok p} }

end Watch

/-! ## Events -/

/-- What an instruction can do to processes. -/
inductive Operation where
  | signal (semaphore : Value)
  | wait (semaphore : Value)
  | yield
  | fork (context : Value)
  | finish (v : Value)

namespace Operation

/-- Carries out the operation. -/
def run : Operation → MachineM Unit
  | signal semaphore => Machine.signal semaphore
  | wait semaphore => Machine.wait semaphore
  | yield => yieldProcessor
  | fork context => do let _ ← forkProcess context
  | finish v => processFinished v

theorem run_fork (context : Value) (m : Machine) : (fork context).run m =
    match forkProcess context m with
    | .ok _ m' => .ok () m'
    | .error fault m' => .error fault m' := by
  change (forkProcess context >>= fun _ => pure ()) m = _
  rw [bind_run]
  cases forkProcess context m <;> rfl

/-- What is signalled or waited for is a semaphore. -/
def Apt (m : Machine) : Operation → Prop
  | signal semaphore | wait semaphore => m.heap.typeOf semaphore = .ok (m.known .semaphore)
  | yield | fork _ | finish _ => True

/-- What the operation, carried out from `m`, changes in the watch. -/
noncomputable def seen (w : Watch) (m : Machine) : Operation → Watch
  | signal semaphore => w.signalled semaphore m
  | wait semaphore => w.waited semaphore m
  | yield | fork _ | finish _ => w

end Operation

/-- A step of a switch of processes. -/
inductive Switching (m : Machine) : Machine → Prop where
  /-- The active process leaves the processor. -/
  | vacated : m.schedule.switchPending = true → Switching m (stateAfter
      (storeField (m.known .processor) Slot.activeProcess (m.known .nil) m))
  /-- A ready process without a context is passed over. -/
  | skipped : Switching m (stateAfter ((Queue.ready m).popFront m))
  /-- The switch ends with a ready process. -/
  | resumed {m₁ : Machine} {p : Value} (context : Value) :
      (Queue.ready m).popFront m = .ok (some p) m₁ →
      Switching m (stateAfter (install (m₁.known .processor) p context m₁))

/-- One event, which leads from a machine to another, and what it changes in the watch. -/
inductive Event : Machine → Watch → Machine → Watch → Prop where
  /-- Anything that leaves the queues alone. -/
  | changed {m m' : Machine} {w : Watch} : Undisturbed m m' → Event m w m' w
  /-- A signal from the timer or for an input event. -/
  | signalled {m : Machine} {w : Watch} {semaphore : Value} : Signalable m semaphore →
      Event m w (stateAfter (signal semaphore m)) (w.signalled semaphore m)
  | operated {m : Machine} {w : Watch} (o : Operation) : o.Apt m → m.schedule.switchPending = false →
      Event m w (stateAfter (o.run m)) (o.seen w m)
  /-- Another semaphore is made. -/
  | made {m : Machine} {w : Watch} : Event m w (stateAfter (newSemaphore m)) w
  | switched {m m' : Machine} {w : Watch} : Switching m m' → Event m w m' w
  | started {m : Machine} {w : Watch} (method receiver : Value) (arguments : List Value) :
      Event m w (stateAfter (startMethod method receiver arguments m)) (w.restarted m)
  | collected {m m₁ : Machine} {w : Watch} {cycle : Heap.Cycle} {φ : Handle → Handle} :
      flush m = .ok () m₁ → (m₁.heap.collect m₁.roots).result = .ok cycle →
      Relocated φ m₁ m₁.collected →
      Event m w (stateAfter (collectGarbage m)) (w.moved φ m₁)

/-- Any number of events. -/
inductive Serves : Machine → Watch → Machine → Watch → Prop where
  | refl (m : Machine) (w : Watch) : Serves m w m w
  | tail {m m₁ m' : Machine} {w w₁ w' : Watch} : Serves m w m₁ w₁ → Event m₁ w₁ m' w' →
      Serves m w m' (w'.noted m')

theorem Serves.trans {m m₁ m₂ : Machine} {w w₁ w₂ : Watch} (hfirst : Serves m w m₁ w₁)
    (hsecond : Serves m₁ w₁ m₂ w₂) : Serves m w m₂ w₂ := by
  induction hsecond with
  | refl => exact hfirst
  | tail _ he ih => exact (ih hfirst).tail he

/-! ## Instructions and housekeeping -/

/-- What an instruction does: operations that fail, and at most one that succeeds; whether there has been
one is said by the truth value. -/
inductive Instructs (m₀ : Machine) (w₀ : Watch) : Bool → Machine → Watch → Prop where
  | begun : Instructs m₀ w₀ false m₀ w₀
  | changed {done : Bool} {m m' : Machine} {w : Watch} : Instructs m₀ w₀ done m w →
      Undisturbed m m' → Instructs m₀ w₀ done m' (w.noted m')
  | made {done : Bool} {m : Machine} {w : Watch} : Instructs m₀ w₀ done m w →
      Instructs m₀ w₀ done (stateAfter (newSemaphore m)) (w.noted (stateAfter (newSemaphore m)))
  | operated {m : Machine} {w : Watch} (o : Operation) : Instructs m₀ w₀ false m w → o.Apt m →
      m.schedule.switchPending = false → Instructs m₀ w₀ (succeeds (o.run m)) (stateAfter (o.run m))
        ((o.seen w m).noted (stateAfter (o.run m)))

/-- What housekeeping does: signals from outside, and the steps of a switch. -/
inductive Tends (m₀ : Machine) (w₀ : Watch) : Machine → Watch → Prop where
  | begun : Tends m₀ w₀ m₀ w₀
  | changed {m m' : Machine} {w : Watch} : Tends m₀ w₀ m w → Undisturbed m m' →
      Tends m₀ w₀ m' (w.noted m')
  | signalled {m : Machine} {w : Watch} {semaphore : Value} : Tends m₀ w₀ m w →
      Signalable m semaphore → Tends m₀ w₀ (stateAfter (signal semaphore m))
        ((w.signalled semaphore m).noted (stateAfter (signal semaphore m)))
  | switched {m m' : Machine} {w : Watch} : Tends m₀ w₀ m w → Switching m m' →
      Tends m₀ w₀ m' (w.noted m')

theorem Instructs.serves {m₀ m : Machine} {w₀ w : Watch} {done : Bool}
    (h : Instructs m₀ w₀ done m w) : Serves m₀ w₀ m w := by
  induction h with
  | begun => exact .refl _ _
  | changed _ hu ih => exact ih.tail (.changed hu)
  | made _ ih => exact ih.tail .made
  | operated o _ hapt hidle ih => exact ih.tail (.operated o hapt hidle)

theorem Tends.serves {m₀ m : Machine} {w₀ w : Watch} (h : Tends m₀ w₀ m w) : Serves m₀ w₀ m w := by
  induction h with
  | begun => exact .refl _ _
  | changed _ hu ih => exact ih.tail (.changed hu)
  | signalled _ hs ih => exact ih.tail (.signalled hs)
  | switched _ hs ih => exact ih.tail (.switched hs)

end MessageMachine.Machine
