import MessageMachine.Machine.Basic

/-!
# Queues

A queue is a chain of `Link` objects in the heap.  Its owner has a field with the first link and
one with the last; both are nil while the queue is empty.  The processor owns the queue of ready
processes, and each semaphore the queue of processes waiting for it.

`Queue.toList` reads a queue from front to back.
-/

namespace MessageMachine

/-- A queue: its owner and the fields with the first and the last link. -/
structure Queue where
  owner : Value
  first : Nat
  last : Nat
  deriving DecidableEq, Repr, Inhabited

namespace Queue

open Machine

/-- The processes waiting for a semaphore. -/
def waiting (semaphore : Value) : Queue := ⟨semaphore, Slot.firstWaiting, Slot.lastWaiting⟩

/-- The processes ready to run. -/
def ready (m : Machine) : Queue := ⟨m.known .processor, Slot.firstReady, Slot.lastReady⟩

/-! ## Reading -/

/-- The values of a chain of links, of at most `fuel` links. -/
def chain (h : Heap) (nil : Value) : (fuel : Nat) → (link : Value) → Except Fault (List Value)
  | 0, _ => throw .endless
  | fuel + 1, link => do
    if link = nil then return []
    let value ← h.fetchField link Slot.linkValue
    let next ← h.fetchField link Slot.linkNext
    return value :: (← chain h nil fuel next)

/-- The queued values, front first.  A chain longer than there are objects leads back to
itself. -/
def toList (m : Machine) (q : Queue) : Except Fault (List Value) := do
  chain m.heap (m.known .nil) (m.heap.objectCount + 1) (← m.heap.fetchField q.owner q.first)

/-! ## Changing -/

/-- A new link. -/
def newLink (value next : Value) : MachineM Value := do
  let link ← newObject .link Slot.linkSize
  storeField link Slot.linkValue value
  storeField link Slot.linkNext next
  return link

/-- Adds a value at the back. -/
def pushBack (q : Queue) (value : Value) : MachineM Unit := do
  let nil ← landmark .nil
  let link ← newLink value nil
  let last ← fetchField q.owner q.last
  if last = nil then storeField q.owner q.first link
  else storeField last Slot.linkNext link
  storeField q.owner q.last link

/-- Adds a value at the front. -/
def pushFront (q : Queue) (value : Value) : MachineM Unit := do
  let first ← fetchField q.owner q.first
  let link ← newLink value first
  storeField q.owner q.first link
  if first = (← landmark .nil) then storeField q.owner q.last link

/-- Takes the value at the front. -/
def popFront (q : Queue) : MachineM (Option Value) := do
  let nil ← landmark .nil
  let first ← fetchField q.owner q.first
  if first = nil then return none
  let value ← fetchField first Slot.linkValue
  let next ← fetchField first Slot.linkNext
  storeField q.owner q.first next
  if next = nil then storeField q.owner q.last nil
  return some value

/-- Removes the first link with a value from a chain of at most `fuel` links. -/
def unlinkFrom (q : Queue) (value nil : Value) :
    (fuel : Nat) → (previous link : Value) → MachineM Bool
  | 0, _, _ => throw .endless
  | fuel + 1, previous, link => do
    if link = nil then return false
    let next ← fetchField link Slot.linkNext
    if (← fetchField link Slot.linkValue) = value then
      if previous = nil then storeField q.owner q.first next
      else storeField previous Slot.linkNext next
      if next = nil then storeField q.owner q.last previous
      return true
    unlinkFrom q value nil fuel link next

/-- Removes the first occurrence of a value, and answers whether there was one. -/
def unlink (q : Queue) (value : Value) : MachineM Bool := do
  let nil ← landmark .nil
  let first ← fetchField q.owner q.first
  unlinkFrom q value nil ((← get).heap.objectCount + 1) nil first

end Queue

end MessageMachine
