import MessageMachine.Format
import MessageMachine.Heap.Content
import MessageMachine.Primitive.Operand

/-!
# Primitives on objects

Identity, types, new instances, and indexed access.  Indices count from 1 and, in fielded objects,
start after the fields that the type declares.
-/

namespace MessageMachine.Machine

/-- Answers whether receiver and argument are the same object. -/
def identicalPrimitive : MachineM Bool := do
  let receiver ← read (·.receiver 1)
  let argument ← read (·.argument 1 0)
  answer 1 ((← get).known.ofBool (receiver = argument))

/-- Answers the type of the receiver. -/
def classPrimitive : MachineM Bool := do
  let receiver ← read (·.receiver 0)
  answer 0 (← read (·.classOf receiver))

/-! ## New instances -/

/-- The format of the instances of a type. -/
def formatOf (m : Machine) (type : Value) : Except Fault Format := do
  return (← Format.ofValue (← m.heap.fetchField type Slot.format) : Format)

/-- How many fields a type declares. -/
def fixedFieldsOf (m : Machine) (type : Value) : Except Fault Nat := do
  return (← (← m.heap.fetchField type Slot.fixedFields).index : Nat)

/-- A new instance of a type with `indexed` indexed slots.  Fields are nil, buffers are zero. -/
def instantiate (type : Value) (indexed : Nat) : MachineM Value := do
  let format ← read (·.formatOf type)
  let fixed ← read (·.fixedFieldsOf type)
  if indexed > 0 ∧ ¬format.indexable then throw (.heap (.value (.outOfRange indexed 0)))
  match format.storage with
  | .fields =>
    let count := min (fixed + indexed) Heap.maxCount
    onHeap (Heap.allocateFields .ephemeral type count (← landmark .nil))
  | .bytes => onHeap (Heap.allocateBytes .ephemeral type indexed)
  | .words => onHeap (Heap.allocateWords .ephemeral type indexed)

/-- Answers a new instance of the receiver. -/
def basicNew : MachineM Bool := do
  let type ← read (·.receiver 0)
  unless ← read (·.isType type) do return false
  answer 0 (← instantiate type 0)

/-- Answers a new instance of the receiver with as many indexed slots as the argument says. -/
def basicNewSized : MachineM Bool := do
  let type ← read (·.receiver 1)
  let size ← read fun m => do return (← (← m.argument 1 0).index : Nat)
  unless ← read (·.isType type) do return false
  unless (← read (·.formatOf type)).indexable do return false
  answer 1 (← instantiate type size)

/-! ## Indexed access -/

/-- How many fields of an object are skipped by indices. -/
def skippedFields (m : Machine) (v : Value) : Except Fault Nat := do
  m.fixedFieldsOf (← m.heap.typeOf v)

/-- How many indexed slots a value has. -/
def indexedSize (m : Machine) (v : Value) : Except Fault Nat :=
  match v with
  | .int _ => return 0
  | .object _ => do
    let count ← m.heap.fieldCount v
    return count - (← m.skippedFields v)
  | .bytes _ => m.heap.byteSize v
  | .words _ => m.heap.wordCount v

/-- The zero-based place of an index in the body of a value, if it is in bounds. -/
def indexedPlace (m : Machine) (v index : Value) : Except Fault (Option Nat) := do
  let i ← index.index
  if i = 0 ∨ i > (← m.indexedSize v) then return none
  match v with
  | .object _ => return some ((← m.skippedFields v) + (i - 1))
  | _ => return some (i - 1)

/-- Answers the element at an index. -/
def basicAt : MachineM Bool := do
  let receiver ← read (·.receiver 1)
  let index ← read (·.argument 1 0)
  match ← read (·.indexedPlace receiver index) with
  | none => decline
  | some i =>
    match receiver with
    | .int _ => decline
    | .object _ => answer 1 (← fetchField receiver i)
    | .bytes _ => answer 1 (.ofNat (← readHeap (·.fetchByte receiver i)).toNat)
    | .words _ => answer 1 (← Value.ofInt (← readHeap (·.fetchWord receiver i)).toNat)

/-- Sets the element at an index and answers it.  Bytes take 0 to 255, words any index.  `store`
carries out a store into a field. -/
def basicAtPut (store : MachineM Unit → MachineM Unit) : MachineM Bool := do
  let receiver ← read (·.receiver 2)
  let index ← read (·.argument 2 0)
  let v ← read (·.argument 2 1)
  match ← read (·.indexedPlace receiver index) with
  | none => decline
  | some i =>
    match receiver with
    | .int _ => decline
    | .object _ =>
      store (storeField receiver i v)
      answer 2 v
    | .bytes _ =>
      let n ← v.smallInt
      if n < 0 ∨ n > 255 then return false
      onHeap (Heap.storeByte receiver i (.ofNat n.toNat))
      answer 2 v
    | .words _ =>
      let n ← v.index
      onHeap (Heap.storeWord receiver i (.ofNat n))
      answer 2 v

/-- Answers how many indexed slots the receiver has. -/
def basicSize : MachineM Bool := do
  let receiver ← read (·.receiver 0)
  answer 0 (.ofNat (← read (·.indexedSize receiver)))

/-- Answers a hash: integers are their own, buffers hash by contents, fielded objects to 0, since
where they are changes. -/
def hashPrimitive : MachineM Bool := do
  let receiver ← read (·.receiver 0)
  match receiver with
  | .int _ => answer 0 receiver
  | .bytes _ | .words _ => answer 0 (← Value.ofInt (← readHeap (·.hashOf receiver)))
  | .object _ => answer 0 (.ofNat 0)

end MessageMachine.Machine
