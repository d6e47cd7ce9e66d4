import MessageMachine.Instruction.Assembler
import MessageMachine.Machine.Naming
import MessageMachine.Machine.Primitive
import MessageMachine.Method.Header

/-!
# Methods

A `MethodSpec` says what a method is; `compileMethod` makes the object, and `installMethod` enters
it in the method table of a type.  `lookupMethod` finds the method of a selector along the chain of
supertypes, and `lookup` does the same through the method cache.
-/

namespace MessageMachine

/-- A literal of a method to be compiled. -/
inductive Literal where
  | int (n : Int)
  | symbol (name : String)
  | string (text : String)
  | value (v : Value)
  | nil
  | true
  | false
  deriving DecidableEq, Repr, Inhabited

/-- What a compiled method is made from. -/
structure MethodSpec where
  selector : String
  header : MethodHeader
  literals : List Literal := []
  code : Array UInt8 := #[]
  deriving DecidableEq, Repr, Inhabited

namespace MethodSpec

/-- A method that answers a field. -/
def getter (selector : String) (field : UInt16) : MethodSpec :=
  { selector, header := .returnField field }

/-- A method that stores its argument in a field. -/
def setter (selector : String) (field : UInt16) : MethodSpec :=
  { selector, header := .popAndStoreField field }

/-- What is wrong with a specification, apart from its code. -/
def defect? (spec : MethodSpec) : Option MethodDefect :=
  if spec.literals.length > 256 then some .tooManyLiterals
  else if spec.header.kind.hasCode ∧ spec.code.isEmpty then some .noCode
  else if spec.header.temporaries < spec.header.arguments ∧ spec.header.kind.hasCode then
    some .fewTemporaries
  else none

end MethodSpec

namespace Machine

/-! ## Compiling -/

/-- The value of a literal. -/
def literalValue : Literal → MachineM Value
  | .int n => Value.ofInt n
  | .symbol name => intern name
  | .string text => newString text
  | .value v => pure v
  | .nil => landmark .nil
  | .true => landmark .true
  | .false => landmark .false

/-- Makes a compiled method.  Its code has to be instructions from start to end. -/
def compileMethod (spec : MethodSpec) : MachineM Value := do
  if let some defect := spec.defect? then throw (.invalidMethod defect)
  Instruction.check spec.code
  let method ← newObject .compiledMethod (Slot.methodLiterals + spec.literals.length)
  let selector ← intern spec.selector
  let code ← onHeap (Heap.allocateBytesFrom .ephemeral (← landmark .byteArray) spec.code)
  storeField method Slot.methodHeader spec.header.toValue
  storeField method Slot.methodSelector selector
  storeField method Slot.methodCode code
  spec.literals.zipIdx.forM fun (literal, i) => do
    storeField method (Slot.methodLiterals + i) (← literalValue literal)
  return method

/-- Enters a method in the table of a type, under its selector. -/
def installMethod (type method : Value) : MachineM Unit := do
  let selector ← fetchField method Slot.methodSelector
  storeField method Slot.methodOwner type
  fun m => onHeap (Table.insert m.tableConfig ⟨type, .methods⟩ selector method) m
  modify fun m => { m with cache := m.cache.flush }

/-- Compiles a method and installs it in a type. -/
def defineMethod (type : Value) (spec : MethodSpec) : MachineM Value := do
  let method ← compileMethod spec
  installMethod type method
  return method

/-- The code that pushes literals `0, …, argc`, sends literal `argc + 1` and answers the result. -/
def sendingCode (argc : Nat) : Array UInt8 :=
  assemble ((List.range (argc + 1)).map (fun i => .pushLiteral (.ofNat i)) ++
    [.send (.ofNat (argc + 1)) (.ofNat argc), .ret .topToSender])

/-- A method without arguments that sends a message and answers the result. -/
def sendingMethod (receiver : Value) (selector : String) (arguments : List Value) :
    MachineM Value := do
  if arguments.length + 2 > 256 then throw (.invalidMethod .tooManyArguments)
  compileMethod {
    selector
    header := .bytecodes 0 0
    literals := .value receiver :: arguments.map .value ++ [.symbol selector]
    code := sendingCode arguments.length }

/-! ## Looking up -/

/-- The method that a type itself has for a selector. -/
def methodAt (m : Machine) (type selector : Value) : Except Fault (Option Value) := do
  let found ← Table.lookup m.tableConfig m.heap ⟨type, .methods⟩ selector
  return found.filter (· ≠ m.known .nil)

/-- The method of a selector in a chain of at most `fuel` types. -/
def lookupFrom (m : Machine) (selector : Value) :
    (fuel : Nat) → (type : Value) → Except Fault (Option Value)
  | 0, _ => throw .endless
  | fuel + 1, type => do
    if type = m.known .nil then return none
    match ← m.methodAt type selector with
    | some method => return some method
    | none => m.lookupFrom selector fuel (← m.heap.fetchField type Slot.supertype)

/-- The method of a selector in the nearest type of the chain of supertypes.  A chain longer than
there are objects leads back to itself. -/
def lookupMethod (m : Machine) (type selector : Value) : Except Fault (Option Value) :=
  m.lookupFrom selector (m.heap.objectCount + 1) type

/-- `lookupMethod`, through the method cache. -/
def lookup (type selector : Value) : MachineM (Option Value) := do
  let cached ← modifyGet fun m =>
    let (cached, cache) := m.cache.get type selector
    (cached, { m with cache })
  if let some method := cached then return some method
  let found ← read (·.lookupMethod type selector)
  if let some method := found then
    modify fun m => { m with cache := m.cache.put type selector method }
  return found

end Machine

end MessageMachine
