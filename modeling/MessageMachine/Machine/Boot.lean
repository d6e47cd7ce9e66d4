import MessageMachine.Format
import MessageMachine.Machine.Landmark
import MessageMachine.Machine.Selector
import MessageMachine.Machine.Settings
import MessageMachine.Table
import MessageMachine.Text.Utf8

/-!
# Building the first objects

A new heap is given the objects that everything else needs, all in the root pool: the singletons,
the types, the symbol table and the globals, the processor with its two interrupt semaphores and
its entry process, and the special selectors.

Every type has a type of its own, an instance of `Metaclass`, which inherits from the type of the
supertype.  The type of `Object` inherits from `Class`, so looking up a message to a type ends among
the ordinary methods; `Metaclass` is its own type.
-/

namespace MessageMachine.Boot

/-! ## Types -/

/-- Fills the fields of a type except for its name. -/
def fillType (type supertype : Value) (fixed : Nat) (format : Format) : HeapM Unit := do
  Heap.storeField type Slot.supertype supertype
  Heap.storeField type Slot.fixedFields (.wrapping fixed)
  Heap.storeField type Slot.methodTally (.ofNat 0)
  Heap.storeField type Slot.format format.toValue

/-- A new type and the type of it. -/
def newType (nil metaclass supertype : Value) (fixed : Nat) (format : Format) : HeapM Value := do
  let metaSuper ← if supertype = nil then pure nil else Heap.read (·.typeOf supertype)
  let metatype ← Heap.allocateFields .root metaclass Slot.typeSize nil
  fillType metatype metaSuper Slot.typeSize .fixed
  let type ← Heap.allocateFields .root metatype Slot.typeSize nil
  fillType type supertype fixed format
  return type

/-- Interns a name. -/
def intern (config : Table.Config) (known : Landmarks) (name : String) : HeapM Value :=
  Table.intern config (known .symbolTable) (known .symbol) (Utf8.encode name)

/-- Makes `value` the value of a global. -/
def setGlobal (config : Table.Config) (known : Landmarks) (symbol value : Value) : HeapM Unit :=
  Table.insert config ⟨known .globals, .globals⟩ symbol value

/-- Names a type and the type of it, and makes it a global. -/
def nameType (config : Table.Config) (known : Landmarks) (type : Value) (name : String) :
    HeapM Unit := do
  let symbol ← intern config known name
  Heap.storeField type Slot.typeName symbol
  let metatype ← Heap.read (·.typeOf type)
  if metatype ≠ type then
    Heap.storeField metatype Slot.typeName (← intern config known (name ++ " class"))
  setGlobal config known symbol type

/-- The first types with supertype, number of fields and format, in the order of their making. -/
def firstTypes : List (Landmark × Landmark × Nat × Format) :=
  [(.object, .nil, 0, .fixed),
    (.undefinedObject, .object, 0, .fixed),
    (.boolean, .object, 0, .fixed),
    (.trueType, .boolean, 0, .fixed),
    (.falseType, .boolean, 0, .fixed),
    (.smallInteger, .object, 0, .fixed),
    (.string, .object, 0, .byteBuffer),
    (.symbol, .string, 0, .byteBuffer),
    (.array, .object, 0, .indexed),
    (.byteArray, .object, 0, .byteBuffer),
    (.wordArray, .object, 0, .wordBuffer),
    (.compiledMethod, .object, Slot.methodLiterals, .indexed),
    (.methodContext, .object, Slot.contextTail, .indexed),
    (.blockContext, .object, Slot.contextTail, .indexed),
    (.process, .object, Slot.processSize, .fixed),
    (.semaphore, .object, Slot.semaphoreSize, .fixed),
    (.link, .object, Slot.linkSize, .fixed),
    (.processorScheduler, .object, Slot.processorSize, .fixed),
    (.dictionary, .object, Slot.dictionarySize, .fixed),
    (.symbolTableType, .object, Slot.symbolTableSize, .fixed),
    (.classType, .object, Slot.typeSize, .fixed)]

/-- The names of the first types, in the order of their naming. -/
def typeNames : List (String × Landmark) :=
  [("Object", .object),
    ("UndefinedObject", .undefinedObject),
    ("Boolean", .boolean),
    ("True", .trueType),
    ("False", .falseType),
    ("SmallInteger", .smallInteger),
    ("String", .string),
    ("Symbol", .symbol),
    ("Array", .array),
    ("ByteArray", .byteArray),
    ("WordArray", .wordArray),
    ("CompiledMethod", .compiledMethod),
    ("MethodContext", .methodContext),
    ("BlockContext", .blockContext),
    ("Process", .process),
    ("Semaphore", .semaphore),
    ("Link", .link),
    ("ProcessorScheduler", .processorScheduler),
    ("Dictionary", .dictionary),
    ("SymbolTable", .symbolTableType),
    ("Class", .classType),
    ("Metaclass", .metaclass)]

/-! ## The steps of booting -/

/-- The singletons and `Metaclass`; the singletons get their types later. -/
def singletons : HeapM Landmarks := do
  let placeholder := Value.ofNat 0
  let nil ← Heap.allocateFields .root placeholder 0 placeholder
  let trueObject ← Heap.allocateFields .root placeholder 0 nil
  let falseObject ← Heap.allocateFields .root placeholder 0 nil
  let metaclass ← Heap.allocateFields .root placeholder Slot.typeSize nil
  Heap.setType metaclass metaclass
  return (((Landmarks.filled nil).set .true trueObject).set .false falseObject).set .metaclass
    metaclass

/-- The first types, and the types of the singletons. -/
def types (known : Landmarks) : HeapM Landmarks := do
  let known ← firstTypes.foldlM
    (fun known (landmark, supertype, fixed, format) => do
      return known.set landmark
        (← newType (known .nil) (known .metaclass) (known supertype) fixed format))
    known
  let objectType ← Heap.read (·.typeOf (known .object))
  Heap.storeField objectType Slot.supertype (known .classType)
  fillType (known .metaclass) (known .classType) Slot.typeSize .fixed
  Heap.setType (known .nil) (known .undefinedObject)
  Heap.setType (known .true) (known .trueType)
  Heap.setType (known .false) (known .falseType)
  return known

/-- A new instance of a known type in the root pool. -/
def instanceOf (known : Landmarks) (type : Landmark) (size : Nat) : HeapM Value :=
  Heap.allocateFields .root (known type) size (known .nil)

/-- The symbol table and the globals, both empty. -/
def tables (known : Landmarks) : HeapM Landmarks := do
  let symbolTable ← instanceOf known .symbolTableType Slot.symbolTableSize
  Heap.storeField symbolTable Slot.symbolTally (.ofNat 0)
  let globals ← instanceOf known .dictionary Slot.dictionarySize
  Heap.storeField globals Slot.dictionaryTally (.ofNat 0)
  return (known.set .symbolTable symbolTable).set .globals globals

/-- The processor with its interrupt semaphores and the entry process. -/
def processor (config : Table.Config) (known : Landmarks) : HeapM Landmarks := do
  let timer ← instanceOf known .semaphore Slot.semaphoreSize
  let input ← instanceOf known .semaphore Slot.semaphoreSize
  let interrupts ← instanceOf known .array Slot.interruptTableSize
  Heap.storeField timer Slot.excessSignals (.ofNat 0)
  Heap.storeField interrupts Slot.timerInterrupt timer
  Heap.storeField input Slot.excessSignals (.ofNat 0)
  Heap.storeField interrupts Slot.inputInterrupt input
  let entry ← instanceOf known .process Slot.processSize
  Heap.storeField entry Slot.processTime (.ofNat 0)
  let processor ← instanceOf known .processorScheduler Slot.processorSize
  Heap.storeField processor Slot.activeProcess entry
  Heap.storeField processor Slot.interruptTable interrupts
  let globals : List (String × Value) :=
    [("Processor", processor), ("TimerSemaphore", timer), ("InputSemaphore", input)]
  globals.forM fun (name, value) => do
    setGlobal config known (← intern config known name) value
  return known.set .processor processor

/-- The array of special selectors, and the selector for unknown messages. -/
def selectors (config : Table.Config) (known : Landmarks) : HeapM Landmarks := do
  let array ← instanceOf known .array SpecialSelector.table.size
  SpecialSelector.table.toList.zipIdx.forM fun (selector, i) => do
    Heap.storeField array i (← intern config known selector.name)
  let unknown ← intern config known "doesNotUnderstand:"
  return (known.set .specialSelectors array).set .doesNotUnderstand unknown

/-- Builds the first objects of a machine. -/
def boot (settings : Machine.Settings) : HeapM Landmarks := do
  let known ← singletons
  let known ← types known
  let known ← tables known
  let config : Table.Config :=
    ⟨known .nil, known .array, settings.tableCapacity, settings.tableGrowth⟩
  typeNames.forM fun (name, landmark) => nameType config known (known landmark) name
  let known ← processor config known
  selectors config known

end MessageMachine.Boot
