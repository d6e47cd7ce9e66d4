import MessageMachine.Machine.Method
import MessageMachine.Machine.Run

/-!
# The kernel

The methods that every machine starts with.  Each tries a primitive; if that declines, its code
sends `primitiveFailed` to the receiver.
-/

namespace MessageMachine

/-- A kernel method: the type it belongs to, or whose type it belongs to, its selector and its
primitive. -/
structure KernelMethod where
  type : Landmark
  onType : Bool
  selector : String
  primitive : Primitive
  deriving DecidableEq, Repr, Inhabited

namespace KernelMethod

/-- The selectors and primitives of the methods of each type. -/
def byType : List (Landmark × List (String × Primitive)) :=
  [(.smallInteger,
      [("+", .intAdd), ("-", .intSub), ("*", .intMul), ("//", .intDiv), ("\\\\", .intMod),
        ("<", .intLess), (">", .intGreater), ("<=", .intLessEqual), (">=", .intGreaterEqual),
        ("=", .intEqual), ("~=", .intNotEqual), ("bitAnd:", .intBitAnd), ("bitOr:", .intBitOr),
        ("bitShift:", .intBitShift)]),
    (.object,
      [("==", .identical), ("=", .identical), ("class", .classOf), ("basicAt:", .basicAt),
        ("basicAt:put:", .basicAtPut), ("basicSize", .basicSize), ("at:", .basicAt),
        ("at:put:", .basicAtPut), ("size", .basicSize), ("hash", .hash), ("perform:", .perform),
        ("perform:with:", .performWith), ("perform:with:with:", .performWithWith)]),
    (.blockContext,
      [("value", .blockValue), ("value:", .blockValue1), ("value:value:", .blockValue2),
        ("value:value:value:", .blockValue3), ("valueWithArguments:", .blockValueWithArguments),
        ("fork", .fork)]),
    (.semaphore, [("wait", .semaphoreWait), ("signal", .semaphoreSignal)]),
    (.processorScheduler, [("yield", .processorYield), ("nextInputEvent", .nextInputEvent)]),
    -- every type of a type inherits from `Class`, so these are messages to types
    (.classType,
      [("basicNew", .basicNew), ("basicNew:", .basicNewSized), ("new", .basicNew),
        ("new:", .basicNewSized)])]

/-- The kernel methods, in the order of their installation. -/
def table : List KernelMethod :=
  byType.flatMap (fun (type, methods) =>
    methods.map fun (selector, primitive) => ⟨type, false, selector, primitive⟩) ++
    [⟨.semaphore, true, "new", .newSemaphore⟩]

/-- The code that runs when the primitive declines. -/
def fallback : Array UInt8 :=
  assemble [.pushSpecial .receiver, .send 0 0, .ret .topToSender]

/-- What a kernel method is compiled from. -/
def spec (k : KernelMethod) : MethodSpec :=
  let arity : UInt8 := .ofNat k.primitive.arity
  { selector := k.selector
    header := .primitive (.ofNat k.primitive.number) arity arity
    literals := [.symbol "primitiveFailed"]
    code := fallback }

/-- Installs a kernel method. -/
def install (k : KernelMethod) : MachineM Unit := do
  let type ← Machine.landmark k.type
  let type ← if k.onType then Machine.readHeap (·.typeOf type) else pure type
  let _ ← Machine.defineMethod type k.spec

end KernelMethod

namespace Machine

/-- A machine with its first objects and without methods. -/
def bare (settings : Settings) : Except Fault Machine := do
  if let some defect := settings.defect? then throw (.invalidSettings defect)
  let empty ← Heap.create settings.heap
  match Boot.boot settings empty with
  | .error fault _ => throw (.heap fault)
  | .ok known heap =>
    let entryProcess ← heap.fetchField (known .processor) Slot.activeProcess
    return {
      settings, heap, known
      regs := .cleared (known .nil) entryProcess
      cache := .empty
      schedule := .initial
      feed := {}
      pins := .empty
      ticks := 0
      instructions := 0 }

/-- A new machine. -/
def create (settings : Settings) : Except Fault Machine := do
  match KernelMethod.table.forM KernelMethod.install (← bare settings) with
  | .ok () m => return m
  | .error fault _ => throw fault

end Machine

end MessageMachine
