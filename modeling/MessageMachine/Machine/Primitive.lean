/-!
# Primitives

The operations that the machine performs itself.  A method header names a primitive by its number,
which is its place in the list here.
-/

namespace MessageMachine

/-- The primitives, in the order of their numbers. -/
inductive Primitive where
  | intAdd
  | intSub
  | intMul
  | intDiv
  | intMod
  | intLess
  | intGreater
  | intLessEqual
  | intGreaterEqual
  | intEqual
  | intNotEqual
  | intBitAnd
  | intBitOr
  | intBitShift
  | identical
  | classOf
  | basicNew
  | basicNewSized
  | basicAt
  | basicAtPut
  | basicSize
  | hash
  | blockValue
  | blockValue1
  | blockValue2
  | blockValue3
  | blockValueWithArguments
  | perform
  | performWith
  | performWithWith
  | fork
  | semaphoreWait
  | semaphoreSignal
  | processorYield
  | nextInputEvent
  | newSemaphore
  deriving DecidableEq, Repr, Inhabited

namespace Primitive

/-- Every primitive, in the order of the numbers. -/
def all : Array Primitive :=
  #[intAdd, intSub, intMul, intDiv, intMod, intLess, intGreater, intLessEqual, intGreaterEqual,
    intEqual, intNotEqual, intBitAnd, intBitOr, intBitShift, identical, classOf, basicNew,
    basicNewSized, basicAt, basicAtPut, basicSize, hash, blockValue, blockValue1, blockValue2,
    blockValue3, blockValueWithArguments, perform, performWith, performWithWith, fork,
    semaphoreWait, semaphoreSignal, processorYield, nextInputEvent, newSemaphore]

/-- The number of a primitive. -/
def number (p : Primitive) : Nat := p.ctorIdx

/-- The primitive with a given number. -/
def ofNumber? (n : Nat) : Option Primitive := all[n]?

theorem ofNumber?_number (p : Primitive) : ofNumber? p.number = some p := by cases p <;> rfl

/-- How many arguments a primitive takes. -/
def arity : Primitive → Nat
  | classOf | basicNew | basicSize | hash | blockValue | fork | semaphoreWait | semaphoreSignal
  | processorYield | nextInputEvent | newSemaphore => 0
  | intAdd | intSub | intMul | intDiv | intMod | intLess | intGreater | intLessEqual
  | intGreaterEqual | intEqual | intNotEqual | intBitAnd | intBitOr | intBitShift | identical
  | basicNewSized | basicAt | blockValue1 | blockValueWithArguments | perform => 1
  | basicAtPut | blockValue2 | performWith => 2
  | blockValue3 | performWithWith => 3

/-- The name of a primitive. -/
def name : Primitive → String
  | intAdd => "int_add"
  | intSub => "int_sub"
  | intMul => "int_mul"
  | intDiv => "int_div"
  | intMod => "int_mod"
  | intLess => "int_lt"
  | intGreater => "int_gt"
  | intLessEqual => "int_le"
  | intGreaterEqual => "int_ge"
  | intEqual => "int_eq"
  | intNotEqual => "int_ne"
  | intBitAnd => "int_bit_and"
  | intBitOr => "int_bit_or"
  | intBitShift => "int_bit_shift"
  | identical => "identical"
  | classOf => "class"
  | basicNew => "basic_new"
  | basicNewSized => "basic_new_sized"
  | basicAt => "basic_at"
  | basicAtPut => "basic_at_put"
  | basicSize => "basic_size"
  | hash => "hash"
  | blockValue => "block_value"
  | blockValue1 => "block_value_1"
  | blockValue2 => "block_value_2"
  | blockValue3 => "block_value_3"
  | blockValueWithArguments => "block_value_with_arguments"
  | perform => "perform"
  | performWith => "perform_with"
  | performWithWith => "perform_with_with"
  | fork => "fork"
  | semaphoreWait => "semaphore_wait"
  | semaphoreSignal => "semaphore_signal"
  | processorYield => "processor_yield"
  | nextInputEvent => "next_input_event"
  | newSemaphore => "new_semaphore"

/-- The text of a primitive. -/
def text (p : Primitive) : String :=
  "PrimitiveDesc \x7b name: \"" ++ p.name ++ "\", arity: " ++ toString p.arity ++ " \x7d"

end Primitive

end MessageMachine
