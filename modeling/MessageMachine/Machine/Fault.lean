import MessageMachine.Heap.Fault
import MessageMachine.Instruction.Decoder
import MessageMachine.Machine.Settings

/-!
# Machine faults

Why a run of the machine, or a request to it, failed.  Inside a primitive, a refused access makes
the primitive decline; every other fault ends the run (`abortsPrimitive`).
-/

namespace MessageMachine

/-- What can be wrong with a method. -/
inductive MethodDefect where
  | tooManyLiterals
  | noCode
  | fewTemporaries
  | tooManyArguments
  | noTemporary
  | noEntryCode
  deriving DecidableEq, Repr, Inhabited

namespace MethodDefect

/-- What is told about a defect. -/
def message : MethodDefect → String
  | tooManyLiterals => "more than 256 literals"
  | noCode => "method has no bytecode body"
  | fewTemporaries => "fewer temporaries than arguments"
  | tooManyArguments => "too many arguments"
  | noTemporary => "temporary index out of range"
  | noEntryCode => "entry method has no bytecode body"

end MethodDefect

/-- Why the machine failed. -/
inductive Fault where
  | heap (fault : HeapFault)
  | malformed (code : MalformedCode)
  | unknownSelector (selector receiverType : String)
  | mustBeBoolean
  | cannotReturn
  | wrongArgumentCount (expected got : Nat)
  | stackOverflow (ip : Nat)
  | stackUnderflow (ip : Nat)
  | invalidMethod (defect : MethodDefect)
  | invalidSpecialSelector (index : UInt8)
  | deadlock
  | invalidSettings (defect : Machine.Settings.Defect)
  /-- A chain of objects leads back to itself, or an unknown message is passed on for ever. -/
  | endless
  /-- The run used up the instructions it was given. -/
  | outOfBudget
  deriving DecidableEq, Repr, Inhabited

namespace Fault

/-- What is told about the fault. -/
def message : Fault → String
  | heap fault => fault.message
  | malformed code => code.message
  | unknownSelector selector receiverType => receiverType ++ " does not understand #" ++ selector
  | mustBeBoolean => "conditional jump on a non-boolean"
  | cannotReturn => "non-local return from a block whose home context is dead"
  | wrongArgumentCount expected got =>
    "method expects " ++ toString expected ++ " arguments, got " ++ toString got
  | stackOverflow ip => "operand stack overflow at ip " ++ toString ip
  | stackUnderflow ip => "operand stack underflow at ip " ++ toString ip
  | invalidMethod defect => "invalid method: " ++ defect.message
  | invalidSpecialSelector index =>
    "special selector index " ++ toString index.toNat ++ " out of range"
  | deadlock => "no process is runnable and none can become runnable"
  | invalidSettings defect => "invalid VM settings: " ++ defect.message
  | endless => "a chain of objects or messages has no end"
  | outOfBudget => "instruction budget exhausted"

/-- Whether a primitive that meets the fault ends the run instead of declining. -/
def abortsPrimitive : Fault → Bool
  | heap fault => fault.isFatal
  | _ => true

end Fault

instance : MonadLift (Except HeapFault) (Except Fault) where
  monadLift
    | .ok a => .ok a
    | .error fault => .error (.heap fault)

instance : MonadLift (Except MalformedCode) (Except Fault) where
  monadLift
    | .ok a => .ok a
    | .error code => .error (.malformed code)

end MessageMachine
