import MessageMachine.Heap.Settings
import MessageMachine.Value.Access

/-!
# Heap faults

Why an operation of the heap was refused.  Faults that leave the heap untrustworthy are `isFatal`;
the others refuse one access.
-/

namespace MessageMachine

/-- Why a heap operation was refused. -/
inductive HeapFault where
  | value (fault : ValueFault)
  | outOfMemory (space : Space) (segments : Nat)
  | objectTooLarge (words segmentWords : Nat)
  | staleHandle (a : Handle)
  | invalidSettings (defect : Heap.Settings.Defect)
  deriving DecidableEq, Repr, Inhabited

namespace HeapFault

/-- What is told about the fault. -/
def message : HeapFault → String
  | value fault => fault.message
  | outOfMemory space segments =>
    space.name ++ " pool exhausted at " ++ toString segments ++ " segments"
  | objectTooLarge words segmentWords =>
    "object of " ++ toString words ++ " words exceeds segment capacity of " ++
      toString segmentWords ++ " words"
  | staleHandle a => "stale handle " ++ a.text
  | invalidSettings defect => "invalid heap settings: " ++ defect.message

/-- Whether the heap can no longer be trusted. -/
def isFatal : HeapFault → Bool
  | outOfMemory _ _ | staleHandle _ => true
  | value _ | objectTooLarge _ _ | invalidSettings _ => false

end HeapFault

instance : MonadLift (Except ValueFault) (Except HeapFault) where
  monadLift
    | .ok a => .ok a
    | .error fault => .error (.value fault)

end MessageMachine
