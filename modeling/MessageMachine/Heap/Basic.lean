import MessageMachine.Heap.Pool

/-!
# The heap

Objects live in two pools.  The root pool holds permanent objects, which never move and are
scanned by every collection.  The ephemeral pool holds all others and is evacuated as a whole by a
collection.

Reading is a function from the heap to `Except HeapFault`.  Changing is an action of `HeapM`,
which keeps the heap also when the action fails.
-/

namespace MessageMachine

/-- The two pools, and when the next collection is due. -/
structure Heap where
  settings : Heap.Settings
  root : Pool
  ephemeral : Pool
  /-- The ephemeral segment count at which a collection is due. -/
  threshold : Nat
  /-- How many collections there have been. -/
  collections : Nat
  deriving Repr, Inhabited

/-- Actions on the heap. -/
abbrev HeapM := EStateM HeapFault Heap

instance : MonadLift (Except HeapFault) HeapM where
  monadLift
    | .ok a => pure a
    | .error fault => throw fault

namespace Heap

/-- An empty heap. -/
def create (settings : Settings) : Except HeapFault Heap :=
  match settings.defect? with
  | some defect => .error (.invalidSettings defect)
  | none =>
    .ok {
      settings
      root := .empty .root 0 settings.segmentWords settings.maxRootSegments
      ephemeral := .empty .ephemeral 1 settings.segmentWords settings.maxEphemeralSegments
      threshold := settings.gcThresholdSegments
      collections := 0 }

/-- The result of reading the heap, as an action. -/
def read (f : Heap → Except HeapFault α) : HeapM α := fun h =>
  match f h with
  | .ok a => .ok a h
  | .error fault => .error fault h

/-! ## Pools -/

/-- The pool of a space. -/
def pool (h : Heap) : Space → Pool
  | .ephemeral => h.ephemeral
  | .root => h.root

/-- The heap with the pool of a space changed. -/
def modifyPool (h : Heap) (space : Space) (f : Pool → Pool) : Heap :=
  match space, h with
  | .ephemeral, ⟨settings, root, ephemeral, threshold, collections⟩ =>
    ⟨settings, root, f ephemeral, threshold, collections⟩
  | .root, ⟨settings, root, ephemeral, threshold, collections⟩ =>
    ⟨settings, f root, ephemeral, threshold, collections⟩

/-- The number of the current epoch. -/
def epoch (h : Heap) : Nat := h.ephemeral.epoch

/-- Whether the ephemeral pool has reached the threshold of collection. -/
def needsCollection (h : Heap) : Bool := h.ephemeral.segments.size ≥ h.threshold

/-- How many objects there are in both pools. -/
def objectCount (h : Heap) : Nat := h.root.objectCount + h.ephemeral.objectCount

/-- The counters of a heap. -/
structure Stats where
  collections : Nat
  rootSegments : Nat
  rootWords : Nat
  ephemeralSegments : Nat
  ephemeralWords : Nat
  ephemeralObjects : Nat
  thresholdSegments : Nat
  epoch : Nat
  deriving DecidableEq, Repr, Inhabited

/-- The counters as they stand. -/
def stats (h : Heap) : Stats where
  collections := h.collections
  rootSegments := h.root.segments.size
  rootWords := h.root.usedWords
  ephemeralSegments := h.ephemeral.segments.size
  ephemeralWords := h.ephemeral.usedWords
  ephemeralObjects := h.ephemeral.objectCount
  thresholdSegments := h.threshold
  epoch := h.epoch

/-! ## Allocation -/

/-- The largest count a word can hold; larger sums stay there. -/
abbrev maxCount : Nat := 1 <<< 64 - 1

/-- Refuses a body that fits no segment, before anything is built. -/
def checkSize (h : Heap) (bodyWords : Nat) : Except HeapFault Unit :=
  let words := min (bodyWords + headerWords) maxCount
  if words > h.settings.segmentWords then .error (.objectTooLarge words h.settings.segmentWords)
  else .ok ()

/-- Puts an object in the pool of a space. -/
def allocate (space : Space) (o : Object) : HeapM Handle := fun h =>
  match (h.pool space).reserve o.words with
  | .ok a => .ok a (h.modifyPool space (·.push o))
  | .error fault => .error fault h

/-- A new fielded object with all fields set to `fill`. -/
def allocateFields (space : Space) (type : Value) (count : Nat) (fill : Value) : HeapM Value := do
  read (·.checkSize count)
  return .object (← allocate space (.ofFields space type count fill))

/-- A new byte buffer with the given contents. -/
def allocateBytesFrom (space : Space) (type : Value) (bytes : Array UInt8) : HeapM Value := do
  read (·.checkSize (Header.wordsForBytes bytes.size))
  return .bytes (← allocate space (.ofBytes space type bytes))

/-- A new byte buffer of zeros. -/
def allocateBytes (space : Space) (type : Value) (length : Nat) : HeapM Value := do
  read (·.checkSize (Header.wordsForBytes length))
  allocateBytesFrom space type (Array.replicate length 0)

/-- A new word buffer of zeros. -/
def allocateWords (space : Space) (type : Value) (count : Nat) : HeapM Value := do
  read (·.checkSize count)
  return .words (← allocate space (.ofWords space type count))

end Heap

end MessageMachine
