import MessageMachine.Heap.Object

/-!
# Pools

A pool is a list of segments, each a run of objects bounded in words.  An object goes into the
last segment if it fits there and into a new segment otherwise, up to a limit of segments.

`Pool.reserve` says where the next object would go, or why it cannot; `Pool.push` puts it there.
-/

namespace MessageMachine

/-- A run of objects and the words they take together. -/
structure Segment where
  objects : Array Object
  usedWords : Nat
  deriving DecidableEq, Repr, Inhabited

namespace Segment

/-- A segment with nothing in it. -/
def empty : Segment := ⟨#[], 0⟩

/-- The segment with one more object. -/
def push (s : Segment) (o : Object) : Segment :=
  match s with
  | ⟨objects, usedWords⟩ => ⟨objects.push o, usedWords + o.words⟩

/-- The segment with the object at a position changed. -/
def update (s : Segment) (index : Nat) (f : Object → Object) : Segment :=
  match s with
  | ⟨objects, usedWords⟩ => ⟨objects.modify index f, usedWords⟩

end Segment

/-- The segments of one space and epoch. -/
structure Pool where
  space : Space
  epoch : Nat
  segmentWords : Nat
  maxSegments : Nat
  segments : Array Segment
  deriving DecidableEq, Repr, Inhabited

namespace Pool

/-- A pool starts with one empty segment. -/
def empty (space : Space) (epoch segmentWords maxSegments : Nat) : Pool :=
  ⟨space, epoch, segmentWords, maxSegments, #[.empty]⟩

/-! ## Counters -/

/-- The words in use, over all segments. -/
def usedWords (p : Pool) : Nat := p.segments.foldl (fun total s => total + s.usedWords) 0

/-- How many objects there are, over all segments. -/
def objectCount (p : Pool) : Nat := p.segments.foldl (fun total s => total + s.objects.size) 0

/-! ## Allocation -/

/-- Whether an object of `words` words needs a new segment. -/
def needsSegment (p : Pool) (words : Nat) : Bool :=
  match p.segments.back? with
  | none => true
  | some s => s.usedWords + words > p.segmentWords || s.objects.size > Handle.maxIndex

/-- Where an object of `words` words would go. -/
def reserve (p : Pool) (words : Nat) : Except HeapFault Handle :=
  if p.needsSegment words then
    if p.segments.size ≥ p.maxSegments then .error (.outOfMemory p.space p.segments.size)
    else .ok ⟨p.space, p.epoch, p.segments.size, 0⟩
  else
    .ok ⟨p.space, p.epoch, p.segments.size - 1, (p.segments.back?.map (·.objects.size)).getD 0⟩

/-- The pool with other segments.  Taking the pool apart evaluates it: the fields that stay are not
read through every change made so far. -/
def modifySegments (p : Pool) (f : Array Segment → Array Segment) : Pool :=
  match p with
  | ⟨space, epoch, segmentWords, maxSegments, segments⟩ =>
    ⟨space, epoch, segmentWords, maxSegments, f segments⟩

/-- The pool with one more object, in the place that `reserve` answers. -/
def push (p : Pool) (o : Object) : Pool :=
  if p.needsSegment o.words then p.modifySegments (·.push (Segment.empty.push o))
  else p.modifySegments fun segments => segments.modify (segments.size - 1) (·.push o)

theorem push_eq (p : Pool) (o : Object) : p.push o =
    if p.needsSegment o.words then { p with segments := p.segments.push (Segment.empty.push o) }
    else { p with segments := p.segments.modify (p.segments.size - 1) (·.push o) } := rfl

/-! ## Access -/

/-- The object at a segment and position. -/
def at? (p : Pool) (segment index : Nat) : Option Object :=
  match p.segments[segment]? with
  | some ⟨objects, _⟩ => objects[index]?
  | none => none

theorem at?_eq (p : Pool) (segment index : Nat) :
    p.at? segment index = p.segments[segment]? >>= (·.objects[index]?) := by
  unfold at?
  cases p.segments[segment]? <;> rfl

/-- The object of a handle, which has to be of this pool and of its current epoch. -/
def get (p : Pool) (a : Handle) : Except HeapFault Object :=
  if a.space = p.space ∧ a.epoch = p.epoch then
    match p.at? a.segment a.index with
    | some o => .ok o
    | none => .error (.staleHandle a)
  else .error (.staleHandle a)

/-- The pool with the object at a segment and position changed. -/
def update (p : Pool) (segment index : Nat) (f : Object → Object) : Pool :=
  p.modifySegments (·.modify segment (·.update index f))

theorem update_eq (p : Pool) (segment index : Nat) (f : Object → Object) :
    p.update segment index f =
      { p with segments := p.segments.modify segment (·.update index f) } := rfl

end Pool

end MessageMachine
