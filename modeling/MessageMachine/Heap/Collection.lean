import MessageMachine.Heap.Access

/-!
# Collecting the ephemeral pool

A collection opens a fresh ephemeral pool with the next epoch, copies everything reachable from the
given roots and from the root pool into it, and drops the old pool.  Each object is copied once:
the old object is marked as forwarded to its copy, and later references to it are only relocated.
The copies are scanned in the order in which they were made, so copying is breadth first.

Every handle issued before a collection is stale after it.

## Failure

A collection fails when it meets a stale reference or runs out of segments.  The heap then keeps
the copies made so far, the references relocated so far stay relocated, and a copy whose scan was
interrupted is left without contents.  Such a heap is not fit for use.
-/

namespace MessageMachine

namespace Object

/-- Everything an object refers to: its type, then its fields. -/
def references (o : Object) : List Value :=
  o.header.type ::
    match o.body with
    | .fields xs => xs.toList
    | _ => []

/-- The object with its references replaced, in the same order. -/
def setReferences (o : Object) (vs : Array Value) : Object where
  header := { o.header with type := vs.getD 0 o.header.type }
  body :=
    match o.body with
    | .fields _ => .fields (vs.extract 1 vs.size)
    | body => body

/-- The object marked as moved. -/
def forward (o : Object) (copy : Handle) : Object := { o with header.state := .forwarded copy }

/-- The object without contents. -/
def hollow (o : Object) : Object := { o with body := .fields #[] }

end Object

/-- The segment and position of every object of a pool, in the order of allocation. -/
def Pool.positions (p : Pool) : List (Nat × Nat) :=
  p.segments.toList.zipIdx.flatMap fun (s, segment) =>
    (List.range s.objects.size).map fun index => (segment, index)

/-- A collection under way. -/
structure Evacuation where
  /-- The root pool, scanned in place. -/
  root : Pool
  /-- The pool being left, with forwarding marks. -/
  source : Pool
  /-- The pool being filled. -/
  target : Pool
  /-- Where the copies are, in the order in which they were made. -/
  copies : Array Handle
  /-- The words copied so far. -/
  words : Nat
  deriving Repr, Inhabited

namespace Evacuation

/-- Copies what a value refers to, unless that is done already, and answers the relocated value.
Integers and references to the root pool stay as they are. -/
def evacuate (v : Value) : EStateM HeapFault Evacuation Value := fun e =>
  match v.handle? with
  | none => .ok v e
  | some a =>
    if a.space = .root then .ok v e
    else
      match e.source.get a with
      | .error fault => .error fault e
      | .ok o =>
        match o.header.state with
        | .forwarded copy => .ok (v.relocate copy) e
        | .permanent => .ok v e
        | .live =>
          match e.target.reserve o.words with
          | .error fault => .error fault e
          | .ok copy =>
            .ok (v.relocate copy)
              { e with
                source := e.source.update a.segment a.index (·.forward copy)
                target := e.target.push o
                copies := e.copies.push copy
                words := e.words + o.words }

/-- Relocates values one after the other, behind those already done.  After a fault the remaining
ones stay as they are. -/
def relocateAfter (done : Array Value) :
    List Value → Evacuation → Array Value × Evacuation × Option HeapFault
  | [], e => (done, e, none)
  | v :: vs, e =>
    match evacuate v e with
    | .ok moved e => relocateAfter (done.push moved) vs e
    | .error fault e => (done ++ v :: vs, e, some fault)

/-- Relocates values one after the other. -/
def relocateEach (vs : List Value) (e : Evacuation) :
    Array Value × Evacuation × Option HeapFault :=
  relocateAfter #[] vs e

/-- Relocates the references of a root object, in place. -/
def scanRoot (segment index : Nat) : EStateM HeapFault Evacuation Unit := fun e =>
  match e.root.at? segment index with
  | none => .ok () e
  | some o =>
    match relocateEach o.references e with
    | (vs, e, none) => .ok () { e with root := e.root.update segment index (·.setReferences vs) }
    | (vs, e, some fault) =>
      .error fault { e with root := e.root.update segment index (·.setReferences vs) }

/-- Relocates the references of the `k`-th copy, if there is one. -/
def scanCopy (k : Nat) : EStateM HeapFault Evacuation Unit := fun e =>
  match e.copies[k]? with
  | none => .ok () e
  | some a =>
    match e.target.at? a.segment a.index with
    | none => .ok () e
    | some o =>
      match relocateEach o.references e with
      | (vs, e, none) =>
        .ok () { e with target := e.target.update a.segment a.index fun _ => o.setReferences vs }
      | (_, e, some fault) =>
        .error fault { e with target := e.target.update a.segment a.index (·.hollow) }

/-- Scans the root pool and then the copies.  There are never more copies than objects in the pool
being left, and when a scan finds no copy there will be none. -/
def scan : EStateM HeapFault Evacuation Unit := do
  (← get).root.positions.forM fun (segment, index) => scanRoot segment index
  (List.range (← get).source.objectCount).forM scanCopy

end Evacuation

namespace Heap

/-- What a finished collection did. -/
structure Cycle where
  epoch : Nat
  objectsCopied : Nat
  wordsCopied : Nat
  segmentsBefore : Nat
  segmentsAfter : Nat
  deriving DecidableEq, Repr, Inhabited

/-- The outcome of a collection, with the roots and the heap it leaves. -/
structure Collected where
  result : Except HeapFault Cycle
  roots : List Value
  heap : Heap

/-- A collection before anything is copied. -/
def startEvacuation (h : Heap) : Evacuation where
  root := h.root
  source := h.ephemeral
  target := .empty .ephemeral ((h.epoch + 1) % (Handle.maxEpoch + 1)) h.settings.segmentWords
    h.settings.maxEphemeralSegments
  copies := #[]
  words := 0

/-- The heap with the pools of an evacuation. -/
def withPools (h : Heap) (e : Evacuation) : Heap :=
  { h with root := e.root, ephemeral := e.target }

/-- The threshold after a collection: twice the segments that survived, within the settings. -/
def nextThreshold (settings : Settings) (segments : Nat) : Nat :=
  min (max (segments * 2) settings.gcThresholdSegments) settings.maxEphemeralSegments

/-- Collects the ephemeral pool.  Everything live has to be reachable from `roots` or from the
root pool. -/
def collect (h : Heap) (roots : List Value) : Collected :=
  match Evacuation.relocateEach roots h.startEvacuation with
  | (roots, e, some fault) => ⟨.error fault, roots.toList, h.withPools e⟩
  | (roots, e, none) =>
    match Evacuation.scan e with
    | .error fault e => ⟨.error fault, roots.toList, h.withPools e⟩
    | .ok () e =>
      let segments := e.target.segments.size
      { result := .ok {
          epoch := e.target.epoch
          objectsCopied := e.copies.size
          wordsCopied := e.words
          segmentsBefore := h.ephemeral.segments.size
          segmentsAfter := segments }
        roots := roots.toList
        heap := { h.withPools e with
          collections := h.collections + 1
          threshold := nextThreshold h.settings segments } }

end Heap

end MessageMachine
