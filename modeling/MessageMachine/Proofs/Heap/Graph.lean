import Mathlib.Algebra.BigOperators.Group.Finset.Basic
import Mathlib.Data.Set.Function
import MessageMachine.Heap.Collection
import MessageMachine.Proofs.Action

/-!
# The object graph

The objects of a heap form a graph: an object leads to what its type and its fields refer to.  This
file says which ephemeral objects a collection has to keep (`Reachable`) and what it means that a
map of handles carries one heap over into another (`Relocation`).

* `Value.map φ` and `Object.map φ` replace the handles of a value or object, and nothing else.
* `Reachable h roots a`: the ephemeral object at `a` is reached from the roots or from an object
  of the root pool, through fields and through types.
* `Relocation h roots h' roots' φ`: `φ` is a bijection from the reachable objects onto all
  ephemeral objects of `h'`, and roots, root objects and reachable objects are the old ones with
  their handles replaced by `φ`.
* `Built h`: the heap was made by `create` and the operations that change a heap, whether these
  succeeded or failed.
-/

namespace MessageMachine

/-! ## Replacing handles -/

namespace Value

/-- The value with its handle replaced; an integer has none. -/
def map (φ : Handle → Handle) : Value → Value
  | .int n => .int n
  | .object a => .object (φ a)
  | .bytes a => .bytes (φ a)
  | .words a => .words (φ a)

/-- Whether the value refers to the ephemeral object at `a`. -/
def Refers (v : Value) (a : Handle) : Prop := v.handle? = some a ∧ a.space = .ephemeral

@[simp] theorem tag_map (φ : Handle → Handle) (v : Value) : (v.map φ).tag = v.tag := by
  cases v <;> rfl

@[simp] theorem handle?_map (φ : Handle → Handle) (v : Value) :
    (v.map φ).handle? = v.handle?.map φ := by
  cases v <;> rfl

theorem map_eq_relocate {v : Value} {a : Handle} (h : v.handle? = some a) (φ : Handle → Handle) :
    v.map φ = v.relocate (φ a) := by
  cases v <;> cases h <;> rfl

theorem map_congr {v : Value} {φ ψ : Handle → Handle}
    (h : ∀ a, v.handle? = some a → φ a = ψ a) : v.map φ = v.map ψ := by
  cases v with
  | int n => rfl
  | object a => exact congrArg Value.object (h a rfl)
  | bytes a => exact congrArg Value.bytes (h a rfl)
  | words a => exact congrArg Value.words (h a rfl)

theorem map_eq_self {v : Value} {φ : Handle → Handle} (h : ∀ a, v.handle? = some a → φ a = a) :
    v.map φ = v := by
  cases v with
  | int n => rfl
  | object a => exact congrArg Value.object (h a rfl)
  | bytes a => exact congrArg Value.bytes (h a rfl)
  | words a => exact congrArg Value.words (h a rfl)

end Value

namespace Object

/-- The object with the handles of its type and fields replaced. -/
def map (φ : Handle → Handle) (o : Object) : Object where
  header := { o.header with type := o.header.type.map φ }
  body :=
    match o.body with
    | .fields xs => .fields (xs.map (·.map φ))
    | body => body

theorem map_congr {o : Object} {φ ψ : Handle → Handle}
    (h : ∀ v ∈ o.references, v.map φ = v.map ψ) : o.map φ = o.map ψ := by
  obtain ⟨⟨size, odd, type, state⟩, body⟩ := o
  have htype : type.map φ = type.map ψ := h type (List.mem_cons_self ..)
  cases body with
  | fields xs =>
      have hfields : xs.map (·.map φ) = xs.map (·.map ψ) := by
        apply Array.map_congr_left
        intro v hv
        exact h v (List.mem_cons_of_mem _ (by simpa using hv))
      simp only [map, htype, hfields]
  | bytes xs => simp only [map, htype]
  | words xs => simp only [map, htype]

/-- Replacing the references of an object by their images is mapping the object. -/
theorem setReferences_map (o : Object) (φ : Handle → Handle) :
    o.setReferences (o.references.map (·.map φ)).toArray = o.map φ := by
  obtain ⟨⟨size, odd, type, state⟩, body⟩ := o
  cases body with
  | fields xs =>
      simp only [setReferences, references, map, List.map_cons]
      congr 2
      apply Array.ext'
      simp [List.extract_eq_take_drop]
  | bytes xs => simp [setReferences, references, map]
  | words xs => simp [setReferences, references, map]

@[simp] theorem words_map (φ : Handle → Handle) (o : Object) : (o.map φ).words = o.words := rfl

@[simp] theorem state_map (φ : Handle → Handle) (o : Object) :
    (o.map φ).header.state = o.header.state := rfl

end Object

namespace Heap

/-! ## Reachability -/

/-- The ephemeral objects that a collection with the given roots has to keep. -/
inductive Reachable (h : Heap) (roots : List Value) : Handle → Prop where
  /-- A root refers to it. -/
  | root {v : Value} {a : Handle} : v ∈ roots → v.Refers a → Reachable h roots a
  /-- The type or a field of an object in the root pool refers to it. -/
  | permanent {s i : Nat} {o : Object} {v : Value} {a : Handle} :
      h.root.at? s i = some o → v ∈ o.references → v.Refers a → Reachable h roots a
  /-- The type or a field of a reachable object refers to it. -/
  | step {b : Handle} {o : Object} {v : Value} {a : Handle} :
      Reachable h roots b → h.ephemeral.get b = .ok o → v ∈ o.references → v.Refers a →
      Reachable h roots a

/-- The words of the ephemeral object at a handle; none if there is no such object. -/
def wordsAt (h : Heap) (a : Handle) : Nat :=
  match h.ephemeral.get a with
  | .ok o => o.words
  | .error _ => 0

/-- What `φ` has to do to carry a heap and its roots over into what a collection leaves. -/
structure Relocation (h : Heap) (roots : List Value) (h' : Heap) (roots' : List Value)
    (φ : Handle → Handle) : Prop where
  /-- References to the root pool stay as they are. -/
  fixes_root : ∀ a, a.space = .root → φ a = a
  /-- The reachable objects correspond to all ephemeral objects of the new heap. -/
  bijOn : Set.BijOn φ {a | Reachable h roots a} {b | ∃ o, h'.ephemeral.get b = .ok o}
  roots_eq : roots' = roots.map (·.map φ)
  root_epoch : h'.root.epoch = h.root.epoch
  root_at? : ∀ s i, h'.root.at? s i = (h.root.at? s i).map (·.map φ)
  /-- Every reachable reference denotes an object, and the new heap holds it with its references
  replaced. -/
  get_copy : ∀ a, Reachable h roots a →
    ∃ o, h.ephemeral.get a = .ok o ∧ h'.ephemeral.get (φ a) = .ok (o.map φ)

/-! ## The operations of a heap -/

/-- The operations that change a heap. -/
inductive Operation where
  | allocateFields (space : Space) (type : Value) (count : Nat) (fill : Value)
  | allocateBytes (space : Space) (type : Value) (length : Nat)
  | allocateBytesFrom (space : Space) (type : Value) (bytes : Array UInt8)
  | allocateWords (space : Space) (type : Value) (count : Nat)
  | setType (v type : Value)
  | storeField (v : Value) (i : Nat) (new : Value)
  | storeByte (v : Value) (i : Nat) (b : UInt8)
  | storeWord (v : Value) (i : Nat) (w : UInt64)
  | transferFields (source : Value) (sourceStart : Nat) (target : Value) (targetStart count : Nat)
  | transferBytes (source : Value) (sourceStart : Nat) (target : Value) (targetStart count : Nat)
  | collect (roots : List Value)
  deriving Repr

/-- The heap that an operation leaves, whether it succeeds or fails. -/
def Operation.perform : Operation → Heap → Heap
  | .allocateFields space type count fill, h =>
    stateAfter (Heap.allocateFields space type count fill h)
  | .allocateBytes space type length, h => stateAfter (Heap.allocateBytes space type length h)
  | .allocateBytesFrom space type bytes, h =>
    stateAfter (Heap.allocateBytesFrom space type bytes h)
  | .allocateWords space type count, h => stateAfter (Heap.allocateWords space type count h)
  | .setType v type, h => stateAfter (Heap.setType v type h)
  | .storeField v i new, h => stateAfter (Heap.storeField v i new h)
  | .storeByte v i b, h => stateAfter (Heap.storeByte v i b h)
  | .storeWord v i w, h => stateAfter (Heap.storeWord v i w h)
  | .transferFields source sourceStart target targetStart count, h =>
    stateAfter (Heap.transferFields source sourceStart target targetStart count h)
  | .transferBytes source sourceStart target targetStart count, h =>
    stateAfter (Heap.transferBytes source sourceStart target targetStart count h)
  | .collect roots, h => (h.collect roots).heap

/-- The heaps made by `create` and any sequence of operations. -/
inductive Built : Heap → Prop where
  | create {settings : Settings} {h : Heap} : Heap.create settings = .ok h → Built h
  | perform {h : Heap} (op : Operation) : Built h → Built (op.perform h)

end Heap

end MessageMachine
