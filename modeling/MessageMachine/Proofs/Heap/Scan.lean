import MessageMachine.Proofs.Action
import MessageMachine.Proofs.Heap.Pool

/-!
# What a collection keeps

A collection changes its pools in three ways: it copies an object, it replaces the references of a
root object, and it replaces those of a copy.  A property that each of the three keeps holds wherever
the collection stops, also when it fails.  `Evacuation.Invariant P` lists the three;
`Invariant.collect` is the conclusion about the heap that a collection leaves.  What references are
replaced by is told through `Evacuated P`: each is what relocating it has answered on the way, or, after
a failure, what it was.
-/

namespace MessageMachine

namespace Evacuation

variable {P : Evacuation → Prop} {e : Evacuation} {vs : List Value}

/-- A value has been relocated while `P` held, or has been left as it was. -/
def Evacuated (P : Evacuation → Prop) (v v' : Value) : Prop :=
  v' = v ∨ ∃ e e', P e ∧ evacuate v e = .ok v' e'

/-- What makes a property last as long as a collection. -/
structure Invariant (P : Evacuation → Prop) : Prop where
  copied : ∀ {e : Evacuation} {a copy : Handle} {o : Object}, P e → e.source.get a = .ok o →
    o.header.state = .live → e.target.reserve o.words = .ok copy →
    P { e with
      source := e.source.update a.segment a.index (·.forward copy)
      target := e.target.push o
      copies := e.copies.push copy
      words := e.words + o.words }
  /-- The references of a root object are relocated. -/
  rootScanned : ∀ {e : Evacuation} {s i : Nat} {o : Object} {vs : Array Value}, P e →
    e.root.at? s i = some o → List.Forall₂ (Evacuated P) o.references vs.toList →
    P { e with root := e.root.update s i (·.setReferences vs) }
  /-- Of the header of a copy only the type is changed. -/
  copyScanned : ∀ {e : Evacuation} {s i : Nat} {o : Object} {f : Object → Object}, P e →
    e.target.at? s i = some o → (f o).header = { o.header with type := (f o).header.type } →
    Evacuated P o.header.type (f o).header.type →
    P { e with target := e.target.update s i f }

/-! ## Relocating values -/

/-- What copying keeps is kept by the relocation of a value. -/
theorem keeps_evacuate (hcopied : ∀ {e : Evacuation} {a copy : Handle} {o : Object}, P e →
      e.source.get a = .ok o → o.header.state = .live → e.target.reserve o.words = .ok copy →
      P { e with
        source := e.source.update a.segment a.index (·.forward copy)
        target := e.target.push o
        copies := e.copies.push copy
        words := e.words + o.words }) (v : Value) : Keeps P (evacuate v) := by
  intro e he
  unfold evacuate
  cases v.handle? with
  | none => exact he
  | some a =>
      dsimp only
      split
      · exact he
      cases hget : e.source.get a with
      | error fault => exact he
      | ok o =>
          dsimp only
          cases hstate : o.header.state with
          | forwarded copy => exact he
          | permanent => exact he
          | live =>
              dsimp only
              cases hreserve : e.target.reserve o.words with
              | error fault => exact he
              | ok copy => exact hcopied he hget hstate hreserve

theorem after_relocateAfter (hstep : ∀ v, Keeps P (evacuate v)) :
    ∀ {done : Array Value} {e : Evacuation}, P e → P (relocateAfter done vs e).2.1 := by
  induction vs with
  | nil => exact fun he => he
  | cons v vs ih =>
      intro done e he
      have hafter := hstep v e he
      rw [relocateAfter]
      cases hrun : evacuate v e with
      | ok moved e' =>
          rw [hrun] at hafter
          exact ih hafter
      | error fault e' =>
          rw [hrun] at hafter
          exact hafter

/-- Each value is relocated or, after a failure, left as it was. -/
theorem forall₂_relocateAfter (vs : List Value) (hstep : ∀ v, Keeps P (evacuate v)) :
    ∀ (done : Array Value) {e : Evacuation}, P e → ∃ ws,
      (relocateAfter done vs e).1.toList = done.toList ++ ws ∧ List.Forall₂ (Evacuated P) vs ws := by
  induction vs with
  | nil => exact fun _ _ _ => ⟨[], (List.append_nil _).symm, .nil⟩
  | cons v vs ih =>
      intro done e he
      have hafter := hstep v e he
      rw [relocateAfter]
      cases hrun : evacuate v e with
      | ok moved e' =>
          rw [hrun, stateAfter_ok] at hafter
          obtain ⟨ws, hws, hall⟩ := ih (done.push moved) hafter
          refine ⟨moved :: ws, ?_, .cons (.inr ⟨e, e', he, hrun⟩) hall⟩
          dsimp only
          rw [hws, Array.toList_push, List.append_assoc]
          rfl
      | error fault e' =>
          refine ⟨v :: vs, Array.toList_appendList .., List.forall₂_same.mpr fun _ _ => .inl rfl⟩

/-- The root pool is left alone while values are relocated. -/
theorem root_relocateEach (vs : List Value) (e : Evacuation) :
    (relocateEach vs e).2.1.root = e.root :=
  after_relocateAfter (P := fun e' => e'.root = e.root) (keeps_evacuate fun he _ _ _ => he) rfl

/-- Relocating values only adds copies. -/
theorem at?_relocateEach (vs : List Value) {s i : Nat} {o : Object}
    (hat : e.target.at? s i = some o) : (relocateEach vs e).2.1.target.at? s i = some o :=
  after_relocateAfter (P := fun e : Evacuation => e.target.at? s i = some o)
    (keeps_evacuate fun he _ _ hreserve => Pool.at?_push_of_some hreserve he) hat

/-- The type of an object is the first of its references. -/
theorem evacuated_type {o : Object} {vs : Array Value}
    (hall : List.Forall₂ (Evacuated P) o.references vs.toList) :
    Evacuated P o.header.type (o.setReferences vs).header.type := by
  obtain ⟨vs⟩ := vs
  cases hall with
  | cons htype _ => exact htype

namespace Invariant

variable (hP : Invariant P)
include hP

theorem relocateEach (vs : List Value) (he : P e) : P (relocateEach vs e).2.1 :=
  after_relocateAfter (keeps_evacuate hP.copied) he

theorem forall₂_relocateEach (vs : List Value) (he : P e) :
    List.Forall₂ (Evacuated P) vs (Evacuation.relocateEach vs e).1.toList := by
  obtain ⟨ws, hws, hall⟩ :=
    forall₂_relocateAfter vs (keeps_evacuate hP.copied) #[] he
  rw [Evacuation.relocateEach, hws]
  exact hall

/-! ## Scanning -/

theorem scanRoot (s i : Nat) : Keeps P (scanRoot s i) := by
  intro e he
  unfold Evacuation.scanRoot
  split
  · exact he
  next o ho =>
  have hafter := hP.relocateEach o.references he
  have hall := hP.forall₂_relocateEach o.references he
  have hroot := root_relocateEach o.references e
  split
  all_goals
    next hrelocate =>
      rw [hrelocate] at hafter hall hroot
      exact hP.rootScanned hafter ((congrArg (·.at? s i) hroot).trans ho) hall

theorem scanCopy (k : Nat) : Keeps P (scanCopy k) := by
  intro e he
  unfold Evacuation.scanCopy
  split
  · exact he
  next a _ =>
  split
  · exact he
  next o ho =>
  have hafter := hP.relocateEach o.references he
  have hall := hP.forall₂_relocateEach o.references he
  have hat := at?_relocateEach o.references ho
  split
  · next hrelocate =>
    rw [hrelocate] at hafter hall hat
    exact hP.copyScanned hafter hat rfl (evacuated_type hall)
  · next hrelocate =>
    rw [hrelocate] at hafter hat
    exact hP.copyScanned hafter hat rfl (.inl rfl)

theorem scan : Keeps P scan := by
  refine Keeps.bind (fun e he => he) fun e => ?_
  refine Keeps.bind (Keeps.forM fun place _ => hP.scanRoot place.1 place.2) fun _ => ?_
  exact Keeps.bind (fun e he => he) fun e => Keeps.forM fun k _ => hP.scanCopy k

/-- The heap that a collection leaves, whether it succeeds or fails. -/
theorem collect {h : Heap} (hstart : P h.startEvacuation) (roots : List Value) :
    ∃ e, P e ∧ (h.collect roots).heap.root = e.root ∧
      (h.collect roots).heap.ephemeral = e.target ∧
      (h.collect roots).heap.settings = h.settings := by
  have hroots := hP.relocateEach roots hstart
  unfold Heap.collect
  split
  · next hrelocate =>
    rw [hrelocate] at hroots
    exact ⟨_, hroots, rfl, rfl, rfl⟩
  · next e hrelocate =>
    rw [hrelocate] at hroots
    have hscan := hP.scan e hroots
    split
    all_goals
      next hrun =>
        rw [hrun] at hscan
        exact ⟨_, hscan, rfl, rfl, rfl⟩

end Invariant

end Evacuation

end MessageMachine
