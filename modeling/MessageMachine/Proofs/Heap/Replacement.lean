import MessageMachine.Proofs.Heap.View

/-!
# Replacing the fields of an object

Stores and transfers within one object come to putting other fields in its place: `replace h a o xs` is
the heap with `xs` for the fields of the object `o` at `a`, and replacing twice is replacing once.
-/

namespace MessageMachine

/-! ## Changing one element -/

theorem modify_modify (xs : Array α) (i : Nat) (f g : α → α) :
    (xs.modify i f).modify i g = xs.modify i (g ∘ f) := by
  apply Array.ext_getElem?
  intro j
  simp only [Array.getElem?_modify]
  by_cases hj : i = j
  · simp only [if_pos hj, Option.map_map]
  · simp only [if_neg hj]

theorem modify_congr {xs : Array α} {i : Nat} {f g : α → α}
    (hfg : ∀ x, xs[i]? = some x → f x = g x) : xs.modify i f = xs.modify i g := by
  apply Array.ext_getElem?
  intro j
  simp only [Array.getElem?_modify]
  by_cases hj : i = j
  · subst hj
    rw [if_pos rfl, if_pos rfl]
    cases hx : xs[i]? with
    | none => rfl
    | some x => exact congrArg some (hfg x hx)
  · simp only [if_neg hj]

theorem modify_id (xs : Array α) (i : Nat) : xs.modify i id = xs := by
  apply Array.ext_getElem?
  intro j
  rw [Array.getElem?_modify]
  split
  · exact Option.map_id'
  · rfl

theorem Segment.update_update (s : Segment) (i : Nat) (f g : Object → Object) :
    (s.update i f).update i g = s.update i (g ∘ f) :=
  congrArg (Segment.mk · s.usedWords) (modify_modify s.objects i f g)

namespace Pool

theorem update_update (p : Pool) (segment index : Nat) (f g : Object → Object) :
    (p.update segment index f).update segment index g = p.update segment index (g ∘ f) := by
  simp only [update_eq, modify_modify]
  congr 2
  funext s
  exact s.update_update index f g

theorem update_congr {p : Pool} {segment index : Nat} {o : Object} {f g : Object → Object}
    (ho : p.at? segment index = some o) (hfg : f o = g o) :
    p.update segment index f = p.update segment index g := by
  simp only [update_eq]
  congr 1
  refine modify_congr fun s hs => congrArg (Segment.mk · s.usedWords) (modify_congr fun o' ho' => ?_)
  rw [at?_eq, hs] at ho
  obtain rfl : o' = o := Option.some.inj (ho'.symm.trans ho)
  exact hfg

end Pool

/-! ## Replacing an object -/

namespace Heap

variable {h : Heap} {a : Handle} {o : Object} {f g : Object → Object} {header : Header}
  {xs : Array Value}

theorem update_update (h : Heap) (a : Handle) (f g : Object → Object) :
    (h.update a f).update a g = h.update a (g ∘ f) := by
  unfold update
  cases a.space with
  | ephemeral => exact congrArg (fun p => { h with ephemeral := p }) (Pool.update_update ..)
  | root => exact congrArg (fun p => { h with root := p }) (Pool.update_update ..)

theorem update_congr (ho : h.resolve a = .ok o) (hfg : f o = g o) :
    h.update a f = h.update a g := by
  have hat := (resolve_eq_ok.mp ho).2.2
  unfold update
  cases hspace : a.space with
  | ephemeral =>
      rw [hspace] at hat
      exact congrArg (fun p => { h with ephemeral := p }) (Pool.update_congr hat hfg)
  | root =>
      rw [hspace] at hat
      exact congrArg (fun p => { h with root := p }) (Pool.update_congr hat hfg)

theorem update_id (h : Heap) (a : Handle) : h.update a id = h := by
  have hsegment : ∀ s : Segment, s.update a.index id = s := fun s =>
    congrArg (Segment.mk · s.usedWords) (modify_id s.objects a.index)
  have hpool : ∀ p : Pool, p.update a.segment a.index id = p := by
    intro p
    rw [Pool.update_eq, show (fun s : Segment => s.update a.index id) = id from funext hsegment,
      modify_id]
  unfold update
  cases a.space with
  | ephemeral => exact congrArg (fun p => { h with ephemeral := p }) (hpool _)
  | root => exact congrArg (fun p => { h with root := p }) (hpool _)

/-- The heap with other fields in the place of an object. -/
def replace (h : Heap) (a : Handle) (header : Header) (xs : Array Value) : Heap :=
  h.update a fun _ => ⟨header, .fields xs⟩

section Replacing

variable (ho : h.resolve a = .ok ⟨header, .fields xs⟩)

include ho

theorem replace_self : h.replace a header xs = h := by
  have hid : h.replace a header xs = h.update a id := update_congr ho rfl
  rw [hid, update_id]

theorem resolve_replace (ys : Array Value) :
    (h.replace a header ys).resolve a = .ok ⟨header, .fields ys⟩ := by
  have hput := putAt_update ho fun _ => ⟨header, .fields ys⟩
  exact (hput a).trans (if_pos rfl)

theorem storeField_run {i : Nat} (hi : i < xs.size) (v : Value) :
    storeField (.object a) i v h = .ok () (h.replace a header (xs.setIfInBounds i v)) := by
  have hfetch : h.fetchField (.object a) i = .ok xs[i] :=
    fetchField_eq_ok.mpr ⟨xs, fields_eq_ok.mpr ⟨a, _, rfl, ho, rfl⟩, Array.getElem?_eq_getElem hi⟩
  unfold storeField change
  dsimp only
  rw [hfetch]
  exact congrArg (EStateM.Result.ok ()) (update_congr ho rfl)

/-- A transfer within an object. -/
theorem transferFields_run {start first count : Nat} (hstart : start + count ≤ xs.size)
    (hfirst : first + count ≤ xs.size) :
    transferFields (.object a) start (.object a) first count h =
      .ok () (h.replace a header (overwrite xs first (xs.extract start (start + count)))) := by
  have hfields : h.fields (.object a) = .ok xs := fields_eq_ok.mpr ⟨a, _, rfl, ho, rfl⟩
  obtain ⟨f, hf, htransfer⟩ := transferFields_eq_change (.object a) start (.object a) first count
  have hslice : ∀ {i : Nat}, i + count ≤ xs.size →
      (do slice (← h.fields (.object a)) i count) = .ok (xs.extract i (i + count)) := by
    intro i hi
    rw [hfields]
    exact slice_eq_ok.mpr ⟨hi, rfl⟩
  rw [htransfer]
  refine read_bind_eq_ok.mpr ⟨_, hslice hstart, ?_⟩
  unfold change
  dsimp only
  rw [hslice hfirst]
  exact congrArg (EStateM.Result.ok ()) (update_congr ho (hf ..))

end Replacing

theorem replace_replace (xs ys : Array Value) :
    (h.replace a header xs).replace a header ys = h.replace a header ys :=
  update_update ..

/-! ## Overwriting fields one after the other -/

theorem overwrite_empty (xs : Array Value) (first : Nat) : overwrite xs first #[] = xs := by
  apply Array.ext_getElem?
  intro j
  rw [overwrite, Array.getElem?_mapIdx]
  cases xs[j]? <;> simp

theorem overwrite_cons (xs : Array Value) (first : Nat) (v : Value) (vs : List Value) :
    overwrite (xs.setIfInBounds first v) (first + 1) vs.toArray =
      overwrite xs first (v :: vs).toArray := by
  apply Array.ext_getElem?
  intro j
  simp only [overwrite, Array.getElem?_mapIdx]
  rcases Nat.lt_trichotomy j first with hlt | rfl | hgt
  · have hne : first ≠ j := by omega
    rw [Array.getElem?_setIfInBounds_ne hne]
    simp [show ¬first ≤ j by omega, show ¬first + 1 ≤ j by omega]
  · rw [Array.getElem?_setIfInBounds_self]
    by_cases hj : j < xs.size
    · simp [hj]
    · simp [hj]
  · have hne : first ≠ j := by omega
    obtain ⟨k, rfl⟩ : ∃ k, j = first + 1 + k := ⟨j - (first + 1), by omega⟩
    rw [Array.getElem?_setIfInBounds_ne hne]
    simp [show first ≤ first + 1 + k by omega, show first + 1 + k - first = k + 1 by omega]

end Heap

end MessageMachine
