import Mathlib.Data.List.Nodup
import Mathlib.Data.List.Perm.Basic
import MessageMachine.Heap.Collection

/-!
# What a pool holds

A pool is read through `Pool.at?`.  This file says what each operation does to that reading:
`at?_push` adds one object in the place that `reserve` answered, which was free before
(`at?_of_reserve`), and `at?_update` changes one place and no other.  Everything that is proved
about the heap later rests on these equations and never on how segments are laid out.

`length_le_objectCount` bounds a list of distinct taken places by the number of objects; it is
what makes a collection stop.
-/

namespace MessageMachine

theorem Handle.eq_of_place {a b : Handle} (hspace : a.space = b.space) (hepoch : a.epoch = b.epoch)
    (hsegment : a.segment = b.segment) (hindex : a.index = b.index) : a = b := by
  cases a
  cases b
  simp_all

namespace Pool

/-! ## Handles of a pool -/

theorem get_eq_ok_iff {p : Pool} {a : Handle} {o : Object} :
    p.get a = .ok o ↔ a.space = p.space ∧ a.epoch = p.epoch ∧ p.at? a.segment a.index = some o := by
  unfold get
  by_cases hcurrent : a.space = p.space ∧ a.epoch = p.epoch
  · rw [if_pos hcurrent]
    cases hat : p.at? a.segment a.index with
    | none => simp
    | some found => simp [hcurrent]
  · rw [if_neg hcurrent]
    constructor
    · intro h
      simp at h
    · rintro ⟨hspace, hepoch, -⟩
      exact absurd ⟨hspace, hepoch⟩ hcurrent

/-- Two pools of one space and epoch that hold the same objects answer every handle alike. -/
theorem get_congr {p q : Pool} (hspace : p.space = q.space) (hepoch : p.epoch = q.epoch)
    {a : Handle} (hat : p.at? a.segment a.index = q.at? a.segment a.index) :
    p.get a = q.get a := by
  unfold get
  rw [hspace, hepoch, hat]

/-- A handle that a pool does not answer is stale. -/
theorem get_eq_error {p : Pool} {a : Handle} {fault : HeapFault} (h : p.get a = .error fault) :
    fault = .staleHandle a := by
  unfold get at h
  split at h
  · split at h
    · cases h
    · injection h with h
      exact h.symm
  · injection h with h
    exact h.symm

/-! ## Changing one object -/

@[simp] theorem space_update (p : Pool) (s i : Nat) (f : Object → Object) :
    (p.update s i f).space = p.space := rfl

@[simp] theorem epoch_update (p : Pool) (s i : Nat) (f : Object → Object) :
    (p.update s i f).epoch = p.epoch := rfl

theorem at?_update (p : Pool) (s i : Nat) (f : Object → Object) (s' i' : Nat) :
    (p.update s i f).at? s' i' =
      if s' = s ∧ i' = i then (p.at? s i).map f else p.at? s' i' := by
  rw [update_eq]
  simp only [at?_eq, Array.getElem?_modify]
  by_cases hs : s = s'
  · subst hs
    cases hseg : p.segments[s]? with
    | none => simp
    | some seg =>
        simp only [if_true, true_and, Option.map_some, Option.bind_eq_bind, Option.bind_some,
          Segment.update, Array.getElem?_modify]
        by_cases hi : i = i'
        · subst hi
          simp
        · rw [if_neg hi, if_neg (Ne.symm hi)]
  · rw [if_neg hs, if_neg (fun h => hs h.1.symm)]

theorem at?_update_self (p : Pool) (s i : Nat) (f : Object → Object) :
    (p.update s i f).at? s i = (p.at? s i).map f := by
  rw [at?_update, if_pos ⟨rfl, rfl⟩]

theorem at?_update_of_ne (p : Pool) {s i s' i' : Nat} (f : Object → Object)
    (h : ¬(s' = s ∧ i' = i)) : (p.update s i f).at? s' i' = p.at? s' i' := by
  rw [at?_update, if_neg h]

/-! ## Adding an object -/

/-- A new pool holds nothing. -/
theorem at?_empty (space : Space) (epoch segmentWords maxSegments s i : Nat) :
    (Pool.empty space epoch segmentWords maxSegments).at? s i = none := by
  cases s with
  | zero => rfl
  | succ s => rfl

@[simp] theorem space_push (p : Pool) (o : Object) : (p.push o).space = p.space := by
  rw [push_eq]
  split <;> rfl

@[simp] theorem epoch_push (p : Pool) (o : Object) : (p.push o).epoch = p.epoch := by
  rw [push_eq]
  split <;> rfl

theorem space_of_reserve {p : Pool} {words : Nat} {a : Handle} (h : p.reserve words = .ok a) :
    a.space = p.space := by
  unfold reserve at h
  split at h
  · split at h
    · cases h
    · cases h; rfl
  · cases h; rfl

theorem epoch_of_reserve {p : Pool} {words : Nat} {a : Handle} (h : p.reserve words = .ok a) :
    a.epoch = p.epoch := by
  unfold reserve at h
  split at h
  · split at h
    · cases h
    · cases h; rfl
  · cases h; rfl

/-- A pool refuses an object only when it has no segment left for it. -/
theorem reserve_eq_error {p : Pool} {words : Nat} {fault : HeapFault}
    (h : p.reserve words = .error fault) : ∃ segments, fault = .outOfMemory p.space segments := by
  unfold reserve at h
  split at h
  · split at h
    · injection h with h
      exact ⟨_, h.symm⟩
    · cases h
  · cases h

/-- The last segment of a pool that needs no new one. -/
theorem back_of_not_needsSegment {p : Pool} {words : Nat} (h : p.needsSegment words = false) :
    ∃ seg, p.segments[p.segments.size - 1]? = some seg ∧ p.segments.back? = some seg := by
  unfold needsSegment at h
  cases hback : p.segments.back? with
  | none => simp [hback] at h
  | some seg => exact ⟨seg, by rw [← Array.back?_eq_getElem?, hback], rfl⟩

/-- The place that `reserve` answers is free. -/
theorem at?_of_reserve {p : Pool} {words : Nat} {a : Handle} (h : p.reserve words = .ok a) :
    p.at? a.segment a.index = none := by
  unfold reserve at h
  rw [at?_eq]
  split at h
  · split at h
    · cases h
    · cases h
      simp
  · next hneeds =>
    obtain ⟨seg, hseg, hback⟩ := back_of_not_needsSegment (by simpa using hneeds)
    cases h
    simp [hseg, hback]

theorem at?_push {p : Pool} {o : Object} {a : Handle} (h : p.reserve o.words = .ok a)
    (s i : Nat) :
    (p.push o).at? s i = if s = a.segment ∧ i = a.index then some o else p.at? s i := by
  unfold reserve at h
  rw [push_eq]
  split at h
  · next hneeds =>
    rw [if_pos hneeds]
    split at h
    · cases h
    · cases h
      -- a new segment: only its first place is taken
      simp only [at?_eq, Array.getElem?_push]
      by_cases hs : s = p.segments.size
      · subst hs
        cases i <;> simp [Segment.push, Segment.empty]
      · simp [hs]
  · next hneeds =>
    rw [if_neg hneeds]
    obtain ⟨seg, hseg, hback⟩ := back_of_not_needsSegment (by simpa using hneeds)
    cases h
    simp only [at?_eq, Array.getElem?_modify, hback, Option.map_some, Option.getD_some]
    by_cases hs : s = p.segments.size - 1
    · subst hs
      simp only [if_true, true_and, hseg, Option.map_some, Option.bind_eq_bind, Option.bind_some,
        Segment.push, Array.getElem?_push]
    · rw [if_neg (Ne.symm hs), if_neg (fun h => hs h.1)]

theorem at?_push_self {p : Pool} {o : Object} {a : Handle} (h : p.reserve o.words = .ok a) :
    (p.push o).at? a.segment a.index = some o := by
  rw [at?_push h, if_pos ⟨rfl, rfl⟩]

/-- Adding an object keeps the others. -/
theorem at?_push_of_some {p : Pool} {o : Object} {a : Handle} (h : p.reserve o.words = .ok a)
    {s i : Nat} {found : Object} (hat : p.at? s i = some found) :
    (p.push o).at? s i = some found := by
  rw [at?_push h, if_neg, hat]
  rintro ⟨rfl, rfl⟩
  rw [at?_of_reserve h] at hat
  cases hat

theorem get_push_self {p : Pool} {o : Object} {a : Handle} (h : p.reserve o.words = .ok a) :
    (p.push o).get a = .ok o := by
  rw [get_eq_ok_iff, space_push, epoch_push]
  exact ⟨space_of_reserve h, epoch_of_reserve h, at?_push_self h⟩

theorem get_push_of_ok {p : Pool} {o found : Object} {a b : Handle}
    (h : p.reserve o.words = .ok a) (hget : p.get b = .ok found) :
    (p.push o).get b = .ok found := by
  rw [get_eq_ok_iff] at hget ⊢
  exact ⟨by simpa using hget.1, by simpa using hget.2.1, at?_push_of_some h hget.2.2⟩

/-! ## Places -/

theorem mem_positions {p : Pool} {s i : Nat} :
    (s, i) ∈ p.positions ↔ ∃ o, p.at? s i = some o := by
  unfold positions
  simp only [at?_eq, List.mem_flatMap, List.mem_map, List.mem_range, Prod.mk.injEq, Prod.exists,
    List.mem_zipIdx_iff_getElem?, Array.getElem?_toList]
  constructor
  · rintro ⟨seg, s', hseg, i', hi, rfl, rfl⟩
    exact ⟨seg.objects[i'], by simp [hseg, hi]⟩
  · rintro ⟨o, ho⟩
    simp only [Option.bind_eq_bind, Option.bind_eq_some_iff] at ho
    obtain ⟨seg, hseg, hobject⟩ := ho
    exact ⟨seg, s, hseg, i, (Array.getElem?_eq_some_iff.mp hobject).1, rfl, rfl⟩

/-- The number of objects, segment by segment. -/
theorem objectCount_eq_foldl (p : Pool) :
    p.objectCount = (p.segments.map (·.objects.size)).foldl (· + ·) 0 := by
  rw [objectCount, Array.foldl_map]

theorem length_positions (p : Pool) : p.positions.length = p.objectCount := by
  have hmap : p.positions.length = (p.segments.toList.zipIdx.map fun x => x.1.objects.size).sum := by
    simp [positions, List.length_flatMap]
  rw [hmap, ← Function.comp_def (fun seg : Segment => seg.objects.size) Prod.fst, ← List.map_map,
    List.zipIdx_map_fst]
  rw [objectCount_eq_foldl, ← Array.foldl_toList, Array.toList_map, List.sum_eq_foldl]

theorem nodup_positions (p : Pool) : p.positions.Nodup := by
  unfold positions
  rw [List.nodup_flatMap]
  constructor
  · intro x _
    exact List.nodup_range.map fun i j h => (Prod.mk.inj h).2
  · -- different segments have different numbers
    have hdistinct : p.segments.toList.zipIdx.Pairwise fun x y => x.2 ≠ y.2 := by
      rw [← List.pairwise_map, List.zipIdx_map_snd]
      exact List.nodup_range'
    refine hdistinct.imp ?_
    intro x y hne place hx hy
    obtain ⟨i, -, hi⟩ := List.mem_map.mp hx
    obtain ⟨j, -, hj⟩ := List.mem_map.mp hy
    exact hne (Prod.mk.inj (hi.trans hj.symm)).1

/-- Changing an object keeps the number of objects. -/
@[simp] theorem objectCount_update (p : Pool) (s i : Nat) (f : Object → Object) :
    (p.update s i f).objectCount = p.objectCount := by
  have hsizes : (p.update s i f).segments.map (·.objects.size) =
      p.segments.map (·.objects.size) := by
    apply Array.ext_getElem?
    intro k
    simp only [update_eq, Array.getElem?_map, Array.getElem?_modify]
    split
    · cases p.segments[k]? with
      | none => rfl
      | some seg => simp [Segment.update]
    · rfl
  rw [objectCount_eq_foldl, objectCount_eq_foldl, hsizes]

/-- The places in a list without repetition are at most as many as there are objects. -/
theorem length_le_objectCount {p : Pool} {places : List (Nat × Nat)} (hnodup : places.Nodup)
    (htaken : ∀ place ∈ places, ∃ o, p.at? place.1 place.2 = some o) :
    places.length ≤ p.objectCount := by
  rw [← length_positions]
  refine (List.subperm_of_subset hnodup ?_).length_le
  rintro ⟨s, i⟩ hplace
  exact mem_positions.mpr (htaken _ hplace)

/-- The handles in a list without repetition are at most as many as there are objects. -/
theorem length_le_of_get {p : Pool} {handles : List Handle} (hnodup : handles.Nodup)
    (hget : ∀ a ∈ handles, ∃ o, p.get a = .ok o) : handles.length ≤ p.objectCount := by
  have hplaces : (handles.map fun a => (a.segment, a.index)).Nodup := by
    rw [List.nodup_map_iff_inj_on hnodup]
    intro a ha b hb heq
    obtain ⟨o, ho⟩ := hget a ha
    obtain ⟨o', ho'⟩ := hget b hb
    obtain ⟨hspace, hepoch, -⟩ := get_eq_ok_iff.mp ho
    obtain ⟨hspace', hepoch', -⟩ := get_eq_ok_iff.mp ho'
    exact Handle.eq_of_place (hspace.trans hspace'.symm) (hepoch.trans hepoch'.symm)
      (Prod.mk.inj heq).1 (Prod.mk.inj heq).2
  rw [← List.length_map (fun a : Handle => (a.segment, a.index))]
  refine length_le_objectCount hplaces fun place hplace => ?_
  obtain ⟨a, ha, rfl⟩ := List.mem_map.mp hplace
  obtain ⟨o, ho⟩ := hget a ha
  exact ⟨o, (get_eq_ok_iff.mp ho).2.2⟩

end Pool

end MessageMachine
