import MessageMachine.Proofs.Heap.Collection
import MessageMachine.Proofs.Heap.Packing

/-!
# A collection ends

The copies are scanned while they are being made: the scan goes through the segments of the pool being
filled, place after place, and goes on as long as there is a place after the one it is at, whether that
was filled before or by the scan itself.  `Evacuation.Chases` is that loop, without a bound on its
rounds: it relates where the loop is to what it visits and how it ends, if it ends.

## Strategy

* `Pool.positions_push`: a new copy comes behind all others, so the loop visits the copies in the order
  in which they were made (`Ahead`).
* `Tracked h moves e`: every object that has been copied is marked, and only unmarked ones are
  copied, so there are at most as many copies as there were objects.
* `exists_chases`: so as many rounds as there were objects are enough for the loop.

`Heap.collect_ends` is the conclusion, for any heap and any roots.
-/

namespace MessageMachine

namespace Pool

/-! ## The places of a pool in their order -/

/-- How many objects a segment has; none if there is no such segment. -/
def segmentLength (p : Pool) (s : Nat) : Nat := (p.segments[s]?.map (·.objects.size)).getD 0

/-- The order in which places are filled. -/
abbrev Before : Nat × Nat → Nat × Nat → Prop := Prod.Lex (· < ·) (· < ·)

/-- The place is this one or comes after it. -/
def From (s i : Nat) (x : Nat × Nat) : Prop := s < x.1 ∨ s = x.1 ∧ i ≤ x.2

theorem mem_positions_iff {p : Pool} {s i : Nat} :
    (s, i) ∈ p.positions ↔ i < p.segmentLength s := by
  rw [mem_positions, segmentLength]
  simp only [at?_eq]
  cases hs : p.segments[s]? with
  | none => simp
  | some seg => simp [Array.getElem?_eq_some_iff]

theorem lt_size_of_mem_positions {p : Pool} {s i : Nat} (hmem : (s, i) ∈ p.positions) :
    s < p.segments.size := by
  obtain ⟨o, ho⟩ := mem_positions.mp hmem
  by_contra hge
  rw [at?_eq, Array.getElem?_eq_none (Nat.le_of_not_lt hge)] at ho
  cases ho

theorem positions_eq (p : Pool) : p.positions =
    p.layout.zipIdx.flatMap fun (extent, s) => (List.range extent.2).map fun i => (s, i) := by
  simp [positions, layout, List.zipIdx_map, List.flatMap_map, Segment.extent]

theorem pairwise_positions (p : Pool) : p.positions.Pairwise Before := by
  rw [positions_eq, List.pairwise_flatMap]
  constructor
  · intro x _
    rw [List.pairwise_map]
    exact List.pairwise_lt_range.imp fun hlt => .right _ hlt
  · have hordered : p.layout.zipIdx.Pairwise fun x y => x.2 < y.2 := by
      rw [← List.pairwise_map, List.zipIdx_map_snd]
      exact List.pairwise_lt_range'
    refine hordered.imp fun {x y} hlt a ha b hb => ?_
    obtain ⟨i, -, rfl⟩ := List.mem_map.mp ha
    obtain ⟨j, -, rfl⟩ := List.mem_map.mp hb
    exact .left _ _ hlt

theorem positions_update (p : Pool) (s i : Nat) (f : Object → Object) :
    (p.update s i f).positions = p.positions :=
  positions_congr (Repeats.extents_update p s i f)

/-- A new object comes behind all others. -/
theorem positions_push {p : Pool} {o : Object} {a : Handle} (h : p.reserve o.words = .ok a) :
    (p.push o).positions = p.positions ++ [(a.segment, a.index)] := by
  unfold reserve at h
  rw [positions_eq, positions_eq]
  split at h
  · next hneeds =>
    split at h
    · cases h
    · cases h
      rw [layout_push_of_needs hneeds, List.zipIdx_append, length_layout]
      simp
  · next hfits =>
    obtain ⟨seg, hseg, hback⟩ := back_of_not_needsSegment (by simpa using hfits)
    cases h
    obtain ⟨init, hinit⟩ : ∃ init, p.layout = init ++ [seg.extent] := by
      refine ⟨p.layout.dropLast, (List.dropLast_append_getLast? _ ?_).symm⟩
      rw [layout, List.getLast?_map, Array.getLast?_toList, hback]
      rfl
    have hsize : p.segments.size - 1 = init.length := by
      rw [← length_layout, hinit]
      simp
    rw [layout_push_of_fits hinit hfits, hinit, List.zipIdx_append, List.zipIdx_append]
    simp [hback, hsize, List.range_succ, Segment.extent]

end Pool

/-! ## The loop -/

namespace Evacuation

/-- Relocates the references of the copy at a place. -/
def scanPlace (s i : Nat) : EStateM HeapFault Evacuation Unit := fun e =>
  match e.target.at? s i with
  | none => .ok () e
  | some o =>
    match relocateEach o.references e with
    | (vs, e, none) => .ok () { e with target := e.target.update s i fun _ => o.setReferences vs }
    | (_, e, some fault) => .error fault { e with target := e.target.update s i (·.hollow) }

/-- The loop over the pool being filled, from a place on: the places it visits and how it ends.  It
looks for the end of the pool anew in every round. -/
inductive Chases : (s i : Nat) → Evacuation → List (Nat × Nat) →
    EStateM.Result HeapFault Evacuation Unit → Prop where
  /-- There is no place left in the last segment. -/
  | stop {s i : Nat} {e : Evacuation} : e.target.segmentLength s ≤ i →
      e.target.segments.size ≤ s + 1 → Chases s i e [] (.ok () e)
  /-- The segment is done, and there is a next one. -/
  | hop {s i : Nat} {e : Evacuation} {visited : List (Nat × Nat)}
      {r : EStateM.Result HeapFault Evacuation Unit} : e.target.segmentLength s ≤ i →
      s + 1 < e.target.segments.size → Chases (s + 1) 0 e visited r → Chases s i e visited r
  | scan {s i : Nat} {e e' : Evacuation} {visited : List (Nat × Nat)}
      {r : EStateM.Result HeapFault Evacuation Unit} : i < e.target.segmentLength s →
      scanPlace s i e = .ok () e' → Chases s (i + 1) e' visited r →
      Chases s i e ((s, i) :: visited) r
  | fail {s i : Nat} {e e' : Evacuation} {fault : HeapFault} : i < e.target.segmentLength s →
      scanPlace s i e = .error fault e' → Chases s i e [(s, i)] (.error fault e')

namespace Chases

variable {s i : Nat} {e : Evacuation} {visited visited' : List (Nat × Nat)}
  {r r' : EStateM.Result HeapFault Evacuation Unit}

/-- The loop never goes back. -/
theorem visited_from (hc : Chases s i e visited r) : ∀ x ∈ visited, Pool.From s i x := by
  unfold Pool.From
  induction hc with
  | stop => simp
  | hop _ _ _ ih =>
      intro x hx
      have hlater := ih x hx
      omega
  | scan _ _ _ ih =>
      intro x hx
      rcases List.mem_cons.mp hx with rfl | hx
      · exact .inr ⟨rfl, le_rfl⟩
      · have hlater := ih x hx
        omega
  | fail =>
      intro x hx
      rw [List.mem_singleton.mp hx]
      exact .inr ⟨rfl, le_rfl⟩

/-- No place is visited twice. -/
theorem nodup (hc : Chases s i e visited r) : visited.Nodup := by
  induction hc with
  | stop => exact List.nodup_nil
  | hop _ _ _ ih => exact ih
  | scan _ _ hrest ih =>
      refine List.nodup_cons.mpr ⟨fun hmem => ?_, ih⟩
      have hlater := hrest.visited_from _ hmem
      unfold Pool.From at hlater
      omega
  | fail => exact List.nodup_singleton _

/-- The loop has one way to go. -/
theorem unique (hc : Chases s i e visited r) (hc' : Chases s i e visited' r') :
    visited' = visited ∧ r' = r := by
  induction hc generalizing visited' r' with
  | stop hend hlast =>
      cases hc' with
      | stop => exact ⟨rfl, rfl⟩
      | hop _ hmore => omega
      | scan hin => omega
      | fail hin => omega
  | hop hend hmore _ ih =>
      cases hc' with
      | stop _ hlast => omega
      | hop _ _ hrest => exact ih hrest
      | scan hin => omega
      | fail hin => omega
  | scan hin hrun _ ih =>
      cases hc' with
      | stop hend => omega
      | hop hend => omega
      | scan _ hrun' hrest =>
          cases hrun.symm.trans hrun'
          obtain ⟨rfl, rfl⟩ := ih hrest
          exact ⟨rfl, rfl⟩
      | fail _ hrun' => cases hrun.symm.trans hrun'
  | fail hin hrun =>
      cases hc' with
      | stop hend => omega
      | hop hend => omega
      | scan _ hrun' => cases hrun.symm.trans hrun'
      | fail _ hrun' =>
          cases hrun.symm.trans hrun'
          exact ⟨rfl, rfl⟩

end Chases

end Evacuation

/-! ## What has been copied -/

/-- The copies made so far are those of the moves, each of an object of its own. -/
structure Tracked (h : Heap) (moves : Moves) (e : Evacuation) : Prop where
  copies_eq : e.copies.toList = moves.map Prod.snd
  nodup : (moves.map Prod.fst).Nodup
  /-- The original of a copy is marked with it. -/
  marked : ∀ move ∈ moves, e.Forwards move.1 move.2
  original : ∀ move ∈ moves, ∃ o, h.ephemeral.get move.1 = .ok o ∧ o.header.state = .live
  unmarked : ∀ a o, e.source.get a = .ok o → o.header.state = .live → h.ephemeral.get a = .ok o
  count : e.source.objectCount = h.ephemeral.objectCount
  /-- The copies are in the pool being filled, in the order in which they were made. -/
  positions : e.target.positions = moves.map fun move => (move.2.segment, move.2.index)

namespace Tracked

open Evacuation

variable {h : Heap} {moves : Moves} {e : Evacuation}

theorem startEvacuation (h : Heap) : Tracked h [] h.startEvacuation where
  copies_eq := rfl
  nodup := List.nodup_nil
  marked _ hmove := absurd hmove List.not_mem_nil
  original _ hmove := absurd hmove List.not_mem_nil
  unmarked _ _ hget _ := hget
  count := rfl
  positions := rfl

theorem copied (ht : Tracked h moves e) {a copy : Handle} {o : Object}
    (hget : e.source.get a = .ok o) (hlive : o.header.state = .live)
    (hreserve : e.target.reserve o.words = .ok copy) : Tracked h (moves ++ [(a, copy)])
      { e with
        source := e.source.update a.segment a.index (·.forward copy)
        target := e.target.push o
        copies := e.copies.push copy
        words := e.words + o.words } := by
  have hunmarked : ∀ copy', ¬e.Forwards a copy' := by
    rintro copy' ⟨o', hget', hstate⟩
    cases hget.symm.trans hget'
    rw [hlive] at hstate
    cases hstate
  have hnew : a ∉ moves.map Prod.fst := by
    intro hmem
    obtain ⟨move, hmove, rfl⟩ := List.mem_map.mp hmem
    exact hunmarked _ (ht.marked move hmove)
  constructor
  case copies_eq => simp [ht.copies_eq]
  case nodup =>
    rw [List.map_append, List.nodup_append]
    refine ⟨ht.nodup, List.nodup_singleton _, ?_⟩
    rintro b hb _ hc rfl
    rw [List.mem_singleton.mp hc] at hb
    exact hnew hb
  case marked =>
    intro move hmove
    rw [forwards_mark hget]
    rcases List.mem_append.mp hmove with hmove | hmove
    · refine .inr ⟨fun heq => hnew ?_, ht.marked move hmove⟩
      exact List.mem_map.mpr ⟨move, hmove, heq⟩
    · cases List.mem_singleton.mp hmove
      exact .inl ⟨rfl, rfl⟩
  case original =>
    intro move hmove
    rcases List.mem_append.mp hmove with hmove | hmove
    · exact ht.original move hmove
    · cases List.mem_singleton.mp hmove
      exact ⟨o, ht.unmarked a o hget hlive, hlive⟩
  case unmarked =>
    intro b ob hgetb hliveb
    refine ht.unmarked b ob ?_ hliveb
    obtain ⟨hspace, hepoch, hat⟩ := Pool.get_eq_ok_iff.mp hgetb
    refine Pool.get_eq_ok_iff.mpr ⟨hspace, hepoch, ?_⟩
    rw [Pool.at?_update] at hat
    split at hat
    · obtain ⟨_, -, rfl⟩ := Option.map_eq_some_iff.mp hat
      cases hliveb
    · exact hat
  case count => rw [Pool.objectCount_update, ht.count]
  case positions => rw [Pool.positions_push hreserve, ht.positions, List.map_append]; rfl

theorem size_copies (ht : Tracked h moves e) : e.copies.size = moves.length := by
  rw [← Array.length_toList, ht.copies_eq, List.length_map]

/-- There are at most as many copies as there were objects. -/
theorem length_le (ht : Tracked h moves e) : moves.length ≤ h.ephemeral.objectCount := by
  rw [← List.length_map Prod.fst]
  refine Pool.length_le_of_get ht.nodup fun a ha => ?_
  obtain ⟨move, hmove, rfl⟩ := List.mem_map.mp ha
  obtain ⟨o, ho, -⟩ := ht.original move hmove
  exact ⟨o, ho⟩

/-- The copy in a place. -/
theorem getElem?_copies (ht : Tracked h moves e) {k s i : Nat}
    (hplace : e.target.positions[k]? = some (s, i)) :
    ∃ a, e.copies[k]? = some a ∧ a.segment = s ∧ a.index = i := by
  rw [ht.positions, List.getElem?_map, Option.map_eq_some_iff] at hplace
  obtain ⟨move, hmove, heq⟩ := hplace
  refine ⟨move.2, ?_, congrArg Prod.fst heq, congrArg Prod.snd heq⟩
  rw [← Array.getElem?_toList, ht.copies_eq, List.getElem?_map, hmove]
  rfl

end Tracked

/-- Whatever a collection does, its copies can be told apart by their originals. -/
theorem invariant_tracked (h : Heap) : Evacuation.Invariant fun e => ∃ moves, Tracked h moves e where
  copied := by
    rintro e a copy o ⟨moves, ht⟩ hget hlive hreserve
    exact ⟨_, ht.copied hget hlive hreserve⟩
  rootScanned := by
    rintro e s i o vs ⟨moves, ht⟩ - -
    exact ⟨moves, ht.copies_eq, ht.nodup, ht.marked, ht.original, ht.unmarked, ht.count,
      ht.positions⟩
  copyScanned := by
    rintro e s i o f ⟨moves, ht⟩ - - -
    exact ⟨moves, ht.copies_eq, ht.nodup, ht.marked, ht.original, ht.unmarked, ht.count,
      (Pool.positions_update e.target s i f).trans ht.positions⟩

/-! ## As many rounds as objects -/

namespace Evacuation

variable {h : Heap} {k s i n : Nat} {e e' : Evacuation}

theorem scanCopy_eq {a : Handle} (ha : e.copies[k]? = some a) :
    scanCopy k e = scanPlace a.segment a.index e := by
  unfold scanCopy
  rw [ha]
  rfl

/-- Copying while a place is scanned adds places behind it. -/
theorem positions_scanPlace (s i : Nat) (e : Evacuation) : ∃ more,
    (stateAfter (scanPlace s i e)).target.positions = e.target.positions ++ more := by
  have hgrows : ∀ vs, ∃ more, (relocateEach vs e).2.1.target.positions =
      e.target.positions ++ more := fun vs =>
    after_relocateAfter (P := fun e' => ∃ more, e'.target.positions = e.target.positions ++ more)
      (keeps_evacuate fun {e' a copy o} ⟨more, hmore⟩ _ _ hreserve =>
        ⟨more ++ [(copy.segment, copy.index)], by
          rw [Pool.positions_push hreserve, hmore, List.append_assoc]⟩)
      ⟨[], (List.append_nil _).symm⟩
  unfold scanPlace
  split
  · exact ⟨[], (List.append_nil _).symm⟩
  next o _ =>
  obtain ⟨more, hmore⟩ := hgrows o.references
  split
  all_goals
    next hrelocate =>
      rw [hrelocate] at hmore
      exact ⟨more, (Pool.positions_update ..).trans hmore⟩

/-- The first `k` places are done, and the loop has not passed any other. -/
structure Ahead (k s i : Nat) (e : Evacuation) : Prop where
  done : ∀ x ∈ e.target.positions.take k, Pool.Before x (s, i)
  ahead : ∀ x ∈ e.target.positions.drop k, Pool.From s i x

namespace Ahead

/-- Before the first round. -/
theorem start (e : Evacuation) : Ahead 0 0 0 e where
  done x hx := absurd hx (by simp)
  ahead x _ := by
    unfold Pool.From
    omega

/-- After the `k`-th place has been visited. -/
theorem of_getElem? (hk : e.target.positions[k]? = some (s, i)) : Ahead (k + 1) s (i + 1) e := by
  obtain ⟨hlt, hplace⟩ := List.getElem?_eq_some_iff.mp hk
  have hordered := e.target.pairwise_positions
  rw [← List.take_append_drop k e.target.positions, ← List.cons_getElem_drop_succ (h := hlt),
    hplace, List.pairwise_append, List.pairwise_cons] at hordered
  obtain ⟨-, ⟨hlater, -⟩, hearlier⟩ := hordered
  constructor
  · intro x hx
    rw [List.take_add_one, hk, List.mem_append] at hx
    have hbefore : x = (s, i) ∨ Pool.Before x (s, i) := by
      rcases hx with hx | hx
      · exact .inr (hearlier x hx _ List.mem_cons_self)
      · exact .inl (by simpa using hx)
    rw [Pool.Before, Prod.lex_def] at hbefore ⊢
    rcases hbefore with rfl | hbefore
    · exact .inr ⟨rfl, Nat.lt_succ_self i⟩
    · omega
  · intro x hx
    have hbefore := hlater x hx
    rw [Pool.Before, Prod.lex_def] at hbefore
    unfold Pool.From
    omega

/-- A segment that is done is left. -/
theorem hop (ha : Ahead k s i e) (hend : e.target.segmentLength s ≤ i) : Ahead k (s + 1) 0 e where
  done x hx := by
    have hbefore := ha.done x hx
    rw [Pool.Before, Prod.lex_def] at hbefore ⊢
    omega
  ahead x hx := by
    have hlater := ha.ahead x hx
    have hin := Pool.mem_positions_iff.mp (List.mem_of_mem_drop hx)
    unfold Pool.From at hlater ⊢
    rcases hlater with hlater | ⟨rfl, hle⟩
    · omega
    · omega

/-- The place that the loop is at is the next one. -/
theorem getElem?_of_lt (ha : Ahead k s i e) (hin : i < e.target.segmentLength s) :
    e.target.positions[k]? = some (s, i) := by
  have hmem := Pool.mem_positions_iff.mpr hin
  rw [← List.take_append_drop k e.target.positions, List.mem_append] at hmem
  rcases hmem with hdone | hrest
  · have hbefore := ha.done _ hdone
    rw [Pool.Before, Prod.lex_def] at hbefore
    omega
  · have hlt : k < e.target.positions.length := by
      by_contra hge
      rw [List.drop_eq_nil_of_le (Nat.le_of_not_lt hge)] at hrest
      cases hrest
    have hordered := e.target.pairwise_positions.drop (i := k)
    have hfirst := ha.ahead e.target.positions[k]
    rw [← List.cons_getElem_drop_succ (h := hlt)] at hrest hordered hfirst
    rw [List.getElem?_eq_getElem hlt]
    rcases List.mem_cons.mp hrest with heq | hlater
    · rw [heq]
    · have hbefore := (List.pairwise_cons.mp hordered).1 _ hlater
      have hfrom := hfirst List.mem_cons_self
      rw [Pool.Before, Prod.lex_def] at hbefore
      unfold Pool.From at hfrom
      omega

/-- The loop passes segments that are done until it finds a place or there is none. -/
theorem hops (ha : Ahead k s i e) :
    (e.target.positions.length ≤ k ∧ Chases s i e [] (.ok () e)) ∨
      ∃ s' i', i' < e.target.segmentLength s' ∧ e.target.positions[k]? = some (s', i') ∧
        ∀ visited r, Chases s' i' e visited r → Chases s i e visited r := by
  induction hleft : e.target.segments.size - s using Nat.strong_induction_on generalizing s i with
  | _ left ih =>
      by_cases hin : i < e.target.segmentLength s
      · exact .inr ⟨s, i, hin, ha.getElem?_of_lt hin, fun _ _ => id⟩
      have hend := Nat.le_of_not_lt hin
      by_cases hmore : s + 1 < e.target.segments.size
      · rcases ih _ (by omega) (ha.hop hend) rfl with ⟨hlength, hc⟩ | ⟨s', i', hin', hk, hc⟩
        · exact .inl ⟨hlength, .hop hend hmore hc⟩
        · exact .inr ⟨s', i', hin', hk, fun visited r h => .hop hend hmore (hc visited r h)⟩
      · refine .inl ⟨?_, .stop hend (Nat.le_of_not_lt hmore)⟩
        by_contra hshort
        -- a place that is left would be in a later segment
        obtain ⟨⟨s', i'⟩, hrest⟩ := List.exists_mem_of_ne_nil _
          (mt List.drop_eq_nil_iff.mp hshort)
        have hfrom := ha.ahead _ hrest
        have hmem := List.mem_of_mem_drop hrest
        have hin' := Pool.mem_positions_iff.mp hmem
        have hsegment := Pool.lt_size_of_mem_positions hmem
        rcases hfrom with hlater | ⟨rfl, hle⟩
        · omega
        · omega

end Ahead

/-- The loop ends after as many rounds as there were objects. -/
theorem exists_chases (ht : ∃ moves, Tracked h moves e) (ha : Ahead k s i e)
    (hn : k + n = h.ephemeral.objectCount) :
    ∃ visited, Chases s i e visited ((List.range' k n).forM scanCopy e) := by
  induction n generalizing k s i e with
  | zero =>
      obtain ⟨moves, ht⟩ := ht
      have hle := ht.length_le
      rcases ha.hops with ⟨-, hc⟩ | ⟨s', i', -, hk, -⟩
      · exact ⟨[], hc⟩
      · have hlt := (List.getElem?_eq_some_iff.mp hk).1
        rw [ht.positions, List.length_map] at hlt
        omega
  | succ n ih =>
      rcases ha.hops with ⟨hlength, hc⟩ | ⟨s', i', hin, hk, hc⟩
      · obtain ⟨moves, ht⟩ := ht
        rw [ht.positions, List.length_map, ← ht.size_copies] at hlength
        rw [scanCopies_of_size_le hlength]
        exact ⟨[], hc⟩
      · have hafter := (invariant_tracked h).scanCopy k e ht
        obtain ⟨more, hmore⟩ := positions_scanPlace s' i' e
        obtain ⟨moves, ht⟩ := ht
        obtain ⟨a, ha, rfl, rfl⟩ := ht.getElem?_copies hk
        rw [scanCopy_eq ha] at hafter
        rw [List.range'_succ, List.forM_eq_forM, List.forM_cons, bind_run, scanCopy_eq ha]
        cases hrun : scanPlace a.segment a.index e with
        | error fault e' => exact ⟨_, hc _ _ (.fail hin hrun)⟩
        | ok _ e' =>
            rw [hrun] at hafter hmore
            have hk' : e'.target.positions[k]? = some (a.segment, a.index) := by
              rw [show e'.target.positions = _ from hmore, List.getElem?_append_left
                (List.getElem?_eq_some_iff.mp hk).1, hk]
            obtain ⟨visited, hrest⟩ := ih hafter (.of_getElem? hk') (by omega)
            exact ⟨_, hc _ _ (.scan hin hrun hrest)⟩

/-- The root pool is scanned before the loop over the copies begins. -/
inductive Scans : Evacuation → List (Nat × Nat) → EStateM.Result HeapFault Evacuation Unit →
    Prop where
  /-- There is a fault in the root pool. -/
  | fail {e e' : Evacuation} {fault : HeapFault} :
      (e.root.positions.forM fun (s, i) => scanRoot s i) e = .error fault e' →
      Scans e [] (.error fault e')
  | chase {e e' : Evacuation} {visited : List (Nat × Nat)}
      {r : EStateM.Result HeapFault Evacuation Unit} :
      (e.root.positions.forM fun (s, i) => scanRoot s i) e = .ok () e' →
      Chases 0 0 e' visited r → Scans e visited r

namespace Scans

variable {visited visited' : List (Nat × Nat)} {r r' : EStateM.Result HeapFault Evacuation Unit}

theorem nodup (hs : Scans e visited r) : visited.Nodup := by
  cases hs with
  | fail => exact List.nodup_nil
  | chase _ hc => exact hc.nodup

theorem unique (hs : Scans e visited r) (hs' : Scans e visited' r') :
    visited' = visited ∧ r' = r := by
  cases hs with
  | fail hroots =>
      cases hs' with
      | fail hroots' =>
          cases hroots.symm.trans hroots'
          exact ⟨rfl, rfl⟩
      | chase hroots' => cases hroots.symm.trans hroots'
  | chase hroots hc =>
      cases hs' with
      | fail hroots' => cases hroots.symm.trans hroots'
      | chase hroots' hc' =>
          cases hroots.symm.trans hroots'
          exact hc.unique hc'

end Scans

theorem exists_scans (ht : ∃ moves, Tracked h moves e) : ∃ visited, Scans e visited (scan e) := by
  have hafter : ∃ moves, Tracked h moves
      (stateAfter ((e.root.positions.forM fun (s, i) => scanRoot s i) e)) :=
    Keeps.forM (fun (place : Nat × Nat) _ => (invariant_tracked h).scanRoot place.1 place.2) e ht
  have hscan : scan e = ((e.root.positions.forM fun (s, i) => scanRoot s i) >>= fun _ => do
      (List.range (← get).source.objectCount).forM scanCopy) e := rfl
  rw [hscan, bind_run]
  cases hroots : (e.root.positions.forM fun (s, i) => scanRoot s i) e with
  | error fault e' => exact ⟨[], .fail hroots⟩
  | ok _ e' =>
      rw [hroots, stateAfter_ok] at hafter
      obtain ⟨moves, hmoves⟩ := hafter
      obtain ⟨visited, hc⟩ := exists_chases ⟨moves, hmoves⟩ (.start e') (Nat.zero_add _)
      rw [← List.range_eq_range', ← hmoves.count] at hc
      exact ⟨visited, .chase hroots hc⟩

end Evacuation

/-! ## The theorem -/

namespace Heap

open Evacuation

/-- What a collection answers after the scan, with the relocated roots. -/
def conclude (h : Heap) (out : Array Value) :
    EStateM.Result HeapFault Evacuation Unit → Collected
  | .error fault e => ⟨.error fault, out.toList, h.withPools e⟩
  | .ok _ e => ⟨.ok ⟨e.target.epoch, e.copies.size, e.words, h.ephemeral.segments.size,
      e.target.segments.size⟩, out.toList, h.afterScan e⟩

/-- How a collection goes whose loop over the copies is without a bound: the places it scans, the
evacuation it ends with and what it answers. -/
inductive Collects (h : Heap) (roots : List Value) :
    List (Nat × Nat) → Evacuation → Collected → Prop where
  /-- There is a fault in the roots. -/
  | fail {out : Array Value} {e : Evacuation} {fault : HeapFault} :
      relocateEach roots h.startEvacuation = (out, e, some fault) →
      Collects h roots [] e ⟨.error fault, out.toList, h.withPools e⟩
  | scan {out : Array Value} {e : Evacuation} {visited : List (Nat × Nat)}
      {r : EStateM.Result HeapFault Evacuation Unit} :
      relocateEach roots h.startEvacuation = (out, e, none) → Scans e visited r →
      Collects h roots visited (stateAfter r) (h.conclude out r)

namespace Collects

variable {h : Heap} {roots : List Value} {visited visited' : List (Nat × Nat)} {e e' : Evacuation}
  {c c' : Collected}

theorem nodup (hc : Collects h roots visited e c) : visited.Nodup := by
  cases hc with
  | fail => exact List.nodup_nil
  | scan _ hs => exact hs.nodup

theorem unique (hc : Collects h roots visited e c) (hc' : Collects h roots visited' e' c') :
    visited' = visited ∧ e' = e ∧ c' = c := by
  cases hc with
  | fail hroots =>
      cases hc' with
      | fail hroots' =>
          cases hroots.symm.trans hroots'
          exact ⟨rfl, rfl, rfl⟩
      | scan hroots' => cases hroots.symm.trans hroots'
  | scan hroots hs =>
      cases hc' with
      | fail hroots' => cases hroots.symm.trans hroots'
      | scan hroots' hs' =>
          cases hroots.symm.trans hroots'
          obtain ⟨rfl, rfl⟩ := hs.unique hs'
          exact ⟨rfl, rfl, rfl⟩

theorem objectsCopied_eq (hc : Collects h roots visited e c) {cycle : Cycle}
    (hresult : c.result = .ok cycle) : cycle.objectsCopied = e.copies.size := by
  cases hc with
  | fail => cases hresult
  | @scan _ _ _ r =>
      cases r with
      | error => cases hresult
      | ok =>
          cases hresult
          rfl

end Collects

theorem exists_collects (h : Heap) (roots : List Value) : ∃ visited e,
    Collects h roots visited e (h.collect roots) ∧ ∃ moves, Tracked h moves e := by
  have hstart : ∃ moves, Tracked h moves h.startEvacuation := ⟨[], .startEvacuation h⟩
  have hafter := (invariant_tracked h).relocateEach roots hstart
  rcases hroots : relocateEach roots h.startEvacuation with ⟨out, e, fault⟩
  rw [hroots] at hafter
  cases fault with
  | some fault =>
      have hcollect : h.collect roots = ⟨.error fault, out.toList, h.withPools e⟩ := by
        simp only [collect, hroots]
      rw [hcollect]
      exact ⟨[], e, .fail hroots, hafter⟩
  | none =>
      have hcollect : h.collect roots = h.conclude out (scan e) := by
        simp only [collect, hroots]
        cases Evacuation.scan e with
        | ok => rfl
        | error => rfl
      obtain ⟨visited, hs⟩ := exists_scans hafter
      rw [hcollect]
      exact ⟨visited, _, .scan hroots hs, (invariant_tracked h).scan e hafter⟩

/-- Every collection ends, whatever the heap and the roots are like.  It copies no object twice, makes
no more copies than there were objects and scans none of them twice. -/
theorem collect_ends (h : Heap) (roots : List Value) : ∃ visited e, ∃ moves : Moves,
    Collects h roots visited e (h.collect roots) ∧
      (∀ visited' e' c, Collects h roots visited' e' c →
        visited' = visited ∧ e' = e ∧ c = h.collect roots) ∧
      e.copies.toList = moves.map Prod.snd ∧ (moves.map Prod.fst).Nodup ∧
      (∀ move ∈ moves, (∃ o, h.ephemeral.get move.1 = .ok o) ∧ e.Forwards move.1 move.2) ∧
      e.copies.size ≤ h.ephemeral.objectCount ∧
      (∀ cycle, (h.collect roots).result = .ok cycle → cycle.objectsCopied = e.copies.size) ∧
      e.target.positions = moves.map (fun move => (move.2.segment, move.2.index)) ∧
      visited.Nodup := by
  obtain ⟨visited, e, hc, moves, ht⟩ := exists_collects h roots
  refine ⟨visited, e, moves, hc, fun _ _ _ hc' => hc.unique hc', ht.copies_eq, ht.nodup, ?_, ?_,
    fun _ => hc.objectsCopied_eq, ht.positions, hc.nodup⟩
  · intro move hmove
    obtain ⟨o, ho, -⟩ := ht.original move hmove
    exact ⟨⟨o, ho⟩, ht.marked move hmove⟩
  · rw [ht.size_copies]
    exact ht.length_le

end Heap

end MessageMachine
