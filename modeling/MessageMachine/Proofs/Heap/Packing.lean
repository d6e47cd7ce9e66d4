import Mathlib.Algebra.Order.BigOperators.Group.Finset
import Mathlib.Data.List.Chain
import MessageMachine.Proofs.Heap.Accounting
import MessageMachine.Proofs.Heap.Repetition

/-!
# A heap that is half full can be collected

A pool fills its segments one after the other and never goes back, so space is lost at the end of
each segment.  But a segment is given up only for an object that does not fit into it, and this
object opens the next one: two segments in a row hold more than one segment can.  This bounds what
is lost, whatever the sizes of the objects and their order.

* `Pool.layout`: the words and the number of the objects of each segment.
* `Pool.Packed`: two segments in a row hold more words than one may.  Adding an object keeps this
  (`Packed.push`), and replacing one does (`Packed.update`).
* `Packed.exists_reserve`: a packed pool of `M` segments has room for an object as long as its words
  and those of the object are no more than `(M + 1) / 2` segments hold.
* `Evacuation.Economical`: the pool that a collection fills is packed and holds what has been
  copied.

An object is copied once, so what has been copied and the next object together are never more than
all that is reachable (`Progress.moved_le`).  So no step of the collection runs out of segments
(`Progress.exists_evacuate`); the remaining lemmas carry this over the roots, the root pool and the
copies in the way in which `Progress` is carried.

The number of objects in a segment is bounded as well, but a segment of `2 ^ 21` words is full before
it holds too many objects, since a header alone takes two words.
-/

namespace MessageMachine

/-! ## Neighbours -/

/-- If any two neighbours have a sum of at least `c`, then each pair in the list counts for `c`. -/
theorem half_length_mul_le_sum {c : Nat} :
    ∀ {l : List Nat}, l.IsChain (fun u v => c ≤ u + v) → l.length / 2 * c ≤ l.sum
  | [], _ => by simp
  | [_], _ => by simp
  | u :: v :: l, hchain => by
      have hrest : l.length / 2 * c ≤ l.sum :=
        half_length_mul_le_sum (List.IsChain.tail (List.IsChain.tail hchain))
      have hpair : c ≤ u + v := (List.isChain_cons_cons.mp hchain).1
      calc (u :: v :: l).length / 2 * c = (l.length / 2 + 1) * c := by
            rw [List.length_cons, List.length_cons]
            congr 1
            omega
        _ = c + l.length / 2 * c := by rw [Nat.add_mul, Nat.one_mul, Nat.add_comm]
        _ ≤ (u + v) + l.sum := Nat.add_le_add hpair hrest
        _ = (u :: v :: l).sum := by simp [Nat.add_assoc]

/-- A chain goes on with one more element that follows on the last one. -/
theorem isChain_concat {α : Type} {R : α → α → Prop} {init : List α} {a b : α}
    (hchain : (init ++ [a]).IsChain R) (hlast : R a b) : (init ++ [a] ++ [b]).IsChain R := by
  rw [List.append_assoc, List.singleton_append, List.isChain_append_cons_cons]
  exact ⟨hchain, hlast, List.isChain_singleton b⟩

/-- The last element of a chain may be replaced by one that follows on everything the old one
follows on. -/
theorem isChain_replace_last {α : Type} {R : α → α → Prop} {init : List α} {a b : α}
    (hchain : (init ++ [a]).IsChain R) (hreplace : ∀ c, R c a → R c b) :
    (init ++ [b]).IsChain R := by
  rw [List.isChain_append] at hchain ⊢
  refine ⟨hchain.1, List.isChain_singleton b, ?_⟩
  intro c hc d hd
  obtain rfl : b = d := by simpa using hd
  exact hreplace c (hchain.2.2 c hc a rfl)

/-! ## Packed pools -/

theorem Object.headerWords_le_words (o : Object) : headerWords ≤ o.words := Nat.le_add_right ..

namespace Pool

/-- The words and the number of the objects of each segment. -/
def layout (p : Pool) : List (Nat × Nat) := p.segments.toList.map Segment.extent

theorem usedWords_eq_sum (p : Pool) : p.usedWords = (p.layout.map Prod.fst).sum := by
  rw [usedWords, layout, List.map_map, ← Array.foldl_toList, List.sum_eq_foldl, List.foldl_map]
  rfl

theorem length_layout (p : Pool) : p.layout.length = p.segments.size := by
  simp [layout]

@[simp] theorem segmentWords_push (p : Pool) (o : Object) :
    (p.push o).segmentWords = p.segmentWords := by
  rw [push_eq]
  split <;> rfl

@[simp] theorem maxSegments_push (p : Pool) (o : Object) :
    (p.push o).maxSegments = p.maxSegments := by
  rw [push_eq]
  split <;> rfl

theorem layout_update (p : Pool) (s i : Nat) (f : Object → Object) :
    (p.update s i f).layout = p.layout := by
  rw [layout, layout, ← Array.toList_map, Repeats.extents_update, Array.toList_map]

theorem usedWords_update (p : Pool) (s i : Nat) (f : Object → Object) :
    (p.update s i f).usedWords = p.usedWords := by
  rw [usedWords_eq_sum, layout_update, ← usedWords_eq_sum]

/-- Whether a segment is needed, told by the last segment. -/
theorem needsSegment_of_layout {p : Pool} {init : List (Nat × Nat)} {used count words : Nat}
    (hlayout : p.layout = init ++ [(used, count)]) :
    p.needsSegment words = true ↔ p.segmentWords < used + words ∨ Handle.maxIndex < count := by
  have hback : p.segments.back?.map Segment.extent = some (used, count) := by
    rw [← Array.getLast?_toList, ← List.getLast?_map]
    change p.layout.getLast? = _
    rw [hlayout, List.getLast?_concat]
  obtain ⟨seg, hseg, hextent⟩ := Option.map_eq_some_iff.mp hback
  obtain ⟨rfl, rfl⟩ := Prod.mk.inj hextent
  simp [needsSegment, hseg]

theorem layout_push_of_needs {p : Pool} {o : Object} (hneeds : p.needsSegment o.words = true) :
    (p.push o).layout = p.layout ++ [(o.words, 1)] := by
  rw [push_eq, if_pos hneeds]
  simp [layout, Segment.extent, Segment.push, Segment.empty]

theorem layout_push_of_fits {p : Pool} {o : Object} {init : List (Nat × Nat)} {used count : Nat}
    (hlayout : p.layout = init ++ [(used, count)]) (hfits : ¬p.needsSegment o.words = true) :
    (p.push o).layout = init ++ [(used + o.words, count + 1)] := by
  obtain ⟨before, rest, hsegments, rfl, hrest⟩ := List.map_eq_append_iff.mp hlayout
  obtain ⟨seg, rfl, hextent⟩ := List.map_eq_singleton_iff.mp hrest
  obtain ⟨rfl, rfl⟩ := Prod.mk.inj hextent
  have hsize : p.segments.size - 1 = before.length := by
    rw [← Array.length_toList, hsegments]
    simp
  have hmodify : (before ++ [seg]).modify before.length (·.push o) = before ++ [seg.push o] := by
    rw [List.modify_eq_take_cons_drop (by simp)]
    simp
  rw [push_eq, if_neg hfits, layout, Array.toList_modify, hsize, hsegments, hmodify]
  simp [Segment.extent, Segment.push]

/-- Two segments in a row hold more words than one may, and no segment holds more objects than its
words have room for. -/
structure Packed (p : Pool) : Prop where
  started : p.layout ≠ []
  pairs : (p.layout.map Prod.fst).IsChain fun u v => p.segmentWords + 1 ≤ u + v
  headers : ∀ extent ∈ p.layout, extent.2 * headerWords ≤ extent.1

theorem packed_empty (space : Space) (epoch segmentWords maxSegments : Nat) :
    (Pool.empty space epoch segmentWords maxSegments).Packed := by
  have hlayout : (Pool.empty space epoch segmentWords maxSegments).layout = [(0, 0)] := rfl
  refine ⟨?_, ?_, ?_⟩ <;> rw [hlayout]
  · exact List.cons_ne_nil _ _
  · exact List.isChain_singleton _
  · simp

namespace Packed

variable {p : Pool} {o : Object}

theorem exists_last (hp : p.Packed) : ∃ init used count, p.layout = init ++ [(used, count)] := by
  obtain hnil | ⟨init, ⟨used, count⟩, hlast⟩ := List.eq_nil_or_concat p.layout
  · exact absurd hnil hp.started
  · exact ⟨init, used, count, by simpa using hlast⟩

/-- A new segment is opened only for an object that would be too much for the last one: so many
objects that no position is left take more words than there are. -/
theorem overflow (hp : p.Packed) (hsmall : p.segmentWords ≤ 2 ^ 21) {init : List (Nat × Nat)}
    {used count : Nat} (hlayout : p.layout = init ++ [(used, count)])
    (hneeds : p.needsSegment o.words = true) : p.segmentWords + 1 ≤ used + o.words := by
  obtain hwords | hcount := (needsSegment_of_layout hlayout).mp hneeds
  · exact hwords
  · have hheaders : count * headerWords ≤ used := hp.headers (used, count) (by simp [hlayout])
    have hobject : headerWords ≤ o.words := o.headerWords_le_words
    simp only [Handle.maxIndex, headerWords] at hcount hheaders hobject
    omega

/-- The words of the segments, with those of an object that needs one more. -/
theorem pairs_concat (hp : p.Packed) (hsmall : p.segmentWords ≤ 2 ^ 21)
    (hneeds : p.needsSegment o.words = true) :
    (p.layout.map Prod.fst ++ [o.words]).IsChain fun u v => p.segmentWords + 1 ≤ u + v := by
  obtain ⟨init, used, count, hlayout⟩ := hp.exists_last
  have hpairs := hp.pairs
  rw [hlayout, List.map_append, List.map_singleton] at hpairs ⊢
  exact isChain_concat hpairs (hp.overflow hsmall hlayout hneeds)

theorem push (hp : p.Packed) (hsmall : p.segmentWords ≤ 2 ^ 21) : (p.push o).Packed := by
  by_cases hneeds : p.needsSegment o.words = true
  · have hlayout := layout_push_of_needs hneeds
    constructor
    case started => simp [hlayout]
    case pairs =>
      rw [hlayout, segmentWords_push, List.map_append, List.map_singleton]
      exact hp.pairs_concat hsmall hneeds
    case headers =>
      intro extent hmem
      rw [hlayout, List.mem_append, List.mem_singleton] at hmem
      obtain hmem | rfl := hmem
      · exact hp.headers extent hmem
      · rw [Nat.one_mul]
        exact o.headerWords_le_words
  · obtain ⟨init, used, count, hbefore⟩ := hp.exists_last
    have hlayout := layout_push_of_fits hbefore hneeds
    constructor
    case started => simp [hlayout]
    case pairs =>
      have hpairs := hp.pairs
      rw [hbefore, List.map_append, List.map_singleton] at hpairs
      rw [hlayout, segmentWords_push, List.map_append, List.map_singleton]
      exact isChain_replace_last hpairs fun c hc => hc.trans (by omega)
    case headers =>
      intro extent hmem
      rw [hlayout, List.mem_append, List.mem_singleton] at hmem
      obtain hmem | rfl := hmem
      · exact hp.headers extent (by simp [hbefore, hmem])
      · have hheaders : count * headerWords ≤ used := hp.headers (used, count) (by simp [hbefore])
        calc (count + 1) * headerWords = count * headerWords + headerWords := Nat.succ_mul ..
          _ ≤ used + o.words := Nat.add_le_add hheaders o.headerWords_le_words

theorem update (hp : p.Packed) (s i : Nat) (f : Object → Object) : (p.update s i f).Packed := by
  refine ⟨?_, ?_, ?_⟩ <;> rw [layout_update]
  · exact hp.started
  · exact hp.pairs
  · exact hp.headers

theorem usedWords_push (hp : p.Packed) : (p.push o).usedWords = p.usedWords + o.words := by
  rw [usedWords_eq_sum, usedWords_eq_sum]
  by_cases hneeds : p.needsSegment o.words = true
  · simp [layout_push_of_needs hneeds]
  · obtain ⟨init, used, count, hbefore⟩ := hp.exists_last
    simp [layout_push_of_fits hbefore hneeds, hbefore, Nat.add_assoc]

/-- With no segment left, the words in use and those of the object that needs one would make a list
in which each of the `(M + 1) / 2` pairs of neighbours counts for more than a segment. -/
theorem exists_reserve (hp : p.Packed) (hsmall : p.segmentWords ≤ 2 ^ 21)
    (hhalf : p.usedWords + o.words ≤ (p.maxSegments + 1) / 2 * p.segmentWords) :
    ∃ a, p.reserve o.words = .ok a := by
  unfold reserve
  by_cases hneeds : p.needsSegment o.words = true
  · rw [if_pos hneeds, if_neg]
    · exact ⟨_, rfl⟩
    · intro hfull
      have hcount := half_length_mul_le_sum (hp.pairs_concat hsmall hneeds)
      rw [List.length_append, List.length_map, length_layout, List.length_singleton,
        List.sum_append, List.sum_singleton, ← usedWords_eq_sum] at hcount
      have hstarted : 1 ≤ p.segments.size := by
        rw [← length_layout]
        exact List.length_pos_iff.mpr hp.started
      have hpairs : (p.maxSegments + 1) / 2 ≤ (p.segments.size + 1) / 2 := by omega
      have hsome : 1 ≤ (p.segments.size + 1) / 2 := by omega
      have hcontra : (p.segments.size + 1) / 2 * p.segmentWords + 1 ≤
          (p.segments.size + 1) / 2 * p.segmentWords :=
        calc (p.segments.size + 1) / 2 * p.segmentWords + 1
            ≤ (p.segments.size + 1) / 2 * (p.segmentWords + 1) := by
              rw [Nat.mul_succ]
              exact Nat.add_le_add_left hsome _
          _ ≤ p.usedWords + o.words := hcount
          _ ≤ (p.maxSegments + 1) / 2 * p.segmentWords := hhalf
          _ ≤ (p.segments.size + 1) / 2 * p.segmentWords := Nat.mul_le_mul_right _ hpairs
      exact Nat.not_succ_le_self _ hcontra
  · rw [if_neg hneeds]
    exact ⟨_, rfl⟩

end Packed

/-- The pool with objects added one after the other, as long as there are segments for them. -/
def fill : List Object → Pool → Except HeapFault Pool
  | [], p => .ok p
  | o :: os, p =>
    match p.reserve o.words with
    | .ok _ => fill os (p.push o)
    | .error fault => .error fault

theorem Packed.exists_fill {os : List Object} : ∀ {p : Pool}, p.Packed →
    p.segmentWords ≤ 2 ^ 21 →
    p.usedWords + (os.map Object.words).sum ≤ (p.maxSegments + 1) / 2 * p.segmentWords →
    ∃ q, fill os p = .ok q := by
  induction os with
  | nil => exact fun _ _ _ => ⟨_, rfl⟩
  | cons o os ih =>
      intro p hp hsmall hhalf
      rw [List.map_cons, List.sum_cons, ← Nat.add_assoc] at hhalf
      obtain ⟨a, hreserve⟩ := hp.exists_reserve hsmall ((Nat.le_add_right ..).trans hhalf)
      rw [fill, hreserve]
      refine ih (hp.push hsmall) ?_ ?_
      · rw [segmentWords_push]
        exact hsmall
      · rw [hp.usedWords_push, segmentWords_push, maxSegments_push]
        exact hhalf

end Pool

/-- A store into a field allocates nothing. -/
theorem Heap.layout_of_storeField {h h' : Heap} {v x : Value} {i : Nat} {u : Unit}
    (hstore : storeField v i x h = .ok u h') (space : Space) :
    (h'.pool space).layout = (h.pool space).layout := by
  obtain ⟨a, -, -, rfl, -⟩ := storeField_eq_ok hstore
  rw [(change_eq_ok hstore).2 a rfl]
  unfold update modifyPool
  cases a.space with
  | ephemeral =>
      cases space with
      | ephemeral => exact Pool.layout_update ..
      | root => rfl
  | root =>
      cases space with
      | ephemeral => rfl
      | root => exact Pool.layout_update ..

/-! ## The pool that a collection fills -/

/-- The pool being filled is packed, and it holds what has been copied. -/
structure Evacuation.Economical (settings : Heap.Settings) (e : Evacuation) : Prop where
  packed : e.target.Packed
  usedWords_eq : e.target.usedWords = e.words
  segmentWords_eq : e.target.segmentWords = settings.segmentWords
  maxSegments_eq : e.target.maxSegments = settings.maxEphemeralSegments

theorem Evacuation.invariant_economical {settings : Heap.Settings}
    (hsmall : settings.segmentWords ≤ 2 ^ 21) : Invariant (Economical settings) where
  copied {e a copy o} he _ _ _ := by
    refine ⟨he.packed.push (he.segmentWords_eq ▸ hsmall), ?_, ?_, ?_⟩
    · rw [he.packed.usedWords_push, he.usedWords_eq]
    · rw [Pool.segmentWords_push, he.segmentWords_eq]
    · rw [Pool.maxSegments_push, he.maxSegments_eq]
  rootScanned he _ _ := ⟨he.packed, he.usedWords_eq, he.segmentWords_eq, he.maxSegments_eq⟩
  copyScanned he _ _ _ := by
    refine ⟨he.packed.update .., ?_, he.segmentWords_eq, he.maxSegments_eq⟩
    rw [Pool.usedWords_update, he.usedWords_eq]

theorem Heap.economical_startEvacuation (h : Heap) :
    h.startEvacuation.Economical h.settings :=
  ⟨Pool.packed_empty .., rfl, rfl, rfl⟩

namespace Heap

/-- The reachable objects are all there, and their words are at most those of half the segments that
the ephemeral pool may have. -/
structure HalfFull (h : Heap) (roots : List Value) (reached : Finset Handle) : Prop where
  mem_iff : ∀ a, a ∈ reached ↔ Reachable h roots a
  current : ∀ a ∈ reached, ∃ o, h.ephemeral.get a = .ok o
  words_le : ∑ a ∈ reached, h.wordsAt a ≤
    (h.settings.maxEphemeralSegments + 1) / 2 * h.settings.segmentWords

namespace HalfFull

variable {h : Heap} {roots : List Value} {reached : Finset Handle}

/-- Distinct reachable objects take no more words than all of them. -/
theorem sum_le (hhalf : h.HalfFull roots reached) (handles : List Handle) (hnodup : handles.Nodup)
    (hreach : ∀ a ∈ handles, Reachable h roots a) :
    (handles.map h.wordsAt).sum ≤
      (h.settings.maxEphemeralSegments + 1) / 2 * h.settings.segmentWords := by
  have hsubset : handles.toFinset ⊆ reached := by
    intro a ha
    exact (hhalf.mem_iff a).mpr (hreach a (List.mem_toFinset.mp ha))
  calc (handles.map h.wordsAt).sum = ∑ a ∈ handles.toFinset, h.wordsAt a :=
        (List.sum_toFinset _ hnodup).symm
    _ ≤ ∑ a ∈ reached, h.wordsAt a := Finset.sum_le_sum_of_subset hsubset
    _ ≤ _ := hhalf.words_le

end HalfFull

end Heap

/-! ## No step runs out of segments -/

namespace Progress

open Evacuation Heap

variable {h : Heap} {roots : List Value} {reached : Finset Handle} {scanned : Nat} {moves : Moves}
  {e : Evacuation}

/-- What has been copied and an object that has not been copied are at most all that is
reachable. -/
theorem moved_le (hhalf : h.HalfFull roots reached)
    (hp : Progress h (Reachable h roots) scanned moves e) {a : Handle} {o : Object}
    (hget : h.ephemeral.get a = .ok o) (ha : Reachable h roots a) (hnew : moves.lookup a = none) :
    e.words + o.words ≤ (h.settings.maxEphemeralSegments + 1) / 2 * h.settings.segmentWords := by
  have hnotMem : a ∉ moves.map Prod.fst := by
    intro hmem
    obtain ⟨move, hmove, rfl⟩ := List.mem_map.mp hmem
    cases (Moves.lookup_of_mem hp.nodup_old hmove).symm.trans hnew
  have hsum := hhalf.sum_le (a :: moves.map Prod.fst)
    (List.nodup_cons.mpr ⟨hnotMem, hp.nodup_old⟩) ?_
  · rw [List.map_cons, List.sum_cons, List.map_map] at hsum
    have hwords : h.wordsAt a = o.words := by simp [wordsAt, hget]
    rw [hp.words_eq, Nat.add_comm, ← hwords]
    exact hsum
  · intro b hb
    obtain rfl | hb := List.mem_cons.mp hb
    · exact ha
    · obtain ⟨move, hmove, rfl⟩ := List.mem_map.mp hb
      exact hp.reach_old move hmove

theorem exists_evacuate (hsettled : h.Settled) (hhalf : h.HalfFull roots reached)
    (hsmall : h.settings.segmentWords ≤ 2 ^ 21)
    (hp : Progress h (Reachable h roots) scanned moves e) (he : e.Economical h.settings) {v : Value}
    (hv : ∀ a, v.Refers a → Reachable h roots a) : ∃ v' e', Evacuation.evacuate v e = .ok v' e' := by
  cases hhandle : v.handle? with
  | none => exact ⟨v, e, by simp [Evacuation.evacuate, hhandle]⟩
  | some a =>
      cases hspace : a.space with
      | root => exact ⟨v, e, by simp [Evacuation.evacuate, hhandle, hspace]⟩
      | ephemeral =>
          have ha : Reachable h roots a := hv a ⟨hhandle, hspace⟩
          obtain ⟨o, hget⟩ := hhalf.current a ((hhalf.mem_iff a).mpr ha)
          cases hlookup : moves.lookup a with
          | some copy =>
              have hmoved := (hp.lookup_eq_some_iff hsettled).mp hlookup
              exact ⟨_, _, evacuate_of_forwards hhandle hspace hmoved⟩
          | none =>
              have hsource : e.source.get a = .ok o := by
                rw [hp.source_get_of_ok hsettled hget, Moves.mark, hlookup]
              obtain ⟨copy, hreserve⟩ := he.packed.exists_reserve (he.segmentWords_eq ▸ hsmall)
                (o := o) (by
                  rw [he.usedWords_eq, he.segmentWords_eq, he.maxSegments_eq]
                  exact hp.moved_le hhalf hget ha hlookup)
              exact ⟨_, _, evacuate_of_live hhandle hspace hsource (hsettled.state_of_get hget)
                hreserve⟩

theorem exists_relocateAfter (hsettled : h.Settled) (hhalf : h.HalfFull roots reached)
    (hsmall : h.settings.segmentWords ≤ 2 ^ 21) {vs : List Value} :
    ∀ {moves : Moves} {e : Evacuation} (done : Array Value),
      Progress h (Reachable h roots) scanned moves e → e.Economical h.settings →
      (∀ v ∈ vs, ∀ a, v.Refers a → Reachable h roots a) →
      ∃ out e', Evacuation.relocateAfter done vs e = (out, e', none) := by
  induction vs with
  | nil => exact fun done _ _ _ => ⟨done, _, rfl⟩
  | cons v vs ih =>
      intro moves e done hp he hreach
      have hv := hreach v (List.mem_cons_self ..)
      obtain ⟨moved, e₁, hrun⟩ := hp.exists_evacuate hsettled hhalf hsmall he hv
      obtain ⟨more, hp₁, -, -, -⟩ := hp.evacuate hsettled hv hrun
      have he₁ := keeps_evacuate (invariant_economical hsmall).copied v e he
      rw [hrun, stateAfter_ok] at he₁
      rw [Evacuation.relocateAfter, hrun]
      exact ih _ hp₁ he₁ fun w hw => hreach w (List.mem_cons_of_mem _ hw)

theorem exists_relocateEach (hsettled : h.Settled) (hhalf : h.HalfFull roots reached)
    (hsmall : h.settings.segmentWords ≤ 2 ^ 21)
    (hp : Progress h (Reachable h roots) scanned moves e) (he : e.Economical h.settings)
    (vs : List Value) (hreach : ∀ v ∈ vs, ∀ a, v.Refers a → Reachable h roots a) :
    ∃ out e', Evacuation.relocateEach vs e = (out, e', none) :=
  hp.exists_relocateAfter hsettled hhalf hsmall _ he hreach

theorem exists_scanRoot (hsettled : h.Settled) (hhalf : h.HalfFull roots reached)
    (hsmall : h.settings.segmentWords ≤ 2 ^ 21)
    (hp : Progress h (Reachable h roots) scanned moves e) (he : e.Economical h.settings)
    {places : List (Nat × Nat)} (hroots : RootsScanned h places moves e) {s i : Nat}
    (hnew : (s, i) ∉ places) : ∃ e', Evacuation.scanRoot s i e = .ok () e' := by
  have hat : e.root.at? s i = h.root.at? s i := by
    rw [hroots.root_at?, if_neg hnew]
  unfold Evacuation.scanRoot
  cases ho : h.root.at? s i with
  | none =>
      rw [hat, ho]
      exact ⟨_, rfl⟩
  | some o =>
      obtain ⟨out, e₁, hrelocate⟩ := hp.exists_relocateEach hsettled hhalf hsmall he
        o.references fun v hv a ha => .permanent ho hv ha
      simp only [hat, ho, hrelocate]
      exact ⟨_, rfl⟩

theorem exists_scanRoots (hsettled : h.Settled) (hhalf : h.HalfFull roots reached)
    (hsmall : h.settings.segmentWords ≤ 2 ^ 21) {todo : List (Nat × Nat)} :
    ∀ {places : List (Nat × Nat)} {moves : Moves} {e : Evacuation},
      Progress h (Reachable h roots) scanned moves e → e.Economical h.settings →
      RootsScanned h places moves e → (places ++ todo).Nodup →
      ∃ e', (todo.forM fun (s, i) => Evacuation.scanRoot s i) e = .ok () e' := by
  induction todo with
  | nil => exact fun _ _ _ _ => ⟨_, rfl⟩
  | cons place todo ih =>
      intro places moves e hp he hroots hnodup
      obtain ⟨s, i⟩ := place
      have hnew : (s, i) ∉ places := by
        intro hmem
        exact (List.nodup_append.mp hnodup).2.2 (s, i) hmem (s, i) (List.mem_cons_self ..) rfl
      obtain ⟨e₁, hfirst⟩ := hp.exists_scanRoot hsettled hhalf hsmall he hroots hnew
      obtain ⟨more, hp₁, hroots₁⟩ := hp.scanRoot hsettled hroots hnew
        (fun o ho v hv a ha => .permanent ho hv ha) hfirst
      have he₁ := (invariant_economical hsmall).scanRoot s i e he
      rw [hfirst, stateAfter_ok] at he₁
      obtain ⟨e', hrest⟩ := ih hp₁ he₁ hroots₁ (List.perm_middle.nodup_iff.mp hnodup)
      exact ⟨e', bind_eq_ok.mpr ⟨(), e₁, hfirst, hrest⟩⟩

theorem exists_scanCopy (hsettled : h.Settled) (hhalf : h.HalfFull roots reached)
    (hsmall : h.settings.segmentWords ≤ 2 ^ 21) {k : Nat}
    (hp : Progress h (Reachable h roots) (min k moves.length) moves e)
    (he : e.Economical h.settings) : ∃ e', Evacuation.scanCopy k e = .ok () e' := by
  have hcopies : e.copies[k]? = moves[k]?.map Prod.snd := by
    rw [← Array.getElem?_toList, hp.copies_eq, List.getElem?_map]
  unfold Evacuation.scanCopy
  cases hmove : moves[k]? with
  | none =>
      rw [hcopies, hmove]
      exact ⟨_, rfl⟩
  | some move =>
      obtain ⟨a, copy⟩ := move
      obtain ⟨o, hget, -, hunscanned⟩ := hp.copied k a copy hmove
      obtain ⟨-, -, hat⟩ := Pool.get_eq_ok_iff.mp (hunscanned (Nat.min_le_left ..))
      have ha : Reachable h roots a := hp.reach_old (a, copy) (List.mem_of_getElem? hmove)
      obtain ⟨out, e₁, hrelocate⟩ := hp.exists_relocateEach hsettled hhalf hsmall he
        o.references fun v hv b hb => .step ha hget hv hb
      simp only [hcopies, hmove, Option.map_some, hat, hrelocate]
      exact ⟨_, rfl⟩

theorem exists_scanCopies (hsettled : h.Settled) (hhalf : h.HalfFull roots reached)
    (hsmall : h.settings.segmentWords ≤ 2 ^ 21) (count : Nat) :
    ∀ (k : Nat) {moves : Moves} {e : Evacuation},
      Progress h (Reachable h roots) (min k moves.length) moves e → e.Economical h.settings →
      ∃ e', ((List.range' k count).forM Evacuation.scanCopy) e = .ok () e' := by
  induction count with
  | zero => exact fun _ _ _ _ _ => ⟨_, rfl⟩
  | succ count ih =>
      intro k moves e hp he
      obtain ⟨e₁, hfirst⟩ := hp.exists_scanCopy hsettled hhalf hsmall he
      obtain ⟨more, hp₁, -⟩ := hp.scanCopy hsettled rfl
        (fun a o ha hget v hv b hb => .step ha hget hv hb) hfirst
      have he₁ := (invariant_economical hsmall).scanCopy k e he
      rw [hfirst, stateAfter_ok] at he₁
      obtain ⟨e', hrest⟩ := ih _ hp₁ he₁
      rw [List.range'_succ]
      exact ⟨e', bind_eq_ok.mpr ⟨(), e₁, hfirst, hrest⟩⟩

end Progress

namespace Heap

variable {h : Heap} {roots : List Value} {reached : Finset Handle}

/-- A collection of a half full heap comes to its end. -/
theorem HalfFull.exists_collect (hhalf : h.HalfFull roots reached) (hsettled : h.Settled)
    (hsmall : h.settings.segmentWords ≤ 2 ^ 21) : ∃ cycle, (h.collect roots).result = .ok cycle := by
  have hinvariant := Evacuation.invariant_economical hsmall
  -- the roots
  have hstart := progress_startEvacuation h (Reachable h roots)
  have hreach : ∀ v ∈ roots, ∀ a, v.Refers a → Reachable h roots a :=
    fun v hv a ha => .root hv ha
  obtain ⟨out, e, hroots⟩ := hstart.exists_relocateEach hsettled hhalf hsmall
    h.economical_startEvacuation _ hreach
  obtain ⟨moves, hp, -, -, hroot⟩ := hstart.relocateEach hsettled hreach hroots
  have he := hinvariant.relocateEach roots h.economical_startEvacuation
  rw [hroots] at he
  -- the root pool
  have hnodup : ([] ++ e.root.positions).Nodup := by simpa using e.root.nodup_positions
  obtain ⟨e₁, hscanRoots⟩ := hp.exists_scanRoots hsettled hhalf hsmall he
    (Progress.rootsScanned_nil hroot) hnodup
  obtain ⟨more, hp₁, -, -, -⟩ := hp.scanRoots hsettled (Progress.rootsScanned_nil hroot) hnodup
    (fun s i o ho v hv a ha => .permanent ho hv ha) hscanRoots
  have he₁ : e₁.Economical h.settings := by
    have hkeeps : Keeps (Evacuation.Economical h.settings)
        (e.root.positions.forM fun (s, i) => Evacuation.scanRoot s i) :=
      Keeps.forM fun place _ => hinvariant.scanRoot place.1 place.2
    have hafter := hkeeps e he
    rwa [hscanRoots, stateAfter_ok] at hafter
  -- the copies
  obtain ⟨e₂, hscanCopies⟩ := Progress.exists_scanCopies hsettled hhalf hsmall
    e₁.source.objectCount 0 (by simpa using hp₁) he₁
  have hscan : Evacuation.scan e = .ok () e₂ := by
    refine bind_eq_ok.mpr ⟨e, e, rfl, bind_eq_ok.mpr ⟨(), e₁, hscanRoots, ?_⟩⟩
    refine bind_eq_ok.mpr ⟨e₁, e₁, rfl, ?_⟩
    rw [List.range_eq_range']
    exact hscanCopies
  exact ⟨_, congrArg Collected.result (collect_of_runs hroots hscan)⟩

theorem mapM_get {order : List Handle} (hcurrent : ∀ a ∈ order, ∃ o, h.ephemeral.get a = .ok o) :
    ∃ objects, order.mapM h.ephemeral.get = .ok objects ∧
      objects.map Object.words = order.map h.wordsAt := by
  induction order with
  | nil => exact ⟨[], rfl, rfl⟩
  | cons a order ih =>
      obtain ⟨o, hget⟩ := hcurrent a (List.mem_cons_self ..)
      obtain ⟨objects, hobjects, hwords⟩ := ih fun b hb => hcurrent b (List.mem_cons_of_mem _ hb)
      have hword : o.words = h.wordsAt a := by simp [wordsAt, hget]
      refine ⟨o :: objects, ?_, ?_⟩
      · rw [List.mapM_cons, hget, hobjects]
        rfl
      · rw [List.map_cons, List.map_cons, hwords, hword]

/-- The objects of a half full heap fit into the new pool in any order. -/
theorem HalfFull.exists_fill (hhalf : h.HalfFull roots reached)
    (hsmall : h.settings.segmentWords ≤ 2 ^ 21) {order : List Handle} (hnodup : order.Nodup)
    (hreach : ∀ a ∈ order, Reachable h roots a) :
    ∃ objects p, order.mapM h.ephemeral.get = .ok objects ∧
      Pool.fill objects h.startEvacuation.target = .ok p := by
  obtain ⟨objects, hobjects, hwords⟩ := mapM_get fun a ha =>
    hhalf.current a ((hhalf.mem_iff a).mpr (hreach a ha))
  have hstart := h.economical_startEvacuation
  obtain ⟨p, hp⟩ := hstart.packed.exists_fill hsmall (by
    rw [hwords, hstart.usedWords_eq]
    exact (Nat.zero_add _).trans_le (hhalf.sum_le _ hnodup hreach))
  exact ⟨objects, p, hobjects, hp⟩

/-! ## When the next collection is due -/

/-- The pool being filled has a segment. -/
theorem invariant_segments_pos : Evacuation.Invariant fun e => 0 < e.target.segments.size where
  copied {e _ _ o} he _ _ _ := by
    change 0 < (e.target.push o).segments.size
    rw [Pool.push_eq]
    split
    · rw [Array.size_push]
      exact Nat.succ_pos _
    · rw [Array.size_modify]
      exact he
  rootScanned he _ _ := he
  copyScanned {e s i _ f} he _ _ _ := by
    change 0 < (e.target.update s i f).segments.size
    rw [Pool.update_eq, Array.size_modify]
    exact he

theorem le_nextThreshold_iff {settings : Settings} {segments : Nat} (hpos : 0 < segments)
    (hle : segments ≤ settings.maxEphemeralSegments) :
    nextThreshold settings segments ≤ segments ↔ segments = settings.maxEphemeralSegments := by
  unfold nextThreshold
  omega

theorem Regular.needsCollection_iff (hr : Regular h) {cycle : Cycle}
    (hcycle : (h.collect roots).result = .ok cycle) :
    (h.collect roots).heap.needsCollection = true ↔
      (h.collect roots).heap.ephemeral.segments.size = h.settings.maxEphemeralSegments := by
  obtain ⟨e, hpos, -, hephemeral, hsettings⟩ :=
    invariant_segments_pos.collect (h := h) Nat.one_pos roots
  have hle := ((hr.collected hcycle).accounted .ephemeral).count_le
  rw [hsettings] at hle
  have hthreshold : (h.collect roots).heap.threshold =
      nextThreshold h.settings (h.collect roots).heap.ephemeral.segments.size := by
    have hcollect : h.collect roots = ⟨.ok cycle, (h.collect roots).roots, (h.collect roots).heap⟩ := by
      rw [← hcycle]
    obtain ⟨out, e, e', hroots, hscan⟩ := runs_of_collect hcollect
    rw [collect_of_runs hroots hscan]
    rfl
  rw [needsCollection, decide_eq_true_iff, hthreshold]
  exact le_nextThreshold_iff (hephemeral ▸ hpos) hle

/-- A collection of a heap that is at most half full succeeds, and its objects would fit into the new
pool in any other order as well.  After a collection that succeeds the next one is due at once only
if the survivors take up all segments. -/
theorem collect_halfFull (hr : Regular h) :
    (∀ roots reached, h.settings.segmentWords ≤ 2 ^ 21 → h.HalfFull roots reached →
      (∃ cycle, (h.collect roots).result = .ok cycle) ∧
      ∀ order : List Handle, order.Nodup → (∀ a ∈ order, Reachable h roots a) →
        ∃ objects p, order.mapM h.ephemeral.get = .ok objects ∧
          Pool.fill objects h.startEvacuation.target = .ok p) ∧
      ∀ roots cycle, (h.collect roots).result = .ok cycle →
        ((h.collect roots).heap.needsCollection = true ↔
          (h.collect roots).heap.ephemeral.segments.size = h.settings.maxEphemeralSegments) := by
  refine ⟨fun roots reached hsmall hhalf => ⟨?_, fun order hnodup hreach => ?_⟩, ?_⟩
  · exact hhalf.exists_collect hr.settled hsmall
  · exact hhalf.exists_fill hsmall hnodup hreach
  · exact fun roots cycle hcycle => hr.needsCollection_iff hcycle

theorem regular_cyclicHeap : Regular cyclicHeap := by
  have hcreate : create {} = .ok
      { settings := {}
        root := .empty .root 0 65536 16
        ephemeral := .empty .ephemeral 1 65536 1024
        threshold := 8
        collections := 0 } := by rfl
  refine (Regular.create hcreate).performAll ?_
  exact ⟨nofun, nofun, nofun, nofun, nofun, trivial⟩

/-- The cycle takes seven words of the 512 segments. -/
theorem collect_halfFull_cyclicHeap : ∃ reached, cyclicHeap.HalfFull [] reached ∧
    (∃ cycle, (cyclicHeap.collect []).result = .ok cycle) ∧
    (cyclicHeap.collect []).heap.needsCollection = false := by
  obtain ⟨out, moves, e, hf, -, -, -, -, hwords⟩ :=
    finished_of_collect regular_cyclicHeap.settled collect_cyclicHeap
  have hhalf : cyclicHeap.HalfFull [] (moves.map Prod.fst).toFinset := by
    constructor
    case mem_iff =>
      intro a
      rw [List.mem_toFinset]
      exact hf.mem_old_iff a
    case current =>
      intro a ha
      obtain ⟨move, hmove, rfl⟩ := List.mem_map.mp (List.mem_toFinset.mp ha)
      exact hf.progress.get_of_mem hmove
    case words_le =>
      rw [List.sum_toFinset _ hf.progress.nodup_old, List.map_map]
      refine (hf.progress.words_eq.symm.trans hwords.symm).trans_le ?_
      decide
  have hregular := collect_halfFull regular_cyclicHeap
  refine ⟨_, hhalf, (hregular.1 [] _ (by decide) hhalf).1, ?_⟩
  rw [Bool.eq_false_iff, ne_eq, hregular.2 [] _ (congrArg Collected.result collect_cyclicHeap)]
  decide +kernel

end Heap

end MessageMachine
