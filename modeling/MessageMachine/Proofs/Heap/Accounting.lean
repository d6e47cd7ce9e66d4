import Mathlib.Algebra.Order.BigOperators.Group.List
import Mathlib.Algebra.Order.Monoid.Canonical.Defs
import Mathlib.Algebra.Order.Ring.Nat
import MessageMachine.Proofs.Heap.Operations

/-!
# The books of a heap

Headers, segments and pools count words: a header those of its body, a segment those of its objects,
and a pool is bounded in segments.  `Regular h` says that all these counts are right and within the
settings, and that the objects of each pool are in the state of that pool.

`Regular` is kept by every operation, a collection having to succeed (`Regular.performed`).  The
accounts of segments are kept also while a collection is under way, since moving an object changes
no header; that the new objects are measured is read off the relocation instead.

* `Regular.inRange`: the handle of an object fits its places in a word.
* `performAll_regular`: all this after any sequence of operations.
-/

namespace MessageMachine

/-! ## Segments -/

/-- The words of a segment are counted and bounded. -/
structure Segment.Accounted (capacity : Nat) (seg : Segment) : Prop where
  used_eq : seg.usedWords = (seg.objects.map Object.words).sum
  used_le : seg.usedWords ≤ capacity
  /-- Positions have to fit into a handle. -/
  count_le : seg.objects.size ≤ Handle.maxIndex + 1

namespace Segment.Accounted

variable {capacity : Nat} {seg : Segment}

theorem empty (capacity : Nat) : Segment.empty.Accounted capacity :=
  ⟨by simp [Segment.empty], Nat.zero_le _, by simp [Segment.empty]⟩

theorem push (hs : seg.Accounted capacity) {o : Object} (hroom : seg.usedWords + o.words ≤ capacity)
    (hcount : seg.objects.size ≤ Handle.maxIndex) : (seg.push o).Accounted capacity := by
  constructor
  case used_eq => simp [Segment.push, hs.used_eq]
  case used_le => exact hroom
  case count_le =>
    rw [Segment.push, Array.size_push]
    omega

/-- A change that keeps the words of the object it changes. -/
theorem update (hs : seg.Accounted capacity) {i : Nat} {f : Object → Object}
    (hf : ∀ o, seg.objects[i]? = some o → (f o).words = o.words) :
    (seg.update i f).Accounted capacity := by
  have hwords : (seg.objects.modify i f).map Object.words = seg.objects.map Object.words := by
    apply Array.ext_getElem?
    intro k
    simp only [Array.getElem?_map, Array.getElem?_modify]
    split
    · next hk =>
      subst hk
      cases ho : seg.objects[i]? with
      | none => rfl
      | some o => simp [hf o ho]
    · rfl
  constructor
  case used_eq =>
    rw [Segment.update, hwords]
    exact hs.used_eq
  case used_le => exact hs.used_le
  case count_le =>
    rw [Segment.update, Array.size_modify]
    exact hs.count_le

/-- An object is no larger than its segment. -/
theorem words_le (hs : seg.Accounted capacity) {i : Nat} {o : Object}
    (ho : seg.objects[i]? = some o) : o.words ≤ capacity := by
  refine le_trans ?_ hs.used_le
  rw [hs.used_eq, ← Array.sum_toList, Array.toList_map]
  refine List.le_sum_of_mem (List.mem_map_of_mem ?_)
  exact Array.mem_toList_iff.mpr (Array.mem_of_getElem? ho)

end Segment.Accounted

/-! ## Pools -/

/-- The segment limit of a space. -/
def Heap.Settings.maxSegments (settings : Heap.Settings) : Space → Nat
  | .root => settings.maxRootSegments
  | .ephemeral => settings.maxEphemeralSegments

/-- The segments of a pool are accounted for, and within the settings. -/
structure Pool.Accounted (settings : Heap.Settings) (space : Space) (p : Pool) : Prop where
  space_eq : p.space = space
  epoch_le : p.epoch ≤ Handle.maxEpoch
  segmentWords_eq : p.segmentWords = settings.segmentWords
  maxSegments_eq : p.maxSegments = settings.maxSegments space
  count_le : p.segments.size ≤ settings.maxSegments space
  segment : ∀ (k : Nat) (seg : Segment), p.segments[k]? = some seg → seg.Accounted settings.segmentWords

namespace Pool.Accounted

variable {settings : Heap.Settings} {space : Space} {p : Pool}

theorem empty {epoch maxSegments : Nat} (hepoch : epoch ≤ Handle.maxEpoch)
    (hmax : maxSegments = settings.maxSegments space) (hpos : 0 < maxSegments) :
    (Pool.empty space epoch settings.segmentWords maxSegments).Accounted settings space := by
  subst hmax
  refine ⟨rfl, hepoch, rfl, rfl, hpos, ?_⟩
  intro k seg hseg
  cases k with
  | zero =>
      obtain rfl : Segment.empty = seg := by simpa [Pool.empty] using hseg
      exact .empty _
  | succ k => simp [Pool.empty] at hseg

/-- An object that fits into a segment may be added where `reserve` says. -/
theorem push (hp : p.Accounted settings space) {o : Object} {a : Handle}
    (hreserve : p.reserve o.words = .ok a) (hwords : o.words ≤ settings.segmentWords) :
    (p.push o).Accounted settings space := by
  unfold reserve at hreserve
  rw [Pool.push_eq]
  by_cases hneeds : p.needsSegment o.words = true
  · rw [if_pos hneeds] at hreserve ⊢
    split at hreserve
    · cases hreserve
    next hroom =>
    rw [hp.maxSegments_eq, Nat.not_le] at hroom
    refine ⟨hp.space_eq, hp.epoch_le, hp.segmentWords_eq, hp.maxSegments_eq, ?_, ?_⟩
    · rw [Array.size_push]
      exact hroom
    · intro k seg hseg
      rw [Array.getElem?_push] at hseg
      split at hseg
      · cases hseg
        exact (Segment.Accounted.empty _).push (by simpa [Segment.empty] using hwords)
          (by simp [Segment.empty])
      · exact hp.segment k seg hseg
  · rw [if_neg hneeds]
    refine ⟨hp.space_eq, hp.epoch_le, hp.segmentWords_eq, hp.maxSegments_eq, ?_, ?_⟩
    · rw [Array.size_modify]
      exact hp.count_le
    · intro k seg hseg
      obtain ⟨last, hlast, hback⟩ := back_of_not_needsSegment (by simpa using hneeds)
      rw [Array.getElem?_modify] at hseg
      split at hseg
      · next hk =>
        subst hk
        rw [hlast] at hseg
        cases hseg
        simp only [needsSegment, hback, Bool.or_eq_true, decide_eq_true_eq, not_or, Nat.not_lt,
          hp.segmentWords_eq] at hneeds
        exact (hp.segment _ _ hlast).push hneeds.1 hneeds.2
      · exact hp.segment k seg hseg

theorem update (hp : p.Accounted settings space) {s i : Nat} {f : Object → Object}
    (hf : ∀ o, p.at? s i = some o → (f o).words = o.words) :
    (p.update s i f).Accounted settings space := by
  refine ⟨hp.space_eq, hp.epoch_le, hp.segmentWords_eq, hp.maxSegments_eq, ?_, ?_⟩
  · rw [Pool.update_eq]
    rw [Array.size_modify]
    exact hp.count_le
  · intro k seg hseg
    rw [Pool.update_eq] at hseg
    rw [Array.getElem?_modify] at hseg
    split at hseg
    · next hk =>
      subst hk
      obtain ⟨old, hold, rfl⟩ := Option.map_eq_some_iff.mp hseg
      refine (hp.segment _ _ hold).update fun o ho => hf o ?_
      simp [at?_eq, hold, ho]
    · exact hp.segment k seg hseg

theorem at?_split {s i : Nat} {o : Object} (hat : p.at? s i = some o) :
    ∃ seg, p.segments[s]? = some seg ∧ seg.objects[i]? = some o := by
  simpa [at?_eq, Option.bind_eq_some_iff] using hat

theorem words_le (hp : p.Accounted settings space) {s i : Nat} {o : Object}
    (hat : p.at? s i = some o) : o.words ≤ settings.segmentWords := by
  obtain ⟨seg, hseg, ho⟩ := at?_split hat
  exact (hp.segment s seg hseg).words_le ho

/-- The handle of an object fits its places in a word, if the settings are accepted. -/
theorem inRange (hp : p.Accounted settings space) (hsettings : settings.defect? = none)
    {a : Handle} {o : Object} (hget : p.get a = .ok o) : a.InRange := by
  obtain ⟨-, hepoch, hat⟩ := Pool.get_eq_ok_iff.mp hget
  obtain ⟨seg, hseg, ho⟩ := at?_split hat
  obtain ⟨hsegment, -⟩ := Array.getElem?_eq_some_iff.mp hseg
  obtain ⟨hindex, -⟩ := Array.getElem?_eq_some_iff.mp ho
  have hcount := (hp.segment _ _ hseg).count_le
  have hlimit : settings.maxSegments space ≤ Handle.maxSegment + 1 := by
    unfold Heap.Settings.defect? at hsettings
    cases space <;> simp only [Heap.Settings.maxSegments] <;> grind
  have hsegments := hp.count_le
  exact ⟨hepoch ▸ hp.epoch_le, by omega, by omega⟩

end Pool.Accounted

/-! ## Heaps -/

namespace Heap

variable {h : Heap} {settings : Settings}

/-- All counts of a heap are right. -/
structure Regular (h : Heap) : Prop where
  accepted : h.settings.defect? = none
  accounted : ∀ space, (h.pool space).Accounted h.settings space
  object : ∀ space s i o, (h.pool space).at? s i = some o →
    o.Measured ∧ o.header.state = .initial space

theorem Settings.segmentWords_lt (haccepted : settings.defect? = none) :
    settings.segmentWords < 2 ^ 32 := by
  unfold Settings.defect? at haccepted
  grind

theorem Settings.maxSegments_pos (haccepted : settings.defect? = none) (space : Space) :
    0 < settings.maxSegments space := by
  unfold Settings.defect? at haccepted
  cases space <;> simp only [Settings.maxSegments] <;> grind

namespace Regular

theorem settled (hr : Regular h) : h.Settled where
  root_space := (hr.accounted .root).space_eq
  ephemeral_space := (hr.accounted .ephemeral).space_eq
  live s i o hat := (hr.object .ephemeral s i o hat).2

/-- The handle of an object fits its places in a word. -/
theorem inRange (hr : Regular h) {a : Handle} {o : Object} (hget : h.resolve a = .ok o) :
    a.InRange := (hr.accounted a.space).inRange hr.accepted hget

theorem create (hcreate : Heap.create settings = .ok h) : Regular h := by
  unfold Heap.create at hcreate
  split at hcreate
  · cases hcreate
  next haccepted =>
  cases hcreate
  have hpos := Settings.maxSegments_pos haccepted
  refine ⟨haccepted, ?_, ?_⟩
  · rintro (_ | _)
    · exact .empty (by decide) rfl (hpos .ephemeral)
    · exact .empty (by decide) rfl (hpos .root)
  · rintro (_ | _) s i o hat
    · rw [pool, Pool.at?_empty] at hat
      cases hat
    · rw [pool, Pool.at?_empty] at hat
      cases hat

/-- The heap with one pool changed. -/
theorem modifyPool (hr : Regular h) (space : Space) {f : Pool → Pool}
    (haccounted : (f (h.pool space)).Accounted h.settings space)
    (hobject : ∀ s i o, (f (h.pool space)).at? s i = some o →
      o.Measured ∧ o.header.state = .initial space) : Regular (h.modifyPool space f) := by
  have hsettings : (h.modifyPool space f).settings = h.settings := by cases space <;> rfl
  have hpool : ∀ other, (h.modifyPool space f).pool other =
      if other = space then f (h.pool space) else h.pool other := by
    intro other
    split
    · next heq => rw [heq, pool_modifyPool_self]
    · next hne => rw [pool_modifyPool_of_ne h f hne]
  constructor
  case accepted =>
    rw [hsettings]
    exact hr.accepted
  case accounted =>
    intro other
    rw [hsettings, hpool]
    split
    · next heq => exact heq ▸ haccounted
    · exact hr.accounted other
  case object =>
    intro other s i o hat
    rw [hpool] at hat
    split at hat
    · next heq => exact heq ▸ hobject s i o hat
    · exact hr.object other s i o hat

theorem allocated (hr : Regular h) {space : Space} {o : Object} {a : Handle} {h' : Heap}
    (hnew : Allocated h space o a h') : Regular h' := by
  rw [hnew.heap_eq]
  refine hr.modifyPool space ((hr.accounted space).push hnew.reserve_eq hnew.words_le) ?_
  intro s i found hat
  rw [Pool.at?_push hnew.reserve_eq] at hat
  split at hat
  · cases hat
    exact ⟨hnew.measured, hnew.state_eq⟩
  · exact hr.object space s i found hat

theorem changed (hr : Regular h) (a : Handle) {f : Object → Object} (hf : Object.Reshapes f) :
    Regular (h.update a f) := by
  refine hr.modifyPool a.space ((hr.accounted a.space).update fun o _ => (hf o).words_eq) ?_
  intro s i o hat
  rw [Pool.at?_update] at hat
  split at hat
  · obtain ⟨old, hold, rfl⟩ := Option.map_eq_some_iff.mp hat
    obtain ⟨hmeasured, hstate⟩ := hr.object _ _ _ _ hold
    exact ⟨hmeasured.of_sameShape (hf old), (hf old).state_eq.trans hstate⟩
  · exact hr.object _ s i o hat

end Regular

/-! ## Collections -/

/-- The accounts while a collection is under way. -/
structure Ledger (settings : Settings) (e : Evacuation) : Prop where
  root : e.root.Accounted settings .root
  target : e.target.Accounted settings .ephemeral
  source : ∀ s i o, e.source.at? s i = some o → o.words ≤ settings.segmentWords

/-- Collecting changes no header but for types and marks, so no count. -/
theorem invariant_ledger (settings : Settings) : Evacuation.Invariant (Ledger settings) where
  copied {e a copy o} he hget _ hreserve := by
    refine ⟨he.root, he.target.push hreserve (he.source _ _ _ (Pool.get_eq_ok_iff.mp hget).2.2), ?_⟩
    intro s i found hat
    rw [Pool.at?_update] at hat
    split at hat
    · obtain ⟨old, hold, rfl⟩ := Option.map_eq_some_iff.mp hat
      exact he.source _ _ old hold
    · exact he.source s i found hat
  rootScanned he _ _ := ⟨he.root.update fun _ _ => rfl, he.target, he.source⟩
  copyScanned {e s i o f} he hat hf _ := by
    refine ⟨he.root, he.target.update fun o' ho' => ?_, he.source⟩
    cases hat.symm.trans ho'
    unfold Object.words
    rw [hf]
    rfl

theorem Regular.ledger (hr : Regular h) : Ledger h.settings h.startEvacuation where
  root := hr.accounted .root
  target := .empty (Nat.le_of_lt_succ (Nat.mod_lt _ (Nat.succ_pos _))) rfl
    (Settings.maxSegments_pos hr.accepted .ephemeral)
  source _ _ _ hat := (hr.accounted .ephemeral).words_le hat

/-- A collection that succeeds keeps the books in order. -/
theorem Regular.collected (hr : Regular h) {roots : List Value} {cycle : Cycle}
    (hcycle : (h.collect roots).result = .ok cycle) : Regular (h.collect roots).heap := by
  obtain ⟨e, he, hroot, hephemeral, hsettings⟩ := (invariant_ledger h.settings).collect hr.ledger roots
  have hcollect : h.collect roots = ⟨.ok cycle, (h.collect roots).roots, (h.collect roots).heap⟩ := by
    rw [← hcycle]
  obtain ⟨φ, hφ⟩ := collect_relocates hr.settled hcollect
  have hsettled := settled_collect hr.settled roots
  constructor
  case accepted =>
    rw [hsettings]
    exact hr.accepted
  case accounted =>
    rw [hsettings]
    rintro (_ | _)
    · change (h.collect roots).heap.ephemeral.Accounted h.settings .ephemeral
      rw [hephemeral]
      exact he.target
    · change (h.collect roots).heap.root.Accounted h.settings .root
      rw [hroot]
      exact he.root
  case object =>
    rintro (_ | _) s i o hat
    · -- every object of the new pool is a reachable one with its references replaced
      have hget : (h.collect roots).heap.ephemeral.get
          ⟨.ephemeral, (h.collect roots).heap.ephemeral.epoch, s, i⟩ = .ok o :=
        Pool.get_eq_ok_iff.mpr ⟨hsettled.ephemeral_space.symm, rfl, hat⟩
      obtain ⟨a, ha, hplace⟩ := hφ.bijOn.2.2 ⟨o, hget⟩
      obtain ⟨old, hold, hcopy⟩ := hφ.get_copy a ha
      rw [hplace, hget] at hcopy
      cases hcopy
      obtain ⟨hmeasured, hstate⟩ :=
        hr.object .ephemeral _ _ old (Pool.get_eq_ok_iff.mp hold).2.2
      exact ⟨hmeasured.of_sameShape (old.sameShape_map φ), hstate⟩
    · change (h.collect roots).heap.root.at? s i = some o at hat
      rw [hφ.root_at?] at hat
      obtain ⟨old, hold, rfl⟩ := Option.map_eq_some_iff.mp hat
      obtain ⟨hmeasured, hstate⟩ := hr.object .root s i old hold
      exact ⟨hmeasured.of_sameShape (old.sameShape_map φ), hstate⟩

/-! ## Sequences of operations -/

/-- The operation does not fail if it is a collection. -/
def Operation.Completes (op : Operation) (h : Heap) : Prop :=
  ∀ roots, op.roots? = some roots → ∃ cycle, (h.collect roots).result = .ok cycle

/-- No collection of the sequence fails. -/
def CollectionsComplete : List Operation → Heap → Prop
  | [], _ => True
  | op :: ops, h => op.Completes h ∧ CollectionsComplete ops (op.perform h)

/-- The handles that an operation issues: that of the object it allocates, or those of the copies
that a collection makes. -/
def Operation.issued (op : Operation) (h : Heap) : Set Handle :=
  {a | (∃ action v h', op.allocation? = some action ∧ action h = .ok v h' ∧ v.handle? = some a) ∨
    (op.roots?.isSome ∧ ∃ o, (op.perform h).ephemeral.get a = .ok o)}

theorem Operation.perform_eq_stateAfter {op : Operation} {action : HeapM Value}
    (hop : op.allocation? = some action) (h : Heap) : op.perform h = stateAfter (action h) := by
  cases op <;> cases hop <;> rfl

theorem collectionsComplete_append {xs ys : List Operation} :
    CollectionsComplete (xs ++ ys) h ↔
      CollectionsComplete xs h ∧ CollectionsComplete ys (performAll xs h) := by
  induction xs generalizing h with
  | nil => simp [CollectionsComplete]
  | cons op xs ih => simp [CollectionsComplete, ih, and_assoc]

namespace Regular

/-- Every operation keeps the books in order. -/
theorem performed (hr : Regular h) (op : Operation) (hcompletes : op.Completes h) :
    Regular (op.perform h) := by
  have hstep := op.performed (Settings.segmentWords_lt hr.accepted)
  generalize op.perform h = h' at hstep
  cases hstep with
  | unchanged => exact hr
  | allocated hnew => exact hr.allocated hnew
  | changed _ _ _ hf => exact hr.changed _ hf
  | collected hroots =>
      obtain ⟨cycle, hcycle⟩ := hcompletes _ hroots
      exact hr.collected hcycle

theorem performAll (hr : Regular h) {ops : List Operation} (hops : CollectionsComplete ops h) :
    Regular (performAll ops h) := by
  induction ops generalizing h with
  | nil => exact hr
  | cons op ops ih => exact ih (hr.performed op hops.1) hops.2

/-- A handle that is issued is that of an object of the heap that the operation leaves. -/
theorem inRange_of_issued (hr : Regular h) {op : Operation} (hcompletes : op.Completes h)
    {a : Handle} (ha : a ∈ op.issued h) : a.InRange := by
  have hr' := hr.performed op hcompletes
  rcases ha with ⟨action, v, h', hop, hrun, hv⟩ | ⟨-, o, hget⟩
  · have hallocating := op.allocating hop (Settings.segmentWords_lt hr.accepted)
    rw [hrun] at hallocating
    obtain ⟨space, o, b, hb, -, hnew⟩ := hallocating
    cases hv.symm.trans hb
    rw [Operation.perform_eq_stateAfter hop, hrun, stateAfter_ok, hnew.heap_eq] at hr'
    refine (hr'.accounted space).inRange hr'.accepted (o := o) ?_
    rw [pool_modifyPool_self]
    exact Pool.get_push_self hnew.reserve_eq
  · exact (hr'.accounted .ephemeral).inRange hr'.accepted hget

end Regular

/-- After any sequence of operations whose collections succeed, all counts of the heap are right;
every handle that was issued on the way fits its places in a word; and an allocation that fails now
changes nothing. -/
theorem performAll_regular {h₀ : Heap} (hcreate : Heap.create settings = .ok h₀)
    (ops : List Operation) (hops : CollectionsComplete ops h₀) :
    Regular (performAll ops h₀) ∧
      (∀ before op after, ops = before ++ op :: after →
        ∀ a ∈ op.issued (performAll before h₀), a.InRange) ∧
      ∀ op action fault h', Operation.allocation? op = some action →
        action (performAll ops h₀) = .error fault h' → h' = performAll ops h₀ ∧
          ((∃ words capacity, fault = .objectTooLarge words capacity) ∨
            ∃ space segments, fault = .outOfMemory space segments) := by
  have hr := Regular.create hcreate
  refine ⟨hr.performAll hops, ?_, ?_⟩
  · rintro before op after rfl a ha
    obtain ⟨hbefore, hop, -⟩ := collectionsComplete_append.mp hops
    exact (hr.performAll hbefore).inRange_of_issued hop ha
  · intro op action fault h' hop hrun
    have hallocating :=
      op.allocating hop (Settings.segmentWords_lt (hr.performAll hops).accepted)
    rw [hrun] at hallocating
    exact hallocating

/-- Segments of 64 words, at most two in the root pool and four in the other. -/
def tightSettings : Settings := ⟨64, 2, 4, 2⟩

/-- Objects of all three kinds in both spaces, one too large and one that opens a second segment;
the reference from the root object keeps the byte buffer alive over the collection. -/
def mixedOperations : List Operation :=
  let buffer : Value := .bytes ⟨.ephemeral, 1, 0, 0⟩
  let holder : Value := .object ⟨.root, 0, 0, 0⟩
  [.allocateBytes .ephemeral (.int 7) 9, .allocateFields .root (.int 7) 3 buffer,
    .allocateWords .ephemeral (.int 7) 60, .allocateWords .ephemeral (.int 7) 63,
    .storeByte buffer 8 255, .transferFields holder 0 holder 1 2, .setType holder buffer,
    .collect []]

theorem performAll_regular_mixed : ∃ h₀, Heap.create tightSettings = .ok h₀ ∧
    CollectionsComplete mixedOperations h₀ ∧ Regular (performAll mixedOperations h₀) := by
  refine ⟨_, rfl, ?hops, (@performAll_regular tightSettings _ rfl mixedOperations ?hops).1⟩
  refine ⟨nofun, nofun, nofun, nofun, nofun, nofun, nofun, ?_, trivial⟩
  rintro roots ⟨⟩
  exact ⟨⟨2, 1, 4, 2, 1⟩, by decide +kernel⟩

end Heap

end MessageMachine
