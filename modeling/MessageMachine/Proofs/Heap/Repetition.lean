import MessageMachine.Proofs.Heap.Collection
import MessageMachine.Proofs.Heap.Identity

/-!
# Collecting twice

The order in which a collection copies is an order of the object graph alone: breadth first from the
roots and the root pool.  So a second collection right after a first one meets the copies in the
order in which they were made, and every copy finds room where it is, one epoch later.

## Strategy

The two collections are followed in lock step.

* `Handle.renewed` is the same place one epoch later.
* `Pool.Repeats q p`: the pool `q` is laid out like `p`, one epoch later, so that both have room for
  the next object in the same place (`Repeats.reserve`).
* `Echo e f`: the second collection, at `f`, has copied just what the first one, at `e`, has made,
  and each object to where it was (`Echo.evacuate` is the step, `Echo.scan` the whole scan).

`collect_again` is the conclusion.

The first collection moves along a map `φ`, and the second meets `v.map φ` where the first met `v`.
That `φ` is known only when the first collection has ended; `Follows φ e` says of an earlier state
that its moves agree with `φ`, which is so because moves are never taken back (`forwards_lasts`).
-/

namespace MessageMachine

namespace Heap

/-- The epoch after another one. -/
def nextEpoch (epoch : Nat) : Nat := (epoch + 1) % (Handle.maxEpoch + 1)

end Heap

/-- The same place one epoch later.  The root pool has no later epochs. -/
def Handle.renewed (a : Handle) : Handle :=
  match a.space with
  | .ephemeral => { a with epoch := Heap.nextEpoch a.epoch }
  | .root => a

theorem Handle.renewed_of_root {a : Handle} (hroot : a.space = .root) : a.renewed = a := by
  simp [renewed, hroot]

theorem Handle.renewed_of_ephemeral {a : Handle} (hspace : a.space = .ephemeral) :
    a.renewed = { a with epoch := Heap.nextEpoch a.epoch } := by
  simp [renewed, hspace]

theorem Object.references_map (φ : Handle → Handle) (o : Object) :
    (o.map φ).references = o.references.map (·.map φ) := by
  obtain ⟨header, body⟩ := o
  cases body <;> simp [map, references]

/-! ## Pools of the same layout -/

/-- The words and the number of the objects of a segment. -/
def Segment.extent (seg : Segment) : Nat × Nat := (seg.usedWords, seg.objects.size)

theorem Segment.extent_update (seg : Segment) (i : Nat) (f : Object → Object) :
    (seg.update i f).extent = seg.extent := by
  simp [extent, update]

/-- The segments of the two pools are filled alike, so that both have room for the next object in the
same place. -/
structure Pool.SameRoom (q p : Pool) : Prop where
  segmentWords : q.segmentWords = p.segmentWords
  maxSegments : q.maxSegments = p.maxSegments
  extents : q.segments.map Segment.extent = p.segments.map Segment.extent

namespace Pool.SameRoom

variable {p q : Pool}

theorem size (hq : q.SameRoom p) : q.segments.size = p.segments.size := by
  simpa using congrArg Array.size hq.extents

theorem back (hq : q.SameRoom p) :
    q.segments.back?.map Segment.extent = p.segments.back?.map Segment.extent := by
  simpa using congrArg Array.back? hq.extents

theorem needsSegment (hq : q.SameRoom p) (words : Nat) :
    q.needsSegment words = p.needsSegment words := by
  have hback := hq.back
  unfold Pool.needsSegment
  cases hp : p.segments.back? with
  | none =>
      have hnone : q.segments.back? = none := by simpa [hp] using hback
      rw [hnone]
  | some seg =>
      obtain ⟨seg', hseg', hextent⟩ := Option.map_eq_some_iff.mp (hback.trans (by rw [hp]; rfl))
      obtain ⟨hwords, hsize⟩ := Prod.mk.inj hextent
      rw [hseg']
      simp only [hwords, hsize, hq.segmentWords]

theorem backSize (hq : q.SameRoom p) : q.segments.back?.map (·.objects.size) =
    p.segments.back?.map (·.objects.size) := by
  simpa [Function.comp_def, Segment.extent] using congrArg (Option.map Prod.snd) hq.back

theorem push (hq : q.SameRoom p) {o o' : Object} (hwords : o'.words = o.words) :
    (q.push o').SameRoom (p.push o) := by
  have hneeds := hq.needsSegment o.words
  constructor
  all_goals rw [Pool.push_eq, Pool.push_eq, hwords, hneeds]
  case segmentWords => split <;> exact hq.segmentWords
  case maxSegments => split <;> exact hq.maxSegments
  case extents =>
    split
    · simp [hq.extents, Segment.extent, Segment.push, Segment.empty, hwords]
    · apply Array.ext_getElem?
      intro k
      have hk := congrArg (·[k]?) hq.extents
      simp only [Array.getElem?_map, Array.getElem?_modify, hq.size] at hk ⊢
      split
      · cases hp : p.segments[k]? with
        | none =>
            have hnone : q.segments[k]? = none := by simpa [hp] using hk
            simp [hnone]
        | some seg =>
            obtain ⟨seg', hseg', hextent⟩ := Option.map_eq_some_iff.mp (hk.trans (by rw [hp]; rfl))
            obtain ⟨hused, hsize⟩ := Prod.mk.inj hextent
            simp [hseg', Segment.extent, Segment.push, hused, hsize, hwords]
      · exact hk

end Pool.SameRoom

/-- The pool `q` has its objects in the places of those of `p`, one epoch later. -/
structure Pool.Repeats (q p : Pool) : Prop where
  space : q.space = .ephemeral
  space_first : p.space = .ephemeral
  epoch : q.epoch = Heap.nextEpoch p.epoch
  segmentWords : q.segmentWords = p.segmentWords
  maxSegments : q.maxSegments = p.maxSegments
  extents : q.segments.map Segment.extent = p.segments.map Segment.extent

namespace Pool.Repeats

variable {p q : Pool}

theorem room (hq : q.Repeats p) : q.SameRoom p := ⟨hq.segmentWords, hq.maxSegments, hq.extents⟩

theorem size (hq : q.Repeats p) : q.segments.size = p.segments.size := hq.room.size

/-- The next object goes to the same place. -/
theorem reserve (hq : q.Repeats p) {words : Nat} {a : Handle} (hreserve : p.reserve words = .ok a) :
    q.reserve words = .ok a.renewed := by
  have hspace := Pool.space_of_reserve hreserve
  rw [hq.space_first] at hspace
  have hepoch := Pool.epoch_of_reserve hreserve
  rw [Handle.renewed_of_ephemeral hspace, hepoch, ← hq.epoch]
  unfold Pool.reserve at hreserve ⊢
  rw [hq.room.needsSegment, hq.room.size, hq.maxSegments]
  split at hreserve
  · next hneeds =>
    rw [if_pos hneeds]
    split at hreserve
    · cases hreserve
    · next hroom =>
      cases hreserve
      rw [if_neg hroom, hq.space, hq.space_first]
  · next hneeds =>
    cases hreserve
    rw [if_neg hneeds, hq.room.backSize, hq.space, hq.space_first]

theorem push (hq : q.Repeats p) {o o' : Object} (hwords : o'.words = o.words) :
    (q.push o').Repeats (p.push o) := by
  obtain ⟨hsegmentWords, hmaxSegments, hextents⟩ := hq.room.push hwords
  refine ⟨?_, ?_, ?_, hsegmentWords, hmaxSegments, hextents⟩
  · rw [Pool.space_push, hq.space]
  · rw [Pool.space_push, hq.space_first]
  · rw [Pool.epoch_push, Pool.epoch_push, hq.epoch]

theorem extents_update (p : Pool) (s i : Nat) (f : Object → Object) :
    (p.update s i f).segments.map Segment.extent = p.segments.map Segment.extent := by
  apply Array.ext_getElem?
  intro k
  simp only [Pool.update_eq, Array.getElem?_map, Array.getElem?_modify]
  split
  · cases p.segments[k]? with
    | none => rfl
    | some seg => simp [Segment.extent_update]
  · rfl

/-- Changing objects where they are changes no layout. -/
theorem update (hq : q.Repeats p) (s i s' i' : Nat) (f g : Object → Object) :
    (q.update s i f).Repeats (p.update s' i' g) :=
  ⟨hq.space, hq.space_first, hq.epoch, hq.segmentWords, hq.maxSegments, by
    rw [extents_update, extents_update, hq.extents]⟩

end Pool.Repeats

/-- Where the objects of a pool are depends on its layout alone. -/
theorem Pool.positions_congr {p q : Pool}
    (hextents : q.segments.map Segment.extent = p.segments.map Segment.extent) :
    q.positions = p.positions := by
  have hpositions : ∀ p : Pool, p.positions =
      (p.segments.map Segment.extent).toList.zipIdx.flatMap fun (extent, segment) =>
        (List.range extent.2).map fun index => (segment, index) := by
    intro p
    simp [positions, List.zipIdx_map, List.flatMap_map, Segment.extent]
  rw [hpositions, hpositions, hextents]

/-! ## What has been moved -/

/-- The object at `a` has been moved to `copy`. -/
def Evacuation.Forwards (e : Evacuation) (a copy : Handle) : Prop :=
  ∃ o, e.source.get a = .ok o ∧ o.header.state = .forwarded copy

/-- What has been moved so far went where `φ` says. -/
def Evacuation.Follows (φ : Handle → Handle) (e : Evacuation) : Prop :=
  ∀ a copy, e.Forwards a copy → φ a = copy

namespace Evacuation

variable {e : Evacuation} {v : Value} {a b copy : Handle} {o : Object}

theorem evacuate_of_forwards (hhandle : v.handle? = some a) (hspace : a.space = .ephemeral)
    (hmoved : e.Forwards a copy) : evacuate v e = .ok (v.relocate copy) e := by
  obtain ⟨o, hget, hstate⟩ := hmoved
  simp [evacuate, hhandle, hspace, hget, hstate]

theorem evacuate_of_live (hhandle : v.handle? = some a) (hspace : a.space = .ephemeral)
    (hget : e.source.get a = .ok o) (hlive : o.header.state = .live)
    (hreserve : e.target.reserve o.words = .ok copy) :
    evacuate v e = .ok (v.relocate copy)
      { e with
        source := e.source.update a.segment a.index (·.forward copy)
        target := e.target.push o
        copies := e.copies.push copy
        words := e.words + o.words } := by
  simp [evacuate, hhandle, hspace, hget, hlive, hreserve]

/-- One more object is marked as moved, and nothing else. -/
theorem forwards_mark (hget : e.source.get a = .ok o) {target : Pool} {copies : Array Handle}
    {words : Nat} {c : Handle} :
    Forwards { e with
        source := e.source.update a.segment a.index (·.forward copy)
        target := target, copies := copies, words := words } b c ↔
      (b = a ∧ c = copy) ∨ (b ≠ a ∧ e.Forwards b c) := by
  obtain ⟨hspace, hepoch, hat⟩ := Pool.get_eq_ok_iff.mp hget
  by_cases hba : b = a
  · subst hba
    have hself : (e.source.update b.segment b.index (·.forward copy)).get b =
        .ok (o.forward copy) := by
      rw [Pool.get_eq_ok_iff, Pool.at?_update_self, hat]
      exact ⟨hspace, hepoch, rfl⟩
    constructor
    · rintro ⟨found, hfound, hstate⟩
      cases hself.symm.trans hfound
      cases hstate
      exact .inl ⟨rfl, rfl⟩
    · rintro (⟨-, rfl⟩ | ⟨hne, -⟩)
      · exact ⟨_, hself, rfl⟩
      · exact absurd rfl hne
  · have hother : (e.source.update a.segment a.index (·.forward copy)).get b = e.source.get b := by
      by_cases hcurrent : b.space = e.source.space ∧ b.epoch = e.source.epoch
      · have hplace : ¬(b.segment = a.segment ∧ b.index = a.index) := by
          rintro ⟨hsegment, hindex⟩
          exact hba (Handle.eq_of_place (hcurrent.1.trans hspace.symm)
            (hcurrent.2.trans hepoch.symm) hsegment hindex)
        exact Pool.get_congr (Pool.space_update ..) (Pool.epoch_update ..)
          (Pool.at?_update_of_ne _ _ hplace)
      · unfold Pool.get
        rw [Pool.space_update, Pool.epoch_update, if_neg hcurrent, if_neg hcurrent]
    simp only [Forwards, hother]
    constructor
    · intro hmoved
      exact .inr ⟨hba, hmoved⟩
    · rintro (⟨rfl, -⟩ | ⟨-, hmoved⟩)
      · exact absurd rfl hba
      · exact hmoved

/-- Moves are never taken back. -/
theorem forwards_lasts (a copy : Handle) : Invariant (Forwards · a copy) where
  copied hmoved hget hlive _ := by
    refine (forwards_mark hget).mpr (.inr ⟨?_, hmoved⟩)
    rintro rfl
    obtain ⟨o', hget', hstate⟩ := hmoved
    cases hget.symm.trans hget'
    rw [hlive] at hstate
    cases hstate
  rootScanned hmoved _ _ := hmoved
  copyScanned hmoved _ _ _ := hmoved

theorem Follows.relocateAfter {φ : Handle → Handle} {done : Array Value} {vs : List Value}
    (hfollows : (relocateAfter done vs e).2.1.Follows φ) : e.Follows φ := fun a copy hmoved =>
  hfollows a copy (after_relocateAfter (keeps_evacuate (forwards_lasts a copy).copied) hmoved)

/-- What an action that keeps moves has left as it is was so before. -/
theorem Follows.before {φ : Handle → Handle} {action : EStateM HeapFault Evacuation α}
    (hfollows : (stateAfter (action e)).Follows φ)
    (hkeeps : ∀ a copy, Keeps (Forwards · a copy) action) : e.Follows φ := fun a copy hmoved =>
  hfollows a copy (hkeeps a copy e hmoved)

end Evacuation

namespace Progress

variable {h : Heap} {reach : Handle → Prop} {scanned : Nat} {moves : Moves} {e : Evacuation}
  {a copy : Handle}

/-- An object of the pool being left, as the moves have marked it. -/
theorem source_get_of_ok (hsettled : h.Settled) (hp : Progress h reach scanned moves e) {o : Object}
    (hget : h.ephemeral.get a = .ok o) : e.source.get a = .ok (moves.mark a o) := by
  obtain ⟨hspace, hepoch, hat⟩ := Pool.get_eq_ok_iff.mp hget
  have ha : (⟨.ephemeral, h.ephemeral.epoch, a.segment, a.index⟩ : Handle) = a := by
    rw [← hepoch, ← hsettled.ephemeral_space, ← hspace]
  rw [Pool.get_eq_ok_iff, hp.source_space, hp.source_epoch, hp.source_at?, ha, hat]
  exact ⟨hspace, hepoch, rfl⟩

/-- The moves are what the pool being left is marked with. -/
theorem lookup_eq_some_iff (hsettled : h.Settled) (hp : Progress h reach scanned moves e) :
    moves.lookup a = some copy ↔ e.Forwards a copy := by
  constructor
  · intro hlookup
    obtain ⟨o, hget⟩ := hp.get_of_mem (Moves.mem_of_lookup hlookup)
    refine ⟨_, hp.source_get_of_ok hsettled hget, ?_⟩
    simp [Moves.mark, hlookup, Object.forward]
  · rintro ⟨o, hget, hstate⟩
    obtain ⟨old, hold, rfl⟩ := hp.source_get hsettled hget
    cases hlookup : moves.lookup a with
    | none =>
        rw [Moves.mark, hlookup, hsettled.state_of_get hold] at hstate
        cases hstate
    | some copy' =>
        rw [Moves.mark, hlookup] at hstate
        cases hstate
        rfl

/-- An object that has not been moved is as it was. -/
theorem source_get_of_unmoved (hsettled : h.Settled) (hp : Progress h reach scanned moves e)
    {o : Object} (hget : h.ephemeral.get a = .ok o) (hstays : ∀ copy, ¬e.Forwards a copy) :
    e.source.get a = .ok o := by
  have hnone : moves.lookup a = none := by
    rw [Option.eq_none_iff_forall_ne_some]
    intro copy hlookup
    exact hstays copy ((hp.lookup_eq_some_iff hsettled).mp hlookup)
  rw [hp.source_get_of_ok hsettled hget, Moves.mark, hnone]

theorem size_copies (hp : Progress h reach scanned moves e) : e.copies.size = moves.length := by
  rw [← Array.length_toList, hp.copies_eq, List.length_map]

/-- The copies are in the pool being filled. -/
theorem target_get_of_forwards (hsettled : h.Settled) (hp : Progress h reach scanned moves e)
    (hmoved : e.Forwards a copy) : ∃ o, e.target.get copy = .ok o := by
  obtain ⟨k, hk⟩ := List.getElem?_of_mem
    (Moves.mem_of_lookup ((hp.lookup_eq_some_iff hsettled).mpr hmoved))
  obtain ⟨o, -, hscanned, hunscanned⟩ := hp.copied k a copy hk
  rcases Nat.lt_or_ge k scanned with hlt | hge
  · exact ⟨_, (hscanned hlt).1⟩
  · exact ⟨_, hunscanned hge⟩

end Progress

namespace Evacuation

variable {e e' : Evacuation} {k count rounds rounds' : Nat}

/-- Where there is no copy, there is nothing to scan. -/
theorem scanCopies_of_size_le (hsize : e.copies.size ≤ k) :
    (List.range' k count).forM scanCopy e = .ok () e := by
  induction count generalizing k with
  | zero => rfl
  | succ count ih =>
      have hnone : e.copies[k]? = none := Array.getElem?_eq_none hsize
      refine bind_eq_ok.mpr ⟨(), e, ?_, ih (hsize.trans k.le_succ)⟩
      simp [scanCopy, hnone]

/-- How many rounds there are does not matter as soon as there are enough for the copies. -/
theorem scanCopies_of_rounds (hrun : (List.range' 0 rounds).forM scanCopy e = .ok () e')
    (henough : e'.copies.size ≤ rounds)
    (hlimit : ∀ e₁, (List.range' 0 rounds').forM scanCopy e = .ok () e₁ →
      e₁.copies.size ≤ rounds') :
    (List.range' 0 rounds').forM scanCopy e = .ok () e' := by
  rcases Nat.le_total rounds rounds' with hle | hle
  · obtain ⟨more, rfl⟩ := Nat.exists_eq_add_of_le hle
    rw [← List.range'_append_1, List.forM_eq_forM, List.forM_append]
    refine bind_eq_ok.mpr ⟨(), e', hrun, scanCopies_of_size_le ?_⟩
    simpa using henough
  · obtain ⟨more, rfl⟩ := Nat.exists_eq_add_of_le hle
    rw [← List.range'_append_1, List.forM_eq_forM, List.forM_append] at hrun
    obtain ⟨⟨⟩, e₁, hfirst, hrest⟩ := bind_eq_ok.mp hrun
    have hrest' : (List.range' _ more).forM scanCopy e₁ = .ok () e₁ :=
      scanCopies_of_size_le (hlimit e₁ hfirst)
    rw [Nat.zero_add] at hrest
    cases hrest'.symm.trans hrest
    exact hfirst

end Evacuation

/-! ## Lock step -/

/-- The second collection, at `f`, is as far as the first one, at `e`. -/
structure Echo (e f : Evacuation) : Prop where
  copies : f.copies = e.copies.map Handle.renewed
  forwards : ∀ c d, f.Forwards c d ↔ d = c.renewed ∧ ∃ a, e.Forwards a c
  target : f.target.Repeats e.target
  words : f.words = e.words

namespace Echo

section Steps

variable {h h' : Heap} {roots roots' : List Value} {φ : Handle → Handle} {reach : Handle → Prop}
  {k k' : Nat} {moves moves' : Moves} {e e' f : Evacuation}
variable (hsettled : h.Settled) (hsettled' : h'.Settled)
  (hreloc : Heap.Relocation h roots h' roots' φ)
include hsettled hsettled' hreloc

/-- Where the first collection relocates a value, the second one relocates what that value has
become, to the same place. -/
theorem evacuate (hp : Progress h (Heap.Reachable h roots) k moves e)
    (hp' : Progress h' reach k' moves' f) (hecho : Echo e f) {v v' : Value}
    (hreach : ∀ a, v.Refers a → Heap.Reachable h roots a)
    (hrun : Evacuation.evacuate v e = .ok v' e') (hfollows : e'.Follows φ) :
    ∃ f', Evacuation.evacuate (v.map φ) f = .ok ((v.map φ).map Handle.renewed) f' ∧ Echo e' f' := by
  cases hhandle : v.handle? with
  | none =>
      -- an integer stays as it is
      obtain ⟨rfl, rfl⟩ : v = v' ∧ e = e' := by
        simpa [Evacuation.evacuate, hhandle] using hrun
      have hmap : (v.map φ).map Handle.renewed = v.map φ :=
        Value.map_eq_self fun a ha => by simp [hhandle] at ha
      exact ⟨f, by simp [Evacuation.evacuate, hhandle, hmap], hecho⟩
  | some a =>
      have hhandle' : (v.map φ).handle? = some (φ a) := by simp [hhandle]
      have hmap := Value.map_eq_relocate hhandle' Handle.renewed
      cases hspace : a.space with
      | root =>
          -- so does a reference to the root pool
          obtain ⟨rfl, rfl⟩ : v = v' ∧ e = e' := by
            simpa [Evacuation.evacuate, hhandle, hspace] using hrun
          have hfix := hreloc.fixes_root a hspace
          have hsame : (v.map φ).map Handle.renewed = v.map φ := by
            refine Value.map_eq_self fun b hb => ?_
            rw [hhandle', hfix] at hb
            cases hb
            exact Handle.renewed_of_root hspace
          exact ⟨f, by simp [Evacuation.evacuate, hhandle', hfix, hspace, hsame], hecho⟩
      | ephemeral =>
          have ha := hreach a ⟨hhandle, hspace⟩
          obtain ⟨old, hold, hnew⟩ := hreloc.get_copy a ha
          have hspace' : (φ a).space = .ephemeral :=
            (Pool.get_eq_ok_iff.mp hnew).1.trans hsettled'.ephemeral_space
          by_cases hmoved : ∃ copy, e.Forwards a copy
          · -- moved already, and so is its copy
            obtain ⟨copy, hmoved⟩ := hmoved
            rw [Evacuation.evacuate_of_forwards hhandle hspace hmoved] at hrun
            cases hrun
            have hcopy := hfollows a copy hmoved
            have hmoved' : f.Forwards (φ a) (φ a).renewed :=
              (hecho.forwards _ _).mpr ⟨rfl, a, hcopy ▸ hmoved⟩
            exact ⟨f, by rw [Evacuation.evacuate_of_forwards hhandle' hspace' hmoved', hmap], hecho⟩
          · -- moved now, and so is its copy
            have hget := hp.source_get_of_unmoved hsettled hold (not_exists.mp hmoved)
            have hlive := hsettled.state_of_get hold
            cases hreserve : e.target.reserve old.words with
            | error fault =>
                simp [Evacuation.evacuate, hhandle, hspace, hget, hlive, hreserve] at hrun
            | ok copy =>
                rw [Evacuation.evacuate_of_live hhandle hspace hget hlive hreserve] at hrun
                cases hrun
                have hcopy : φ a = copy :=
                  hfollows a copy ((Evacuation.forwards_mark hget).mpr (.inl ⟨rfl, rfl⟩))
                have hfresh : ∀ b, ¬e.Forwards b copy := by
                  intro b hb
                  obtain ⟨o, ho⟩ := hp.target_get_of_forwards hsettled hb
                  have hfree := Pool.at?_of_reserve hreserve
                  rw [(Pool.get_eq_ok_iff.mp ho).2.2] at hfree
                  cases hfree
                have hget' : f.source.get (φ a) = .ok (old.map φ) := by
                  refine hp'.source_get_of_unmoved hsettled' hnew fun d hd => ?_
                  obtain ⟨-, b, hb⟩ := (hecho.forwards _ _).mp hd
                  exact hfresh b (hcopy ▸ hb)
                have hreserve' : f.target.reserve (old.map φ).words = .ok (φ a).renewed := by
                  rw [hcopy]
                  exact hecho.target.reserve hreserve
                refine ⟨_, by rw [Evacuation.evacuate_of_live hhandle' hspace' hget'
                  (hsettled'.state_of_get hnew) hreserve', hmap], ?_⟩
                constructor
                case copies => simp [hecho.copies, hcopy]
                case target => exact hecho.target.push rfl
                case words => simp [hecho.words]
                case forwards =>
                  intro c d
                  rw [Evacuation.forwards_mark hget', hecho.forwards, hcopy]
                  simp only [Evacuation.forwards_mark hget]
                  constructor
                  · rintro (⟨rfl, rfl⟩ | ⟨hne, rfl, b, hb⟩)
                    · exact ⟨rfl, a, .inl ⟨rfl, rfl⟩⟩
                    · refine ⟨rfl, b, .inr ⟨?_, hb⟩⟩
                      rintro rfl
                      exact hmoved ⟨c, hb⟩
                  · rintro ⟨rfl, b, ⟨-, rfl⟩ | ⟨-, hb⟩⟩
                    · exact .inl ⟨rfl, rfl⟩
                    · refine .inr ⟨?_, rfl, b, hb⟩
                      rintro rfl
                      exact hfresh b hb

/-- The same for values one after the other. -/
theorem relocateAfter {vs : List Value} :
    ∀ {moves moves' : Moves} {e f e' : Evacuation} {done out done' : Array Value},
      Progress h (Heap.Reachable h roots) k moves e → Progress h' (fun _ => True) k' moves' f →
      Echo e f → (∀ v ∈ vs, ∀ a, v.Refers a → Heap.Reachable h roots a) →
      Evacuation.relocateAfter done vs e = (out, e', none) → e'.Follows φ →
      ∃ out' f', Evacuation.relocateAfter done' (vs.map (·.map φ)) f = (out', f', none) ∧
        Echo e' f' := by
  induction vs with
  | nil =>
      intro moves moves' e f e' done out done' hp hp' hecho _ hrun _
      simp only [Evacuation.relocateAfter, Prod.mk.injEq] at hrun
      obtain ⟨-, rfl, -⟩ := hrun
      exact ⟨done', f, rfl, hecho⟩
  | cons v vs ih =>
      intro moves moves' e f e' done out done' hp hp' hecho hreach hrun hfollows
      rw [Evacuation.relocateAfter] at hrun
      cases hv : Evacuation.evacuate v e with
      | error fault e₁ =>
          simp only [hv, Prod.mk.injEq] at hrun
          obtain ⟨-, -, hfault⟩ := hrun
          cases hfault
      | ok moved e₁ =>
          simp only [hv] at hrun
          have hafter : (Evacuation.relocateAfter (done.push moved) vs e₁).2.1.Follows φ := by
            rw [hrun]
            exact hfollows
          have hfollows₁ : e₁.Follows φ := hafter.relocateAfter
          have hreach₁ := hreach v (List.mem_cons_self ..)
          obtain ⟨f₁, hv', hecho₁⟩ :=
            evacuate hsettled hsettled' hreloc hp hp' hecho hreach₁ hv hfollows₁
          obtain ⟨_, hp₁, -⟩ := hp.evacuate hsettled hreach₁ hv
          obtain ⟨_, hp₁', -⟩ := hp'.evacuate hsettled' (fun _ _ => trivial) hv'
          obtain ⟨out', f', hrun', hecho'⟩ := ih hp₁ hp₁' hecho₁
            (fun w hw => hreach w (List.mem_cons_of_mem _ hw)) hrun hfollows
          refine ⟨out', f', ?_, hecho'⟩
          rw [List.map_cons, Evacuation.relocateAfter, hv']
          exact hrun'

theorem relocateEach (hp : Progress h (Heap.Reachable h roots) k moves e)
    (hp' : Progress h' (fun _ => True) k' moves' f) (hecho : Echo e f) {vs : List Value}
    (hreach : ∀ v ∈ vs, ∀ a, v.Refers a → Heap.Reachable h roots a) {out : Array Value}
    (hrun : Evacuation.relocateEach vs e = (out, e', none)) (hfollows : e'.Follows φ) :
    ∃ out' f', Evacuation.relocateEach (vs.map (·.map φ)) f = (out', f', none) ∧ Echo e' f' :=
  relocateAfter hsettled hsettled' hreloc hp hp' hecho hreach hrun hfollows

/-! ## Scanning in lock step -/

theorem scanRoot (hp : Progress h (Heap.Reachable h roots) k moves e)
    (hp' : Progress h' (fun _ => True) k' moves' f) (hecho : Echo e f) {s i : Nat}
    (hat : e.root.at? s i = h.root.at? s i) (hat' : f.root.at? s i = h'.root.at? s i)
    (hrun : Evacuation.scanRoot s i e = .ok () e') (hfollows : e'.Follows φ) :
    ∃ f', Evacuation.scanRoot s i f = .ok () f' ∧ Echo e' f' := by
  rw [hreloc.root_at?] at hat'
  unfold Evacuation.scanRoot at hrun ⊢
  cases ho : h.root.at? s i with
  | none =>
      simp only [hat, ho] at hrun
      cases hrun
      simp only [hat', ho, Option.map_none]
      exact ⟨f, rfl, hecho⟩
  | some o =>
      simp only [hat, ho] at hrun
      simp only [hat', ho, Option.map_some, Object.references_map]
      rcases hrelocate : Evacuation.relocateEach o.references e with ⟨out, e₁, fault⟩
      cases fault with
      | some fault =>
          simp only [hrelocate] at hrun
          cases hrun
      | none =>
          simp only [hrelocate] at hrun
          cases hrun
          obtain ⟨out', f₁, hrelocate', hecho₁⟩ := relocateEach hsettled hsettled' hreloc hp hp'
            hecho (fun v hv a ha => Heap.Reachable.permanent ho hv ha) hrelocate hfollows
          simp only [hrelocate']
          exact ⟨_, rfl, { hecho₁ with }⟩

/-- The root objects in the same places are scanned one after the other. -/
theorem scanRoots {todo : List (Nat × Nat)} :
    ∀ {places : List (Nat × Nat)} {moves moves' : Moves} {e f e' : Evacuation},
      Progress h (Heap.Reachable h roots) k moves e → Progress.RootsScanned h places moves e →
      Progress h' (fun _ => True) k' moves' f → Progress.RootsScanned h' places moves' f →
      Echo e f → (places ++ todo).Nodup →
      (todo.forM fun (s, i) => Evacuation.scanRoot s i) e = .ok () e' → e'.Follows φ →
      ∃ f', (todo.forM fun (s, i) => Evacuation.scanRoot s i) f = .ok () f' ∧ Echo e' f' := by
  induction todo with
  | nil =>
      intro places moves moves' e f e' _ _ _ _ hecho _ hrun _
      cases hrun
      exact ⟨f, rfl, hecho⟩
  | cons place todo ih =>
      intro places moves moves' e f e' hp hroots hp' hroots' hecho hnodup hrun hfollows
      obtain ⟨s, i⟩ := place
      obtain ⟨⟨⟩, e₁, hfirst, hrest⟩ := bind_eq_ok.mp hrun
      have hnew : (s, i) ∉ places := by
        intro hmem
        exact (List.nodup_append.mp hnodup).2.2 (s, i) hmem (s, i) (List.mem_cons_self ..) rfl
      have hfollows₁ : e₁.Follows φ := by
        rw [← stateAfter_ok () e', ← hrest] at hfollows
        exact hfollows.before fun a copy => Keeps.forM fun place _ =>
          (Evacuation.forwards_lasts a copy).scanRoot place.1 place.2
      obtain ⟨f₁, hfirst', hecho₁⟩ := scanRoot hsettled hsettled' hreloc hp hp' hecho
        (by rw [hroots.root_at?, if_neg hnew]) (by rw [hroots'.root_at?, if_neg hnew]) hfirst
        hfollows₁
      obtain ⟨_, hp₁, hroots₁⟩ := hp.scanRoot hsettled hroots hnew
        (fun o ho v hv a ha => Heap.Reachable.permanent ho hv ha) hfirst
      obtain ⟨_, hp₁', hroots₁'⟩ := hp'.scanRoot hsettled' hroots' hnew
        (fun _ _ _ _ _ _ => trivial) hfirst'
      obtain ⟨f', hrest', hecho'⟩ := ih hp₁ hroots₁ hp₁' hroots₁' hecho₁
        (List.perm_middle.nodup_iff.mp hnodup) hrest hfollows
      exact ⟨f', bind_eq_ok.mpr ⟨(), f₁, hfirst', hrest'⟩, hecho'⟩

omit hreloc in
/-- The `k`-th copy of the second collection is made of the `k`-th copy of the first. -/
theorem copied (hp : Progress h (Heap.Reachable h roots) k moves e)
    (hp' : Progress h' (fun _ => True) k' moves' f) (hecho : Echo e f) (hfollows : e.Follows φ)
    {n : Nat} {a copy : Handle} (hmove : moves[n]? = some (a, copy)) :
    φ a = copy ∧ moves'[n]? = some (copy, copy.renewed) := by
  have hmoved : e.Forwards a copy := (hp.lookup_eq_some_iff hsettled).mp
    (Moves.lookup_of_mem hp.nodup_old (List.mem_of_getElem? hmove))
  refine ⟨hfollows a copy hmoved, ?_⟩
  have hmoved' : f.Forwards copy copy.renewed := (hecho.forwards _ _).mpr ⟨rfl, a, hmoved⟩
  obtain ⟨j, hj⟩ := List.getElem?_of_mem
    (Moves.mem_of_lookup ((hp'.lookup_eq_some_iff hsettled').mpr hmoved'))
  have hnew : (moves'.map Prod.snd)[n]? = some copy.renewed := by
    rw [← hp'.copies_eq, hecho.copies, Array.toList_map, hp.copies_eq, List.map_map,
      List.getElem?_map, hmove]
    rfl
  have hjn : j = n := by
    refine (List.getElem?_inj ?_ hp'.nodup_new).mp ?_
    · simpa using (List.getElem?_eq_some_iff.mp hj).1
    · rw [hnew, List.getElem?_map, hj]
      rfl
  rw [← hjn, hj]

theorem scanCopy (hp : Progress h (Heap.Reachable h roots) (min k moves.length) moves e)
    (hp' : Progress h' (fun _ => True) (min k moves'.length) moves' f) (hecho : Echo e f)
    (hrun : Evacuation.scanCopy k e = .ok () e') (hfollows : e'.Follows φ) :
    ∃ f', Evacuation.scanCopy k f = .ok () f' ∧ Echo e' f' := by
  have hfollows₀ : e.Follows φ := by
    rw [← stateAfter_ok () e', ← hrun] at hfollows
    exact hfollows.before fun a copy => (Evacuation.forwards_lasts a copy).scanCopy k
  have hcopies : e.copies[k]? = moves[k]?.map Prod.snd := by
    rw [← Array.getElem?_toList, hp.copies_eq, List.getElem?_map]
  have hcopies' : f.copies[k]? = moves[k]?.map fun move => move.2.renewed := by
    rw [hecho.copies, Array.getElem?_map, hcopies, Option.map_map]
    rfl
  unfold Evacuation.scanCopy at hrun ⊢
  cases hmove : moves[k]? with
  | none =>
      simp only [hcopies, hmove, Option.map_none] at hrun
      cases hrun
      simp only [hcopies', hmove, Option.map_none]
      exact ⟨f, rfl, hecho⟩
  | some move =>
      obtain ⟨a, copy⟩ := move
      obtain ⟨hplace, hmove'⟩ := copied hsettled hsettled' hp hp' hecho hfollows₀ hmove
      -- the copy holds the object of the heap, and its copy what that object has become
      obtain ⟨o, hget, -, hunscanned⟩ := hp.copied k a copy hmove
      obtain ⟨o', hget', -, hunscanned'⟩ := hp'.copied k copy copy.renewed hmove'
      have hreach : Heap.Reachable h roots a := hp.reach_old _ (List.mem_of_getElem? hmove)
      have ho' : o' = o.map φ := by
        obtain ⟨old, hold, hnew⟩ := hreloc.get_copy a hreach
        rw [hplace] at hnew
        cases hget.symm.trans hold
        cases hget'.symm.trans hnew
        rfl
      have hat := (Pool.get_eq_ok_iff.mp (hunscanned (Nat.min_le_left ..))).2.2
      have hat' := (Pool.get_eq_ok_iff.mp (hunscanned' (Nat.min_le_left ..))).2.2
      simp only [hcopies, hmove, Option.map_some, hat] at hrun
      simp only [hcopies', hmove, Option.map_some, hat', ho', Object.references_map]
      rcases hrelocate : Evacuation.relocateEach o.references e with ⟨out, e₁, fault⟩
      cases fault with
      | some fault =>
          simp only [hrelocate] at hrun
          cases hrun
      | none =>
          simp only [hrelocate] at hrun
          cases hrun
          obtain ⟨out', f₁, hrelocate', hecho₁⟩ := relocateEach hsettled hsettled' hreloc hp hp'
            hecho (fun v hv b hb => Heap.Reachable.step hreach hget hv hb) hrelocate hfollows
          simp only [hrelocate']
          exact ⟨_, rfl, { hecho₁ with target := hecho₁.target.update .. }⟩

/-- The copies are scanned one after the other. -/
theorem scanCopies {count : Nat} :
    ∀ {k : Nat} {moves moves' : Moves} {e f e' : Evacuation},
      Progress h (Heap.Reachable h roots) (min k moves.length) moves e →
      Progress h' (fun _ => True) (min k moves'.length) moves' f → Echo e f →
      ((List.range' k count).forM Evacuation.scanCopy) e = .ok () e' → e'.Follows φ →
      ∃ f', ((List.range' k count).forM Evacuation.scanCopy) f = .ok () f' ∧ Echo e' f' := by
  induction count with
  | zero =>
      intro k moves moves' e f e' _ _ hecho hrun _
      cases hrun
      exact ⟨f, rfl, hecho⟩
  | succ count ih =>
      intro k moves moves' e f e' hp hp' hecho hrun hfollows
      rw [List.range'_succ] at hrun ⊢
      obtain ⟨⟨⟩, e₁, hfirst, hrest⟩ := bind_eq_ok.mp hrun
      have hfollows₁ : e₁.Follows φ := by
        rw [← stateAfter_ok () e', ← hrest] at hfollows
        exact hfollows.before fun a copy => Keeps.forM fun k _ =>
          (Evacuation.forwards_lasts a copy).scanCopy k
      obtain ⟨f₁, hfirst', hecho₁⟩ :=
        scanCopy hsettled hsettled' hreloc hp hp' hecho hfirst hfollows₁
      obtain ⟨_, hp₁, -⟩ := hp.scanCopy hsettled rfl
        (fun a o ha hget v hv b hb => Heap.Reachable.step ha hget hv hb) hfirst
      obtain ⟨_, hp₁', -⟩ := hp'.scanCopy hsettled' rfl (fun _ _ _ _ _ _ _ _ => trivial) hfirst'
      obtain ⟨f', hrest', hecho'⟩ := ih hp₁ hp₁' hecho₁ hrest hfollows
      exact ⟨f', bind_eq_ok.mpr ⟨(), f₁, hfirst', hrest'⟩, hecho'⟩

/-- The second collection scans what the first one has scanned.  It may do so in fewer rounds, as
the pool that it leaves has no more objects than there are copies; rounds without a copy do
nothing. -/
theorem scan (hp : Progress h (Heap.Reachable h roots) 0 moves e) (hroot : e.root = h.root)
    (hp' : Progress h' (fun _ => True) 0 moves' f) (hroot' : f.root = h'.root)
    (hpositions : h'.root.positions = h.root.positions) (hecho : Echo e f)
    (hrun : Evacuation.scan e = .ok () e') (hfollows : e'.Follows φ) :
    ∃ f', Evacuation.scan f = .ok () f' ∧ Echo e' f' := by
  obtain ⟨_, _, hget, hrun⟩ := bind_eq_ok.mp hrun
  cases hget
  obtain ⟨⟨⟩, e₁, hrootScan, hrun⟩ := bind_eq_ok.mp hrun
  obtain ⟨_, _, hget, hcopyScan⟩ := bind_eq_ok.mp hrun
  cases hget
  rw [List.range_eq_range'] at hcopyScan
  -- the root pool
  have hfollows₁ : e₁.Follows φ := by
    rw [← stateAfter_ok () e', ← hcopyScan] at hfollows
    exact hfollows.before fun a copy => Keeps.forM fun k _ =>
      (Evacuation.forwards_lasts a copy).scanCopy k
  have hstart : Progress.RootsScanned h [] moves e := Progress.rootsScanned_nil hroot
  have hstart' : Progress.RootsScanned h' [] moves' f := Progress.rootsScanned_nil hroot'
  have hnodup : ([] ++ e.root.positions).Nodup := by simpa using e.root.nodup_positions
  obtain ⟨f₁, hrootScan', hecho₁⟩ := scanRoots hsettled hsettled' hreloc hp hstart hp' hstart'
    hecho hnodup hrootScan hfollows₁
  obtain ⟨_, hp₁, -⟩ := hp.scanRoots hsettled hstart hnodup
    (fun s i o ho v hv a ha => Heap.Reachable.permanent ho hv ha) hrootScan
  obtain ⟨_, hp₁', -⟩ := hp'.scanRoots hsettled' hstart' hnodup
    (fun _ _ _ _ _ _ _ _ => trivial) hrootScan'
  -- the copies
  obtain ⟨f', hcopyScan', hecho'⟩ := scanCopies hsettled hsettled' hreloc
    (by simpa using hp₁) (by simpa using hp₁') hecho₁ hcopyScan hfollows
  refine ⟨f', ?_, hecho'⟩
  have hpositions' : f.root.positions = e.root.positions := by rw [hroot, hroot', hpositions]
  refine bind_eq_ok.mpr ⟨f, f, rfl, bind_eq_ok.mpr ⟨(), f₁, ?_, ?_⟩⟩
  · rw [hpositions']
    exact hrootScan'
  · refine bind_eq_ok.mpr ⟨f₁, f₁, rfl, ?_⟩
    rw [List.range_eq_range']
    obtain ⟨_, hp₂, -⟩ := Progress.scanCopies hsettled
      (fun a o ha hget v hv b hb => Heap.Reachable.step ha hget hv hb)
      (by simpa using hp₁) hcopyScan
    refine Evacuation.scanCopies_of_rounds hcopyScan' ?_ fun f₂ hrounds => ?_
    · rw [hecho'.copies, Array.size_map, hp₂.size_copies, hp₁.source_count]
      exact hp₂.length_le
    · obtain ⟨_, hp₂', -⟩ := Progress.scanCopies hsettled' (fun _ _ _ _ _ _ _ _ => trivial)
        (by simpa using hp₁') hrounds
      rw [hp₂'.size_copies, hp₁'.source_count]
      exact hp₂'.length_le

end Steps

end Echo

/-! ## The theorem -/

namespace Heap

/-- The heap `h'` is `h` one epoch later. -/
structure Renews (h' h : Heap) : Prop where
  settings : h'.settings = h.settings
  threshold : h'.threshold = h.threshold
  collections : h'.collections = h.collections + 1
  root_epoch : h'.root.epoch = h.root.epoch
  root_at? : ∀ s i, h'.root.at? s i = (h.root.at? s i).map (·.map Handle.renewed)
  ephemeral : h'.ephemeral.Repeats h.ephemeral
  ephemeral_at? : ∀ s i, h'.ephemeral.at? s i = (h.ephemeral.at? s i).map (·.map Handle.renewed)

/-- A collection neither moves nor adds root objects. -/
theorem positions_root (h : Heap) (roots : List Value) :
    (h.collect roots).heap.root.positions = h.root.positions := by
  have hlayout : Evacuation.Invariant fun e =>
      e.root.segments.map Segment.extent = h.root.segments.map Segment.extent :=
    { copied := fun he _ _ _ => he
      rootScanned := fun he _ _ => (Pool.Repeats.extents_update ..).trans he
      copyScanned := fun he _ _ _ => he }
  obtain ⟨e, he, hroot, -, -⟩ := hlayout.collect rfl roots
  rw [hroot]
  exact Pool.positions_congr he

/-- Before anything is copied the two collections are as far as each other. -/
theorem echo_startEvacuation {h h' : Heap} (hsettled : h.Settled) (hsettled' : h'.Settled)
    (hsettings : h'.settings = h.settings)
    (hepoch : h'.ephemeral.epoch = nextEpoch h.ephemeral.epoch) :
    Echo h.startEvacuation h'.startEvacuation := by
  have hnone : ∀ {h : Heap}, h.Settled → ∀ a copy, ¬h.startEvacuation.Forwards a copy := by
    rintro h hsettled a copy ⟨o, hget, hstate⟩
    rw [hsettled.state_of_get hget] at hstate
    cases hstate
  constructor
  case copies => simp [startEvacuation]
  case words => rfl
  case forwards =>
    intro c d
    constructor
    · exact fun hmoved => absurd hmoved (hnone hsettled' c d)
    · rintro ⟨-, a, hmoved⟩
      exact absurd hmoved (hnone hsettled a c)
  case target =>
    constructor
    case epoch => exact congrArg nextEpoch hepoch
    all_goals simp [startEvacuation, Pool.empty, hsettings]

/-- The moves of the second collection lead to the same places one epoch later. -/
theorem Finished.map_place {h : Heap} (hsettled : h.Settled) {roots : List Value}
    {out : Array Value} {moves : Moves} {e f : Evacuation} (hf : Finished h roots out moves f)
    (hecho : Echo e f) {v : Value} (hv : moves.Covers v) :
    v.map moves.place = v.map Handle.renewed := by
  apply Value.map_congr
  intro a ha
  cases hspace : a.space with
  | root => rw [(hf.progress.ephemeral hsettled).place_root hspace, Handle.renewed_of_root hspace]
  | ephemeral =>
      obtain ⟨copy, hcopy⟩ := hv a ⟨ha, hspace⟩
      rw [Moves.place, hcopy]
      exact ((hecho.forwards _ _).mp ((hf.progress.lookup_eq_some_iff hsettled).mp hcopy)).1

/-- After a collection that has ended, a second one with the same roots ends as well. -/
theorem runs_again {h : Heap} (hsettled : h.Settled) {roots : List Value} {out : Array Value}
    {e e' : Evacuation} (hroots : Evacuation.relocateEach roots h.startEvacuation = (out, e, none))
    (hscan : Evacuation.scan e = .ok () e') :
    ∃ out' f f', Evacuation.relocateEach out.toList (h.afterScan e').startEvacuation =
        (out', f, none) ∧ Evacuation.scan f = .ok () f' ∧ Echo e' f' := by
  have hcollect := collect_of_runs hroots hscan
  have hsettled' : (h.afterScan e').Settled := by
    simpa [hcollect] using settled_collect hsettled roots
  have hepoch : (h.afterScan e').ephemeral.epoch = nextEpoch h.ephemeral.epoch := by
    have hnext := epoch_collect h roots
    rw [hcollect] at hnext
    exact hnext
  have hpositions : (h.afterScan e').root.positions = h.root.positions := by
    simpa [hcollect] using positions_root h roots
  obtain ⟨moves, hf⟩ := finished_of_scan hsettled hroots hscan
  have hreloc : Relocation h roots (h.afterScan e') out.toList moves.place :=
    hf.relocation hsettled rfl rfl
  have hfollows : e'.Follows moves.place := by
    intro a copy hmoved
    rw [Moves.place, (hf.progress.lookup_eq_some_iff hsettled).mpr hmoved]
    rfl
  have hfollows₁ : e.Follows moves.place := by
    rw [← stateAfter_ok () e', ← hscan] at hfollows
    exact hfollows.before fun a copy => (Evacuation.forwards_lasts a copy).scan
  -- the roots
  have hreach : ∀ v ∈ roots, ∀ a, v.Refers a → Reachable h roots a :=
    fun v hv a ha => Reachable.root hv ha
  have hp := progress_startEvacuation h (Reachable h roots)
  have hp' := progress_startEvacuation (h.afterScan e') fun _ => True
  obtain ⟨out', f, hroots', hecho⟩ := Echo.relocateEach hsettled hsettled' hreloc hp hp'
    (echo_startEvacuation hsettled hsettled' rfl hepoch) hreach hroots hfollows₁
  rw [← hreloc.roots_eq] at hroots'
  obtain ⟨_, hp₁, -, -, hroot⟩ := hp.relocateEach hsettled hreach hroots
  obtain ⟨_, hp₁', -, -, hroot'⟩ := hp'.relocateEach hsettled' (fun _ _ _ _ => trivial) hroots'
  -- the scans
  obtain ⟨f', hscan', hecho'⟩ := Echo.scan hsettled hsettled' hreloc hp₁ hroot hp₁' hroot'
    hpositions hecho hscan hfollows
  exact ⟨out', f, f', hroots', hscan', hecho'⟩

/-- An object that a collection has copied is at the same place after the second one. -/
theorem ephemeral_at?_again {h : Heap} (hsettled : h.Settled) {roots roots' : List Value}
    {out out' : Array Value} {moves moves' : Moves} {e f : Evacuation}
    (hf : Finished h roots out moves e) (hsettled' : (h.afterScan e).Settled)
    (hf' : Finished (h.afterScan e) roots' out' moves' f) (hecho : Echo e f) (s i : Nat) :
    f.target.at? s i = (e.target.at? s i).map (·.map Handle.renewed) := by
  cases hat : e.target.at? s i with
  | none =>
      have hpositions := Pool.positions_congr hecho.target.extents
      by_contra hsome
      obtain ⟨o, ho⟩ := Option.ne_none_iff_exists'.mp hsome
      have hplace : (s, i) ∈ e.target.positions := hpositions ▸ Pool.mem_positions.mpr ⟨o, ho⟩
      obtain ⟨o', ho'⟩ := Pool.mem_positions.mp hplace
      cases hat.symm.trans ho'
  | some o =>
      -- the object is a copy, so the second collection has moved it
      have hget : e.target.get ⟨.ephemeral, e.target.epoch, s, i⟩ = .ok o :=
        Pool.get_eq_ok_iff.mpr ⟨hecho.target.space_first.symm, rfl, hat⟩
      obtain ⟨⟨a, copy⟩, hmove, hcopy⟩ := List.mem_map.mp (hf.progress.target_get _ o hget)
      obtain rfl : copy = ⟨.ephemeral, e.target.epoch, s, i⟩ := hcopy
      have hmoved : f.Forwards ⟨.ephemeral, e.target.epoch, s, i⟩
          (Handle.renewed ⟨.ephemeral, e.target.epoch, s, i⟩) :=
        (hecho.forwards _ _).mpr ⟨rfl, a, (hf.progress.lookup_eq_some_iff hsettled).mp
          (Moves.lookup_of_mem hf.progress.nodup_old hmove)⟩
      obtain ⟨k, hk⟩ := List.getElem?_of_mem
        (Moves.mem_of_lookup ((hf'.progress.lookup_eq_some_iff hsettled').mpr hmoved))
      obtain ⟨o', hget', hscanned, -⟩ := hf'.progress.copied k _ _ hk
      cases hget.symm.trans hget'
      obtain ⟨hcopy', hcovers⟩ := hscanned (List.getElem?_eq_some_iff.mp hk).1
      have hmap : o.map moves'.place = o.map Handle.renewed :=
        Object.map_congr fun v hv => hf'.map_place hsettled' hecho (hcovers v hv)
      rw [hmap, Handle.renewed_of_ephemeral rfl] at hcopy'
      exact (Pool.get_eq_ok_iff.mp hcopy').2.2

/-- A collection that succeeds can be repeated at once: it succeeds again, copies as many objects
and words into as many segments, and leaves everything where it is, one epoch later. -/
theorem collect_again {h : Heap} (hbuilt : Built h) {roots roots' : List Value} {cycle : Cycle}
    {h' : Heap} (hcollect : h.collect roots = ⟨.ok cycle, roots', h'⟩) :
    ∃ h'', h'.collect roots' = ⟨.ok
        { epoch := nextEpoch cycle.epoch
          objectsCopied := cycle.objectsCopied
          wordsCopied := cycle.wordsCopied
          segmentsBefore := cycle.segmentsAfter
          segmentsAfter := cycle.segmentsAfter },
        roots'.map (·.map Handle.renewed), h''⟩ ∧ h''.Renews h' := by
  have hsettled := hbuilt.settled
  have hsettled' : h'.Settled := by simpa [hcollect] using settled_collect hsettled roots
  obtain ⟨out, e, e', hroots, hscan⟩ := runs_of_collect hcollect
  cases hcollect.symm.trans (collect_of_runs hroots hscan)
  obtain ⟨out', f, f', hroots', hscan', hecho⟩ := runs_again hsettled hroots hscan
  obtain ⟨moves, hf⟩ := finished_of_scan hsettled hroots hscan
  obtain ⟨moves', hf'⟩ := finished_of_scan hsettled' hroots' hscan'
  refine ⟨(h.afterScan e').afterScan f', ?_, ?_⟩
  · have hout : out'.toList = out.toList.map (·.map Handle.renewed) := by
      rw [hf'.roots_eq]
      exact List.map_congr_left fun v hv => hf'.map_place hsettled' hecho (hf'.roots_covers v hv)
    rw [collect_of_runs hroots' hscan', hout, hecho.target.epoch, hecho.words, hecho.target.size,
      hecho.copies, Array.size_map]
    rfl
  · constructor
    case settings => rfl
    case threshold => exact congrArg (nextThreshold h.settings) hecho.target.size
    case collections => rfl
    case root_epoch => exact hf'.root_epoch
    case ephemeral => exact hecho.target
    case ephemeral_at? => exact ephemeral_at?_again hsettled hf hsettled' hf' hecho
    case root_at? =>
      intro s i
      change f'.root.at? s i = _
      rw [hf'.root_at?]
      cases ho : (h.afterScan e').root.at? s i with
      | none => rfl
      | some o =>
          have hmap : o.map moves'.place = o.map Handle.renewed := Object.map_congr fun v hv =>
            hf'.map_place hsettled' hecho (hf'.root_covers s i o ho v hv)
          simp [hmap]

/-- The cycle of two objects is copied a second time, to where it is. -/
theorem collect_again_cyclicHeap :
    (cyclicHeap.collect []).result = .ok ⟨2, 2, 7, 1, 1⟩ ∧
      ∃ roots h, (cyclicHeap.collect []).heap.collect (cyclicHeap.collect []).roots =
        ⟨.ok ⟨3, 2, 7, 1, 1⟩, roots, h⟩ ∧ h.Renews (cyclicHeap.collect []).heap := by
  obtain ⟨h, hagain, hrenews⟩ := collect_again built_cyclicHeap collect_cyclicHeap
  exact ⟨congrArg Collected.result collect_cyclicHeap, _, h, hagain, hrenews⟩

end Heap

end MessageMachine
