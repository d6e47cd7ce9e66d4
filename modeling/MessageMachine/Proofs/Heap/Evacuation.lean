import Mathlib.Algebra.Ring.Nat
import MessageMachine.Proofs.Heap.Graph
import MessageMachine.Proofs.Heap.Pool

/-!
# The invariant of a collection

A collection is followed through the list of its moves: which object went where, in the order of
copying.  `Progress` is the invariant.  It ties the moves to the three pools:

* the pool being left holds the old objects, those moved marked as forwarded (`source_at?`);
* the pool being filled holds exactly the copies (`copied`, `target_get`), the first `scanned` of
  them with their references replaced and the others as they were.

Moves are only ever added at the end, so what has been replaced stays replaced
(`Moves.map_place_eq`).

`Progress.evacuate` is the step: it moves at most one object.  `Progress.relocateEach`,
`Progress.scanRoot` and `Progress.scanCopy` carry the step over the roots, a root object and a copy,
and `Progress.scan` over the whole scan.
-/

namespace MessageMachine

/-! ## Moves -/

/-- The objects moved so far, each with its old and its new handle, in the order of copying. -/
abbrev Moves := List (Handle × Handle)

namespace Moves

/-- Where a handle leads after the moves. -/
def place (moves : Moves) (a : Handle) : Handle := (moves.lookup a).getD a

/-- The object at a handle of the pool being left, as the moves have marked it. -/
def mark (moves : Moves) (a : Handle) (o : Object) : Object :=
  match moves.lookup a with
  | some copy => o.forward copy
  | none => o

/-- Whether the ephemeral object that a value refers to, if any, has been moved. -/
def Covers (moves : Moves) (v : Value) : Prop := ∀ a, v.Refers a → ∃ copy, moves.lookup a = some copy

theorem lookup_append_of_some {moves more : Moves} {a copy : Handle}
    (h : moves.lookup a = some copy) : (moves ++ more).lookup a = some copy := by
  rw [List.lookup_append, h]
  rfl

theorem lookup_append_of_ne (moves : Moves) {a b : Handle} (hne : b ≠ a) (copy : Handle) :
    (moves ++ [(a, copy)]).lookup b = moves.lookup b := by
  rw [List.lookup_append, List.lookup_cons, beq_eq_false_iff_ne.mpr hne]
  simp

theorem Covers.append {moves : Moves} {v : Value} (h : moves.Covers v) (more : Moves) :
    Covers (moves ++ more) v := by
  intro a ha
  obtain ⟨copy, hcopy⟩ := h a ha
  exact ⟨copy, lookup_append_of_some hcopy⟩

/-- A handle that was never moved stays. -/
theorem lookup_eq_none_of_notMem {moves : Moves} {a : Handle} (h : a ∉ moves.map Prod.fst) :
    moves.lookup a = none := by
  rw [List.lookup_eq_none_iff]
  intro move hmove
  simp only [bne_iff_ne, ne_eq]
  rintro rfl
  exact h (List.mem_map_of_mem hmove)

theorem mem_of_lookup {moves : Moves} {a copy : Handle} (h : moves.lookup a = some copy) :
    (a, copy) ∈ moves := by
  obtain ⟨before, rest, hsplit, -⟩ := List.lookup_eq_some_iff.mp h
  rw [hsplit]
  simp

theorem lookup_of_mem {moves : Moves} (hnodup : (moves.map Prod.fst).Nodup) {a copy : Handle}
    (h : (a, copy) ∈ moves) : moves.lookup a = some copy := by
  induction moves with
  | nil => simp at h
  | cons move moves ih =>
      obtain ⟨b, c⟩ := move
      rw [List.map_cons, List.nodup_cons] at hnodup
      rcases List.mem_cons.mp h with heq | hmem
      · cases heq
        simp
      · have hne : a ≠ b := by
          rintro rfl
          exact hnodup.1 (List.mem_map.mpr ⟨_, hmem, rfl⟩)
        rw [List.lookup_cons, beq_eq_false_iff_ne.mpr hne]
        exact ih hnodup.2 hmem

/-- Only ephemeral objects are moved. -/
def Ephemeral (moves : Moves) : Prop := ∀ move ∈ moves, move.1.space = .ephemeral

theorem Ephemeral.place_root {moves : Moves} (h : moves.Ephemeral) {a : Handle}
    (hroot : a.space = .root) : moves.place a = a := by
  have hnone : moves.lookup a = none := by
    apply lookup_eq_none_of_notMem
    rw [List.mem_map]
    rintro ⟨move, hmove, rfl⟩
    rw [h move hmove] at hroot
    cases hroot
  simp [place, hnone]

/-- Adding moves changes nothing for a value that the moves cover already. -/
theorem map_place_append {moves more : Moves} (h : Ephemeral (moves ++ more)) {v : Value}
    (hv : moves.Covers v) : v.map (Moves.place (moves ++ more)) = v.map moves.place := by
  have hmoves : moves.Ephemeral := fun move hmove => h move (List.mem_append_left _ hmove)
  apply Value.map_congr
  intro a ha
  cases hspace : a.space with
  | root => rw [hmoves.place_root hspace, h.place_root hspace]
  | ephemeral =>
      obtain ⟨copy, hcopy⟩ := hv a ⟨ha, hspace⟩
      simp [place, lookup_append_of_some hcopy, hcopy]

end Moves

/-! ## Heaps between collections -/

namespace Heap

/-- The pools are those of their spaces, and no ephemeral object is marked as moved. -/
structure Settled (h : Heap) : Prop where
  root_space : h.root.space = .root
  ephemeral_space : h.ephemeral.space = .ephemeral
  live : ∀ s i o, h.ephemeral.at? s i = some o → o.header.state = .live

theorem Settled.state_of_get {h : Heap} (hsettled : h.Settled) {a : Handle} {o : Object}
    (hget : h.ephemeral.get a = .ok o) : o.header.state = .live :=
  hsettled.live _ _ _ (Pool.get_eq_ok_iff.mp hget).2.2

end Heap

/-! ## The invariant -/

/-- How far a collection of the heap `h` has come.  The objects moved all satisfy `reach`. -/
structure Progress (h : Heap) (reach : Handle → Prop) (scanned : Nat) (moves : Moves)
    (e : Evacuation) : Prop where
  source_space : e.source.space = h.ephemeral.space
  source_epoch : e.source.epoch = h.ephemeral.epoch
  source_count : e.source.objectCount = h.ephemeral.objectCount
  source_at? : ∀ s i, e.source.at? s i =
    (h.ephemeral.at? s i).map (moves.mark ⟨.ephemeral, h.ephemeral.epoch, s, i⟩)
  target_space : e.target.space = .ephemeral
  copies_eq : e.copies.toList = moves.map Prod.snd
  nodup_old : (moves.map Prod.fst).Nodup
  nodup_new : (moves.map Prod.snd).Nodup
  reach_old : ∀ move ∈ moves, reach move.1
  scanned_le : scanned ≤ moves.length
  /-- The `k`-th copy is the object it was made from, with its references replaced once it has been
  scanned. -/
  copied : ∀ k a copy, moves[k]? = some (a, copy) → ∃ o, h.ephemeral.get a = .ok o ∧
    (k < scanned → e.target.get copy = .ok (o.map moves.place) ∧
      ∀ v ∈ o.references, moves.Covers v) ∧
    (scanned ≤ k → e.target.get copy = .ok o)
  target_get : ∀ b o, e.target.get b = .ok o → b ∈ moves.map Prod.snd
  words_eq : e.words = (moves.map fun move => h.wordsAt move.1).sum

namespace Progress

variable {h : Heap} {reach : Handle → Prop} {scanned : Nat} {moves : Moves} {e : Evacuation}

theorem get_of_mem (hp : Progress h reach scanned moves e) {move : Handle × Handle}
    (hmove : move ∈ moves) : ∃ o, h.ephemeral.get move.1 = .ok o := by
  obtain ⟨k, hk⟩ := List.getElem?_of_mem hmove
  obtain ⟨o, hget, -⟩ := hp.copied k move.1 move.2 hk
  exact ⟨o, hget⟩

theorem ephemeral (hsettled : h.Settled) (hp : Progress h reach scanned moves e) :
    moves.Ephemeral := by
  intro move hmove
  obtain ⟨o, hget⟩ := hp.get_of_mem hmove
  rw [(Pool.get_eq_ok_iff.mp hget).1, hsettled.ephemeral_space]

/-- What the pool being left answers is the old object, marked if it has been moved. -/
theorem source_get (hsettled : h.Settled) (hp : Progress h reach scanned moves e) {a : Handle}
    {o : Object} (hget : e.source.get a = .ok o) :
    ∃ old, h.ephemeral.get a = .ok old ∧ o = moves.mark a old := by
  obtain ⟨hspace, hepoch, hat⟩ := Pool.get_eq_ok_iff.mp hget
  rw [hp.source_space] at hspace
  rw [hp.source_epoch] at hepoch
  have ha : (⟨.ephemeral, h.ephemeral.epoch, a.segment, a.index⟩ : Handle) = a := by
    rw [← hepoch, ← hsettled.ephemeral_space, ← hspace]
  rw [hp.source_at?, ha, Option.map_eq_some_iff] at hat
  obtain ⟨old, hold, rfl⟩ := hat
  exact ⟨old, Pool.get_eq_ok_iff.mpr ⟨hspace, hepoch, hold⟩, rfl⟩

/-- One more move: the object `old` at `a` is copied to `copy`. -/
theorem move (hsettled : h.Settled) (hp : Progress h reach scanned moves e) {a copy : Handle}
    {old : Object} (hold : h.ephemeral.get a = .ok old) (hnew : moves.lookup a = none)
    (hreach : reach a) (hreserve : e.target.reserve old.words = .ok copy) :
    Progress h reach scanned (moves ++ [(a, copy)])
      { e with
        source := e.source.update a.segment a.index (·.forward copy)
        target := e.target.push old
        copies := e.copies.push copy
        words := e.words + old.words } := by
  obtain ⟨hspace, hepoch, hat⟩ := Pool.get_eq_ok_iff.mp hold
  have ha : (⟨.ephemeral, h.ephemeral.epoch, a.segment, a.index⟩ : Handle) = a := by
    rw [← hepoch, ← hsettled.ephemeral_space, ← hspace]
  have hephemeral : Moves.Ephemeral (moves ++ [(a, copy)]) := by
    intro move hmove
    rcases List.mem_append.mp hmove with hmove | hmove
    · exact hp.ephemeral hsettled move hmove
    · cases List.mem_singleton.mp hmove
      rw [hspace, hsettled.ephemeral_space]
  have hfresh : copy ∉ moves.map Prod.snd := by
    rw [List.mem_map]
    rintro ⟨⟨b, c⟩, hmove, rfl⟩
    obtain ⟨k, hk⟩ := List.getElem?_of_mem hmove
    obtain ⟨o, -, hscanned, hunscanned⟩ := hp.copied k b c hk
    have htaken : ∃ o, e.target.get c = .ok o := by
      rcases Nat.lt_or_ge k scanned with hlt | hge
      · exact ⟨_, (hscanned hlt).1⟩
      · exact ⟨_, hunscanned hge⟩
    obtain ⟨o, ho⟩ := htaken
    have hnone := Pool.at?_of_reserve hreserve
    rw [(Pool.get_eq_ok_iff.mp ho).2.2] at hnone
    cases hnone
  have hnotMem : a ∉ moves.map Prod.fst := by
    rw [List.mem_map]
    rintro ⟨move, hmove, rfl⟩
    rw [Moves.lookup_of_mem hp.nodup_old hmove] at hnew
    cases hnew
  constructor
  case source_space => exact hp.source_space
  case source_epoch => exact hp.source_epoch
  case source_count => rw [Pool.objectCount_update, hp.source_count]
  case source_at? =>
    intro s i
    rw [Pool.at?_update]
    by_cases hplace : s = a.segment ∧ i = a.index
    · obtain ⟨rfl, rfl⟩ := hplace
      rw [if_pos ⟨rfl, rfl⟩, hp.source_at?, ha, hat]
      simp [Moves.mark, List.lookup_append, hnew]
    · rw [if_neg hplace, hp.source_at?]
      have hne : (⟨.ephemeral, h.ephemeral.epoch, s, i⟩ : Handle) ≠ a := by
        rintro rfl
        exact hplace ⟨rfl, rfl⟩
      have hlookup : Moves.mark (moves ++ [(a, copy)]) ⟨.ephemeral, h.ephemeral.epoch, s, i⟩ =
          moves.mark ⟨.ephemeral, h.ephemeral.epoch, s, i⟩ := by
        funext o
        simp only [Moves.mark, Moves.lookup_append_of_ne moves hne]
      rw [hlookup]
  case target_space => rw [Pool.space_push, hp.target_space]
  case copies_eq => simp [hp.copies_eq]
  case nodup_old =>
    rw [List.map_append, List.nodup_append]
    refine ⟨hp.nodup_old, by simp, ?_⟩
    rintro b hb c hc rfl
    simp only [List.map_cons, List.map_nil, List.mem_singleton] at hc
    exact hnotMem (hc ▸ hb)
  case nodup_new =>
    rw [List.map_append, List.nodup_append]
    refine ⟨hp.nodup_new, by simp, ?_⟩
    rintro b hb c hc rfl
    simp only [List.map_cons, List.map_nil, List.mem_singleton] at hc
    exact hfresh (hc ▸ hb)
  case reach_old =>
    intro move hmove
    rcases List.mem_append.mp hmove with hmove | hmove
    · exact hp.reach_old move hmove
    · cases List.mem_singleton.mp hmove
      exact hreach
  case scanned_le =>
    rw [List.length_append]
    exact hp.scanned_le.trans (Nat.le_add_right ..)
  case copied =>
    intro k b c hk
    rcases Nat.lt_or_ge k moves.length with hlt | hge
    · rw [List.getElem?_append_left hlt] at hk
      obtain ⟨o, hget, hscanned, hunscanned⟩ := hp.copied k b c hk
      refine ⟨o, hget, ?_, fun hle => Pool.get_push_of_ok hreserve (hunscanned hle)⟩
      intro hdone
      obtain ⟨hcopy, hcovers⟩ := hscanned hdone
      refine ⟨?_, fun v hv => (hcovers v hv).append _⟩
      have hmap : o.map (Moves.place (moves ++ [(a, copy)])) = o.map moves.place :=
        Object.map_congr fun v hv => Moves.map_place_append hephemeral (hcovers v hv)
      rw [hmap]
      exact Pool.get_push_of_ok hreserve hcopy
    · rw [List.getElem?_append_right hge] at hk
      have hk0 : k - moves.length = 0 := by
        by_contra hne
        rw [List.getElem?_eq_none (by simp; omega)] at hk
        cases hk
      rw [hk0] at hk
      cases hk
      refine ⟨old, hold, fun hlt => ?_, fun _ => Pool.get_push_self hreserve⟩
      exact absurd (hlt.trans_le hp.scanned_le) (Nat.not_lt.mpr hge)
  case target_get =>
    intro b o hget
    obtain ⟨hbspace, hbepoch, hbat⟩ := Pool.get_eq_ok_iff.mp hget
    rw [Pool.space_push] at hbspace
    rw [Pool.epoch_push] at hbepoch
    rw [Pool.at?_push hreserve] at hbat
    rw [List.map_append, List.mem_append]
    by_cases hplace : b.segment = copy.segment ∧ b.index = copy.index
    · right
      have hb : b = copy :=
        Handle.eq_of_place (hbspace.trans (Pool.space_of_reserve hreserve).symm)
          (hbepoch.trans (Pool.epoch_of_reserve hreserve).symm) hplace.1 hplace.2
      simp [hb]
    · rw [if_neg hplace] at hbat
      exact Or.inl (hp.target_get b o (Pool.get_eq_ok_iff.mpr ⟨hbspace, hbepoch, hbat⟩))
  case words_eq =>
    have hwords : h.wordsAt a = old.words := by simp [Heap.wordsAt, hold]
    simp [hp.words_eq, hwords]

/-! ## The step -/

/-- Evacuating a value moves at most one object, after which the value is covered and its
relocated form is the answer. -/
theorem evacuate (hsettled : h.Settled) (hp : Progress h reach scanned moves e) {v v' : Value}
    {e' : Evacuation} (hreach : ∀ a, v.Refers a → reach a)
    (hrun : Evacuation.evacuate v e = .ok v' e') :
    ∃ more, Progress h reach scanned (moves ++ more) e' ∧ Moves.Covers (moves ++ more) v ∧
      v' = v.map (Moves.place (moves ++ more)) ∧ e'.root = e.root := by
  unfold Evacuation.evacuate at hrun
  cases hhandle : v.handle? with
  | none =>
      simp only [hhandle] at hrun
      cases hrun
      refine ⟨[], by simpa using hp, ?_, ?_, rfl⟩
      · rintro a ⟨ha, -⟩
        rw [hhandle] at ha
        cases ha
      · exact (Value.map_eq_self fun a ha => by rw [hhandle] at ha; cases ha).symm
  | some a =>
      simp only [hhandle] at hrun
      split at hrun
      · next hroot =>
        cases hrun
        refine ⟨[], by simpa using hp, ?_, ?_, rfl⟩
        · rintro b ⟨hb, hspace⟩
          rw [hhandle] at hb
          cases hb
          rw [hroot] at hspace
          cases hspace
        · refine (Value.map_eq_self fun b hb => ?_).symm
          rw [hhandle] at hb
          cases hb
          simpa using (hp.ephemeral hsettled).place_root hroot
      · next hroot =>
        have hspace : a.space = .ephemeral := by
          cases hcases : a.space with
          | ephemeral => rfl
          | root => exact absurd hcases hroot
        have hcovers : ∀ {copy : Handle} {moves' : Moves}, moves'.lookup a = some copy →
            Moves.Covers moves' v ∧ v.relocate copy = v.map moves'.place := by
          intro copy moves' hlookup
          refine ⟨?_, ?_⟩
          · rintro b ⟨hb, -⟩
            rw [hhandle] at hb
            cases hb
            exact ⟨copy, hlookup⟩
          · rw [Value.map_eq_relocate hhandle, Moves.place, hlookup]
            rfl
        cases hsource : e.source.get a with
        | error fault =>
            simp only [hsource] at hrun
            cases hrun
        | ok o =>
            simp only [hsource] at hrun
            obtain ⟨old, hold, ho⟩ := hp.source_get hsettled hsource
            have hlive := hsettled.state_of_get hold
            cases hlookup : moves.lookup a with
            | some copy =>
                have hstate : o.header.state = .forwarded copy := by
                  rw [ho, Moves.mark, hlookup]
                  rfl
                simp only [hstate] at hrun
                cases hrun
                obtain ⟨hv, hmap⟩ := hcovers hlookup
                exact ⟨[], by simpa using hp, by simpa using hv, by simpa using hmap, rfl⟩
            | none =>
                have hunmarked : o = old := by
                  rw [ho, Moves.mark, hlookup]
                subst hunmarked
                simp only [hlive] at hrun
                cases hreserve : e.target.reserve o.words with
                | error fault =>
                    simp only [hreserve] at hrun
                    cases hrun
                | ok copy =>
                    simp only [hreserve] at hrun
                    cases hrun
                    have hnew : (moves ++ [(a, copy)]).lookup a = some copy := by
                      rw [List.lookup_append, hlookup]
                      simp
                    obtain ⟨hv, hmap⟩ := hcovers hnew
                    exact ⟨[(a, copy)], hp.move hsettled hold hlookup (hreach a ⟨hhandle, hspace⟩)
                      hreserve, hv, hmap, rfl⟩

theorem relocateAfter (hsettled : h.Settled) {vs : List Value} :
    ∀ {moves : Moves} {e : Evacuation} {done out : Array Value} {e' : Evacuation},
      Progress h reach scanned moves e → (∀ v ∈ vs, ∀ a, v.Refers a → reach a) →
      Evacuation.relocateAfter done vs e = (out, e', none) →
      ∃ more, Progress h reach scanned (moves ++ more) e' ∧
        (∀ v ∈ vs, Moves.Covers (moves ++ more) v) ∧
        out.toList = done.toList ++ vs.map (·.map (Moves.place (moves ++ more))) ∧
        e'.root = e.root := by
  induction vs with
  | nil =>
      intro moves e done out e' hp _ hrun
      simp only [Evacuation.relocateAfter, Prod.mk.injEq] at hrun
      obtain ⟨rfl, rfl, -⟩ := hrun
      exact ⟨[], by simpa using hp, by simp, by simp, rfl⟩
  | cons v vs ih =>
      intro moves e done out e' hp hreach hrun
      rw [Evacuation.relocateAfter] at hrun
      cases hv : Evacuation.evacuate v e with
      | error fault e₁ =>
          simp only [hv, Prod.mk.injEq] at hrun
          obtain ⟨-, -, hfault⟩ := hrun
          cases hfault
      | ok moved e₁ =>
          simp only [hv] at hrun
          obtain ⟨more, hp₁, hcovers, hmoved, hroot⟩ :=
            hp.evacuate hsettled (hreach v (List.mem_cons_self ..)) hv
          obtain ⟨rest, hp', hrest, hout, hroot'⟩ :=
            ih hp₁ (fun w hw => hreach w (List.mem_cons_of_mem _ hw)) hrun
          rw [List.append_assoc] at hp' hrest hout
          refine ⟨more ++ rest, hp', ?_, ?_, hroot'.trans hroot⟩
          · intro w hw
            rcases List.mem_cons.mp hw with rfl | hw
            · rw [← List.append_assoc]
              exact hcovers.append rest
            · exact hrest w hw
          · have hsame : v.map (Moves.place (moves ++ (more ++ rest))) = moved := by
              rw [hmoved, ← List.append_assoc]
              apply Moves.map_place_append _ hcovers
              rw [List.append_assoc]
              exact hp'.ephemeral hsettled
            simp [hout, hsame]

/-- Relocating values one after the other covers them all and answers their relocated forms. -/
theorem relocateEach (hsettled : h.Settled) (hp : Progress h reach scanned moves e)
    {vs : List Value} {out : Array Value} {e' : Evacuation}
    (hreach : ∀ v ∈ vs, ∀ a, v.Refers a → reach a)
    (hrun : Evacuation.relocateEach vs e = (out, e', none)) :
    ∃ more, Progress h reach scanned (moves ++ more) e' ∧
      (∀ v ∈ vs, Moves.Covers (moves ++ more) v) ∧
      out.toList = vs.map (·.map (Moves.place (moves ++ more))) ∧ e'.root = e.root := by
  rw [Evacuation.relocateEach] at hrun
  simpa using hp.relocateAfter hsettled hreach hrun

/-! ## Scanning the root pool -/

/-- The objects of the root pool in the given places have their references replaced, the others are
as they were. -/
structure RootsScanned (h : Heap) (places : List (Nat × Nat)) (moves : Moves) (e : Evacuation) :
    Prop where
  root_epoch : e.root.epoch = h.root.epoch
  root_at? : ∀ s i, e.root.at? s i =
    if (s, i) ∈ places then (h.root.at? s i).map (·.map moves.place) else h.root.at? s i
  covers : ∀ s i o, (s, i) ∈ places → h.root.at? s i = some o → ∀ v ∈ o.references, moves.Covers v

/-- A root pool that is as it was has not been scanned. -/
theorem rootsScanned_nil (hroot : e.root = h.root) : RootsScanned h [] moves e := by
  constructor
  · rw [hroot]
  · intro s i
    simp [hroot]
  · intro s i o hplace
    simp at hplace

/-- Adding moves does not undo what has been scanned. -/
theorem RootsScanned.append {places : List (Nat × Nat)} {more : Moves} {e' : Evacuation}
    (hroots : RootsScanned h places moves e) (hephemeral : Moves.Ephemeral (moves ++ more))
    (hroot : e'.root = e.root) : RootsScanned h places (moves ++ more) e' := by
  constructor
  · rw [hroot, hroots.root_epoch]
  · intro s i
    rw [hroot, hroots.root_at?]
    by_cases hplace : (s, i) ∈ places
    · rw [if_pos hplace, if_pos hplace]
      cases ho : h.root.at? s i with
      | none => rfl
      | some o =>
          have hmap : o.map (Moves.place (moves ++ more)) = o.map moves.place :=
            Object.map_congr fun v hv =>
              Moves.map_place_append hephemeral (hroots.covers s i o hplace ho v hv)
          simp [hmap]
    · rw [if_neg hplace, if_neg hplace]
  · intro s i o hplace ho v hv
    exact (hroots.covers s i o hplace ho v hv).append more

theorem scanRoot (hsettled : h.Settled) {places : List (Nat × Nat)} {s i : Nat}
    {e' : Evacuation} (hp : Progress h reach scanned moves e)
    (hroots : RootsScanned h places moves e) (hnew : (s, i) ∉ places)
    (hreach : ∀ o, h.root.at? s i = some o → ∀ v ∈ o.references, ∀ a, v.Refers a → reach a)
    (hrun : Evacuation.scanRoot s i e = .ok () e') :
    ∃ more, Progress h reach scanned (moves ++ more) e' ∧
      RootsScanned h ((s, i) :: places) (moves ++ more) e' := by
  have hat : e.root.at? s i = h.root.at? s i := by
    rw [hroots.root_at?, if_neg hnew]
  unfold Evacuation.scanRoot at hrun
  cases ho : h.root.at? s i with
  | none =>
      simp only [hat, ho] at hrun
      cases hrun
      refine ⟨[], by simpa using hp, ?_⟩
      constructor
      · exact hroots.root_epoch
      · intro s' i'
        rw [List.append_nil, hroots.root_at?]
        by_cases hplace : (s', i') = (s, i)
        · cases hplace
          simp [hnew, ho]
        · simp [hplace]
      · intro s' i' o hplace ho'
        rcases List.mem_cons.mp hplace with hplace | hplace
        · cases hplace
          rw [ho] at ho'
          cases ho'
        · rw [List.append_nil]
          exact hroots.covers s' i' o hplace ho'
  | some o =>
      simp only [hat, ho] at hrun
      rcases hrelocate : Evacuation.relocateEach o.references e with ⟨out, e₁, fault⟩
      cases fault with
      | some fault =>
          simp only [hrelocate] at hrun
          cases hrun
      | none =>
          simp only [hrelocate] at hrun
          cases hrun
          obtain ⟨more, hp₁, hcovers, hout, hroot⟩ :=
            hp.relocateEach hsettled (hreach o ho) hrelocate
          have hroots₁ := hroots.append (hp₁.ephemeral hsettled) hroot
          refine ⟨more, { hp₁ with }, ?_⟩
          have hset : o.setReferences out = o.map (Moves.place (moves ++ more)) := by
            rw [← Object.setReferences_map, ← hout]
          constructor
          · exact hroots₁.root_epoch
          · intro s' i'
            rw [Pool.at?_update]
            by_cases hplace : s' = s ∧ i' = i
            · obtain ⟨rfl, rfl⟩ := hplace
              rw [if_pos ⟨rfl, rfl⟩, hroot, hat, ho]
              simp [hset]
            · have hne : (s', i') ≠ (s, i) := fun heq => hplace ⟨congrArg Prod.fst heq, congrArg Prod.snd heq⟩
              rw [if_neg hplace, hroots₁.root_at?]
              simp [hne]
          · intro s' i' o' hplace ho'
            rcases List.mem_cons.mp hplace with hplace | hplace
            · cases hplace
              rw [ho] at ho'
              cases ho'
              exact hcovers
            · exact hroots₁.covers s' i' o' hplace ho'

/-- Scanning places of the root pool, each once, replaces the references of all of them. -/
theorem scanRoots (hsettled : h.Settled) {todo : List (Nat × Nat)} :
    ∀ {places : List (Nat × Nat)} {moves : Moves} {e e' : Evacuation},
      Progress h reach scanned moves e → RootsScanned h places moves e →
      (places ++ todo).Nodup →
      (∀ s i o, h.root.at? s i = some o → ∀ v ∈ o.references, ∀ a, v.Refers a → reach a) →
      (todo.forM fun (s, i) => Evacuation.scanRoot s i) e = .ok () e' →
      ∃ more, Progress h reach scanned (moves ++ more) e' ∧
        ∃ all, (∀ place, place ∈ all ↔ place ∈ places ∨ place ∈ todo) ∧
          RootsScanned h all (moves ++ more) e' := by
  induction todo with
  | nil =>
      intro places moves e e' hp hroots _ _ hrun
      cases hrun
      exact ⟨[], by simpa using hp, places, by simp, by simpa using hroots⟩
  | cons place todo ih =>
      intro places moves e e' hp hroots hnodup hreach hrun
      obtain ⟨s, i⟩ := place
      obtain ⟨⟨⟩, e₁, hfirst, hrest⟩ := bind_eq_ok.mp hrun
      have hnew : (s, i) ∉ places := by
        intro hmem
        exact (List.nodup_append.mp hnodup).2.2 (s, i) hmem (s, i) (List.mem_cons_self ..) rfl
      obtain ⟨more, hp₁, hroots₁⟩ := hp.scanRoot hsettled hroots hnew (hreach s i) hfirst
      obtain ⟨rest, hp', all, hall, hroots'⟩ := ih hp₁ hroots₁
        (List.perm_middle.nodup_iff.mp hnodup) hreach hrest
      rw [List.append_assoc] at hp' hroots'
      refine ⟨more ++ rest, hp', all, ?_, hroots'⟩
      intro place
      rw [hall, List.mem_cons, List.mem_cons]
      tauto

/-! ## Scanning the copies -/

/-- Replacing the references of the first copy that has not been scanned. -/
theorem rescan (hp : Progress h reach scanned moves e) {a copy : Handle} {o : Object}
    (hmove : moves[scanned]? = some (a, copy)) (hget : h.ephemeral.get a = .ok o)
    (hcovers : ∀ v ∈ o.references, moves.Covers v) :
    Progress h reach (scanned + 1) moves
      { e with target := e.target.update copy.segment copy.index fun _ => o.map moves.place } := by
  obtain ⟨found, hfound, -, hunscanned⟩ := hp.copied scanned a copy hmove
  obtain ⟨hspace, hepoch, hat⟩ := Pool.get_eq_ok_iff.mp (hunscanned le_rfl)
  have hlength : scanned < moves.length := (List.getElem?_eq_some_iff.mp hmove).1
  have hself : (e.target.update copy.segment copy.index fun _ => o.map moves.place).get copy =
      .ok (o.map moves.place) := by
    rw [Pool.get_eq_ok_iff, Pool.at?_update_self, hat]
    exact ⟨hspace, hepoch, rfl⟩
  have hother : ∀ b found, b ≠ copy → e.target.get b = .ok found →
      (e.target.update copy.segment copy.index fun _ => o.map moves.place).get b = .ok found := by
    intro b found hne hb
    obtain ⟨hbspace, hbepoch, hbat⟩ := Pool.get_eq_ok_iff.mp hb
    rw [Pool.get_eq_ok_iff, Pool.at?_update_of_ne]
    · exact ⟨hbspace, hbepoch, hbat⟩
    · rintro ⟨hsegment, hindex⟩
      exact hne (Handle.eq_of_place (hbspace.trans hspace.symm) (hbepoch.trans hepoch.symm)
        hsegment hindex)
  have hdifferent : ∀ k b c, moves[k]? = some (b, c) → k ≠ scanned → c ≠ copy := by
    rintro k b c hk hne rfl
    refine hne ((List.getElem?_inj ?_ hp.nodup_new).mp ?_)
    · simpa using (List.getElem?_eq_some_iff.mp hk).1
    · simp [hk, hmove]
  refine { hp with copied := ?_, target_get := ?_, scanned_le := hlength }
  · intro k b c hk
    by_cases hscanned : k = scanned
    · subst hscanned
      rw [hmove] at hk
      cases hk
      exact ⟨o, hget, fun _ => ⟨hself, hcovers⟩, fun hle => absurd hle (Nat.not_succ_le_self k)⟩
    · obtain ⟨o', hget', hdone, hopen⟩ := hp.copied k b c hk
      have hne := hdifferent k b c hk hscanned
      refine ⟨o', hget', ?_, ?_⟩
      · intro hlt
        obtain ⟨hcopy, hcovers'⟩ := hdone (by omega)
        exact ⟨hother c _ hne hcopy, hcovers'⟩
      · intro hle
        exact hother c _ hne (hopen (by omega))
  · intro b found hb
    by_cases heq : b = copy
    · rw [heq]
      exact List.mem_map.mpr ⟨(a, copy), List.mem_of_getElem? hmove, rfl⟩
    · obtain ⟨hbspace, hbepoch, hbat⟩ := Pool.get_eq_ok_iff.mp hb
      refine hp.target_get b found (Pool.get_eq_ok_iff.mpr ⟨hbspace, hbepoch, ?_⟩)
      rwa [Pool.at?_update_of_ne] at hbat
      rintro ⟨hsegment, hindex⟩
      exact heq (Handle.eq_of_place (hbspace.trans hspace.symm) (hbepoch.trans hepoch.symm)
        hsegment hindex)

/-- Scanning the `k`-th copy, if there is one. -/
theorem scanCopy (hsettled : h.Settled) {k : Nat} {e' : Evacuation}
    (hp : Progress h reach scanned moves e) (hscanned : scanned = min k moves.length)
    (hreach : ∀ a o, reach a → h.ephemeral.get a = .ok o → ∀ v ∈ o.references, ∀ b, v.Refers b →
      reach b)
    (hrun : Evacuation.scanCopy k e = .ok () e') :
    ∃ more, Progress h reach (min (k + 1) (moves ++ more).length) (moves ++ more) e' ∧
      e'.root = e.root := by
  have hcopies : e.copies[k]? = moves[k]?.map Prod.snd := by
    rw [← Array.getElem?_toList, hp.copies_eq, List.getElem?_map]
  unfold Evacuation.scanCopy at hrun
  cases hmove : moves[k]? with
  | none =>
      have hlength : moves.length ≤ k := List.getElem?_eq_none_iff.mp hmove
      simp only [hcopies, hmove, Option.map_none] at hrun
      cases hrun
      refine ⟨[], ?_, rfl⟩
      rw [List.append_nil, Nat.min_eq_right (by omega)]
      rwa [hscanned, Nat.min_eq_right hlength] at hp
  | some move =>
      obtain ⟨a, copy⟩ := move
      have hlength : k < moves.length := (List.getElem?_eq_some_iff.mp hmove).1
      rw [Nat.min_eq_left hlength.le] at hscanned
      subst hscanned
      obtain ⟨o, hget, -, hunscanned⟩ := hp.copied scanned a copy hmove
      obtain ⟨-, -, hat⟩ := Pool.get_eq_ok_iff.mp (hunscanned le_rfl)
      simp only [hcopies, hmove, Option.map_some, hat] at hrun
      rcases hrelocate : Evacuation.relocateEach o.references e with ⟨out, e₁, fault⟩
      cases fault with
      | some fault =>
          simp only [hrelocate] at hrun
          cases hrun
      | none =>
          simp only [hrelocate] at hrun
          cases hrun
          have hold : reach a := hp.reach_old (a, copy) (List.mem_of_getElem? hmove)
          obtain ⟨more, hp₁, hcovers, hout, hroot⟩ :=
            hp.relocateEach hsettled (hreach a o hold hget) hrelocate
          refine ⟨more, ?_, hroot⟩
          have hset : o.setReferences out = o.map (Moves.place (moves ++ more)) := by
            rw [← Object.setReferences_map, ← hout]
          rw [hset, Nat.min_eq_left (by rw [List.length_append]; omega)]
          exact hp₁.rescan (by rw [List.getElem?_append_left hlength, hmove]) hget hcovers

/-- Scanning `count` copies from the `k`-th on. -/
theorem scanCopies (hsettled : h.Settled) {count : Nat}
    (hreach : ∀ a o, reach a → h.ephemeral.get a = .ok o → ∀ v ∈ o.references, ∀ b, v.Refers b →
      reach b) :
    ∀ {k : Nat} {moves : Moves} {e e' : Evacuation},
      Progress h reach (min k moves.length) moves e →
      ((List.range' k count).forM Evacuation.scanCopy) e = .ok () e' →
      ∃ more, Progress h reach (min (k + count) (moves ++ more).length) (moves ++ more) e' ∧
        e'.root = e.root := by
  induction count with
  | zero =>
      intro k moves e e' hp hrun
      cases hrun
      exact ⟨[], by simpa using hp, rfl⟩
  | succ count ih =>
      intro k moves e e' hp hrun
      rw [List.range'_succ] at hrun
      obtain ⟨⟨⟩, e₁, hfirst, hrest⟩ := bind_eq_ok.mp hrun
      obtain ⟨more, hp₁, hroot⟩ := hp.scanCopy hsettled rfl hreach hfirst
      obtain ⟨rest, hp', hroot'⟩ := ih hp₁ hrest
      rw [List.append_assoc, Nat.add_assoc, Nat.add_comm 1] at hp'
      exact ⟨more ++ rest, hp', hroot'.trans hroot⟩

/-- No more objects are moved than there are. -/
theorem length_le (hp : Progress h reach scanned moves e) :
    moves.length ≤ h.ephemeral.objectCount := by
  rw [← List.length_map Prod.fst]
  refine Pool.length_le_of_get hp.nodup_old fun a ha => ?_
  obtain ⟨move, hmove, rfl⟩ := List.mem_map.mp ha
  exact hp.get_of_mem hmove

end Progress

end MessageMachine
