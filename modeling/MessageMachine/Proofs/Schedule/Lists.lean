import MessageMachine.Proofs.Frame.Bounds
import MessageMachine.Proofs.Lookup.NewMachine
import MessageMachine.Proofs.Machine.Runs
import MessageMachine.Proofs.Primitive.Evaluation
import MessageMachine.Proofs.Schedule.Collection
import MessageMachine.Proofs.Schedule.Creation
import MessageMachine.Proofs.Schedule.Reading

/-!
# Queues are lists

The queues of the scheduler are never out of order as long as nothing but the four operations and
collections touches them.  `Ranged k h queue lines` is what these keep: each queue leads from its first
link to its last, the owner knows both, and no two queues have a link in common.  Unlike `Arranged` it
says nothing about the values, which may be anything and be in a queue more than once.

* `Ranged.update` is about everything that an operation leaves alone; what is left for each of the four
  is its own queue.
* `Served m queue held` says that a history of operations on queues that were empty, with collections
  and work elsewhere in between, should have led to the lists `held`.

`Served.refines_lists` is the theorem.
-/

namespace MessageMachine

variable {ι : Type} {k : Landmarks} {h h' : Heap} {lines : ι → Line} {queue : ι → Queue}

/-! ## The ends of a line -/

/-- Taking out the first link with a value takes out the first occurrence of the value. -/
theorem map_snd_eraseP (line : Line) (value : Value) :
    (line.eraseP (·.2 = value)).map Prod.snd = (line.map Prod.snd).erase value := by
  rw [List.erase_eq_eraseP, List.eraseP_map]
  congr 2
  funext e
  exact decide_eq_decide.mpr eq_comm

/-- The last link of a line; nil if it has none. -/
def lastLink (nil : Value) (line : Line) : Value := (line.getLast?.map Prod.fst).getD nil

@[simp] theorem lastLink_nil (nil : Value) : lastLink nil [] = nil := rfl

@[simp] theorem lastLink_concat (nil : Value) (line : Line) (e : Value × Value) :
    lastLink nil (line ++ [e]) = e.1 := by
  simp [lastLink]

/-- What comes before does not matter to a line that has links. -/
theorem lastLink_append (nil : Value) (before : Line) {line : Line} (hne : line ≠ []) :
    lastLink nil (before ++ line) = lastLink nil line := by
  obtain ⟨init, e, rfl⟩ := (List.eq_nil_or_concat' line).resolve_left hne
  rw [← List.append_assoc, lastLink_concat, lastLink_concat]

theorem lastLink_of_passed {nil previous : Value} {passed : Line}
    (hp : Queue.Passed nil passed previous) : lastLink nil passed = previous := by
  rcases hp with ⟨rfl, rfl⟩ | ⟨-, start, p, rfl⟩
  · rfl
  · rw [lastLink_concat]

namespace Strung

theorem ne_nil {v : Value} {line : Line} (hs : Strung k h v line) {link p : Value}
    (hmem : (link, p) ∈ line) : link ≠ k .nil := (hs.mem hmem).1

theorem lastLink_eq_nil_iff {v : Value} {line : Line} (hs : Strung k h v line) :
    lastLink (k .nil) line = k .nil ↔ line = [] := by
  rcases List.eq_nil_or_concat' line with rfl | ⟨init, ⟨link, p⟩, rfl⟩
  · simp
  · rw [lastLink_concat]
    exact iff_of_false (hs.ne_nil (List.mem_append_right _ (List.mem_singleton_self _))) (by simp)

/-- The links of a chain are distinct, because it has an end. -/
theorem nodup_links {v : Value} {line : Line} (hs : Strung k h v line) :
    (line.map Prod.fst).Nodup := by
  induction hs with
  | nil => exact List.nodup_nil
  | @cons link process next rest hne htype hvalue hnext hrest ih =>
      refine List.nodup_cons.mpr ⟨fun hmem => ?_, ih⟩
      obtain ⟨⟨link', p⟩, hagain, heq⟩ := List.mem_map.mp hmem
      obtain rfl : link' = link := heq
      obtain ⟨before, after, next', rfl, hnext', hafter⟩ := hrest.split hagain
      cases hnext.symm.trans hnext'
      have hlength := congrArg List.length (hrest.unique hafter)
      simp at hlength
      omega

theorem ne_of_append {v : Value} {before after : Line} {link p link' p' : Value}
    (hs : Strung k h v (before ++ (link, p) :: after))
    (hmem : (link', p') ∈ before ∨ (link', p') ∈ after) : link' ≠ link := by
  have hnodup := hs.nodup_links
  rw [List.map_append, List.map_cons, List.nodup_middle, List.nodup_cons, ← List.map_append] at hnodup
  rintro rfl
  exact hnodup.1 (List.mem_map.mpr ⟨_, List.mem_append.mpr hmem, rfl⟩)

/-- The last link leads nowhere. -/
theorem next_last {v link p : Value} {before : Line}
    (hs : Strung k h v (before ++ [(link, p)])) :
    h.fetchField link Slot.linkNext = .ok (k .nil) := by
  induction before generalizing v with
  | nil =>
      cases hs with
      | cons _ _ _ hnext hrest =>
          cases hrest
          exact hnext
  | cons head before ih =>
      cases hs with
      | cons _ _ _ _ hrest => exact ih hrest

/-- A store elsewhere leaves a chain alone. -/
theorem stored {v w new : Value} {i : Nat} {line : Line} (hs : Strung k h v line)
    (hstored : Heap.Stored h w i new h') (hother : ∀ link p, (link, p) ∈ line → link ≠ w) :
    Strung k h' v line :=
  hs.congr (fun link _ _ => hstored.types link)
    fun link p _ _ hmem hx => (hstored.other _ _ _ (.inl (hother link p hmem))).mpr hx

end Strung

/-! ## Lines in the heap -/

/-- The heap holds these lines: each queue leads from its first link to its last, and no link is in two
of them. -/
structure Ranged (k : Landmarks) (h : Heap) (queue : ι → Queue) (lines : ι → Line) : Prop where
  settled : h.Settled
  nil_exists : ∃ t, h.typeOf (k .nil) = .ok t
  slots : ∀ i, (queue i).first ≠ (queue i).last
  owners : ∀ i j, (queue i).owner = (queue j).owner → i = j
  first : ∀ i, ∃ v, h.fetchField (queue i).owner (queue i).first = .ok v ∧ Strung k h v (lines i)
  last : ∀ i, h.fetchField (queue i).owner (queue i).last = .ok (lastLink (k .nil) (lines i))
  apart : ∀ i j link p p', (link, p) ∈ lines i → (link, p') ∈ lines j → i = j
  not_owner : ∀ i j link p, (link, p) ∈ lines i → link ≠ (queue j).owner

namespace Ranged

theorem exists_owner (hr : Ranged k h queue lines) (i : ι) :
    ∃ t, h.typeOf (queue i).owner = .ok t := Heap.exists_typeOf_of_fetchField (hr.last i)

theorem type_of_mem (hr : Ranged k h queue lines) {i : ι} {link p : Value}
    (hmem : (link, p) ∈ lines i) : h.typeOf link = .ok (k .link) := by
  obtain ⟨v, -, hs⟩ := hr.first i
  exact (hs.mem hmem).2.1

/-- What neither is an owner nor in a line does not matter. -/
theorem congr (hr : Ranged k h queue lines) (hsettled : h'.Settled)
    (htypes : ∀ u t, h.typeOf u = .ok t → h'.typeOf u = .ok t)
    (hfields : ∀ u f x, ((∃ i, u = (queue i).owner) ∨ ∃ i p, (u, p) ∈ lines i) →
      h.fetchField u f = .ok x → h'.fetchField u f = .ok x) : Ranged k h' queue lines where
  settled := hsettled
  nil_exists := hr.nil_exists.imp fun t => htypes _ t
  slots := hr.slots
  owners := hr.owners
  first i := by
    obtain ⟨v, hv, hs⟩ := hr.first i
    refine ⟨v, hfields _ _ _ (.inl ⟨i, rfl⟩) hv, hs.congr ?_ ?_⟩
    · intro link p hmem
      have htype := hr.type_of_mem hmem
      rw [htype, htypes _ _ htype]
    · exact fun link p f x hmem => hfields link f x (.inr ⟨i, p, hmem⟩)
  last i := hfields _ _ _ (.inl ⟨i, rfl⟩) (hr.last i)
  apart := hr.apart
  not_owner := hr.not_owner

/-! ## Reading -/

/-- The chain of a queue is no longer than there are objects. -/
theorem length_le (hr : Ranged k h queue lines) (i : ι) : (lines i).length ≤ h.objectCount := by
  obtain ⟨v, -, hs⟩ := hr.first i
  rw [← List.length_map Prod.fst]
  refine Heap.length_le_of_fields hs.nodup_links fun link hlink => ?_
  obtain ⟨⟨link, p⟩, hmem, rfl⟩ := List.mem_map.mp hlink
  obtain ⟨xs, hxs, -⟩ := Heap.fetchField_eq_ok.mp (hs.mem hmem).2.2
  exact ⟨xs, hxs⟩

theorem toList_eq {m : Machine} (hr : Ranged m.known m.heap queue lines) (i : ι) :
    (queue i).toList m = .ok ((lines i).map Prod.snd) := by
  obtain ⟨v, hv, hs⟩ := hr.first i
  unfold Queue.toList
  rw [hv]
  exact hs.chain_eq (Nat.lt_succ_of_le (hr.length_le i))

/-! ## Changing a line -/

variable [DecidableEq ι]

/-- The line of a queue is replaced, and no other queue is touched.  Its links are some of those that
it had, and new ones. -/
theorem update (hr : Ranged k h queue lines) {i : ι} {line : Line} {v : Value}
    (hsettled : h'.Settled) (htypes : ∀ u t, h.typeOf u = .ok t → h'.typeOf u = .ok t)
    (hother : ∀ u f x, u ≠ (queue i).owner → (∀ p, (u, p) ∉ lines i) → h.fetchField u f = .ok x →
      h'.fetchField u f = .ok x)
    (hfirst : h'.fetchField (queue i).owner (queue i).first = .ok v) (hs : Strung k h' v line)
    (hlast : h'.fetchField (queue i).owner (queue i).last = .ok (lastLink (k .nil) line))
    (hlinks : ∀ link p, (link, p) ∈ line → (∃ p', (link, p') ∈ lines i) ∨
      ∀ t, h.typeOf link ≠ .ok t) : Ranged k h' queue (Function.update lines i line) where
  settled := hsettled
  nil_exists := hr.nil_exists.imp fun t => htypes _ t
  slots := hr.slots
  owners := hr.owners
  first j := by
    by_cases hj : j = i
    · subst hj
      rw [Function.update_self]
      exact ⟨v, hfirst, hs⟩
    · rw [Function.update_of_ne hj]
      obtain ⟨w, hw, hs'⟩ := hr.first j
      refine ⟨w, hother _ _ _ (fun heq => hj (hr.owners _ _ heq)) ?_ hw, hs'.congr ?_ ?_⟩
      · exact fun p hmem => hr.not_owner i j _ p hmem rfl
      · intro link p hmem
        have htype := hr.type_of_mem hmem
        rw [htype, htypes _ _ htype]
      · intro link p f x hmem
        refine hother _ _ _ (hr.not_owner j i link p hmem) fun p' hmem' => ?_
        exact hj (hr.apart _ _ _ _ _ hmem hmem')
  last j := by
    by_cases hj : j = i
    · subst hj
      rw [Function.update_self]
      exact hlast
    · rw [Function.update_of_ne hj]
      refine hother _ _ _ (fun heq => hj (hr.owners _ _ heq)) ?_ (hr.last j)
      exact fun p hmem => hr.not_owner i j _ p hmem rfl
  apart := by
    have hmixed : ∀ j link p p', j ≠ i → (link, p) ∈ line → (link, p') ∈ lines j → False := by
      intro j link p p' hj hmem hmem'
      rcases hlinks link p hmem with ⟨p'', hold⟩ | hnew
      · exact hj (hr.apart _ _ _ _ _ hmem' hold)
      · exact hnew _ (hr.type_of_mem hmem')
    intro j j' link p p' hmem hmem'
    by_cases hj : j = i
    · subst hj
      by_cases hj' : j' = j
      · exact hj'.symm
      · rw [Function.update_self] at hmem
        rw [Function.update_of_ne hj'] at hmem'
        exact (hmixed j' link p p' hj' hmem hmem').elim
    · rw [Function.update_of_ne hj] at hmem
      by_cases hj' : j' = i
      · subst hj'
        rw [Function.update_self] at hmem'
        exact (hmixed j link p' p hj hmem' hmem).elim
      · rw [Function.update_of_ne hj'] at hmem'
        exact hr.apart _ _ _ _ _ hmem hmem'
  not_owner := by
    intro j j' link p hmem
    by_cases hj : j = i
    · subst hj
      rw [Function.update_self] at hmem
      rcases hlinks link p hmem with ⟨p', hold⟩ | hnew
      · exact hr.not_owner j j' link p' hold
      · rintro rfl
        obtain ⟨t, ht⟩ := hr.exists_owner j'
        exact hnew t ht
    · rw [Function.update_of_ne hj] at hmem
      exact hr.not_owner j j' link p hmem

end Ranged

namespace Machine

variable {m m' : Machine}

/-! ## Single actions -/

/-- An action that may be left out, and what comes after it. -/
theorem ite_skip_run {c : Prop} [Decidable c] {x : MachineM PUnit} {next : PUnit → MachineM α}
    (hrun : (if c then x else pure ⟨⟩) m = .ok ⟨⟩ m') :
    (if c then x >>= next else next ⟨⟩) m = next ⟨⟩ m' := by
  split at hrun
  · next hc => rw [if_pos hc, bind_eq_of_ok hrun]
  · next hc =>
    cases hrun
    rw [if_neg hc]

theorem storeField_stored (m : Machine) {v old : Value} {i : Nat} (hsettled : h.Settled)
    (hold : h.fetchField v i = .ok old) (new : Value) :
    ∃ h', storeField v i new (m.withHeap h) = .ok () (m.withHeap h') ∧ Heap.Stored h v i new h' := by
  obtain ⟨h', hstore⟩ := Heap.storeField_of_fetchField hold new
  exact ⟨h', onHeap_eq_ok.mpr ⟨h', hstore, rfl⟩, Heap.stored_of_eq_ok hsettled hstore⟩

/-- A new link, if there is room for it. -/
theorem newLink_run (hsettled : m.heap.Settled) (value next : Value) :
    (∃ fault, Queue.newLink value next m = .error fault m) ∨
      ∃ link h, Queue.newLink value next m = .ok link (m.withHeap h) ∧ h.Settled ∧
        Heap.Linked m.known m.heap link value next h := by
  have hnew := ensures_newObject hsettled .link Slot.linkSize m rfl
  cases hrun : newObject .link Slot.linkSize m with
  | error fault m₁ =>
      rw [hrun] at hnew
      obtain rfl : m = m₁ := hnew
      exact .inl ⟨fault, bind_eq_of_error hrun⟩
  | ok link m₁ =>
      rw [hrun] at hnew
      obtain ⟨h₁, hmade, rfl⟩ := hnew
      have hblank : ∀ j < Slot.linkSize, h₁.fetchField link j = .ok (m.known .nil) := fun j hj =>
        (hmade.self j _).mpr ⟨hj, rfl⟩
      obtain ⟨h₂, hrun₂, hvalue⟩ :=
        storeField_stored m hmade.settled (hblank Slot.linkValue (by decide)) value
      have hnext₂ : h₂.fetchField link Slot.linkNext = .ok (m.known .nil) :=
        (hvalue.other _ _ _ (.inr (by decide))).mpr (hblank _ (by decide))
      obtain ⟨h₃, hrun₃, hnext⟩ := storeField_stored m hvalue.settled hnext₂ next
      have htypes : ∀ u, h₃.typeOf u = h₁.typeOf u :=
        fun u => (hnext.types u).trans (hvalue.types u)
      refine .inr ⟨link, h₃, ?_, hnext.settled, ?_⟩
      · exact (bind_eq_of_ok hrun).trans ((bind_eq_of_ok hrun₂).trans ((bind_eq_of_ok hrun₃).trans rfl))
      constructor
      case stale => exact hmade.stale
      case type_eq => exact (htypes link).trans hmade.type_eq
      case types => exact fun u t hu => (htypes u).trans (hmade.types u t hu)
      case types_new =>
        intro u t hu
        rw [htypes u] at hu
        exact hmade.types_new u t hu
      case process_eq => exact (hnext.other _ _ _ (.inr (by decide))).mpr hvalue.self
      case next_eq => exact hnext.self
      case other =>
        intro u i x hu
        exact ((hnext.other u i x (.inl hu)).trans (hvalue.other u i x (.inl hu))).trans
          (hmade.other u i x hu)

end Machine

/-! ## Redirections -/

/-- More has been allocated, and all else is as it was. -/
structure Heap.Grown (h h' : Heap) : Prop where
  settled : h'.Settled
  types : ∀ u t, h.typeOf u = .ok t → h'.typeOf u = .ok t
  fields : ∀ u i x, h.fetchField u i = .ok x → h'.fetchField u i = .ok x

theorem Heap.Grown.refl (hsettled : h.Settled) : Heap.Grown h h :=
  ⟨hsettled, fun _ _ => id, fun _ _ _ => id⟩

/-- A chain of links that existed is still there. -/
theorem Heap.Grown.strung (hg : Heap.Grown h h') {v : Value} {line : Line} (hs : Strung k h v line) :
    Strung k h' v line := by
  refine hs.congr ?_ fun u p i x _ => hg.fields u i x
  intro u p hmem
  have htype := (hs.mem hmem).2.1
  rw [htype, hg.types _ _ htype]

theorem Heap.Linked.grown {link value next : Value} (hl : Heap.Linked k h link value next h')
    (hsettled : h'.Settled) : Heap.Grown h h' where
  settled := hsettled
  types := hl.types
  fields u i x hx := (hl.other u i x (hl.ne (Heap.exists_typeOf_of_fetchField hx))).mpr hx

/-- A store into the first field of a queue, or into one of the links `old`, after which the queue
leads along `line`. -/
structure Redirected (k : Landmarks) (h : Heap) (q : Queue) (old : Line) (line : Line) (h' : Heap) :
    Prop where
  stored : ∃ u j new, Heap.Stored h u j new h' ∧
    (u = q.owner ∧ j = q.first ∨ u ≠ q.owner ∧ ∃ p, (u, p) ∈ old)
  leads : ∃ v, h'.fetchField q.owner q.first = .ok v ∧ Strung k h' v line

/-- The line of one queue has been replaced. -/
structure Relined [DecidableEq ι] (k : Landmarks) (h : Heap) (queue : ι → Queue) (lines : ι → Line)
    (i : ι) (line : Line) (h' : Heap) : Prop where
  types : ∀ u t, h.typeOf u = .ok t → h'.typeOf u = .ok t
  ranged : Ranged k h' queue (Function.update lines i line)

namespace Ranged

variable [DecidableEq ι] {i : ι} {line : Line} {h₁ h₂ : Heap}

/-- The last link is the one that the owner knows already. -/
theorem relined (hr : Ranged k h queue lines) (hg : Heap.Grown h h₁)
    (hd : Redirected k h₁ (queue i) (lines i) line h₂)
    (hlinks : ∀ link p, (link, p) ∈ line → (∃ p', (link, p') ∈ lines i) ∨
      ∀ t, h.typeOf link ≠ .ok t)
    (hlast : lastLink (k .nil) line = lastLink (k .nil) (lines i)) :
    Relined k h queue lines i line h₂ := by
  obtain ⟨⟨u, j, new, hstored, hplace⟩, v, hfirst, hs⟩ := hd
  have htypes : ∀ w t, h.typeOf w = .ok t → h₂.typeOf w = .ok t := by
    intro w t hw
    rw [hstored.types]
    exact hg.types w t hw
  refine ⟨htypes, hr.update hstored.settled htypes ?_ hfirst hs ?_ hlinks⟩
  · intro w f x howner hnone hx
    refine (hstored.other _ _ _ (.inl ?_)).mpr (hg.fields _ _ _ hx)
    rintro rfl
    rcases hplace with ⟨rfl, -⟩ | ⟨-, p, hmem⟩
    · exact howner rfl
    · exact hnone p hmem
  · rw [hlast]
    refine (hstored.other _ _ _ ?_).mpr (hg.fields _ _ _ (hr.last i))
    rcases hplace with ⟨rfl, rfl⟩ | ⟨howner, -⟩
    · exact .inr (hr.slots i).symm
    · exact .inl howner.symm

/-- The last link is stored. -/
theorem exists_relined (hr : Ranged k h queue lines) (hg : Heap.Grown h h₁)
    (hd : Redirected k h₁ (queue i) (lines i) line h₂)
    (hlinks : ∀ link p, (link, p) ∈ line → (∃ p', (link, p') ∈ lines i) ∨
      ∀ t, h.typeOf link ≠ .ok t) (m : Machine) :
    ∃ h₃, Machine.storeField (queue i).owner (queue i).last (lastLink (k .nil) line) (m.withHeap h₂) =
      .ok () (m.withHeap h₃) ∧ Relined k h queue lines i line h₃ := by
  obtain ⟨⟨u, j, new, hstored, hplace⟩, v, hfirst, hs⟩ := hd
  have hlast : h₂.fetchField (queue i).owner (queue i).last =
      .ok (lastLink (k .nil) (lines i)) := by
    refine (hstored.other _ _ _ ?_).mpr (hg.fields _ _ _ (hr.last i))
    rcases hplace with ⟨rfl, rfl⟩ | ⟨howner, -⟩
    · exact .inr (hr.slots i).symm
    · exact .inl howner.symm
  obtain ⟨h₃, hrun, hstored'⟩ :=
    Machine.storeField_stored m hstored.settled hlast (lastLink (k .nil) line)
  have htypes : ∀ w t, h.typeOf w = .ok t → h₃.typeOf w = .ok t := by
    intro w t hw
    rw [hstored'.types, hstored.types]
    exact hg.types w t hw
  refine ⟨h₃, hrun, htypes, hr.update (v := v) hstored'.settled htypes ?_ ?_ ?_ hstored'.self hlinks⟩
  · intro w f x howner hnone hx
    refine (hstored'.other _ _ _ (.inl howner)).mpr ((hstored.other _ _ _ (.inl ?_)).mpr
      (hg.fields _ _ _ hx))
    rintro rfl
    rcases hplace with ⟨rfl, -⟩ | ⟨-, p, hmem⟩
    · exact howner rfl
    · exact hnone p hmem
  · exact (hstored'.other _ _ _ (.inr (hr.slots i))).mpr hfirst
  · refine hs.stored hstored' fun link p hmem => ?_
    rcases hlinks link p hmem with ⟨p', hold⟩ | hnew
    · exact hr.not_owner i i link p' hold
    · rintro rfl
      obtain ⟨t, ht⟩ := hr.exists_owner i
      exact hnew t ht

end Ranged

/-! ## Adding -/

namespace Ranged

variable {m : Machine}

open Machine

/-- The chain of a new link that is stored somewhere else. -/
theorem strung_new {link value next u new : Value} {j : Nat} {line : Line}
    (hr : Ranged k h queue lines) (hl : Heap.Linked k h link value next h')
    {h₂ : Heap} (hstored : Heap.Stored h' u j new h₂) (hne : link ≠ u)
    (hnext : Strung k h₂ next line) : Strung k h₂ link ((link, value) :: line) :=
  .cons (hl.ne hr.nil_exists).symm ((hstored.types _).trans hl.type_eq)
    ((hstored.other _ _ _ (.inl hne)).mpr hl.process_eq)
    ((hstored.other _ _ _ (.inl hne)).mpr hl.next_eq) hnext

/-- A new link is made the first of an empty queue, or the next of the last one. -/
theorem exists_append (hr : Ranged m.known m.heap queue lines) (i : ι) {link value : Value}
    {h₁ : Heap} (hsettled : h₁.Settled)
    (hl : Heap.Linked m.known m.heap link value (m.known .nil) h₁) :
    ∃ h₂, (if lastLink (m.known .nil) (lines i) = m.known .nil
        then storeField (queue i).owner (queue i).first link
        else storeField (lastLink (m.known .nil) (lines i)) Slot.linkNext link) (m.withHeap h₁) =
          .ok () (m.withHeap h₂) ∧
      Redirected m.known h₁ (queue i) (lines i) (lines i ++ [(link, value)]) h₂ := by
  obtain ⟨v, hv, hs⟩ := hr.first i
  have hg := hl.grown hsettled
  have howner : (queue i).owner ≠ link := hl.ne (hr.exists_owner i)
  by_cases hempty : lines i = []
  · rw [hempty, lastLink_nil, if_pos rfl]
    obtain ⟨h₂, hrun, hstored⟩ := storeField_stored m hsettled (hg.fields _ _ _ hv) link
    exact ⟨h₂, hrun, ⟨_, _, _, hstored, .inl ⟨rfl, rfl⟩⟩, link, hstored.self,
      hr.strung_new hl hstored howner.symm .nil⟩
  · obtain ⟨init, ⟨last, p⟩, hline⟩ := (List.eq_nil_or_concat' (lines i)).resolve_left hempty
    have hmem : (last, p) ∈ lines i := by
      rw [hline]
      exact List.mem_append_right _ (List.mem_singleton_self _)
    rw [hline] at hs
    have hother : ∀ u p', (u, p') ∈ init → u ≠ last := fun u p' hu => hs.ne_of_append (.inl hu)
    have hlast : lastLink (m.known .nil) (lines i) = last := by rw [hline, lastLink_concat]
    rw [hlast, if_neg (hs.ne_nil (hline ▸ hmem))]
    obtain ⟨h₂, hrun, hstored⟩ := storeField_stored m hsettled (hg.fields _ _ _ hs.next_last) link
    have howner' : last ≠ (queue i).owner := hr.not_owner i i last p hmem
    have hnew : link ≠ last := (hl.ne (Heap.exists_typeOf_of_fetchField hs.next_last)).symm
    refine ⟨h₂, hrun, ⟨_, _, _, hstored, .inr ⟨howner', p, hmem⟩⟩, v,
      (hstored.other _ _ _ (.inl howner'.symm)).mpr (hg.fields _ _ _ hv), ?_⟩
    rw [hline, List.append_assoc]
    exact (hg.strung hs).replace hother hstored (hr.strung_new hl hstored hnew .nil)

variable [DecidableEq ι] {i : ι}

/-- A value is added at the back, if there is room for a link. -/
theorem pushBack_run (hr : Ranged m.known m.heap queue lines) (i : ι) (value : Value) :
    (∃ fault, (queue i).pushBack value m = .error fault m) ∨
      ∃ link h, (queue i).pushBack value m = .ok () (m.withHeap h) ∧
        Relined m.known m.heap queue lines i (lines i ++ [(link, value)]) h := by
  rcases newLink_run hr.settled value (m.known .nil) with
    ⟨fault, hrun⟩ | ⟨link, h₁, hrun, hsettled, hl⟩
  · exact .inl ⟨fault, (bind_eq_of_ok rfl).trans (bind_eq_of_error hrun)⟩
  have hg := hl.grown hsettled
  have hlast : (m.withHeap h₁).heap.fetchField (queue i).owner (queue i).last =
      .ok (lastLink (m.known .nil) (lines i)) := hg.fields _ _ _ (hr.last i)
  obtain ⟨h₂, hrun₂, hd⟩ := hr.exists_append i hsettled hl
  obtain ⟨h₃, hrun₃, hrelined⟩ := hr.exists_relined hg hd (fun u p hmem => by
    rcases List.mem_append.mp hmem with hold | hnew
    · exact .inl ⟨p, hold⟩
    · cases List.mem_singleton.mp hnew
      exact .inr hl.stale) m
  rw [lastLink_concat] at hrun₃
  refine .inr ⟨link, h₃, ?_, hrelined⟩
  refine (bind_eq_of_ok rfl).trans ((bind_eq_of_ok hrun).trans ((fetchField_bind_run hlast).trans ?_))
  refine Eq.trans ?_ ((bind_eq_of_ok (f := fun _ =>
    storeField (queue i).owner (queue i).last link) hrun₂).trans hrun₃)
  rw [ite_bind]

/-- A value is added at the front, if there is room for a link. -/
theorem pushFront_run (hr : Ranged m.known m.heap queue lines) (i : ι) (value : Value) :
    (∃ fault, (queue i).pushFront value m = .error fault m) ∨
      ∃ link h, (queue i).pushFront value m = .ok () (m.withHeap h) ∧
        Relined m.known m.heap queue lines i ((link, value) :: lines i) h := by
  obtain ⟨v, hv, hs⟩ := hr.first i
  rcases newLink_run hr.settled value v with ⟨fault, hrun⟩ | ⟨link, h₁, hrun, hsettled, hl⟩
  · exact .inl ⟨fault, (fetchField_bind_run hv).trans (bind_eq_of_error hrun)⟩
  have hg := hl.grown hsettled
  obtain ⟨h₂, hrun₂, hstored⟩ := storeField_stored m hsettled (hg.fields _ _ _ hv) link
  have howner : link ≠ (queue i).owner := (hl.ne (hr.exists_owner i)).symm
  have hd : Redirected m.known h₁ (queue i) (lines i) ((link, value) :: lines i) h₂ :=
    ⟨⟨_, _, _, hstored, .inl ⟨rfl, rfl⟩⟩, link, hstored.self, hr.strung_new hl hstored howner
      ((hg.strung hs).stored hstored fun u p hmem => hr.not_owner i i u p hmem)⟩
  have hlinks : ∀ u p, (u, p) ∈ (link, value) :: lines i → (∃ p', (u, p') ∈ lines i) ∨
      ∀ t, m.heap.typeOf u ≠ .ok t := by
    intro u p hmem
    rcases List.mem_cons.mp hmem with heq | hold
    · cases heq
      exact .inr hl.stale
    · exact .inl ⟨p, hold⟩
  have hprogram : (queue i).pushFront value m = (if v = m.known .nil
      then storeField (queue i).owner (queue i).last link else pure ()) (m.withHeap h₂) :=
    (fetchField_bind_run hv).trans ((bind_eq_of_ok hrun).trans ((bind_eq_of_ok hrun₂).trans rfl))
  by_cases hempty : v = m.known .nil
  · obtain hline : lines i = [] := (hempty ▸ hs).unique .nil
    obtain ⟨h₃, hrun₃, hrelined⟩ := hr.exists_relined hg hd hlinks m
    rw [hline] at hrun₃
    exact .inr ⟨link, h₃, by rw [hprogram, if_pos hempty]; exact hrun₃, hrelined⟩
  · have hne : lines i ≠ [] := by
      intro hline
      rw [hline] at hs
      cases hs
      exact hempty rfl
    refine .inr ⟨link, h₂, by rw [hprogram, if_neg hempty]; rfl, hr.relined hg hd hlinks ?_⟩
    exact lastLink_append _ [(link, value)] hne

/-! ## Removing -/

variable {link p next previous : Value} {passed rest : Line}

omit [DecidableEq ι] in
/-- The link after those passed is taken out. -/
theorem exists_cut (hr : Ranged m.known m.heap queue lines)
    (hline : lines i = passed ++ (link, p) :: rest)
    (hpassed : Queue.Passed (m.known .nil) passed previous)
    (hrest : Strung m.known m.heap next rest) :
    ∃ h, (if previous = m.known .nil then storeField (queue i).owner (queue i).first next
        else storeField previous Slot.linkNext next) m = .ok () (m.withHeap h) ∧
      Redirected m.known m.heap (queue i) (lines i) (passed ++ rest) h := by
  obtain ⟨v, hv, hs⟩ := hr.first i
  rcases hpassed with ⟨hnil, rfl⟩ | ⟨hne, start, p', rfl⟩
  · rw [if_pos hnil]
    obtain ⟨h, hrun, hstored⟩ := storeField_stored m hr.settled hv next
    refine ⟨h, hrun, ⟨_, _, _, hstored, .inl ⟨rfl, rfl⟩⟩, next, hstored.self, ?_⟩
    refine hrest.stored hstored fun u q hmem => hr.not_owner i i u q ?_
    rw [hline]
    exact List.mem_cons_of_mem _ hmem
  · rw [if_neg hne]
    have hmem : (previous, p') ∈ lines i := by
      rw [hline]
      simp
    have howner : previous ≠ (queue i).owner := hr.not_owner i i previous p' hmem
    rw [hline, List.append_assoc] at hs
    obtain ⟨old, hold⟩ : ∃ old, m.heap.fetchField previous Slot.linkNext = .ok old := ⟨_, hs.next⟩
    obtain ⟨h, hrun, hstored⟩ := storeField_stored m hr.settled hold next
    refine ⟨h, hrun, ⟨_, _, _, hstored, .inr ⟨howner, p', hmem⟩⟩, v,
      (hstored.other _ _ _ (.inl howner.symm)).mpr hv, ?_⟩
    rw [List.append_assoc]
    refine hs.replace (fun u q hu => hs.ne_of_append (.inl hu)) hstored ?_
    exact hrest.stored hstored fun u q hu =>
      hs.ne_of_append (.inr (List.mem_cons_of_mem _ hu))

/-- After the cut the last link is put right, if it was the one that was taken out. -/
theorem exists_finish (hr : Ranged m.known m.heap queue lines)
    (hline : lines i = passed ++ (link, p) :: rest)
    (hpassed : Queue.Passed (m.known .nil) passed previous)
    (hrest : Strung m.known m.heap next rest) {h₁ : Heap}
    (hd : Redirected m.known m.heap (queue i) (lines i) (passed ++ rest) h₁) :
    ∃ h₂, (if next = m.known .nil then storeField (queue i).owner (queue i).last previous
        else pure ()) (m.withHeap h₁) = .ok () (m.withHeap h₂) ∧
      Relined m.known m.heap queue lines i (passed ++ rest) h₂ := by
  have hlinks : ∀ u q, (u, q) ∈ passed ++ rest → (∃ q', (u, q') ∈ lines i) ∨
      ∀ t, m.heap.typeOf u ≠ .ok t := by
    intro u q hmem
    refine .inl ⟨q, ?_⟩
    rw [hline]
    rcases List.mem_append.mp hmem with hmem | hmem
    · exact List.mem_append_left _ hmem
    · exact List.mem_append_right _ (List.mem_cons_of_mem _ hmem)
  have hg := Heap.Grown.refl hr.settled
  by_cases hend : next = m.known .nil
  · obtain rfl : rest = [] := (hend ▸ hrest).unique .nil
    obtain ⟨h₂, hrun, hrelined⟩ := hr.exists_relined hg hd hlinks m
    rw [List.append_nil, lastLink_of_passed hpassed] at hrun
    exact ⟨h₂, by rw [if_pos hend]; exact hrun, hrelined⟩
  · have hne : rest ≠ [] := by
      rintro rfl
      cases hrest
      exact hend rfl
    refine ⟨h₁, by rw [if_neg hend]; rfl, hr.relined hg hd hlinks ?_⟩
    rw [hline, lastLink_append _ _ hne, lastLink_append _ _ (List.cons_ne_nil _ _)]
    exact (lastLink_append _ [(link, p)] hne).symm

/-- The value at the front is taken, if there is one. -/
theorem popFront_run (hr : Ranged m.known m.heap queue lines) (i : ι) :
    ∃ h, (queue i).popFront m = .ok ((lines i).map Prod.snd).head? (m.withHeap h) ∧
      Relined m.known m.heap queue lines i (lines i).tail h := by
  obtain ⟨v, hv, hs⟩ := hr.first i
  cases hline : lines i with
  | nil =>
      rw [hline] at hs
      cases hs
      refine ⟨m.heap, ?_, fun _ _ => id, ?_⟩
      · exact (bind_eq_of_ok rfl).trans ((fetchField_bind_run hv).trans (by rw [if_pos rfl]; rfl))
      · rw [List.tail_nil, ← hline, Function.update_eq_self]
        exact hr
  | cons e rest =>
      rw [hline] at hs
      cases hs with
      | @cons _ p next _ hne _ hvalue hnext hrest =>
          have hpassed : Queue.Passed (m.known .nil) [] (m.known .nil) := .inl ⟨rfl, rfl⟩
          have hcut : lines i = [] ++ (_, p) :: rest := hline
          obtain ⟨h₁, hrun₁, hd⟩ := hr.exists_cut hcut hpassed hrest
          obtain ⟨h₂, hrun₂, hrelined⟩ := hr.exists_finish hcut hpassed hrest hd
          rw [if_pos rfl] at hrun₁
          refine ⟨h₂, ?_, hrelined⟩
          refine (bind_eq_of_ok rfl).trans ((fetchField_bind_run hv).trans ?_)
          rw [if_neg hne, fetchField_bind_run hvalue, fetchField_bind_run hnext,
            bind_eq_of_ok hrun₁]
          exact ite_skip_run hrun₂

/-- A search along a chain takes out the first link with the value. -/
theorem unlinkFrom_run (hr : Ranged m.known m.heap queue lines) (i : ι) (value : Value) :
    ∀ (fuel : Nat) (previous link : Value) (passed rest : Line), lines i = passed ++ rest →
      Queue.Passed (m.known .nil) passed previous → Strung m.known m.heap link rest →
      rest.length < fuel →
      ∃ h, (queue i).unlinkFrom value (m.known .nil) fuel previous link m =
          .ok (decide (value ∈ rest.map Prod.snd)) (m.withHeap h) ∧
        Relined m.known m.heap queue lines i (passed ++ rest.eraseP (·.2 = value)) h := by
  intro fuel
  induction fuel with
  | zero => exact fun _ _ _ _ _ _ _ hfuel => absurd hfuel (Nat.not_lt_zero _)
  | succ fuel ih =>
      intro previous link passed rest hline hpassed hs hfuel
      cases hs with
      | nil =>
          refine ⟨m.heap, ?_, fun _ _ => id, ?_⟩
          · unfold Queue.unlinkFrom
            rw [if_pos rfl]
            rfl
          · rw [List.eraseP_nil, ← hline, Function.update_eq_self]
            exact hr
      | @cons _ p next rest hne _ hvalue hnext hrest =>
          unfold Queue.unlinkFrom
          rw [if_neg hne, fetchField_bind_run hnext, fetchField_bind_run hvalue]
          by_cases hfound : p = value
          · obtain ⟨h₁, hrun₁, hd⟩ := hr.exists_cut hline hpassed hrest
            obtain ⟨h₂, hrun₂, hrelined⟩ := hr.exists_finish hline hpassed hrest hd
            refine ⟨h₂, ?_, ?_⟩
            · have hcut := bind_eq_of_ok (f := fun _ => (if next = m.known .nil
                then storeField (queue i).owner (queue i).last previous >>= fun _ => pure true
                else pure true : MachineM Bool)) hrun₁
              rw [ite_bind] at hcut
              have hfinish : (if next = m.known .nil
                  then storeField (queue i).owner (queue i).last previous >>= fun _ => pure true
                  else pure true : MachineM Bool) (m.withHeap h₁) = .ok true (m.withHeap h₂) :=
                ite_skip_run hrun₂
              rw [if_pos hfound]
              refine hcut.trans (hfinish.trans ?_)
              simp [hfound]
            · rw [List.eraseP_cons_of_pos (by simpa using hfound)]
              exact hrelined
          · have hline' : lines i = (passed ++ [(link, p)]) ++ rest := by
              rw [hline, List.append_assoc]
              rfl
            obtain ⟨h, hrun, hrelined⟩ := ih link next (passed ++ [(link, p)]) rest hline'
              (.inr ⟨hne, passed, p, rfl⟩) hrest (Nat.lt_of_succ_lt_succ hfuel)
            refine ⟨h, ?_, ?_⟩
            · rw [if_neg hfound, hrun]
              congr 1
              simp [Ne.symm hfound]
            · rw [List.eraseP_cons_of_neg (by simpa using hfound)]
              rw [List.append_assoc] at hrelined
              exact hrelined

/-- The first occurrence of a value is removed, if there is one. -/
theorem unlink_run (hr : Ranged m.known m.heap queue lines) (i : ι) (value : Value) :
    ∃ h, (queue i).unlink value m =
        .ok (decide (value ∈ (lines i).map Prod.snd)) (m.withHeap h) ∧
      Relined m.known m.heap queue lines i ((lines i).eraseP (·.2 = value)) h := by
  obtain ⟨v, hv, hs⟩ := hr.first i
  obtain ⟨h, hrun, hrelined⟩ := hr.unlinkFrom_run i value _ _ v [] _ rfl (.inl ⟨rfl, rfl⟩) hs
    (Nat.lt_succ_of_le (hr.length_le i))
  exact ⟨h, (bind_eq_of_ok rfl).trans ((fetchField_bind_run hv).trans hrun), hrelined⟩

end Ranged

/-! ## Collections -/

/-- The queue of an owner that has been moved. -/
def Queue.moved (q : Queue) (φ : Handle → Handle) : Queue := { q with owner := q.owner.map φ }

namespace Machine

variable {m m' m₁ : Machine} {φ : Handle → Handle} {held : ι → List Value}

open Heap (Kept)

theorem Relocated.lastLink_lineMap (hr : Relocated φ m m') (line : Line) :
    lastLink (m'.known .nil) (lineMap φ line) = (lastLink (m.known .nil) line).map φ := by
  rcases List.eq_nil_or_concat' line with rfl | ⟨init, e, rfl⟩
  · exact hr.known .nil
  · rw [lineMap, List.map_append, List.map_singleton, lastLink_concat, lastLink_concat]

/-- A collection moves the lines of the queues whose owners it keeps. -/
theorem Relocated.ranged (hr : Relocated φ m m') (hlines : Ranged m.known m.heap queue lines)
    (howners : ∀ i, Kept m.heap m.roots (queue i).owner) :
    Ranged m'.known m'.heap (fun i => (queue i).moved φ) fun i => lineMap φ (lines i) := by
  have hkept : ∀ {i link p}, (link, p) ∈ lines i → Kept m.heap m.roots link := by
    intro i link p hmem
    obtain ⟨v, hv, hs⟩ := hlines.first i
    exact (kept_of_strung hs ((howners i).of_fetchField hv) link p hmem).1
  have hinjective : ∀ {v w : Value}, Kept m.heap m.roots v → Kept m.heap m.roots w →
      v.map φ = w.map φ → v = w := fun hv hw => hr.heap.map_injective hr.settled' hv hw
  constructor
  case settled => exact hr.settled'
  case nil_exists =>
    obtain ⟨t, ht⟩ := hlines.nil_exists
    rw [hr.known]
    exact ⟨_, hr.heap.typeOf_map hr.settled' (kept_known m _) ht⟩
  case slots => exact hlines.slots
  case owners => exact fun i j heq => hlines.owners i j (hinjective (howners i) (howners j) heq)
  case first =>
    intro i
    obtain ⟨v, hv, hs⟩ := hlines.first i
    exact ⟨v.map φ, hr.heap.fetchField_map hr.settled' (howners i) hv,
      hr.strung hs ((howners i).of_fetchField hv)⟩
  case last =>
    intro i
    rw [hr.lastLink_lineMap]
    exact hr.heap.fetchField_map hr.settled' (howners i) (hlines.last i)
  case apart =>
    intro i j link p p' hmem hmem'
    obtain ⟨old, q, hold, rfl, -⟩ := mem_lineMap.mp hmem
    obtain ⟨old', q', hold', heq, -⟩ := mem_lineMap.mp hmem'
    obtain rfl := hinjective (hkept hold') (hkept hold) heq
    exact hlines.apart _ _ _ _ _ hold hold'
  case not_owner =>
    intro i j link p hmem heq
    obtain ⟨old, q, hold, rfl, -⟩ := mem_lineMap.mp hmem
    exact hlines.not_owner i j old q hold (hinjective (hkept hold) (howners j) heq)

/-- The active context, if there is one, is no link and owns none of the queues. -/
def Aside (m : Machine) (queue : ι → Queue) : Prop := m.regs.activeContext = m.known .nil ∨
  (∃ t, m.heap.typeOf m.regs.activeContext = .ok t ∧ t ≠ m.known .link) ∧
    ∀ i, m.regs.activeContext ≠ (queue i).owner

/-- The machine holds queues of these values. -/
structure Serving (m : Machine) (queue : ι → Queue) (held : ι → List Value) : Prop where
  ranged : ∃ lines, Ranged m.known m.heap queue lines ∧ ∀ i, (lines i).map Prod.snd = held i
  aside : Aside m queue

namespace Serving

theorem settled (hm : Serving m queue held) : m.heap.Settled := by
  obtain ⟨⟨lines, hr, -⟩, -⟩ := hm
  exact hr.settled

/-- An operation replaces one of the lists. -/
theorem relined [DecidableEq ι] {lines : ι → Line} {i : ι} {line : Line} {h : Heap}
    (hm : Serving m queue held) (hvalues : ∀ i, (lines i).map Prod.snd = held i)
    (hr : Relined m.known m.heap queue lines i line h) :
    Serving (m.withHeap h) queue (Function.update held i (line.map Prod.snd)) where
  ranged := by
    refine ⟨_, hr.ranged, fun j => ?_⟩
    by_cases hj : j = i
    · subst hj
      rw [Function.update_self, Function.update_self]
    · rw [Function.update_of_ne hj, Function.update_of_ne hj, hvalues]
  aside := by
    refine hm.aside.imp_right fun ⟨⟨t, ht, hne⟩, howner⟩ => ⟨⟨t, hr.types _ _ ht, hne⟩, howner⟩

section Operations

variable [DecidableEq ι] {i : ι} {value : Value}

/-- A successful push has changed the heap, and one of the lists. -/
theorem pushBack (hm : Serving m queue held) (hrun : (queue i).pushBack value m = .ok () m') :
    ∃ h, m' = m.withHeap h ∧ Serving m' queue (Function.update held i (held i ++ [value])) := by
  obtain ⟨lines, hr, hvalues⟩ := hm.ranged
  rcases hr.pushBack_run i value with ⟨fault, hfail⟩ | ⟨link, h, hpush, hrelined⟩
  · cases hfail.symm.trans hrun
  · cases hpush.symm.trans hrun
    have hnew := hm.relined hvalues hrelined
    rw [List.map_append, hvalues] at hnew
    exact ⟨h, rfl, hnew⟩

theorem pushFront (hm : Serving m queue held) (hrun : (queue i).pushFront value m = .ok () m') :
    ∃ h, m' = m.withHeap h ∧ Serving m' queue (Function.update held i (value :: held i)) := by
  obtain ⟨lines, hr, hvalues⟩ := hm.ranged
  rcases hr.pushFront_run i value with ⟨fault, hfail⟩ | ⟨link, h, hpush, hrelined⟩
  · cases hfail.symm.trans hrun
  · cases hpush.symm.trans hrun
    have hnew := hm.relined hvalues hrelined
    rw [List.map_cons, hvalues] at hnew
    exact ⟨h, rfl, hnew⟩

theorem popFront {answer : Option Value} (hm : Serving m queue held)
    (hrun : (queue i).popFront m = .ok answer m') :
    ∃ h, m' = m.withHeap h ∧ Serving m' queue (Function.update held i (held i).tail) := by
  obtain ⟨lines, hr, hvalues⟩ := hm.ranged
  obtain ⟨h, hpop, hrelined⟩ := hr.popFront_run i
  cases hpop.symm.trans hrun
  have hnew := hm.relined hvalues hrelined
  rw [List.map_tail, hvalues] at hnew
  exact ⟨h, rfl, hnew⟩

theorem unlink {answer : Bool} (hm : Serving m queue held)
    (hrun : (queue i).unlink value m = .ok answer m') :
    ∃ h, m' = m.withHeap h ∧ Serving m' queue (Function.update held i ((held i).erase value)) := by
  obtain ⟨lines, hr, hvalues⟩ := hm.ranged
  obtain ⟨h, hunlink, hrelined⟩ := hr.unlink_run i value
  cases hunlink.symm.trans hrun
  have hnew := hm.relined hvalues hrelined
  rw [map_snd_eraseP, hvalues] at hnew
  exact ⟨h, rfl, hnew⟩

end Operations

/-- Saving the pointers does not touch the queues. -/
theorem flushed (hm : Serving m queue held) (hflush : flush m = .ok () m₁) :
    Serving m₁ queue held := by
  by_cases hidle : m.regs.activeContext = m.known .nil
  · cases (flush_of_idle hidle).symm.trans hflush
    exact hm
  · obtain ⟨⟨t, ht, hne⟩, howner⟩ := hm.aside.resolve_left hidle
    obtain ⟨⟨lines, hr, hvalues⟩, -⟩ := hm
    obtain ⟨h, rfl, haltered, -⟩ := flush_eq_ok hr.settled hflush
    have htypes : ∀ u t, m.heap.typeOf u = .ok t → h.typeOf u = .ok t := fun u t hu =>
      (haltered.types u).trans hu
    refine ⟨⟨lines, hr.congr haltered.settled htypes ?_, hvalues⟩,
      .inr ⟨⟨t, htypes _ _ ht, hne⟩, howner⟩⟩
    intro u f x hu hx
    refine (haltered.other _ _ _ (.inl ?_)).mpr hx
    rintro rfl
    rcases hu with ⟨i, heq⟩ | ⟨i, p, hmem⟩
    · exact howner i heq
    · exact hne (Except.ok.inj (ht.symm.trans (hr.type_of_mem hmem)))

theorem collected (hm : Serving m queue held) (hr : Relocated φ m m') {regs : Registers}
    (hactive : regs.activeContext = m'.regs.activeContext) (cache : MethodCache)
    (howners : ∀ i, Kept m.heap m.roots (queue i).owner) :
    Serving { m' with regs, cache } (fun i => (queue i).moved φ)
      fun i => (held i).map (·.map φ) := by
  obtain ⟨⟨lines, hlines, hvalues⟩, haside⟩ := hm
  refine ⟨⟨_, hr.ranged hlines howners, fun i => ?_⟩, ?_⟩
  · rw [← hvalues, Relocated.lineMap, List.map_map, List.map_map]
    rfl
  have hregs : regs.activeContext = m.regs.activeContext.map φ := by
    rw [hactive, hr.regs]
    rfl
  have hkept : Kept m.heap m.roots m.regs.activeContext :=
    Heap.kept_of_mem (List.mem_append_left _ (List.mem_append_left _ (List.mem_cons_self ..)))
  rcases haside with hidle | ⟨⟨t, ht, hne⟩, howner⟩
  · refine .inl ?_
    change regs.activeContext = m'.known .nil
    rw [hregs, hidle, hr.known]
  · refine .inr ⟨⟨t.map φ, ?_, fun heq => ?_⟩, fun i heq => ?_⟩
    · change m'.heap.typeOf regs.activeContext = _
      rw [hregs]
      exact hr.heap.typeOf_map hr.settled' hkept ht
    · exact hne ((hr.eq_known_iff (Heap.Relocation.kept_of_typeOf hkept ht)).mp heq)
    · change regs.activeContext = (queue i).owner.map φ at heq
      rw [hregs] at heq
      exact howner i (hr.heap.map_injective hr.settled' hkept (howners i) heq)

end Serving

/-! ## Histories -/

/-- Something else has been done, which touches neither the owners nor any link. -/
structure Elsewhere (queue : ι → Queue) (m m' : Machine) : Prop where
  settled : m'.heap.Settled
  known : m'.known = m.known
  types : ∀ u t, m.heap.typeOf u = .ok t → m'.heap.typeOf u = .ok t
  fields : ∀ u i x, ((∃ j, u = (queue j).owner) ∨ m.heap.typeOf u = .ok (m.known .link)) →
    m.heap.fetchField u i = .ok x → m'.heap.fetchField u i = .ok x
  aside : Aside m' queue

/-- After operations on queues that were empty, collections that keep their owners, and work elsewhere,
the queues should hold these values. -/
inductive Served [DecidableEq ι] : Machine → (ι → Queue) → (ι → List Value) → Prop where
  | start {m : Machine} {queue : ι → Queue} : m.heap.Settled →
      (∃ t, m.heap.typeOf (m.known .nil) = .ok t) → (∀ i, (queue i).first ≠ (queue i).last) →
      (∀ i j, (queue i).owner = (queue j).owner → i = j) →
      (∀ i, m.heap.fetchField (queue i).owner (queue i).first = .ok (m.known .nil) ∧
        m.heap.fetchField (queue i).owner (queue i).last = .ok (m.known .nil)) →
      Aside m queue → Served m queue fun _ => []
  | pushBack {m m' : Machine} {queue : ι → Queue} {held : ι → List Value} (i : ι) (value : Value) :
      Served m queue held → (queue i).pushBack value m = .ok () m' →
      Served m' queue (Function.update held i (held i ++ [value]))
  | pushFront {m m' : Machine} {queue : ι → Queue} {held : ι → List Value} (i : ι) (value : Value) :
      Served m queue held → (queue i).pushFront value m = .ok () m' →
      Served m' queue (Function.update held i (value :: held i))
  | popFront {m m' : Machine} {queue : ι → Queue} {held : ι → List Value} {answer : Option Value}
      (i : ι) : Served m queue held → (queue i).popFront m = .ok answer m' →
      Served m' queue (Function.update held i (held i).tail)
  | unlink {m m' : Machine} {queue : ι → Queue} {held : ι → List Value} {answer : Bool} (i : ι)
      (value : Value) : Served m queue held → (queue i).unlink value m = .ok answer m' →
      Served m' queue (Function.update held i ((held i).erase value))
  | collect {m m' : Machine} {queue : ι → Queue} {held : ι → List Value} {cycle : Heap.Cycle}
      {φ : Handle → Handle} : Served m queue held → collectGarbage m = .ok cycle m' →
      Displaces φ m → (∀ m₁, flush m = .ok () m₁ → ∀ i, Kept m₁.heap m₁.roots (queue i).owner) →
      Served m' (fun i => (queue i).moved φ) fun i => (held i).map (·.map φ)
  | other {m m' : Machine} {queue : ι → Queue} {held : ι → List Value} : Served m queue held →
      Elsewhere queue m m' → Served m' queue held

namespace Served

variable [DecidableEq ι]

theorem serving (hm : Served m queue held) : Serving m queue held := by
  induction hm with
  | start hsettled hnil hslots howners hempty haside =>
      refine ⟨⟨fun _ => [], ⟨hsettled, hnil, hslots, howners, ?_, ?_, ?_, ?_⟩, fun _ => rfl⟩, haside⟩
      · exact fun i => ⟨_, (hempty i).1, .nil⟩
      · exact fun i => (hempty i).2
      · exact fun _ _ _ _ _ hmem => absurd hmem List.not_mem_nil
      · exact fun _ _ _ _ hmem => absurd hmem List.not_mem_nil
  | pushBack i value _ hrun ih =>
      obtain ⟨_, -, hm⟩ := ih.pushBack hrun
      exact hm
  | pushFront i value _ hrun ih =>
      obtain ⟨_, -, hm⟩ := ih.pushFront hrun
      exact hm
  | popFront i _ hrun ih =>
      obtain ⟨_, -, hm⟩ := ih.popFront hrun
      exact hm
  | unlink i value _ hrun ih =>
      obtain ⟨_, -, hm⟩ := ih.unlink hrun
      exact hm
  | collect _ hrun hφ hkept ih =>
      obtain ⟨m₁, hflush, hr⟩ := hφ
      have hm₁ := ih.flushed hflush
      obtain ⟨-, cache, regs, rfl, hactive⟩ := collected_of_collectGarbage hflush hrun
      exact hm₁.collected (relocated_of_relocation hm₁.settled hr) hactive cache (hkept m₁ hflush)
  | other _ helse ih =>
      obtain ⟨lines, hr, hvalues⟩ := ih.ranged
      refine ⟨⟨lines, ?_, hvalues⟩, helse.aside⟩
      rw [helse.known]
      refine hr.congr helse.settled helse.types fun u i x hu => helse.fields u i x ?_
      exact hu.imp_right fun ⟨j, p, hmem⟩ => hr.type_of_mem hmem

/-- The queues are lists.  What is read of a queue is its list; its owner knows the last of the links;
taking and removing a value answer what they answer of the list, and a push that fails has changed
nothing. -/
theorem refines_lists (hm : Served m queue held) (i : ι) :
    (queue i).toList m = .ok (held i) ∧
      (∃ first line, m.heap.fetchField (queue i).owner (queue i).first = .ok first ∧
        Strung m.known m.heap first line ∧ line.map Prod.snd = held i ∧
        m.heap.fetchField (queue i).owner (queue i).last = .ok (lastLink (m.known .nil) line) ∧
        (lastLink (m.known .nil) line = m.known .nil ↔ held i = [])) ∧
      (∃ m', (queue i).popFront m = .ok (held i).head? m') ∧
      (∀ value, ∃ m', (queue i).unlink value m = .ok (decide (value ∈ held i)) m') ∧
      (∀ value fault m', (queue i).pushBack value m = .error fault m' → m' = m) ∧
      (∀ value fault m', (queue i).pushFront value m = .error fault m' → m' = m) ∧
      ∀ cycle m', collectGarbage m = .ok cycle m' → ∃ φ, Displaces φ m := by
  have hserving := hm.serving
  obtain ⟨lines, hr, hvalues⟩ := hserving.ranged
  obtain ⟨v, hv, hs⟩ := hr.first i
  refine ⟨hvalues i ▸ hr.toList_eq i, ⟨v, _, hv, hs, hvalues i, hr.last i, ?_⟩, ?_, ?_, ?_, ?_, ?_⟩
  · rw [hs.lastLink_eq_nil_iff, ← hvalues, List.map_eq_nil_iff]
  · obtain ⟨h, hrun, -⟩ := hr.popFront_run i
    rw [hvalues] at hrun
    exact ⟨_, hrun⟩
  · intro value
    obtain ⟨h, hrun, -⟩ := hr.unlink_run i value
    simp only [hvalues] at hrun
    exact ⟨_, hrun⟩
  · intro value fault m' hfail
    rcases hr.pushBack_run i value with ⟨fault', hrun⟩ | ⟨link, h, hrun, -⟩
    · cases hrun.symm.trans hfail
      rfl
    · cases hrun.symm.trans hfail
  · intro value fault m' hfail
    rcases hr.pushFront_run i value with ⟨fault', hrun⟩ | ⟨link, h, hrun, -⟩
    · cases hrun.symm.trans hfail
      rfl
    · cases hrun.symm.trans hfail
  · intro cycle m' hrun
    obtain ⟨_, m₁, hflush, -⟩ := bind_eq_ok.mp hrun
    obtain ⟨⟨cycle', hresult⟩, -⟩ := collected_of_collectGarbage hflush hrun
    obtain ⟨φ, hr⟩ := exists_relocation (hserving.flushed hflush).settled hresult
    exact ⟨φ, m₁, hflush, hr⟩

end Served

/-! ## Two semaphores -/

/-- The ready queue of a new machine is empty. -/
theorem served_create {settings : Settings} (hcreate : create settings = .ok m) :
    Served m (fun _ : Unit => Queue.ready m) fun _ => [] := by
  obtain ⟨k, h₁, h₀, entry, interrupts, input, timer, rfl, -, -, hf⟩ := nascent_create hcreate
  refine .start hf.furnished.settled (Heap.exists_typeOf_of_count hf.furnished.nil_empty)
    (fun _ => (Nat.succ_ne_self _).symm) (fun _ _ _ => rfl) (fun _ => ?_)
    (.inl (hierarchy_create hcreate).2)
  have hfields := hf.fields.1
  exact ⟨Heap.fetchField_eq_ok.mpr ⟨_, hfields, rfl⟩, Heap.fetchField_eq_ok.mpr ⟨_, hfields, rfl⟩⟩

/-- The type of links, and two semaphores that nothing waits for. -/
def pairHeap : Heap :=
  [Heap.Operation.allocateFields .root (.int 0) 0 (.int 0),
    .allocateFields .ephemeral (.int 0) Slot.semaphoreSize (blank.known .nil),
    .allocateFields .ephemeral (.int 0) Slot.semaphoreSize (blank.known .nil)].foldl
      (fun h op => op.perform h) blank.heap

/-- The queue of one of the two. -/
def pairQueue (second : Bool) : Queue := .waiting (.object ⟨.ephemeral, 1, 0, second.toNat⟩)

/-- The machine whose registers hold the two. -/
def pairMachine : Machine :=
  { blank with
    heap := pairHeap
    known := blank.known.set .link (.object ⟨.root, 0, 0, 1⟩)
    regs := { blank.regs with
      entryProcess := (pairQueue false).owner, entryWait := (pairQueue true).owner } }

/-- Adds values to both queues, to the first one of them twice, removes that once, and collects. -/
def rearrange : MachineM Heap.Cycle := do
  (pairQueue false).pushBack (.int 1)
  (pairQueue true).pushFront (.int 3)
  (pairQueue false).pushFront (.int 2)
  (pairQueue false).pushBack (.int 1)
  let _ ← (pairQueue false).unlink (.int 1)
  collectGarbage

theorem served_pairMachine : Served pairMachine pairQueue fun _ => [] :=
  .start (built_blank.performAll _).settled ⟨.int 0, rfl⟩ (by decide) (by decide +kernel)
    (by decide +kernel) (.inl rfl)

theorem exists_rearrange : ∃ cycle m', rearrange pairMachine = .ok cycle m' := by
  have hevaluated : (resultOf (rearrange pairMachine)).isSome = true := by decide +kernel
  cases hrun : rearrange pairMachine with
  | error fault m' => simp [hrun, resultOf] at hevaluated
  | ok cycle m' => exact ⟨cycle, m', rfl⟩

/-- A value that was added twice and removed once is still there, behind the other, and the value that
was added to the other queue is in that alone. -/
theorem refines_lists_rearrange : ∃ cycle m' φ, rearrange pairMachine = .ok cycle m' ∧
    ((pairQueue false).moved φ).toList m' = .ok [.int 2, .int 1] ∧
    ((pairQueue true).moved φ).toList m' = .ok [.int 3] := by
  obtain ⟨cycle, m', hrun⟩ := exists_rearrange
  obtain ⟨_, m₁, hback, h₁⟩ := bind_eq_ok.mp hrun
  obtain ⟨_, m₂, hother, h₂⟩ := bind_eq_ok.mp h₁
  obtain ⟨_, m₃, hfront, h₃⟩ := bind_eq_ok.mp h₂
  obtain ⟨_, m₄, hagain, h₄⟩ := bind_eq_ok.mp h₃
  obtain ⟨_, m₅, hunlink, hcollect⟩ := bind_eq_ok.mp h₄
  have hm₅ := ((((served_pairMachine.pushBack false (.int 1) hback).pushFront true (.int 3)
    hother).pushFront false (.int 2) hfront).pushBack false (.int 1) hagain).unlink false
    (.int 1) hunlink
  obtain ⟨φ, hφ⟩ := (hm₅.refines_lists false).2.2.2.2.2.2 cycle m' hcollect
  obtain ⟨_, rfl, hs₁⟩ := served_pairMachine.serving.pushBack (i := false) hback
  obtain ⟨_, rfl, hs₂⟩ := hs₁.pushFront (i := true) hother
  obtain ⟨_, rfl, hs₃⟩ := hs₂.pushFront (i := false) hfront
  obtain ⟨_, rfl, hs₄⟩ := hs₃.pushBack (i := false) hagain
  obtain ⟨_, rfl, -⟩ := hs₄.unlink (i := false) hunlink
  have hm' := hm₅.collect hcollect hφ fun m₁ hflush second => by
    rw [flush_of_idle (by rfl)] at hflush
    cases hflush
    refine Heap.kept_of_mem ?_
    cases second <;> simp [roots, pairMachine]
  exact ⟨cycle, m', φ, hrun, (hm'.refines_lists false).1, (hm'.refines_lists true).1⟩

end Machine

end MessageMachine
