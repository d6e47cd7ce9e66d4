import MessageMachine.Proofs.Machine.Access
import MessageMachine.Proofs.Schedule.Lines

/-!
# The operations on queues

What the four operations on a queue do to the lines: adding a process at either end, taking the one
at the front, and removing one from the middle.  The lines afterwards are described from above.  No
process is in a line that was not there before, except the one that was added (`Grown`); the one that
was taken or removed is no longer there (`Shrunk`).  Upper bounds are all that the proofs about the
scheduler need, and they hold also of queues that have been cut.

`Relinked k h h'` collects what all these operations leave alone.  A store that counts a signal
leaves alone all of that but the number of signals, which is `Reshaped k h h'`.
-/

namespace MessageMachine

variable {k : Landmarks} {h h' : Heap} {lines lines' : Value → Line}

/-! ## What the operations leave alone -/

/-- The shielded objects are in order, types and open objects are kept, and the same process is
active. -/
structure Reshaped (k : Landmarks) (h h' : Heap) : Prop where
  furnished : Furnished k h'
  opens : ∀ u, Open k h u → Open k h' u
  types : ∀ u t, h.typeOf u = .ok t → h'.typeOf u = .ok t
  sizes : ∀ u n, h.fieldCount u = .ok n → h'.fieldCount u = .ok n
  active : ∀ p, h'.fetchField (k .processor) Slot.activeProcess = .ok p ↔
    h.fetchField (k .processor) Slot.activeProcess = .ok p
  table : ∀ t, h'.fetchField (k .processor) Slot.interruptTable = .ok t ↔
    h.fetchField (k .processor) Slot.interruptTable = .ok t

namespace Reshaped

theorem refl (hf : Furnished k h) : Reshaped k h h :=
  ⟨hf, fun _ => id, fun _ _ => id, fun _ _ => id, fun _ => Iff.rfl, fun _ => Iff.rfl⟩

theorem trans {h'' : Heap} (hfirst : Reshaped k h h') (hsecond : Reshaped k h' h'') :
    Reshaped k h h'' :=
  ⟨hsecond.furnished, fun u hu => hsecond.opens u (hfirst.opens u hu),
    fun u t hu => hsecond.types u t (hfirst.types u t hu),
    fun u n hu => hsecond.sizes u n (hfirst.sizes u n hu),
    fun p => (hsecond.active p).trans (hfirst.active p),
    fun t => (hsecond.table t).trans (hfirst.table t)⟩

theorem stored (hf : Furnished k h) {v new : Value} {i : Nat} (hslot : QueueSlot k h v i)
    (hactive : v = k .processor → i ≠ Slot.activeProcess) (hstored : Heap.Stored h v i new h') :
    Reshaped k h h' := by
  refine ⟨hf.stored hstored hslot, fun u => Open.stored hf hstored hslot, ?_, ?_, ?_, ?_⟩
  · intro u t hu
    rw [hstored.types u, hu]
  · intro u n hu
    rw [hstored.counts u, hu]
  · intro p
    refine hstored.other _ _ _ ?_
    by_cases hv : k .processor = v
    · exact .inr (Ne.symm (hactive hv.symm))
    · exact .inl hv
  · intro t
    refine hstored.other _ _ _ ?_
    rcases hslot with ⟨hqueueing, -⟩ | ⟨-, hi⟩
    · left
      rintro rfl
      exact hf.processor_plain hqueueing
    · exact .inr (Ne.symm hi)

theorem made (hf : Furnished k h) {v type : Value} {count : Nat}
    (hmade : Heap.Made h v type count (k .nil) h') : Reshaped k h h' :=
  ⟨hf.made hmade, fun _ => Open.made hf hmade, hmade.types,
    fun u _ hu => (hmade.counts u (hmade.ne (Heap.exists_typeOf_of_count hu))).trans hu,
    fun _ => hmade.other _ _ _ (hmade.ne (Heap.exists_typeOf_of_count hf.processor_size)),
    fun _ => hmade.other _ _ _ (hmade.ne (Heap.exists_typeOf_of_count hf.processor_size))⟩

end Reshaped

/-- The semaphores have as many signals as before. -/
def SameExcess (k : Landmarks) (h h' : Heap) : Prop :=
  ∀ v x, h.typeOf v = .ok (k .semaphore) →
    (h'.fetchField v Slot.excessSignals = .ok x ↔ h.fetchField v Slot.excessSignals = .ok x)

theorem SameExcess.trans {h'' : Heap} (htypes : ∀ u t, h.typeOf u = .ok t → h'.typeOf u = .ok t)
    (hfirst : SameExcess k h h') (hsecond : SameExcess k h' h'') : SameExcess k h h'' :=
  fun v x hv => (hsecond v x (htypes v _ hv)).trans (hfirst v x hv)

/-- The signals of a semaphore are in a field that is not cut. -/
theorem SameExcess.of_calm (hf : Furnished k h) (hcalm : Calm k h h') : SameExcess k h h' := by
  intro v x hv
  by_cases hnil : v = k .nil
  · subst hnil
    exact iff_of_false ((hf.calm hcalm).nil_fetchField _ _) (hf.nil_fetchField _ _)
  · have hshielded : Shielded k h v := ⟨hnil, .inl (.inl hv)⟩
    constructor
    · intro hx
      rcases hcalm.fetchField_back hshielded ⟨_, hv⟩ (by decide) hx with hold | ⟨hone, -⟩
      · exact hold
      · cases hone
    · intro hx
      rcases hcalm.fields v _ x hshielded (by decide) hx with hnew | ⟨hone, -⟩
      · exact hnew
      · cases hone

/-- All of this is left alone, and the semaphores have as many signals as before. -/
structure Relinked (k : Landmarks) (h h' : Heap) : Prop extends Reshaped k h h' where
  excess : SameExcess k h h'

namespace Relinked

theorem refl (hf : Furnished k h) : Relinked k h h := ⟨.refl hf, fun _ _ _ => Iff.rfl⟩

theorem trans {h'' : Heap} (hfirst : Relinked k h h') (hsecond : Relinked k h' h'') :
    Relinked k h h'' :=
  ⟨hfirst.toReshaped.trans hsecond.toReshaped, hfirst.excess.trans hfirst.types hsecond.excess⟩

/-- A store into a link. -/
theorem stored_link (hf : Furnished k h) {link new : Value} {i : Nat}
    (htype : h.typeOf link = .ok (k .link)) (hi : i < Slot.linkSize)
    (hstored : Heap.Stored h link i new h') : Relinked k h h' := by
  refine ⟨.stored hf (.inl ⟨.inr htype, Nat.lt_trans hi (by decide)⟩) ?_ hstored, ?_⟩
  · rintro rfl
    exact absurd (.inr htype) hf.processor_plain
  · intro v x hv
    refine hstored.other _ _ _ (.inl ?_)
    rintro rfl
    exact hf.link_ne (Except.ok.inj (htype.symm.trans hv))

theorem made (hf : Furnished k h) {v type : Value} {count : Nat}
    (hmade : Heap.Made h v type count (k .nil) h') : Relinked k h h' :=
  ⟨.made hf hmade, fun _ _ hu => hmade.other _ _ _ (hmade.ne ⟨_, hu⟩)⟩

end Relinked

namespace Queue.Belongs

variable {q : Queue} {new : Value}

/-- A store into a field of a queue. -/
theorem relinked (hf : Furnished k h) (hq : q.Belongs k h) {i : Nat} (hi : i = q.first ∨ i = q.last)
    (hstored : Heap.Stored h q.owner i new h') : Relinked k h h' := by
  rcases hq with hq | ⟨hq, htype⟩
  · rw [hq] at hi hstored
    change i = Slot.firstReady ∨ i = Slot.lastReady at hi
    have hslot : i ≠ Slot.interruptTable ∧ i ≠ Slot.activeProcess := by
      rcases hi with rfl | rfl <;> decide
    refine ⟨.stored hf (.inr ⟨rfl, hslot.1⟩) (fun _ => hslot.2) hstored, fun v x hv => ?_⟩
    refine hstored.other _ _ _ (.inl ?_)
    rintro rfl
    exact hf.processor_plain (.inl hv)
  · rw [hq] at hi
    change i = Slot.firstWaiting ∨ i = Slot.lastWaiting at hi
    have hslot : i < Slot.semaphoreSize ∧ i ≠ Slot.excessSignals := by
      rcases hi with rfl | rfl <;> decide
    refine ⟨.stored hf (.inl ⟨.inl htype, hslot.1⟩) ?_ hstored, fun v x _ => ?_⟩
    · intro heq
      rw [heq] at htype
      exact absurd (.inl htype) hf.processor_plain
    · exact hstored.other _ _ _ (.inr (Ne.symm hslot.2))

theorem relinked_first (hf : Furnished k h) (hq : q.Belongs k h)
    (hstored : Heap.Stored h q.owner q.first new h') : Relinked k h h' :=
  hq.relinked hf (.inl rfl) hstored

theorem relinked_last (hf : Furnished k h) (hq : q.Belongs k h)
    (hstored : Heap.Stored h q.owner q.last new h') : Relinked k h h' :=
  hq.relinked hf (.inr rfl) hstored

end Queue.Belongs

/-! ## What becomes of the lines -/

/-- At most one process has been added, to the line of `owner`. -/
def Grown (lines lines' : Value → Line) (owner process : Value) : Prop :=
  ∀ o p, Queued lines' p o → Queued lines p o ∨ o = owner ∧ p = process

/-- No process has been added. -/
def Shrunk (lines lines' : Value → Line) : Prop := ∀ o p, Queued lines' p o → Queued lines p o

/-- The lines after one of them was replaced by part of it and one more process. -/
theorem grown_update {owner link process : Value} {line : Line}
    (hline : ∀ e ∈ line, e ∈ lines owner ∨ e = (link, process)) :
    Grown lines (Function.update lines owner line) owner process := by
  rintro o p ⟨link', hmem⟩
  by_cases ho : o = owner
  · subst ho
    rw [Function.update_self] at hmem
    rcases hline _ hmem with hold | hnew
    · exact .inl ⟨link', hold⟩
    · cases hnew
      exact .inr ⟨rfl, rfl⟩
  · rw [Function.update_of_ne ho] at hmem
    exact .inl ⟨link', hmem⟩

theorem shrunk_update {owner : Value} {line : Line}
    (hline : ∀ e ∈ line, e ∈ lines owner) : Shrunk lines (Function.update lines owner line) := by
  rintro o p ⟨link, hmem⟩
  by_cases ho : o = owner
  · subst ho
    rw [Function.update_self] at hmem
    exact ⟨link, hline _ hmem⟩
  · rw [Function.update_of_ne ho] at hmem
    exact ⟨link, hmem⟩

namespace Queue

open Machine

variable {m : Machine} {q : Queue} {p : Value}

/-! ## Adding -/

theorem ensures_newLink (hf : Furnished m.known m.heap) (p next : Value) :
    Ensures (m = ·) (newLink p next)
      (fun link m' => ∃ h, Heap.Linked m.known m.heap link p next h ∧
        Relinked m.known m.heap h ∧ m' = m.withHeap h) fun _ m' => m = m' := by
  refine Ensures.bind (ensures_newObject hf.settled .link Slot.linkSize) fun link => ?_
  rintro _ ⟨h₁, hmade, rfl⟩
  have hr₁ := Relinked.made hf hmade
  refine Ensures.bind
    (ensures_storeField_of_fetchField (m := m.withHeap h₁) hmade.settled
      ((hmade.self Slot.linkValue _).mpr ⟨by decide, rfl⟩) p _) (fun _ => ?_) _ rfl
  rintro _ ⟨h₂, hvalue, rfl⟩
  have hr₂ := hr₁.trans (.stored_link hr₁.furnished hmade.type_eq (by decide) hvalue)
  have hnext : h₂.fetchField link Slot.linkNext = .ok (m.known .nil) :=
    (hvalue.other _ _ _ (.inr (by decide))).mpr ((hmade.self _ _).mpr ⟨by decide, rfl⟩)
  refine Ensures.bind
    (ensures_storeField_of_fetchField (m := m.withHeap h₂) hvalue.settled hnext next _)
    (fun _ => ?_) _ rfl
  rintro _ ⟨h₃, hstored, rfl⟩
  have hr₃ := hr₂.trans (.stored_link hr₂.furnished ((hvalue.types link).trans hmade.type_eq)
    (by decide) hstored)
  have htypes : ∀ u, h₃.typeOf u = h₁.typeOf u :=
    fun u => (hstored.types u).trans (hvalue.types u)
  refine ⟨h₃, ⟨hmade.stale, (htypes link).trans hmade.type_eq, hr₃.types, ?_, ?_, hstored.self, ?_⟩,
    hr₃, rfl⟩
  · intro u t hu
    rw [htypes u] at hu
    exact hmade.types_new u t hu
  · exact (hstored.other _ _ _ (.inr (by decide))).mpr hvalue.self
  · intro u i x hu
    exact ((hstored.other u i x (.inl hu)).trans (hvalue.other u i x (.inl hu))).trans
      (hmade.other u i x hu)

/-- The heap of the machine has lines with at most one more process. -/
def Adds (lines : Value → Line) (m : Machine) (owner p : Value) (m' : Machine) : Prop :=
  ∃ h lines', m' = m.withHeap h ∧ Relinked m.known m.heap h ∧ Arranged m.known h lines' ∧
    Grown lines lines' owner p

/-- The heap of the machine has lines with no new process, and without those of `out`. -/
def Drops (lines : Value → Line) (m : Machine) (out : Value → Value → Prop) (m' : Machine) : Prop :=
  ∃ h lines', m' = m.withHeap h ∧ Relinked m.known m.heap h ∧ Arranged m.known h lines' ∧
    ∀ o p, Queued lines' p o → Queued lines p o ∧ ¬out p o

theorem drops_self (hf : Furnished m.known m.heap) (ha : Arranged m.known m.heap lines) :
    Drops lines m (fun _ _ => False) m :=
  ⟨m.heap, lines, rfl, .refl hf, ha, fun _ _ hp => ⟨hp, id⟩⟩

theorem ensures_pushFront (hf : Furnished m.known m.heap) (ha : Arranged m.known m.heap lines)
    (hq : q.Belongs m.known m.heap) (hp : m.heap.typeOf p = .ok (m.known .process))
    (hnew : ∀ o, ¬Queued lines p o) :
    Ensures (m = ·) (q.pushFront p) (fun _ => Adds lines m q.owner p)
      fun _ => Adds lines m q.owner p := by
  have hsame : Adds lines m q.owner p m := ⟨m.heap, lines, rfl, .refl hf, ha, fun _ _ => .inl⟩
  refine Ensures.bind ((ensures_fetchField (m = ·) q.owner q.first).weaken (fun _ => id)
    (fun _ _ => id) ?_) fun first => ?_
  · rintro _ _ rfl
    exact hsame
  rintro _ ⟨rfl, hfirst⟩
  refine Ensures.bind ((ensures_newLink hf p first).weaken (fun _ => id) (fun _ _ => id) ?_)
    (fun link => ?_) _ rfl
  · rintro _ _ rfl
    exact hsame
  rintro _ ⟨h₁, hlink, hr₁, rfl⟩
  have ha₁ := hlink.arranged hf ha
  have hq₁ : q.Belongs _ h₁ := (hlink.belongs_iff hf).mpr hq
  have hfirst₁ := (hlink.fetchField_owner hf hq).mpr hfirst
  refine Ensures.bind (ensures_storeField_of_fetchField (m := m.withHeap h₁)
    hr₁.furnished.settled hfirst₁ link _) (fun _ => ?_) _ rfl
  rintro _ ⟨h₂, hstored, rfl⟩
  have hr₂ := hr₁.trans (hq₁.relinked_first hr₁.furnished hstored)
  have hloose := hlink.loose hf ha
  have ha₂ := ha₁.set_first hr₁.furnished hq₁ hstored
    (.cons hloose.ne_nil hloose.type_eq hloose.process_eq hloose.next_eq
      (ha₁.strung q first hq₁ hfirst₁))
    (hloose.fits ha₁ (hr₁.types _ _ hp) hnew (List.Sublist.refl _) (List.Perm.refl _))
  have hgrown : Grown lines (Function.update lines q.owner ((link, p) :: lines q.owner)) q.owner p :=
    grown_update fun e he => (List.mem_cons.mp he).symm
  have hadds : Adds lines m q.owner p (m.withHeap h₂) := ⟨h₂, _, rfl, hr₂, ha₂, hgrown⟩
  refine Ensures.bind (ensures_landmark (m.withHeap h₂ = ·) .nil _) (fun nil => ?_) _ rfl
  refine Ensures.ite (fun hempty => ?_) fun _ => Ensures.pure ?_
  · rintro _ ⟨rfl, rfl⟩
    refine ((ensures_storeField (m := m.withHeap h₂) hr₂.furnished.settled q.owner q.last link).weaken
      (fun _ => id) ?_ ?_) _ rfl
    · rintro _ _ ⟨h₃, hstored', rfl⟩
      have hq₂ : q.Belongs m.known h₂ := (Queue.belongs_congr hstored.types).mpr hq₁
      refine ⟨h₃, _, rfl, hr₂.trans (hq₂.relinked_last hr₂.furnished hstored'), ?_, hgrown⟩
      refine ha₂.set_last_mem (p := p) hr₂.furnished hq₂ hstored' (by simp) ?_
      refine (hstored.other _ _ _ (.inl ?_)).mpr (hempty ▸ hlink.next_eq)
      rintro rfl
      exact hq₁.not_link hr₁.furnished hlink.type_eq
    · rintro _ _ rfl
      exact hadds
  · rintro _ ⟨rfl, -⟩
    exact hadds

/-- A loose link put behind the last link of a queue.  If that is in no line, because the queue has
been cut, the new link is in no line either. -/
theorem append_line {k : Landmarks} {h₁ h₂ h₃ : Heap} (hf : Furnished k h₁)
    (ha : Arranged k h₁ lines) (hq : q.Belongs k h₁) {link last : Value}
    (hloose : Loose k h₁ lines link p (k .nil)) (hp : h₁.typeOf p = .ok (k .process))
    (hnew : ∀ o, ¬Queued lines p o) (hlast : h₁.fetchField q.owner q.last = .ok last)
    (hne : last ≠ k .nil) (hnext : Heap.Stored h₁ last Slot.linkNext link h₂)
    (hstored : Heap.Stored h₂ q.owner q.last link h₃) :
    ∃ lines', Arranged k h₃ lines' ∧ Grown lines lines' q.owner p := by
  obtain ⟨htype, hend⟩ := ha.last_link q last hq hlast hne
  have howner : ∀ {q' : Queue}, q'.Belongs k h₁ → q'.owner ≠ last := by
    rintro q' hq' rfl
    exact hq'.not_link hf htype
  -- the same two stores in the other order
  obtain ⟨t, hstored', hnext'⟩ := hnext.comm hf.settled hstored (.inl (howner hq).symm)
  have hft := hf.stored hstored' hq.slots.2
  have hbelongs : ∀ {q' : Queue}, q'.Belongs k t ↔ q'.Belongs k h₁ :=
    Queue.belongs_congr hstored'.types
  have hat : Arranged k t lines := by
    refine ha.set_last hf hq hstored' (fun _ => ⟨hloose.type_eq, hloose.next_eq⟩)
      (fun o p' hmem => absurd hmem (hloose.notMem o p')) ?_
    exact fun q' hq' hl _ => absurd hl (hloose.ne_last q' hq')
  have hlastless : ∀ q' : Queue, q'.Belongs k t → t.fetchField q'.owner q'.last ≠ .ok last := by
    intro q' hq' hl
    have hq' := hbelongs.mp hq'
    by_cases ho : q'.owner = q.owner
    · obtain rfl := hq'.eq hf hq ho
      rw [hstored'.self] at hl
      cases hl
      exact hloose.ne_last q' hq' hlast
    · have hl := (hstored'.other _ _ _ (.inl ho)).mp hl
      exact ho (ha.last_apart q q' last hq hq' hlast hl hne)
  by_cases hmem : ∃ o p', (last, p') ∈ lines o
  · obtain ⟨o, p', hmem⟩ := hmem
    obtain rfl := ha.last_own q last o p' hq hlast hmem
    obtain ⟨q₁, v, -, -, -, hs⟩ := ha.exists_queue hmem
    obtain ⟨before, after, next, hline, hnext₁, hs'⟩ := hs.split hmem
    cases hend.symm.trans hnext₁
    obtain rfl : after = [] := hs'.unique .nil
    have hlink : link ≠ last := by
      rintro rfl
      exact hloose.notMem _ _ hmem
    have hstrung : Strung k t link [(link, p)] := by
      refine .cons hloose.ne_nil ((hstored'.types _).trans hloose.type_eq) ?_ ?_ .nil
      all_goals
        refine (hstored'.other _ _ _ (.inl ?_)).mpr ?_
        · rintro rfl
          exact hq.not_link hf hloose.type_eq
      · exact hloose.process_eq
      · exact hloose.next_eq
    have hperm : (before ++ [(last, p'), (link, p)]).Perm ((link, p) :: lines q.owner) := by
      have hsplit : before ++ [(last, p'), (link, p)] = lines q.owner ++ [(link, p)] := by
        rw [hline, List.append_assoc]
        rfl
      rw [hsplit]
      exact List.perm_append_singleton _ _
    refine ⟨_, hat.set_next hft (hbelongs.mpr hq) hline hnext' hstrung ?_ ?_ ?_,
      grown_update fun e he => (List.mem_cons.mp (hperm.mem_iff.mp he)).symm⟩
    · intro e he
      rw [List.mem_singleton.mp he]
      exact hlink
    · refine (hat.fits_sublist (List.Sublist.refl _)).insert hperm ((hstored'.types _).trans hp) ?_
        hnew ?_
      · rintro e he rfl
        exact hnew q.owner ⟨e.1, he⟩
      · intro q' hq' hl
        by_contra ho
        exact hloose.ne_last q' (hbelongs.mp hq') ((hstored'.other _ _ _ (.inl ho)).mp hl)
    · exact fun q' hq' hl => absurd hl (hlastless q' hq')
  · refine ⟨lines, hat.irrelevant hnext' (fun o p' hmem' => hmem ⟨o, p', hmem'⟩) ?_ ?_,
      fun _ _ => .inl⟩
    · exact fun q' hq' heq => absurd heq (howner (hbelongs.mp hq'))
    · exact fun q' hq' hl => absurd hl (hlastless q' hq')

/-- A process added at the back.  If that fails, nothing has been added. -/
theorem ensures_pushBack (hf : Furnished m.known m.heap) (ha : Arranged m.known m.heap lines)
    (hq : q.Belongs m.known m.heap) (hp : m.heap.typeOf p = .ok (m.known .process))
    (hnew : ∀ o, ¬Queued lines p o) :
    Ensures (m = ·) (q.pushBack p) (fun _ => Adds lines m q.owner p)
      fun _ => Drops lines m (fun _ _ => False) := by
  refine Ensures.bind (ensures_landmark (m = ·) .nil _) fun nil => ?_
  rintro _ ⟨rfl, rfl⟩
  refine Ensures.bind ((ensures_newLink hf p _).weaken (fun _ => id) (fun _ _ => id) ?_)
    (fun link => ?_) _ rfl
  · rintro _ _ rfl
    exact drops_self hf ha
  rintro _ ⟨h₁, hlink, hr₁, rfl⟩
  have ha₁ := hlink.arranged hf ha
  have hq₁ : q.Belongs m.known h₁ := (hlink.belongs_iff hf).mpr hq
  have hdrops : Drops lines m (fun _ _ => False) (m.withHeap h₁) :=
    ⟨h₁, lines, rfl, hr₁, ha₁, fun _ _ hp => ⟨hp, id⟩⟩
  refine Ensures.bind ((ensures_fetchField (m.withHeap h₁ = ·) q.owner q.last).weaken (fun _ => id)
    (fun _ _ => id) ?_) (fun last => ?_) _ rfl
  · rintro _ _ rfl
    exact hdrops
  rintro _ ⟨rfl, hlast⟩
  have hloose := hlink.loose hf ha
  have hp₁ := hr₁.types _ _ hp
  by_cases hempty : last = m.known .nil
  · simp only [hempty, if_true]
    obtain ⟨first, hfirst⟩ := hq₁.exists_first hlast
    refine Ensures.bind (ensures_storeField_of_fetchField (m := m.withHeap h₁)
      hr₁.furnished.settled hfirst link _) (fun _ => ?_) _ rfl
    rintro _ ⟨h₂, hstored, rfl⟩
    have hr₂ := hr₁.trans (hq₁.relinked_first hr₁.furnished hstored)
    have hq₂ : q.Belongs m.known h₂ := (Queue.belongs_congr hstored.types).mpr hq₁
    have ha₂ := ha₁.set_first hr₁.furnished hq₁ hstored
      (.cons hloose.ne_nil hloose.type_eq hloose.process_eq hloose.next_eq .nil)
      (hloose.fits ha₁ hp₁ hnew (List.nil_sublist _) (List.Perm.refl _))
    have hlast₂ := (hstored.other _ _ _ (.inr hq₁.first_ne_last.symm)).mpr hlast
    refine ((ensures_storeField_of_fetchField (m := m.withHeap h₂) hr₂.furnished.settled hlast₂ link
      _).weaken (fun _ => id) ?_ fun _ _ => id) _ rfl
    rintro _ _ ⟨h₃, hstored', rfl⟩
    refine ⟨h₃, Function.update lines q.owner [(link, p)], rfl, hr₂.trans (hq₂.relinked_last hr₂.furnished hstored'), ?_,
      grown_update fun e he => .inr (List.mem_singleton.mp he)⟩
    · refine ha₂.set_last_mem (p := p) hr₂.furnished hq₂ hstored' (by simp) ?_
      refine (hstored.other _ _ _ (.inl ?_)).mpr hloose.next_eq
      rintro rfl
      exact hq₁.not_link hr₁.furnished hloose.type_eq
  · simp only [hempty, if_false]
    obtain ⟨htype, hend⟩ := ha₁.last_link q last hq₁ hlast hempty
    refine Ensures.bind (ensures_storeField_of_fetchField (m := m.withHeap h₁)
      hr₁.furnished.settled hend link _) (fun _ => ?_) _ rfl
    rintro _ ⟨h₂, hstored, rfl⟩
    have hr₂ := hr₁.trans (.stored_link hr₁.furnished htype (by decide) hstored)
    have hq₂ : q.Belongs m.known h₂ := (Queue.belongs_congr hstored.types).mpr hq₁
    have hlast₂ := (hstored.other q.owner q.last last (.inl fun heq =>
      hq₁.not_link hr₁.furnished (heq ▸ htype))).mpr hlast
    refine ((ensures_storeField_of_fetchField (m := m.withHeap h₂) hr₂.furnished.settled hlast₂ link
      _).weaken (fun _ => id) ?_ fun _ _ => id) _ rfl
    rintro _ _ ⟨h₃, hstored', rfl⟩
    obtain ⟨lines', ha₃, hgrown⟩ :=
      append_line hr₁.furnished ha₁ hq₁ hloose hp₁ hnew hlast hempty hstored hstored'
    exact ⟨h₃, lines', rfl, hr₂.trans (hq₂.relinked_last hr₂.furnished hstored'), ha₃, hgrown⟩

/-! ## Removing -/

/-- The line of a queue from whose front a link is taken. -/
theorem pop_line {k : Landmarks} {h₁ h₂ : Heap} (hf : Furnished k h₁) (ha : Arranged k h₁ lines)
    (hq : q.Belongs k h₁) {first next : Value} (hfirst : h₁.fetchField q.owner q.first = .ok first)
    (hne : first ≠ k .nil) (hp : h₁.fetchField first Slot.linkValue = .ok p)
    (hnext : h₁.fetchField first Slot.linkNext = .ok next)
    (hstored : Heap.Stored h₁ q.owner q.first next h₂) :
    Queued lines p q.owner ∧ ∃ lines', Arranged k h₂ lines' ∧
      ∀ o p', Queued lines' p' o → Queued lines p' o ∧ p' ≠ p := by
  have hs := ha.strung q first hq hfirst
  generalize hline : lines q.owner = line at hs
  cases hs with
  | nil => exact absurd rfl hne
  | @cons _ process next' rest _ htype hprocess hnext' hrest =>
      cases hp.symm.trans hprocess
      cases hnext.symm.trans hnext'
      have hmem : (first, p) ∈ lines q.owner := by
        rw [hline]
        exact List.mem_cons_self
      have hsub : rest.Sublist (lines q.owner) := by
        rw [hline]
        exact List.sublist_cons_self _ _
      refine ⟨⟨first, hmem⟩, _, ha.set_first hf hq hstored hrest (ha.fits_sublist hsub), ?_⟩
      · intro o p' hqueued
        have hold := shrunk_update (fun e he => hsub.subset he) o p' hqueued
        refine ⟨hold, ?_⟩
        rintro rfl
        obtain rfl := ha.apart o q.owner p' hold ⟨first, hmem⟩
        obtain ⟨link, hrest⟩ := hqueued
        rw [Function.update_self] at hrest
        have hnodup := ha.nodup q.owner
        rw [hline, List.map_cons, List.nodup_cons] at hnodup
        exact hnodup.1 (List.mem_map.mpr ⟨_, hrest, rfl⟩)

theorem ensures_popFront (hf : Furnished m.known m.heap) (ha : Arranged m.known m.heap lines)
    (hq : q.Belongs m.known m.heap) :
    Ensures (m = ·) q.popFront
      (fun r m' => match r with
        | none => m = m' ∧ lines q.owner = []
        | some p => Queued lines p q.owner ∧ Drops lines m (fun p' _ => p' = p) m')
      fun _ => Drops lines m (fun _ _ => False) := by
  have hfail : ∀ (fault : Fault) (m' : Machine), m = m' → Drops lines m (fun _ _ => False) m' := by
    rintro _ m' rfl
    exact drops_self hf ha
  refine Ensures.bind (ensures_landmark (m = ·) .nil _) fun nil => ?_
  rintro _ ⟨rfl, rfl⟩
  refine Ensures.bind ((ensures_fetchField (m = ·) q.owner q.first).weaken (fun _ => id)
    (fun _ _ => id) hfail) (fun first => ?_) _ rfl
  refine Ensures.ite (fun hempty => Ensures.pure ?_) fun hne => ?_
  · rintro _ ⟨rfl, hfirst⟩
    have hs := ha.strung q first hq hfirst
    rw [hempty] at hs
    exact ⟨rfl, hs.unique .nil⟩
  rintro _ ⟨rfl, hfirst⟩
  refine Ensures.bind ((ensures_fetchField (m = ·) first Slot.linkValue).weaken (fun _ => id)
    (fun _ _ => id) hfail) (fun p => ?_) _ rfl
  rintro _ ⟨rfl, hp⟩
  refine Ensures.bind ((ensures_fetchField (m = ·) first Slot.linkNext).weaken (fun _ => id)
    (fun _ _ => id) hfail) (fun next => ?_) _ rfl
  rintro _ ⟨rfl, hnext⟩
  refine Ensures.bind (ensures_storeField_of_fetchField (m := m) hf.settled hfirst next _)
    (fun _ => ?_) _ rfl
  rintro _ ⟨h₁, hstored, rfl⟩
  have hr₁ := hq.relinked_first hf hstored
  obtain ⟨hqueued, lines', ha₁, hshrunk⟩ := pop_line hf ha hq hfirst hne hp hnext hstored
  by_cases hend : next = m.known .nil
  · simp only [hend, if_true]
    refine Ensures.bind ((ensures_storeField (m := m.withHeap h₁) hr₁.furnished.settled q.owner
      q.last (m.known .nil)).weaken (fun _ => id) (fun _ _ => id) ?_) (fun _ => ?_) _ rfl
    · rintro _ _ rfl
      exact ⟨h₁, lines', rfl, hr₁, ha₁, fun o p' hp' => ⟨(hshrunk o p' hp').1, id⟩⟩
    · rintro _ ⟨h₂, hstored', rfl⟩
      have hq₁ : q.Belongs m.known h₁ := (Queue.belongs_congr hstored.types).mpr hq
      exact ⟨hqueued, h₂, lines', rfl, hr₁.trans (hq₁.relinked_last hr₁.furnished hstored'),
        ha₁.set_last_nil hr₁.furnished hq₁ hstored', hshrunk⟩
  · simp only [hend, if_false]
    exact ⟨hqueued, h₁, lines', rfl, hr₁, ha₁, hshrunk⟩

/-- Where a search along a line has come: `previous` is the last link of what it has passed. -/
def Passed (nil : Value) (passed : Line) (previous : Value) : Prop :=
  previous = nil ∧ passed = [] ∨ previous ≠ nil ∧ ∃ start p, passed = start ++ [(previous, p)]

/-- The line of a queue from which a link is removed: the first store. -/
theorem unlink_line {k : Landmarks} {h₁ h₂ : Heap} (hf : Furnished k h₁)
    (ha : Arranged k h₁ lines) (hq : q.Belongs k h₁) {previous link next : Value}
    {passed rest : Line} (hline : lines q.owner = passed ++ (link, p) :: rest)
    (hpassed : Passed (k .nil) passed previous) (hrest : Strung k h₁ next rest)
    (hstored : previous = k .nil ∧ Heap.Stored h₁ q.owner q.first next h₂ ∨
      previous ≠ k .nil ∧ Heap.Stored h₁ previous Slot.linkNext next h₂) :
    Relinked k h₁ h₂ ∧ Arranged k h₂ (Function.update lines q.owner (passed ++ rest)) := by
  have hsub : (passed ++ rest).Sublist (lines q.owner) := by
    rw [hline]
    exact (List.sublist_cons_self _ _).append_left _
  have hmem : (link, p) ∈ lines q.owner := by
    rw [hline]
    simp
  rcases hstored with ⟨hnil, hstored⟩ | ⟨hne, hstored⟩
  · refine ⟨hq.relinked_first hf hstored, ?_⟩
    rcases hpassed with ⟨-, rfl⟩ | ⟨hne, -⟩
    · exact ha.set_first hf hq hstored hrest (ha.fits_sublist hsub)
    · exact absurd hnil hne
  · rcases hpassed with ⟨hnil, -⟩ | ⟨-, start, p', rfl⟩
    · exact absurd hnil hne
    have hline' : lines q.owner = start ++ (previous, p') :: (link, p) :: rest := by
      rw [hline, List.append_assoc]
      rfl
    have hprevious : (previous, p') ∈ lines q.owner := by
      rw [hline']
      simp
    have htype := (ha.mem hprevious).2.1
    -- the link passed last leads to the one removed, so it is not the last of a queue
    have hlast : ∀ q' : Queue, q'.Belongs k h₁ → h₁.fetchField q'.owner q'.last ≠ .ok previous := by
      intro q' hq' hlast
      obtain ⟨-, hend⟩ := ha.last_link q' previous hq' hlast hne
      obtain ⟨q₁, v, -, -, -, hs⟩ := ha.exists_queue hprevious
      rw [hline'] at hs
      rw [hs.next] at hend
      exact (ha.mem hmem).1 (Except.ok.inj hend)
    refine ⟨.stored_link hf htype (by decide) hstored, ?_⟩
    rw [List.append_assoc]
    refine ha.set_next hf hq hline' hstored hrest ?_ ?_ fun q' hq' h => absurd h (hlast q' hq')
    · intro e he
      exact (ha.link_before hline').2 e.1 e.2 (List.mem_cons_of_mem _ he)
    · rw [List.append_assoc] at hsub
      exact ha.fits_sublist hsub

/-- The line of a queue from which a link is removed: the last link is put right. -/
theorem ensures_finishUnlink (hf : Furnished m.known m.heap)
    (ha : Arranged m.known m.heap lines) (hq : q.Belongs m.known m.heap)
    {previous link next : Value} {passed rest : Line}
    (hline : lines q.owner = passed ++ (link, p) :: rest)
    (hpassed : Passed (m.known .nil) passed previous)
    (hrest : Strung m.known m.heap next rest) {h₁ : Heap}
    (hstored : previous = m.known .nil ∧ Heap.Stored m.heap q.owner q.first next h₁ ∨
      previous ≠ m.known .nil ∧ Heap.Stored m.heap previous Slot.linkNext next h₁) :
    Ensures (m.withHeap h₁ = ·)
      (do
        if next = m.known .nil then storeField q.owner q.last previous
        return true : MachineM Bool)
      (fun _ => Drops lines m fun p' o => p' = p ∧ o = q.owner)
      fun _ => Drops lines m (fun _ _ => False) := by
  obtain ⟨hr₁, ha₁⟩ := unlink_line hf ha hq hline hpassed hrest hstored
  have htypes : ∀ u, h₁.typeOf u = m.heap.typeOf u := by
    rcases hstored with ⟨-, hstored⟩ | ⟨-, hstored⟩
    · exact hstored.types
    · exact hstored.types
  have hq₁ : q.Belongs m.known h₁ := (Queue.belongs_congr htypes).mpr hq
  have hgone : ∀ o p', Queued (Function.update lines q.owner (passed ++ rest)) p' o →
      Queued lines p' o ∧ ¬(p' = p ∧ o = q.owner) := by
    intro o p' hqueued
    refine ⟨shrunk_update (fun e he => ?_) o p' hqueued, ?_⟩
    · rw [hline]
      rcases List.mem_append.mp he with he | he
      · exact List.mem_append_left _ he
      · exact List.mem_append_right _ (List.mem_cons_of_mem _ he)
    · rintro ⟨rfl, rfl⟩
      obtain ⟨link', hmem⟩ := hqueued
      rw [Function.update_self] at hmem
      have hnodup := ha.nodup q.owner
      rw [hline, List.map_append, List.map_cons, List.nodup_middle, ← List.map_append,
        List.nodup_cons] at hnodup
      exact hnodup.1 (List.mem_map.mpr ⟨_, hmem, rfl⟩)
  by_cases hend : next = m.known .nil
  · simp only [hend, if_true]
    refine Ensures.bind ((ensures_storeField (m := m.withHeap h₁) hr₁.furnished.settled q.owner
      q.last previous).weaken (fun _ => id) (fun _ _ => id) ?_) fun _ => Ensures.pure ?_
    · rintro _ _ rfl
      exact ⟨h₁, _, rfl, hr₁, ha₁, fun o p' hp' => ⟨(hgone o p' hp').1, id⟩⟩
    · rintro _ ⟨h₂, hstored', rfl⟩
      refine ⟨h₂, _, rfl, hr₁.trans (hq₁.relinked_last hr₁.furnished hstored'), ?_, hgone⟩
      rcases hpassed with ⟨rfl, -⟩ | ⟨hne, start, p', rfl⟩
      · exact ha₁.set_last_nil hr₁.furnished hq₁ hstored'
      · refine ha₁.set_last_mem (p := p') hr₁.furnished hq₁ hstored' (by simp) ?_
        rcases hstored with ⟨hnil, -⟩ | ⟨-, hstored⟩
        · exact absurd hnil hne
        · rw [hstored.self, hend]
  · simp only [hend, if_false]
    refine Ensures.pure ?_
    rintro _ rfl
    exact ⟨h₁, _, rfl, hr₁, ha₁, hgone⟩

theorem ensures_unlinkFrom (hf : Furnished m.known m.heap) (ha : Arranged m.known m.heap lines)
    (hq : q.Belongs m.known m.heap) (value : Value) :
    ∀ (fuel : Nat) (previous link : Value) (passed rest : Line),
      lines q.owner = passed ++ rest → Passed (m.known .nil) passed previous →
      Strung m.known m.heap link rest → (∀ e ∈ passed, e.2 ≠ value) →
      Ensures (m = ·) (unlinkFrom q value (m.known .nil) fuel previous link)
        (fun _ => Drops lines m fun p o => p = value ∧ o = q.owner)
        fun _ => Drops lines m (fun _ _ => False) := by
  have hfail : ∀ (fault : Fault) (m' : Machine), m = m' → Drops lines m (fun _ _ => False) m' := by
    rintro _ m' rfl
    exact drops_self hf ha
  intro fuel
  induction fuel with
  | zero =>
      intro previous link passed rest _ _ _ _
      exact Ensures.throw (hfail .endless)
  | succ fuel ih =>
      intro previous link passed rest hline hpassed hs hvalue
      refine Ensures.ite (fun hend => Ensures.pure ?_) fun hne => ?_
      · rintro _ rfl
        subst hend
        obtain rfl : rest = [] := hs.unique .nil
        rw [List.append_nil] at hline
        refine ⟨m.heap, lines, rfl, .refl hf, ha, fun o p hp => ⟨hp, ?_⟩⟩
        rintro ⟨rfl, rfl⟩
        obtain ⟨link, hmem⟩ := hp
        exact hvalue _ (hline ▸ hmem) rfl
      refine Ensures.bind ((ensures_fetchField (m = ·) link Slot.linkNext).weaken (fun _ => id)
        (fun _ _ => id) hfail) fun next => ?_
      rintro _ ⟨rfl, hnext⟩
      refine Ensures.bind ((ensures_fetchField (m = ·) link Slot.linkValue).weaken (fun _ => id)
        (fun _ _ => id) hfail) (fun p => ?_) _ rfl
      rintro _ ⟨rfl, hp⟩
      cases hs with
      | nil => exact absurd rfl hne
      | @cons _ _ _ rest _ htype hp' hnext' hrest =>
          cases hp.symm.trans hp'
          cases hnext.symm.trans hnext'
          refine Ensures.ite (P := (m = ·)) (fun hfound => ?_) (fun hother => ?_) m rfl
          · subst hfound
            have hfinish := @ensures_finishUnlink lines m q p hf ha hq previous link next passed rest
              hline hpassed hrest
            refine Ensures.ite (fun hnil => ?_) fun hnil => ?_
            · have hmem : (link, p) ∈ lines q.owner := by
                rw [hline]
                simp
              obtain ⟨q₁, v, hq₁, ho, hv, -⟩ := ha.exists_queue hmem
              obtain rfl := hq₁.eq hf hq ho
              refine Ensures.bind (ensures_storeField_of_fetchField (m := m) hf.settled hv next _)
                fun _ => ?_
              rintro _ ⟨h₁, hstored, rfl⟩
              exact hfinish (.inl ⟨hnil, hstored⟩) _ rfl
            · rcases hpassed with ⟨hpassed, -⟩ | ⟨-, start, p', rfl⟩
              · exact absurd hpassed hnil
              have hmem : (previous, p') ∈ lines q.owner := by
                rw [hline]
                simp
              obtain ⟨q₁, v, -, -, -, hs⟩ := ha.exists_queue hmem
              obtain ⟨-, -, next', -, hnext₁, -⟩ := hs.split hmem
              refine Ensures.bind (ensures_storeField_of_fetchField (m := m) hf.settled hnext₁ next _)
                fun _ => ?_
              rintro _ ⟨h₁, hstored, rfl⟩
              exact hfinish (.inr ⟨hnil, hstored⟩) _ rfl
          · refine ih link next (passed ++ [(link, p)]) rest ?_ (.inr ⟨hne, passed, p, rfl⟩) hrest ?_
            · rw [hline, List.append_assoc]
              rfl
            · intro e he
              rcases List.mem_append.mp he with he | he
              · exact hvalue e he
              · rw [List.mem_singleton.mp he]
                exact hother

/-- A process that is removed from a queue is no longer in its line. -/
theorem ensures_unlink (hf : Furnished m.known m.heap) (ha : Arranged m.known m.heap lines)
    (hq : q.Belongs m.known m.heap) (value : Value) :
    Ensures (m = ·) (q.unlink value) (fun _ => Drops lines m fun p o => p = value ∧ o = q.owner)
      fun _ => Drops lines m (fun _ _ => False) := by
  refine Ensures.bind (ensures_landmark (m = ·) .nil _) fun nil => ?_
  rintro _ ⟨rfl, rfl⟩
  refine Ensures.bind ((ensures_fetchField (m = ·) q.owner q.first).weaken (fun _ => id)
    (fun _ _ => id) ?_) (fun first => ?_) _ rfl
  · rintro _ _ rfl
    exact drops_self hf ha
  rintro _ ⟨rfl, hfirst⟩
  exact ensures_unlinkFrom hf ha hq value _ _ first [] _ rfl (.inl ⟨rfl, rfl⟩)
    (ha.strung q first hq hfirst) (fun _ he => absurd he List.not_mem_nil) m rfl

end Queue

end MessageMachine
