import MessageMachine.Machine.Queue
import MessageMachine.Proofs.Schedule.Shield

/-!
# Lines of processes

The line of a queue lists its links from front to back, each with the process it holds.
`Arranged k h lines` says that the heap `h` holds exactly the lines that `lines` assigns to the
owners of queues, and that no process is in two places of them.

The field with the last link is trusted less than the chain.  A queue may have been cut, and then its
last link is in no line.  What is true is that the last link leads nowhere, and that a queue never
has a last link in the line of another.

Each lemma here is about one store: `set_first`, `set_next` and `set_last` for the three fields that
make up a queue, and `irrelevant` for all others.  Changes that are calm leave the lines, up to cuts.
-/

namespace MessageMachine

/-- The links of a queue, front first, each with the process it holds. -/
abbrev Line := List (Value × Value)

/-- The chain that starts at a value has the links of the line, and no more. -/
inductive Strung (k : Landmarks) (h : Heap) : Value → Line → Prop where
  | nil : Strung k h (k .nil) []
  | cons {link process next : Value} {rest : Line} : link ≠ k .nil →
      h.typeOf link = .ok (k .link) → h.fetchField link Slot.linkValue = .ok process →
      h.fetchField link Slot.linkNext = .ok next → Strung k h next rest →
      Strung k h link ((link, process) :: rest)

/-- The queue of ready processes, or that of a semaphore. -/
def Queue.Belongs (q : Queue) (k : Landmarks) (h : Heap) : Prop :=
  q = ⟨k .processor, Slot.firstReady, Slot.lastReady⟩ ∨
    q = Queue.waiting q.owner ∧ h.typeOf q.owner = .ok (k .semaphore)

/-- The process is in the line of an owner. -/
def Queued (lines : Value → Line) (process owner : Value) : Prop :=
  ∃ link, (link, process) ∈ lines owner

/-- The heap holds these lines, with every process in one place at most. -/
structure Arranged (k : Landmarks) (h : Heap) (lines : Value → Line) : Prop where
  strung : ∀ (q : Queue) v, q.Belongs k h → h.fetchField q.owner q.first = .ok v →
    Strung k h v (lines q.owner)
  outside : ∀ o, (∀ (q : Queue) v, q.Belongs k h → q.owner = o → h.fetchField o q.first ≠ .ok v) →
    lines o = []
  nodup : ∀ o, ((lines o).map Prod.snd).Nodup
  apart : ∀ o o' p, Queued lines p o → Queued lines p o' → o = o'
  process : ∀ o p, Queued lines p o → h.typeOf p = .ok (k .process)
  last_link : ∀ (q : Queue) l, q.Belongs k h → h.fetchField q.owner q.last = .ok l → l ≠ k .nil →
    h.typeOf l = .ok (k .link) ∧ h.fetchField l Slot.linkNext = .ok (k .nil)
  last_own : ∀ (q : Queue) l o p, q.Belongs k h → h.fetchField q.owner q.last = .ok l → (l, p) ∈ lines o →
    o = q.owner
  last_apart : ∀ (q q' : Queue) l, q.Belongs k h → q'.Belongs k h → h.fetchField q.owner q.last = .ok l →
    h.fetchField q'.owner q'.last = .ok l → l ≠ k .nil → q'.owner = q.owner

variable {k : Landmarks} {h h' : Heap} {lines lines' : Value → Line}

/-! ## Chains -/

namespace Strung

theorem mem {v : Value} {line : Line} (hs : Strung k h v line) {link p : Value}
    (hmem : (link, p) ∈ line) :
    link ≠ k .nil ∧ h.typeOf link = .ok (k .link) ∧ h.fetchField link Slot.linkValue = .ok p := by
  induction hs with
  | nil => cases hmem
  | cons hne htype hvalue _ _ ih =>
      rcases List.mem_cons.mp hmem with heq | hrest
      · cases heq
        exact ⟨hne, htype, hvalue⟩
      · exact ih hrest

/-- A chain stays if its links do. -/
theorem congr {v : Value} {line : Line} (hs : Strung k h v line)
    (htype : ∀ link p, (link, p) ∈ line → h'.typeOf link = h.typeOf link)
    (hfields : ∀ link p i x, (link, p) ∈ line → h.fetchField link i = .ok x →
      h'.fetchField link i = .ok x) : Strung k h' v line := by
  induction hs with
  | nil => exact .nil
  | cons hne hlink hvalue hnext _ ih =>
      refine .cons hne ((htype _ _ List.mem_cons_self).trans hlink)
        (hfields _ _ _ _ List.mem_cons_self hvalue) (hfields _ _ _ _ List.mem_cons_self hnext)
        (ih ?_ ?_)
      · exact fun link p hmem => htype link p (List.mem_cons_of_mem _ hmem)
      · exact fun link p i x hmem => hfields link p i x (List.mem_cons_of_mem _ hmem)

/-- Two chains from one value are the same. -/
theorem unique {v : Value} {line line' : Line} (hs : Strung k h v line)
    (hs' : Strung k h v line') : line = line' := by
  induction hs generalizing line' with
  | nil =>
      cases hs' with
      | nil => rfl
      | cons hne => exact absurd rfl hne
  | cons hne _ hvalue hnext _ ih =>
      cases hs' with
      | nil => exact absurd rfl hne
      | cons _ _ hvalue' hnext' hrest' =>
          cases hvalue.symm.trans hvalue'
          cases hnext.symm.trans hnext'
          rw [ih hrest']

/-- A link of a chain, with the chain from there on. -/
theorem split {v : Value} {line : Line} (hs : Strung k h v line) {link p : Value}
    (hmem : (link, p) ∈ line) : ∃ before after next, line = before ++ (link, p) :: after ∧
      h.fetchField link Slot.linkNext = .ok next ∧ Strung k h next after := by
  induction hs with
  | nil => cases hmem
  | @cons link' process next rest _ _ _ hnext hrest ih =>
      rcases List.mem_cons.mp hmem with heq | hmem
      · cases heq
        exact ⟨[], rest, next, rfl, hnext, hrest⟩
      · obtain ⟨before, after, next', rfl, hlink⟩ := ih hmem
        exact ⟨(link', process) :: before, after, next', rfl, hlink⟩

/-- A link leads to the one after it in the line. -/
theorem next {v link p link' p' : Value} {before after : Line}
    (hs : Strung k h v (before ++ (link, p) :: (link', p') :: after)) :
    h.fetchField link Slot.linkNext = .ok link' := by
  induction before generalizing v with
  | nil =>
      cases hs with
      | cons _ _ _ hnext hrest =>
          cases hrest with
          | cons => exact hnext
  | cons head before ih =>
      cases hs with
      | cons _ _ _ _ hrest => exact ih hrest

/-- Replacing what comes after a link. -/
theorem replace {v new : Value} {before after after' : Line} {link p : Value}
    (hs : Strung k h v (before ++ (link, p) :: after))
    (hfirst : ∀ link' p', (link', p') ∈ before → link' ≠ link)
    (hstored : Heap.Stored h link Slot.linkNext new h') (hnew : Strung k h' new after') :
    Strung k h' v (before ++ (link, p) :: after') := by
  induction before generalizing v with
  | nil =>
      cases hs with
      | cons hne htype hvalue _ _ =>
          refine .cons hne ((hstored.types _).trans htype) ?_ hstored.self hnew
          exact (hstored.other _ _ _ (.inr (by decide))).mpr hvalue
  | cons head before ih =>
      cases hs with
      | cons hne htype hvalue hnext hrest =>
          have hother : v ≠ link := hfirst _ _ List.mem_cons_self
          refine .cons hne ((hstored.types _).trans htype)
            ((hstored.other _ _ _ (.inl hother)).mpr hvalue)
            ((hstored.other _ _ _ (.inl hother)).mpr hnext) (ih hrest ?_)
          exact fun link' p' hmem => hfirst link' p' (List.mem_cons_of_mem _ hmem)

end Strung

/-! ## Queues and their owners -/

/-- An owner has one queue. -/
theorem Queue.Belongs.eq (hf : Furnished k h) {q q' : Queue} (hq : q.Belongs k h)
    (hq' : q'.Belongs k h) (howner : q.owner = q'.owner) : q = q' := by
  rcases hq with hq | ⟨hq, htype⟩
  · rcases hq' with hq' | ⟨-, htype'⟩
    · rw [hq, hq']
    · rw [← howner, hq] at htype'
      exact absurd (.inl htype') hf.processor_plain
  · rcases hq' with hq' | ⟨hq', -⟩
    · rw [howner, hq'] at htype
      exact absurd (.inl htype) hf.processor_plain
    · rw [hq, hq', howner]

/-- No owner is a link. -/
theorem Queue.Belongs.not_link (hf : Furnished k h) {q : Queue} (hq : q.Belongs k h) :
    h.typeOf q.owner ≠ .ok (k .link) := by
  intro hlink
  rcases hq with hq | ⟨-, htype⟩
  · rw [hq] at hlink
    exact hf.processor_plain (.inr hlink)
  · exact hf.link_ne (Except.ok.inj (hlink.symm.trans htype))

theorem Queue.Belongs.first_ne_last {q : Queue} (hq : q.Belongs k h) : q.first ≠ q.last := by
  rcases hq with hq | ⟨hq, -⟩
  · rw [hq]
    exact (by decide : Slot.firstReady ≠ Slot.lastReady)
  · rw [hq]
    exact (by decide : Slot.firstWaiting ≠ Slot.lastWaiting)

/-- An owner with a field for the last link has one for the first. -/
theorem Queue.Belongs.exists_first {q : Queue} (hq : q.Belongs k h) {l : Value}
    (hlast : h.fetchField q.owner q.last = .ok l) : ∃ v, h.fetchField q.owner q.first = .ok v := by
  obtain ⟨n, hn⟩ := Heap.exists_count_of_fetchField hlast
  have hbound := Heap.lt_of_fetchField hn hlast
  have hle : q.first ≤ q.last := by
    rcases hq with hq | ⟨hq, -⟩
    · rw [hq]
      exact (by decide : Slot.firstReady ≤ Slot.lastReady)
    · rw [hq]
      exact (by decide : Slot.firstWaiting ≤ Slot.lastWaiting)
  exact Heap.exists_fetchField hn (Nat.lt_of_le_of_lt hle hbound)

theorem Queue.Belongs.slots {q : Queue} (hq : q.Belongs k h) :
    QueueSlot k h q.owner q.first ∧ QueueSlot k h q.owner q.last := by
  rcases hq with hq | ⟨hq, htype⟩
  · rw [hq]
    exact ⟨.inr ⟨rfl, (by decide : Slot.firstReady ≠ Slot.interruptTable)⟩,
      .inr ⟨rfl, (by decide : Slot.lastReady ≠ Slot.interruptTable)⟩⟩
  · rw [hq]
    exact ⟨.inl ⟨.inl htype, (by decide : Slot.firstWaiting < Slot.semaphoreSize)⟩,
      .inl ⟨.inl htype, (by decide : Slot.lastWaiting < Slot.semaphoreSize)⟩⟩

theorem Queue.belongs_congr (htypes : ∀ u, h'.typeOf u = h.typeOf u) {q : Queue} :
    q.Belongs k h' ↔ q.Belongs k h := by
  unfold Queue.Belongs
  rw [htypes]

/-! ## Reading the lines -/

namespace Arranged

/-- What is in a line is in the chain of its owner. -/
theorem exists_queue (ha : Arranged k h lines) {o link p : Value} (hmem : (link, p) ∈ lines o) :
    ∃ (q : Queue) (v : Value), q.Belongs k h ∧ q.owner = o ∧ h.fetchField o q.first = .ok v ∧
      Strung k h v (lines o) := by
  by_contra hnone
  have hempty : lines o = [] := by
    refine ha.outside o ?_
    rintro q v hq rfl hfirst
    exact hnone ⟨q, v, hq, rfl, hfirst, ha.strung q v hq hfirst⟩
  rw [hempty] at hmem
  cases hmem

theorem mem (ha : Arranged k h lines) {o link p : Value} (hmem : (link, p) ∈ lines o) :
    link ≠ k .nil ∧ h.typeOf link = .ok (k .link) ∧ h.fetchField link Slot.linkValue = .ok p := by
  obtain ⟨q, v, -, -, -, hs⟩ := ha.exists_queue hmem
  exact hs.mem hmem

/-- The lines can be read off the heap. -/
theorem unique (ha : Arranged k h lines) (ha' : Arranged k h lines') : lines = lines' := by
  funext o
  by_cases hfirst : ∃ (q : Queue) (v : Value), q.Belongs k h ∧ q.owner = o ∧
      h.fetchField o q.first = .ok v
  · obtain ⟨q, v, hq, rfl, hv⟩ := hfirst
    exact (ha.strung q v hq hv).unique (ha'.strung q v hq hv)
  · have hnone : ∀ (q : Queue) v, q.Belongs k h → q.owner = o → h.fetchField o q.first ≠ .ok v :=
      fun q v hq howner hv => hfirst ⟨q, v, hq, howner, hv⟩
    rw [ha.outside o hnone, ha'.outside o hnone]

/-- A link is in one line only, and holds one process. -/
theorem link_unique (ha : Arranged k h lines) {o o' link p p' : Value} (hmem : (link, p) ∈ lines o)
    (hmem' : (link, p') ∈ lines o') : o = o' ∧ p = p' := by
  have hvalue := (ha.mem hmem).2.2
  rw [(ha.mem hmem').2.2] at hvalue
  cases hvalue
  exact ⟨ha.apart o o' p ⟨link, hmem⟩ ⟨link, hmem'⟩, rfl⟩

/-- No link comes twice in a line. -/
theorem link_before (ha : Arranged k h lines) {o link p : Value} {before after : Line}
    (hline : lines o = before ++ (link, p) :: after) :
    (∀ link' p', (link', p') ∈ before → link' ≠ link) ∧
      ∀ link' p', (link', p') ∈ after → link' ≠ link := by
  have hnodup := ha.nodup o
  rw [hline, List.map_append, List.map_cons] at hnodup
  have hself : (link, p) ∈ lines o := by
    rw [hline]
    simp
  have hsame : ∀ p', (link, p') ∈ lines o → p' = p := fun p' hmem => (ha.link_unique hmem hself).2
  obtain ⟨-, htail, hdisjoint⟩ := List.nodup_append.mp hnodup
  constructor
  · rintro link' p' hmem rfl
    obtain rfl := hsame p' (by rw [hline]; exact List.mem_append_left _ hmem)
    exact hdisjoint _ (List.mem_map_of_mem hmem) _ (List.mem_cons_self ..) rfl
  · rintro link' p' hmem rfl
    obtain rfl := hsame p' (by rw [hline]; simp [hmem])
    exact (List.nodup_cons.mp htail).1 (List.mem_map_of_mem hmem)

end Arranged

theorem queued_mono {p o : Value} (hsub : ∀ e ∈ lines' o, e ∈ lines o)
    (hqueued : Queued lines' p o) : Queued lines p o := by
  obtain ⟨link, hmem⟩ := hqueued
  exact ⟨link, hsub _ hmem⟩

/-! ## One store at a time -/

namespace Arranged

/-- A store into a field that no line is read from. -/
theorem irrelevant (ha : Arranged k h lines) {v new : Value} {i : Nat}
    (hstored : Heap.Stored h v i new h')
    (hlines : ∀ o p, (v, p) ∉ lines o)
    (howner : ∀ q : Queue, q.Belongs k h → q.owner = v → i ≠ q.first ∧ i ≠ q.last)
    (hlast : ∀ q : Queue, q.Belongs k h → h.fetchField q.owner q.last = .ok v →
      i ≠ Slot.linkNext) :
    Arranged k h' lines := by
  have hbelongs : ∀ {q : Queue}, q.Belongs k h' ↔ q.Belongs k h := Queue.belongs_congr hstored.types
  have hfirst : ∀ {q : Queue} {x}, q.Belongs k h →
      (h'.fetchField q.owner q.first = .ok x ↔ h.fetchField q.owner q.first = .ok x) := by
    intro q x hq
    refine hstored.other _ _ _ ?_
    by_cases heq : q.owner = v
    · exact .inr (Ne.symm (howner q hq heq).1)
    · exact .inl heq
  have hlastField : ∀ {q : Queue} {x}, q.Belongs k h →
      (h'.fetchField q.owner q.last = .ok x ↔ h.fetchField q.owner q.last = .ok x) := by
    intro q x hq
    refine hstored.other _ _ _ ?_
    by_cases heq : q.owner = v
    · exact .inr (Ne.symm (howner q hq heq).2)
    · exact .inl heq
  constructor
  case strung =>
    intro q x hq hx
    refine (ha.strung q x (hbelongs.mp hq) ((hfirst (hbelongs.mp hq)).mp hx)).congr ?_ ?_
    · exact fun link _ _ => hstored.types link
    · intro link p j y hmem hy
      refine (hstored.other _ _ _ (.inl ?_)).mpr hy
      rintro rfl
      exact hlines _ p hmem
  case outside =>
    intro o hnone
    refine ha.outside o ?_
    rintro q x hq rfl hx
    exact hnone q x (hbelongs.mpr hq) rfl ((hfirst hq).mpr hx)
  case nodup => exact ha.nodup
  case apart => exact ha.apart
  case process =>
    intro o p hp
    rw [hstored.types]
    exact ha.process o p hp
  case last_link =>
    intro q l hq hl hne
    have hq := hbelongs.mp hq
    have hl := (hlastField hq).mp hl
    obtain ⟨htype, hnext⟩ := ha.last_link q l hq hl hne
    refine ⟨(hstored.types l).trans htype, (hstored.other _ _ _ ?_).mpr hnext⟩
    by_cases heq : l = v
    · subst heq
      exact .inr (Ne.symm (hlast q hq hl))
    · exact .inl heq
  case last_own =>
    intro q l o p hq hl
    exact ha.last_own q l o p (hbelongs.mp hq) ((hlastField (hbelongs.mp hq)).mp hl)
  case last_apart =>
    intro q q' l hq hq' hl hl'
    exact ha.last_apart q q' l (hbelongs.mp hq) (hbelongs.mp hq')
      ((hlastField (hbelongs.mp hq)).mp hl) ((hlastField (hbelongs.mp hq')).mp hl')

/-- The conditions for giving an owner a new line. -/
structure Fits (k : Landmarks) (h : Heap) (lines : Value → Line) (owner : Value) (line : Line) :
    Prop where
  nodup : (line.map Prod.snd).Nodup
  apart : ∀ e ∈ line, ∀ o, Queued lines e.2 o → o = owner
  process : ∀ e ∈ line, h.typeOf e.2 = .ok (k .process)
  last : ∀ e ∈ line, ∀ q : Queue, q.Belongs k h → h.fetchField q.owner q.last = .ok e.1 →
    q.owner = owner

/-- Part of the line that an owner has fits. -/
theorem fits_sublist (ha : Arranged k h lines) {o : Value} {line : Line}
    (hsub : line.Sublist (lines o)) : Fits k h lines o line where
  nodup := (hsub.map Prod.snd).nodup (ha.nodup o)
  apart e he o' hqueued := ha.apart o' o e.2 hqueued ⟨e.1, hsub.subset he⟩
  process e he := ha.process o e.2 ⟨e.1, hsub.subset he⟩
  last e he q hq hlast := (ha.last_own q e.1 o e.2 hq hlast (hsub.subset he)).symm

/-- One more process, with a link that is the last of no other queue, fits. -/
theorem Fits.insert {o link p : Value} {line line' : Line} (hfits : Fits k h lines o line)
    (hline : line'.Perm ((link, p) :: line)) (hprocess : h.typeOf p = .ok (k .process))
    (hnew : ∀ e ∈ line, e.2 ≠ p) (hunqueued : ∀ o, ¬Queued lines p o)
    (hlast : ∀ q : Queue, q.Belongs k h → h.fetchField q.owner q.last = .ok link → q.owner = o) :
    Fits k h lines o line' where
  nodup := by
    rw [(hline.map Prod.snd).nodup_iff, List.map_cons, List.nodup_cons]
    refine ⟨?_, hfits.nodup⟩
    intro hmem
    obtain ⟨e, he, heq⟩ := List.mem_map.mp hmem
    exact hnew e he heq
  apart e he o' hqueued := by
    rcases List.mem_cons.mp (hline.mem_iff.mp he) with rfl | he
    · exact absurd hqueued (hunqueued o')
    · exact hfits.apart e he o' hqueued
  process e he := by
    rcases List.mem_cons.mp (hline.mem_iff.mp he) with rfl | he
    · exact hprocess
    · exact hfits.process e he
  last e he q hq hlast' := by
    rcases List.mem_cons.mp (hline.mem_iff.mp he) with rfl | he
    · exact hlast q hq hlast'
    · exact hfits.last e he q hq hlast'

/-- A store after which the chain of one owner is another, and all else is as before. -/
theorem relined (ha : Arranged k h lines) (hf : Furnished k h) {q : Queue} (hq : q.Belongs k h)
    {v new x : Value} {i : Nat} {line : Line} (hstored : Heap.Stored h v i new h')
    (hother : ∀ (q' : Queue) y, q'.Belongs k h → q'.owner ≠ q.owner →
      h.fetchField q'.owner q'.first = .ok y →
      h'.fetchField q'.owner q'.first = .ok y ∧ Strung k h' y (lines q'.owner))
    (hfirst : h'.fetchField q.owner q.first = .ok x) (hstrung : Strung k h' x line)
    (hfits : Fits k h lines q.owner line)
    (hlast : ∀ (q' : Queue) l, q'.Belongs k h →
      (h'.fetchField q'.owner q'.last = .ok l ↔ h.fetchField q'.owner q'.last = .ok l))
    (hnext : ∀ (q' : Queue), q'.Belongs k h → h.fetchField q'.owner q'.last = .ok v →
      i = Slot.linkNext → new = k .nil) :
    Arranged k h' (Function.update lines q.owner line) := by
  have hbelongs : ∀ {q : Queue}, q.Belongs k h' ↔ q.Belongs k h := Queue.belongs_congr hstored.types
  have hqueued : ∀ {p o}, Queued (Function.update lines q.owner line) p o →
      o = q.owner ∧ (∃ e ∈ line, e.2 = p) ∨ o ≠ q.owner ∧ Queued lines p o := by
    rintro p o ⟨link, hmem⟩
    by_cases ho : o = q.owner
    · subst ho
      rw [Function.update_self] at hmem
      exact .inl ⟨rfl, _, hmem, rfl⟩
    · rw [Function.update_of_ne ho] at hmem
      exact .inr ⟨ho, link, hmem⟩
  constructor
  case strung =>
    intro q' y hq' hy
    have hq' := hbelongs.mp hq'
    by_cases ho : q'.owner = q.owner
    · obtain rfl := hq'.eq hf hq ho
      rw [hfirst] at hy
      cases hy
      rw [Function.update_self]
      exact hstrung
    · rw [Function.update_of_ne ho]
      by_cases hold : ∃ z, h.fetchField q'.owner q'.first = .ok z
      · obtain ⟨z, hz⟩ := hold
        obtain ⟨hsame, hs⟩ := hother q' z hq' ho hz
        rw [hsame] at hy
        cases hy
        exact hs
      · -- stores make no fields
        refine absurd ?_ hold
        by_cases hself : q'.owner = v ∧ q'.first = i
        · rw [hself.1, hself.2]
          exact hstored.before
        · refine ⟨y, (hstored.other _ _ _ ?_).mp hy⟩
          by_cases hv : q'.owner = v
          · exact .inr fun hi => hself ⟨hv, hi⟩
          · exact .inl hv
  case outside =>
    intro o hnone
    have ho : o ≠ q.owner := by
      rintro rfl
      exact hnone q x (hbelongs.mpr hq) rfl hfirst
    rw [Function.update_of_ne ho]
    refine ha.outside o ?_
    rintro q' y hq' rfl hy
    exact hnone q' y (hbelongs.mpr hq') rfl (hother q' y hq' ho hy).1
  case nodup =>
    intro o
    by_cases ho : o = q.owner
    · subst ho
      rw [Function.update_self]
      exact hfits.nodup
    · rw [Function.update_of_ne ho]
      exact ha.nodup o
  case apart =>
    intro o o' p hp hp'
    rcases hqueued hp with ⟨rfl, e, he, rfl⟩ | ⟨ho, hp⟩
    · rcases hqueued hp' with ⟨rfl, -⟩ | ⟨-, hp'⟩
      · rfl
      · exact (hfits.apart e he o' hp').symm
    · rcases hqueued hp' with ⟨rfl, e, he, rfl⟩ | ⟨-, hp'⟩
      · exact hfits.apart e he o hp
      · exact ha.apart o o' p hp hp'
  case process =>
    intro o p hp
    rw [hstored.types]
    rcases hqueued hp with ⟨-, e, he, rfl⟩ | ⟨-, hp⟩
    · exact hfits.process e he
    · exact ha.process o p hp
  case last_link =>
    intro q' l hq' hl hne
    have hq' := hbelongs.mp hq'
    have hl := (hlast q' l hq').mp hl
    obtain ⟨htype, hnil⟩ := ha.last_link q' l hq' hl hne
    refine ⟨(hstored.types l).trans htype, ?_⟩
    by_cases hself : l = v ∧ i = Slot.linkNext
    · obtain ⟨rfl, rfl⟩ := hself
      rw [hstored.self, hnext q' hq' hl rfl]
    · refine (hstored.other _ _ _ ?_).mpr hnil
      by_cases hv : l = v
      · exact .inr fun hi => hself ⟨hv, hi.symm⟩
      · exact .inl hv
  case last_own =>
    intro q' l o p hq' hl hmem
    have hq' := hbelongs.mp hq'
    have hl := (hlast q' l hq').mp hl
    by_cases ho : o = q.owner
    · subst ho
      rw [Function.update_self] at hmem
      exact (hfits.last _ hmem q' hq' hl).symm
    · rw [Function.update_of_ne ho] at hmem
      exact ha.last_own q' l o p hq' hl hmem
  case last_apart =>
    intro q' q'' l hq' hq'' hl hl'
    exact ha.last_apart q' q'' l (hbelongs.mp hq') (hbelongs.mp hq'')
      ((hlast q' l (hbelongs.mp hq')).mp hl) ((hlast q'' l (hbelongs.mp hq'')).mp hl')

/-- Giving a queue another first link. -/
theorem set_first (ha : Arranged k h lines) (hf : Furnished k h) {q : Queue} (hq : q.Belongs k h)
    {new : Value} {line : Line} (hstored : Heap.Stored h q.owner q.first new h')
    (hstrung : Strung k h new line) (hfits : Fits k h lines q.owner line) :
    Arranged k h' (Function.update lines q.owner line) := by
  have hlinks : ∀ {y line}, Strung k h y line → Strung k h' y line := by
    intro y line hs
    refine hs.congr (fun link _ _ => hstored.types link) ?_
    intro link p j z hmem hz
    refine (hstored.other _ _ _ (.inl ?_)).mpr hz
    rintro rfl
    exact hq.not_link hf (hs.mem hmem).2.1
  refine ha.relined hf hq hstored ?_ hstored.self (hlinks hstrung) hfits ?_ ?_
  · intro q' y hq' ho hy
    exact ⟨(hstored.other _ _ _ (.inl ho)).mpr hy, hlinks (ha.strung q' y hq' hy)⟩
  · intro q' l hq'
    refine hstored.other _ _ _ ?_
    by_cases ho : q'.owner = q.owner
    · obtain rfl := hq'.eq hf hq ho
      exact .inr (Ne.symm hq.first_ne_last)
    · exact .inl ho
  · intro q' hq' hlast
    by_cases hnil : q.owner = k .nil
    · obtain ⟨old, hold⟩ := hstored.before
      rw [hnil] at hold
      exact absurd hold (hf.nil_fetchField _ _)
    · exact absurd (ha.last_link q' _ hq' hlast hnil).1 (hq.not_link hf)

/-- Giving a link of a queue another next link. -/
theorem set_next (ha : Arranged k h lines) (hf : Furnished k h) {q : Queue} (hq : q.Belongs k h)
    {link p new : Value} {before after after' : Line}
    (hline : lines q.owner = before ++ (link, p) :: after)
    (hstored : Heap.Stored h link Slot.linkNext new h') (hstrung : Strung k h new after')
    (hafter : ∀ e ∈ after', e.1 ≠ link)
    (hfits : Fits k h lines q.owner (before ++ (link, p) :: after'))
    (hlast : ∀ q' : Queue, q'.Belongs k h → h.fetchField q'.owner q'.last = .ok link →
      new = k .nil) :
    Arranged k h' (Function.update lines q.owner (before ++ (link, p) :: after')) := by
  have hself : (link, p) ∈ lines q.owner := by
    rw [hline]
    simp
  have howner : ∀ {q' : Queue}, q'.Belongs k h → q'.owner ≠ link := by
    rintro q' hq' rfl
    exact hq'.not_link hf (ha.mem hself).2.1
  obtain ⟨q₁, x, hq₁, ho, hx, hs⟩ := ha.exists_queue hself
  obtain rfl := hq₁.eq hf hq ho
  refine ha.relined hf hq hstored ?_ ((hstored.other _ _ _ (.inl (howner hq))).mpr hx) ?_ hfits
    (fun q' l hq' => hstored.other _ _ _ (.inl (howner hq'))) fun q' hq' hl _ => hlast q' hq' hl
  · intro q' y hq' ho hy
    refine ⟨(hstored.other _ _ _ (.inl (howner hq'))).mpr hy, ?_⟩
    refine (ha.strung q' y hq' hy).congr (fun l _ _ => hstored.types l) ?_
    intro l p' j z hmem hz
    refine (hstored.other _ _ _ (.inl ?_)).mpr hz
    rintro rfl
    exact ho (ha.link_unique hmem hself).1
  · rw [hline] at hs
    refine hs.replace (ha.link_before hline).1 hstored ?_
    refine hstrung.congr (fun l _ _ => hstored.types l) ?_
    intro l p' j z hmem hz
    exact (hstored.other _ _ _ (.inl (hafter _ hmem))).mpr hz

/-- Giving a queue another last link, one that leads nowhere and that no other queue has. -/
theorem set_last (ha : Arranged k h lines) (hf : Furnished k h) {q : Queue} (hq : q.Belongs k h)
    {new : Value} (hstored : Heap.Stored h q.owner q.last new h')
    (hlink : new ≠ k .nil → h.typeOf new = .ok (k .link) ∧
      h.fetchField new Slot.linkNext = .ok (k .nil))
    (hown : ∀ o p, (new, p) ∈ lines o → o = q.owner)
    (hapart : ∀ q' : Queue, q'.Belongs k h → h.fetchField q'.owner q'.last = .ok new →
      new ≠ k .nil → q'.owner = q.owner) : Arranged k h' lines := by
  have hbelongs : ∀ {q : Queue}, q.Belongs k h' ↔ q.Belongs k h := Queue.belongs_congr hstored.types
  have hlinks : ∀ {u}, h.typeOf u = .ok (k .link) → u ≠ q.owner := by
    rintro u hu rfl
    exact hq.not_link hf hu
  have hfirst : ∀ {q' : Queue} {x}, q'.Belongs k h →
      (h'.fetchField q'.owner q'.first = .ok x ↔ h.fetchField q'.owner q'.first = .ok x) := by
    intro q' x hq'
    refine hstored.other _ _ _ ?_
    by_cases ho : q'.owner = q.owner
    · obtain rfl := hq'.eq hf hq ho
      exact .inr hq.first_ne_last
    · exact .inl ho
  -- the last link of a queue, before and after
  have hlastField : ∀ {q' : Queue} {l}, q'.Belongs k h → h'.fetchField q'.owner q'.last = .ok l →
      q' = q ∧ l = new ∨ q'.owner ≠ q.owner ∧ h.fetchField q'.owner q'.last = .ok l := by
    intro q' l hq' hl
    by_cases ho : q'.owner = q.owner
    · obtain rfl := hq'.eq hf hq ho
      rw [hstored.self] at hl
      cases hl
      exact .inl ⟨rfl, rfl⟩
    · exact .inr ⟨ho, (hstored.other _ _ _ (.inl ho)).mp hl⟩
  have hnextField : ∀ {u}, h.typeOf u = .ok (k .link) → ∀ {x},
      h.fetchField u Slot.linkNext = .ok x → h'.fetchField u Slot.linkNext = .ok x := by
    intro u hu x hx
    exact (hstored.other _ _ _ (.inl (hlinks hu))).mpr hx
  constructor
  case strung =>
    intro q' x hq' hx
    have hq' := hbelongs.mp hq'
    have hs := ha.strung q' x hq' ((hfirst hq').mp hx)
    refine hs.congr (fun link _ _ => hstored.types link) ?_
    intro link p j y hmem hy
    exact (hstored.other _ _ _ (.inl (hlinks (hs.mem hmem).2.1))).mpr hy
  case outside =>
    intro o hnone
    refine ha.outside o ?_
    rintro q' x hq' rfl hx
    exact hnone q' x (hbelongs.mpr hq') rfl ((hfirst hq').mpr hx)
  case nodup => exact ha.nodup
  case apart => exact ha.apart
  case process =>
    intro o p hp
    rw [hstored.types]
    exact ha.process o p hp
  case last_link =>
    intro q' l hq' hl hne
    rw [hstored.types]
    rcases hlastField (hbelongs.mp hq') hl with ⟨rfl, rfl⟩ | ⟨-, hl⟩
    · exact ⟨(hlink hne).1, hnextField (hlink hne).1 (hlink hne).2⟩
    · obtain ⟨htype, hnil⟩ := ha.last_link q' l (hbelongs.mp hq') hl hne
      exact ⟨htype, hnextField htype hnil⟩
  case last_own =>
    intro q' l o p hq' hl hmem
    rcases hlastField (hbelongs.mp hq') hl with ⟨rfl, rfl⟩ | ⟨-, hl⟩
    · exact hown o p hmem
    · exact ha.last_own q' l o p (hbelongs.mp hq') hl hmem
  case last_apart =>
    intro q' q'' l hq' hq'' hl hl' hne
    rcases hlastField (hbelongs.mp hq') hl with ⟨rfl, rfl⟩ | ⟨ho, hl⟩
    · rcases hlastField (hbelongs.mp hq'') hl' with ⟨rfl, -⟩ | ⟨-, hl'⟩
      · rfl
      · exact hapart q'' (hbelongs.mp hq'') hl' hne
    · rcases hlastField (hbelongs.mp hq'') hl' with ⟨rfl, rfl⟩ | ⟨-, hl'⟩
      · exact (hapart q' (hbelongs.mp hq') hl hne).symm
      · exact ha.last_apart q' q'' l (hbelongs.mp hq') (hbelongs.mp hq'') hl hl' hne

end Arranged

/-- Giving a queue the link of its own line that leads nowhere as its last. -/
theorem Arranged.set_last_mem (ha : Arranged k h lines) (hf : Furnished k h) {q : Queue}
    (hq : q.Belongs k h) {new p : Value} (hstored : Heap.Stored h q.owner q.last new h')
    (hmem : (new, p) ∈ lines q.owner) (hnext : h.fetchField new Slot.linkNext = .ok (k .nil)) :
    Arranged k h' lines :=
  ha.set_last hf hq hstored (fun _ => ⟨(ha.mem hmem).2.1, hnext⟩)
    (fun _ _ hmem' => (ha.link_unique hmem' hmem).1)
    fun q' hq' hlast _ => (ha.last_own q' new q.owner p hq' hlast hmem).symm

/-- Leaving a queue without a last link. -/
theorem Arranged.set_last_nil (ha : Arranged k h lines) (hf : Furnished k h) {q : Queue}
    (hq : q.Belongs k h) (hstored : Heap.Stored h q.owner q.last (k .nil) h') :
    Arranged k h' lines :=
  ha.set_last hf hq hstored (fun hne => absurd rfl hne)
    (fun _ _ hmem => absurd rfl (ha.mem hmem).1) fun _ _ _ hne => absurd rfl hne

/-! ## A new link -/

/-- A new link that no queue knows yet. -/
structure Heap.Linked (k : Landmarks) (h : Heap) (link process next : Value) (h' : Heap) :
    Prop where
  stale : ∀ t, h.typeOf link ≠ .ok t
  type_eq : h'.typeOf link = .ok (k .link)
  types : ∀ u t, h.typeOf u = .ok t → h'.typeOf u = .ok t
  types_new : ∀ u t, h'.typeOf u = .ok t → h.typeOf u = .ok t ∨ t = k .link
  process_eq : h'.fetchField link Slot.linkValue = .ok process
  next_eq : h'.fetchField link Slot.linkNext = .ok next
  other : ∀ u i x, u ≠ link → (h'.fetchField u i = .ok x ↔ h.fetchField u i = .ok x)

namespace Heap.Linked

variable {link process next : Value} (hl : Heap.Linked k h link process next h')
include hl

theorem ne {u : Value} (hexists : ∃ t, h.typeOf u = .ok t) : u ≠ link := by
  rintro rfl
  obtain ⟨t, ht⟩ := hexists
  exact hl.stale t ht

theorem belongs_iff (hf : Furnished k h) {q : Queue} : q.Belongs k h' ↔ q.Belongs k h := by
  unfold Queue.Belongs
  refine or_congr_right (and_congr_right fun _ => ⟨?_, hl.types _ _⟩)
  intro htype
  rcases hl.types_new _ _ htype with hold | heq
  · exact hold
  · exact absurd heq.symm hf.link_ne

theorem fetchField_owner (hf : Furnished k h) {q : Queue} (hq : q.Belongs k h) {i : Nat}
    {x : Value} : h'.fetchField q.owner i = .ok x ↔ h.fetchField q.owner i = .ok x := by
  refine hl.other _ _ _ (hl.ne ?_)
  rcases hq with hq | ⟨-, htype⟩
  · rw [hq]
    exact Heap.exists_typeOf_of_count hf.processor_size
  · exact ⟨_, htype⟩

/-- A new link leaves the lines as they are. -/
theorem arranged (hf : Furnished k h) (ha : Arranged k h lines) : Arranged k h' lines := by
  have hlinks : ∀ {u}, h.typeOf u = .ok (k .link) → ∀ {i x}, h.fetchField u i = .ok x →
      h'.fetchField u i = .ok x :=
    fun hu _ _ hx => (hl.other _ _ _ (hl.ne ⟨_, hu⟩)).mpr hx
  constructor
  case strung =>
    intro q v hq hv
    have hq := (hl.belongs_iff hf).mp hq
    have hs := ha.strung q v hq ((hl.fetchField_owner hf hq).mp hv)
    refine hs.congr ?_ fun link' p i x hmem hx => hlinks (hs.mem hmem).2.1 hx
    intro link' p hmem
    rw [hl.types _ _ (hs.mem hmem).2.1, (hs.mem hmem).2.1]
  case outside =>
    intro o hnone
    refine ha.outside o ?_
    rintro q v hq rfl hv
    exact hnone q v ((hl.belongs_iff hf).mpr hq) rfl ((hl.fetchField_owner hf hq).mpr hv)
  case nodup => exact ha.nodup
  case apart => exact ha.apart
  case process => exact fun o p hp => hl.types _ _ (ha.process o p hp)
  case last_link =>
    intro q l hq hlast hne
    have hq := (hl.belongs_iff hf).mp hq
    obtain ⟨htype, hnext⟩ := ha.last_link q l hq ((hl.fetchField_owner hf hq).mp hlast) hne
    exact ⟨hl.types _ _ htype, hlinks htype hnext⟩
  case last_own =>
    intro q l o p hq hlast
    have hq := (hl.belongs_iff hf).mp hq
    exact ha.last_own q l o p hq ((hl.fetchField_owner hf hq).mp hlast)
  case last_apart =>
    intro q q' l hq hq' hlast hlast'
    have hq := (hl.belongs_iff hf).mp hq
    have hq' := (hl.belongs_iff hf).mp hq'
    exact ha.last_apart q q' l hq hq' ((hl.fetchField_owner hf hq).mp hlast)
      ((hl.fetchField_owner hf hq').mp hlast')

end Heap.Linked

/-- A link that is in no line and the last of no queue. -/
structure Loose (k : Landmarks) (h : Heap) (lines : Value → Line) (link process next : Value) :
    Prop where
  ne_nil : link ≠ k .nil
  type_eq : h.typeOf link = .ok (k .link)
  process_eq : h.fetchField link Slot.linkValue = .ok process
  next_eq : h.fetchField link Slot.linkNext = .ok next
  notMem : ∀ o p, (link, p) ∉ lines o
  ne_last : ∀ (q : Queue), q.Belongs k h → h.fetchField q.owner q.last ≠ .ok link

theorem Heap.Linked.loose {link process next : Value}
    (hl : Heap.Linked k h link process next h') (hf : Furnished k h) (ha : Arranged k h lines) :
    Loose k h' lines link process next where
  ne_nil := (hl.ne (Heap.exists_typeOf_of_count hf.nil_empty)).symm
  type_eq := hl.type_eq
  process_eq := hl.process_eq
  next_eq := hl.next_eq
  notMem o p hmem := hl.stale _ (ha.mem hmem).2.1
  ne_last q hq hlast := by
    have hq := (hl.belongs_iff hf).mp hq
    have hlast := (hl.fetchField_owner hf hq).mp hlast
    have hnil := hl.ne (Heap.exists_typeOf_of_count hf.nil_empty)
    exact hl.stale _ (ha.last_link q link hq hlast hnil.symm).1

/-- A loose link may be put in a line with part of it. -/
theorem Loose.fits {link p next : Value} (hloose : Loose k h lines link p next)
    (ha : Arranged k h lines) (hp : h.typeOf p = .ok (k .process)) (hnew : ∀ o, ¬Queued lines p o)
    {o : Value} {line line' : Line} (hsub : line.Sublist (lines o))
    (hline : line'.Perm ((link, p) :: line)) : Arranged.Fits k h lines o line' := by
  refine (ha.fits_sublist hsub).insert hline hp ?_ hnew ?_
  · rintro e he rfl
    exact hnew o ⟨e.1, hsub.subset he⟩
  · exact fun q hq hlast => absurd hlast (hloose.ne_last q hq)

/-! ## Calm changes -/

/-- A queue belongs to the machine after a calm change if its owner is new or it did before. -/
theorem Queue.Belongs.of_calm (hcalm : Calm k h h') {q : Queue}
    (hq : q.Belongs k h') (hold : ∃ t, h.typeOf q.owner = .ok t) : q.Belongs k h := by
  rcases hq with hq | ⟨hq, htype⟩
  · exact .inl hq
  · obtain ⟨t, ht⟩ := hold
    refine .inr ⟨hq, ?_⟩
    rw [ht, ← htype, hcalm.types _ t ht]

/-- A field of an owner after a calm change is nil or was there before. -/
theorem Queue.Belongs.fetchField_of_calm (hf : Furnished k h) (hcalm : Calm k h h') {q : Queue}
    (hq : q.Belongs k h') {i : Nat} (hi : i < watched) {x : Value}
    (hfetch : h'.fetchField q.owner i = .ok x) (hx : x ≠ k .nil) :
    q.Belongs k h ∧ h.fetchField q.owner i = .ok x := by
  by_cases hold : ∃ t, h.typeOf q.owner = .ok t
  · have hq' := hq.of_calm hcalm hold
    have hshielded : Shielded k h q.owner := by
      refine ⟨?_, ?_⟩
      · intro hnil
        rw [hnil] at hfetch
        exact (hf.calm hcalm).nil_fetchField _ _ hfetch
      · rcases hq' with hq' | ⟨-, htype⟩
        · exact .inr (.inl (by rw [hq']))
        · exact .inl (.inl htype)
    rcases hcalm.fetchField_back hshielded hold hi hfetch with hsame | ⟨-, hnil⟩
    · exact ⟨hq', hsame⟩
    · exact absurd hnil hx
  · refine absurd (hcalm.fresh q.owner i x (fun t ht => hold ⟨t, ht⟩) ?_ hfetch) hx
    rcases hq with hq | ⟨-, htype⟩
    · rw [hq] at hold
      exact absurd (Heap.exists_typeOf_of_count hf.processor_size) hold
    · exact .inl htype

/-- A chain after a calm change may have been cut. -/
theorem Strung.calm (hcalm : Calm k h h') {v : Value} {line : Line} (hs : Strung k h v line) :
    ∃ line', line'.Sublist line ∧ Strung k h' v line' := by
  induction hs with
  | nil => exact ⟨[], .slnil, .nil⟩
  | @cons link process next rest hne htype hvalue hnext _ ih =>
      obtain ⟨rest', hsub, hs'⟩ := ih
      have hshielded : Shielded k h link := ⟨hne, .inl (.inr htype)⟩
      have hvalue' : h'.fetchField link Slot.linkValue = .ok process := by
        rcases hcalm.fields link _ _ hshielded (by decide) hvalue with hsame | ⟨hone, -⟩
        · exact hsame
        · cases hone
      rcases hcalm.fields link _ _ hshielded (by decide) hnext with hsame | ⟨-, hcut⟩
      · exact ⟨(link, process) :: rest', hsub.cons_cons _,
          .cons hne (hcalm.types _ _ htype) hvalue' hsame hs'⟩
      · exact ⟨[(link, process)], (List.nil_sublist _).cons_cons _,
          .cons hne (hcalm.types _ _ htype) hvalue' hcut .nil⟩

namespace Arranged

/-- The line of an owner after a calm change. -/
theorem exists_line (ha : Arranged k h lines) (hf : Furnished k h) (hcalm : Calm k h h')
    (o : Value) : ∃ line : Line, line.Sublist (lines o) ∧
      (∀ (q : Queue) v, q.Belongs k h' → q.owner = o → h'.fetchField o q.first = .ok v →
        Strung k h' v line) ∧
      ((∀ (q : Queue) v, q.Belongs k h' → q.owner = o → h'.fetchField o q.first ≠ .ok v) →
        line = []) := by
  by_cases hqueue : ∃ (q : Queue) (v : Value), q.Belongs k h' ∧ q.owner = o ∧
      h'.fetchField o q.first = .ok v
  · obtain ⟨q, v, hq, rfl, hv⟩ := hqueue
    have hsame : ∀ {q' : Queue} {v'}, q'.Belongs k h' → q'.owner = q.owner →
        h'.fetchField q.owner q'.first = .ok v' → v' = v := by
      intro q' v' hq' ho hv'
      obtain rfl := hq'.eq (hf.calm hcalm) hq ho
      rw [hv'] at hv
      exact Except.ok.inj hv
    have hnone : ∀ line : Line, (∀ (q' : Queue) v, q'.Belongs k h' → q'.owner = q.owner →
        h'.fetchField q.owner q'.first ≠ .ok v) → line = [] :=
      fun _ hnone => absurd hv (hnone q v hq rfl)
    by_cases hnil : v = k .nil
    · refine ⟨[], List.nil_sublist _, ?_, fun _ => rfl⟩
      intro q' v' hq' ho hv'
      rw [hsame hq' ho hv', hnil]
      exact .nil
    · have hi : q.first < watched := by
        rcases hq with hq | ⟨hq, -⟩
        · rw [hq]
          exact (by decide : Slot.firstReady < watched)
        · rw [hq]
          exact (by decide : Slot.firstWaiting < watched)
      obtain ⟨hq', hv'⟩ := hq.fetchField_of_calm hf hcalm hi hv hnil
      obtain ⟨line, hsub, hs⟩ := (ha.strung q v hq' hv').calm hcalm
      refine ⟨line, hsub, ?_, hnone line⟩
      intro q' v' hq' ho hv'
      rw [hsame hq' ho hv']
      exact hs
  · exact ⟨[], List.nil_sublist _, fun q v hq ho hv => absurd ⟨q, v, hq, ho, hv⟩ hqueue,
      fun _ => rfl⟩

theorem calm (ha : Arranged k h lines) (hf : Furnished k h) (hcalm : Calm k h h') :
    ∃ lines', Arranged k h' lines' ∧ ∀ o, (lines' o).Sublist (lines o) := by
  choose lines' hsub hstrung houtside using ha.exists_line hf hcalm
  have hqueued : ∀ {p o}, Queued lines' p o → Queued lines p o :=
    fun hp => queued_mono (fun _ he => (hsub _).subset he) hp
  -- the last links are those from before
  have hlast : ∀ {q : Queue} {l}, q.Belongs k h' → h'.fetchField q.owner q.last = .ok l →
      l ≠ k .nil → q.Belongs k h ∧ h.fetchField q.owner q.last = .ok l := by
    intro q l hq hl hne
    refine hq.fetchField_of_calm hf hcalm ?_ hl hne
    rcases hq with hq | ⟨hq, -⟩
    · rw [hq]
      exact (by decide : Slot.lastReady < watched)
    · rw [hq]
      exact (by decide : Slot.lastWaiting < watched)
  refine ⟨lines', ?_, hsub⟩
  constructor
  case strung => exact fun q v hq hv => hstrung q.owner q v hq rfl hv
  case outside => exact fun o hnone => houtside o hnone
  case nodup => exact fun o => ((hsub o).map Prod.snd).nodup (ha.nodup o)
  case apart => exact fun o o' p hp hp' => ha.apart o o' p (hqueued hp) (hqueued hp')
  case process => exact fun o p hp => hcalm.types _ _ (ha.process o p (hqueued hp))
  case last_link =>
    intro q l hq hl hne
    obtain ⟨hq', hl'⟩ := hlast hq hl hne
    obtain ⟨htype, hnext⟩ := ha.last_link q l hq' hl' hne
    refine ⟨hcalm.types _ _ htype, ?_⟩
    rcases hcalm.fields l _ _ ⟨hne, .inl (.inr htype)⟩ (by decide) hnext with hsame | ⟨-, hcut⟩
    · exact hsame
    · exact hcut
  case last_own =>
    intro q l o p hq hl hmem
    have hmem' := (hsub o).subset hmem
    obtain ⟨hq', hl'⟩ := hlast hq hl (ha.mem hmem').1
    exact ha.last_own q l o p hq' hl' hmem'
  case last_apart =>
    intro q q' l hq hq' hl hl' hne
    obtain ⟨hq, hl⟩ := hlast hq hl hne
    obtain ⟨hq', hl'⟩ := hlast hq' hl' hne
    exact ha.last_apart q q' l hq hq' hl hl' hne

end Arranged

end MessageMachine
