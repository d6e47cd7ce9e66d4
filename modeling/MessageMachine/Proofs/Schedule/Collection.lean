import MessageMachine.Proofs.Machine.Relocation
import MessageMachine.Proofs.Schedule.Housekeeping

/-!
# Collections and the order of processes

A collection keeps the processes in order: every object of the new heap is the image of a kept one,
and the new lines are the images of the old ones.  Of the processes that have ended, those that are
kept are remembered by their images (`survivors`); the others no longer exist.
-/

namespace MessageMachine

variable {m m' : Machine} {φ : Handle → Handle} {lines : Value → Line} {ended : Set Value}

open Heap (Kept kept_of_mem)

namespace Machine.Relocated

/-! ## What stays true of the objects of the scheduler -/

theorem known_ne (hr : Relocated φ m m') {k l : Landmark} (hne : m.known k ≠ m.known l) :
    m'.known k ≠ m'.known l := by
  rw [hr.known, hr.known]
  exact fun heq => hne (hr.heap.map_injective hr.settled' (kept_known m k) (kept_known m l) heq)

theorem eq_known_iff (hr : Relocated φ m m') {v : Value} (hv : Kept m.heap m.roots v)
    {l : Landmark} : v.map φ = m'.known l ↔ v = m.known l := by
  rw [hr.known]
  exact ⟨hr.heap.map_injective hr.settled' hv (kept_known m l), congrArg _⟩

theorem typeOf_known (hr : Relocated φ m m') {v : Value} (hv : Kept m.heap m.roots v)
    {l : Landmark} : m'.heap.typeOf (v.map φ) = .ok (m'.known l) ↔
      m.heap.typeOf v = .ok (m.known l) := by
  rw [hr.known]
  exact hr.heap.typeOf_iff hr.settled hr.settled' hv (kept_known m l)

theorem queueing_iff (hr : Relocated φ m m') {v : Value} (hv : Kept m.heap m.roots v) :
    Queueing m'.known m'.heap (v.map φ) ↔ Queueing m.known m.heap v :=
  or_congr (hr.typeOf_known hv) (hr.typeOf_known hv)

/-- A semaphore or link of the new heap is the image of one of the old heap. -/
theorem exists_queueing (hr : Relocated φ m m') {v' : Value}
    (hqueueing : Queueing m'.known m'.heap v') :
    ∃ v, Kept m.heap m.roots v ∧ v.map φ = v' ∧ Queueing m.known m.heap v := by
  obtain ⟨t, ht⟩ : ∃ t, m'.heap.typeOf v' = .ok t := hqueueing.elim (⟨_, ·⟩) (⟨_, ·⟩)
  obtain ⟨v, hv, rfl⟩ := hr.heap.exists_kept ht
  exact ⟨v, hv, rfl, (hr.queueing_iff hv).mp hqueueing⟩

theorem furnished (hr : Relocated φ m m') (hf : Furnished m.known m.heap) :
    Furnished m'.known m'.heap where
  settled := hr.settled'
  nil_empty := by
    rw [hr.known]
    exact hr.heap.fieldCount_map hr.settled' (kept_known m _) hf.nil_empty
  processor_size := by
    rw [hr.known]
    exact hr.heap.fieldCount_map hr.settled' (kept_known m _) hf.processor_size
  processor_plain := by
    rw [hr.known, hr.queueing_iff (kept_known m _)]
    exact hf.processor_plain
  processor_type := by
    rw [hr.known .processor]
    exact fun h => hf.processor_type ((hr.typeOf_known (kept_known m _)).mp h)
  nil_type := by
    rw [hr.known .nil]
    exact fun h => hf.nil_type ((hr.typeOf_known (kept_known m _)).mp h)
  link_ne := hr.known_ne hf.link_ne
  plain := fun l hl => ⟨hr.known_ne (hf.plain l hl).1, hr.known_ne (hf.plain l hl).2⟩
  blank := by
    intro v' i x' hqueueing hlow hi hfetch
    obtain ⟨v, hv, rfl, hold⟩ := hr.exists_queueing hqueueing
    obtain ⟨x, hx, rfl⟩ := hr.heap.fetchField_back hr.settled hr.settled' hv hfetch
    rw [hf.blank v i x hold hlow hi hx, hr.known]
  table := by
    intro t' ht' hnil
    rw [hr.known] at ht'
    obtain ⟨t, ht, rfl⟩ := hr.heap.fetchField_back hr.settled hr.settled' (kept_known m _) ht'
    have hkept := (kept_known m .processor).of_fetchField ht
    have hold : t ≠ m.known .nil := fun heq => hnil ((hr.eq_known_iff hkept).mpr heq)
    obtain ⟨hsize, hne, hplain, hprocess, hentries⟩ := hf.table t ht hold
    refine ⟨hr.heap.fieldCount_map hr.settled' hkept hsize, ?_, ?_, ?_, ?_⟩
    · exact fun heq => hne ((hr.eq_known_iff hkept).mp heq)
    · exact fun h => hplain ((hr.queueing_iff hkept).mp h)
    · exact fun h => hprocess ((hr.typeOf_known hkept).mp h)
    · intro i s' hs' hne'
      obtain ⟨s, hs, rfl⟩ := hr.heap.fetchField_back hr.settled hr.settled' hkept hs'
      have hkept' := hkept.of_fetchField hs
      rw [hr.typeOf_known hkept']
      exact hentries i s hs fun heq => hne' ((hr.eq_known_iff hkept').mpr heq)

/-! ## Lines -/

/-- The image of a line. -/
def lineMap (φ : Handle → Handle) (line : Line) : Line :=
  line.map fun e => (e.1.map φ, e.2.map φ)

theorem mem_lineMap {line : Line} {link' p' : Value} : (link', p') ∈ lineMap φ line ↔
    ∃ link p, (link, p) ∈ line ∧ link.map φ = link' ∧ p.map φ = p' := by
  simp [lineMap]

open Classical in
/-- The lines after a collection: an owner that has been kept has the image of its line. -/
noncomputable def linesMap (φ : Handle → Handle) (m : Machine) (lines : Value → Line) (o' : Value) :
    Line :=
  if h : ∃ o, Kept m.heap m.roots o ∧ o.map φ = o' then lineMap φ (lines h.choose) else []

theorem linesMap_of_kept (hr : Relocated φ m m') {o : Value} (ho : Kept m.heap m.roots o) :
    linesMap φ m lines (o.map φ) = lineMap φ (lines o) := by
  have hexists : ∃ o₀, Kept m.heap m.roots o₀ ∧ o₀.map φ = o.map φ := ⟨o, ho, rfl⟩
  rw [linesMap, dif_pos hexists,
    hr.heap.map_injective hr.settled' hexists.choose_spec.1 ho hexists.choose_spec.2]

/-- The links and processes of a kept chain are kept. -/
theorem kept_of_strung {v : Value} {line : Line} (hs : Strung m.known m.heap v line)
    (hv : Kept m.heap m.roots v) :
    ∀ link p, (link, p) ∈ line → Kept m.heap m.roots link ∧ Kept m.heap m.roots p := by
  induction hs with
  | nil => exact fun _ _ hmem => absurd hmem List.not_mem_nil
  | cons _ _ hvalue hnext _ ih =>
      intro link p hmem
      rcases List.mem_cons.mp hmem with heq | hrest
      · cases heq
        exact ⟨hv, hv.of_fetchField hvalue⟩
      · exact ih (hv.of_fetchField hnext) link p hrest

theorem strung (hr : Relocated φ m m') {v : Value} {line : Line}
    (hs : Strung m.known m.heap v line) (hv : Kept m.heap m.roots v) :
    Strung m'.known m'.heap (v.map φ) (lineMap φ line) := by
  induction hs with
  | nil =>
      rw [← hr.known]
      exact .nil
  | cons hne htype hvalue hnext _ ih =>
      refine .cons (fun heq => hne ((hr.eq_known_iff hv).mp heq)) ((hr.typeOf_known hv).mpr htype)
        (hr.heap.fetchField_map hr.settled' hv hvalue)
        (hr.heap.fetchField_map hr.settled' hv hnext) (ih (hv.of_fetchField hnext))

/-- A queue of the new heap is that of a kept owner. -/
theorem exists_belongs (hr : Relocated φ m m') {q' : Queue} (hq' : q'.Belongs m'.known m'.heap) :
    ∃ q : Queue, q.Belongs m.known m.heap ∧ Kept m.heap m.roots q.owner ∧
      q' = ⟨q.owner.map φ, q.first, q.last⟩ := by
  rcases hq' with rfl | ⟨heq, htype⟩
  · exact ⟨_, .inl rfl, kept_known m _, by rw [hr.known]⟩
  · obtain ⟨o, ho, howner⟩ := hr.heap.exists_kept htype
    rw [← howner] at htype heq
    exact ⟨Queue.waiting o, .inr ⟨rfl, (hr.typeOf_known ho).mp htype⟩, ho, heq⟩

theorem belongs (hr : Relocated φ m m') {q : Queue} (hq : q.Belongs m.known m.heap)
    (howner : Kept m.heap m.roots q.owner) :
    (⟨q.owner.map φ, q.first, q.last⟩ : Queue).Belongs m'.known m'.heap := by
  rcases hq with rfl | ⟨heq, htype⟩
  · refine .inl ?_
    rw [hr.known]
  · refine .inr ⟨?_, (hr.typeOf_known howner).mpr htype⟩
    rw [heq]
    rfl

/-- What is in a line after a collection was in one before. -/
theorem exists_queued (hr : Relocated φ m m') (ha : Arranged m.known m.heap lines)
    {link' p' o' : Value} (hmem : (link', p') ∈ linesMap φ m lines o') :
    ∃ link p o, (link, p) ∈ lines o ∧ Kept m.heap m.roots link ∧ Kept m.heap m.roots p ∧
      Kept m.heap m.roots o ∧ link.map φ = link' ∧ p.map φ = p' ∧ o.map φ = o' := by
  have hexists : ∃ o, Kept m.heap m.roots o ∧ o.map φ = o' := by
    by_contra hnone
    rw [linesMap, dif_neg hnone] at hmem
    cases hmem
  obtain ⟨o, ho, rfl⟩ := hexists
  rw [hr.linesMap_of_kept ho] at hmem
  obtain ⟨link, p, hold, rfl, rfl⟩ := mem_lineMap.mp hmem
  obtain ⟨q, v, -, -, hfirst, hs⟩ := ha.exists_queue hold
  obtain ⟨hlink, hp⟩ := kept_of_strung hs (ho.of_fetchField hfirst) link p hold
  exact ⟨link, p, o, hold, hlink, hp, ho, rfl, rfl, rfl⟩

theorem exists_queued_of_queued (hr : Relocated φ m m') (ha : Arranged m.known m.heap lines)
    {p' o' : Value} (hq : Queued (linesMap φ m lines) p' o') :
    ∃ p o, Queued lines p o ∧ Kept m.heap m.roots p ∧ Kept m.heap m.roots o ∧ p.map φ = p' ∧
      o.map φ = o' := by
  obtain ⟨link', hmem⟩ := hq
  obtain ⟨link, p, o, hold, -, hp, ho, -, rfl, rfl⟩ := hr.exists_queued ha hmem
  exact ⟨p, o, ⟨link, hold⟩, hp, ho, rfl, rfl⟩

theorem arranged (hr : Relocated φ m m') (ha : Arranged m.known m.heap lines) :
    Arranged m'.known m'.heap (linesMap φ m lines) where
  strung := by
    intro q' v' hq' hfirst
    obtain ⟨q, hq, howner, rfl⟩ := hr.exists_belongs hq'
    obtain ⟨v, hv, rfl⟩ := hr.heap.fetchField_back hr.settled hr.settled' howner hfirst
    rw [hr.linesMap_of_kept howner]
    exact hr.strung (ha.strung q v hq hv) (howner.of_fetchField hv)
  outside := by
    intro o' hnone
    by_contra hne
    obtain ⟨⟨link', p'⟩, hmem⟩ := List.exists_mem_of_ne_nil _ hne
    obtain ⟨link, p, o, hold, -, -, ho, -, -, rfl⟩ := hr.exists_queued ha hmem
    obtain ⟨q, v, hq, rfl, hfirst, -⟩ := ha.exists_queue hold
    exact hnone _ _ (hr.belongs hq ho) rfl (hr.heap.fetchField_map hr.settled' ho hfirst)
  nodup := by
    intro o'
    by_cases hexists : ∃ o, Kept m.heap m.roots o ∧ o.map φ = o'
    · obtain ⟨o, ho, rfl⟩ := hexists
      rw [hr.linesMap_of_kept ho, lineMap, List.map_map]
      have hmap : (lines o).map (Prod.snd ∘ fun e : Value × Value => (e.1.map φ, e.2.map φ)) =
          ((lines o).map Prod.snd).map (·.map φ) := by rw [List.map_map]; rfl
      rw [hmap]
      refine List.Nodup.map_on ?_ (ha.nodup o)
      intro p hp p₂ hp₂ heq
      have hkept : ∀ p, p ∈ (lines o).map Prod.snd → Kept m.heap m.roots p := by
        intro p hp
        obtain ⟨⟨link, p⟩, hmem, rfl⟩ := List.mem_map.mp hp
        obtain ⟨q, v, -, -, hfirst, hs⟩ := ha.exists_queue hmem
        exact (kept_of_strung hs (ho.of_fetchField hfirst) link p hmem).2
      exact hr.heap.map_injective hr.settled' (hkept p hp) (hkept p₂ hp₂) heq
    · rw [linesMap, dif_neg hexists]
      exact List.nodup_nil
  apart := by
    intro o₁' o₂' p' h₁ h₂
    obtain ⟨p₁, o₁, hq₁, hp₁, -, rfl, rfl⟩ := hr.exists_queued_of_queued ha h₁
    obtain ⟨p₂, o₂, hq₂, hp₂, -, heq, rfl⟩ := hr.exists_queued_of_queued ha h₂
    obtain rfl := hr.heap.map_injective hr.settled' hp₂ hp₁ heq
    rw [ha.apart o₁ o₂ p₂ hq₁ hq₂]
  process := by
    intro o' p' hq
    obtain ⟨p, o, hold, hp, -, rfl, rfl⟩ := hr.exists_queued_of_queued ha hq
    exact (hr.typeOf_known hp).mpr (ha.process o p hold)
  last_link := by
    intro q' l' hq' hlast hne
    obtain ⟨q, hq, howner, rfl⟩ := hr.exists_belongs hq'
    obtain ⟨l, hl, rfl⟩ := hr.heap.fetchField_back hr.settled hr.settled' howner hlast
    have hkept := howner.of_fetchField hl
    obtain ⟨htype, hnext⟩ := ha.last_link q l hq hl fun heq => hne ((hr.eq_known_iff hkept).mpr heq)
    refine ⟨(hr.typeOf_known hkept).mpr htype, ?_⟩
    rw [hr.known]
    exact hr.heap.fetchField_map hr.settled' hkept hnext
  last_own := by
    intro q' l' o' p' hq' hlast hmem
    obtain ⟨q, hq, howner, rfl⟩ := hr.exists_belongs hq'
    obtain ⟨l, hl, rfl⟩ := hr.heap.fetchField_back hr.settled hr.settled' howner hlast
    obtain ⟨link, p, o, hold, hlink, -, -, heq, -, rfl⟩ := hr.exists_queued ha hmem
    obtain rfl := hr.heap.map_injective hr.settled' hlink (howner.of_fetchField hl) heq
    rw [ha.last_own q link o p hq hl hold]
  last_apart := by
    intro q₁' q₂' l' hq₁' hq₂' h₁ h₂ hne
    obtain ⟨q₁, hq₁, ho₁, rfl⟩ := hr.exists_belongs hq₁'
    obtain ⟨q₂, hq₂, ho₂, rfl⟩ := hr.exists_belongs hq₂'
    obtain ⟨l₁, hl₁, rfl⟩ := hr.heap.fetchField_back hr.settled hr.settled' ho₁ h₁
    obtain ⟨l₂, hl₂, heq⟩ := hr.heap.fetchField_back hr.settled hr.settled' ho₂ h₂
    have hkept := ho₁.of_fetchField hl₁
    obtain rfl := hr.heap.map_injective hr.settled' (ho₂.of_fetchField hl₂) hkept heq
    have hnil : l₂ ≠ m.known .nil := fun heq => hne ((hr.eq_known_iff hkept).mpr heq)
    change q₂.owner.map φ = q₁.owner.map φ
    rw [ha.last_apart q₁ q₂ l₂ hq₁ hq₂ hl₁ hl₂ hnil]

/-! ## The order -/

/-- The images of the values that have been kept. -/
def survivors (φ : Handle → Handle) (m : Machine) (ended : Set Value) : Set Value :=
  {p' | ∃ p ∈ ended, Kept m.heap m.roots p ∧ p.map φ = p'}

theorem open_map (hr : Relocated φ m m') (hv : Kept m.heap m.roots v)
    (hopen : Open m.known m.heap v) : Open m'.known m'.heap (v.map φ) := by
  obtain ⟨⟨t, ht⟩, hnot⟩ := hopen
  refine ⟨⟨_, hr.heap.typeOf_map hr.settled' hv ht⟩, ?_⟩
  rintro ⟨hnil, hshielded⟩
  refine hnot ⟨fun heq => hnil ((hr.eq_known_iff hv).mpr heq), ?_⟩
  refine hshielded.imp (hr.queueing_iff hv).mp (Or.imp (hr.eq_known_iff hv).mp fun htable => ?_)
  rw [hr.known] at htable
  exact (hr.heap.fetchField_iff hr.settled hr.settled' (kept_known m _) hv).mp htable

theorem ordered (hr : Relocated φ m m') (ho : Ordered none ended m lines) :
    Ordered none (survivors φ m ended) m' (linesMap φ m lines) := by
  have hcontext : Kept m.heap m.roots m.regs.activeContext := kept_of_mem (by simp [roots])
  have hentry : Kept m.heap m.roots m.regs.entryProcess := kept_of_mem (by simp [roots])
  have hwait : Kept m.heap m.roots m.regs.entryWait := kept_of_mem (by simp [roots])
  have hactive : ∀ {p}, Kept m.heap m.roots p →
      (m'.heap.fetchField (m'.known .processor) Slot.activeProcess = .ok (p.map φ) ↔
        m.heap.fetchField (m.known .processor) Slot.activeProcess = .ok p) := by
    intro p hp
    rw [hr.known]
    exact hr.heap.fetchField_iff hr.settled hr.settled' (kept_known m _) hp
  have hregs : m'.regs = m.regs.map φ := hr.regs
  refine ⟨⟨hr.furnished ho.sound.furnished, ?_, ?_⟩, hr.arranged ho.arranged, ?_, ?_, ?_, ?_, ?_⟩
  · rw [hregs]
    exact hr.open_map hcontext ho.sound.context
  · rw [hregs]
    exact ho.sound.stackBase.imp_left (hr.eq_known_iff hcontext).mpr
  · obtain ⟨p, hp, hcase⟩ := ho.active
    have hkept := (kept_known m .processor).of_fetchField hp
    refine ⟨p.map φ, (hactive hkept).mpr hp, ?_⟩
    rw [hr.schedule]
    refine hcase.imp (And.imp_left (hr.eq_known_iff hkept).mpr) ?_
    rintro ⟨htype, hidle⟩
    refine ⟨(hr.typeOf_known hkept).mpr htype, fun hpending o' hq => ?_⟩
    obtain ⟨p₂, o, hold, hp₂, -, heq, -⟩ := hr.exists_queued_of_queued ho.arranged hq
    obtain rfl := hr.heap.map_injective hr.settled' hp₂ hkept heq
    exact hidle hpending o hold
  · rw [hregs]
    exact (hr.typeOf_known hentry).mpr ho.entry_type
  · intro o' hq
    rw [hregs] at hq ⊢
    obtain ⟨p, o, hold, hp, hkept, heq, rfl⟩ := hr.exists_queued_of_queued ho.arranged hq
    obtain rfl := hr.heap.map_injective hr.settled' hp hentry heq
    exact (ho.entry_waits o hold).imp (hr.eq_known_iff hkept).mpr (congrArg _)
  · rw [hregs]
    exact fun hne => (hr.typeOf_known hwait).mpr
      (ho.entryWait_type fun heq => hne ((hr.eq_known_iff hwait).mpr heq))
  · intro p' hover
    obtain ⟨p, hp, hkept, rfl⟩ := over_none.mp hover
    have hgone := ho.gone p (over_none.mpr hp)
    obtain ⟨t, ht⟩ := hgone.exists_type
    refine ⟨⟨_, hr.heap.typeOf_map hr.settled' hkept ht⟩,
      fun heq => hgone.ne_nil ((hr.eq_known_iff hkept).mp heq), ?_,
      fun h => hgone.not_active ((hactive hkept).mp h), ?_⟩
    · rw [hregs]
      exact fun heq => hgone.ne_entry (hr.heap.map_injective hr.settled' hkept hentry heq)
    · intro o' hq
      obtain ⟨p₂, o, hold, hp₂, -, heq, -⟩ := hr.exists_queued_of_queued ho.arranged hq
      obtain rfl := hr.heap.map_injective hr.settled' hp₂ hkept heq
      exact hgone.unqueued o hold

end Machine.Relocated

end MessageMachine
