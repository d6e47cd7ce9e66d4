import MessageMachine.Machine.Scheduler
import MessageMachine.Proofs.Schedule.Order

/-!
# Reading the queues

`readyProcesses` and `waitingProcesses` follow a chain of links and give up after as many links as
there are objects.  In a machine whose processes are in order they never give up, because the links
of a line are distinct objects, and what they answer is the line (`Arranged.toList_eq`).

From this come the statements about what can be observed: `Ordered.nodup_together` says that all
queues together hold no process twice, and `Ordered.not_linked` that a process in no line is in no
queue that can be read.
-/

namespace MessageMachine

variable {k : Landmarks} {h : Heap} {lines : Value → Line}

/-! ## Chains -/

/-- A chain is read to its end if there is fuel for one more link. -/
theorem Strung.chain_eq {v : Value} {line : Line} (hs : Strung k h v line) {fuel : Nat}
    (hfuel : line.length < fuel) : Queue.chain h (k .nil) fuel v = .ok (line.map Prod.snd) := by
  induction hs generalizing fuel with
  | nil =>
      obtain ⟨fuel, rfl⟩ := Nat.exists_eq_add_one.mpr hfuel
      simp [Queue.chain, pure, Except.pure]
  | @cons link process next rest hne _ hvalue hnext _ ih =>
      obtain ⟨fuel, rfl⟩ := Nat.exists_eq_add_one.mpr (Nat.zero_lt_of_lt hfuel)
      have hrest := ih (Nat.lt_of_succ_lt_succ hfuel)
      simp only [Queue.chain, if_neg hne, hvalue, hnext]
      change (Queue.chain h (k .nil) fuel next >>= fun ps => pure (process :: ps)) = _
      rw [hrest]
      rfl

namespace Arranged

/-- The links of a line are distinct objects. -/
theorem length_le (ha : Arranged k h lines) (o : Value) : (lines o).length ≤ h.objectCount := by
  have hnodup : ((lines o).map Prod.fst).Nodup := by
    rw [List.nodup_map_iff_inj_on (ha.nodup o).of_map]
    rintro ⟨link, p⟩ hp ⟨link', p'⟩ hp' heq
    obtain rfl : link = link' := heq
    rw [(ha.link_unique hp hp').2]
  rw [← List.length_map Prod.fst]
  refine Heap.length_le_of_fields hnodup fun link hlink => ?_
  obtain ⟨⟨link, p⟩, hmem, rfl⟩ := List.mem_map.mp hlink
  obtain ⟨xs, hxs, -⟩ := Heap.fetchField_eq_ok.mp (ha.mem hmem).2.2
  exact ⟨xs, hxs⟩

end Arranged

namespace Machine

variable {m : Machine} {runner : Option Value} {ended : Set Value}

/-- What can be read of a queue is the line of its owner. -/
theorem toList_eq_ok (ha : Arranged m.known m.heap lines) {q : Queue}
    (hq : q.Belongs m.known m.heap) {ps : List Value} : q.toList m = .ok ps ↔
      (∃ v, m.heap.fetchField q.owner q.first = .ok v) ∧ ps = (lines q.owner).map Prod.snd := by
  unfold Queue.toList
  cases hfirst : m.heap.fetchField q.owner q.first with
  | error fault =>
      constructor
      · intro hread
        cases hread
      · rintro ⟨⟨v, hv⟩, -⟩
        cases hv
  | ok v =>
      have hchain := (ha.strung q v hq hfirst).chain_eq
        (Nat.lt_succ_of_le (ha.length_le q.owner))
      change Queue.chain m.heap (m.known .nil) (m.heap.objectCount + 1) v = .ok ps ↔ _
      rw [hchain]
      constructor
      · intro heq
        exact ⟨⟨v, rfl⟩, (Except.ok.inj heq).symm⟩
      · rintro ⟨-, rfl⟩
        rfl

/-! ## Processes in queues -/

/-- The process is ready, or waits for a semaphore. -/
def Linked (m : Machine) (p : Value) : Prop :=
  (∃ ready, m.readyProcesses = .ok ready ∧ p ∈ ready) ∨
    ∃ semaphore waiting, m.heap.typeOf semaphore = .ok (m.known .semaphore) ∧
      m.waitingProcesses semaphore = .ok waiting ∧ p ∈ waiting

theorem readyProcesses_eq_ok (ha : Arranged m.known m.heap lines) {ready : List Value}
    (hready : m.readyProcesses = .ok ready) :
    ready = (lines (m.known .processor)).map Prod.snd :=
  ((toList_eq_ok ha (.inl rfl)).mp hready).2

theorem waitingProcesses_eq_ok (ha : Arranged m.known m.heap lines) {semaphore : Value}
    (htype : m.heap.typeOf semaphore = .ok (m.known .semaphore)) {waiting : List Value}
    (hwaiting : m.waitingProcesses semaphore = .ok waiting) :
    waiting = (lines semaphore).map Prod.snd :=
  ((toList_eq_ok ha (.inr ⟨rfl, htype⟩)).mp hwaiting).2

/-- The ready processes can always be read. -/
theorem Sound.exists_readyProcesses (hs : Sound m) (ha : Arranged m.known m.heap lines) :
    ∃ ready, m.readyProcesses = .ok ready :=
  ⟨_, (toList_eq_ok ha (.inl rfl)).mpr ⟨Heap.exists_fetchField hs.furnished.processor_size
    (show Slot.firstReady < Slot.processorSize by decide), rfl⟩⟩

theorem not_linked (ha : Arranged m.known m.heap lines) {p : Value}
    (hunqueued : ∀ o, ¬Queued lines p o) : ¬m.Linked p := by
  have hnone : ∀ o, p ∉ (lines o).map Prod.snd := by
    intro o hp
    obtain ⟨⟨link, p⟩, hmem, rfl⟩ := List.mem_map.mp hp
    exact hunqueued o ⟨link, hmem⟩
  rintro (⟨ready, hready, hmem⟩ | ⟨semaphore, waiting, htype, hwaiting, hmem⟩)
  · rw [readyProcesses_eq_ok ha hready] at hmem
    exact hnone _ hmem
  · rw [waitingProcesses_eq_ok ha htype hwaiting] at hmem
    exact hnone _ hmem

/-! ## All queues together -/

/-- Lines of distinct owners hold no process twice. -/
theorem nodup_flatMap (ha : Arranged m.known m.heap lines) {owners : List Value}
    (hnodup : owners.Nodup) : (owners.flatMap fun o => (lines o).map Prod.snd).Nodup := by
  rw [List.nodup_flatMap]
  refine ⟨fun o _ => ha.nodup o, hnodup.imp fun {o o'} hne => ?_⟩
  intro p hp hp'
  obtain ⟨⟨link, p⟩, hmem, rfl⟩ := List.mem_map.mp hp
  obtain ⟨⟨link', p'⟩, hmem', rfl⟩ := List.mem_map.mp hp'
  exact hne (ha.apart o o' _ ⟨link, hmem⟩ ⟨link', hmem'⟩)

theorem mapM_waitingProcesses (ha : Arranged m.known m.heap lines) {semaphores : List Value}
    (htypes : ∀ s ∈ semaphores, m.heap.typeOf s = .ok (m.known .semaphore))
    {queues : List (List Value)} (hqueues : semaphores.mapM m.waitingProcesses = .ok queues) :
    queues = semaphores.map fun s => (lines s).map Prod.snd := by
  induction semaphores generalizing queues with
  | nil =>
      cases hqueues
      rfl
  | cons s semaphores ih =>
      rw [List.mapM_cons] at hqueues
      obtain ⟨waiting, hwaiting, hothers⟩ := reading_bind_eq_ok.mp hqueues
      obtain ⟨rest, hrest, heq⟩ := reading_bind_eq_ok.mp hothers
      obtain rfl := reading_pure_eq_ok.mp heq
      rw [List.map_cons, waitingProcesses_eq_ok ha (htypes s List.mem_cons_self) hwaiting,
        ih (fun s hs => htypes s (List.mem_cons_of_mem _ hs)) hrest]

/-- No process is twice in the queues taken together. -/
theorem nodup_together (hs : Sound m) (ha : Arranged m.known m.heap lines)
    {semaphores : List Value} (hnodup : semaphores.Nodup)
    (htypes : ∀ s ∈ semaphores, m.heap.typeOf s = .ok (m.known .semaphore))
    {ready : List Value} (hready : m.readyProcesses = .ok ready)
    {queues : List (List Value)} (hqueues : semaphores.mapM m.waitingProcesses = .ok queues) :
    (ready ++ queues.flatten).Nodup := by
  have hprocessor : m.known .processor ∉ semaphores := by
    intro hmem
    exact hs.furnished.processor_plain (.inl (htypes _ hmem))
  have howners := nodup_flatMap ha (List.nodup_cons.mpr ⟨hprocessor, hnodup⟩)
  rw [List.flatMap_cons] at howners
  rw [readyProcesses_eq_ok ha hready, mapM_waitingProcesses ha htypes hqueues]
  exact howners

end Machine

end MessageMachine
