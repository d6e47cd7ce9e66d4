import MessageMachine.Proofs.Heap.Evacuation
import MessageMachine.Proofs.Heap.Scan

/-!
# A collection preserves the object graph

Between operations no ephemeral object is marked as moved (`Built.settled`), so a collection starts
without moves.  When it has ended, every copy has been scanned, and the moves are a relocation:

* what the roots, the root objects and the copies refer to has been moved, so all reachable objects
  have (`Finished.lookup_of_reachable`);
* every object moved was reachable, so nothing else has.

`collect_preserves_graph` is the statement about `collect`; `collect_relocates` is the form in which
other developments use it.
-/

namespace MessageMachine

namespace Heap

/-! ## Heaps between operations are settled -/

theorem Settled.update {h : Heap} (hsettled : h.Settled) (a : Handle) {f : Object → Object}
    (hf : ∀ o, (f o).header.state = o.header.state) : (h.update a f).Settled := by
  unfold Heap.update
  cases hspace : a.space with
  | root => exact ⟨hsettled.root_space, hsettled.ephemeral_space, hsettled.live⟩
  | ephemeral =>
      refine ⟨hsettled.root_space, hsettled.ephemeral_space, ?_⟩
      intro s i o hat
      change (h.ephemeral.update a.segment a.index f).at? s i = some o at hat
      rw [Pool.at?_update] at hat
      split at hat
      · obtain ⟨old, hold, rfl⟩ := Option.map_eq_some_iff.mp hat
        rw [hf]
        exact hsettled.live _ _ _ hold
      · exact hsettled.live _ _ _ hat

theorem keeps_settled_change (v : Value) (check : Heap → Except HeapFault α) {f : Object → Object}
    (hf : ∀ o, (f o).header.state = o.header.state) : Keeps Settled (change v check f) := by
  intro h hsettled
  unfold change
  split
  · exact hsettled
  · split
    · exact hsettled.update _ hf
    · exact hsettled

theorem keeps_settled_read (f : Heap → Except HeapFault α) : Keeps Settled (read f) := by
  intro h hsettled
  unfold read
  split <;> exact hsettled

theorem keeps_settled_allocate (space : Space) {o : Object}
    (ho : o.header.state = .initial space) : Keeps Settled (allocate space o) := by
  intro h hsettled
  unfold allocate
  cases hreserve : (h.pool space).reserve o.words with
  | error fault => exact hsettled
  | ok a =>
      cases space with
      | root =>
          refine ⟨?_, hsettled.ephemeral_space, hsettled.live⟩
          exact (Pool.space_push ..).trans hsettled.root_space
      | ephemeral =>
          refine ⟨hsettled.root_space, ?_, ?_⟩
          · exact (Pool.space_push ..).trans hsettled.ephemeral_space
          · intro s i found hat
            change ((h.pool .ephemeral).push o).at? s i = some found at hat
            rw [Pool.at?_push hreserve] at hat
            split at hat
            · cases hat
              exact ho
            · exact hsettled.live _ _ _ hat

/-- Every copy is in its place, also while a collection is under way and after it failed. -/
structure TargetLive (e : Evacuation) : Prop where
  root_space : e.root.space = .root
  target_space : e.target.space = .ephemeral
  live : ∀ s i o, e.target.at? s i = some o → o.header.state = .live

theorem TargetLive.push {e : Evacuation} (he : TargetLive e) {o : Object} {copy : Handle}
    (hreserve : e.target.reserve o.words = .ok copy) (ho : o.header.state = .live) :
    ∀ s i found, (e.target.push o).at? s i = some found → found.header.state = .live := by
  intro s i found hat
  rw [Pool.at?_push hreserve] at hat
  split at hat
  · cases hat
    exact ho
  · exact he.live _ _ _ hat

theorem TargetLive.update {e : Evacuation} (he : TargetLive e) (s i : Nat)
    {f : Object → Object} (hf : ∀ o, e.target.at? s i = some o → (f o).header.state = .live) :
    TargetLive { e with target := e.target.update s i f } := by
  refine ⟨he.root_space, he.target_space, ?_⟩
  intro s' i' found hat
  change (e.target.update s i f).at? s' i' = some found at hat
  rw [Pool.at?_update] at hat
  split at hat
  · obtain ⟨old, hold, rfl⟩ := Option.map_eq_some_iff.mp hat
    exact hf old hold
  · exact he.live _ _ _ hat

theorem invariant_targetLive : Evacuation.Invariant TargetLive where
  copied he _ hstate hreserve :=
    ⟨he.root_space, (Pool.space_push ..).trans he.target_space, he.push hreserve hstate⟩
  rootScanned he _ _ := ⟨he.root_space, he.target_space, he.live⟩
  copyScanned he hat hf _ := he.update _ _ fun o ho => by
    cases hat.symm.trans ho
    rw [hf]
    exact he.live _ _ _ ho

theorem targetLive_startEvacuation {h : Heap} (hsettled : h.Settled) :
    TargetLive h.startEvacuation := by
  refine ⟨hsettled.root_space, rfl, ?_⟩
  intro s i o hat
  cases s with
  | zero => simp [startEvacuation, Pool.empty, Pool.at?_eq, Segment.empty] at hat
  | succ s => simp [startEvacuation, Pool.empty, Pool.at?_eq] at hat

theorem settled_collect {h : Heap} (hsettled : h.Settled) (roots : List Value) :
    (h.collect roots).heap.Settled := by
  obtain ⟨e, he, hroot, hephemeral, -⟩ :=
    invariant_targetLive.collect (targetLive_startEvacuation hsettled) roots
  constructor
  case root_space => exact hroot ▸ he.root_space
  case ephemeral_space => exact hephemeral ▸ he.target_space
  case live => exact hephemeral ▸ he.live

theorem settled_create {settings : Settings} {h : Heap} (hcreate : create settings = .ok h) :
    h.Settled := by
  unfold create at hcreate
  split at hcreate
  · cases hcreate
  · cases hcreate
    refine ⟨rfl, rfl, ?_⟩
    intro s i o hat
    cases s with
    | zero => simp [Pool.empty, Pool.at?_eq, Segment.empty] at hat
    | succ s => simp [Pool.empty, Pool.at?_eq] at hat

theorem settled_perform {h : Heap} (hsettled : h.Settled) (op : Operation) :
    (op.perform h).Settled := by
  cases op with
  | allocateFields space type count fill =>
      exact Keeps.bind (keeps_settled_read _)
        (fun _ => Keeps.bind (keeps_settled_allocate space rfl) fun _ => Keeps.pure _) h hsettled
  | allocateBytes space type length =>
      exact Keeps.bind (keeps_settled_read _) (fun _ => Keeps.bind (keeps_settled_read _)
        fun _ => Keeps.bind (keeps_settled_allocate space rfl) fun _ => Keeps.pure _) h hsettled
  | allocateBytesFrom space type bytes =>
      exact Keeps.bind (keeps_settled_read _)
        (fun _ => Keeps.bind (keeps_settled_allocate space rfl) fun _ => Keeps.pure _) h hsettled
  | allocateWords space type count =>
      exact Keeps.bind (keeps_settled_read _)
        (fun _ => Keeps.bind (keeps_settled_allocate space rfl) fun _ => Keeps.pure _) h hsettled
  | setType v type =>
      have hstate : ∀ o : Object, (o.setType type).header.state = o.header.state := fun _ => rfl
      exact keeps_settled_change v _ hstate h hsettled
  | storeField v i new =>
      exact keeps_settled_change v _ (fun ⟨_, body⟩ => by cases body <;> rfl) h hsettled
  | storeByte v i b =>
      exact keeps_settled_change v _ (fun ⟨_, body⟩ => by cases body <;> rfl) h hsettled
  | storeWord v i w =>
      exact keeps_settled_change v _ (fun ⟨_, body⟩ => by cases body <;> rfl) h hsettled
  | transferFields source sourceStart target targetStart count =>
      exact Keeps.bind (keeps_settled_read _) (fun moved =>
        keeps_settled_change target _ fun ⟨_, body⟩ => by cases body <;> rfl) h hsettled
  | transferBytes source sourceStart target targetStart count =>
      exact Keeps.bind (keeps_settled_read _) (fun moved =>
        keeps_settled_change target _ fun ⟨_, body⟩ => by cases body <;> rfl) h hsettled
  | collect roots => exact settled_collect hsettled roots

theorem Built.settled {h : Heap} (hbuilt : Built h) : h.Settled := by
  induction hbuilt with
  | create hcreate => exact settled_create hcreate
  | perform op _ ih => exact settled_perform ih op

theorem Built.performAll {h : Heap} (hbuilt : Built h) (ops : List Operation) :
    Built (ops.foldl (fun h op => op.perform h) h) := by
  induction ops generalizing h with
  | nil => exact hbuilt
  | cons op ops ih => exact ih (hbuilt.perform op)

/-! ## The end of a collection -/

theorem progress_startEvacuation (h : Heap) (reach : Handle → Prop) :
    Progress h reach 0 [] h.startEvacuation := by
  constructor
  case source_at? =>
    intro s i
    cases hat : h.ephemeral.at? s i with
    | none => simpa [startEvacuation] using hat
    | some o => simpa [startEvacuation, Moves.mark] using hat
  case target_get =>
    intro b o hget
    have hat := (Pool.get_eq_ok_iff.mp hget).2.2
    cases hsegment : b.segment with
    | zero => simp [startEvacuation, Pool.empty, Pool.at?_eq, Segment.empty, hsegment] at hat
    | succ s => simp [startEvacuation, Pool.empty, Pool.at?_eq, hsegment] at hat
  all_goals simp [startEvacuation, Pool.empty]

/-- A collection that has nothing left to scan. -/
structure Finished (h : Heap) (roots : List Value) (roots' : Array Value) (moves : Moves)
    (e : Evacuation) : Prop where
  progress : Progress h (Reachable h roots) moves.length moves e
  roots_covers : ∀ v ∈ roots, moves.Covers v
  roots_eq : roots'.toList = roots.map (·.map moves.place)
  root_epoch : e.root.epoch = h.root.epoch
  root_covers : ∀ s i o, h.root.at? s i = some o → ∀ v ∈ o.references, moves.Covers v
  root_at? : ∀ s i, e.root.at? s i = (h.root.at? s i).map (·.map moves.place)

/-- A collection that succeeds ends with nothing left to scan. -/
theorem finished_of_scan {h : Heap} (hsettled : h.Settled) {roots : List Value}
    {roots' : Array Value} {e e' : Evacuation}
    (hroots : Evacuation.relocateEach roots h.startEvacuation = (roots', e, none))
    (hscan : Evacuation.scan e = .ok () e') : ∃ moves, Finished h roots roots' moves e' := by
  -- the roots
  obtain ⟨moves, hp, hcovers, hout, hroot⟩ :=
    (progress_startEvacuation h (Reachable h roots)).relocateEach hsettled
      (fun v hv a ha => Reachable.root hv ha) hroots
  rw [List.nil_append] at hp hcovers hout
  -- the root pool
  obtain ⟨_, _, hget, hscan⟩ := bind_eq_ok.mp hscan
  cases hget
  obtain ⟨⟨⟩, e₁, hrootScan, hscan⟩ := bind_eq_ok.mp hscan
  have hstart : Progress.RootsScanned h [] moves e := Progress.rootsScanned_nil hroot
  obtain ⟨more, hp₁, all, hall, hroots₁⟩ := hp.scanRoots hsettled hstart
    (by simpa using e.root.nodup_positions)
    (fun s i o ho v hv a ha => Reachable.permanent ho hv ha) hrootScan
  have hplaces : ∀ s i o, h.root.at? s i = some o → (s, i) ∈ all := by
    intro s i o ho
    rw [hall]
    refine Or.inr (Pool.mem_positions.mpr ⟨o, ?_⟩)
    rw [hroot]
    exact ho
  -- the copies
  obtain ⟨_, _, hget, hscan⟩ := bind_eq_ok.mp hscan
  cases hget
  rw [hp₁.source_count, List.range_eq_range'] at hscan
  obtain ⟨rest, hp', hroot'⟩ := Progress.scanCopies hsettled
    (fun a o ha hget v hv b hb => Reachable.step ha hget hv hb)
    (by simpa using hp₁) hscan
  rw [Nat.zero_add, Nat.min_eq_right hp'.length_le] at hp'
  have hroots' := hroots₁.append (hp'.ephemeral hsettled) hroot'
  refine ⟨moves ++ more ++ rest, hp', ?_, ?_, hroots'.root_epoch, ?_, ?_⟩
  · intro v hv
    exact ((hcovers v hv).append more).append rest
  · rw [hout]
    apply List.map_congr_left
    intro v hv
    rw [List.append_assoc]
    refine (Moves.map_place_append ?_ (hcovers v hv)).symm
    rw [← List.append_assoc]
    exact hp'.ephemeral hsettled
  · intro s i o ho
    exact hroots'.covers s i o (hplaces s i o ho) ho
  · intro s i
    rw [hroots'.root_at?]
    cases ho : h.root.at? s i with
    | none => simp
    | some o => simp [hplaces s i o ho]

namespace Finished

variable {h : Heap} {roots : List Value} {roots' : Array Value} {moves : Moves} {e : Evacuation}

/-- Every reachable object has been moved. -/
theorem lookup_of_reachable (hf : Finished h roots roots' moves e) {a : Handle}
    (ha : Reachable h roots a) : ∃ copy, moves.lookup a = some copy := by
  induction ha with
  | root hv ha => exact hf.roots_covers _ hv _ ha
  | permanent ho hv ha => exact hf.root_covers _ _ _ ho _ hv _ ha
  | step _ hget hv ha ih =>
      obtain ⟨copy, hcopy⟩ := ih
      obtain ⟨k, hk⟩ := List.getElem?_of_mem (Moves.mem_of_lookup hcopy)
      obtain ⟨o, hget', hscanned, -⟩ := hf.progress.copied k _ copy hk
      rw [hget] at hget'
      cases hget'
      exact (hscanned (List.getElem?_eq_some_iff.mp hk).1).2 _ hv _ ha

theorem get_place (hf : Finished h roots roots' moves e) {a : Handle}
    (ha : Reachable h roots a) :
    (a, moves.place a) ∈ moves ∧ ∃ o, h.ephemeral.get a = .ok o ∧
      e.target.get (moves.place a) = .ok (o.map moves.place) := by
  obtain ⟨copy, hcopy⟩ := hf.lookup_of_reachable ha
  have hplace : moves.place a = copy := by rw [Moves.place, hcopy]; rfl
  have hmem := Moves.mem_of_lookup hcopy
  obtain ⟨k, hk⟩ := List.getElem?_of_mem hmem
  obtain ⟨o, hget, hscanned, -⟩ := hf.progress.copied k a copy hk
  rw [hplace]
  exact ⟨hmem, o, hget, (hscanned (List.getElem?_eq_some_iff.mp hk).1).1⟩

theorem bijOn (hf : Finished h roots roots' moves e) :
    Set.BijOn moves.place {a | Reachable h roots a} {b | ∃ o, e.target.get b = .ok o} := by
  refine ⟨?_, ?_, ?_⟩
  · intro a ha
    obtain ⟨-, o, -, hcopy⟩ := hf.get_place ha
    exact ⟨_, hcopy⟩
  · intro a ha b hb heq
    obtain ⟨hmem, -⟩ := hf.get_place ha
    obtain ⟨hmem', -⟩ := hf.get_place hb
    rw [← heq] at hmem'
    have hsame := List.inj_on_of_nodup_map hf.progress.nodup_new hmem hmem' rfl
    exact congrArg Prod.fst hsame
  · rintro b ⟨o, hget⟩
    obtain ⟨⟨a, copy⟩, hmove, rfl⟩ := List.mem_map.mp (hf.progress.target_get b o hget)
    refine ⟨a, hf.progress.reach_old _ hmove, ?_⟩
    rw [Moves.place, Moves.lookup_of_mem hf.progress.nodup_old hmove]
    rfl

/-- The objects moved are the reachable ones. -/
theorem mem_old_iff (hf : Finished h roots roots' moves e) (a : Handle) :
    a ∈ moves.map Prod.fst ↔ Reachable h roots a := by
  constructor
  · intro ha
    obtain ⟨move, hmove, rfl⟩ := List.mem_map.mp ha
    exact hf.progress.reach_old move hmove
  · intro ha
    exact List.mem_map.mpr ⟨_, (hf.get_place ha).1, rfl⟩

end Finished

/-! ## The theorem -/

/-- The heap that a collection leaves when it has ended with the given pools. -/
def afterScan (h : Heap) (e : Evacuation) : Heap :=
  { h.withPools e with
    collections := h.collections + 1
    threshold := nextThreshold h.settings e.target.segments.size }

/-- What a collection answers whose runs succeed. -/
theorem collect_of_runs {h : Heap} {roots : List Value} {out : Array Value} {e e' : Evacuation}
    (hroots : Evacuation.relocateEach roots h.startEvacuation = (out, e, none))
    (hscan : Evacuation.scan e = .ok () e') :
    h.collect roots = ⟨.ok ⟨e'.target.epoch, e'.copies.size, e'.words, h.ephemeral.segments.size,
      e'.target.segments.size⟩, out.toList, h.afterScan e'⟩ := by
  simp only [collect, hroots, hscan, afterScan]

/-- The runs of a collection that succeeds. -/
theorem runs_of_collect {h : Heap} {roots roots' : List Value} {cycle : Cycle} {h' : Heap}
    (hcollect : h.collect roots = ⟨.ok cycle, roots', h'⟩) :
    ∃ out e e', Evacuation.relocateEach roots h.startEvacuation = (out, e, none) ∧
      Evacuation.scan e = .ok () e' := by
  unfold collect at hcollect
  rcases hroots : Evacuation.relocateEach roots h.startEvacuation with ⟨out, e, fault⟩
  cases fault with
  | some fault =>
      simp only [hroots] at hcollect
      cases hcollect
  | none =>
      simp only [hroots] at hcollect
      cases hscan : Evacuation.scan e with
      | error fault e' =>
          simp only [hscan] at hcollect
          cases hcollect
      | ok u e' => exact ⟨out, e, e', rfl, hscan⟩

/-- A collection that succeeds scans to the end. -/
theorem finished_of_collect {h : Heap} (hsettled : h.Settled) {roots roots' : List Value}
    {cycle : Cycle} {h' : Heap} (hcollect : h.collect roots = ⟨.ok cycle, roots', h'⟩) :
    ∃ out moves e, Finished h roots out moves e ∧ roots' = out.toList ∧ h'.root = e.root ∧
      h'.ephemeral = e.target ∧ cycle.objectsCopied = e.copies.size ∧
      cycle.wordsCopied = e.words := by
  obtain ⟨out, e, e', hroots, hscan⟩ := runs_of_collect hcollect
  obtain ⟨moves, hf⟩ := finished_of_scan hsettled hroots hscan
  cases hcollect.symm.trans (collect_of_runs hroots hscan)
  exact ⟨out, moves, e', hf, rfl, rfl, rfl, rfl, rfl⟩

/-- The moves of a collection that succeeds are a relocation. -/
theorem Finished.relocation {h : Heap} (hsettled : h.Settled) {roots : List Value}
    {out : Array Value} {moves : Moves} {e : Evacuation} (hf : Finished h roots out moves e)
    {h' : Heap} (hroot : h'.root = e.root) (hephemeral : h'.ephemeral = e.target) :
    Relocation h roots h' out.toList moves.place := by
  constructor
  · exact fun a ha => (hf.progress.ephemeral hsettled).place_root ha
  · rw [hephemeral]
    exact hf.bijOn
  · exact hf.roots_eq
  · rw [hroot]
    exact hf.root_epoch
  · rw [hroot]
    exact hf.root_at?
  · intro a ha
    rw [hephemeral]
    exact (hf.get_place ha).2

/-- A collection that succeeds relocates the reachable objects, whatever the heap. -/
theorem collect_relocates {h : Heap} (hsettled : h.Settled) {roots roots' : List Value}
    {cycle : Cycle} {h' : Heap} (hcollect : h.collect roots = ⟨.ok cycle, roots', h'⟩) :
    ∃ φ, Relocation h roots h' roots' φ := by
  obtain ⟨out, moves, e, hf, rfl, hroot, hephemeral, -, -⟩ :=
    finished_of_collect hsettled hcollect
  exact ⟨moves.place, hf.relocation hsettled hroot hephemeral⟩

/-- A successful collection preserves the object graph: the reachable objects and no others are in
the new pool, with every handle replaced along one bijection, and the counts of the collection are
those of the reachable objects. -/
theorem collect_preserves_graph {h : Heap} (hbuilt : Built h) {roots roots' : List Value}
    {cycle : Cycle} {h' : Heap} (hcollect : h.collect roots = ⟨.ok cycle, roots', h'⟩) :
    (∃ φ, Relocation h roots h' roots' φ) ∧
      (∀ b o, h'.ephemeral.get b = .ok o → o.header.state = .live) ∧
      ∃ reached : Finset Handle, (∀ a, a ∈ reached ↔ Reachable h roots a) ∧
        cycle.objectsCopied = reached.card ∧ cycle.wordsCopied = ∑ a ∈ reached, h.wordsAt a := by
  have hsettled := hbuilt.settled
  obtain ⟨out, moves, e, hf, rfl, hroot, hephemeral, hobjects, hwords⟩ :=
    finished_of_collect hsettled hcollect
  refine ⟨⟨moves.place, hf.relocation hsettled hroot hephemeral⟩, ?_, ?_⟩
  · intro b o hget
    have hsettled' := settled_collect hsettled roots
    rw [hcollect] at hsettled'
    exact hsettled'.state_of_get hget
  · refine ⟨(moves.map Prod.fst).toFinset, ?_, ?_, ?_⟩
    · intro a
      rw [List.mem_toFinset]
      exact hf.mem_old_iff a
    · rw [List.toFinset_card_of_nodup hf.progress.nodup_old, hobjects, ← Array.length_toList,
        hf.progress.copies_eq, List.length_map, List.length_map]
    · rw [List.sum_toFinset _ hf.progress.nodup_old, hwords, hf.progress.words_eq, List.map_map]
      rfl

/-- Two objects that refer to each other, the first also held by a root object, and a third that
nothing refers to. -/
def cyclicHeap : Heap :=
  let a : Value := .object ⟨.ephemeral, 1, 0, 0⟩
  let b : Value := .object ⟨.ephemeral, 1, 0, 2⟩
  [Operation.allocateFields .ephemeral (.int 7) 2 (.int 0),
    .allocateFields .ephemeral (.int 7) 3 (.int 0),
    .allocateFields .ephemeral a 1 a,
    .storeField a 1 b,
    .allocateFields .root (.int 7) 1 a].foldl (fun h op => op.perform h)
    { settings := {}
      root := .empty .root 0 65536 16
      ephemeral := .empty .ephemeral 1 65536 1024
      threshold := 8
      collections := 0 }

theorem built_cyclicHeap : Built cyclicHeap := by
  have hcreate : create {} = .ok
      { settings := {}
        root := .empty .root 0 65536 16
        ephemeral := .empty .ephemeral 1 65536 1024
        threshold := 8
        collections := 0 } := by rfl
  exact (Built.create hcreate).performAll _

theorem collect_cyclicHeap : cyclicHeap.collect [] =
    ⟨.ok ⟨2, 2, 7, 1, 1⟩, (cyclicHeap.collect []).roots, (cyclicHeap.collect []).heap⟩ := by
  have hresult : (cyclicHeap.collect []).result = .ok ⟨2, 2, 7, 1, 1⟩ := by decide +kernel
  rw [← hresult]

/-- The cycle survives a collection without roots, and its two objects are all that is copied. -/
theorem collect_preserves_graph_cyclicHeap :
    (cyclicHeap.collect []).result = .ok ⟨2, 2, 7, 1, 1⟩ ∧
      ∃ reached : Finset Handle, (∀ a, a ∈ reached ↔ Reachable cyclicHeap [] a) ∧
        2 = reached.card ∧ 7 = ∑ a ∈ reached, cyclicHeap.wordsAt a :=
  ⟨congrArg Collected.result collect_cyclicHeap,
    (collect_preserves_graph built_cyclicHeap collect_cyclicHeap).2.2⟩

end Heap

end MessageMachine
