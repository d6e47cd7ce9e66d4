import MessageMachine.Proofs.Frame.History

/-!
# Blocks stay as they were made

A block is a template: an evaluation copies it into a context of its own and never runs the block
itself.  Nothing is written into a block as long as no field leads to it through which contexts become
active, and only a program could make one do so: by a store into a context, by putting the block
into the context field of a process, or by tampering with the objects of the scheduler.
`Abstains` says that a store does none of this.

* `Contained.idling`: a block that nothing leads to may be taken for idle.
* `presented_idle`: nothing leads to a block that has just been made.
* `Tracked m imprint`: the machine is in a state of an execution in which a block was pushed, and the
  imprint is where that block is now and what its fields were.
* `Tracked.fields_eq`: those are its fields still.
-/

namespace MessageMachine

variable {k : Landmarks} {h h' : Heap} {g : Regime} {v b : Value} {role : Role}

/-- Only the given blocks are idle, and headers may change. -/
def Regime.sparing (blocks : Value → Prop) : Regime := ⟨blocks, False⟩

/-! ## Stores that lead to no block -/

/-- Contexts and the interrupt table of the processor are as they were, the machine's other objects
hold what they should, and no block has been put into the context field of a process. -/
structure Abstains (k : Landmarks) (h h' : Heap) : Prop where
  contexts : ∀ c i, IsContext k h c → h'.fetchField c i = h.fetchField c i
  table : h'.fetchField (k .processor) Slot.interruptTable =
    h.fetchField (k .processor) Slot.interruptTable
  roles : ∀ (x : Holder) v i role new, x.Has k h' v → x.role i = some role →
    h'.fetchField v i = .ok new → Fills k h' role new
  processes : ∀ p new, h'.typeOf p = .ok (k .process) →
    h'.fetchField p Slot.processContext = .ok new →
    h.fetchField p Slot.processContext = .ok new ∨ h'.typeOf new ≠ .ok (k .blockContext)

/-- The machine's own objects of a kind are not made by programs. -/
theorem type_of_grows (hg : Heap.Grows runLandmarks k h h') {l : Landmark} (hl : l ∈ runLandmarks)
    (htype : h'.typeOf v = .ok (k l)) : h.typeOf v = .ok (k l) := by
  by_cases hexists : ∃ t, h.typeOf v = .ok t
  · exact type_of_exists hg.types hexists htype
  · exact absurd htype (hg.fresh v (fun t ht => hexists ⟨t, ht⟩) l hl)

/-- What fills a role that is not for contexts suits it, whatever is idle. -/
theorem Fills.suits_of_ne (hv : Fills k h role v) (hlive : role = .context → ¬g.idle v) :
    Suits g k h role v := by
  refine hv.imp_right fun hplays => ?_
  cases role with
  | link => exact hplays
  | process => exact hplays
  | semaphore => exact hplays
  | context => exact ⟨hplays, hlive rfl⟩

/-- Contexts are reached through processes and other contexts. -/
theorem Holder.of_role_context {x : Holder} {i : Nat} (hrole : x.role i = some .context) :
    x = .process ∧ i = Slot.processContext ∨ x = .context := by
  unfold Holder.role at hrole
  cases x with
  | context => exact .inr rfl
  | process =>
      dsimp only at hrole
      split at hrole
      · next hi => exact .inl ⟨rfl, hi⟩
      · cases hrole
  | interrupts => cases hrole
  | processor | semaphore | link =>
      dsimp only at hrole
      split_ifs at hrole <;> cases hrole

/-- No field comes to lead to an idle block. -/
theorem Abstains.permits (ha : Abstains k h h') (hf : Framed g k h)
    (hg : Heap.Grows runLandmarks k h h') (hrigid : ¬g.rigid) : Permits g k h h' := by
  refine ⟨ha.contexts, fun hheaders => absurd hheaders hrigid, ha.table, ?_⟩
  intro x v i role new hx hrole hfetch
  have hfills := ha.roles x v i role new hx hrole hfetch
  by_cases hcontext : role = .context
  · subst hcontext
    have hkept : x.Has k h v → h.fetchField v i = .ok new → Suits g k h' .context new :=
      fun hold hsame => (hf.roles x v i .context new hold hrole hsame).mono hg.types
    rcases Holder.of_role_context hrole with ⟨rfl, rfl⟩ | rfl
    · rcases ha.processes v new hx hfetch with hsame | hnot
      · exact hkept (type_of_grows hg (by decide) hx) hsame
      · exact hfills.suits_of_ne fun _ hidle => hnot (hg.types new _ (hf.blocks new hidle))
    · have hc : IsContext k h v :=
        hx.imp (type_of_grows hg (by decide)) (type_of_grows hg (by decide))
      exact hkept hc ((ha.contexts v i hc).symm.trans hfetch)
  · exact hfills.suits_of_ne fun heq => absurd heq hcontext

namespace Machine

variable {m m' m₁ : Machine} {n : Nat} {xs : Nat → Value} {strict : Bool}

theorem guards_abstains (hrigid : ¬g.rigid) : Guards g Abstains :=
  fun _ _ _ hf hg ha => ha.permits hf hg hrigid

/-! ## New blocks -/

/-- A block that nothing leads to may be taken for idle. -/
theorem Contained.idling (hm : Contained g m)
    (htype : m.heap.typeOf b = .ok (m.known .blockContext))
    (hactive : m.regs.activeContext ≠ b)
    (hfields : ∀ (x : Holder) v i, x.Has m.known m.heap v → x.role i = some .context →
      m.heap.fetchField v i ≠ .ok b) : Contained (.sparing (· = b)) m := by
  have hwithin : Regime.Within ⟨fun _ => False, False⟩ g := ⟨fun _ => False.elim, False.elim⟩
  have hplain := hm.fewer hwithin
  have hf := hplain.framed
  refine ⟨{ hf with roles := ?_, fitting := ?_, blocks := ?_ }, ?_, hm.entry, hm.wait⟩
  · intro x v i role new hx hrole hfetch
    refine (hf.roles x v i role new hx hrole hfetch).fills.suits_of_ne ?_
    rintro rfl rfl
    exact hfields x v i hx hrole hfetch
  · exact fun c hc hfilled => Fitting.fewer False.elim (hf.fitting c hc hfilled)
  · rintro _ rfl
    exact htype
  · exact hplain.frame.imp_right fun hl => { hl with live := hactive }

/-- Nothing leads to a block that has just been made. -/
theorem Contained.presented_idle (hm : Contained g m)
    (hd : IsDraft m .blockContext n b xs m')
    (hp : Presentable g m.known m.heap .blockContext n xs) : Contained (.sparing (· = b)) m' := by
  have hs : Stays g true m m' := (hm.presented (.inr rfl) hd hp).1
  obtain ⟨h, hd, rfl⟩ := hd
  have hstale : ¬Suits g m.known m.heap .context b := by
    rintro (rfl | hserves)
    · obtain ⟨t, ht⟩ := Heap.exists_typeOf_of_count hm.framed.nil_empty
      exact hd.stale t ht
    · obtain ⟨t, ht⟩ := hserves.1.exists_type
      exact hd.stale t ht
  refine hs.contained.idling hd.type_eq ?_ ?_
  · rintro rfl
    exact hstale hm.fills_active
  · intro x v i hx hrole hfetch
    by_cases heq : v = b
    · subst heq
      obtain ⟨-, hself⟩ := (hd.self i v).mp hfetch
      obtain rfl : x = .context := hs.contained.framed.has_unique hx (.inr hd.type_eq)
      rw [Holder.role] at hrole
      split at hrole
      · next hi =>
        rcases hi with rfl | rfl
        · exact hstale (hself ▸ hp.sender)
        · exact hstale (hself ▸ hp.caller)
      · cases hrole
    · have hold := (hd.other v i b heq).mp hfetch
      have hx := hm.framed.has_of_widened (hm.framed.widened_of_presentable (.inr rfl) hd hp)
        (Heap.exists_typeOf_of_fetchField hold) hx
      exact hstale (hm.framed.roles x v i .context b hx hrole hold)

/-- When a block has been pushed, nothing leads to it. -/
theorem Contained.blockCopied (hm : Contained g m) {argc : UInt8} {length : UInt16}
    (hrun : blockCopy argc length m = .ok () m')
    (htop : m'.heap.fetchField m'.regs.activeContext m'.regs.sp = .ok b) :
    Contained (.sparing (· = b)) m' := by
  have houtcome : Ensures _ _ _ fun _ t => Stays g true m t := ensures_blockCopy hm argc length
  have houtcome := houtcome m rfl
  rw [hrun] at houtcome
  obtain ⟨n, block, xs, m₁, m₂, hd, hp, hpush, rfl⟩ := houtcome
  have hpushed : m₂.heap.fetchField m₂.regs.activeContext m₂.regs.sp = .ok block :=
    fetchField_of_push hpush
  cases htop.symm.trans hpushed
  have hm₁ := hm.presented_idle hd hp
  have hs : Stays (.sparing (· = b)) true m₁ m₂ := ((yields_push hm₁ b).answer hpush).1
  have hjumped : Stays (.sparing (· = b)) true m₂
      { m₂ with regs := { m₂.regs with ip := m.regs.ip + length.toNat } } :=
    hs.contained.withRegs_of_sp ⟨rfl, rfl, rfl, rfl, rfl, rfl⟩ rfl rfl hs.contained.wait
  exact hjumped.contained

end Machine

/-! ## Following a block -/

/-- Where a block is now, and the fields that it was made with. -/
structure Imprint where
  block : Value
  fields : Array Value

/-- The imprint after objects have been moved. -/
def Imprint.map (φ : Handle → Handle) (b : Imprint) : Imprint :=
  ⟨b.block.map φ, b.fields.map (·.map φ)⟩

/-- The block that is followed is idle. -/
def Regime.following (w : Option Imprint) : Regime := .sparing fun v => ∃ b ∈ w, b.block = v

/-- One imprint comes from another by collections, which move blocks and free them. -/
def Later (w w' : Option Imprint) : Prop := w' = none ∨ ∃ φ, w' = w.map (.map φ)

theorem Imprint.map_id (b : Imprint) : b.map id = b := by
  have hsame : ∀ v : Value, v.map id = v := fun v => Value.map_eq_self fun _ _ => rfl
  cases b
  simp only [Imprint.map, hsame, Array.map_id']

theorem Imprint.map_map (φ ψ : Handle → Handle) (b : Imprint) :
    (b.map φ).map ψ = b.map (ψ ∘ φ) := by
  have hcomp : ∀ v : Value, (v.map φ).map ψ = v.map (ψ ∘ φ) := by
    intro v
    cases v <;> rfl
  simp only [Imprint.map, hcomp, Array.map_map, Function.comp_def]

namespace Later

variable {w w' w'' : Option Imprint}

theorem refl (w : Option Imprint) : Later w w := by
  refine .inr ⟨id, ?_⟩
  cases w with
  | none => rfl
  | some b => rw [Option.map_some, Imprint.map_id]

theorem trans (hfirst : Later w w') (hsecond : Later w' w'') : Later w w'' := by
  rcases hsecond with rfl | ⟨ψ, rfl⟩
  · exact .inl rfl
  · rcases hfirst with rfl | ⟨φ, rfl⟩
    · exact .inl rfl
    · refine .inr ⟨ψ ∘ φ, ?_⟩
      cases w with
      | none => rfl
      | some b => rw [Option.map_some, Option.map_some, Option.map_some, Imprint.map_map]

end Later

namespace Machine

variable {w w' : Option Imprint}

/-- The machine is in a state of some execution.  If there is an imprint, it is that of a block pushed
in the course of the execution that has not been freed since. -/
inductive Tracked : Machine → Option Imprint → Prop where
  | created {settings : Settings} {m : Machine} : create settings = .ok m → Tracked m none
  /-- A block instruction, with the instruction pointer behind it.  From now on its block is
  followed. -/
  | pushed {m m' : Machine} {w : Option Imprint} {argc : UInt8} {length : UInt16} {ip : Nat}
      {b : Value} {xs : Array Value} : Tracked m w →
      blockCopy argc length { m with regs := { m.regs with ip } } = .ok () m' →
      m'.heap.fetchField m'.regs.activeContext m'.regs.sp = .ok b → m'.heap.fields b = .ok xs →
      Tracked m' (some ⟨b, xs⟩)
  /-- Anything that abstains from blocks, also outside of runs. -/
  | changed {m m' : Machine} {w : Option Imprint} (result : Option Value) : Tracked m w →
      m'.known = m.known → m'.regs = { m.regs with result } →
      Heap.Grows runLandmarks m.known m.heap m'.heap → Abstains m.known m.heap m'.heap → Tracked m' w
  | started {m : Machine} {w : Option Imprint} (method receiver : Value) (arguments : List Value) :
      Tracked m w → Tracked (stateAfter (startMethod method receiver arguments m)) w
  | housekept {m : Machine} {w : Option Imprint} (fuel : Nat) : Tracked m w →
      Tracked (stateAfter (housekeeping fuel m)) w
  /-- A collection for which the pointers cannot be saved, so that it does not begin. -/
  | unsaved {m m₁ : Machine} {w : Option Imprint} {fault : Fault} : Tracked m w →
      flush m = .error fault m₁ → Tracked (stateAfter (collectGarbage m)) w
  /-- A collection that keeps the block and moves it. -/
  | collected {m m₁ : Machine} {w : Option Imprint} {cycle : Heap.Cycle} {φ : Handle → Handle} :
      Tracked m w → flush m = .ok () m₁ → (m₁.heap.collect m₁.roots).result = .ok cycle →
      Relocated φ m₁ m₁.collected → (∀ b ∈ w, Heap.Kept m₁.heap m₁.roots b.block) →
      Tracked (stateAfter (collectGarbage m)) (w.map (.map φ))
  /-- A collection that frees the block. -/
  | freed {m m₁ : Machine} {b : Imprint} {cycle : Heap.Cycle} : Tracked m (some b) →
      flush m = .ok () m₁ → (m₁.heap.collect m₁.roots).result = .ok cycle →
      ¬Heap.Kept m₁.heap m₁.roots b.block → Tracked (stateAfter (collectGarbage m)) none
  | stepped {m : Machine} {w : Option Imprint} : Tracked m w →
      step m = stepWith (restrict Abstains) m → Tracked (stateAfter (step m)) w

/-- Nothing leads to the block that is followed, and it has the fields that it was made with. -/
structure Preserved (w : Option Imprint) (m : Machine) : Prop where
  contained : Contained (.following w) m
  fields : ∀ b ∈ w, m.heap.fields b.block = .ok b.fields

namespace Preserved

/-- What is done under the regime does not concern the block. -/
theorem moves (hw : Preserved w m) (hs : Moves (.following w) strict m m') : Preserved w m' := by
  refine ⟨hs.contained, fun b hb => ?_⟩
  have hidle : (Regime.following w).idle b.block := ⟨b, hb, rfl⟩
  have htype := hw.contained.framed.blocks b.block hidle
  exact Heap.fields_of_fetchField (hs.kept.counts b.block _ ⟨_, htype⟩).mpr
    (fun i x => hs.kept.spared b.block i x hidle) (hw.fields b hb)

/-- After a collection the images of the blocks that it has kept are followed. -/
theorem collected (hw : Preserved w m) {cycle : Heap.Cycle} {φ : Handle → Handle}
    (hflush : flush m = .ok () m₁) (hcollect : (m₁.heap.collect m₁.roots).result = .ok cycle)
    (hr : Relocated φ m₁ m₁.collected)
    (himages : ∀ b' ∈ w', ∃ b ∈ w, Heap.Kept m₁.heap m₁.roots b.block ∧ b.map φ = b') :
    Preserved w' (stateAfter (collectGarbage m)) := by
  have hsaved : Stays (.following w) true m m₁ := ((yields_flush hw.contained).answer hflush).1
  have hw₁ := hw.moves hsaved.moves
  obtain ⟨hcontained, hmoves⟩ : Contained (m₁.images φ (.following w)) m₁.collected ∧
      Moves (m₁.images φ (.following w)) true m₁.collected (stateAfter (collectGarbage m)) :=
    moves_collectGarbage hw.contained hflush hcollect hr
  have hidle : ∀ b' ∈ w', (m₁.images φ (.following w)).idle b'.block := by
    intro b' hb'
    obtain ⟨b, hb, hkept, rfl⟩ := himages b' hb'
    exact ⟨b.block, hkept, ⟨b, hb, rfl⟩, rfl⟩
  refine ⟨hmoves.contained.fewer ⟨?_, False.elim⟩, fun b' hb' => ?_⟩
  · rintro v ⟨b', hb', rfl⟩
    exact hidle b' hb'
  · have htype := hcontained.framed.blocks _ (hidle b' hb')
    have hcollected : m₁.collected.heap.fields b'.block = .ok b'.fields := by
      obtain ⟨b, hb, hkept, rfl⟩ := himages b' hb'
      exact hr.heap.fields_map hr.settled' hkept (hw₁.fields b hb)
    exact Heap.fields_of_fetchField (hmoves.kept.counts _ _ ⟨_, htype⟩).mpr
      (fun i x => hmoves.kept.spared _ i x (hidle b' hb')) hcollected

end Preserved

namespace Tracked

/-- No event of an execution concerns the block that is followed. -/
theorem preserved (hm : Tracked m w) : Preserved w m := by
  induction hm with
  | created hcreate =>
      refine ⟨(contained_create hcreate).fewer ⟨?_, False.elim⟩, nofun⟩
      rintro v ⟨b, hb, -⟩
      cases hb
  | @pushed m m' w argc length ip b xs _ hrun htop hfields ih =>
      have hfetched : Stays (.following w) true m { m with regs := { m.regs with ip } } :=
        ih.contained.withRegs_of_sp ⟨rfl, rfl, rfl, rfl, rfl, rfl⟩ rfl rfl ih.contained.wait
      refine ⟨(hfetched.contained.blockCopied hrun htop).fewer ⟨?_, id⟩, ?_⟩
      · rintro v ⟨b', hb', rfl⟩
        cases hb'
        rfl
      · rintro b' hb'
        cases hb'
        exact hfields
  | changed result _ hknown hregs hg ha ih =>
      have hpermits := ha.permits ih.contained.framed hg id
      exact ih.moves (moves_change ih.contained result hknown hregs hg hpermits)
  | @started m w method receiver arguments _ ih =>
      have hstarted : Moves (.following w) false m (stateAfter _) :=
        (yields_startMethod ih.contained method receiver arguments).after
      exact ih.moves hstarted
  | @housekept m w fuel _ ih =>
      have hkept : Moves (.following w) false m (stateAfter _) :=
        (yields_housekeeping ih.contained fuel).after
      exact ih.moves hkept
  | @unsaved m m₁ w fault _ hflush ih =>
      have hsaved : Stays (.following w) true m (stateAfter (flush m)) :=
        (yields_flush ih.contained).after
      rw [hflush] at hsaved
      rw [collectGarbage_eq_error hflush]
      exact ih.moves hsaved.moves
  | collected _ hflush hcollect hr hkept ih =>
      refine ih.collected hflush hcollect hr fun b' hb' => ?_
      obtain ⟨b, hb, heq⟩ := Option.mem_map.mp hb'
      exact ⟨b, hb, hkept b hb, heq⟩
  | @freed m m₁ b cycle _ hflush hcollect _ ih =>
      have hsaved : Stays (.following (some b)) true m m₁ :=
        ((yields_flush ih.contained).answer hflush).1
      obtain ⟨φ, hr⟩ := relocated_collected hsaved.contained.framed.settled hcollect
      exact ih.collected hflush hcollect hr nofun
  | @stepped m w _ hconfined ih =>
      have hstepped : Moves (.following w) false _ _ :=
        moves_step (guards_abstains id) ih.contained nofun
      rw [hconfined]
      exact ih.moves hstepped

/-- What leaves heap and registers alone leads on. -/
theorem counted (hm : Tracked m w) (result : Option Value) (hknown : m'.known = m.known)
    (hregs : m'.regs = { m.regs with result }) (hheap : m'.heap = m.heap) : Tracked m' w := by
  have hf := hm.preserved.contained.framed
  refine hm.changed result hknown hregs ?_ ?_
  · rw [hheap]
    exact .refl hf.settled
  · rw [hheap]
    exact ⟨fun _ _ _ => rfl, rfl,
      fun x v i role new hx hrole hfetch => (hf.roles x v i role new hx hrole hfetch).fills,
      fun _ _ _ => .inl⟩

/-- A collection that does not fail moves the block or frees it. -/
theorem collect (hm : Tracked m w) (hcollect : Collectable m) :
    ∃ w', Later w w' ∧ Tracked (stateAfter (collectGarbage m)) w' := by
  cases hflush : flush m with
  | error fault m₁ => exact ⟨w, .refl w, hm.unsaved hflush⟩
  | ok u m₁ =>
      obtain ⟨cycle, hcycle⟩ := hcollect m₁ hflush
      have hsaved : Stays (.following w) true m m₁ :=
        ((yields_flush hm.preserved.contained).answer hflush).1
      obtain ⟨φ, hr⟩ := relocated_collected hsaved.contained.framed.settled hcycle
      by_cases hkept : ∀ b ∈ w, Heap.Kept m₁.heap m₁.roots b.block
      · exact ⟨w.map (.map φ), .inr ⟨φ, rfl⟩, hm.collected hflush hcycle hr hkept⟩
      · cases w with
        | none => exact absurd nofun hkept
        | some b =>
            have hfreed : ¬Heap.Kept m₁.heap m₁.roots b.block := fun hb => hkept fun b' hb' => by
              cases hb'
              exact hb
            exact ⟨none, .inl rfl, hm.freed hflush hcycle hfreed⟩

/-- The machine is in a state of an execution that goes on from one with the imprint `w`. -/
def Onward (w : Option Imprint) (m : Machine) : Prop := ∃ w', Later w w' ∧ Tracked m w'

theorem keeps_tidy (w : Option Imprint) (fuel : Nat) : Keeps (Onward w) (tidy fuel) := by
  have hticks : ∀ n : Nat → Nat,
      Keeps (Onward w) (modify fun m => { m with ticks := n m.ticks } : MachineM Unit) :=
    fun n m ⟨w', hlater, hm⟩ => ⟨w', hlater, hm.counted m.regs.result rfl rfl rfl⟩
  refine (hticks (· + 1)).bind fun _ => Keeps.bind (fun _ => id) fun m₀ => Keeps.ite ?_ (.pure _)
  exact (hticks fun _ => 0).bind fun _ m ⟨w', hlater, hm⟩ => ⟨w', hlater, hm.housekept fuel⟩

/-- Following a block lasts as long as a run whose stores abstain from blocks. -/
theorem lasting (w : Option Imprint) :
    Lasting (restrict Abstains) (Onward w) (Onward w) fun _ => Onward w where
  tidy fuel := (keeps_tidy w fuel).ensures
  collect := by
    refine Ensures.of_after ?_
    rintro m ⟨⟨w', hlater, hm⟩, hcollect⟩
    obtain ⟨w'', hlater', hm'⟩ := hm.collect hcollect
    exact ⟨w'', hlater.trans hlater', hm'⟩
  step := Ensures.of_after fun m ⟨⟨w', hlater, hm⟩, hconfined⟩ => ⟨w', hlater, hm.stepped hconfined⟩
  count m := fun ⟨w', hlater, hm⟩ => ⟨w', hlater, hm.counted none rfl rfl rfl⟩
  outOfBudget _ := id

/-- Wherever a run ends, with a result or with a fault, the block has been moved or freed. -/
theorem runMethod (hm : Tracked m w) {budget : Nat} (method receiver : Value)
    (arguments : List Value) (hconfined : ∀ m', startMethod method receiver arguments m = .ok () m' →
      RunsAs (restrict Abstains) budget m') :
    Onward w (stateAfter (runMethod budget method receiver arguments m)) := by
  have hstart : Keeps (Onward w) (startMethod method receiver arguments) :=
    fun _ ⟨w', hlater, hm⟩ => ⟨w', hlater, hm.started method receiver arguments⟩
  exact ((lasting w).runMethod hstart.ensures).after ⟨⟨w, .refl w, hm⟩, hconfined⟩

end Tracked

end Machine

end MessageMachine
