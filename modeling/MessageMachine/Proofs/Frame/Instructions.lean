import MessageMachine.Proofs.Frame.Activation
import MessageMachine.Proofs.Frame.Confinement
import MessageMachine.Proofs.Frame.Scheduler
import MessageMachine.Proofs.Machine.Conduct

/-!
# Instructions keep the operand stack inside its frame

`Turning.conducts` goes through the parts of an instruction: whatever a part does before a context is
activated or left, the same context stays active (`Stays`).  What is then true of whole instructions
is what is true of activating and leaving contexts.

`moves_step` is one conclusion for confined instructions: in the end, whichever context is active, the
machine is contained and has kept what has to stay (`Moves`).  In the strict sense, in which temporaries
of contexts count among what stays, it is true of all instructions but the one that stores a
temporary.
-/

namespace MessageMachine

namespace Machine

variable {m m' : Machine} {strict : Bool} {g : Regime}

/-! ## Returns -/

theorem yields_markLeft (hm : Contained g m) {context : Value}
    (hcontext : Suits g m.known m.heap .context context)
    (hplace : context = m.regs.activeContext ∨ context = m.regs.homeContext) :
    Yields (Stays g strict) (markLeft context) (fun _ _ => True) m := by
  refine yields_landmark_bind ?_
  have hdiscreet : Discreet strict m context Slot.ip (m.known .nil) :=
    hplace.imp_right fun hhome => ⟨hhome, .inl ⟨rfl, rfl⟩⟩
  exact (yields_storeContext hm hcontext hdiscreet fun _ _ => .inl rfl).weaken (fun _ => id)
    fun _ _ _ _ => trivial

theorem yields_resume (hm : Contained g m) {target : Value}
    (htarget : Suits g m.known m.heap .context target) (v : Value) :
    Yields (Moves g strict) (resume target v) (fun _ _ => True) m := by
  refine yields_landmark_bind (Yields.ite (fun _ => ?_) fun hne => ?_)
  · exact (yields_processFinished hm v).weaken (fun _ => Rests.moves) fun _ _ _ => id
  refine yields_read_bind (Stays.refl hm).moves fun left _ => ?_
  refine Yields.ite (fun _ => Yields.throw (Stays.refl hm).moves) fun _ => ?_
  exact yields_wake hm (htarget.resolve_left hne) v

/-! ## Primitives -/

/-- A message is performed after its arguments have been moved over the selector. -/
theorem yields_moveArguments (hm : Contained g m) {argc : Nat} (hpos : 0 < argc) {selector : Value}
    (hargument : m.argument argc 0 = .ok selector) :
    Yields (Stays g strict) (onHeap (Heap.transferFields m.regs.activeContext
      (m.regs.sp + 1 - argc + 1) m.regs.activeContext (m.regs.sp + 1 - argc) (argc - 1)))
      (fun _ _ => True) m := by
  obtain ⟨hdepth, hfetch⟩ := stackValue_eq_ok hargument
  have hl := hm.loaded hfetch
  have hbase : m.regs.stackBase ≤ m.regs.sp + 1 - argc := by omega
  unfold Yields
  rw [onHeap_run]
  cases hrun : Heap.transferFields m.regs.activeContext (m.regs.sp + 1 - argc + 1)
      m.regs.activeContext (m.regs.sp + 1 - argc) (argc - 1) m.heap with
  | error fault h =>
      change Stays g strict m (m.withHeap h)
      rw [Heap.heap_of_transfer_error hrun, withHeap_self]
      exact .refl hm
  | ok u h =>
      have haltered := (Heap.transferred_of_eq_ok hm.framed.settled hrun).altered
      have hharmless : Harmless g strict m.known m.heap m.regs.activeContext
          (fun n => m.regs.sp + 1 - argc ≤ n ∧ n < m.regs.sp + 1 - argc + (argc - 1)) h := by
        have hslot : ∀ {n}, m.regs.sp + 1 - argc ≤ n → Slot.contextTail ≤ n := fun hn =>
          Nat.le_trans hl.tail (Nat.le_trans hbase hn)
        refine hm.framed.harmless_context ⟨hl.context, hl.live⟩ ?_ ?_ ?_ ?_
        · exact fun n hn => .inr (.inr (.inr (hslot hn.1)))
        · exact fun hn => absurd (hslot hn.1) (by decide)
        · exact fun hn => absurd (hslot hn.1) (by decide)
        · exact fun hrigid _ n hn => hl.not_temporary hrigid fun _ => Nat.le_trans hbase hn.1
      have hothers : Dormant strict m (m.withHeap h) := fun c i x _ hne hx =>
        .inl ((haltered.other c i x (.inl hne)).mpr hx)
      exact ⟨hm.withHeap (hm.framed.altered haltered hharmless) (hharmless.kept haltered) hothers, trivial⟩

/-- An action that adds to the heap, or changes what has no fields. -/
theorem yields_onHeap (hm : Contained g m) {action : HeapM α}
    (hextends : Heap.Extends (m.known .nil) m.heap (stateAfter (action m.heap))) :
    Yields (Stays g strict) (onHeap action) (fun _ _ => True) m := by
  have hw := hm.framed.widened_of_extends hextends
  have hs : Stays g strict m (m.withHeap (stateAfter (action m.heap))) :=
    (hm.widened hw).of_strict
  unfold Yields
  rw [onHeap_run]
  cases hrun : action m.heap with
  | ok v h =>
      rw [hrun] at hs
      exact ⟨hs, trivial⟩
  | error fault h =>
      rw [hrun] at hs
      exact hs

/-- A new object of a type of the program. -/
theorem yields_instantiate (hm : Contained g m) (type : Value) (indexed : Nat) :
    Yields (Stays g strict) (instantiate type indexed) (fun _ _ => True) m := by
  have hsettled := hm.framed.settled
  refine yields_read_bind (.refl hm) fun format _ => yields_read_bind (.refl hm) fun fixed _ => ?_
  refine Yields.ite (fun _ => Yields.throw (.refl hm)) fun _ => ?_
  split
  · refine yields_landmark_bind (yields_onHeap hm (.of_allocate hsettled rfl (fun xs hxs x hx => ?_) _))
    cases hxs
    exact (Array.mem_replicate.mp hx).2
  · refine yields_onHeap hm ?_
    unfold Heap.allocateBytes
    rw [bind_run]
    cases hread : Heap.read (·.checkSize (Header.wordsForBytes indexed)) m.heap with
    | ok u h =>
        obtain ⟨-, rfl⟩ := Heap.read_eq_ok.mp hread
        exact .of_allocate hsettled rfl (fun xs hxs => by cases hxs) .bytes
    | error fault h =>
        rw [Heap.heap_of_read_error hread]
        exact .refl hsettled
  · exact yields_onHeap hm (.of_allocate hsettled rfl (fun xs hxs => by cases hxs) .words)

theorem yields_newSemaphore (hm : Contained g m) :
    Yields (Stays g strict) newSemaphore (fun _ _ => True) m := by
  refine (yields_newObject hm .semaphore _).bind fun semaphore m₁ hs₁ hsemaphore => ?_
  exact (yields_storeExcess hs₁.contained (.inr hsemaphore) _).bind fun _ m₂ hs₂ _ =>
    Yields.pure (.refl hs₂.contained) trivial

/-! ## Whole instructions -/

/-- From contained machines the same context stays active. -/
def StaysFrom (g : Regime) (strict : Bool) (m m' : Machine) : Prop := Contained g m → Stays g strict m m'

/-- From contained machines the relation leads to what can be found after an instruction. -/
def TurnsFrom (g : Regime) (R : Machine → Machine → Prop) (m m' : Machine) : Prop :=
  Contained g m → R m m'

/-- The relation is between machines before and after an instruction: it goes on from where the same
context has stayed active, and contains what activates a context and what goes on with one. -/
structure Turning (g : Regime) (strict : Bool) (R : Machine → Machine → Prop) : Prop where
  stays : ∀ {m m'}, Stays g strict m m' → R m m'
  trans : ∀ {m m' m''}, Stays g strict m m' → R m' m'' → R m m''
  method : ∀ {m method header}, Contained g m → (∃ t, m.heap.typeOf method = .ok t) →
    (g.rigid → m.heap.typeOf method = .ok (m.known .compiledMethod) →
      HeaderOf m.heap method header) →
    ∀ argc, Ensures (m = ·) (activateMethod method header argc) (fun _ m' => R m m')
      fun _ m' => Stays g strict m m'
  block : ∀ {m block}, Contained g m → m.heap.typeOf block = .ok (m.known .blockContext) →
    ∀ source first argc consumed,
      Ensures (m = ·) (activateBlock block source first argc consumed) (fun _ m' => R m m')
        fun _ m' => Stays g strict m m'
  resume : ∀ {m target}, Contained g m → Suits g m.known m.heap .context target →
    ∀ v, R m (stateAfter (resume target v m))

theorem turning_moves (strict : Bool) : Turning g strict (Moves g strict) where
  stays := Stays.moves
  trans := Stays.trans_moves
  method hm := ensures_activateMethod hm
  block hm := ensures_activateBlock hm
  resume hm htarget v := (yields_resume hm htarget v).after

theorem abides_of_yields {action : MachineM α} {Q : Machine → α → Machine → Prop}
    (h : ∀ m, Contained g m → Yields (Stays g strict) action (Q m) m) :
    Abides (StaysFrom g strict) action :=
  fun m hm => (h m hm).after

theorem typeOf_of_isInstance {v : Value} {type : Landmark} (h : m.isInstance v type = .ok true) :
    m.heap.typeOf v = .ok (m.known type) := by
  unfold isInstance at h
  cases v with
  | object a =>
      obtain ⟨t, ht, heq⟩ := reading_bind_eq_ok.mp h
      rw [liftFault_eq_ok.mp ht, of_decide_eq_true (reading_pure_eq_ok.mp heq)]
  | int n => cases h
  | bytes a => cases h
  | words a => cases h

namespace Turning

variable {R : Machine → Machine → Prop} (ht : Turning g strict R)
include ht

theorem conduct : Conduct (StaysFrom g strict) (TurnsFrom g R) := by
  refine ⟨fun m hm => .refl hm, fun hfirst hsecond hm => ?_, fun hs hm => ht.stays (hs hm),
    fun hfirst hsecond hm => ?_, fun hs hm => hm.restore (hs hm)⟩
  · exact (hfirst hm).trans (hsecond (hfirst hm).contained)
  · exact ht.trans (hfirst hm) (hsecond (hfirst hm).contained)

/-! ### Returns -/

/-- What comes after an action that leaves the same context active. -/
theorem bind {x : MachineM α} {f : α → MachineM β} {Q : α → Machine → Prop} {P : β → Machine → Prop}
    (hx : Yields (Stays g strict) x Q m)
    (hf : ∀ a m₁, Stays g strict m m₁ → Q a m₁ → Yields R (f a) P m₁) :
    Yields R (x >>= f) P m :=
  have : Trans (Stays g strict) R R := ⟨ht.trans⟩
  hx.bind_to (fun _ => ht.stays) hf

theorem yields_methodReturn (hm : Contained g m) (v : Value) :
    Yields R (methodReturn v) (fun _ _ => True) m := by
  refine yields_get_bind ?_
  have hgo : ∀ m₁, Stays g strict m m₁ → Yields R (do
        let target ← fetchField m.regs.homeContext Slot.sender
        markLeft m.regs.homeContext
        Machine.resume target v) (fun _ _ => True) m₁ := by
    intro m₁ hs₁
    refine yields_fetchField_bind (ht.stays (.refl hs₁.contained)) fun target htarget => ?_
    have hhome := hs₁.fills hm.fills_home
    have htarget : Suits g m₁.known m₁.heap .context target :=
      hs₁.contained.framed.roles .context _ _ _ _
        (hs₁.contained.framed.plays_of_fetchField hhome htarget).1 rfl htarget
    exact ht.bind (yields_markLeft hs₁.contained hhome (.inr hs₁.same.home.symm)) fun _ m₂ hs₂ _ =>
      .of_after (ht.resume hs₂.contained (hs₂.fills htarget) v)
  refine Yields.ite (fun _ => ?_) fun _ => hgo m (.refl hm)
  refine yields_read_bind (ht.stays (.refl hm)) fun left _ => ?_
  refine Yields.ite (fun _ => Yields.throw (ht.stays (.refl hm))) fun _ => ?_
  exact ht.bind (yields_markLeft hm hm.fills_active (.inl rfl)) fun _ m₁ hs₁ _ => hgo m₁ hs₁

theorem yields_blockReturn (hm : Contained g m) (v : Value) :
    Yields R (blockReturn v) (fun _ _ => True) m := by
  refine yields_get_bind (Yields.ite (fun _ => ht.yields_methodReturn hm v) fun _ => ?_)
  refine yields_fetchField_bind (ht.stays (.refl hm)) fun caller hcaller => ?_
  have hcaller : Suits g m.known m.heap .context caller := hm.framed.roles .context _ _ _ _
    (hm.framed.plays_of_fetchField hm.fills_active hcaller).1 rfl hcaller
  refine yields_landmark_bind ?_
  have hforget : Yields (Stays g strict) (storeField m.regs.activeContext Slot.caller (m.known .nil)) _ m :=
    yields_storeContext hm hm.fills_active (.inl rfl) fun _ _ => .inr (.inl ⟨rfl, .inl rfl⟩)
  refine ht.bind hforget fun _ m₁ hs₁ _ => ?_
  refine ht.bind (yields_markLeft hs₁.contained (hs₁.fills hm.fills_active)
    (.inl hs₁.same.context.symm)) fun _ m₂ hs₂ _ => ?_
  exact .of_after (ht.resume hs₂.contained (hs₂.fills (hs₁.fills hcaller)) v)

theorem leave (hm : Contained g m) (kind : ReturnKind) : R m (stateAfter (leave kind m)) := by
  have hpop : ∀ {f : Value → MachineM Unit},
      (∀ m₁ v, Contained g m₁ → Yields R (f v) (fun _ _ => True) m₁) →
      Yields R (pop >>= f) (fun _ _ => True) m := fun hf =>
    ht.bind (yields_pop hm) fun v m₁ hs₁ _ => hf m₁ v hs₁.contained
  cases kind with
  | receiver => exact (yields_get_bind (ht.yields_methodReturn hm _)).after
  | true => exact (yields_landmark_bind (ht.yields_methodReturn hm _)).after
  | false => exact (yields_landmark_bind (ht.yields_methodReturn hm _)).after
  | nil => exact (yields_landmark_bind (ht.yields_methodReturn hm _)).after
  | topToSender => exact (hpop fun _ v hm₁ => ht.yields_methodReturn hm₁ v).after
  | topToCaller => exact (hpop fun _ v hm₁ => ht.yields_blockReturn hm₁ v).after

/-! ### Primitives and sends -/

/-- An action that makes another context active at its end, or fails before. -/
theorem departed_of_ensures {action : MachineM α} (h : Contained g m → Ensures (m = ·) action
      (fun _ m' => R m m') fun _ m' => Stays g strict m m') :
    Departed (StaysFrom g strict) (TurnsFrom g R) m (action m) := by
  cases hrun : action m with
  | ok a m' =>
      intro hm
      have houtcome := h hm m rfl
      rwa [hrun] at houtcome
  | error fault m' =>
      have hs : StaysFrom g strict m m' := by
        intro hm
        have houtcome := h hm m rfl
        rwa [hrun] at houtcome
      exact ht.conduct.excused hs fault

theorem attempted_of_yields {action : MachineM Bool} {Q : Bool → Machine → Prop}
    (h : Contained g m → Yields (Stays g strict) action Q m) :
    Attempted (StaysFrom g strict) (TurnsFrom g R) m (action m) := by
  have hs : StaysFrom g strict m (stateAfter (action m)) := fun hm => (h hm).after
  cases hrun : action m with
  | ok done m' =>
      rw [hrun] at hs
      exact ⟨ht.conduct.departs hs, fun _ => hs⟩
  | error fault m' =>
      rw [hrun] at hs
      exact ht.conduct.excused hs fault

theorem attempted_read_bind {f : Machine → Except Fault α}
    {rest : α → MachineM Bool} (hrest : ∀ a, f m = .ok a →
      Attempted (StaysFrom g strict) (TurnsFrom g R) m (rest a m)) :
    Attempted (StaysFrom g strict) (TurnsFrom g R) m ((read f >>= rest) m) := by
  rw [bind_run]
  unfold read
  cases hread : f m with
  | ok a => exact hrest a hread
  | error fault => exact ht.conduct.excused (.refl) fault

theorem attempted_readHeap_bind {f : Heap → Except HeapFault α}
    {rest : α → MachineM Bool} (hrest : ∀ a, f m.heap = .ok a →
      Attempted (StaysFrom g strict) (TurnsFrom g R) m (rest a m)) :
    Attempted (StaysFrom g strict) (TurnsFrom g R) m ((readHeap f >>= rest) m) := by
  rw [bind_run]
  unfold readHeap
  cases hread : f m.heap with
  | ok a => exact hrest a hread
  | error fault => exact ht.conduct.excused (.refl) _

omit ht in
theorem attempted_get_bind {rest : Machine → MachineM Bool}
    (hrest : Attempted (StaysFrom g strict) (TurnsFrom g R) m (rest m m)) :
    Attempted (StaysFrom g strict) (TurnsFrom g R) m ((get >>= rest) m) := hrest

theorem attempted_bind {x : MachineM α} {f : α → MachineM Bool} {Q : α → Machine → Prop}
    (hx : Contained g m → Yields (Stays g strict) x Q m)
    (hf : ∀ a, Attempts (StaysFrom g strict) (TurnsFrom g R) (f a)) :
    Attempted (StaysFrom g strict) (TurnsFrom g R) m ((x >>= f) m) := by
  have hs : StaysFrom g strict m (stateAfter (x m)) := fun hm => (hx hm).after
  rw [bind_run]
  cases hrun : x m with
  | ok a m₁ =>
      rw [hrun] at hs
      exact ht.conduct.trans_attempted hs (hf a m₁)
  | error fault m₁ =>
      rw [hrun] at hs
      exact ht.conduct.excused hs fault

/-- A primitive that declines without having done anything. -/
theorem attempted_decline :
    Attempted (StaysFrom g strict) (TurnsFrom g R) m ((return false : MachineM Bool) m) :=
  ht.attempted_of_yields fun hm => Yields.pure (Q := fun _ _ => True) (.refl hm) trivial

theorem attempted_activateBlock {block : Value} (hblock : m.isBlock block = .ok true) (source : Value)
    (first argc consumed : Nat) : Attempted (StaysFrom g strict) (TurnsFrom g R) m
      ((do activateBlock block source first argc consumed; return true) m) := by
  have hdeparted : Departed (StaysFrom g strict) (TurnsFrom g R) m
      (activateBlock block source first argc consumed m) := ht.departed_of_ensures fun hm =>
    ht.block hm (typeOf_of_isInstance hblock) source first argc consumed
  rw [bind_run]
  cases hrun : activateBlock block source first argc consumed m with
  | ok u m' =>
      rw [hrun] at hdeparted
      exact ⟨hdeparted, nofun⟩
  | error fault m' =>
      rw [hrun] at hdeparted
      exact hdeparted

theorem attempts_blockValue (argc : Nat) :
    Attempts (StaysFrom g strict) (TurnsFrom g R) (blockValue argc) := by
  intro m
  refine ht.attempted_read_bind fun block _ => ht.attempted_read_bind fun isBlock hblock => ?_
  cases isBlock with
  | false => exact ht.attempted_decline
  | true => exact ht.attempted_activateBlock hblock _ _ _ _

theorem attempts_valueWithArguments :
    Attempts (StaysFrom g strict) (TurnsFrom g R) valueWithArguments := by
  intro m
  refine ht.attempted_read_bind fun block _ => ht.attempted_read_bind fun arguments _ => ?_
  refine ht.attempted_read_bind fun isBlock hblock => ?_
  cases isBlock with
  | false => exact ht.attempted_decline
  | true =>
      refine ht.attempted_read_bind fun isArray _ => ?_
      cases isArray with
      | false => exact ht.attempted_decline
      | true =>
          refine ht.attempted_readHeap_bind fun count _ => ht.attempted_read_bind fun expected _ => ?_
          dsimp only
          split
          · exact ht.attempted_activateBlock hblock _ _ _ _
          · exact ht.conduct.excused .refl _

theorem attempts_perform {send : Value → MachineM Unit} {argc : Nat} (hpos : 0 < argc)
    (hsend : ∀ v, Departs (StaysFrom g strict) (TurnsFrom g R) (send v)) :
    Attempts (StaysFrom g strict) (TurnsFrom g R) (perform send argc) := by
  intro m
  have hperform : ∀ selector, Attempts (StaysFrom g strict) (TurnsFrom g R) (do
      let _ ← pop
      send selector
      return true) := fun selector =>
    ht.conduct.attempts_bind (abides_of_yields fun m hm => yields_pop hm) fun _ =>
      Conduct.attempts_of_departs (hsend selector)
  unfold perform
  refine ht.attempted_read_bind fun selector hargument => ht.attempted_read_bind fun isSymbol _ => ?_
  cases isSymbol with
  | false => exact ht.attempted_decline
  | true =>
      rw [if_pos rfl]
      refine attempted_get_bind (attempted_get_bind ?_)
      exact ht.attempted_bind (fun hm => yields_moveArguments hm hpos hargument) fun _ =>
        hperform selector

theorem attempts_fork : Attempts (StaysFrom g strict) (TurnsFrom g R) forkPrimitive := by
  intro m
  refine ht.attempted_read_bind fun block _ => ht.attempted_read_bind fun isBlock hblock => ?_
  cases isBlock with
  | false => exact ht.attempted_decline
  | true =>
      refine ht.attempted_read_bind fun expected harity => ?_
      dsimp only
      split
      · refine ht.attempted_of_yields (Q := fun _ _ => True) fun hm => ?_
        refine yields_landmark_bind ?_
        refine (yields_instantiateBlock hm (typeOf_of_isInstance hblock) (blockArity_eq_ok harity)
          (.inl rfl)).bind fun context m₁ hs₁ hcontext => ?_
        refine (yields_forkProcess hs₁.contained (.inr hcontext)).bind fun process m₂ hs₂ _ => ?_
        refine (yields_popN hs₂.contained _).bind fun _ m₃ hs₃ _ => ?_
        exact (yields_push hs₃.contained process).bind fun _ m₄ hs₄ _ =>
          Yields.pure (.refl hs₄.contained) trivial
      · exact ht.conduct.excused .refl _

theorem attempts_onSemaphore {action : Value → MachineM Unit}
    (haction : ∀ {m : Machine} {semaphore : Value}, Contained g m →
      Suits g m.known m.heap .semaphore semaphore →
      Yields (Stays g strict) (action semaphore) (fun _ _ => True) m) :
    Attempts (StaysFrom g strict) (TurnsFrom g R) (onSemaphore action) := by
  intro m
  refine ht.attempted_read_bind fun semaphore _ => ht.attempted_read_bind fun isSemaphore htype => ?_
  cases isSemaphore with
  | false => exact ht.attempted_decline
  | true =>
      refine ht.attempted_of_yields (Q := fun _ _ => True) fun hm => ?_
      exact (haction hm (.inr (typeOf_of_isInstance htype))).bind fun _ m₁ hs₁ _ =>
        Yields.pure (.refl hs₁.contained) trivial

/-- A method is activated, perhaps after its primitive has declined. -/
theorem departed_activateMethod {method v : Value} {header : MethodHeader} {argc : Nat}
    (hfetch : m.heap.fetchField method Slot.methodHeader = .ok v)
    (hheader : MethodHeader.ofValue v = .ok header) (hs : StaysFrom g strict m m') :
    Departed (StaysFrom g strict) (TurnsFrom g R) m (activateMethod method header argc m') := by
  suffices h : Contained g m →
      Departed (StaysFrom g strict) (TurnsFrom g R) m (activateMethod method header argc m') by
    cases hrun : activateMethod method header argc m' with
    | ok u m'' =>
        rw [hrun] at h
        exact fun hm => h hm hm
    | error fault m'' =>
        rw [hrun] at h
        exact ⟨fun hm => (h hm).1 hm, fun hdecline hm => (h hm).2 hdecline hm⟩
  intro hm
  have hstays := hs hm
  obtain ⟨t, htype⟩ := Heap.exists_typeOf_of_fetchField hfetch
  refine ht.conduct.trans_departed hs (ht.departed_of_ensures fun hm' =>
    ht.method hm' ⟨t, hstays.kept.types _ _ htype⟩ (fun hrigid hcompiled => ?_) argc)
  rw [hstays.known] at hcompiled
  have hcompiled := type_of_exists hstays.kept.types ⟨t, htype⟩ hcompiled
  exact (hstays.kept.headerOf_iff hrigid hcompiled).mpr ⟨v, hfetch, hheader⟩

theorem conducts {P : Landmarks → Heap → Heap → Prop} (hP : Guards g P) :
    Conducts (restrict P) (StaysFrom g strict) (TurnsFrom g R) := by
  have hregs : ∀ {m : Machine} {r : Registers}, SameFrame m.regs r → r.sp = m.regs.sp →
      r.entryProcess = m.regs.entryProcess → r.entryWait = m.regs.entryWait →
      StaysFrom g strict m { m with regs := r } := fun hs hsp hentry hwait hm =>
    hm.withRegs_of_sp hs hsp hentry (hwait ▸ hm.wait)
  constructor
  case toConduct => exact ht.conduct
  case ip => exact fun m ip => hregs ⟨rfl, rfl, rfl, rfl, rfl, rfl⟩ rfl rfl rfl
  case cache =>
    exact fun m cache hm => ⟨⟨hm.framed, hm.frame, hm.entry, hm.wait⟩, rfl, .refl .., .refl _,
      .of_contexts fun _ _ _ _ => id⟩
  case takeEvent => exact fun m events hm => hm.withSchedule _
  case push => exact fun v => abides_of_yields fun m hm => yields_push hm v
  case pop => exact abides_of_yields fun m hm => yields_pop hm
  case popN => exact fun n => abides_of_yields fun m hm => yields_popN hm n
  case blockCopy =>
    exact fun argc length => abides_of_yields fun m hm => yields_blockCopy hm argc length
  case instantiate =>
    exact fun type indexed => abides_of_yields fun m hm => yields_instantiate hm type indexed
  case storeByte =>
    exact fun v i b => abides_of_yields fun m hm =>
      yields_onHeap hm (.of_storeByte hm.framed.settled v i b)
  case storeWord =>
    exact fun v i w => abides_of_yields fun m hm =>
      yields_onHeap hm (.of_storeWord hm.framed.settled v i w)
  case setField => exact fun v i new m hm => stays_restrict_storeField hP hm v i new
  case setGlobal => exact fun name v m hm => stays_restrict_setGlobal hP hm name v
  case activate =>
    exact fun m m' method header argc v hfetch hheader => ht.departed_activateMethod hfetch hheader
  case leave => exact fun kind m hm => ht.leave hm kind
  case blockValue => exact ht.attempts_blockValue
  case valueWithArguments => exact ht.attempts_valueWithArguments
  case perform => exact fun send argc hpos hsend => ht.attempts_perform hpos hsend
  case fork => exact ht.attempts_fork
  case wait => exact ht.attempts_onSemaphore fun hm => yields_wait hm
  case signal => exact ht.attempts_onSemaphore fun hm => yields_signal hm
  case yield =>
    exact ht.conduct.attempts_of_abides (abides_of_yields (Q := fun _ _ _ => True)
      fun m hm => (yields_yieldProcessor hm).bind fun _ m₁ hs₁ _ =>
        Yields.pure (.refl hs₁.contained) trivial)
  case newSemaphore => exact abides_of_yields fun m hm => yields_newSemaphore hm

/-- A restricted instruction is such a turn.  Temporaries may change by storing one. -/
theorem step {P : Landmarks → Heap → Heap → Prop} (hP : Guards g P) (hm : Contained g m)
    (htemporary : strict = true → ∀ index next, m.fetch ≠ .ok (.popStoreTemporary index, next)) :
    R m (stateAfter (stepWith (restrict P) m)) := by
  refine (ht.conducts hP).stepWith m (fun next index hfetch v => ?_) hm
  cases strict with
  | true => exact absurd hfetch (htemporary rfl index next)
  | false => exact abides_of_yields fun m hm => yields_storeTemporary hm _ v

end Turning

/-- A restricted instruction keeps the machine contained.  Only storing a temporary changes one. -/
theorem moves_step {P : Landmarks → Heap → Heap → Prop} (hP : Guards g P) (hm : Contained g m)
    (htemporary : strict = true → ∀ index next, m.fetch ≠ .ok (.popStoreTemporary index, next)) :
    Moves g strict m (stateAfter (stepWith (restrict P) m)) :=
  (turning_moves strict).step hP hm htemporary

end Machine

end MessageMachine
