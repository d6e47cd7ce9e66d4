import MessageMachine.Proofs.Frame.Callers

/-!
# What a send leaves of the sender's stack

A send looks at its receiver and arguments, perhaps tries a primitive, perhaps turns into another
message, and in the end may activate a method or a block.  Until then the sender is active, and what is
on its stack below the receiver is as it was (`Below`).  When it is left, as many values are dropped as
have been put in the place of the receiver and the arguments (`Sent`).

Most primitives have nothing to do with the sender but to take their operands and to answer
(`below_answer`); what they do before is `Placid`.  Of the actions on processes this is shown by their
doing the same whichever context is active (`Blind`).
-/

namespace MessageMachine

/-- What relates the states tells where the action leads. -/
theorem Yields.relate {σ ε α : Type} {R R' : σ → σ → Prop} {Q : α → σ → Prop} {s : σ}
    {action : EStateM ε σ α} (h : Yields R action Q s) (hR : R' s (stateAfter (action s))) :
    Yields R' action Q s := by
  unfold Yields at h ⊢
  cases hrun : action s with
  | ok a t =>
      rw [hrun] at h hR
      exact ⟨hR, h.2⟩
  | error fault t =>
      rw [hrun] at hR
      exact hR

namespace Machine

variable {m m' m₁ m₂ : Machine} {n : Nat}

/-! ## Placid actions -/

/-- The same context is active as before.  Neither its fields nor the pointers have changed. -/
structure Placid (m m' : Machine) : Prop where
  stays : Stays .plain true m m'
  ip : m'.regs.ip = m.regs.ip
  sp : m'.regs.sp = m.regs.sp
  fields : ∀ i x, m.heap.fetchField m.regs.activeContext i = .ok x →
    m'.heap.fetchField m.regs.activeContext i = .ok x

namespace Placid

theorem refl (hm : Contained .plain m) : Placid m m := ⟨.refl hm, rfl, rfl, fun _ _ => id⟩

theorem contained (hc : Placid m m') : Contained .plain m' := hc.stays.contained

theorem trans (hfirst : Placid m m₁) (hsecond : Placid m₁ m₂) : Placid m m₂ := by
  refine ⟨hfirst.stays.trans hsecond.stays, hsecond.ip.trans hfirst.ip, hsecond.sp.trans hfirst.sp,
    fun i x hx => ?_⟩
  have hx₁ := hfirst.fields i x hx
  rw [← hfirst.stays.same.context] at hx₁ ⊢
  exact hsecond.fields i x hx₁

/-- The heap has changed, but not the active context. -/
theorem withHeap {h : Heap} (hs : Stays .plain true m (m.withHeap h))
    (hfields : ∀ i x, m.heap.fetchField m.regs.activeContext i = .ok x →
      h.fetchField m.regs.activeContext i = .ok x) : Placid m (m.withHeap h) := ⟨hs, rfl, rfl, hfields⟩

end Placid

instance : Trans Placid Placid Placid := ⟨Placid.trans⟩

/-- An action on the heap that leaves the active context as it is. -/
theorem placid_onHeap {action : HeapM α} {Q : α → Machine → Prop}
    (hs : Yields (Stays .plain true) (onHeap action) Q m)
    (hfields : ∀ i x, m.heap.fetchField m.regs.activeContext i = .ok x →
      (stateAfter (action m.heap)).fetchField m.regs.activeContext i = .ok x) :
    Yields Placid (onHeap action) Q m := by
  refine hs.relate ?_
  have hafter := hs.after
  rw [stateAfter_onHeap] at hafter ⊢
  exact .withHeap hafter hfields

/-- An action on the heap does nothing else. -/
theorem yields_onHeap_of_after {R : Machine → Machine → Prop} {action : HeapM α}
    (hR : R m (m.withHeap (stateAfter (action m.heap)))) :
    Yields R (onHeap action) (fun _ m' => m'.regs = m.regs) m := by
  unfold Yields
  rw [onHeap_run]
  cases hrun : action m.heap with
  | ok a h =>
      rw [hrun] at hR
      exact ⟨hR, rfl⟩
  | error fault h =>
      rw [hrun] at hR
      exact hR

theorem placid_extends (hm : Contained .plain m) {action : HeapM α}
    (he : Heap.Extends (m.known .nil) m.heap (stateAfter (action m.heap))) :
    Yields Placid (onHeap action) (fun _ _ => True) m :=
  placid_onHeap (yields_onHeap hm he) fun i x => he.fields _ i x

/-- A draft is another object than the active context. -/
theorem placid_of_draft (hs : Stays .plain true m m') {type : Landmark} {k : Nat} {c : Value}
    {xs : Nat → Value} (hd : IsDraft m type k c xs m') : Placid m m' := by
  obtain ⟨h, hd, rfl⟩ := hd
  exact .withHeap hs fun i x hx => (hd.other _ i x (hd.ne (Heap.exists_typeOf_of_fetchField hx))).mpr hx

/-- A confined store does not concern contexts. -/
theorem placid_confine (hm : Contained .plain m) {action : MachineM Unit} {h : Heap}
    (hafter : stateAfter (action m) = m.withHeap h) (hg : Heap.Grows runLandmarks m.known m.heap h) :
    Placid m (stateAfter (confine action m)) := by
  have hs : Stays .plain true m (stateAfter (confine action m)) :=
    stays_restrict guards_respects hm hafter hg
  by_cases hr : Respects m.known m.heap (stateAfter (action m)).heap
  · rw [confine_of_respects hr, hafter] at hs ⊢
    rw [hafter] at hr
    refine .withHeap hs fun i x hx => ?_
    exact (hr.contexts _ i (hm.loaded hx).context).trans hx
  · have hnone : confine action m = .ok () m := if_neg hr
    rw [hnone]
    exact .refl hm

theorem placid_storeField (hm : Contained .plain m) (v : Value) (i : Nat) (new : Value) :
    Yields Placid (confine (storeField v i new)) (fun _ _ => True) m :=
  .of_after (placid_confine hm (stateAfter_onHeap _)
    (Heap.keeps_grows_storeField v new i _ (.refl hm.framed.settled)))

/-! ## Actions that do not know which context is active -/

/-- The machine with the registers of another context. -/
def reframed (m : Machine) (r : Registers) : Machine :=
  { m with
    regs := { r with
      entryProcess := m.regs.entryProcess
      entryWait := m.regs.entryWait
      result := m.regs.result } }

/-- The action does the same whichever context is active, and leaves it active. -/
def Blind (action : MachineM α) : Prop :=
  ∀ m r, action (m.reframed r) = match action m with
    | .ok a m' => .ok a (m'.reframed r)
    | .error fault m' => .error fault (m'.reframed r)

namespace Blind

theorem pure {a : α} : Blind (Pure.pure a : MachineM α) := fun _ _ => rfl

theorem bind {x : MachineM α} {f : α → MachineM β} (hx : Blind x) (hf : ∀ a, Blind (f a)) :
    Blind (x >>= f) := by
  intro m r
  rw [bind_run, bind_run, hx m r]
  cases x m with
  | ok a m₁ => exact hf a m₁ r
  | error fault m₁ => rfl

theorem ite {c : Prop} [Decidable c] {x y : MachineM α} (hx : Blind x) (hy : Blind y) :
    Blind (if c then x else y) := by
  split
  · exact hx
  · exact hy

/-- What goes on with something that does not depend on the context. -/
theorem get_bind {f : Machine → MachineM α} (hsame : ∀ m r, f (m.reframed r) = f m)
    (hf : ∀ m, Blind (f m)) : Blind (get >>= f) :=
  fun m r => (congrFun (hsame m r) (m.reframed r)).trans (hf m m r)

theorem landmark {l : Landmark} : Blind (landmark l) := fun _ _ => rfl

theorem read {f : Machine → Except Fault α} (hsame : ∀ m r, f (m.reframed r) = f m) :
    Blind (read f) := by
  intro m r
  unfold Machine.read
  rw [hsame]
  cases f m <;> rfl

theorem onHeap {action : HeapM α} : Blind (onHeap action) := by
  intro m r
  have hheap : (m.reframed r).heap = m.heap := rfl
  rw [onHeap_run, onHeap_run, hheap]
  cases action m.heap <;> rfl

theorem readHeap {f : Heap → Except HeapFault α} : Blind (readHeap f) := by
  intro m r
  have hheap : (m.reframed r).heap = m.heap := rfl
  unfold Machine.readHeap
  rw [hheap]
  cases f m.heap <;> rfl

theorem fetchField {v : Value} {i : Nat} : Blind (fetchField v i) := readHeap

theorem storeField {v : Value} {i : Nat} {new : Value} : Blind (storeField v i new) := onHeap

theorem newObject {type : Landmark} {count : Nat} : Blind (newObject type count) :=
  landmark.bind fun _ => landmark.bind fun _ => onHeap

/-! ### Queues -/

theorem newLink {value next : Value} : Blind (Queue.newLink value next) :=
  newObject.bind fun _ => storeField.bind fun _ => storeField.bind fun _ => pure

theorem pushBack {q : Queue} {value : Value} : Blind (q.pushBack value) := by
  refine landmark.bind fun nil => newLink.bind fun link => fetchField.bind fun last => ?_
  exact ite (storeField.bind fun _ => storeField) (storeField.bind fun _ => storeField)

theorem pushFront {q : Queue} {value : Value} : Blind (q.pushFront value) := by
  refine fetchField.bind fun first => newLink.bind fun link => storeField.bind fun _ => ?_
  exact landmark.bind fun nil => ite storeField pure

theorem popFront {q : Queue} : Blind q.popFront := by
  refine landmark.bind fun nil => fetchField.bind fun first => ite pure ?_
  refine fetchField.bind fun value => fetchField.bind fun next => storeField.bind fun _ => ?_
  exact ite (storeField.bind fun _ => pure) pure

/-! ### Processes -/

theorem requeueActive : Blind requeueActive := by
  refine (read fun _ _ => rfl).bind fun active => get_bind (fun _ _ => rfl) fun m => ?_
  exact landmark.bind fun nil => ite (get_bind (fun _ _ => rfl) fun m => pushBack) pure

theorem requestSwitch : Blind requestSwitch := fun _ _ => rfl

theorem signal {semaphore : Value} : Blind (signal semaphore) := by
  refine popFront.bind fun found => ?_
  cases found with
  | none => exact (read fun _ _ => rfl).bind fun excess => storeField
  | some waiter =>
      have hqueue : Blind (do
          (Queue.ready (← get)).pushFront waiter
          Machine.requeueActive
          Machine.requestSwitch) :=
        get_bind (fun _ _ => rfl) fun m => pushFront.bind fun _ => requeueActive.bind fun _ =>
          requestSwitch
      refine landmark.bind fun nil => get_bind (fun _ _ => rfl) fun m => ite ?_ hqueue
      have hentry : Blind (modifyRegs ({ · with entryWait := nil })) := fun _ _ => rfl
      exact hentry.bind fun _ => hqueue

theorem wait {semaphore : Value} : Blind (wait semaphore) := by
  refine (read fun _ _ => rfl).bind fun excess => ite storeField ?_
  refine (read fun _ _ => rfl).bind fun active => pushBack.bind fun _ => ?_
  refine get_bind (fun _ _ => rfl) fun m => ite ?_ requestSwitch
  have hentry : Blind (modifyRegs ({ · with entryWait := semaphore })) := fun _ _ => rfl
  exact hentry.bind fun _ => requestSwitch

theorem yieldProcessor : Blind yieldProcessor := by
  refine landmark.bind fun processor => fetchField.bind fun first => landmark.bind fun nil => ?_
  exact ite pure (requeueActive.bind fun _ => requestSwitch)

theorem forkProcess {context : Value} : Blind (forkProcess context) := by
  refine newObject.bind fun process => storeField.bind fun _ => storeField.bind fun _ => ?_
  refine get_bind (fun _ _ => rfl) fun m => pushBack.bind fun _ => ?_
  exact requeueActive.bind fun _ => requestSwitch.bind fun _ => pure

theorem newSemaphore : Blind newSemaphore :=
  newObject.bind fun _ => storeField.bind fun _ => pure

/-! ### New objects -/

theorem throw {fault : Fault} : Blind (MonadExcept.throw fault : MachineM α) := fun _ _ => rfl

theorem instantiate {type : Value} {indexed : Nat} : Blind (instantiate type indexed) := by
  refine (read fun _ _ => rfl).bind fun format => (read fun _ _ => rfl).bind fun fixed => ?_
  refine ite throw ?_
  split
  · exact landmark.bind fun nil => onHeap
  · exact onHeap
  · exact onHeap

theorem instantiateBlock {block caller : Value} : Blind (instantiateBlock block caller) := by
  refine readHeap.bind fun size => newObject.bind fun context => onHeap.bind fun _ => ?_
  refine fetchField.bind fun initialIp => storeField.bind fun _ => storeField.bind fun _ => ?_
  exact storeField.bind fun _ => pure

theorem after {action : MachineM α} (hb : Blind action) (m : Machine) (r : Registers) :
    stateAfter (action (m.reframed r)) = (stateAfter (action m)).reframed r := by
  rw [hb m r]
  cases action m <;> rfl

/-- What is done without regard to the active context leaves it as it is. -/
theorem placid {action : MachineM α} (hb : Blind action) (hm : Contained .plain m)
    {Q : α → Machine → Prop} (hs : ∀ t, Contained .plain t → t.known = m.known → t.heap = m.heap →
      Yields (Stays .plain true) action Q t) : Yields Placid action Q m := by
  have hsame := hs m hm rfl rfl
  have hframe : stateAfter (action m) = (stateAfter (action m)).reframed m.regs := hb.after m m.regs
  refine hsame.relate ⟨hsame.after, by rw [hframe]; rfl, by rw [hframe]; rfl, fun i x hx => ?_⟩
  -- without an active context all contexts are dormant
  have hidle : Contained .plain (m.reframed (.cleared (m.known .nil) (m.known .nil))) :=
    ⟨hm.framed, .inl ⟨rfl, rfl⟩, hm.entry, hm.wait⟩
  have hdormant := (hs _ hidle rfl rfl).after.others
  have hne : m.regs.activeContext ≠ m.known .nil := fun heq =>
    hm.framed.nil_fetchField i x (heq ▸ hx)
  rw [hb.after] at hdormant
  exact (hdormant _ i x (hm.loaded hx).context hne hx).resolve_right fun hhome => hne hhome.1

end Blind

/-! ## What lies below -/

/-- The same context is active as before, and its fields before the one with number `n` are as they
were, except for those in which its pointers are saved. -/
structure Below (n : Nat) (m m' : Machine) : Prop where
  stays : Stays .plain true m m'
  ip : m'.regs.ip = m.regs.ip
  fields : ∀ i x, i < n → i ≠ Slot.ip → i ≠ Slot.sp →
    m.heap.fetchField m.regs.activeContext i = .ok x →
      m'.heap.fetchField m.regs.activeContext i = .ok x

theorem Placid.below (hc : Placid m m') : Below n m m' :=
  ⟨hc.stays, hc.ip, fun i x _ _ _ => hc.fields i x⟩

namespace Below

theorem refl (hm : Contained .plain m) : Below n m m := (Placid.refl hm).below

theorem contained (hb : Below n m m') : Contained .plain m' := hb.stays.contained

theorem context (hb : Below n m m') : m'.regs.activeContext = m.regs.activeContext :=
  hb.stays.same.context

theorem trans (hfirst : Below n m m₁) (hsecond : Below n m₁ m₂) : Below n m m₂ := by
  refine ⟨hfirst.stays.trans hsecond.stays, hsecond.ip.trans hfirst.ip, fun i x hi hip hsp hx => ?_⟩
  have hx₁ := hfirst.fields i x hi hip hsp hx
  rw [← hfirst.context] at hx₁ ⊢
  exact hsecond.fields i x hi hip hsp hx₁

/-- Only registers have changed. -/
theorem of_heap (hs : Stays .plain true m m') (hip : m'.regs.ip = m.regs.ip)
    (hheap : m'.heap = m.heap) : Below n m m' := by
  refine ⟨hs, hip, fun i x _ _ _ hx => ?_⟩
  rwa [hheap]

/-- The stack pointer can be put back. -/
theorem restore (hm : Contained .plain m) (hb : Below n m m') :
    Below n m { m' with regs.sp := m.regs.sp } := ⟨hm.restore hb.stays, hb.ip, hb.fields⟩

end Below

instance : Trans (Below n) (Below n) (Below n) := ⟨Below.trans⟩

instance : Trans Placid (Below n) (Below n) := ⟨fun hc => hc.below.trans⟩

/-! ### Stack operations -/

theorem yields_readHeap {R : Machine → Machine → Prop} {f : Heap → Except HeapFault α} (hR : R m m) :
    Yields R (readHeap f) (fun _ m' => m = m') m := by
  unfold Yields readHeap
  cases f m.heap with
  | ok a => exact ⟨hR, rfl⟩
  | error fault => exact hR

theorem below_popN (hm : Contained .plain m) (k : Nat) :
    Yields (Below n) (popN k) (fun _ m' => m'.regs.sp = m.regs.sp - k) m := by
  have hs : Stays .plain true m (stateAfter (popN k m)) := (yields_popN hm k).after
  unfold Yields
  rw [popN_run] at hs ⊢
  split at hs
  · next hlow =>
    rw [if_pos hlow]
    exact .refl hm
  · next hlow =>
    rw [if_neg hlow]
    exact ⟨.of_heap hs rfl rfl, rfl⟩

theorem below_pop (hm : Contained .plain m) :
    Yields (Below n) pop (fun v m' => m.stackValue 0 = .ok v ∧ m'.regs.sp = m.regs.sp - 1) m := by
  refine yields_read_bind (.refl hm) fun v hv => ?_
  have hs : Stays .plain true m (stateAfter (pop m)) := (yields_pop hm).after
  rw [pop_run_ok hv] at hs
  exact ⟨.of_heap hs rfl rfl, hv, rfl⟩

/-- What is pushed above the receiver does not concern what is below. -/
theorem below_push (hm : Contained .plain m) (hn : n ≤ m.regs.sp + 1) (v : Value) :
    Yields (Below n) (push v) (fun _ m' => m'.regs.sp = m.regs.sp + 1) m := by
  have hs : Yields (Stays .plain true) (push v) _ m := yields_push hm v
  refine hs.relate ⟨hs.after, ?_, fun i x hi _ _ hx => ?_⟩
  · rw [push_run]
    split
    · rfl
    · rw [bind_run]
      unfold storeField
      rw [onHeap_run]
      cases Heap.storeField m.regs.activeContext (m.regs.sp + 1) v m.heap <;> rfl
  · refine fetchField_push (fun heq => ?_) hm.framed.settled hx
    omega

/-- A primitive that answers puts the answer in the place of the receiver. -/
theorem below_answer (hm : Contained .plain m) {argc : Nat} (hn : n + argc ≤ m.regs.sp) (v : Value) :
    Yields (Below n) (answer argc v) (fun _ _ => True) m := by
  refine (below_popN hm (argc + 1)).bind fun _ m₁ hb₁ hsp => ?_
  exact (below_push hb₁.contained (by omega) v).bind fun _ m₂ hb₂ _ =>
    Yields.pure (.refl hb₂.contained) trivial

/-! ### Activations that fail -/

/-- Saving a pointer. -/
theorem below_storePointer {c new : Value} {i : Nat} {Q : Unit → Machine → Prop}
    (hm : Contained .plain m) (hi : i = Slot.ip ∨ i = Slot.sp)
    (hs : Yields (Stays .plain true) (storeField c i new) Q m) :
    Yields (Below n) (storeField c i new) Q m := by
  refine hs.relate ⟨hs.after, ?_, fun j x _ hip hsp hx => ?_⟩
  · unfold storeField
    rw [stateAfter_onHeap]
    rfl
  · have houtcome := ensures_storeField hm.framed.settled c i new m rfl
    cases hrun : storeField c i new m with
    | ok u m' =>
        rw [hrun] at houtcome
        obtain ⟨h, hstored, rfl⟩ := houtcome
        refine (hstored.other _ j x (.inr ?_)).mpr hx
        rcases hi with rfl | rfl
        · exact hip
        · exact hsp
    | error fault m' =>
        rw [hrun] at houtcome
        obtain rfl : m = m' := houtcome
        exact hx

theorem below_flush (hm : Contained .plain m) : Yields (Below n) flush (fun _ _ => True) m := by
  refine yields_get_bind (yields_landmark_bind ?_)
  split
  · exact Yields.pure (.refl hm) trivial
  · next hactive =>
    have hl := hm.frame.resolve_left fun hnone => hactive hnone.1
    refine (below_storePointer hm (.inl rfl) (yields_storeContext hm hm.fills_active (.inl rfl)
      fun _ _ => .inl rfl)).bind fun _ m₁ hb₁ _ => ?_
    have hl₁ := hl.kept hb₁.stays.kept
    rw [← hb₁.stays.known] at hl₁
    exact (below_storePointer hb₁.contained (.inr rfl) (yields_storePointer hb₁.contained
      ⟨hl₁.context, hl.live⟩ hb₁.context.symm hl₁.stackPointer)).weaken (fun _ => id)
        fun _ _ _ _ => trivial

/-- The end of an activation, if it fails. -/
theorem below_leaveFor (hm : Contained .plain m) (consumed : Nat) (c : Value) :
    Ensures (m = ·) (do popN consumed; flush; reload c) (fun _ _ => True) fun _ m' => Below n m m' := by
  refine (below_popN hm consumed).ensures_bind (fun _ _ => id) fun _ m₁ hb₁ _ => ?_
  refine (below_flush hb₁.contained).ensures_bind (fun _ _ => hb₁.trans) fun _ m₂ hb₂ _ => ?_
  refine (yields_read (.refl hb₂.contained)).ensures_bind (fun _ _ => (hb₁.trans hb₂).trans) ?_
  exact fun _ _ _ _ _ _ => trivial

/-- Activating a method does not touch what is below until it succeeds. -/
theorem below_activateMethod (hm : Contained .plain m) {method : Value} {header : MethodHeader}
    (hmethod : ∃ t, m.heap.typeOf method = .ok t)
    (hheader : m.heap.typeOf method = .ok (m.known .compiledMethod) → HeaderOf m.heap method header)
    (argc : Nat) : Ensures (m = ·) (activateMethod method header argc) (fun _ _ => True)
      fun _ m' => Below n m m' := by
  refine (yields_read (.refl hm)).ensures_bind (fun _ _ => id) ?_
  rintro receiver _ - ⟨-, rfl⟩
  refine ensures_get_bind ?_
  refine Ensures.bind ((ensures_newMethodContext hm hmethod (fun _ => hheader) hm.fills_active _).weaken
    (fun _ => id) (fun _ _ => id) ?_) fun c => ?_
  · rintro _ _ rfl
    exact .refl hm
  refine .of_forall ?_
  rintro m₁ ⟨k, xs, hd, hp⟩
  refine ensures_get_bind ?_
  have hplacid : ∀ {ys m₂}, IsDraft m .methodContext k c ys m₂ →
      (∀ i < Slot.contextTail, ys i = xs i) → Placid m m₂ := fun hd₂ hsame =>
    placid_of_draft (hm.presented (.inl rfl) hd₂ (hp.congr hsame)).1 hd₂
  refine ensures_transfer_draft_bind hd (fun _ => (hplacid hd fun _ _ => rfl).below) ?_
  intro ys m₂ hd₂ hsame _ _
  have hc₂ := hplacid hd₂ fun i hi => hsame i (.inl hi)
  exact (below_leaveFor hc₂.contained _ c).weaken (fun _ => id) (fun _ _ => id)
    fun _ _ => hc₂.below.trans

/-- So does evaluating a block. -/
theorem below_activateBlock (hm : Contained .plain m) {block : Value}
    (hblock : m.heap.typeOf block = .ok (m.known .blockContext)) (source : Value)
    (first argc consumed : Nat) : Ensures (m = ·) (activateBlock block source first argc consumed)
      (fun _ _ => True) fun _ m' => Below n m m' := by
  refine (yields_read (.refl hm)).ensures_bind (fun _ _ => id) ?_
  rintro expected _ - ⟨harity, rfl⟩
  refine Ensures.ite (fun _ => ?_) fun _ => ?_
  · refine ensures_get_bind ?_
    refine Ensures.bind ((ensures_copyBlock hm.framed.settled (blockArity_eq_ok harity)).weaken
      (fun _ => id) (fun _ _ => id) ?_) fun c => ?_
    · rintro _ m' (rfl | ⟨k, c, hd⟩)
      · exact .refl hm
      · exact (placid_of_draft (hm.presented (.inr rfl) hd (.blank hm.framed)).1 hd).below
    refine .of_forall ?_
    rintro m₁ ⟨k, xs, hd, hcopy⟩
    have hp := hcopy.presentable hm hblock hm.fills_active
    refine ensures_transfer_draft_bind hd
      (fun _ => (placid_of_draft (hm.presented (.inr rfl) hd hp).1 hd).below) ?_
    rintro ys m₂ hd₂ hsame hfits -
    have hlow : Slot.contextTail ≤ Slot.contextTail + argc - 1 + 1 := by
      simp only [Slot.contextTail]
      omega
    have hhigh : Slot.contextTail + argc - 1 < k := by
      simp only [Slot.contextTail] at hfits ⊢
      omega
    have hp₂ := (hp.congr fun i hi => hsame i (.inl hi)).pointer hlow hhigh
    refine Ensures.weaken (P := IsDraft m .blockContext k c ys) ?_ ?_ (fun _ _ => id) fun _ _ => id
    · refine (ensures_storeField_draft (Nat.lt_of_lt_of_le (by decide)
        (Nat.le_trans (Nat.le_add_right ..) hfits)) _ _).bind fun _ => .of_forall fun m₃ hd₃ => ?_
      have hc₃ := placid_of_draft (hm.presented (.inr rfl) hd₃ hp₂).1 hd₃
      exact (below_leaveFor hc₃.contained consumed c).weaken (fun _ => id) (fun _ _ => id)
        fun _ _ => hc₃.below.trans
    · rintro _ rfl
      exact hd₂
  · rintro _ rfl
    exact .refl hm

/-! ## Sends -/

/-- The context that was active still is, or it has called, with the values above the field `n` taken
off its stack. -/
def Sent (n : Nat) (m m' : Machine) : Prop :=
  m'.regs.activeContext = m.regs.activeContext ∨
    ∃ m₁ taken, Below n m m₁ ∧ m₁.regs.sp + 1 = n + taken ∧ Called m₁ taken m'

theorem Below.sent (hb : Below n m m') : Sent n m m' := .inl hb.context

theorem Below.trans_sent (hb : Below n m m₁) (hs : Sent n m₁ m') : Sent n m m' := by
  rcases hs with hsame | ⟨m₂, taken, hb₂, hsp, hcall⟩
  · exact .inl (hsame.trans hb.context)
  · exact .inr ⟨m₂, taken, hb.trans hb₂, hsp, hcall⟩

/-! ### Outcomes -/

theorem departed_of_yields {action : MachineM α} {Q : α → Machine → Prop}
    (h : Yields (Below n) action Q m) : Departed (Below n) (Sent n) m (action m) := by
  have hb := h.after
  cases hrun : action m with
  | ok a m' =>
      rw [hrun] at hb
      exact hb.sent
  | error fault m' =>
      rw [hrun] at hb
      exact ⟨hb.sent, fun _ => hb⟩

theorem attempted_of_yields {action : MachineM Bool} {Q : Bool → Machine → Prop}
    (h : Yields (Below n) action Q m) : Attempted (Below n) (Sent n) m (action m) := by
  have hb := h.after
  cases hrun : action m with
  | ok done m' =>
      rw [hrun] at hb
      exact ⟨hb.sent, fun _ => hb⟩
  | error fault m' =>
      rw [hrun] at hb
      exact ⟨hb.sent, fun _ => hb⟩

theorem Below.trans_departed {r : EStateM.Result Fault Machine α} (hb : Below n m m₁)
    (hr : Departed (Below n) (Sent n) m₁ r) : Departed (Below n) (Sent n) m r := by
  cases r with
  | ok a m' => exact hb.trans_sent hr
  | error fault m' => exact ⟨hb.trans_sent hr.1, fun hmild => hb.trans (hr.2 hmild)⟩

theorem departed_bind {x : MachineM α} {f : α → MachineM β} {Q : α → Machine → Prop}
    (hx : Yields (Below n) x Q m) (hf : ∀ a m₁, Below n m m₁ → Q a m₁ →
      Departed (Below n) (Sent n) m₁ (f a m₁)) : Departed (Below n) (Sent n) m ((x >>= f) m) := by
  unfold Yields at hx
  rw [bind_run]
  cases hrun : x m with
  | ok a m₁ =>
      rw [hrun] at hx
      exact hx.1.trans_departed (hf a m₁ hx.1 hx.2)
  | error fault m₁ =>
      rw [hrun] at hx
      exact ⟨hx.sent, fun _ => hx⟩

/-- A primitive that sends or activates something, and has nothing left to do then. -/
theorem attempted_of_departed {action : MachineM Unit}
    (h : Departed (Below n) (Sent n) m (action m)) :
    Attempted (Below n) (Sent n) m ((do action; return true) m) := by
  rw [bind_run]
  cases hrun : action m with
  | ok u m' =>
      rw [hrun] at h
      exact ⟨h, fun hdone => absurd hdone (by decide)⟩
  | error fault m' =>
      rw [hrun] at h
      exact h

theorem attempted_bind {x : MachineM α} {f : α → MachineM Bool} {Q : α → Machine → Prop}
    (hx : Yields (Below n) x Q m) (hf : ∀ a m₁, Below n m m₁ → Q a m₁ →
      Attempted (Below n) (Sent n) m₁ (f a m₁)) : Attempted (Below n) (Sent n) m ((x >>= f) m) := by
  unfold Yields at hx
  rw [bind_run]
  cases hrun : x m with
  | error fault m₁ =>
      rw [hrun] at hx
      exact ⟨hx.sent, fun _ => hx⟩
  | ok a m₁ =>
      rw [hrun] at hx
      have hlater := hf a m₁ hx.1 hx.2
      dsimp only
      cases hrest : f a m₁ with
      | ok done m' =>
          rw [hrest] at hlater
          exact ⟨hx.1.trans_sent hlater.1, fun hdone => hx.1.trans (hlater.2 hdone)⟩
      | error fault m' =>
          rw [hrest] at hlater
          exact ⟨hx.1.trans_sent hlater.1, fun hmild => hx.1.trans (hlater.2 hmild)⟩

/-! ### Primitives that only answer -/

section

variable (hm : Contained .plain m)
include hm

theorem below_arithmetic (hn : n + 1 ≤ m.regs.sp) (op : Int → Int → Option Int) :
    Yields (Below n) (arithmetic op) (fun _ _ => True) m := by
  refine yields_read_bind (.refl hm) fun ⟨a, b⟩ _ => ?_
  dsimp only
  split
  · exact yields_lift_bind (.refl hm) fun v _ => below_answer hm hn v
  · exact Yields.pure (.refl hm) trivial

theorem below_comparison (hn : n + 1 ≤ m.regs.sp) (op : Int → Int → Bool) :
    Yields (Below n) (comparison op) (fun _ _ => True) m :=
  yields_read_bind (.refl hm) fun ⟨_, _⟩ _ => yields_get_bind (below_answer hm hn _)

theorem below_integerEquality (hn : n + 1 ≤ m.regs.sp) (wanted : Bool) :
    Yields (Below n) (integerEquality wanted) (fun _ _ => True) m := by
  refine yields_read_bind (.refl hm) fun receiver _ => Yields.ite (fun _ => ?_) fun _ =>
    Yields.pure (.refl hm) trivial
  exact yields_read_bind (.refl hm) fun _ _ => yields_get_bind (below_answer hm hn _)

theorem below_identical (hn : n + 1 ≤ m.regs.sp) :
    Yields (Below n) identicalPrimitive (fun _ _ => True) m :=
  yields_read_bind (.refl hm) fun _ _ => yields_read_bind (.refl hm) fun _ _ =>
    yields_get_bind (below_answer hm hn _)

theorem below_classPrimitive (hn : n ≤ m.regs.sp) :
    Yields (Below n) classPrimitive (fun _ _ => True) m :=
  yields_read_bind (.refl hm) fun _ _ => yields_read_bind (.refl hm) fun _ _ => below_answer hm hn _

omit hm in
/-- An answer after something that does not concern the sender. -/
theorem below_answering {x : MachineM Value} {argc : Nat} (hn : n + argc ≤ m.regs.sp)
    {Q : Value → Machine → Prop} (hx : Yields Placid x Q m) :
    Yields (Below n) (x >>= answer argc) (fun _ _ => True) m :=
  hx.bind_to (fun _ => Placid.below) fun v _ hc _ => below_answer hc.contained (hc.sp ▸ hn) v

theorem placid_instantiate (type : Value) (indexed : Nat) :
    Yields Placid (instantiate type indexed) (fun _ _ => True) m :=
  Blind.instantiate.placid hm fun _ ht _ _ => yields_instantiate ht type indexed

theorem below_basicNew (hn : n ≤ m.regs.sp) : Yields (Below n) basicNew (fun _ _ => True) m := by
  refine yields_read_bind (.refl hm) fun type _ => yields_read_bind (.refl hm) fun _ _ => ?_
  refine Yields.ite (fun _ => ?_) fun _ => Yields.pure (.refl hm) trivial
  exact below_answering hn (placid_instantiate hm type 0)

theorem below_basicNewSized (hn : n + 1 ≤ m.regs.sp) :
    Yields (Below n) basicNewSized (fun _ _ => True) m := by
  refine yields_read_bind (.refl hm) fun type _ => yields_read_bind (.refl hm) fun size _ => ?_
  refine yields_read_bind (.refl hm) fun _ _ => Yields.ite (fun _ => ?_) fun _ =>
    Yields.pure (.refl hm) trivial
  refine yields_read_bind (.refl hm) fun _ _ => Yields.ite (fun _ => ?_) fun _ =>
    Yields.pure (.refl hm) trivial
  exact below_answering hn (placid_instantiate hm type size)

theorem below_basicAt (hn : n + 1 ≤ m.regs.sp) : Yields (Below n) basicAt (fun _ _ => True) m := by
  refine yields_read_bind (.refl hm) fun receiver _ => yields_read_bind (.refl hm) fun index _ => ?_
  refine yields_read_bind (.refl hm) fun place _ => ?_
  cases place with
  | none => exact Yields.pure (.refl hm) trivial
  | some i =>
      cases receiver with
      | int k => exact Yields.pure (.refl hm) trivial
      | object a => exact yields_fetchField_bind (.refl hm) fun v _ => below_answer hm hn v
      | bytes a => exact yields_readHeap_bind (.refl hm) fun b _ => below_answer hm hn _
      | words a =>
          exact yields_readHeap_bind (.refl hm) fun w _ =>
            yields_lift_bind (.refl hm) fun v _ => below_answer hm hn v

theorem below_basicAtPut (hn : n + 2 ≤ m.regs.sp) :
    Yields (Below n) (basicAtPut confine) (fun _ _ => True) m := by
  have hanswer : ∀ {x : MachineM Unit} (v : Value), Yields Placid x (fun _ _ => True) m →
      Yields (Below n) (do x; answer 2 v) (fun _ _ => True) m := fun v hx =>
    hx.bind_to (fun _ => Placid.below) fun _ _ hc _ => below_answer hc.contained (hc.sp ▸ hn) v
  refine yields_read_bind (.refl hm) fun receiver _ => yields_read_bind (.refl hm) fun index _ => ?_
  refine yields_read_bind (.refl hm) fun v _ => yields_read_bind (.refl hm) fun place _ => ?_
  cases place with
  | none => exact Yields.pure (.refl hm) trivial
  | some i =>
      cases receiver with
      | int k => exact Yields.pure (.refl hm) trivial
      | object a => exact hanswer v (placid_storeField hm _ _ _)
      | bytes a =>
          refine yields_lift_bind (.refl hm) fun k _ => Yields.ite (fun _ =>
            Yields.pure (.refl hm) trivial) fun _ => ?_
          exact hanswer v (placid_extends hm (.of_storeByte hm.framed.settled _ _ _))
      | words a =>
          refine yields_lift_bind (.refl hm) fun k _ => ?_
          exact hanswer v (placid_extends hm (.of_storeWord hm.framed.settled _ _ _))

theorem below_basicSize (hn : n ≤ m.regs.sp) : Yields (Below n) basicSize (fun _ _ => True) m :=
  yields_read_bind (.refl hm) fun _ _ => yields_read_bind (.refl hm) fun _ _ => below_answer hm hn _

theorem below_hash (hn : n ≤ m.regs.sp) : Yields (Below n) hashPrimitive (fun _ _ => True) m := by
  refine yields_read_bind (.refl hm) fun receiver _ => ?_
  cases receiver with
  | int k => exact below_answer hm hn _
  | object a => exact below_answer hm hn _
  | bytes a =>
      exact yields_readHeap_bind (.refl hm) fun k _ =>
        yields_lift_bind (.refl hm) fun v _ => below_answer hm hn v
  | words a =>
      exact yields_readHeap_bind (.refl hm) fun k _ =>
        yields_lift_bind (.refl hm) fun v _ => below_answer hm hn v

theorem below_nextInputEvent (hn : n ≤ m.regs.sp) :
    Yields (Below n) nextInputEventPrimitive (fun _ _ => True) m := by
  have htake : Yields Placid nextInputEvent (fun _ _ => True) m := by
    refine yields_get_bind ?_
    split
    · exact Yields.pure (.refl hm) trivial
    · exact ⟨⟨hm.withSchedule _, rfl, rfl, fun _ _ => id⟩, trivial⟩
  refine htake.bind_to (fun _ => Placid.below) fun event m₁ hc _ => ?_
  have hm₁ := hc.contained
  have hn₁ : n ≤ m₁.regs.sp := hc.sp ▸ hn
  cases event with
  | none => exact yields_landmark_bind (below_answer hm₁ hn₁ _)
  | some event => exact yields_lift_bind (.refl hm₁) fun v _ => below_answer hm₁ hn₁ v

theorem below_newSemaphore (hn : n ≤ m.regs.sp) :
    Yields (Below n) newSemaphorePrimitive (fun _ _ => True) m :=
  below_answering hn (Blind.newSemaphore.placid hm fun _ ht _ _ => yields_newSemaphore ht)

theorem below_onSemaphore {action : Value → MachineM Unit} (hblind : ∀ v, Blind (action v))
    (haction : ∀ {t : Machine} {v : Value}, Contained .plain t →
      Suits .plain t.known t.heap .semaphore v →
      Yields (Stays .plain true) (action v) (fun _ _ => True) t) :
    Yields (Below n) (onSemaphore action) (fun _ _ => True) m := by
  refine yields_read_bind (.refl hm) fun v _ => yields_read_bind (.refl hm) fun isSemaphore htype => ?_
  cases isSemaphore with
  | false => exact Yields.pure (.refl hm) trivial
  | true =>
      refine ((hblind v).placid hm fun t ht hknown hheap => haction ht (.inr ?_)).bind_to
        (fun _ => Placid.below) fun _ _ hc _ => Yields.pure (.refl hc.contained) trivial
      rw [hknown, hheap]
      exact typeOf_of_isInstance htype

theorem below_yield : Yields (Below n) yieldPrimitive (fun _ _ => True) m :=
  (Blind.yieldProcessor.placid hm fun _ ht _ _ => yields_yieldProcessor ht).bind_to
    (fun _ => Placid.below) fun _ _ hc _ => Yields.pure (.refl hc.contained) trivial

theorem below_fork (hn : n ≤ m.regs.sp) : Yields (Below n) forkPrimitive (fun _ _ => True) m := by
  refine yields_read_bind (.refl hm) fun block _ => yields_read_bind (.refl hm) fun isBlock hblock => ?_
  cases isBlock with
  | false => exact Yields.pure (.refl hm) trivial
  | true =>
      refine yields_read_bind (.refl hm) fun expected harity => Yields.ite (fun _ => ?_) fun _ =>
        Yields.throw (.refl hm)
      refine yields_landmark_bind ?_
      have hinstantiate : Yields Placid (instantiateBlock block (m.known .nil))
          (fun c t => Live .plain t.known t.heap c) m := by
        refine Blind.instantiateBlock.placid hm fun t ht hknown hheap => ?_
        rw [← hknown]
        refine yields_instantiateBlock ht ?_ (hheap ▸ blockArity_eq_ok harity) (.inl rfl)
        rw [hknown, hheap]
        exact typeOf_of_isInstance hblock
      refine hinstantiate.bind_to (fun _ => Placid.below) fun context m₁ hc₁ hcontext => ?_
      refine below_answering (hc₁.sp ▸ hn) (Blind.forkProcess.placid hc₁.contained
        fun t ht hknown hheap => yields_forkProcess ht (.inr ?_))
      rw [hknown, hheap]
      exact hcontext

end

/-! ### Primitives that call -/

/-- What `send` does with a message that has one argument fewer than `argc`. -/
def Nests (n argc : Nat) (send : Value → MachineM Unit) : Prop :=
  0 < argc → ∀ v t, Contained .plain t → t.regs.sp + 1 = n + argc →
    Departed (Below n) (Sent n) t (send v t)

/-- A method is activated for the values above the field. -/
theorem departed_activateMethod (hm : Contained .plain m) {method : Value} {header : MethodHeader}
    {argc : Nat} (hsp : m.regs.sp = n + argc) (hmethod : ∃ t, m.heap.typeOf method = .ok t)
    (hheader : m.heap.typeOf method = .ok (m.known .compiledMethod) → HeaderOf m.heap method header) :
    Departed (Below n) (Sent n) m (activateMethod method header argc m) := by
  have houtcome := below_activateMethod (n := n) hm hmethod hheader argc m rfl
  cases hrun : activateMethod method header argc m with
  | ok u m' => exact .inr ⟨m, argc + 1, .refl hm, by omega, .method hmethod hheader hrun rfl⟩
  | error fault m' =>
      rw [hrun] at houtcome
      exact ⟨houtcome.sent, fun _ => houtcome⟩

theorem departed_activateBlock (hm : Contained .plain m) {block source : Value} {first argc k : Nat}
    (hsp : m.regs.sp = n + k) (hblock : m.heap.typeOf block = .ok (m.known .blockContext)) :
    Departed (Below n) (Sent n) m (activateBlock block source first argc (k + 1) m) := by
  have houtcome := below_activateBlock (n := n) hm hblock source first argc (k + 1) m rfl
  cases hrun : activateBlock block source first argc (k + 1) m with
  | ok u m' => exact .inr ⟨m, k + 1, .refl hm, by omega, .block hblock hrun⟩
  | error fault m' =>
      rw [hrun] at houtcome
      exact ⟨houtcome.sent, fun _ => houtcome⟩

section

variable (hm : Contained .plain m)
include hm

theorem departed_read_bind {f : Machine → Except Fault α} {rest : α → MachineM β}
    (hrest : ∀ a, f m = .ok a → Departed (Below n) (Sent n) m (rest a m)) :
    Departed (Below n) (Sent n) m ((read f >>= rest) m) := by
  refine departed_bind (yields_read (.refl hm)) ?_
  rintro a _ - ⟨hread, rfl⟩
  exact hrest a hread

theorem attempted_read_bind {f : Machine → Except Fault α} {rest : α → MachineM Bool}
    (hrest : ∀ a, f m = .ok a → Attempted (Below n) (Sent n) m (rest a m)) :
    Attempted (Below n) (Sent n) m ((read f >>= rest) m) := by
  refine attempted_bind (yields_read (.refl hm)) ?_
  rintro a _ - ⟨hread, rfl⟩
  exact hrest a hread

omit hm in
theorem attempted_get_bind {rest : Machine → MachineM Bool}
    (hrest : Attempted (Below n) (Sent n) m (rest m m)) :
    Attempted (Below n) (Sent n) m ((get >>= rest) m) := hrest

theorem attempted_decline : Attempted (Below n) (Sent n) m ((return false : MachineM Bool) m) :=
  attempted_of_yields (Q := fun _ _ => True) (Yields.pure (.refl hm) trivial)

theorem attempted_throw (fault : Fault) :
    Attempted (Below n) (Sent n) m ((throw fault : MachineM Bool) m) :=
  attempted_of_yields (Q := fun _ _ => True) (Yields.throw (.refl hm))

theorem attempted_blockValue {argc : Nat} (hsp : m.regs.sp = n + argc) :
    Attempted (Below n) (Sent n) m (blockValue argc m) := by
  refine attempted_read_bind hm fun block _ => attempted_read_bind hm fun isBlock hblock => ?_
  cases isBlock with
  | false => exact attempted_decline hm
  | true => exact attempted_of_departed (departed_activateBlock hm hsp (typeOf_of_isInstance hblock))

theorem attempted_valueWithArguments (hsp : m.regs.sp = n + 1) :
    Attempted (Below n) (Sent n) m (valueWithArguments m) := by
  refine attempted_read_bind hm fun block _ => attempted_read_bind hm fun arguments _ => ?_
  refine attempted_read_bind hm fun isBlock hblock => ?_
  cases isBlock with
  | false => exact attempted_decline hm
  | true =>
      refine attempted_read_bind hm fun isArray _ => ?_
      cases isArray with
      | false => exact attempted_decline hm
      | true =>
          refine attempted_bind (yields_readHeap (.refl hm)) ?_
          rintro count _ - rfl
          refine attempted_read_bind hm fun expected _ => ?_
          dsimp only
          split
          · exact attempted_of_departed (departed_activateBlock hm hsp (typeOf_of_isInstance hblock))
          · exact attempted_throw hm _

/-- The arguments of a computed message are moved over the selector. -/
theorem below_moveArguments {argc : Nat} (hpos : 0 < argc) (hsp : m.regs.sp = n + argc)
    {selector : Value} (hargument : m.argument argc 0 = .ok selector) :
    Yields (Below n) (onHeap (Heap.transferFields m.regs.activeContext
      (m.regs.sp + 1 - argc + 1) m.regs.activeContext (m.regs.sp + 1 - argc) (argc - 1)))
      (fun _ m' => m'.regs = m.regs) m := by
  have hs : Yields (Stays .plain true) _ _ m := yields_moveArguments hm hpos hargument
  have hafter := hs.after
  rw [stateAfter_onHeap] at hafter
  refine yields_onHeap_of_after ⟨hafter, rfl, fun i x hi _ _ hx => ?_⟩
  rw [withHeap_heap]
  cases hrun : Heap.transferFields m.regs.activeContext (m.regs.sp + 1 - argc + 1)
      m.regs.activeContext (m.regs.sp + 1 - argc) (argc - 1) m.heap with
  | error fault h =>
      rw [stateAfter_error, Heap.heap_of_transfer_error hrun]
      exact hx
  | ok u h =>
      have haltered := (Heap.transferred_of_eq_ok hm.framed.settled hrun).altered
      exact (haltered.other _ i x (.inr (by omega))).mpr hx

theorem attempted_perform {argc : Nat} (hpos : 0 < argc) (hsp : m.regs.sp = n + argc)
    {send : Value → MachineM Unit} (hsend : Nests n argc send) :
    Attempted (Below n) (Sent n) m (perform send argc m) := by
  have hperform : ∀ selector t, Contained .plain t → t.regs.sp = n + argc →
      Attempted (Below n) (Sent n) t ((do
        let _ ← pop
        send selector
        return true) t) := by
    intro selector t ht hsp
    refine attempted_bind (below_pop ht) fun _ t₁ hb₁ ⟨_, hsp₁⟩ => ?_
    exact attempted_of_departed (hsend hpos selector t₁ hb₁.contained (by omega))
  unfold perform
  refine attempted_read_bind hm fun selector hargument => attempted_read_bind hm fun isSymbol _ => ?_
  cases isSymbol with
  | false => exact attempted_decline hm
  | true =>
      rw [if_pos rfl]
      refine attempted_get_bind (attempted_get_bind ?_)
      refine attempted_bind (below_moveArguments hm hpos hsp hargument) fun _ m₁ hb₁ hregs => ?_
      exact hperform selector m₁ hb₁.contained (by rw [hregs, hsp])

end

/-- With `n` for the place of its receiver, a primitive leaves what is below alone, or calls. -/
theorem attempted_primitive (hm : Contained .plain m) (p : Primitive) (hsp : m.regs.sp = n + p.arity)
    {send : Value → MachineM Unit} (hsend : Nests n p.arity send) :
    Attempted (Below n) (Sent n) m (p.run confine send m) := by
  have hn : n + p.arity ≤ m.regs.sp := Nat.le_of_eq hsp.symm
  cases p <;> simp only [Primitive.run]
  case intAdd | intSub | intMul | intDiv | intMod | intBitAnd | intBitOr | intBitShift =>
    exact attempted_of_yields (below_arithmetic hm hn _)
  case intLess | intGreater | intLessEqual | intGreaterEqual =>
    exact attempted_of_yields (below_comparison hm hn _)
  case intEqual | intNotEqual => exact attempted_of_yields (below_integerEquality hm hn _)
  case identical => exact attempted_of_yields (below_identical hm hn)
  case classOf => exact attempted_of_yields (below_classPrimitive hm hn)
  case basicNew => exact attempted_of_yields (below_basicNew hm hn)
  case basicNewSized => exact attempted_of_yields (below_basicNewSized hm hn)
  case basicAt => exact attempted_of_yields (below_basicAt hm hn)
  case basicAtPut => exact attempted_of_yields (below_basicAtPut hm hn)
  case basicSize => exact attempted_of_yields (below_basicSize hm hn)
  case hash => exact attempted_of_yields (below_hash hm hn)
  case blockValue | blockValue1 | blockValue2 | blockValue3 => exact attempted_blockValue hm hsp
  case blockValueWithArguments => exact attempted_valueWithArguments hm hsp
  case perform | performWith | performWithWith => exact attempted_perform hm (by decide) hsp hsend
  case fork => exact attempted_of_yields (below_fork hm hn)
  case semaphoreWait =>
    exact attempted_of_yields (below_onSemaphore hm (fun _ => .wait) fun ht hv => yields_wait ht hv)
  case semaphoreSignal =>
    exact attempted_of_yields (below_onSemaphore hm (fun _ => .signal) fun ht hv => yields_signal ht hv)
  case processorYield => exact attempted_of_yields (below_yield hm)
  case nextInputEvent => exact attempted_of_yields (below_nextInputEvent hm hn)
  case newSemaphore => exact attempted_of_yields (below_newSemaphore hm hn)

/-! ### Trying primitives -/

/-- What is left when a primitive has declined and the stack pointer has been put back. -/
def Declined (n : Nat) (m m' : Machine) : Prop := Below n m m' ∧ m'.regs.sp = m.regs.sp

theorem attempted_attempt (hm : Contained .plain m) {action : MachineM Bool}
    (h : Attempted (Below n) (Sent n) m (action m)) :
    Attempted (Declined n) (Sent n) m (attempt action m) := by
  unfold attempt
  cases hrun : action m with
  | ok done m' =>
      rw [hrun] at h
      cases done with
      | true => exact ⟨h.1, fun hdone => absurd hdone (by decide)⟩
      | false =>
          have hb := (h.2 rfl).restore hm
          exact ⟨hb.sent, fun _ => ⟨hb, rfl⟩⟩
  | error fault m' =>
      rw [hrun] at h
      cases hfatal : fault.abortsPrimitive with
      | true =>
          simp only [hfatal, if_true]
          exact ⟨h.1, fun hmild => absurd (hfatal.symm.trans hmild) (by decide)⟩
      | false =>
          simp only [hfatal]
          have hb := (h.2 hfatal).restore hm
          exact ⟨hb.sent, fun _ => ⟨hb, rfl⟩⟩

section

variable (hm : Contained .plain m) {argc : Nat} (hsp : m.regs.sp = n + argc)
  {send : Value → MachineM Unit} (hsend : Nests n argc send)
include hm hsp hsend

theorem attempted_tryPrimitive (number : Nat) :
    Attempted (Declined n) (Sent n) m (tryPrimitive confine send number argc m) := by
  have hnone : Attempted (Declined n) (Sent n) m ((return false : MachineM Bool) m) :=
    ⟨.inl rfl, fun _ => ⟨.refl hm, rfl⟩⟩
  unfold tryPrimitive
  cases Primitive.ofNumber? number with
  | none => exact hnone
  | some p =>
      dsimp only
      split
      · next harity =>
        subst harity
        exact attempted_attempt hm (attempted_primitive hm p hsp hsend)
      · exact hnone

/-- A method is invoked for the receiver and arguments above the field. -/
theorem departed_invoke (method : Value) :
    Departed (Below n) (Sent n) m (invoke confine send method argc m) := by
  refine departed_read_bind hm fun header hread => ?_
  obtain ⟨v, hv, hof⟩ := reading_bind_eq_ok.mp hread
  have hv := liftFault_eq_ok.mp hv
  have hheader : HeaderOf m.heap method header := ⟨v, hv, liftValueFault_eq_ok.mp hof⟩
  have hmethod := Heap.exists_typeOf_of_fetchField hv
  dsimp only
  split
  · cases header.kind with
    | bytecodes => exact departed_activateMethod hm hsp hmethod fun _ => hheader
    | primitive =>
        have htried := attempted_tryPrimitive hm hsp hsend header.index.toNat
        dsimp only
        rw [bind_run]
        cases hrun : tryPrimitive confine send header.index.toNat argc m with
        | ok done m₁ =>
            rw [hrun] at htried
            cases done with
            | true => exact htried.1
            | false =>
                obtain ⟨hb, hsame⟩ := htried.2 rfl
                refine hb.trans_departed (departed_activateMethod hb.contained (hsame.trans hsp)
                  (hmethod.imp fun t => hb.stays.kept.types _ t) fun hcompiled => ?_)
                rw [hb.stays.known] at hcompiled
                exact (hb.stays.kept.headerOf_iff trivial
                  (type_of_exists hb.stays.kept.types hmethod hcompiled)).mpr hheader
        | error fault m₁ =>
            rw [hrun] at htried
            exact ⟨htried.1, fun hmild => (htried.2 hmild).1⟩
    | returnField =>
        refine departed_of_yields (Q := fun _ _ => True)
          ((below_pop hm).bind fun _ m₁ hb₁ ⟨_, hsp₁⟩ => ?_)
        exact yields_fetchField_bind (.refl hb₁.contained) fun v _ =>
          (below_push hb₁.contained (by omega) v).weaken (fun _ => id) fun _ _ _ _ => trivial
    | popAndStoreField =>
        refine departed_of_yields (Q := fun _ _ => True) ((below_pop hm).bind fun v m₁ hb₁ _ => ?_)
        exact yields_read_bind (.refl hb₁.contained) fun receiver _ =>
          (placid_storeField hb₁.contained _ _ _).weaken (fun _ => Placid.below) fun _ _ _ => id
  · exact departed_of_yields (Q := fun _ _ => True) (Yields.throw (.refl hm))

end

/-! ### Sending -/

theorem placid_lookup (hm : Contained .plain m) (type selector : Value) :
    Yields Placid (lookup type selector) (fun _ _ => True) m := by
  have hcache : ∀ {t : Machine} (c : MethodCache), Contained .plain t → Placid t { t with cache := c } :=
    fun c ht => ⟨⟨⟨ht.framed, ht.frame, ht.entry, ht.wait⟩, rfl, .refl .., .refl _,
      .of_contexts fun _ _ _ _ => id⟩, rfl, rfl, fun _ _ => id⟩
  unfold lookup
  refine Yields.bind (Q := fun _ _ => True) ⟨hcache _ hm, trivial⟩ fun cached m₁ hc₁ _ => ?_
  cases cached with
  | some method => exact Yields.pure (.refl hc₁.contained) trivial
  | none =>
      refine yields_read_bind (.refl hc₁.contained) fun found _ => ?_
      cases found with
      | none => exact Yields.pure (.refl hc₁.contained) trivial
      | some method => exact ⟨hcache _ hc₁.contained, trivial⟩

/-- What unknown messages lead to. -/
def Handles (n : Nat) (unknown : Value → Value → Nat → MachineM Unit) : Prop :=
  ∀ type selector argc t, Contained .plain t → t.regs.sp = n + argc →
    Departed (Below n) (Sent n) t (unknown type selector argc t)

theorem departed_dispatch (hm : Contained .plain m) {argc : Nat} (hsp : m.regs.sp = n + argc)
    {send : Value → MachineM Unit} (hsend : Nests n argc send)
    {unknown : Value → Value → Nat → MachineM Unit} (hunknown : Handles n unknown) (selector : Value) :
    Departed (Below n) (Sent n) m (dispatch confine unknown send argc selector m) := by
  refine departed_read_bind hm fun receiver _ => departed_read_bind hm fun type _ => ?_
  have hlookup : Yields (Below n) (lookup type selector) (fun _ t => t.regs.sp = m.regs.sp) m :=
    (placid_lookup hm type selector).weaken (fun _ => Placid.below) fun _ _ hc _ => hc.sp
  refine departed_bind hlookup fun found m₁ hb₁ hsame => ?_
  have hsp₁ := hsame.trans hsp
  cases found with
  | some method => exact departed_invoke hb₁.contained hsp₁ hsend method
  | none => exact hunknown type selector argc m₁ hb₁.contained hsp₁

theorem departed_throw (hm : Contained .plain m) (fault : Fault) :
    Departed (Below n) (Sent n) m ((throw fault : MachineM α) m) :=
  departed_of_yields (Q := fun _ _ => True) (Yields.throw (.refl hm))

/-- Computed messages nest as deep as there are arguments. -/
theorem departed_sendWith {unknown : Value → Value → Nat → MachineM Unit} (hunknown : Handles n unknown)
    {argc : Nat} (selector : Value) {t : Machine} (ht : Contained .plain t)
    (hsp : t.regs.sp = n + argc) :
    Departed (Below n) (Sent n) t (sendWith confine unknown argc selector t) := by
  induction argc generalizing selector t with
  | zero =>
      exact departed_dispatch ht hsp (fun _ _ _ ht₁ _ => departed_throw ht₁ _) hunknown selector
  | succ argc ih =>
      exact departed_dispatch ht hsp (fun _ v t₁ ht₁ hsp₁ => ih v ht₁ (by omega)) hunknown selector

/-- An unknown message is passed on to the receiver's handler as its only argument. -/
theorem handles_doesNotUnderstand : Handles n (doesNotUnderstand confine) := by
  intro type selector argc t ht hsp
  have hunknown : ∀ t₁, Contained .plain t₁ → Departed (Below n) (Sent n) t₁ ((do
      let selectorText ← read (·.textOf selector)
      let typeText ← read (·.typeName type)
      throw (.unknownSelector selectorText typeText) : MachineM Unit) t₁) := fun t₁ ht₁ =>
    departed_read_bind ht₁ fun _ _ => departed_read_bind ht₁ fun _ _ => departed_throw ht₁ _
  have hhandled : ∀ (handler : Value) t₁, Contained .plain t₁ → t₁.regs.sp = n + argc →
      Departed (Below n) (Sent n) t₁ ((do
        popN argc
        push selector
        invoke confine (sendWith confine (fun _ _ _ => throw .endless) 0) handler 1 : MachineM Unit)
          t₁) := by
    intro handler t₁ ht₁ hsp₁
    refine departed_bind (below_popN ht₁ argc) fun _ t₂ hb₂ hsp₂ => ?_
    refine departed_bind (below_push hb₂.contained (by omega) selector) fun _ t₃ hb₃ hsp₃ => ?_
    refine departed_invoke hb₃.contained (by omega) (fun _ v t₄ ht₄ hsp₄ => ?_) handler
    exact departed_sendWith (fun _ _ _ _ ht₅ _ => departed_throw ht₅ _) v ht₄ (by omega)
  unfold doesNotUnderstand
  have hlandmark : Yields (Below n) (landmark .doesNotUnderstand) (fun _ t₁ => t = t₁) t :=
    ⟨.refl ht, rfl⟩
  refine departed_bind hlandmark ?_
  rintro handlerSelector _ - rfl
  dsimp only
  split
  · exact hunknown t ht
  · have hlookup : Yields (Below n) (lookup type handlerSelector)
        (fun _ t₁ => t₁.regs.sp = t.regs.sp) t :=
      (placid_lookup ht _ _).weaken (fun _ => Placid.below) fun _ _ hc _ => hc.sp
    refine departed_bind hlookup fun handler t₁ hb₁ hsame => ?_
    cases handler with
    | none => exact hunknown t₁ hb₁.contained
    | some handler => exact hhandled handler t₁ hb₁.contained (hsame.trans hsp)

theorem departed_send (hm : Contained .plain m) {argc : Nat} (hsp : m.regs.sp = n + argc)
    (selector : Value) : Departed (Below n) (Sent n) m (send confine selector argc m) :=
  departed_sendWith handles_doesNotUnderstand selector hm hsp

theorem departed_specialSend (hm : Contained .plain m) {argc : Nat} (hsp : m.regs.sp = n + argc)
    (index : UInt8) : Departed (Below n) (Sent n) m (specialSend confine index argc m) := by
  have hsend : ∀ {t : Machine}, Contained .plain t → t.regs.sp = n + argc →
      Departed (Below n) (Sent n) t ((do
        send confine (← fetchField (← landmark .specialSelectors) index.toNat) argc : MachineM Unit)
          t) := by
    intro t ht hsp
    have hlandmark : Yields (Below n) (landmark .specialSelectors) (fun _ t₁ => t = t₁) t :=
      ⟨.refl ht, rfl⟩
    refine departed_bind hlandmark ?_
    rintro selectors _ - rfl
    refine departed_bind (yields_readHeap (.refl ht)) ?_
    rintro selector _ - rfl
    exact departed_send ht hsp selector
  unfold specialSend
  cases SpecialSelector.table[index.toNat]? with
  | none => exact departed_throw hm _
  | some entry =>
      dsimp only
      split
      · cases entry.primitive with
        | none => exact hsend hm hsp
        | some p =>
            have hsendFewer : Nests n argc (send confine · (argc - 1)) :=
              fun hpos v t ht hsp => departed_send ht (by omega) v
            have htried := attempted_tryPrimitive hm hsp hsendFewer p.number
            dsimp only
            rw [bind_run]
            cases hrun : tryPrimitive confine (send confine · (argc - 1)) p.number argc m with
            | ok done m₁ =>
                rw [hrun] at htried
                cases done with
                | true => exact htried.1
                | false =>
                    obtain ⟨hb, hsame⟩ := htried.2 rfl
                    exact hb.trans_departed (hsend hb.contained (hsame.trans hsp))
            | error fault m₁ =>
                rw [hrun] at htried
                exact ⟨htried.1, fun hmild => (htried.2 hmild).1⟩
      · exact departed_throw hm _

end Machine

end MessageMachine
