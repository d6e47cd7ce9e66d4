import MessageMachine.Machine.Run
import MessageMachine.Proofs.Heap.Growth
import MessageMachine.Proofs.Machine.Calls
import MessageMachine.Proofs.Schedule.Quiet

/-!
# Evaluations that are refused

The evaluation of a block can be refused after a context has been made for it, and after the pointers of the
active context have been saved.  `Littered m t` says that nothing else has happened to a machine between `m` and
`t`, and `ensures_littered_blockValue` that this is so wherever an evaluation is refused, on a machine that has
no reference to an object that is not there (`Closed`).
-/

namespace MessageMachine

/-- What does not depend on the state may be used for what comes next. -/
theorem Ensures.assume {P : σ → Prop} {q : Prop} {action : EStateM ε σ α} {Q : α → σ → Prop}
    {E : ε → σ → Prop} (h : q → Ensures P action Q E) : Ensures (fun s => P s ∧ q) action Q E :=
  fun s hs => h hs.2 s hs.1

namespace Machine

variable {m t : Machine} {v context caller x : Value} {i : Nat}

/-- What the machine refers to, and what its objects refer to, is there. -/
structure Closed (m : Machine) : Prop where
  settled : m.heap.Settled
  heap : m.heap.Within m.heap.occupied
  roots : ∀ v ∈ m.roots, v.Within m.heap.occupied

namespace Closed

variable (hm : m.Closed)
include hm

theorem known (l : Landmark) : (m.known l).Within m.heap.occupied := by
  refine hm.roots _ (List.mem_append_left _ (List.mem_append_right _ ?_))
  simp [Landmarks.toList, Landmarks.get]

theorem activeContext : m.regs.activeContext.Within m.heap.occupied :=
  hm.roots _ (List.mem_append_left _ (List.mem_append_left _ (List.mem_cons_self ..)))

end Closed

/-- Whether what the value refers to, if anything, is there. -/
def leads (h : Heap) (v : Value) : Bool :=
  match v.handle? with
  | none => true
  | some a => (h.resolve a).toBool

/-- The objects of a pool. -/
def inhabitants (p : Pool) : List Object := p.segments.toList.flatMap (·.objects.toList)

/-- Whether the machine is closed, decided object by object. -/
def closes (m : Machine) : Bool :=
  decide (m.heap.root.space = .root ∧ m.heap.ephemeral.space = .ephemeral) &&
    (inhabitants m.heap.ephemeral).all (·.header.state = .live) &&
    (inhabitants m.heap.root ++ inhabitants m.heap.ephemeral).all (·.references.all (leads m.heap)) &&
    m.roots.all (leads m.heap)

theorem within_of_leads {h : Heap} (hv : leads h v = true) : v.Within h.occupied := by
  intro a ha
  unfold leads at hv
  rw [ha] at hv
  cases ho : h.resolve a with
  | ok o => exact ⟨o, ho⟩
  | error fault =>
      dsimp only at hv
      rw [ho] at hv
      cases hv

theorem mem_inhabitants {p : Pool} {s i : Nat} {o : Object} (ho : p.at? s i = some o) :
    o ∈ inhabitants p := by
  rw [Pool.at?_eq] at ho
  obtain ⟨segment, hsegment, ho⟩ := Option.bind_eq_some_iff.mp ho
  exact List.mem_flatMap.mpr ⟨segment, Array.mem_toList_iff.mpr (Array.mem_of_getElem? hsegment),
    Array.mem_toList_iff.mpr (Array.mem_of_getElem? ho)⟩

theorem closed_of_closes (hm : m.closes = true) : m.Closed := by
  simp only [closes, Bool.and_eq_true, List.all_eq_true, decide_eq_true_eq, List.mem_append] at hm
  obtain ⟨⟨⟨⟨hroot, hephemeral⟩, hlive⟩, hobjects⟩, hroots⟩ := hm
  refine ⟨⟨hroot, hephemeral, fun s i o ho => hlive o (mem_inhabitants ho)⟩, fun a o ho v hv => ?_,
    fun v hv => within_of_leads (hroots v hv)⟩
  have hat := (Heap.resolve_eq_ok.mp ho).2.2
  refine within_of_leads (hobjects o ?_ v hv)
  cases hspace : a.space with
  | root => exact .inl (mem_inhabitants (hspace ▸ hat))
  | ephemeral => exact .inr (mem_inhabitants (hspace ▸ hat))

/-- The field is one of the two for the pointers of the active context. -/
def Saved (m : Machine) (v : Value) (i : Nat) : Prop :=
  v = m.regs.activeContext ∧ v ≠ m.known .nil ∧ (i = Slot.ip ∨ i = Slot.sp)

theorem Saved.lt (hsaved : m.Saved v i) : i < Slot.contextTail := by
  rcases hsaved.2.2 with rfl | rfl
  · decide
  · decide

/-- There is no object of the machine in this place. -/
def IsNew (m : Machine) (v : Value) : Prop := ∀ a, v.handle? = some a → a ∉ m.heap.occupied

/-- The machine `t` is `m` but for new objects, the saved pointers and the stack pointer. -/
structure Littered (m t : Machine) : Prop where
  rest : t = { m with heap := t.heap, regs := { m.regs with sp := t.regs.sp } }
  heap : m.heap.Outgrows m.Saved t.heap

namespace Littered

theorem refl (hm : m.Closed) : Littered m m := ⟨rfl, .refl hm.settled hm.heap⟩

theorem known_eq (ht : Littered m t) : t.known = m.known := by rw [ht.rest]

theorem activeContext_eq (ht : Littered m t) : t.regs.activeContext = m.regs.activeContext := by rw [ht.rest]

/-- A machine that has grown is closed if it was. -/
theorem closed (ht : Littered m t) (hm : m.Closed) : t.Closed := by
  have hroots : t.roots = m.roots := by rw [ht.rest]; rfl
  have hsub : m.heap.occupied ⊆ t.heap.occupied := fun a ⟨o, ho⟩ =>
    (ht.heap.object a o ho).imp fun _ h => h.1
  refine ⟨ht.heap.settled, fun a o ho => (ht.heap.within a o ho).mono hsub, fun v hv a ha => ?_⟩
  exact hsub (hm.roots v (hroots ▸ hv) a ha)

end Littered

/-! ## What is done to the heap -/

theorem littered_onHeap (ht : Littered m t) {action : HeapM α}
    (haction : m.heap.Outgrows m.Saved (stateAfter (action t.heap))) :
    Littered m (stateAfter (onHeap action t)) := by
  rw [stateAfter_onHeap]
  refine ⟨?_, haction⟩
  rw [ht.rest]
  rfl

theorem keeps_littered_storeField_new (hnew : IsNew m context) (hx : x.Within m.heap.occupied) :
    Keeps (Littered m) (storeField context i x) := fun _ ht =>
  littered_onHeap ht (ht.heap.storeField hx (.inl hnew))

theorem keeps_littered_storeField_saved (hsaved : m.Saved v i) (n : Int) :
    Keeps (Littered m) (storeField v i (.int n)) := fun _ ht =>
  littered_onHeap ht (ht.heap.storeField (Value.within_int _ _) (.inr hsaved))

theorem keeps_littered_transferFields (hnew : IsNew m context) (source : Value) (start first count : Nat) :
    Keeps (Littered m) (onHeap (Heap.transferFields source start context first count)) := fun _ ht =>
  littered_onHeap ht (ht.heap.transferFields hnew)

theorem ensures_littered_newObject (hm : m.Closed) (type : Landmark) (n : Nat) :
    Ensures (Littered m) (newObject type n) (fun c t => Littered m t ∧ IsNew m c) fun _ => Littered m := by
  intro t ht
  obtain ⟨hafter, hnew⟩ := ht.heap.allocateFields n (hm.known type) (hm.known .nil)
  have hrun : newObject type n t =
      onHeap (Heap.allocateFields .ephemeral (m.known type) n (m.known .nil)) t := by
    rw [← ht.known_eq]
    rfl
  have hgrown := littered_onHeap ht hafter
  rw [hrun]
  cases houtcome : onHeap (Heap.allocateFields .ephemeral (m.known type) n (m.known .nil)) t with
  | error fault t' =>
      rw [houtcome] at hgrown
      exact hgrown
  | ok c t' =>
      rw [houtcome] at hgrown
      obtain ⟨h, hallocate, -⟩ := onHeap_eq_ok.mp houtcome
      exact ⟨hgrown, hnew hallocate⟩

theorem keeps_littered_popN (n : Nat) : Keeps (Littered m) (popN n) := by
  intro t ht
  rw [popN_run]
  split
  · exact ht
  · refine ⟨?_, ht.heap⟩
    rw [ht.rest]
    rfl

theorem keeps_littered_flush : Keeps (Littered m) flush := by
  intro t ht
  have hrun : flush t = (if t.regs.activeContext = t.known .nil then pure () else do
      storeField t.regs.activeContext Slot.ip (.ofNat t.regs.ip)
      storeField t.regs.activeContext Slot.sp (.ofNat t.regs.sp) : MachineM Unit) t := rfl
  rw [hrun, ht.known_eq, ht.activeContext_eq]
  split
  · exact ht
  · next hne =>
    have hkeeps := (keeps_littered_storeField_saved (m := m) ⟨rfl, hne, .inl rfl⟩ t.regs.ip).bind fun _ =>
      keeps_littered_storeField_saved ⟨rfl, hne, .inr rfl⟩ t.regs.sp
    exact hkeeps t ht

/-! ## Evaluating a block -/

theorem ensures_littered_instantiateBlock (hm : m.Closed) (block : Value)
    (hcaller : caller.Within m.heap.occupied) :
    Ensures (Littered m) (instantiateBlock block caller) (fun c t => Littered m t ∧ IsNew m c)
      fun _ => Littered m := by
  refine (keeps_readHeap _).ensures.bind fun size => (ensures_littered_newObject hm _ _).bind fun c => ?_
  refine .assume fun hnew => (keeps_littered_transferFields hnew _ _ _ _).ensures.bind fun _ => ?_
  refine Ensures.bind (Q := fun x t => Littered m t ∧ x.Within m.heap.occupied) ?_ fun initialIp => ?_
  · exact (ensures_fetchField _ _ _).weaken (fun _ => id)
      (fun x t ⟨ht, hx⟩ => ⟨ht, ht.heap.within.fetchField hx⟩) fun _ _ => id
  refine .assume fun hinitial => (keeps_littered_storeField_new hnew hinitial).ensures.bind fun _ => ?_
  refine (keeps_littered_storeField_new hnew (Value.within_int _ _)).ensures.bind fun _ => ?_
  refine (keeps_littered_storeField_new hnew hcaller).ensures.bind fun _ => ?_
  exact Ensures.pure fun t ht => ⟨ht, hnew⟩

/-- Registers other than the stack pointer are loaded last. -/
theorem ensures_littered_activateBlock (hm : m.Closed) (block source : Value) (first argc consumed : Nat) :
    Ensures (Littered m) (activateBlock block source first argc consumed) (fun _ _ => True)
      fun _ => Littered m := by
  refine (keeps_read _).ensures.bind fun expected => ?_
  refine Ensures.ite (fun _ => ?_) fun _ => Ensures.throw fun _ h => h
  refine Ensures.bind (Q := fun u t => Littered m t ∧ u.regs.activeContext = m.regs.activeContext) ?_
    fun u => .assume fun hactive => ?_
  · rintro t ht
    exact ⟨ht, ht.activeContext_eq⟩
  rw [hactive]
  refine (ensures_littered_instantiateBlock hm _ hm.activeContext).bind fun context => .assume fun hnew => ?_
  refine (keeps_littered_transferFields hnew _ _ _ _).ensures.bind fun _ => ?_
  refine (keeps_littered_storeField_new hnew (Value.within_int _ _)).ensures.bind fun _ => ?_
  -- a refusal comes at the latest when the registers are read, after the pointers have been saved
  refine (keeps_littered_popN _).ensures.bind fun _ => keeps_littered_flush.ensures.bind fun _ => ?_
  exact (keeps_read _).ensures.bind fun regs _ _ => trivial

/-- Where the evaluation of a block is refused, the machine has grown. -/
theorem ensures_littered_blockValue (hm : m.Closed) (argc : Nat) :
    Ensures (Littered m) (blockValue argc) (fun done t => done = false → Littered m t) fun _ => Littered m := by
  refine (keeps_read _).ensures.bind fun block => (keeps_read _).ensures.bind fun accepted => ?_
  refine Ensures.ite (fun _ => ?_) fun _ => Ensures.pure fun _ h _ => h
  refine keeps_get.ensures.bind fun t => (ensures_littered_activateBlock hm _ _ _ _ _).bind fun _ => ?_
  exact Ensures.pure fun _ _ h => Bool.noConfusion h

end Machine

end MessageMachine
