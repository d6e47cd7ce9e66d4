import MessageMachine.Machine.Send
import MessageMachine.Proofs.Machine.Conduct
import MessageMachine.Proofs.Schedule.Scheduler
import MessageMachine.Proofs.Schedule.Stores

/-!
# Primitives that change the queues

Most primitives are quiet.  Waiting, signalling, yielding and forking are not: they can leave a
switch pending.  A primitive that declines is followed by other code, which must not find a switch
pending, so what has to be known is more than what is true at the end of an instruction.

`Schedules P R` says of two properties that these operations lead from `P` to `R`, and that one that
fails has kept `P`.  Then so do the primitives made of them: each changes the queues last.  Only
forking has something left to do, which is to answer the new process, and that cannot be refused: the
answer goes where the receiver was.

`schedules_orderly` is the first instance: `P` says that the processes are in order and no switch is
pending, and `R` only the first of these.
-/

namespace MessageMachine

namespace Machine

variable {m m' : Machine} {P R : Machine → Prop} {runner : Option Value} {ended : Set Value}
  {lines : Value → Line}

/-! ## Operations on processes -/

/-- The operations on processes lead from `P` to `R`, and one that fails has kept `P`. -/
structure Schedules (P R : Machine → Prop) : Prop where
  steady : Steady P
  steady_after : Steady R
  weaken : ∀ m, P m → R m
  newSemaphore : Keeps P newSemaphore
  signal : ∀ m semaphore, P m → m.heap.typeOf semaphore = .ok (m.known .semaphore) →
    Ensures (m = ·) (signal semaphore) (fun _ => R) fun _ => P
  wait : ∀ m semaphore, P m → m.heap.typeOf semaphore = .ok (m.known .semaphore) →
    Ensures (m = ·) (wait semaphore) (fun _ => R) fun _ => P
  yield : Ensures P yieldProcessor (fun _ => R) fun _ => P
  fork : ∀ m context, P m →
    Ensures (m = ·) (forkProcess context) (fun _ m' => R m' ∧ Endures m m') fun _ => P
  finish : ∀ v, Ensures P (processFinished v) (fun _ => R) fun _ => R

/-- What a primitive leaves that has been carried out, or has declined. -/
def Tried (P R : Machine → Prop) (done : Bool) (m : Machine) : Prop := R m ∧ (done = false → P m)

/-- What a fault leaves. -/
def Failed (P R : Machine → Prop) (fault : Fault) (m : Machine) : Prop :=
  R m ∧ (fault.abortsPrimitive = false → P m)

/-- The action leads to machines with `P` from those with `P`. -/
def Along (P R : Machine → Prop) (m m' : Machine) : Prop := P m → R m'

theorem Ensures.departs {action : MachineM α} (h : Ensures P action (fun _ => R) (Failed P R)) :
    Departs (Along P P) (Along P R) action := by
  intro m
  have hm := h m
  cases hrun : action m with
  | ok a m' =>
      rw [hrun] at hm
      exact hm
  | error fault m' =>
      rw [hrun] at hm
      exact ⟨fun hp => (hm hp).1, fun habort hp => (hm hp).2 habort⟩

theorem Departs.ensures {action : MachineM α} (h : Departs (Along P P) (Along P R) action) :
    Ensures P action (fun _ => R) (Failed P R) := by
  intro m hp
  have hm := h m
  cases hrun : action m with
  | ok a m' =>
      rw [hrun] at hm
      exact hm hp
  | error fault m' =>
      rw [hrun] at hm
      exact ⟨hm.1 hp, fun habort => hm.2 habort hp⟩

theorem Ensures.attempts {action : MachineM Bool} (h : Ensures P action (Tried P R) (Failed P R)) :
    Attempts (Along P P) (Along P R) action := by
  intro m
  have hm := h m
  cases hrun : action m with
  | ok done m' =>
      rw [hrun] at hm
      exact ⟨fun hp => (hm hp).1, fun hdone hp => (hm hp).2 hdone⟩
  | error fault m' =>
      rw [hrun] at hm
      exact ⟨fun hp => (hm hp).1, fun habort hp => (hm hp).2 habort⟩

theorem keeps_answer (hP : Steady P) (argc : Nat) (v : Value) : Keeps P (answer argc v) :=
  (keeps_popN hP _).bind fun _ => (keeps_push hP _).bind fun _ => Keeps.pure _

/-- New instances have all fields nil, also those of the types of semaphores and links. -/
theorem keeps_instantiate (hP : Steady P) (type : Value) (indexed : Nat) :
    Keeps P (instantiate type indexed) := by
  refine (keeps_read _).bind fun format => (keeps_read _).bind fun fixed => ?_
  refine Keeps.ite (Keeps.throw _) ?_
  split
  · intro m hm
    have hs := hP.sound m hm
    change P (stateAfter (onHeap (Heap.allocateFields _ _ _ (m.known .nil)) m))
    rw [stateAfter_onHeap]
    refine hP.undisturbed _ _ hm (hs.undisturbed_heap (calm_allocate hs.furnished.settled rfl ?_ _))
    intro xs hxs x hx
    cases hxs
    exact (Array.mem_replicate.mp hx).2
  · refine keeps_onHeap hP fun m hm => ?_
    have hsettled := (hP.sound m hm).furnished.settled
    unfold Heap.allocateBytes
    rw [bind_run]
    cases hcheck : Heap.read (·.checkSize (Header.wordsForBytes indexed)) m.heap with
    | error fault h =>
        rw [Heap.heap_of_read_error hcheck]
        exact Calm.refl hsettled
    | ok u h =>
        obtain ⟨-, rfl⟩ := Heap.read_eq_ok.mp hcheck
        exact calm_allocate hsettled rfl (fun _ hxs => by cases hxs) _
  · exact keeps_onHeap hP fun m hm =>
      calm_allocate (hP.sound m hm).furnished.settled rfl (fun _ hxs => by cases hxs) _

theorem keeps_blockValue (hP : Steady P) (argc : Nat) : Keeps P (blockValue argc) := by
  refine (keeps_read _).bind fun block => (keeps_read _).bind fun isBlock => ?_
  refine Keeps.ite ?_ (Keeps.pure _)
  exact keeps_get.bind fun _ => (keeps_activateBlock hP _ _ _ _ _).bind fun _ => Keeps.pure _

theorem keeps_valueWithArguments (hP : Steady P) : Keeps P valueWithArguments := by
  refine (keeps_read _).bind fun block => (keeps_read _).bind fun arguments => ?_
  refine (keeps_read _).bind fun isBlock => Keeps.ite ?_ (Keeps.pure _)
  refine (keeps_read _).bind fun isArray => Keeps.ite ?_ (Keeps.pure _)
  refine (keeps_readHeap _).bind fun count => (keeps_read _).bind fun expected => ?_
  refine Keeps.ite ?_ (Keeps.throw _)
  exact (keeps_activateBlock hP _ _ _ _ _).bind fun _ => Keeps.pure _

theorem isInstance_eq_ok {v : Value} {type : Landmark} (h : m.isInstance v type = .ok true) :
    m.heap.typeOf v = .ok (m.known type) := by
  unfold isInstance at h
  split at h
  · obtain ⟨t, ht, heq⟩ := reading_bind_eq_ok.mp h
    simp only [reading_pure_eq_ok, decide_eq_true_eq] at heq
    rw [← heq]
    exact liftFault_eq_ok.mp ht
  · cases h

/-! ## Places for answers -/

/-- The object has a field at this place. -/
def HasField (v : Value) (i : Nat) (m : Machine) : Prop :=
  ∃ n, m.heap.fieldCount v = .ok n ∧ i < n

theorem steady_and_hasField (hP : Steady P) (v : Value) (i : Nat) :
    Steady fun m => P m ∧ HasField v i m := by
  refine ⟨fun m hm => hP.sound m hm.1, ?_⟩
  rintro m m' ⟨hm, n, hn, hi⟩ hu
  exact ⟨hP.undisturbed m m' hm hu, n, hu.calm.size hn, hi⟩

theorem keeps_regs_onHeap (r : Registers) (action : HeapM α) :
    Keeps (fun m => m.regs = r) (onHeap action) := by
  intro m hm
  rw [stateAfter_onHeap]
  exact hm

theorem keeps_regs_instantiateBlock (r : Registers) (block caller : Value) :
    Keeps (fun m => m.regs = r) (instantiateBlock block caller) := by
  refine (keeps_readHeap _).bind fun size => Keeps.bind ?_ fun context => ?_
  · exact (keeps_landmark _).bind fun type => (keeps_landmark _).bind fun nil =>
      keeps_regs_onHeap r _
  refine (keeps_regs_onHeap r _).bind fun _ => (keeps_fetchField _ _).bind fun initialIp => ?_
  refine (keeps_regs_onHeap r _).bind fun _ => (keeps_regs_onHeap r _).bind fun _ => ?_
  exact (keeps_regs_onHeap r _).bind fun _ => Keeps.pure _

/-- The receiver without arguments is in a field of the active context, at the stack pointer. -/
theorem hasField_of_receiver (hs : Sound m) {v : Value} (h : m.receiver 0 = .ok v) :
    m.regs.stackBase ≤ m.regs.sp ∧ 0 < m.regs.sp ∧
      HasField m.regs.activeContext m.regs.sp m := by
  have hstack : m.stackValue 0 = .ok v := h
  unfold stackValue at hstack
  split at hstack
  · cases hstack
  · next hbound =>
    have hfetch := liftFault_eq_ok.mp hstack
    obtain ⟨n, hn⟩ := Heap.exists_count_of_fetchField hfetch
    have hbase : 0 < m.regs.stackBase := by
      rcases hs.stackBase with hnil | hpos
      · rw [hnil] at hfetch
        exact absurd hfetch (hs.furnished.nil_fetchField _ _)
      · exact hpos
    exact ⟨by omega, by omega, n, hn, Heap.lt_of_fetchField hn hfetch⟩

/-- An answer that takes the place of the receiver is given, or the stack overflows. -/
theorem answer_receiver (hbase : m.regs.stackBase ≤ m.regs.sp) (hpos : 0 < m.regs.sp)
    (hfield : HasField m.regs.activeContext m.regs.sp m) (v : Value) :
    (∃ m', answer 0 v m = .ok true m') ∨
      ∃ fault m', answer 0 v m = .error fault m' ∧ fault.abortsPrimitive = true := by
  have hpop : popN 1 m = .ok () { m with regs.sp := m.regs.sp - 1 } := by
    change (if m.regs.sp + 1 < m.regs.stackBase + 1 then throw _ else _ : MachineM Unit) m = _
    rw [if_neg (by omega)]
    rfl
  have hsp : m.regs.sp - 1 + 1 = m.regs.sp := by omega
  have hpush : push v { m with regs.sp := m.regs.sp - 1 } =
      (if m.regs.sp ≥ m.regs.stackLimit then throw (Fault.stackOverflow m.regs.ip) else do
        storeField m.regs.activeContext m.regs.sp v
        modifyRegs ({ · with sp := m.regs.sp }) : MachineM Unit)
          { m with regs.sp := m.regs.sp - 1 } := by
    rw [← hsp]
    rfl
  have hanswer : answer 0 v m = (push v >>= fun _ => pure true) { m with regs.sp := m.regs.sp - 1 } := by
    unfold answer
    rw [bind_run, hpop]
  rw [hanswer, bind_run, hpush]
  by_cases hlimit : m.regs.sp ≥ m.regs.stackLimit
  · rw [if_pos hlimit]
    exact .inr ⟨_, _, rfl, rfl⟩
  · obtain ⟨n, hn, hi⟩ := hfield
    obtain ⟨old, hold⟩ := Heap.exists_fetchField hn hi
    obtain ⟨h, hstore⟩ := Heap.storeField_of_fetchField hold v
    rw [if_neg hlimit, bind_run, storeField, onHeap_run, hstore]
    exact .inl ⟨_, rfl⟩

/-! ## The primitives -/

namespace Schedules

variable (hs : Schedules P R)
include hs

theorem failed (hm : P m) (fault : Fault) : Failed P R fault m := ⟨hs.weaken m hm, fun _ => hm⟩

theorem tried (hm : P m) (done : Bool) : Tried P R done m := ⟨hs.weaken m hm, fun _ => hm⟩

/-- A quiet beginning. -/
theorem bind_ensures {x : MachineM α} {f : α → MachineM β} {Q : β → Machine → Prop} (hx : Keeps P x)
    (hf : ∀ a, Ensures P (f a) Q (Failed P R)) : Ensures P (x >>= f) Q (Failed P R) :=
  Ensures.bind (hx.ensures.weaken (fun _ => id) (fun _ _ => id) fun fault _ hm => hs.failed hm fault) hf

/-- An action on a semaphore that has kept `P` when it fails. -/
theorem attempts_onSemaphore {action : Value → MachineM Unit}
    (haction : ∀ m semaphore, P m → m.heap.typeOf semaphore = .ok (m.known .semaphore) →
      Ensures (m = ·) (action semaphore) (fun _ => R) fun _ => P) :
    Attempts (Along P P) (Along P R) (onSemaphore action) := by
  refine Ensures.attempts (hs.bind_ensures (keeps_read _) fun semaphore => ?_)
  refine Ensures.bind ((ensures_read _ _).weaken (fun _ => id) (fun _ _ => id)
    fun fault _ hm => hs.failed hm fault) fun isSemaphore => ?_
  refine Ensures.ite (fun htrue => ?_) fun _ => Ensures.pure fun _ hm => hs.tried hm.1 false
  rintro m ⟨hm, htype⟩
  rw [htrue] at htype
  refine Ensures.bind ((haction m semaphore hm (isInstance_eq_ok htype)).weaken
    (fun _ => id) (fun _ _ => id) fun fault _ hm => hs.failed hm fault) (fun _ => Ensures.pure ?_) m rfl
  exact fun _ hm => ⟨hm, nofun⟩

theorem attempts_yield : Attempts (Along P P) (Along P R) yieldPrimitive :=
  Conduct.attempts_of_departs (Ensures.departs (hs.yield.weaken (fun _ => id) (fun _ _ => id)
    fun fault _ hm => hs.failed hm fault))

theorem attempts_fork : Attempts (Along P P) (Along P R) forkPrimitive := by
  refine Ensures.attempts fun m hm => ?_
  refine Ensures.bind (ensures_read (m = ·) _ |>.weaken (fun _ => id) (fun _ _ => id) ?_)
    (fun block => ?_) m rfl
  · rintro fault _ rfl
    exact hs.failed hm fault
  rintro _ ⟨rfl, hreceiver⟩
  obtain ⟨hbase, hpos, hfield⟩ := hasField_of_receiver (hs.steady.sound m hm) hreceiver
  -- from here on the registers stay, and the active context keeps its size
  refine Ensures.weaken (P := fun m' => (P m' ∧
    HasField m.regs.activeContext m.regs.sp m') ∧ m'.regs = m.regs) (Q := Tried P R)
    (E := Failed P R) ?_ (fun _ => id) (fun _ _ => id) (fun _ _ => id) m ⟨⟨hm, hfield⟩, rfl⟩
  have hfail : ∀ (fault : Fault) (m' : Machine), (P m' ∧
      HasField m.regs.activeContext m.regs.sp m') ∧ m'.regs = m.regs → Failed P R fault m' :=
    fun fault _ hm' => hs.failed hm'.1.1 fault
  refine Ensures.bind ((keeps_read _).ensures.weaken (fun _ => id) (fun _ _ => id) hfail)
    fun isBlock => ?_
  refine Ensures.ite (fun _ => ?_) fun _ => Ensures.pure fun _ hm' => hs.tried hm'.1.1 false
  refine Ensures.bind ((keeps_read _).ensures.weaken (fun _ => id) (fun _ _ => id) hfail)
    fun expected => ?_
  refine Ensures.ite (fun _ => ?_) fun _ => Ensures.throw (hfail _)
  refine Ensures.bind ((keeps_landmark _).ensures.weaken (fun _ => id) (fun _ _ => id) hfail)
    fun nil => ?_
  refine Ensures.bind ((((opens_instantiateBlock (steady_and_hasField hs.steady _ _) block nil).keeps.and
    (keeps_regs_instantiateBlock m.regs block nil)).ensures).weaken (fun _ => id) (fun _ _ => id) hfail)
    fun context => ?_
  rintro m₁ ⟨⟨hm₁, n, hn, hi⟩, hregs₁⟩
  refine Ensures.bind ((hs.fork m₁ context hm₁).weaken (fun _ => id) (fun _ _ => id)
    fun fault _ hm' => hs.failed hm' fault) (fun process => ?_) m₁ rfl
  rintro m₂ ⟨hm₂, hendures⟩
  obtain ⟨w, hregs₂⟩ := hendures.regs_eq
  rw [hregs₁] at hregs₂
  have hkept := keeps_answer hs.steady_after 0 process m₂ hm₂
  have hanswer := answer_receiver (m := m₂) (by rw [hregs₂]; exact hbase) (by rw [hregs₂]; exact hpos)
    (by rw [hregs₂]; exact ⟨n, hendures.sizes _ _ hn, hi⟩) process
  rcases hanswer with ⟨m', hrun⟩ | ⟨fault, m', hrun, habort⟩
  · rw [hrun] at hkept ⊢
    exact ⟨hkept, nofun⟩
  · rw [hrun] at hkept ⊢
    refine ⟨hkept, fun h => ?_⟩
    rw [habort] at h
    cases h

theorem attempts_perform {send : Value → MachineM Unit}
    (hsend : ∀ v, Departs (Along P P) (Along P R) (send v)) (argc : Nat) :
    Attempts (Along P P) (Along P R) (perform send argc) := by
  refine Ensures.attempts (hs.bind_ensures (keeps_read _) fun selector => ?_)
  refine hs.bind_ensures (keeps_read _) fun isSymbol => ?_
  refine Ensures.ite (fun _ => ?_) fun _ => Ensures.pure fun _ hm => hs.tried hm false
  refine Ensures.bind (Q := fun m₀ m => P m ∧ Open m.known m.heap m₀.regs.activeContext) ?_
    fun m₀ => ?_
  · exact fun m hm => ⟨hm, (hs.steady.sound m hm).context⟩
  have hfail : ∀ (fault : Fault) (m : Machine),
      P m ∧ Open m.known m.heap m₀.regs.activeContext → Failed P R fault m :=
    fun fault _ hm => hs.failed hm.1 fault
  refine Ensures.bind (keeps_get.ensures.weaken (fun _ => id) (fun _ _ => id) hfail) fun m₁ => ?_
  refine Ensures.bind ((keeps_transferFields hs.steady _ _ _ _ _).ensures.weaken (fun _ => id)
    (fun _ _ hm => hm.1) hfail) fun _ => ?_
  refine hs.bind_ensures (keeps_pop hs.steady) fun _ => ?_
  exact Ensures.bind (hsend selector).ensures fun _ => Ensures.pure fun _ hm => ⟨hm, nofun⟩

end Schedules

/-! ## Order -/

/-- A new semaphore has no queue yet, and its signals are in no field that queues are read from. -/
theorem ensures_newSemaphore (ho : Ordered runner ended m lines) :
    Ensures (m = ·) newSemaphore (fun _ => Lingers runner ended (fun _ _ => False) m lines)
      fun _ => Lingers runner ended (fun _ _ => False) m lines := by
  refine Ensures.bind ((ensures_newObject ho.sound.furnished.settled .semaphore
    Slot.semaphoreSize).weaken (fun _ => id) (fun _ _ => id) ?_) fun semaphore => ?_
  · rintro _ _ rfl
    exact ho.lingers_self
  rintro _ ⟨h₁, hmade, rfl⟩
  have hr₁ := Relinked.made ho.sound.furnished hmade
  obtain ⟨lines₁, ho₁, hsub₁, -⟩ := ho.calm hmade.calm
  have hjoined : ∀ o p, Queued lines₁ p o → Queued lines p o ∨ False := fun o p hq => .inl (hsub₁ o p hq)
  refine Ensures.bind ((ensures_storeField ho₁.sound.furnished.settled _ _ _).weaken (fun _ => id)
    (fun _ _ => id) ?_) (fun _ => Ensures.pure ?_) _ rfl
  · rintro _ _ rfl
    exact ho₁.lingers_of_relinked hr₁ hjoined
  · rintro _ ⟨h₂, hstored, rfl⟩
    obtain ⟨ho₂, hr₂⟩ := ho₁.storeExcess hmade.type_eq hstored
    refine ho₂.lingers_of_relinked ⟨hr₁.toReshaped.trans hr₂, fun v x hv => ?_⟩ hjoined
    refine (hstored.other _ _ _ (.inl ?_)).trans (hr₁.excess v x hv)
    rintro rfl
    exact hmade.stale _ hv

theorem keeps_newSemaphore (pending : Bool) (runner : Option Value) (ended : Set Value) :
    Keeps (OrderlyWhile pending runner ended) newSemaphore := by
  rintro m ⟨⟨lines, ho⟩, rfl⟩
  exact Ensures.after ((ensures_newSemaphore ho).weaken (fun _ => id)
    (fun _ _ hm => hm.orderlyWhile) fun _ _ hm => hm.orderlyWhile) rfl

/-- The operations on processes keep them in order. -/
theorem schedules_orderly (runner : Option Value) (ended : Set Value) :
    Schedules (OrderlyWhile false runner ended) (Orderly runner ended) where
  steady := steady_orderlyWhile false runner ended
  steady_after := steady_orderly runner ended
  weaken _ hm := hm.1
  newSemaphore := keeps_newSemaphore false runner ended
  signal := by
    rintro m semaphore ⟨⟨lines, ho⟩, hidle⟩ htype
    refine (ensures_signal ho (.inr htype)).weaken (fun _ => id) (fun _ _ hm => hm.1) ?_
    rintro _ m' ⟨hm', -⟩
    rwa [hidle] at hm'
  wait := by
    rintro m semaphore ⟨⟨lines, ho⟩, hidle⟩ htype
    refine (ensures_wait ho htype hidle).weaken (fun _ => id) (fun _ _ hm => hm.orderly ho htype) ?_
    intro _ m' hm'
    rw [← hidle]
    exact hm'.orderlyWhile
  yield := by
    rintro m ⟨⟨lines, ho⟩, hidle⟩
    refine (ensures_yieldProcessor ho).weaken (fun _ => id) (fun _ _ hm => hm.orderly) ?_ m rfl
    intro _ m' hm'
    rw [← hidle]
    exact hm'.orderlyWhile
  fork := by
    rintro m context ⟨⟨lines, ho⟩, hidle⟩
    refine (ensures_forkProcess ho context).weaken (fun _ => id) (fun _ _ hm => ⟨hm.orderly, hm.toEndures⟩) ?_
    intro _ m' hm'
    rw [← hidle]
    exact hm'.orderlyWhile
  finish := ensures_processFinished

end Machine

end MessageMachine
