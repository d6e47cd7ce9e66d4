import MessageMachine.Machine.Scheduler
import MessageMachine.Proofs.Frame.Stack

/-!
# Queues and processes hold what they should

The scheduler stores processes in links, links in queues and contexts in processes.  What it stores
it has read from fields of the same sort, or made itself, so each of its actions keeps the machine
contained (`Yields (Stays g strict)`).  Leaving the processor makes no context active
(`Yields (Rests g strict)`), and only taking it wakes one (`Yields (Moves g strict)`).
-/

namespace MessageMachine

variable {m m' : Machine} {strict : Bool} {g : Regime}

namespace Machine

/-! ## Stores -/

/-- A store into one of the machine's own objects, other than a context. -/
theorem yields_storeHolder (hm : Contained g m) {x : Holder} {v new : Value} {i : Nat}
    (hx : ∀ old, m.heap.fetchField v i = .ok old → x.Has m.known m.heap v) (hne : x ≠ .context)
    (hnew : ∀ role, x.role i = some role → Suits g m.known m.heap role new)
    (htable : x = .processor → i ≠ Slot.interruptTable) :
    Yields (Stays g strict) (storeField v i new) (fun _ _ => True) m := by
  refine (yields_storeField hm (fun old hold hc => ?_) fun h hstored => ?_).weaken (fun _ => id)
    fun _ _ _ _ => trivial
  · exact absurd (hm.framed.has_unique (hx old hold) (show Holder.context.Has _ _ v from hc)) hne
  obtain ⟨old, hold⟩ := hstored.before
  refine hm.framed.harmless_holder (hx old hold) hne ?_ fun hp hi => htable hp hi.symm
  rintro role j new' rfl hrole hfetch
  cases hstored.self.symm.trans hfetch
  exact hnew role hrole

/-- A new object of the machine. -/
theorem yields_newObject (hm : Contained g m) (type : Landmark) (count : Nat) :
    Yields (Stays g strict) (newObject type count)
      (fun v m' => m'.heap.typeOf v = .ok (m'.known type)) m := by
  refine Ensures.yields ((ensures_newObject hm.framed.settled type count).weaken (fun _ => id) ?_ ?_)
  · rintro v _ ⟨h, hmade, rfl⟩
    have hw := hm.framed.widened_of_extends (.of_made hmade)
    exact ⟨(hm.widened hw).of_strict, hmade.type_eq⟩
  · rintro _ _ rfl
    exact .refl hm

/-- A change of registers or schedule that does not concern the active context. -/
theorem Contained.withSchedule (hm : Contained g m) (s : Schedule) :
    Stays g strict m { m with schedule := s } :=
  ⟨⟨hm.framed, hm.frame, hm.entry, hm.wait⟩, rfl, .refl .., .refl _, .of_contexts fun _ _ _ _ => id⟩

theorem yields_modifySchedule (hm : Contained g m) (f : Schedule → Schedule) :
    Yields (Stays g strict) (modifySchedule f) (fun _ _ => True) m := ⟨hm.withSchedule _, trivial⟩

theorem Contained.withEntryWait (hm : Contained g m) {s : Value}
    (hs : Suits g m.known m.heap .semaphore s) :
    Stays g strict m { m with regs.entryWait := s } :=
  hm.withRegs_of_sp ⟨rfl, rfl, rfl, rfl, rfl, rfl⟩ rfl rfl hs

end Machine

/-! ## Queues -/

namespace Queue

open Machine

/-- The queue of ready processes, or one of those waiting for a semaphore. -/
def Known (g : Regime) (m : Machine) (q : Queue) : Prop :=
  q = ready m ∨ ∃ s, Suits g m.known m.heap .semaphore s ∧ q = waiting s

theorem Known.mono {q : Queue} (hq : q.Known g m) (hs : Stays g strict m m') : q.Known g m' := by
  rcases hq with rfl | ⟨s, hfills, rfl⟩
  · exact .inl (congrArg (fun k => Queue.mk k _ _) (congrArg (· .processor) hs.known.symm))
  · exact .inr ⟨s, hs.fills hfills, rfl⟩

/-- The owner of a queue has two fields for links. -/
theorem Known.exists_holder (hm : Contained g m) {q : Queue} (hq : q.Known g m) :
    ∃ x : Holder, x ≠ .context ∧ x.role q.first = some .link ∧ x.role q.last = some .link ∧
      ∀ i old, m.heap.fetchField q.owner i = .ok old → x.Has m.known m.heap q.owner := by
  rcases hq with rfl | ⟨s, hfills, rfl⟩
  · exact ⟨.processor, nofun, rfl, rfl, fun _ _ _ => rfl⟩
  · exact ⟨.semaphore, nofun, rfl, rfl, fun _ _ hfetch => hm.framed.plays_of_fetchField hfills hfetch⟩

/-- The first and the last link of a queue are links. -/
theorem Known.fills (hm : Contained g m) {q : Queue} (hq : q.Known g m) {i : Nat} {link : Value}
    (hi : i = q.first ∨ i = q.last) (hfetch : m.heap.fetchField q.owner i = .ok link) :
    Suits g m.known m.heap .link link := by
  obtain ⟨x, -, hfirst, hlast, hx⟩ := hq.exists_holder hm
  rcases hi with rfl | rfl
  · exact hm.framed.roles x _ _ _ _ (hx _ _ hfetch) hfirst hfetch
  · exact hm.framed.roles x _ _ _ _ (hx _ _ hfetch) hlast hfetch

theorem yields_storeOwner (hm : Contained g m) {q : Queue} (hq : q.Known g m) {i : Nat} {link : Value}
    (hi : i = q.first ∨ i = q.last) (hlink : Suits g m.known m.heap .link link) :
    Yields (Stays g strict) (storeField q.owner i link) (fun _ _ => True) m := by
  obtain ⟨x, hne, hfirst, hlast, hx⟩ := hq.exists_holder hm
  have hrole : x.role i = some .link := by rcases hi with rfl | rfl <;> assumption
  refine yields_storeHolder hm (hx _) hne (fun role hrole' => ?_) ?_
  · cases hrole.symm.trans hrole'
    exact hlink
  · rintro rfl rfl
    cases hrole

theorem yields_storeNext (hm : Contained g m) {link next : Value}
    (hlink : Suits g m.known m.heap .link link) (hnext : Suits g m.known m.heap .link next) :
    Yields (Stays g strict) (storeField link Slot.linkNext next) (fun _ _ => True) m := by
  refine yields_storeHolder (x := .link) hm (fun _ => hm.framed.plays_of_fetchField hlink) nofun
    (fun role hrole => ?_) nofun
  cases hrole
  exact hnext

theorem fills_next (hm : Contained g m) {link next : Value} (hlink : Suits g m.known m.heap .link link)
    (hfetch : m.heap.fetchField link Slot.linkNext = .ok next) : Suits g m.known m.heap .link next :=
  hm.framed.roles .link _ _ _ _ (hm.framed.plays_of_fetchField hlink hfetch) rfl hfetch

theorem yields_newLink (hm : Contained g m) {value next : Value}
    (hvalue : Suits g m.known m.heap .process value) (hnext : Suits g m.known m.heap .link next) :
    Yields (Stays g strict) (newLink value next)
      (fun link m' => m'.heap.typeOf link = .ok (m'.known .link)) m := by
  refine (yields_newObject hm .link _).bind fun link m₁ hs₁ hlink => ?_
  have hstore : Yields (Stays g strict) (storeField link Slot.linkValue value) _ m₁ :=
    yields_storeHolder (x := .link) hs₁.contained (fun _ _ => hlink) nofun (fun role hrole => by
      cases hrole
      exact hs₁.fills hvalue) nofun
  refine hstore.bind fun _ m₂ hs₂ _ => ?_
  have hs := hs₁.trans hs₂
  refine (yields_storeNext hs.contained (.inr (hs₂.type hlink)) (hs.fills hnext)).bind
    fun _ m₃ hs₃ _ => Yields.pure (.refl hs₃.contained) (hs₃.type (hs₂.type hlink))

theorem yields_pushBack (hm : Contained g m) {q : Queue} (hq : q.Known g m) {value : Value}
    (hvalue : Suits g m.known m.heap .process value) :
    Yields (Stays g strict) (q.pushBack value) (fun _ _ => True) m := by
  refine yields_landmark_bind ?_
  refine (yields_newLink hm hvalue (.inl rfl)).bind fun link m₁ hs₁ hlink => ?_
  have hq₁ := hq.mono hs₁
  refine yields_fetchField_bind (.refl hs₁.contained) fun last hlast => ?_
  have hlast := hq₁.fills hs₁.contained (.inr rfl) hlast
  have hend : ∀ m₂, Stays g strict m₁ m₂ →
      Yields (Stays g strict) (storeField q.owner q.last link) (fun _ _ => True) m₂ := fun m₂ hs₂ =>
    yields_storeOwner hs₂.contained (hq₁.mono hs₂) (.inr rfl) (.inr (hs₂.type hlink))
  refine Yields.ite (fun _ => ?_) fun _ => ?_
  · exact (yields_storeOwner hs₁.contained hq₁ (.inl rfl) (.inr hlink)).bind
      fun _ m₂ hs₂ _ => hend m₂ hs₂
  · exact (yields_storeNext hs₁.contained hlast (.inr hlink)).bind fun _ m₂ hs₂ _ => hend m₂ hs₂

theorem yields_pushFront (hm : Contained g m) {q : Queue} (hq : q.Known g m) {value : Value}
    (hvalue : Suits g m.known m.heap .process value) :
    Yields (Stays g strict) (q.pushFront value) (fun _ _ => True) m := by
  refine yields_fetchField_bind (.refl hm) fun first hfirst => ?_
  have hfirst := hq.fills hm (.inl rfl) hfirst
  refine (yields_newLink hm hvalue hfirst).bind fun link m₁ hs₁ hlink => ?_
  refine (yields_storeOwner hs₁.contained (hq.mono hs₁) (.inl rfl) (.inr hlink)).bind
    fun _ m₂ hs₂ _ => ?_
  refine yields_landmark_bind (Yields.ite (fun _ => ?_) fun _ =>
    Yields.pure (.refl hs₂.contained) trivial)
  exact yields_storeOwner hs₂.contained ((hq.mono hs₁).mono hs₂) (.inr rfl) (.inr (hs₂.type hlink))

theorem yields_popFront (hm : Contained g m) {q : Queue} (hq : q.Known g m) :
    Yields (Stays g strict) q.popFront
      (fun found m' => ∀ value, found = some value → Suits g m'.known m'.heap .process value) m := by
  refine yields_landmark_bind (yields_fetchField_bind (.refl hm) fun first hfirst => ?_)
  refine Yields.ite (fun _ => Yields.pure (.refl hm) nofun) fun _ => ?_
  have hfirst := hq.fills hm (.inl rfl) hfirst
  refine yields_fetchField_bind (.refl hm) fun value hvalue => ?_
  have hvalue : Suits g m.known m.heap .process value :=
    hm.framed.roles .link _ _ _ _ (hm.framed.plays_of_fetchField hfirst hvalue) rfl hvalue
  refine yields_fetchField_bind (.refl hm) fun next hnext => ?_
  refine (yields_storeOwner hm hq (.inl rfl) (fills_next hm hfirst hnext)).bind fun _ m₁ hs₁ _ => ?_
  have hanswer : ∀ m₂, Stays g strict m m₂ →
      ∀ found, some value = some found → Suits g m₂.known m₂.heap .process found := by
    rintro m₂ hs₂ _ ⟨rfl⟩
    exact hs₂.fills hvalue
  refine Yields.ite (fun _ => ?_) fun _ => Yields.pure (.refl hs₁.contained) (hanswer m₁ hs₁)
  have hnil : Suits g m₁.known m₁.heap .link (m.known .nil) := .inl (by rw [hs₁.known])
  exact (yields_storeOwner hs₁.contained (hq.mono hs₁) (.inr rfl) hnil).bind fun _ m₂ hs₂ _ =>
    Yields.pure (.refl hs₂.contained) (hanswer m₂ (hs₁.trans hs₂))

theorem yields_unlinkFrom (hm : Contained g m) {q : Queue} (hq : q.Known g m) (value : Value)
    (fuel : Nat) {previous link : Value} (hprevious : Suits g m.known m.heap .link previous)
    (hlink : Suits g m.known m.heap .link link) :
    Yields (Stays g strict) (q.unlinkFrom value (m.known .nil) fuel previous link)
      (fun _ _ => True) m := by
  induction fuel generalizing previous link with
  | zero => exact Yields.throw (.refl hm)
  | succ fuel ih =>
      refine Yields.ite (fun _ => Yields.pure (.refl hm) trivial) fun _ => ?_
      refine yields_fetchField_bind (.refl hm) fun next hnext => ?_
      have hnext := fills_next hm hlink hnext
      refine yields_fetchField_bind (.refl hm) fun found hfound => ?_
      refine Yields.ite (fun _ => ?_) fun _ => ih hlink hnext
      have hend : ∀ m₁, Stays g strict m m₁ → Yields (Stays g strict) (do
            if next = m.known .nil then storeField q.owner q.last previous
            return true) (fun _ _ => True) m₁ := by
        intro m₁ hs₁
        refine Yields.ite (fun _ => ?_) fun _ => Yields.pure (.refl hs₁.contained) trivial
        exact (yields_storeOwner hs₁.contained (hq.mono hs₁) (.inr rfl) (hs₁.fills hprevious)).bind
          fun _ m₂ hs₂ _ => Yields.pure (.refl hs₂.contained) trivial
      refine Yields.ite (fun _ => ?_) fun _ => ?_
      · exact (yields_storeOwner hm hq (.inl rfl) hnext).bind fun _ m₁ hs₁ _ => hend m₁ hs₁
      · exact (yields_storeNext hm hprevious hnext).bind fun _ m₁ hs₁ _ => hend m₁ hs₁

theorem yields_unlink (hm : Contained g m) {q : Queue} (hq : q.Known g m) (value : Value) :
    Yields (Stays g strict) (q.unlink value) (fun _ _ => True) m := by
  refine yields_landmark_bind (yields_fetchField_bind (.refl hm) fun first hfirst => ?_)
  exact yields_get_bind (yields_unlinkFrom hm hq value _ (.inl rfl) (hq.fills hm (.inl rfl) hfirst))

end Queue

namespace Machine

/-! ## Transitions -/

theorem fills_activeProcess (hm : Contained g m) {process : Value}
    (hfetch : m.activeProcess = .ok process) : Suits g m.known m.heap .process process :=
  hm.framed.roles .processor _ _ _ _ rfl rfl (liftFault_eq_ok.mp hfetch)

theorem ready_known (m : Machine) : (Queue.ready m).Known g m := .inl rfl

theorem yields_storeActive (hm : Contained g m) {process : Value}
    (hprocess : Suits g m.known m.heap .process process) :
    Yields (Stays g strict) (storeField (m.known .processor) Slot.activeProcess process)
      (fun _ _ => True) m := by
  refine yields_storeHolder (x := .processor) hm (fun _ _ => rfl) nofun (fun role hrole => ?_)
    fun _ => by decide
  cases hrole
  exact hprocess

theorem yields_storeProcessContext (hm : Contained g m) {process context : Value}
    (hprocess : Suits g m.known m.heap .process process)
    (hcontext : Suits g m.known m.heap .context context) :
    Yields (Stays g strict) (storeField process Slot.processContext context) (fun _ _ => True) m := by
  refine yields_storeHolder (x := .process) hm (fun _ => hm.framed.plays_of_fetchField hprocess) nofun
    (fun role hrole => ?_) nofun
  cases hrole
  exact hcontext

theorem yields_storeProcessTime (hm : Contained g m) {process : Value}
    (hprocess : Suits g m.known m.heap .process process) (time : Value) :
    Yields (Stays g strict) (storeField process Slot.processTime time) (fun _ _ => True) m :=
  yields_storeHolder (x := .process) hm (fun _ => hm.framed.plays_of_fetchField hprocess) nofun
    nofun nofun

theorem yields_storeExcess (hm : Contained g m) {semaphore : Value}
    (hsemaphore : Suits g m.known m.heap .semaphore semaphore) (excess : Value) :
    Yields (Stays g strict) (storeField semaphore Slot.excessSignals excess) (fun _ _ => True) m :=
  yields_storeHolder (x := .semaphore) hm (fun _ => hm.framed.plays_of_fetchField hsemaphore) nofun
    nofun nofun

theorem yields_requestSwitch (hm : Contained g m) :
    Yields (Stays g strict) requestSwitch (fun _ _ => True) m := yields_modifySchedule hm _

theorem yields_requeueActive (hm : Contained g m) :
    Yields (Stays g strict) requeueActive (fun _ _ => True) m := by
  refine yields_read_bind (.refl hm) fun active hactive => ?_
  refine yields_get_bind (yields_landmark_bind (Yields.ite (fun _ => ?_) fun _ =>
    Yields.pure (.refl hm) trivial))
  exact yields_get_bind (Queue.yields_pushBack hm (ready_known m) (fills_activeProcess hm hactive))

/-- The active process goes to the back, and a switch is due. -/
theorem yields_requeue_request (hm : Contained g m) :
    Yields (Stays g strict) (do requeueActive; requestSwitch) (fun _ _ => True) m :=
  (yields_requeueActive hm).bind fun _ _ hs _ => yields_requestSwitch hs.contained

theorem yields_signal (hm : Contained g m) {semaphore : Value}
    (hsemaphore : Suits g m.known m.heap .semaphore semaphore) :
    Yields (Stays g strict) (signal semaphore) (fun _ _ => True) m := by
  refine (Queue.yields_popFront hm (.inr ⟨semaphore, hsemaphore, rfl⟩)).bind fun found m₁ hs₁ hfound => ?_
  cases found with
  | some waiter =>
      have hwaiter := hfound waiter rfl
      have hend : ∀ m₂, Stays g strict m₁ m₂ → Yields (Stays g strict) (do
            (Queue.ready (← get)).pushFront waiter
            requeueActive
            requestSwitch) (fun _ _ => True) m₂ := by
        intro m₂ hs₂
        refine yields_get_bind ((Queue.yields_pushFront hs₂.contained (ready_known m₂)
          (hs₂.fills hwaiter)).bind fun _ m₃ hs₃ _ => yields_requeue_request hs₃.contained)
      refine yields_landmark_bind (yields_get_bind (Yields.ite (fun _ => ?_) fun _ =>
        hend m₁ (.refl hs₁.contained)))
      have hforget : Yields (Stays g strict)
          (modifyRegs fun regs => { regs with entryWait := m₁.known .nil }) (fun _ _ => True) m₁ :=
        ⟨hs₁.contained.withEntryWait (.inl rfl), trivial⟩
      exact hforget.bind fun _ m₂ hs₂ _ => hend m₂ hs₂
  | none =>
      exact yields_read_bind (.refl hs₁.contained) fun excess _ =>
        yields_storeExcess hs₁.contained (hs₁.fills hsemaphore) _

theorem yields_wait (hm : Contained g m) {semaphore : Value}
    (hsemaphore : Suits g m.known m.heap .semaphore semaphore) :
    Yields (Stays g strict) (wait semaphore) (fun _ _ => True) m := by
  refine yields_read_bind (.refl hm) fun excess _ => ?_
  refine Yields.ite (fun _ => yields_storeExcess hm hsemaphore _) fun _ => ?_
  refine yields_read_bind (.refl hm) fun active hactive => ?_
  refine (Queue.yields_pushBack hm (.inr ⟨semaphore, hsemaphore, rfl⟩)
    (fills_activeProcess hm hactive)).bind fun _ m₁ hs₁ _ => ?_
  refine yields_get_bind (Yields.ite (fun _ => ?_) fun _ => yields_requestSwitch hs₁.contained)
  have hremember : Yields (Stays g strict)
      (modifyRegs fun regs => { regs with entryWait := semaphore }) (fun _ _ => True) m₁ :=
    ⟨hs₁.contained.withEntryWait (hs₁.fills hsemaphore), trivial⟩
  exact hremember.bind fun _ m₂ hs₂ _ => yields_requestSwitch hs₂.contained

theorem yields_yieldProcessor (hm : Contained g m) :
    Yields (Stays g strict) yieldProcessor (fun _ _ => True) m := by
  refine yields_landmark_bind (yields_fetchField_bind (.refl hm) fun first _ => ?_)
  exact yields_landmark_bind (Yields.ite (fun _ => Yields.pure (.refl hm) trivial) fun _ =>
    yields_requeue_request hm)

theorem yields_forkProcess (hm : Contained g m) {context : Value}
    (hcontext : Suits g m.known m.heap .context context) :
    Yields (Stays g strict) (forkProcess context) (fun _ _ => True) m := by
  refine (yields_newObject hm .process _).bind fun process m₁ hs₁ hprocess => ?_
  refine (yields_storeProcessContext hs₁.contained (.inr hprocess) (hs₁.fills hcontext)).bind
    fun _ m₂ hs₂ _ => ?_
  refine (yields_storeProcessTime hs₂.contained (.inr (hs₂.type hprocess)) _).bind
    fun _ m₃ hs₃ _ => ?_
  refine yields_get_bind ((Queue.yields_pushBack hs₃.contained (ready_known m₃)
    (.inr (hs₃.type (hs₂.type hprocess)))).bind fun _ m₄ hs₄ _ => ?_)
  refine (yields_requeueActive hs₄.contained).bind fun _ m₅ hs₅ _ => ?_
  exact (yields_requestSwitch hs₅.contained).bind fun _ m₆ hs₆ _ =>
    Yields.pure (.refl hs₆.contained) trivial

theorem yields_detachEntryProcess (hm : Contained g m) :
    Yields (Stays g strict) detachEntryProcess (fun _ _ => True) m := by
  refine yields_landmark_bind (yields_get_bind (yields_get_bind ?_))
  refine (Queue.yields_unlink hm (ready_known m) _).bind fun _ m₁ hs₁ _ => ?_
  refine yields_get_bind (Yields.ite (fun _ => Yields.pure (.refl hs₁.contained) trivial) fun _ => ?_)
  refine (Queue.yields_unlink hs₁.contained (.inr ⟨_, hs₁.contained.wait, rfl⟩) _).bind
    fun _ m₂ hs₂ _ => ?_
  have hnil : m.known .nil = m₂.known .nil := by rw [hs₂.known, hs₁.known]
  exact ⟨hs₂.contained.withEntryWait (.inl hnil), trivial⟩

/-- The running process ends, and with it its bottom context. -/
theorem yields_processFinished (hm : Contained g m) (v : Value) :
    Yields (Rests g strict) (processFinished v) (fun _ _ => True) m := by
  refine yields_landmark_bind (yields_read_bind (Stays.refl hm).rests fun active hactive => ?_)
  have hactive := fills_activeProcess hm hactive
  have hend : ∀ m₁, Stays g strict m m₁ → Yields (Rests g strict) (do
        clearRegisters
        if active = (← get).regs.entryProcess then modifyRegs ({ · with result := some v })
        else
          storeField (← landmark .processor) Slot.activeProcess (m.known .nil)
          requestSwitch) (fun _ _ => True) m₁ := by
    intro m₁ hs₁
    refine (yields_clearRegisters hs₁.contained).bind fun _ m₂ hs₂ _ => ?_
    refine yields_get_bind (Yields.ite (fun _ => ?_) fun _ => ?_)
    · have hresult : Stays g strict m₂ { m₂ with regs.result := some v } :=
        hs₂.contained.withRegs_of_sp ⟨rfl, rfl, rfl, rfl, rfl, rfl⟩ rfl rfl hs₂.contained.wait
      exact ⟨hresult.rests, trivial⟩
    · have hnil : Suits g m₂.known m₂.heap .process (m.known .nil) :=
        .inl (by rw [hs₂.known, hs₁.known])
      have hvacate : Yields (Stays g strict) (do
          storeField (m₂.known .processor) Slot.activeProcess (m.known .nil)
          requestSwitch) (fun _ _ => True) m₂ :=
        (yields_storeActive hs₂.contained hnil).bind fun _ _ hs _ => yields_requestSwitch hs.contained
      exact yields_landmark_bind (hvacate.weaken (fun _ => Stays.rests) fun _ _ _ => id)
  refine Yields.ite (fun _ => hend m (.refl hm)) fun _ => ?_
  exact (yields_storeProcessContext hm hactive (.inl rfl)).resting.bind
    fun _ m₁ _ ⟨hs₁, _⟩ => hend m₁ hs₁

/-! ## Housekeeping -/

/-- The interrupt semaphores. -/
theorem fills_interrupt (hm : Contained g m) {table semaphore : Value} {i : Nat}
    (htable : m.heap.fetchField (m.known .processor) Slot.interruptTable = .ok table)
    (hfetch : m.heap.fetchField table i = .ok semaphore) : Suits g m.known m.heap .semaphore semaphore :=
  hm.framed.roles .interrupts table i .semaphore _ htable rfl hfetch

theorem yields_passTime (hm : Contained g m) (nanoseconds : Nat) :
    Yields (Stays g strict) (passTime nanoseconds) (fun _ _ => True) m := yields_modifySchedule hm _

theorem yields_receiveEvents (hm : Contained g m) {semaphore : Value}
    (hsemaphore : Suits g m.known m.heap .semaphore semaphore) (events : List Int) :
    Yields (Stays g strict) (events.forM (receiveEvent semaphore)) (fun _ _ => True) m := by
  induction events generalizing m with
  | nil => exact Yields.pure (.refl hm) trivial
  | cons event events ih =>
      have hfirst : Yields (Stays g strict) (receiveEvent semaphore event) (fun _ _ => True) m :=
        (yields_modifySchedule hm _).bind fun _ m₁ hs₁ _ =>
          yields_signal hs₁.contained (hs₁.fills hsemaphore)
      exact hfirst.bind fun _ m₁ hs₁ _ => ih hs₁.contained (hs₁.fills hsemaphore)

theorem yields_poll (hm : Contained g m) : Yields (Stays g strict) poll (fun _ _ => True) m := by
  refine (yields_passTime hm 1).bind fun _ m₁ hs₁ _ => ?_
  refine yields_landmark_bind (yields_fetchField_bind (.refl hs₁.contained) fun table htable => ?_)
  have hinterrupt : ∀ {m₂ semaphore i}, Stays g strict m₁ m₂ →
      m₂.heap.fetchField table i = .ok semaphore →
      Suits g m₂.known m₂.heap .semaphore semaphore := by
    intro m₂ semaphore i hs₂ hsemaphore
    refine fills_interrupt hs₂.contained ?_ hsemaphore
    rw [hs₂.known]
    exact hs₂.kept.table _ htable
  have hend : ∀ m₂, Stays g strict m₁ m₂ → Yields (Stays g strict) (do
        let events ← modifyGet fun m => (m.feed.drain.1, { m with feed := m.feed.drain.2 })
        unless events.isEmpty do
          let semaphore ← fetchField table Slot.inputInterrupt
          events.forM (receiveEvent semaphore)) (fun _ _ => True) m₂ := by
    intro m₂ hs₂
    have hdrain : Yields (Stays g strict) (modifyGet fun m : Machine =>
        ((m.feed.drain).1, { m with feed := (m.feed.drain).2 }) : MachineM (List Int))
        (fun _ _ => True) m₂ :=
      ⟨⟨⟨hs₂.contained.framed, hs₂.contained.frame, hs₂.contained.entry, hs₂.contained.wait⟩, rfl,
        .refl .., .refl _, .of_contexts fun _ _ _ _ => id⟩, trivial⟩
    refine hdrain.bind fun events m₃ hs₃ _ => ?_
    refine Yields.ite (fun _ => Yields.pure (.refl hs₃.contained) trivial) fun _ => ?_
    refine yields_fetchField_bind (.refl hs₃.contained) fun semaphore hsemaphore => ?_
    exact yields_receiveEvents hs₃.contained (hinterrupt (hs₂.trans hs₃) hsemaphore) _
  refine yields_get_bind (yields_get_bind (Yields.ite (fun _ => ?_) fun _ => ?_))
  · refine (yields_modifySchedule hs₁.contained _).bind fun _ m₂ hs₂ _ => ?_
    refine yields_fetchField_bind (.refl hs₂.contained) fun semaphore hsemaphore => ?_
    exact (yields_signal hs₂.contained (hinterrupt hs₂ hsemaphore)).bind fun _ m₃ hs₃ _ =>
      hend m₃ (hs₂.trans hs₃)
  · exact hend m₁ (.refl hs₁.contained)

theorem yields_nextProcess (hm : Contained g m) (since fuel : Nat) :
    Yields (Stays g strict) (nextProcess since fuel)
      (fun next m' => Suits g m'.known m'.heap .process next.1 ∧ Live g m'.known m'.heap next.2)
      m := by
  induction fuel generalizing m with
  | zero => exact Yields.throw (.refl hm)
  | succ fuel ih =>
      refine yields_get_bind ((Queue.yields_popFront hm (ready_known m)).bind fun found m₁ hs₁ hfound => ?_)
      cases found with
      | some process =>
          have hprocess := hfound process rfl
          refine yields_fetchField_bind (.refl hs₁.contained) fun context hcontext => ?_
          have hcontext : Suits g m₁.known m₁.heap .context context :=
            hs₁.contained.framed.roles .process _ _ _ _
              (hs₁.contained.framed.plays_of_fetchField hprocess hcontext) rfl hcontext
          refine yields_landmark_bind (Yields.ite (fun hne => ?_) fun _ => ih hs₁.contained)
          exact Yields.pure (.refl hs₁.contained) ⟨hprocess, hcontext.resolve_left hne⟩
      | none =>
          refine yields_get_bind (Yields.ite (fun _ => Yields.throw (.refl hs₁.contained)) fun _ => ?_)
          refine yields_get_bind ((yields_passTime hs₁.contained _).bind fun _ m₂ hs₂ _ => ?_)
          exact (yields_poll hs₂.contained).bind fun _ m₃ hs₃ _ => ih hs₃.contained

theorem yields_suspend (hm : Contained g m) {process : Value}
    (hprocess : Suits g m.known m.heap .process process) :
    Yields (Stays g strict) (suspend process) (fun _ _ => True) m := by
  refine yields_get_bind (yields_fetchField_bind (.refl hm) fun time _ => ?_)
  refine yields_lift_bind (.refl hm) fun total _ => ?_
  refine (yields_storeProcessTime hm hprocess total).bind fun _ m₁ hs₁ _ => ?_
  exact yields_get_bind (yields_storeProcessContext hs₁.contained (hs₁.fills hprocess)
    hs₁.contained.fills_active)

theorem yields_contextSwitch (hm : Contained g m) (fuel : Nat) :
    Yields (Moves g strict) (contextSwitch fuel) (fun _ _ => True) m := by
  refine yields_landmark_bind (yields_landmark_bind ?_)
  refine (yields_flush hm).stays_bind fun _ m₁ hs₁ _ => ?_
  refine yields_read_bind (Stays.refl hs₁.contained).moves fun outgoing houtgoing => ?_
  have hend : ∀ m₂, Stays g strict m₁ m₂ → Yields (Moves g strict) (do
        storeField (m.known .processor) Slot.activeProcess (m.known .nil)
        clearRegisters
        let next ← nextProcess (← get).schedule.clock fuel
        storeField (m.known .processor) Slot.activeProcess next.1
        reload next.2
        modifySchedule fun s =>
          { s with switchPending := false, switches := s.switches + 1, lastSwitch := s.clock })
      (fun _ _ => True) m₂ := by
    intro m₂ hs₂
    rw [← hs₁.known, ← hs₂.known]
    refine (yields_storeActive hs₂.contained (.inl rfl)).stays_bind fun _ m₃ hs₃ _ => ?_
    refine (yields_clearRegisters hs₃.contained).rests_bind fun _ m₄ hs₄ _ => ?_
    refine yields_get_bind ((yields_nextProcess hs₄.contained _ fuel).stays_bind ?_)
    rintro ⟨incoming, context⟩ m₅ hs₅ ⟨hincoming, hcontext⟩
    dsimp only at hincoming hcontext ⊢
    rw [← hs₃.known, ← hs₄.known, ← hs₅.known]
    refine (yields_storeActive hs₅.contained hincoming).stays_bind fun _ m₆ hs₆ _ => ?_
    have hcontext : Live g m₆.known m₆.heap context := by
      rw [hs₆.known]
      exact hcontext.mono hs₆.kept.types
    refine (yields_reload hs₆.contained hcontext).bind_from fun _ m₇ hs₇ _ => ?_
    exact ⟨hs₇.trans_stays (hs₇.contained.withSchedule _) rfl, trivial⟩
  refine Yields.ite (fun _ => hend m₁ (.refl hs₁.contained)) fun _ => ?_
  exact (yields_suspend hs₁.contained (fills_activeProcess hs₁.contained houtgoing)).stays_bind
    fun _ m₂ hs₂ _ => hend m₂ hs₂

/-- A round of housekeeping. -/
theorem yields_housekeeping (hm : Contained g m) (fuel : Nat) :
    Yields (Moves g strict) (housekeeping fuel) (fun _ _ => True) m := by
  refine (yields_poll hm).stays_bind fun _ m₁ hs₁ _ => ?_
  exact yields_get_bind (Yields.ite (fun _ => yields_contextSwitch hs₁.contained fuel) fun _ =>
    Yields.pure (Stays.refl hs₁.contained).moves trivial)

end Machine

end MessageMachine
