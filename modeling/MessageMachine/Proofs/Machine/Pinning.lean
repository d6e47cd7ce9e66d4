import MessageMachine.Proofs.Creation
import MessageMachine.Proofs.Machine.Calls
import MessageMachine.Proofs.Machine.Runs

/-!
# Pins follow what they hold

The pins of a machine are a finite map from numbers to values: `Pins.get?_pin`, `Pins.get?_unpin` and
`Pins.get?_map` say what pinning, letting go and a collection do to it, and `Pins.Tidy` is what the list
of free numbers is for.

`Pinned m held` says that `held` is the map that the history of `m` should have led to, whatever else the
machine has done in between.  `Pinned.pins_follow` is the theorem.  A collection saves the pointers of the
active context before it moves the objects, so what it keeps of that object is the object with these
pointers (`Machine.savedView`); `pinned_context_changes` shows one that is pinned.
-/

namespace MessageMachine

namespace Pins

variable {p : Pins}

/-- The free numbers are those of the empty slots, each once. -/
structure Tidy (p : Pins) : Prop where
  nodup : p.free.Nodup
  mem_free : ∀ id, id ∈ p.free ↔ p.slots[id]? = some none

theorem tidy_empty : empty.Tidy where
  nodup := List.nodup_nil
  mem_free _ := by simp [empty]

/-! ## Pinning -/

theorem slots_of_mem_free (hp : p.Tidy) {id : Nat} {free : List Nat} (hfree : p.free = id :: free) :
    p.slots[id]? = some none :=
  (hp.mem_free id).mp (hfree ▸ List.mem_cons_self)

theorem tidy_pin (hp : p.Tidy) (v : Value) : (p.pin v).2.Tidy := by
  unfold pin
  split
  · next id free hfree =>
    have hnodup := hp.nodup
    rw [hfree, List.nodup_cons] at hnodup
    have hlt := (Array.getElem?_eq_some_iff.mp (slots_of_mem_free hp hfree)).1
    refine ⟨hnodup.2, fun j => ?_⟩
    have hmem := hp.mem_free j
    rw [hfree, List.mem_cons] at hmem
    dsimp only
    rw [Array.getElem?_setIfInBounds]
    by_cases hj : id = j
    · subst hj
      simp [hnodup.1, hlt]
    · rw [if_neg hj, ← hmem]
      simp [Ne.symm hj]
  · next hfree =>
    refine ⟨List.nodup_nil, fun j => ?_⟩
    have hmem := hp.mem_free j
    rw [hfree] at hmem
    dsimp only
    rw [Array.getElem?_push, hmem]
    split
    · next hj =>
      rw [hj, Array.getElem?_eq_none le_rfl]
      simp
    · rfl

/-- The number answered was not in use. -/
theorem get?_pin_fst (hp : p.Tidy) (v : Value) : p.get? (p.pin v).1 = none := by
  unfold pin get?
  split
  · next id free hfree => rw [slots_of_mem_free hp hfree]; rfl
  · rw [Array.getElem?_eq_none le_rfl]; rfl

theorem get?_pin (hp : p.Tidy) (v : Value) :
    (p.pin v).2.get? = Function.update p.get? (p.pin v).1 (some v) := by
  funext j
  rw [Function.update_apply]
  unfold pin get?
  split
  · next id free hfree =>
    have hlt := (Array.getElem?_eq_some_iff.mp (slots_of_mem_free hp hfree)).1
    dsimp only
    rw [Array.getElem?_setIfInBounds]
    by_cases hj : id = j
    · subst hj
      simp [hlt]
    · rw [if_neg hj, if_neg (Ne.symm hj)]
  · dsimp only
    rw [Array.getElem?_push]
    split
    · rfl
    · rfl

/-! ## Letting go -/

theorem unpin_fst (p : Pins) (id : Nat) : (p.unpin id).1 = p.get? id := by
  unfold unpin
  cases p.get? id <;> rfl

/-- A value is under a number of a slot. -/
theorem get?_eq_some {id : Nat} {v : Value} : p.get? id = some v ↔ p.slots[id]? = some (some v) := by
  unfold get?
  cases p.slots[id]? with
  | none => simp
  | some slot => simp

theorem tidy_unpin (hp : p.Tidy) (id : Nat) : (p.unpin id).2.Tidy := by
  unfold unpin
  cases hget : p.get? id with
  | none => exact hp
  | some v =>
      have hslot := get?_eq_some.mp hget
      have hlt := (Array.getElem?_eq_some_iff.mp hslot).1
      have hused : id ∉ p.free := by
        rw [hp.mem_free, hslot]
        simp
      refine ⟨List.nodup_cons.mpr ⟨hused, hp.nodup⟩, fun j => ?_⟩
      dsimp only
      rw [Array.getElem?_setIfInBounds, List.mem_cons, hp.mem_free]
      by_cases hj : id = j
      · subst hj
        simp [hlt]
      · rw [if_neg hj]
        simp [Ne.symm hj]

theorem get?_unpin (p : Pins) (id : Nat) :
    (p.unpin id).2.get? = Function.update p.get? id none := by
  funext j
  rw [Function.update_apply]
  unfold unpin
  cases hget : p.get? id with
  | none =>
      by_cases hj : j = id
      · rw [if_pos hj, hj]
        exact hget
      · rw [if_neg hj]
  | some v =>
      have hlt := (Array.getElem?_eq_some_iff.mp (get?_eq_some.mp hget)).1
      unfold get?
      dsimp only
      rw [Array.getElem?_setIfInBounds]
      by_cases hj : id = j
      · subst hj
        simp [hlt]
      · rw [if_neg hj, if_neg (Ne.symm hj)]

/-! ## Replacing the values -/

/-- The pins with each value replaced. -/
def map (f : Value → Value) (p : Pins) : Pins := { p with slots := p.slots.map (Option.map f) }

theorem refillSlots_map (f : Value → Value) (slots : List (Option Value)) :
    refillSlots slots ((slots.filterMap id).map f) = slots.map (Option.map f) := by
  induction slots with
  | nil => rfl
  | cons slot slots ih =>
      cases slot with
      | none => exact congrArg (none :: ·) ih
      | some v => exact congrArg (some (f v) :: ·) ih

/-- Pins refilled with the images of their values hold the images. -/
theorem refill_map (p : Pins) (f : Value → Value) : p.refill (p.values.map f) = p.map f := by
  unfold refill values map
  rw [refillSlots_map, ← Array.toList_map]

theorem tidy_map (hp : p.Tidy) (f : Value → Value) : (p.map f).Tidy := by
  refine ⟨hp.nodup, fun id => ?_⟩
  rw [map, hp.mem_free, Array.getElem?_map]
  cases p.slots[id]? with
  | none => simp
  | some slot => cases slot <;> simp

theorem get?_map (p : Pins) (f : Value → Value) (id : Nat) :
    (p.map f).get? id = (p.get? id).map f := by
  rw [get?, map, Array.getElem?_map, get?]
  cases p.slots[id]? with
  | none => rfl
  | some slot => rfl

theorem mem_values_of_get? {id : Nat} {v : Value} (hget : p.get? id = some v) : v ∈ p.values := by
  have hslot := get?_eq_some.mp hget
  refine List.mem_filterMap.mpr ⟨some v, ?_, rfl⟩
  exact Array.mem_toList_iff.mpr (Array.mem_of_getElem? hslot)

end Pins

/-! ## What is reached from a value -/

/-- What is reached from a value through types and fields, itself included. -/
inductive View.Reaches (f : View) (v : Value) : Value → Prop where
  | refl : Reaches f v v
  | step {w x : Value} {a : Handle} {o : Object} : Reaches f v w → w.handle? = some a →
      f a = some o → x ∈ o.references → Reaches f v x

namespace Heap

variable {h h' : Heap} {roots roots' : List Value} {φ : Handle → Handle} {v w : Value}

theorem Kept.of_reaches (hv : Kept h roots v) (hw : h.view.Reaches v w) : Kept h roots w := by
  induction hw with
  | refl => exact hv
  | step _ ha ho hx ih => exact ih.of_references ha (view_eq_some.mp ho) hx

/-- The new heap shows at the new place of a kept object what the old one shows at the old place. -/
theorem Relocation.view_map (hr : Relocation h roots h' roots' φ) (hsettled : h.Settled)
    (hsettled' : h'.Settled) (hv : Kept h roots v) {a : Handle} (ha : v.handle? = some a) :
    h'.view (φ a) = (h.view a).map (·.map φ) := by
  cases hview : h.view a with
  | some o => exact view_eq_some.mpr (hr.resolve_map hsettled' hv ha (view_eq_some.mp hview))
  | none =>
      cases hview' : h'.view (φ a) with
      | none => rfl
      | some o' =>
          obtain ⟨o, ho, -⟩ := hr.resolve_back hsettled hsettled' hv ha (view_eq_some.mp hview')
          rw [view_eq_some.mpr ho] at hview
          cases hview

/-- What an ephemeral reference that is kept refers to is there. -/
theorem Relocation.exists_view (hr : Relocation h roots h' roots' φ) (hv : Kept h roots v)
    {a : Handle} (ha : v.handle? = some a) (hspace : a.space = .ephemeral) :
    ∃ o, h.view a = some o := by
  obtain ⟨o, ho, -⟩ := hr.get_copy a (hv a ⟨ha, hspace⟩)
  refine ⟨o, view_eq_some.mpr ?_⟩
  unfold resolve
  rw [hspace]
  exact ho

end Heap

namespace Machine

variable {m m' m₁ : Machine} {φ : Handle → Handle} {held : Nat → Option Value} {cycle : Heap.Cycle}

/-! ## A collection and the pins -/

/-- What the heap shows once the pointers are saved. -/
def savedView (m : Machine) : View :=
  if m.regs.activeContext = m.known .nil then m.heap.view
  else m.heap.view.saved m.regs.activeContext m.regs.ip m.regs.sp

theorem exists_of_flush (hsettled : m.heap.Settled) (hrun : flush m = .ok () m₁) :
    ∃ h, m₁ = m.withHeap h ∧ h.Settled ∧ h.view = m.savedView := by
  unfold savedView
  by_cases hnil : m.regs.activeContext = m.known .nil
  · rw [if_pos hnil]
    cases (flush_of_idle hnil).symm.trans hrun
    exact ⟨m.heap, rfl, hsettled, rfl⟩
  · have heq : flush m = (if m.regs.activeContext = m.known .nil then pure () else do
        storeField m.regs.activeContext Slot.ip (.ofNat m.regs.ip)
        storeField m.regs.activeContext Slot.sp (.ofNat m.regs.sp) : MachineM Unit) m := rfl
    rw [heq, if_neg hnil] at hrun
    rw [if_neg hnil]
    obtain ⟨_, m₂, hfirst, hsecond⟩ := bind_eq_ok.mp hrun
    obtain ⟨h₁, hstore₁, rfl⟩ := onHeap_eq_ok.mp hfirst
    obtain ⟨h₂, hstore₂, rfl⟩ := onHeap_eq_ok.mp hsecond
    have hsettled₁ := Heap.settled_storeField hsettled hstore₁
    refine ⟨h₂, rfl, Heap.settled_storeField hsettled₁ hstore₂, ?_⟩
    rw [Heap.view_of_storeField hstore₂, withHeap_heap, Heap.view_of_storeField hstore₁]
    rfl

theorem pins_collected
    (hroots : (m.heap.collect m.roots).roots = m.roots.map (·.map φ)) :
    m.collected.pins = m.pins.map (·.map φ) := by
  unfold collected
  rw [hroots]
  simp only [roots, List.map_append, List.map_cons, List.cons_append, List.nil_append, setRoots]
  rw [List.drop_left' (by simp [Landmarks.toList]), Pins.refill_map]

/-! ## Histories -/

/-- The machine with other pins. -/
def withPins (m : Machine) (p : Pins) : Machine := { m with pins := p }

/-- The machine with a value pinned. -/
def withPinned (m : Machine) (v : Value) : Machine := m.withPins (m.pins.pin v).2

/-- After pinning values, letting go of them and collecting, in any order and with anything else in
between, the pins should hold `held`. -/
inductive Pinned : Machine → (Nat → Option Value) → Prop where
  | start {m : Machine} : m.heap.Settled → m.pins = .empty → Pinned m fun _ => none
  | pin {m : Machine} {held : Nat → Option Value} (v : Value) : Pinned m held →
      Pinned (m.withPins (m.pins.pin v).2) (Function.update held (m.pins.pin v).1 (some v))
  | unpin {m : Machine} {held : Nat → Option Value} (id : Nat) : Pinned m held →
      Pinned (m.withPins (m.pins.unpin id).2) (Function.update held id none)
  | collect {m m' : Machine} {held : Nat → Option Value} {cycle : Heap.Cycle}
      {φ : Handle → Handle} : Pinned m held → collectGarbage m = .ok cycle m' → Displaces φ m →
      Pinned m' fun id => (held id).map (·.map φ)
  /-- Something else is done that does not change the pins. -/
  | other {m m' : Machine} {held : Nat → Option Value} : Pinned m held → m'.heap.Settled →
      m'.pins = m.pins → Pinned m' held

namespace Pinned

/-- What every step of a history keeps. -/
structure Holding (m : Machine) (held : Nat → Option Value) : Prop where
  settled : m.heap.Settled
  tidy : m.pins.Tidy
  get? : m.pins.get? = held

theorem Holding.collect (hm : Holding m held) (hrun : collectGarbage m = .ok cycle m')
    (hφ : Displaces φ m) : Holding m' fun id => (held id).map (·.map φ) := by
  obtain ⟨m₁, hflush, hr⟩ := hφ
  obtain ⟨h₁, rfl, hsettled₁, -⟩ := exists_of_flush hm.settled hflush
  obtain ⟨-, cache, regs, rfl, -⟩ := collected_of_collectGarbage hflush hrun
  have hpins := pins_collected hr.roots_eq
  constructor
  case settled => exact Heap.settled_collect hsettled₁ _
  case tidy =>
    change Pins.Tidy (collected _).pins
    rw [hpins]
    exact Pins.tidy_map hm.tidy _
  case get? =>
    funext id
    change (collected _).pins.get? id = _
    rw [hpins, Pins.get?_map, ← hm.get?]
    rfl

theorem holding (hm : Pinned m held) : Holding m held := by
  induction hm with
  | start hsettled hpins =>
      refine ⟨hsettled, hpins ▸ Pins.tidy_empty, ?_⟩
      funext id
      rw [hpins]
      rfl
  | pin v _ ih =>
      exact ⟨ih.settled, Pins.tidy_pin ih.tidy v, by rw [← ih.get?]; exact Pins.get?_pin ih.tidy v⟩
  | unpin id _ ih =>
      exact ⟨ih.settled, Pins.tidy_unpin ih.tidy id, by rw [← ih.get?]; exact Pins.get?_unpin _ id⟩
  | collect _ hrun hφ ih => exact ih.collect hrun hφ
  | other _ hsettled hpins ih => exact ⟨hsettled, hpins ▸ ih.tidy, by rw [hpins, ih.get?]⟩

/-- What is pinned is kept by a collection. -/
theorem Holding.kept (hm : Holding m held) {id : Nat} {v : Value} (hv : held id = some v) (h : Heap)
    (h' : Heap) : Heap.Kept h (m.withHeap h').roots v := by
  have hget : m.pins.get? id = some v := by rw [hm.get?, hv]
  exact Heap.kept_of_mem (List.mem_append_right _ (Pins.mem_values_of_get? hget))

/-- The pins are a finite map that follows the objects.  What is reached from a pinned value stays
alive, in the same shape and with the contents that it has when the pointers of the active context
have been saved. -/
theorem pins_follow (hm : Pinned m held) :
    (∀ id, m.pins.get? id = held id) ∧ (∀ v, held (m.pins.pin v).1 = none) ∧
      (∀ id, (m.pins.unpin id).1 = held id) ∧
      m.pins.free.Nodup ∧ (∀ id, id ∈ m.pins.free ↔ m.pins.slots[id]? = some none) ∧
      ∀ cycle m', collectGarbage m = .ok cycle m' → ∃ φ, Displaces φ m ∧
        Pinned m' (fun id => (held id).map (·.map φ)) ∧ ∀ id v, held id = some v →
          (∀ w a, m.savedView.Reaches v w → w.handle? = some a →
            (a.space = .ephemeral → ∃ o, m.savedView a = some o) ∧
              m'.heap.view (φ a) = (m.savedView a).map (·.map φ)) ∧
          ∀ w w', m.savedView.Reaches v w → m.savedView.Reaches v w' → w.map φ = w'.map φ →
            w = w' := by
  have hold := hm.holding
  refine ⟨fun id => by rw [hold.get?], fun v => ?_, fun id => ?_, hold.tidy.nodup,
    hold.tidy.mem_free, fun cycle m' hrun => ?_⟩
  · rw [← hold.get?]
    exact Pins.get?_pin_fst hold.tidy v
  · rw [Pins.unpin_fst, hold.get?]
  obtain ⟨_, m₁, hflush, -⟩ := bind_eq_ok.mp hrun
  obtain ⟨h, rfl, hsettled, hview⟩ := exists_of_flush hold.settled hflush
  obtain ⟨⟨cycle', hresult⟩, cache, regs, rfl, -⟩ := collected_of_collectGarbage hflush hrun
  obtain ⟨φ, hr⟩ := exists_relocation hsettled hresult
  have hφ : Displaces φ m := ⟨_, hflush, hr⟩
  have hsettled' := Heap.settled_collect hsettled (m.withHeap h).roots
  refine ⟨φ, hφ, hm.collect hrun hφ, fun id v hv => ?_⟩
  have hkept : ∀ w, m.savedView.Reaches v w → Heap.Kept h (m.withHeap h).roots w := by
    intro w hw
    rw [← hview] at hw
    exact (hold.kept hv h h).of_reaches hw
  refine ⟨fun w a hw ha => ?_, fun w w' hw hw' => hr.map_injective hsettled' (hkept w hw) (hkept w' hw')⟩
  rw [← hview]
  exact ⟨hr.exists_view (hkept w hw) ha, hr.view_map hsettled hsettled' (hkept w hw) ha⟩

end Pinned

/-- Pins a new array, and collects. -/
def pinArray : MachineM Heap.Cycle := do
  let v ← newObject .array 1
  modify (·.withPinned v)
  collectGarbage

/-- A new array is pinned, moved by a collection, and answered once. -/
theorem pins_follow_array : ∃ v m cycle m' φ, newObject .array 1 blank = .ok v m ∧
    collectGarbage (m.withPinned v) = .ok cycle m' ∧ m'.pins.get? 0 = some (v.map φ) ∧
    (m'.pins.unpin 0).1 = some (v.map φ) ∧ ((m'.pins.unpin 0).2.unpin 0).1 = none := by
  have hevaluated : (resultOf (pinArray blank)).isSome = true := by decide +kernel
  cases hrun : pinArray blank with
  | error fault m => simp [hrun, resultOf] at hevaluated
  | ok cycle m =>
      obtain ⟨v, m₁, hnew, hrest⟩ := bind_eq_ok.mp hrun
      have hmade := ensures_newObject built_blank.settled .array 1 blank rfl
      rw [hnew] at hmade
      obtain ⟨h, hmade, rfl⟩ := hmade
      obtain ⟨_, _, hpin, hcollect⟩ := bind_eq_ok.mp hrest
      cases hpin
      have hstart : Pinned (blank.withHeap h) fun _ => none :=
        (Pinned.start built_blank.settled rfl).other hmade.settled rfl
      have hpinned := hstart.pin v
      obtain ⟨φ, -, hmoved, -⟩ := hpinned.pins_follow.2.2.2.2.2 cycle m hcollect
      have hanswers := hmoved.pins_follow
      exact ⟨v, _, cycle, m, φ, hnew, hcollect, hanswers.1 0, hanswers.2.2.1 0,
        (hmoved.unpin 0).pins_follow.2.2.1 0⟩

/-! ## The active context -/

/-- Runs a method that sends nil a message that it does not understand. -/
def abort : MachineM Value := do
  let method ← compileMethod {
    selector := "abort"
    header := .bytecodes 0 0
    literals := [.symbol "unheard"]
    code := assemble [.pushSpecial .nil, .send 0 0, .ret .topToSender] }
  runMethod 3 method (← landmark .nil) []

/-- Whether the context that `abort` leaves active, when it is pinned, has another instruction pointer
after a collection. -/
def pinsContext (m : Machine) : Bool :=
  match abort m with
  | .ok .. => false
  | .error _ m₁ =>
    match collectGarbage (m₁.withPinned m₁.regs.activeContext) with
    | .error .. => false
    | .ok _ m₂ =>
      match m₂.pins.get? 0 with
      | none => false
      | some context =>
        decide ((m₁.withPinned m₁.regs.activeContext).pins.get? 0 = some m₁.regs.activeContext ∧
          (m₁.heap.fetchField m₁.regs.activeContext Slot.ip).toOption = some (.int 0) ∧
          (m₂.heap.fetchField context Slot.ip).toOption = some (.int 2))

/-- A collection changes the contents of an object that is pinned, if that is the active context. -/
theorem pinned_context_changes : ∃ m fault m₁ cycle m₂ context, create roomySettings = .ok m ∧
    abort m = .error fault m₁ ∧
    (m₁.withPinned m₁.regs.activeContext).pins.get? 0 = some m₁.regs.activeContext ∧
    m₁.heap.fetchField m₁.regs.activeContext Slot.ip = .ok (.int 0) ∧
    collectGarbage (m₁.withPinned m₁.regs.activeContext) = .ok cycle m₂ ∧
    m₂.pins.get? 0 = some context ∧ m₂.heap.fetchField context Slot.ip = .ok (.int 2) := by
  have hpasses : passes roomySettings pinsContext = true := by decide +kernel
  obtain ⟨m, hcreate, hcontext⟩ := exists_create_of_passes hpasses
  unfold pinsContext at hcontext
  split at hcontext
  · cases hcontext
  · next fault m₁ habort =>
    split at hcontext
    · cases hcontext
    · next cycle m₂ hcollect =>
      split at hcontext
      · cases hcontext
      · next context hget =>
        obtain ⟨hpinned, hbefore, hafter⟩ := of_decide_eq_true hcontext
        exact ⟨m, fault, m₁, cycle, m₂, context, hcreate, habort, hpinned,
          eq_ok_of_toOption hbefore, hcollect, hget, eq_ok_of_toOption hafter⟩

end Machine

end MessageMachine
