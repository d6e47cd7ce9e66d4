import MessageMachine.Machine.Send
import MessageMachine.Proofs.Frame.Stack
import MessageMachine.Proofs.Heap.Agreement

/-!
# Operands on the stack

A primitive is given its receiver and arguments by pushing them.  `Roomy m n` says that the frame of
the active context has room for `n` more values, and then they can be pushed (`exists_pushed`).

`Pushed m vs m'` is what pushing comes to: the stack pointer is higher, the values are in their
places, and the heap is as before but for what is above the top of the stack (`Above`).  Whatever is
there counts for nothing: the next push overwrites it.
-/

namespace MessageMachine.Machine

variable {m m₁ m' : Machine} {v x : Value} {vs : List Value} {i n : Nat}

/-- The frame of the active context has room for `n` more values. -/
structure Roomy (m : Machine) (n : Nat) : Prop where
  base : Slot.contextTail ≤ m.regs.stackBase
  height : m.regs.stackBase ≤ m.regs.sp + 1
  limit : m.regs.sp + n < m.regs.stackLimit
  context : m.heap.fieldCount m.regs.activeContext = .ok m.regs.stackLimit

/-- The field `i` of `v` is above the top of the stack. -/
def Above (m : Machine) (v : Value) (i : Nat) : Prop := v = m.regs.activeContext ∧ m.regs.sp < i

/-- The second machine is the first with values pushed. -/
structure Pushed (m : Machine) (vs : List Value) (m' : Machine) : Prop where
  rest : ∃ h, m' = { m with heap := h, regs := { m.regs with sp := m.regs.sp + vs.length } }
  agrees : m.heap.Agrees m.Above m'.heap
  value : ∀ j v, vs[j]? = some v →
    m'.heap.fetchField m.regs.activeContext (m.regs.sp + 1 + j) = .ok v

/-- A primitive is tried on a receiver and arguments that are pushed for it. -/
def ask (p : Primitive) (operands : List Value) : MachineM Bool := do
  operands.forM push
  tryPrimitive id (send id · (p.arity - 1)) p.number p.arity

/-- What stands at a depth within the frame. -/
theorem stackValue_of_fetchField {depth : Nat} (hdepth : m.regs.stackBase + depth ≤ m.regs.sp)
    (hfetch : m.heap.fetchField m.regs.activeContext (m.regs.sp - depth) = .ok v) :
    m.stackValue depth = .ok v := by
  unfold stackValue
  rw [if_neg (Nat.not_lt.mpr hdepth)]
  exact liftFault_eq_ok.mpr hfetch

namespace Roomy

/-- A frame has every field below its limit. -/
theorem exists_field (hroom : m.Roomy n) (hi : i < m.regs.stackLimit) :
    ∃ x, m.heap.fetchField m.regs.activeContext i = .ok x := by
  obtain ⟨xs, hxs, hsize⟩ := Heap.fieldCount_eq_ok.mp hroom.context
  rw [← hsize] at hi
  exact ⟨xs[i], Heap.fetchField_eq_ok.mpr ⟨xs, hxs, Array.getElem?_eq_getElem hi⟩⟩

/-- Where there is room for values, there is room for fewer. -/
theorem fewer (hroom : m.Roomy n) {k : Nat} (hk : k ≤ n) : m.Roomy k :=
  ⟨hroom.base, hroom.height, Nat.lt_of_le_of_lt (Nat.add_le_add_left hk _) hroom.limit,
    hroom.context⟩

/-- The values that the stack has grown by take their room. -/
theorem grown (hroom : m.Roomy n) {h : Heap} {but : Value → Nat → Prop}
    (hagrees : m.heap.Agrees but h) {k l : Nat} (hk : k + l ≤ n) :
    Roomy { m with heap := h, regs := { m.regs with sp := m.regs.sp + k } } l := by
  refine ⟨hroom.base, ?_, ?_, ?_⟩
  · have hheight := hroom.height
    show m.regs.stackBase ≤ m.regs.sp + k + 1
    omega
  · have hlimit := hroom.limit
    show m.regs.sp + k + l < m.regs.stackLimit
    omega
  · exact (hagrees.fieldCount_eq _).trans hroom.context

end Roomy

/-- One value is pushed. -/
theorem exists_push (hroom : m.Roomy (n + 1)) (v : Value) : ∃ h,
    Heap.storeField m.regs.activeContext (m.regs.sp + 1) v m.heap = .ok () h ∧
      push v m = .ok () { m with heap := h, regs := { m.regs with sp := m.regs.sp + 1 } } := by
  have hlimit := hroom.limit
  obtain ⟨old, hold⟩ := hroom.exists_field (i := m.regs.sp + 1) (by omega)
  obtain ⟨h, hstore⟩ := Heap.storeField_of_fetchField hold v
  refine ⟨h, hstore, ?_⟩
  rw [push_run, if_neg (by omega)]
  exact bind_eq_of_ok (onHeap_eq_ok.mpr ⟨h, hstore, rfl⟩)

/-- Values can be pushed where there is room for them. -/
theorem exists_pushed (hroom : m.Roomy vs.length) :
    ∃ m', vs.forM push m = .ok () m' ∧ Pushed m vs m' := by
  induction vs generalizing m with
  | nil => exact ⟨m, rfl, ⟨m.heap, rfl⟩, .refl _ _, nofun⟩
  | cons v vs ih =>
      obtain ⟨h, hstore, hpush⟩ := exists_push (n := vs.length) hroom v
      have hfirst := Heap.agrees_storeField hstore
      have hlength : (v :: vs).length = 1 + vs.length := Nat.add_comm ..
      obtain ⟨m', hrun, ⟨h', hm'⟩, hrest, hvalue⟩ := ih (hroom.grown hfirst (Nat.le_of_eq hlength.symm))
      refine ⟨m', ?_, ⟨h', ?_⟩, ?_, ?_⟩
      · show (push v >>= fun _ => vs.forM push) m = .ok () m'
        exact (bind_eq_of_ok hpush).trans hrun
      · rw [hm', hlength, ← Nat.add_assoc]
      · refine (hfirst.trans hrest).mono fun w i hi => ?_
        rcases hi with ⟨rfl, rfl⟩ | ⟨hw, hi⟩
        · exact ⟨rfl, Nat.lt_succ_self _⟩
        · exact ⟨hw, Nat.lt_of_succ_lt hi⟩
      · intro j w hw
        cases j with
        | zero =>
            obtain rfl : v = w := Option.some.inj hw
            -- the later values are pushed above this one
            refine (hrest.fetchField_eq fun habove => ?_).trans (Heap.fetchField_storeField hstore)
            exact Nat.lt_irrefl _ habove.2
        | succ j =>
            have hplace : m.regs.sp + 1 + (j + 1) = m.regs.sp + 1 + 1 + j := by omega
            rw [hplace]
            exact hvalue j w hw

namespace Pushed

theorem sp_eq (hp : Pushed m vs m') : m'.regs.sp = m.regs.sp + vs.length := by
  obtain ⟨h, rfl⟩ := hp.rest
  rfl

theorem activeContext_eq (hp : Pushed m vs m') : m'.regs.activeContext = m.regs.activeContext := by
  obtain ⟨h, rfl⟩ := hp.rest
  rfl

theorem known_eq (hp : Pushed m vs m') : m'.known = m.known := by
  obtain ⟨h, rfl⟩ := hp.rest
  rfl

/-- A value that was pushed stands at its depth. -/
theorem stackValue (hp : Pushed m vs m') (hroom : m.Roomy vs.length) {depth : Nat}
    (hdepth : depth < vs.length) (hv : vs[vs.length - 1 - depth]? = some v) :
    m'.stackValue depth = .ok v := by
  have hvalue := hp.value _ v hv
  have hplace : m.regs.sp + 1 + (vs.length - 1 - depth) = m.regs.sp + vs.length - depth := by omega
  have hheight := hroom.height
  obtain ⟨h, rfl⟩ := hp.rest
  refine stackValue_of_fetchField ?_ ?_
  · show m.regs.stackBase + depth ≤ m.regs.sp + vs.length
    omega
  · exact hplace ▸ hvalue

end Pushed

end MessageMachine.Machine
