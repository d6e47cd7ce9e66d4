import MessageMachine.Machine.Context
import MessageMachine.Proofs.Frame.Stack
import MessageMachine.Proofs.Heap.Twins

/-!
# Two machines in lock step

`Machine.Twins but m m'`: the machines are the same but for their stack pointers and their heaps, which
are twins.  `Alike` says that of the machines that two actions end with, and that the actions end in
the same way.  It is what an action does on twins as long as it reads nothing of `but`, and as long as
it does not ask for the stack pointer.
-/

namespace MessageMachine

namespace Machine

variable {m m' : Machine} {but : Value → Nat → Prop}

/-- The machines are the same but for the stack pointer and for the elements in `but`. -/
structure Twins (but : Value → Nat → Prop) (m m' : Machine) : Prop where
  rest : ∃ h sp, m' = { m with heap := h, regs := { m.regs with sp } }
  heap : m.heap.Twins but m'.heap

/-- The outcomes are the same, with twins for machines. -/
inductive Alike (but : Value → Nat → Prop) :
    EStateM.Result Fault Machine α → EStateM.Result Fault Machine α → Prop
  | ok {a : α} {m m' : Machine} : Twins but m m' → Alike but (.ok a m) (.ok a m')
  | error {fault : Fault} {m m' : Machine} :
      Twins but m m' → Alike but (.error fault m) (.error fault m')

/-- What goes on alike after it ended alike. -/
theorem Alike.bind {x y : MachineM α} {f g : α → MachineM β} (hx : Alike but (x m) (y m'))
    (hf : ∀ a m₁ m₁', x m = .ok a m₁ → y m' = .ok a m₁' → Twins but m₁ m₁' →
      Alike but (f a m₁) (g a m₁')) : Alike but ((x >>= f) m) ((y >>= g) m') := by
  rw [bind_run, bind_run]
  generalize hr : x m = r at hx hf
  generalize hr' : y m' = r' at hx hf
  cases hx with
  | ok ht => exact hf _ _ _ rfl rfl ht
  | error ht => exact .error ht

theorem Alike.exists_ok {x y : EStateM.Result Fault Machine α} (hxy : Alike but x y) {a : α}
    (hx : x = .ok a m) : ∃ m', y = .ok a m' ∧ Twins but m m' := by
  cases hxy with
  | ok ht =>
      cases hx
      exact ⟨_, rfl, ht⟩
  | error ht => cases hx

namespace Twins

theorem symm (ht : Twins but m m') : Twins but m' m := by
  refine ⟨⟨m.heap, m.regs.sp, ?_⟩, ht.heap.symm⟩
  obtain ⟨h, sp, rfl⟩ := ht.rest
  rfl

theorem trans {m₁ m₂ : Machine} (hfirst : Twins but m m₁) (hsecond : Twins but m₁ m₂) :
    Twins but m m₂ := by
  refine ⟨⟨m₂.heap, m₂.regs.sp, ?_⟩, hfirst.heap.trans hsecond.heap⟩
  obtain ⟨h₁, sp₁, rfl⟩ := hfirst.rest
  obtain ⟨h₂, sp₂, rfl⟩ := hsecond.rest
  rfl

section

variable (ht : Twins but m m')
include ht

theorem known_eq : m'.known = m.known := by
  obtain ⟨h, sp, rfl⟩ := ht.rest
  rfl

theorem activeContext_eq : m'.regs.activeContext = m.regs.activeContext := by
  obtain ⟨h, sp, rfl⟩ := ht.rest
  rfl

theorem stackBase_eq : m'.regs.stackBase = m.regs.stackBase := by
  obtain ⟨h, sp, rfl⟩ := ht.rest
  rfl

theorem withHeap {h h' : Heap} (hh : h.Twins but h') : Twins but (m.withHeap h) (m'.withHeap h') := by
  obtain ⟨_, sp, rfl⟩ := ht.rest
  exact ⟨⟨h', sp, rfl⟩, hh⟩

/-! ### Readings -/

theorem alike_read {f g : Machine → Except Fault α} (hf : f m = g m') :
    Alike but (read f m) (read g m') := by
  unfold read
  rw [hf]
  cases g m' with
  | ok a => exact .ok ht
  | error fault => exact .error ht

theorem alike_readHeap {f g : Heap → Except HeapFault α} (hf : f m.heap = g m'.heap) :
    Alike but (readHeap f m) (readHeap g m') := by
  unfold readHeap
  rw [hf]
  cases g m'.heap with
  | ok a => exact .ok ht
  | error fault => exact .error ht

theorem alike_fetchField {v : Value} {i : Nat} (hout : ¬but v i) :
    Alike but (fetchField v i m) (fetchField v i m') :=
  ht.alike_readHeap (ht.heap.agrees.fetchField_eq hout).symm

theorem isInstance_eq (v : Value) (l : Landmark) : m'.isInstance v l = m.isInstance v l := by
  unfold isInstance
  rw [ht.known_eq]
  cases v with
  | object a => rw [ht.heap.agrees.typeOf_eq]
  | int n => rfl
  | bytes a => rfl
  | words a => rfl

theorem blockArity_eq {block : Value} (hout : ¬but block Slot.blockArguments) :
    m'.blockArity block = m.blockArity block := by
  unfold blockArity
  rw [ht.heap.agrees.fetchField_eq hout]

/-! ### Actions on the heap -/

theorem alike_onHeap {x y : HeapM α} (hx : Heap.Alike but (x m.heap) (y m'.heap)) :
    Alike but (onHeap x m) (onHeap y m') := by
  rw [onHeap_run, onHeap_run]
  generalize x m.heap = r at hx
  generalize y m'.heap = r' at hx
  cases hx with
  | ok hh => exact .ok (ht.withHeap hh)
  | error hh => exact .error (ht.withHeap hh)

theorem alike_storeField {v : Value} {i : Nat} (hout : ¬but v i) (x : Value) :
    Alike but (storeField v i x m) (storeField v i x m') :=
  ht.alike_onHeap (ht.heap.alike_storeField hout x)

theorem alike_newObject (type : Landmark) (count : Nat) :
    Alike but (newObject type count m) (newObject type count m') := by
  have halike := ht.alike_onHeap
    (ht.heap.alike_allocateFields .ephemeral (m.known type) count (m.known .nil))
  have hknown := ht.known_eq
  show Alike but (onHeap _ m) (onHeap (Heap.allocateFields .ephemeral (m'.known type) count
    (m'.known .nil)) m')
  rw [hknown]
  exact halike

/-! ### Contexts -/

/-- A context is made for a block. -/
theorem alike_instantiateBlock (hlow : ∀ v i, but v i → Slot.contextTail ≤ i) (block caller : Value) :
    Alike but (instantiateBlock block caller m) (instantiateBlock block caller m') := by
  have hout : ∀ {v i}, i < Slot.contextTail → ¬but v i := fun hi hbut =>
    absurd (hlow _ _ hbut) (Nat.not_le.mpr hi)
  refine (ht.alike_readHeap (ht.heap.agrees.fieldCount_eq block).symm).bind
    fun size m₁ m₁' _ _ ht₁ => ?_
  refine (ht₁.alike_newObject _ _).bind fun context m₂ m₂' _ _ ht₂ => ?_
  have hmoved : (do Heap.slice (← m₂.heap.fields block) 0 Slot.contextTail) =
      (do Heap.slice (← m₂'.heap.fields block) 0 Slot.contextTail) :=
    ht₂.heap.agrees.slice_eq fun i _ hi => hout (Nat.zero_add Slot.contextTail ▸ hi)
  refine (ht₂.alike_onHeap (ht₂.heap.alike_transferFields hmoved)).bind fun _ m₃ m₃' _ _ ht₃ => ?_
  refine (ht₃.alike_fetchField (hout (by decide))).bind fun initialIp m₄ m₄' _ _ ht₄ => ?_
  refine (ht₄.alike_storeField (hout (by decide)) _).bind fun _ m₅ m₅' _ _ ht₅ => ?_
  refine (ht₅.alike_storeField (hout (by decide)) _).bind fun _ m₆ m₆' _ _ ht₆ => ?_
  refine (ht₆.alike_storeField (hout (by decide)) _).bind fun _ m₇ m₇' _ _ ht₇ => ?_
  exact .ok ht₇

/-- The pointers are saved, if they are the same. -/
theorem alike_flush (hlow : ∀ v i, but v i → Slot.contextTail ≤ i) (hsp : m'.regs.sp = m.regs.sp) :
    Alike but (flush m) (flush m') := by
  have hout : ∀ {v i}, i < Slot.contextTail → ¬but v i := fun hi hbut =>
    absurd (hlow _ _ hbut) (Nat.not_le.mpr hi)
  have hregs : m'.regs = m.regs := by
    obtain ⟨h, sp, rfl⟩ := ht.rest
    cases hsp
    rfl
  have hrun : ∀ m : Machine, flush m = (if m.regs.activeContext = m.known .nil then pure () else do
      storeField m.regs.activeContext Slot.ip (.ofNat m.regs.ip)
      storeField m.regs.activeContext Slot.sp (.ofNat m.regs.sp) : MachineM Unit) m := by
    intro m
    rfl
  rw [hrun, hrun, hregs, ht.known_eq]
  split
  · exact .ok ht
  · exact (ht.alike_storeField (hout (by decide)) _).bind fun _ m₁ m₁' _ _ ht₁ =>
      ht₁.alike_storeField (hout (by decide)) _

/-- A context is loaded. -/
theorem alike_reload (hlow : ∀ v i, but v i → Slot.contextTail ≤ i) (hsp : m'.regs.sp = m.regs.sp)
    (context : Value) : Alike but (reload context m) (reload context m') := by
  have hfetch : ∀ v i, i < Slot.contextTail → m'.heap.fetchField v i = m.heap.fetchField v i :=
    fun v i hi => ht.heap.agrees.fetchField_eq fun hbut =>
      absurd (hlow _ _ hbut) (Nat.not_le.mpr hi)
  have hregs : m'.regs = m.regs := by
    obtain ⟨h, sp, rfl⟩ := ht.rest
    cases hsp
    rfl
  have hload : loadContext m'.heap m'.regs context = loadContext m.heap m.regs context := by
    unfold loadContext
    rw [hregs, ht.heap.agrees.fieldCount_eq context]
    simp only [hfetch context _ (by decide : Slot.contextMethod < _),
      hfetch context _ (by decide : Slot.ip < _), hfetch context _ (by decide : Slot.sp < _),
      hfetch context _ (by decide : Slot.receiver < _),
      hfetch context _ (by decide : Slot.blockArguments < _),
      hfetch context _ (by decide : Slot.home < _),
      fun v => hfetch v _ (by decide : Slot.methodHeader < _),
      fun v => hfetch v _ (by decide : Slot.methodCode < _)]
  refine (ht.alike_read ?_).bind fun regs m₁ m₁' _ _ ht₁ => ?_
  · rw [hload]
  · obtain ⟨h, sp, rfl⟩ := ht₁.rest
    exact .ok ⟨⟨h, regs.sp, rfl⟩, ht₁.heap⟩

end

end Twins

end Machine

end MessageMachine
