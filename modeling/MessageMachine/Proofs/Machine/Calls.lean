import MessageMachine.Machine.Step
import MessageMachine.Proofs.Frame.Stack
import MessageMachine.Proofs.Heap.View
import MessageMachine.Proofs.Machine.Mirror

/-!
# A call and its return

What it takes for an activation and for the return from it to succeed, and what they leave.  A
machine that can send (`Calling`) has an active context that its registers mirror.

* `Calling.exists_activateMethod`: the context of the sender has the pointers saved, there is one
  more context, and the registers are those of that one.
* `Calling.exists_methodReturn`: the answer is on the stack of the sender, and the registers are
  those that the sender had.

The heap is told by `Opened f a n xs h`: it shows what was there, `f`, and one new context at `a` with
`n` fields that `xs` lists.
-/

namespace MessageMachine

/-! ## Saved pointers -/

namespace View

/-- The view with the pointers of a context saved. -/
def saved (f : View) (c : Value) (ip sp : Nat) : View :=
  (f.put c Slot.ip (.ofNat ip)).put c Slot.sp (.ofNat sp)

variable {f : View} {c v x : Value} {a : Handle} {ip sp i : Nat}

theorem field_saved_of_ne (hne : v ≠ c ∨ i ≠ Slot.ip ∧ i ≠ Slot.sp) :
    (f.saved c ip sp).field v i = f.field v i := by
  unfold saved
  rw [field_put_of_ne (hne.imp_right And.right), field_put_of_ne (hne.imp_right And.left)]

theorem field_saved_ip {old : Value} (hold : f.field c Slot.ip = some old) :
    (f.saved c ip sp).field c Slot.ip = some (.ofNat ip) := by
  unfold saved
  rw [field_put_of_ne (.inr (by decide))]
  exact field_put_self hold

theorem field_saved_sp {old : Value} (hold : f.field c Slot.sp = some old) :
    (f.saved c ip sp).field c Slot.sp = some (.ofNat sp) := by
  have hkept : (f.put c Slot.ip (.ofNat ip)).field c Slot.sp = some old := by
    rw [field_put_of_ne (.inr (by decide))]
    exact hold
  exact field_put_self hkept

theorem count_saved : (f.saved c ip sp).count v = f.count v := by
  unfold saved
  rw [count_put, count_put]

theorem bytes_saved : (f.saved c ip sp).bytes v = f.bytes v := by
  unfold saved
  rw [bytes_put, bytes_put]

theorem saved_of_ne (hne : c ≠ .object a) : f.saved c ip sp a = f a := by
  unfold saved
  rw [put_of_ne hne, put_of_ne hne]

theorem saved_add {o : Object} (hne : c ≠ .object a) :
    (f.add a o).saved c ip sp = (f.saved c ip sp).add a o := by
  unfold saved
  rw [put_add hne, put_add hne]

/-- Pointers are saved over those that were saved before. -/
theorem saved_saved {ip' sp' : Nat} : (f.saved c ip' sp').saved c ip sp = f.saved c ip sp := by
  unfold saved
  rw [put_comm (i := Slot.sp) (j := Slot.ip) (fun h => absurd h.2 (by decide)), put_put, put_put]

/-- Saving pointers and storing elsewhere can be done in any order. -/
theorem saved_put (hne : ¬(v = c ∧ (i = Slot.ip ∨ i = Slot.sp))) :
    (f.put v i x).saved c ip sp = (f.saved c ip sp).put v i x := by
  unfold saved
  rw [put_comm fun h => hne ⟨h.1, .inl h.2⟩, put_comm fun h => hne ⟨h.1, .inr h.2⟩]

/-- Saving pointers twice, with a store in between. -/
theorem saved_put_saved {ip' sp' : Nat} (hne : ¬(v = c ∧ (i = Slot.ip ∨ i = Slot.sp))) :
    ((f.saved c ip' sp').put v i x).saved c ip sp = (f.put v i x).saved c ip sp := by
  rw [saved_put hne, saved_saved, ← saved_put hne]

end View

/-! ## Listed fields -/

/-- The object has `n` fields, and `xs` lists them. -/
structure Object.Lists (o : Object) (n : Nat) (xs : Nat → Value) : Prop where
  count : o.count? = some n
  field : ∀ j < n, o.field? j = some (xs j)

namespace Object.Lists

variable {o : Object} {n i : Nat} {xs : Nat → Value}

theorem ofFields (space : Space) (type : Value) (n : Nat) (fill : Value) :
    (Object.ofFields space type n fill).Lists n fun _ => fill := by
  constructor
  · simp [Object.ofFields, count?]
  · intro j hj
    simp [Object.ofFields, field?, hj]

theorem setField (hl : o.Lists n xs) (hi : i < n) (x : Value) :
    (o.setField i x).Lists n (Function.update xs i x) := by
  constructor
  · rw [o.count?_setField, hl.count]
  · intro j hj
    rw [o.field?_setField]
    by_cases heq : j = i
    · rw [if_pos heq, hl.field i hi, heq, Function.update_self]
      rfl
    · rw [if_neg heq, hl.field j hj, Function.update_of_ne heq]

end Object.Lists

/-- The heap shows what `f` does and one more object, with `n` fields that `xs` lists. -/
def Heap.Opened (f : View) (a : Handle) (n : Nat) (xs : Nat → Value) (h : Heap) : Prop :=
  ∃ o, o.Lists n xs ∧ h.view = f.add a o

namespace Heap.Opened

variable {f : View} {a : Handle} {n i : Nat} {xs : Nat → Value} {h h' : Heap} {v x : Value}

theorem field (ho : h.Opened f a n xs) (hi : i < n) :
    h.view.field (.object a) i = some (xs i) := by
  obtain ⟨o, hl, hview⟩ := ho
  rw [hview, View.field_add_self, hl.field i hi]

theorem count (ho : h.Opened f a n xs) : h.view.count (.object a) = some n := by
  obtain ⟨o, hl, hview⟩ := ho
  rw [hview, View.count_add_self, hl.count]

theorem field_old (ho : h.Opened f a n xs) (hnew : f a = none) (hfield : f.field v i = some x) :
    h.view.field v i = some x := by
  obtain ⟨o, -, hview⟩ := ho
  rw [hview]
  exact View.field_add hnew hfield

theorem count_old (ho : h.Opened f a n xs) (hnew : f a = none) {k : Nat}
    (hcount : f.count v = some k) : h.view.count v = some k := by
  obtain ⟨o, -, hview⟩ := ho
  rw [hview]
  exact View.count_add hnew hcount

theorem bytes_old (ho : h.Opened f a n xs) (hnew : f a = none) {code : Array UInt8}
    (hbytes : f.bytes v = some code) : h.view.bytes v = some code := by
  obtain ⟨o, -, hview⟩ := ho
  rw [hview]
  exact View.bytes_add hnew hbytes

theorem object_old (ho : h.Opened f a n xs) {b : Handle} (hne : b ≠ a) : h.view b = f b := by
  obtain ⟨o, -, hview⟩ := ho
  rw [hview, View.add_of_ne hne]

/-- A store into the new object. -/
theorem put_new (ho : h.Opened f a n xs) (hi : i < n)
    (hview' : h'.view = h.view.put (.object a) i x) : h'.Opened f a n (Function.update xs i x) := by
  obtain ⟨o, hl, hview⟩ := ho
  exact ⟨_, hl.setField hi x, by rw [hview', hview, View.put_add_self]⟩

/-- A store into what was there. -/
theorem put_old (ho : h.Opened f a n xs) (hne : v ≠ .object a)
    (hview' : h'.view = h.view.put v i x) : h'.Opened (f.put v i x) a n xs := by
  obtain ⟨o, hl, hview⟩ := ho
  exact ⟨o, hl, by rw [hview', hview, View.put_add hne]⟩

end Heap.Opened

namespace Machine

variable {m : Machine} {f : View} {a : Handle} {n i : Nat} {xs : Nat → Value} {v x : Value}

/-! ## Single actions -/

theorem storeField_run {old : Value} (hold : m.heap.view.field v i = some old) (x : Value) :
    ∃ h, storeField v i x m = .ok () (m.withHeap h) ∧ h.view = m.heap.view.put v i x := by
  obtain ⟨h, hstore, hview⟩ := Heap.exists_storeField hold x
  exact ⟨h, onHeap_eq_ok.mpr ⟨h, hstore, rfl⟩, hview⟩

theorem storeField_run_new {h : Heap} (ho : h.Opened f a n xs) (hi : i < n) (x : Value) :
    ∃ h', storeField (.object a) i x (m.withHeap h) = .ok () (m.withHeap h') ∧
      h'.Opened f a n (Function.update xs i x) := by
  obtain ⟨h', hrun, hview⟩ := storeField_run (m := m.withHeap h) (ho.field hi) x
  exact ⟨h', hrun, ho.put_new hi hview⟩

theorem reload_run {context : Value} {r : Registers}
    (hload : loadContext m.heap m.regs context = .ok r) :
    reload context m = .ok () { m with regs := r } :=
  (bind_eq_of_ok (read_eq_ok.mpr ⟨liftFault_eq_ok.mpr hload, rfl⟩)).trans rfl

theorem flush_run (hactive : m.regs.activeContext ≠ m.known .nil) {ip sp : Value}
    (hip : m.heap.view.field m.regs.activeContext Slot.ip = some ip)
    (hsp : m.heap.view.field m.regs.activeContext Slot.sp = some sp) :
    ∃ h, flush m = .ok () (m.withHeap h) ∧ h.view = m.heap.view.saved m.regs.activeContext m.regs.ip m.regs.sp := by
  obtain ⟨h₁, hrun₁, hview₁⟩ := storeField_run hip (.ofNat m.regs.ip)
  have hsp₁ : (m.withHeap h₁).heap.view.field m.regs.activeContext Slot.sp = some sp := by
    rw [withHeap_heap, hview₁, View.field_put_of_ne (.inr (by decide))]
    exact hsp
  obtain ⟨h₂, hrun₂, hview₂⟩ := storeField_run hsp₁ (.ofNat m.regs.sp)
  have hflush : flush m = (if m.regs.activeContext = m.known .nil then pure () else do
      storeField m.regs.activeContext Slot.ip (.ofNat m.regs.ip)
      storeField m.regs.activeContext Slot.sp (.ofNat m.regs.sp) : MachineM Unit) m := rfl
  refine ⟨h₂, ?_, ?_⟩
  · rw [hflush, if_neg hactive, bind_eq_of_ok hrun₁, hrun₂]
    rfl
  · rw [hview₂, withHeap_heap, hview₁]
    rfl

/-! ## Instructions -/

/-- The instruction at the instruction pointer is carried out with the pointer past it. -/
theorem step_run {instruction : Instruction} {code : Array UInt8} {next : Nat}
    (hcode : m.heap.view.bytes m.regs.code = some code)
    (hdecode : Instruction.decodeAt code m.regs.ip = .ok (instruction, next)) :
    step m = execute id instruction { m with regs := { m.regs with ip := next } } := by
  have hfetch : m.fetch = .ok (instruction, next) := by
    refine reading_bind_eq_ok.mpr ⟨code, liftFault_eq_ok.mpr (Heap.bytes_iff_view.mpr hcode), ?_⟩
    rw [hdecode]
    rfl
  have hread : read (·.fetch) m = .ok (instruction, next) m := read_eq_ok.mpr ⟨hfetch, rfl⟩
  unfold step stepWith
  rw [bind_eq_of_ok hread]
  rfl

/-- The machine with other registers and another heap. -/
def inside (m : Machine) (r : Registers) (h : Heap) (ip sp : Nat) : Machine :=
  { m with heap := h, regs := { r with ip, sp } }

section Inside

variable (m) {h : Heap} (r : Registers) (ip : Nat) {sp : Nat}

theorem push_run_new (ho : h.Opened f a n xs) (hactive : r.activeContext = .object a)
    (hlimit : r.stackLimit = n) (hsp : sp + 1 < n) (v : Value) : ∃ h',
      push v (m.inside r h ip sp) = .ok () (m.inside r h' ip (sp + 1)) ∧
      h'.Opened f a n (Function.update xs (sp + 1) v) := by
  obtain ⟨h', hrun, hopened⟩ := storeField_run_new (m := m.inside r h ip sp) ho hsp v
  refine ⟨h', ?_, hopened⟩
  have hroom : ¬(m.inside r h ip sp).regs.stackLimit ≤ (m.inside r h ip sp).regs.sp + 1 :=
    hlimit ▸ Nat.not_le.mpr hsp
  rw [push_run, if_neg hroom]
  exact bind_eq_of_ok (hactive ▸ hrun)

theorem pop_run_new (ho : h.Opened f a n xs) (hactive : r.activeContext = .object a)
    (hbase : r.stackBase ≤ sp) (hsp : sp < n) :
    pop (m.inside r h ip sp) = .ok (xs sp) (m.inside r h ip (sp - 1)) := by
  refine pop_run_ok (m := m.inside r h ip sp) ?_
  have hlow : ¬(m.inside r h ip sp).regs.sp < (m.inside r h ip sp).regs.stackBase :=
    Nat.not_lt.mpr hbase
  rw [stackValue_zero, if_neg hlow]
  refine liftFault_eq_ok.mpr (Heap.fetchField_iff_view.mpr ?_)
  have hfield := ho.field hsp
  rw [← hactive] at hfield
  exact hfield

end Inside

/-! ## New contexts -/

/-- How many fields a context of a method has. -/
def frameSize (m : Machine) (header : MethodHeader) : Nat :=
  Slot.contextTail + header.temporaries.toNat + m.settings.contextStackDepth

/-- There is room for a context of a method. -/
def HasRoom (m : Machine) (header : MethodHeader) : Prop :=
  ∃ c h, Heap.allocateFields .ephemeral (m.known .methodContext) (frameSize m header)
    (m.known .nil) m.heap = .ok c h

/-- The named fields of a new context. -/
structure Framing (xs : Nat → Value) (sender method receiver nil : Value)
    (header : MethodHeader) : Prop where
  sender : xs Slot.sender = sender
  ip : xs Slot.ip = .ofNat 0
  sp : xs Slot.sp = .ofNat (Slot.contextTail + header.temporaries.toNat - 1)
  method : xs Slot.contextMethod = method
  receiver : xs Slot.receiver = receiver
  block : xs Slot.blockArguments = nil

theorem exists_newMethodContext (hsettled : m.heap.Settled) {header : MethodHeader}
    (hroom : HasRoom m header) (method sender receiver : Value) :
    ∃ a xs h, newMethodContext method header sender receiver m = .ok (.object a) (m.withHeap h) ∧
      m.heap.view a = none ∧ h.Opened m.heap.view a (frameSize m header) xs ∧
      Framing xs sender method receiver (m.known .nil) header := by
  obtain ⟨c, h, hallocate⟩ := hroom
  obtain ⟨a, rfl, hfree, hview⟩ := Heap.view_of_allocateFields hsettled hallocate
  have hnew : newObject .methodContext (frameSize m header) m = .ok (.object a) (m.withHeap h) :=
    (onHeap_eq_ok (m := m)).mpr ⟨h, hallocate, rfl⟩
  have hopened : h.Opened m.heap.view a (frameSize m header) fun _ => m.known .nil :=
    ⟨_, .ofFields .., hview⟩
  have hslot : ∀ {i}, i < Slot.contextTail → i < frameSize m header := fun hi =>
    Nat.lt_of_lt_of_le hi ((Nat.le_add_right ..).trans (Nat.le_add_right ..))
  obtain ⟨h₁, hrun₁, hopened₁⟩ := storeField_run_new (m := m) hopened
    (hslot (i := Slot.sender) (by decide)) sender
  obtain ⟨h₂, hrun₂, hopened₂⟩ := storeField_run_new (m := m) hopened₁
    (hslot (i := Slot.ip) (by decide)) (.ofNat 0)
  obtain ⟨h₃, hrun₃, hopened₃⟩ := storeField_run_new (m := m) hopened₂
    (hslot (i := Slot.sp) (by decide)) (.ofNat (Slot.contextTail + header.temporaries.toNat - 1))
  obtain ⟨h₄, hrun₄, hopened₄⟩ := storeField_run_new (m := m) hopened₃
    (hslot (i := Slot.contextMethod) (by decide)) method
  obtain ⟨h₅, hrun₅, hopened₅⟩ := storeField_run_new (m := m) hopened₄
    (hslot (i := Slot.receiver) (by decide)) receiver
  refine ⟨a, _, h₅, ?_, hfree, hopened₅, by constructor <;> rfl⟩
  calc newMethodContext method header sender receiver m
      = (do
          storeField (.object a) Slot.sender sender
          storeField (.object a) Slot.ip (.ofNat 0)
          storeField (.object a) Slot.sp (.ofNat (Slot.contextTail + header.temporaries.toNat - 1))
          storeField (.object a) Slot.contextMethod method
          storeField (.object a) Slot.receiver receiver
          return .object a : MachineM Value) (m.withHeap h) :=
        (bind_eq_of_ok rfl).trans (bind_eq_of_ok hnew)
    _ = .ok (.object a) (m.withHeap h₅) := by
        rw [bind_eq_of_ok hrun₁, bind_eq_of_ok hrun₂, bind_eq_of_ok hrun₃, bind_eq_of_ok hrun₄,
          bind_eq_of_ok hrun₅]
        rfl

/-- Arguments are copied behind the named fields. -/
theorem exists_transfer {h : Heap} (ho : h.Opened f a n xs) (hnew : f a = none) {first argc length : Nat}
    (hfits : Slot.contextTail + argc ≤ n) (hcount : f.count v = some length)
    (hsource : first + argc ≤ length) :
    ∃ h' ys, onHeap (Heap.transferFields v first (.object a) Slot.contextTail argc)
        (m.withHeap h) = .ok () (m.withHeap h') ∧ h'.Opened f a n ys ∧
      (∀ j < Slot.contextTail, ys j = xs j) ∧
      ∀ j < argc, f.field v (first + j) = some (ys (Slot.contextTail + j)) := by
  obtain ⟨o, hl, hview⟩ := id ho
  have hobject : h.view a = some o := by rw [hview, View.add_self]
  obtain ⟨h', o', hrun, hview', hcount', hfields⟩ := Heap.exists_transferFields hobject hl.count hfits
    (ho.count_old hnew hcount) hsource
  have hfield : ∀ j < n, o'.field? j = some ((o'.field? j).getD (xs j)) := by
    intro j hj
    obtain ⟨x, hx⟩ := Object.exists_field hcount' hj
    rw [hx]
    rfl
  refine ⟨h', fun j => (o'.field? j).getD (xs j), onHeap_eq_ok.mpr ⟨h', hrun, rfl⟩,
    ⟨o', ⟨hcount', hfield⟩, ?_⟩, ?_, ?_⟩
  · rw [hview', hview]
    exact Function.update_idem ..
  · intro j hj
    have hout : ¬(Slot.contextTail ≤ j ∧ j < Slot.contextTail + argc) := fun hin =>
      absurd hin.1 (Nat.not_le.mpr hj)
    have hjn : j < n := Nat.lt_of_lt_of_le hj ((Nat.le_add_right ..).trans hfits)
    dsimp only
    rw [hfields, if_neg hout, hl.field j hjn]
    rfl
  · intro j hj
    have hin : Slot.contextTail ≤ Slot.contextTail + j ∧
        Slot.contextTail + j < Slot.contextTail + argc :=
      ⟨Nat.le_add_right .., Nat.add_lt_add_left hj _⟩
    have hread := hfields (Slot.contextTail + j)
    rw [if_pos hin, Nat.add_sub_cancel_left] at hread
    obtain ⟨x, hx⟩ := Object.exists_field hcount' (Nat.lt_of_lt_of_le hin.2 hfits)
    obtain ⟨y, hy⟩ := View.exists_field hcount (i := first + j) (by omega)
    have hxy : x = y := by
      rw [hread, ho.field_old hnew hy] at hx
      exact (Option.some.inj hx).symm
    dsimp only
    rw [hx, Option.getD_some, hxy]
    exact hy

/-! ## A call -/

/-- The machine is about to send: a context is active, its registers mirror it, and its operand
stack is inside of it. -/
structure Calling (m : Machine) : Prop where
  settled : m.heap.Settled
  depth_pos : 0 < m.settings.contextStackDepth
  nil_plain : (m.known .nil).isInt = false
  active_ne : m.regs.activeContext ≠ m.known .nil
  mirrors : Mirrors m.heap m.regs
  high : m.regs.sp < m.regs.stackLimit

/-- The registers in a method, its pointers apart. -/
def callee (r : Registers) (context method receiver code : Value) (header : MethodHeader)
    (limit : Nat) : Registers :=
  { r with
    activeContext := context
    homeContext := context
    method, receiver, code
    stackBase := Slot.contextTail + header.temporaries.toNat
    stackLimit := limit
    tempCount := header.temporaries.toNat }

/-- The stack pointer at the start of a method. -/
def firstSp (header : MethodHeader) : Nat := Slot.contextTail + header.temporaries.toNat - 1

namespace Calling

variable (hc : Calling m)
include hc

theorem count_active : m.heap.view.count m.regs.activeContext = some m.regs.stackLimit :=
  Heap.fieldCount_iff_view.mp hc.mirrors.limit

theorem field_active (hi : i < m.regs.stackLimit) :
    ∃ x, m.heap.view.field m.regs.activeContext i = some x :=
  View.exists_field hc.count_active hi

theorem active_old (hnew : m.heap.view a = none) : m.regs.activeContext ≠ .object a := by
  obtain ⟨x, hx⟩ := hc.field_active hc.high
  exact View.ne_of_field hnew hx

/-- Activating a method saves the pointers of the sender, without the receiver and the arguments on
its stack, and begins the method in a new context with the arguments. -/
theorem exists_activateMethod {method receiver code : Value} {header : MethodHeader} {argc : Nat}
    (hreceiver : m.stackValue argc = .ok receiver) (hheader : HeaderOf m.heap method header)
    (hcode : m.heap.fetchField method Slot.methodCode = .ok code)
    (hargs : argc ≤ header.temporaries.toNat) (hroom : HasRoom m header) :
    ∃ a xs h, activateMethod method header argc m = .ok ()
        (m.inside (callee m.regs (.object a) method receiver code header (frameSize m header)) h 0
          (firstSp header)) ∧
      m.heap.view a = none ∧
      h.Opened (m.heap.view.saved m.regs.activeContext m.regs.ip (m.regs.sp - (argc + 1))) a
        (frameSize m header) xs ∧
      Framing xs m.regs.activeContext method receiver (m.known .nil) header ∧
      ∀ j < argc, m.heap.view.field m.regs.activeContext (m.regs.sp + 1 - argc + j) =
        some (xs (Slot.contextTail + j)) := by
  obtain ⟨hdepth, -⟩ := stackValue_eq_ok hreceiver
  have htail := hc.mirrors.tail_le
  -- the new context and the arguments
  obtain ⟨a, xs, h₁, hrun₁, hnew, hopened₁, hframing⟩ :=
    exists_newMethodContext hc.settled hroom method m.regs.activeContext receiver
  have hfits : Slot.contextTail + argc ≤ frameSize m header :=
    (Nat.add_le_add_left hargs _).trans (Nat.le_add_right ..)
  have hsource : m.regs.sp + 1 - argc + argc ≤ m.regs.stackLimit := by
    have hhigh := hc.high
    omega
  obtain ⟨h₂, ys, hrun₂, hopened₂, hnamed, harguments⟩ :=
    exists_transfer (m := m) hopened₁ hnew hfits hc.count_active hsource
  -- the sender
  let r : Registers := { m.regs with sp := m.regs.sp - (argc + 1) }
  have hrun₃ : popN (argc + 1) (m.withHeap h₂) = .ok () { m.withHeap h₂ with regs := r } := by
    rw [popN_run, if_neg]
    · rfl
    · dsimp only [withHeap_regs]
      omega
  obtain ⟨ip, hip⟩ := hc.field_active (hc.mirrors.lt_limit (i := Slot.ip) (by decide))
  obtain ⟨sp, hsp⟩ := hc.field_active (hc.mirrors.lt_limit (i := Slot.sp) (by decide))
  obtain ⟨h₃, hrun₄, hview₃⟩ := flush_run (m := { m.withHeap h₂ with regs := r }) hc.active_ne
    (hopened₂.field_old hnew hip) (hopened₂.field_old hnew hsp)
  have hold : r.activeContext ≠ .object a := hc.active_old hnew
  have hopened₃ : h₃.Opened (m.heap.view.saved r.activeContext r.ip r.sp) a (frameSize m header)
      ys := by
    obtain ⟨o, hl, hview₂⟩ := hopened₂
    refine ⟨o, hl, ?_⟩
    rw [hview₃]
    dsimp only [withHeap_heap]
    rw [hview₂, View.saved_add hold]
  -- the new context becomes active
  have hnew₃ : m.heap.view.saved r.activeContext r.ip r.sp a = none := by
    rw [View.saved_of_ne hold, hnew]
  have hslot : ∀ {i}, i < Slot.contextTail → h₃.fetchField (.object a) i = .ok (xs i) := by
    intro i hi
    rw [Heap.fetchField_iff_view, hopened₃.field (by omega), hnamed i hi]
  have hkept : ∀ {i x}, i ≠ Slot.ip ∧ i ≠ Slot.sp → m.heap.fetchField method i = .ok x →
      h₃.fetchField method i = .ok x := by
    intro i x hi hx
    rw [Heap.fetchField_iff_view] at hx ⊢
    refine hopened₃.field_old hnew₃ ?_
    rw [View.field_saved_of_ne (.inr hi)]
    exact hx
  have hload : loadContext h₃ r (.object a) = .ok { callee m.regs (.object a) method receiver code
      header (frameSize m header) with ip := 0, sp := firstSp header } := by
    obtain ⟨v, hv, hof⟩ := hheader
    refine loadContext_eq_ok.mpr ⟨?_, rfl, ?_, ?_, rfl, rfl, rfl⟩
    · constructor
      case method => exact (hslot (by decide)).trans (congrArg _ hframing.method)
      case receiver => exact (hslot (by decide)).trans (congrArg _ hframing.receiver)
      case block =>
        refine ⟨m.known .nil, (hslot (by decide)).trans (congrArg _ hframing.block), fun hint => ?_,
          fun _ => ⟨rfl, rfl⟩⟩
        rw [hc.nil_plain] at hint
        cases hint
      case header => exact ⟨header, ⟨v, hkept (by decide) hv, hof⟩, rfl⟩
      case code => exact hkept (by decide) hcode
      case limit => exact Heap.fieldCount_iff_view.mpr hopened₃.count
    · exact (hslot (by decide)).trans (congrArg _ hframing.ip)
    · exact (hslot (by decide)).trans (congrArg _ hframing.sp)
  refine ⟨a, ys, h₃, ?_, hnew, hopened₃, ?_, harguments⟩
  · calc activateMethod method header argc m
        = (do
            popN (argc + 1)
            flush
            reload (.object a) : MachineM Unit) (m.withHeap h₂) :=
          (bind_eq_of_ok (read_eq_ok.mpr ⟨hreceiver, rfl⟩)).trans <| (bind_eq_of_ok rfl).trans <|
            (bind_eq_of_ok hrun₁).trans <| (bind_eq_of_ok rfl).trans (bind_eq_of_ok hrun₂)
      _ = reload (.object a) { m with heap := h₃, regs := r } :=
          (bind_eq_of_ok hrun₃).trans (bind_eq_of_ok hrun₄)
      _ = _ := reload_run hload
  · constructor
    case sender => exact (hnamed _ (by decide)).trans hframing.sender
    case ip => exact (hnamed _ (by decide)).trans hframing.ip
    case sp => exact (hnamed _ (by decide)).trans hframing.sp
    case method => exact (hnamed _ (by decide)).trans hframing.method
    case receiver => exact (hnamed _ (by decide)).trans hframing.receiver
    case block => exact (hnamed _ (by decide)).trans hframing.block

/-- Returning to the sender marks the context as left and puts the answer on the stack of the
sender, which goes on where its pointers say. -/
theorem exists_methodReturn {h : Heap} {r : Registers} {sp : Nat} (ip₁ sp₁ : Nat) (ho : h.Opened f a n xs)
    (hnew : f a = none) (htail : Slot.contextTail ≤ n) (hactive : r.activeContext = .object a)
    (hhome : r.homeContext = .object a) (hentry : r.entryProcess = m.regs.entryProcess)
    (hwait : r.entryWait = m.regs.entryWait) (hresult : r.result = m.regs.result)
    (hsender : xs Slot.sender = m.regs.activeContext)
    (hfeeds : ∀ v i x, Feeds m.heap m.regs v i → m.heap.view.field v i = some x →
      f.field v i = some x)
    (hcount : f.count m.regs.activeContext = some m.regs.stackLimit)
    (hip : f.field m.regs.activeContext Slot.ip = some (.ofNat m.regs.ip))
    (hsp : f.field m.regs.activeContext Slot.sp = some (.ofNat sp))
    (hroom : sp + 1 < m.regs.stackLimit) (v : Value) :
    ∃ h' ys, methodReturn v (m.inside r h ip₁ sp₁) =
        .ok () { m with heap := h', regs := { m.regs with sp := sp + 1 } } ∧
      h'.Opened (f.put m.regs.activeContext (sp + 1) v) a n ys := by
  have hslot : ∀ {i}, i < Slot.contextTail → h.fetchField (.object a) i = .ok (xs i) := fun hi =>
    Heap.fetchField_iff_view.mpr (ho.field (Nat.lt_of_lt_of_le hi htail))
  -- the context is left
  obtain ⟨h₁, hrun₁, hopened₁⟩ := storeField_run_new (m := m.inside r h ip₁ sp₁) ho
    (Nat.lt_of_lt_of_le (by decide : Slot.ip < Slot.contextTail) htail) (m.known .nil)
  have hfield : ∀ {v i x}, f.field v i = some x → h₁.fetchField v i = .ok x := fun hx =>
    Heap.fetchField_iff_view.mpr (hopened₁.field_old hnew hx)
  -- the sender goes on
  have hmirrors : Mirrors h₁ m.regs := hc.mirrors.kept
    (fun v i x hv hx => hfield (hfeeds v i x hv (Heap.fetchField_iff_view.mp hx)))
    fun k hk => by
      obtain rfl := Except.ok.inj (hc.mirrors.limit.symm.trans hk)
      exact Heap.fieldCount_iff_view.mpr (hopened₁.count_old hnew hcount)
  have hload : loadContext h₁ { r with ip := ip₁, sp := sp₁ } m.regs.activeContext =
      .ok { m.regs with sp := sp } :=
    loadContext_eq_ok.mpr ⟨hmirrors.congr rfl rfl rfl rfl rfl rfl rfl rfl, rfl, hfield hip, hfield hsp,
      hentry.symm, hwait.symm, hresult.symm⟩
  have hleft : hasBeenLeft (m.inside r h₁ ip₁ sp₁) m.regs.activeContext = .ok false := by
    refine reading_bind_eq_ok.mpr ⟨_, liftFault_eq_ok.mpr (hfield hip), ?_⟩
    have hne : Value.ofNat m.regs.ip ≠ m.known .nil := fun heq => by
      have hint : (m.known .nil).isInt = true := heq ▸ rfl
      rw [hc.nil_plain] at hint
      cases hint
    exact congrArg (pure : Bool → Except Fault Bool) (decide_eq_false hne)
  obtain ⟨top, htop⟩ := View.exists_field hcount hroom
  obtain ⟨h₂, hrun₂, hview₂⟩ := storeField_run
    (m := { m with heap := h₁, regs := { m.regs with sp := sp } })
    (hopened₁.field_old hnew htop) v
  refine ⟨h₂, _, ?_, hopened₁.put_old (View.ne_of_field hnew hip) hview₂⟩
  calc methodReturn v (m.inside r h ip₁ sp₁)
      = (do
          let target ← fetchField r.homeContext Slot.sender
          markLeft r.homeContext
          resume target v : MachineM Unit) (m.inside r h ip₁ sp₁) := by
        refine (bind_eq_of_ok rfl).trans ?_
        exact congrFun (if_neg (not_not.mpr (hhome.trans hactive.symm))) _
    _ = resume m.regs.activeContext v (m.inside r h₁ ip₁ sp₁) := by
        rw [hhome, fetchField_bind_run (hslot (by decide)), hsender]
        exact bind_eq_of_ok hrun₁
    _ = (do
          reload m.regs.activeContext
          push v : MachineM Unit) (m.inside r h₁ ip₁ sp₁) := by
        refine (bind_eq_of_ok rfl).trans ((congrFun (if_neg hc.active_ne) _).trans ?_)
        have hread : read (·.hasBeenLeft m.regs.activeContext) (m.inside r h₁ ip₁ sp₁) =
            .ok false (m.inside r h₁ ip₁ sp₁) := read_eq_ok.mpr ⟨hleft, rfl⟩
        exact bind_eq_of_ok hread
    _ = push v { m with heap := h₁, regs := { m.regs with sp := sp } } :=
        bind_eq_of_ok (reload_run hload)
    _ = .ok () { m with heap := h₂, regs := { m.regs with sp := sp + 1 } } := by
        rw [push_run, if_neg (Nat.not_le.mpr hroom)]
        exact bind_eq_of_ok hrun₂

end Calling

end Machine

end MessageMachine
