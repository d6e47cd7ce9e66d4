import MessageMachine.Proofs.Creation
import MessageMachine.Proofs.Heap.Packing
import MessageMachine.Proofs.Instruction.Encoding
import MessageMachine.Proofs.Machine.Calls
import MessageMachine.Proofs.Send.Special

/-!
# Accessors without a context

A method that only answers a field, or only sets one, is carried out on the operand stack of the
sender, without a context.  The same method can be written out as code.  Both are followed to their
end here, and compared (`send_accessor`): the registers and the stack of the sender end up equal, and
so do the objects that were there before, but for two fields.  These are the pointers in the sender's
context, which are saved when a context is left and so only by the code.

That is also where the two come apart.  An accessor for one of the sender's own pointers finds what was
saved last, and the code finds what it saved itself (`send_accessor_differs`).
-/

namespace MessageMachine

/-- A method for one field of its receiver. -/
inductive Accessor where
  /-- Answers the field. -/
  | getter
  /-- Sets the field to the argument and answers the receiver. -/
  | setter
  deriving DecidableEq, Repr

namespace Accessor

/-- The kind of such a method when it has no code. -/
def kind : Accessor → MethodKind
  | getter => .returnField
  | setter => .popAndStoreField

/-- How many arguments it takes. -/
def arguments : Accessor → Nat
  | getter => 0
  | setter => 1

/-- The method written out. -/
def body (i : UInt8) : Accessor → List Instruction
  | getter => [.pushField i, .ret .topToSender]
  | setter => [.pushTemporary 0, .popStoreField i, .ret .receiver]

end Accessor

/-- The instructions stand one after the other, from `pos` on. -/
def Decodes (code : Array UInt8) : Nat → List Instruction → Prop
  | _, [] => True
  | pos, i :: rest =>
    ∃ next, Instruction.decodeAt code pos = .ok (i, next) ∧ Decodes code next rest

namespace Machine

variable {m : Machine} {receiver method v y : Value} {i : UInt8} {j : Nat}

/-! ## What is compared -/

/-- The method is an accessor without code. -/
structure IsAccessor (h : Heap) (x : Accessor) (i : UInt8) (method : Value) : Prop where
  header : ∃ header, HeaderOf h method header ∧ header.kind = x.kind ∧
    header.arguments.toNat = x.arguments ∧ header.index.toNat = i.toNat

/-- The method is an accessor written out. -/
structure IsWrittenOut (h : Heap) (x : Accessor) (i : UInt8) (method : Value)
    (header : MethodHeader) : Prop where
  headerOf : HeaderOf h method header
  kind_eq : header.kind = .bytecodes
  arguments_eq : header.arguments.toNat = x.arguments
  temporaries_le : header.arguments.toNat ≤ header.temporaries.toNat
  decodes : ∃ code bytes, h.fetchField method Slot.methodCode = .ok code ∧
    h.bytes code = .ok bytes ∧ Decodes bytes 0 (x.body i)

/-- The machine with `argc` values fewer on the stack, and another heap. -/
def answered (m : Machine) (argc : Nat) (h : Heap) : Machine :=
  { m with heap := h, regs := { m.regs with sp := m.regs.sp - argc } }

/-- The field is one that takes part in the send itself: a pointer of the sender, and for a setter also
the receiver on the stack, and what the registers of the sender are copied from. -/
def Interferes (m : Machine) (receiver : Value) (i : Nat) : Accessor → Prop
  | .getter => receiver = m.regs.activeContext ∧ (i = Slot.ip ∨ i = Slot.sp)
  | .setter =>
    receiver = m.regs.activeContext ∧ (i = Slot.ip ∨ i = Slot.sp ∨ i = m.regs.sp - 1) ∨
      Feeds m.heap m.regs receiver i

/-! ## Invoking the methods -/

/-- Reading the header of a method. -/
theorem readHeader_run {header : MethodHeader} (hheader : HeaderOf m.heap method header) :
    read (fun m => do
      return (← MethodHeader.ofValue (← m.heap.fetchField method Slot.methodHeader) :
        MethodHeader)) m = .ok header m := by
  obtain ⟨bits, hbits, hof⟩ := hheader
  refine read_eq_ok.mpr ⟨reading_bind_eq_ok.mpr ⟨bits, liftFault_eq_ok.mpr hbits, ?_⟩, rfl⟩
  rw [hof]
  rfl

/-- What the machine does for an accessor. -/
def access (i : Nat) : Accessor → MachineM Unit
  | .getter => do
    let receiver ← pop
    push (← fetchField receiver i)
  | .setter => do
    let v ← pop
    let receiver ← read (·.stackValue 0)
    storeField receiver i v

variable {x : Accessor} {header : MethodHeader} {send : Value → MachineM Unit}

theorem IsAccessor.invoke_run (ha : IsAccessor m.heap x i method) :
    invoke id send method x.arguments m = access i.toNat x m := by
  obtain ⟨header, hheader, hkind, harguments, hindex⟩ := ha.header
  refine (bind_eq_of_ok (readHeader_run hheader)).trans ?_
  dsimp only
  rw [if_pos harguments, hkind, hindex]
  cases x <;> rfl

theorem IsWrittenOut.invoke_run (hw : IsWrittenOut m.heap x i method header) :
    invoke id send method x.arguments m = activateMethod method header x.arguments m := by
  refine (bind_eq_of_ok (readHeader_run hw.headerOf)).trans ?_
  dsimp only
  rw [if_pos hw.arguments_eq, hw.kind_eq]

/-! ## Without a context -/

theorem layout_of_storeField {h : Heap} (hrun : storeField v j y m = .ok () (m.withHeap h))
    (space : Space) : (h.pool space).layout = (m.heap.pool space).layout := by
  obtain ⟨h', hstore, heq⟩ := onHeap_eq_ok.mp hrun
  obtain rfl : h = h' := congrArg Machine.heap heq
  exact Heap.layout_of_storeField hstore space

/-- A getter replaces the receiver by the field. -/
theorem getter_run (hc : Calling m) (hreceiver : m.stackValue 0 = .ok receiver)
    (hy : m.heap.view.field receiver j = some y) : ∃ h,
      access j .getter m = .ok () (m.answered 0 h) ∧
      h.view = m.heap.view.put m.regs.activeContext m.regs.sp y ∧
      ∀ space, (h.pool space).layout = (m.heap.pool space).layout := by
  obtain ⟨hbase, hfield⟩ := stackValue_eq_ok hreceiver
  have hpos : m.regs.sp - 1 + 1 = m.regs.sp :=
    Nat.sub_add_cancel ((by decide : 1 ≤ Slot.contextTail).trans (hc.mirrors.tail_le.trans hbase))
  let t : Machine := { m with regs := { m.regs with sp := m.regs.sp - 1 } }
  obtain ⟨h, hrun, hview⟩ := storeField_run (m := t) (Heap.fetchField_iff_view.mp hfield) y
  refine ⟨h, ?_, hview, layout_of_storeField (m := t) hrun⟩
  calc access j .getter m = (do push (← fetchField receiver j) : MachineM Unit) t :=
        bind_eq_of_ok (pop_run_ok hreceiver)
    _ = push y t := fetchField_bind_run (Heap.fetchField_iff_view.mpr hy)
    _ = (storeField m.regs.activeContext m.regs.sp y >>= fun _ =>
          modifyRegs ({ · with sp := m.regs.sp })) t := by
        have hroom : ¬m.regs.stackLimit ≤ m.regs.sp := Nat.not_le.mpr hc.high
        rw [push_run]
        dsimp only [t]
        rw [hpos, if_neg hroom]
    _ = .ok () (m.answered 0 h) := bind_eq_of_ok hrun

/-- A setter drops the argument. -/
theorem setter_run (hreceiver : m.stackValue 1 = .ok receiver)
    (hv : m.heap.view.field m.regs.activeContext m.regs.sp = some v)
    (hy : m.heap.view.field receiver j = some y) : ∃ h,
      access j .setter m = .ok () (m.answered 1 h) ∧
      h.view = m.heap.view.put receiver j v ∧
      ∀ space, (h.pool space).layout = (m.heap.pool space).layout := by
  obtain ⟨hbase, hfield⟩ := stackValue_eq_ok hreceiver
  let t : Machine := { m with regs := { m.regs with sp := m.regs.sp - 1 } }
  have htop : m.stackValue 0 = .ok v := by
    rw [stackValue_zero, if_neg (by omega)]
    exact liftFault_eq_ok.mpr (Heap.fetchField_iff_view.mpr hv)
  have hbelow : t.stackValue 0 = .ok receiver := by
    have hlow : ¬t.regs.sp < t.regs.stackBase := Nat.not_lt.mpr (Nat.le_sub_of_add_le hbase)
    rw [stackValue_zero, if_neg hlow]
    exact liftFault_eq_ok.mpr hfield
  obtain ⟨h, hrun, hview⟩ := storeField_run (m := t) hy v
  refine ⟨h, ?_, hview, layout_of_storeField (m := t) hrun⟩
  calc access j .setter m
      = (do
          let receiver ← read (·.stackValue 0)
          storeField receiver j v : MachineM Unit) t := bind_eq_of_ok (pop_run_ok htop)
    _ = storeField receiver j v t := bind_eq_of_ok (read_eq_ok.mpr ⟨hbelow, rfl⟩)
    _ = .ok () (m.answered 1 h) := hrun

/-! ## With a context -/

/-- So many instructions. -/
def steps : Nat → MachineM Unit
  | 0 => return ()
  | n + 1 => do
    step
    steps n

theorem inside_step {r : Registers} {h : Heap} {bytes : Array UInt8} {ip sp next : Nat}
    {instruction : Instruction} (hcode : h.view.bytes r.code = some bytes)
    (hdecode : Instruction.decodeAt bytes ip = .ok (instruction, next)) :
    step (m.inside r h ip sp) = execute id instruction (m.inside r h next sp) :=
  step_run (m := m.inside r h ip sp) hcode hdecode

theorem firstSp_succ (header : MethodHeader) :
    firstSp header + 1 = Slot.contextTail + header.temporaries.toNat :=
  Nat.sub_add_cancel ((by decide : 1 ≤ Slot.contextTail).trans (Nat.le_add_right ..))

namespace Calling

variable (hc : Calling m)
include hc

theorem exists_pointer (hj : j ≤ Slot.blockArguments) :
    ∃ x, m.heap.view.field m.regs.activeContext j = some x :=
  hc.field_active (hc.mirrors.lt_limit hj)

theorem firstSp_lt (header : MethodHeader) : firstSp header + 1 < frameSize m header := by
  rw [firstSp_succ]
  exact Nat.lt_add_of_pos_right hc.depth_pos

/-- The return at the end of a written out accessor, which has not stored into the fields that the
send has saved or that the registers of the sender are copied from. -/
theorem exists_return {f : View} {a : Handle} {xs : Nat → Value} {h : Heap} (argc ip₁ sp₁ : Nat)
    (method receiver code : Value) (ho : h.Opened f a (frameSize m header) xs) (hnew : f a = none)
    (hargc : argc + 1 ≤ m.regs.sp) (hsender : xs Slot.sender = m.regs.activeContext)
    (hcount : f.count m.regs.activeContext = some m.regs.stackLimit)
    (hip : f.field m.regs.activeContext Slot.ip = some (.ofNat m.regs.ip))
    (hsp : f.field m.regs.activeContext Slot.sp = some (.ofNat (m.regs.sp - (argc + 1))))
    (hfeeds : ∀ v i x, Feeds m.heap m.regs v i → m.heap.view.field v i = some x →
      f.field v i = some x) (v : Value) : ∃ h' ys,
      methodReturn v (m.inside (callee m.regs (.object a) method receiver code header
        (frameSize m header)) h ip₁ sp₁) = .ok () (m.answered argc h') ∧
      h'.Opened (f.put m.regs.activeContext (m.regs.sp - argc) v) a (frameSize m header) ys := by
  have hpos : m.regs.sp - (argc + 1) + 1 = m.regs.sp - argc := by omega
  have hroom : m.regs.sp - (argc + 1) + 1 < m.regs.stackLimit :=
    hpos ▸ Nat.lt_of_le_of_lt (Nat.sub_le ..) hc.high
  obtain ⟨h', ys, hrun, hopened⟩ := hc.exists_methodReturn ip₁ sp₁
    (r := callee m.regs (.object a) method receiver code header (frameSize m header)) ho hnew
    ((Nat.le_add_right ..).trans (Nat.le_add_right ..)) rfl rfl rfl rfl rfl hsender hfeeds hcount hip
    hsp hroom v
  rw [hpos] at hrun hopened
  exact ⟨h', ys, hrun, hopened⟩

/-- The code of a getter leaves the field on the stack of the sender, whose pointers it has saved. -/
theorem writtenGetter_run (hw : IsWrittenOut m.heap .getter i method header)
    (hroom : HasRoom m header) (hreceiver : m.stackValue 0 = .ok receiver)
    (hy : m.heap.view.field receiver i.toNat = some y)
    (hfree : ¬m.Interferes receiver i.toNat .getter) : ∃ a n xs h,
      (do activateMethod method header 0; steps 2 : MachineM Unit) m = .ok () (m.answered 0 h) ∧
      m.heap.view a = none ∧
      h.Opened ((m.heap.view.saved m.regs.activeContext m.regs.ip (m.regs.sp - 1)).put
        m.regs.activeContext m.regs.sp y) a n xs := by
  obtain ⟨code, bytes, hcode, hbytes, next₁, hdecode₁, next₂, hdecode₂, -⟩ := hw.decodes
  have hbase := (stackValue_eq_ok hreceiver).1
  have htail : 1 ≤ m.regs.stackBase :=
    (by decide : 1 ≤ Slot.contextTail).trans hc.mirrors.tail_le
  -- the getter is activated
  obtain ⟨a, xs, h₀, hrun₀, hnew, hopened₀, hframing, -⟩ := hc.exists_activateMethod hreceiver
    hw.headerOf hcode (Nat.zero_le _) hroom
  let f := m.heap.view.saved m.regs.activeContext m.regs.ip (m.regs.sp - 1)
  let r := callee m.regs (.object a) method receiver code header (frameSize m header)
  have hf : f a = none := (View.saved_of_ne (hc.active_old hnew)).trans hnew
  have hbytesOf : f.bytes r.code = some bytes :=
    View.bytes_saved.trans (Heap.bytes_iff_view.mp hbytes)
  have hfield : f.field receiver i.toNat = some y := by
    refine (View.field_saved_of_ne ?_).trans hy
    by_cases hsame : receiver = m.regs.activeContext
    · exact .inr ⟨fun h => hfree ⟨hsame, .inl h⟩, fun h => hfree ⟨hsame, .inr h⟩⟩
    · exact .inl hsame
  -- it pushes the field
  have hsize := hc.firstSp_lt header
  obtain ⟨h₁, hpush, hopened₁⟩ := push_run_new m r next₁ hopened₀ rfl rfl hsize y
  have hstep₁ : step (m.inside r h₀ 0 (firstSp header)) =
      .ok () (m.inside r h₁ next₁ (firstSp header + 1)) := by
    refine (inside_step (hopened₀.bytes_old hf hbytesOf) hdecode₁).trans ((bind_eq_of_ok rfl).trans ?_)
    exact (fetchField_bind_run (Heap.fetchField_iff_view.mpr (hopened₀.field_old hf hfield))).trans hpush
  -- it returns the field
  obtain ⟨ip, hip⟩ := hc.exists_pointer (j := Slot.ip) (by decide)
  obtain ⟨sp, hsp⟩ := hc.exists_pointer (j := Slot.sp) (by decide)
  obtain ⟨h₂, ys, hreturn, hopened₂⟩ := hc.exists_return 0 next₂
    (firstSp header) method receiver code hopened₁ hf
    (htail.trans hbase) hframing.sender (View.count_saved.trans hc.count_active)
    (View.field_saved_ip hip) (View.field_saved_sp hsp)
    (fun v j x hv hx => (View.field_saved_of_ne (.inr hv.ne_pointer)).trans hx) y
  have hstep₂ : step (m.inside r h₁ next₁ (firstSp header + 1)) = .ok () (m.answered 0 h₂) := by
    refine (inside_step (hopened₁.bytes_old hf hbytesOf) hdecode₂).trans ?_
    have hpop := pop_run_new m r next₂ hopened₁ rfl (firstSp_succ header).ge hsize
    rw [Function.update_self] at hpop
    exact (bind_eq_of_ok hpop).trans hreturn
  refine ⟨a, _, ys, h₂, ?_, hnew, hopened₂⟩
  exact (bind_eq_of_ok hrun₀).trans ((bind_eq_of_ok hstep₁).trans (bind_eq_of_ok hstep₂))

/-- The code of a setter stores the argument and leaves the receiver on the stack of the sender, whose
pointers it has saved. -/
theorem writtenSetter_run (hw : IsWrittenOut m.heap .setter i method header)
    (hroom : HasRoom m header) (hreceiver : m.stackValue 1 = .ok receiver)
    (hv : m.heap.view.field m.regs.activeContext m.regs.sp = some v)
    (hy : m.heap.view.field receiver i.toNat = some y)
    (hfree : ¬m.Interferes receiver i.toNat .setter) : ∃ a n xs h,
      (do activateMethod method header 1; steps 3 : MachineM Unit) m = .ok () (m.answered 1 h) ∧
      m.heap.view a = none ∧
      h.Opened (((m.heap.view.saved m.regs.activeContext m.regs.ip (m.regs.sp - 2)).put
        receiver i.toNat v).put m.regs.activeContext (m.regs.sp - 1) receiver) a n xs := by
  obtain ⟨code, bytes, hcode, hbytes, next₁, hdecode₁, next₂, hdecode₂, next₃, hdecode₃, -⟩ :=
    hw.decodes
  have hbase := (stackValue_eq_ok hreceiver).1
  have htail : 1 ≤ m.regs.stackBase :=
    (by decide : 1 ≤ Slot.contextTail).trans hc.mirrors.tail_le
  have htemps : 1 ≤ header.temporaries.toNat := hw.arguments_eq.symm.trans_le hw.temporaries_le
  -- the setter is activated
  obtain ⟨a, xs, h₀, hrun₀, hnew, hopened₀, hframing, harguments⟩ := hc.exists_activateMethod hreceiver
    hw.headerOf hcode htemps hroom
  let f := m.heap.view.saved m.regs.activeContext m.regs.ip (m.regs.sp - 2)
  let r := callee m.regs (.object a) method receiver code header (frameSize m header)
  have hf : f a = none := (View.saved_of_ne (hc.active_old hnew)).trans hnew
  have hbytesOf : f.bytes r.code = some bytes :=
    View.bytes_saved.trans (Heap.bytes_iff_view.mp hbytes)
  have hapart : receiver ≠ m.regs.activeContext ∨ i.toNat ≠ Slot.ip ∧ i.toNat ≠ Slot.sp := by
    by_cases hsame : receiver = m.regs.activeContext
    · exact .inr ⟨fun h => hfree (.inl ⟨hsame, .inl h⟩),
        fun h => hfree (.inl ⟨hsame, .inr (.inl h)⟩)⟩
    · exact .inl hsame
  have hfield : f.field receiver i.toNat = some y := (View.field_saved_of_ne hapart).trans hy
  -- it pushes the argument
  have hsize := hc.firstSp_lt header
  obtain ⟨h₁, hpush, hopened₁⟩ := push_run_new m r next₁ hopened₀ rfl rfl hsize v
  have hargument : (m.inside r h₀ next₁ (firstSp header)).temporary 0 = .ok v := by
    have hxs : xs Slot.contextTail = v := by
      have hread := harguments 0 Nat.zero_lt_one
      rw [Nat.add_sub_cancel, Nat.add_zero, hv] at hread
      exact (Option.some.inj hread).symm
    have hplace : h₀.fetchField (.object a) Slot.contextTail = .ok v := by
      rw [← hxs]
      exact Heap.fetchField_iff_view.mpr (hopened₀.field (by unfold frameSize; omega))
    unfold temporary
    have hcount : ¬(m.inside r h₀ next₁ (firstSp header)).regs.tempCount ≤ 0 := Nat.not_le.mpr htemps
    rw [if_neg hcount]
    exact liftFault_eq_ok.mpr hplace
  have hstep₁ : step (m.inside r h₀ 0 (firstSp header)) =
      .ok () (m.inside r h₁ next₁ (firstSp header + 1)) := by
    refine (inside_step (hopened₀.bytes_old hf hbytesOf) hdecode₁).trans ?_
    exact (bind_eq_of_ok (read_eq_ok.mpr ⟨hargument, rfl⟩)).trans hpush
  -- it stores the argument
  obtain ⟨h₂, hstore, hview₂⟩ := storeField_run (m := m.inside r h₁ next₂ (firstSp header))
    (hopened₁.field_old hf hfield) v
  have hopened₂ := hopened₁.put_old (View.ne_of_field hf hfield) hview₂
  have hf₂ : f.put receiver i.toNat v a = none :=
    (View.put_of_ne (View.ne_of_field hf hfield)).trans hf
  have hstep₂ : step (m.inside r h₁ next₁ (firstSp header + 1)) =
      .ok () (m.inside r h₂ next₂ (firstSp header)) := by
    refine (inside_step (hopened₁.bytes_old hf hbytesOf) hdecode₂).trans ?_
    have hpop := pop_run_new m r next₂ hopened₁ rfl (firstSp_succ header).ge hsize
    rw [Function.update_self] at hpop
    exact (bind_eq_of_ok hpop).trans ((bind_eq_of_ok rfl).trans hstore)
  -- it returns the receiver
  obtain ⟨ip, hip⟩ := hc.exists_pointer (j := Slot.ip) (by decide)
  obtain ⟨sp, hsp⟩ := hc.exists_pointer (j := Slot.sp) (by decide)
  have hother : ∀ {w j x}, ¬(w = receiver ∧ j = i.toNat) → f.field w j = some x →
      (f.put receiver i.toNat v).field w j = some x := fun hne hx =>
    (View.field_put_of_ne (not_and_or.mp hne)).trans hx
  obtain ⟨h₃, ys, hreturn, hopened₃⟩ := hc.exists_return 1 next₃
    (firstSp header) method receiver code hopened₂ hf₂
    (by omega) hframing.sender (View.count_put.trans (View.count_saved.trans hc.count_active))
    (hother (fun h => hfree (.inl ⟨h.1.symm, .inl h.2.symm⟩)) (View.field_saved_ip hip))
    (hother (fun h => hfree (.inl ⟨h.1.symm, .inr (.inl h.2.symm)⟩)) (View.field_saved_sp hsp))
    (fun w j x hw hx => hother (fun h => hfree (.inr (h.1 ▸ h.2 ▸ hw)))
      ((View.field_saved_of_ne (.inr hw.ne_pointer)).trans hx)) receiver
  have hstep₃ : step (m.inside r h₂ next₂ (firstSp header)) = .ok () (m.answered 1 h₃) :=
    (inside_step (hopened₂.bytes_old hf₂ (View.bytes_put.trans hbytesOf)) hdecode₃).trans
      ((bind_eq_of_ok rfl).trans hreturn)
  refine ⟨a, _, ys, h₃, ?_, hnew, hopened₃⟩
  exact (bind_eq_of_ok hrun₀).trans ((bind_eq_of_ok hstep₁).trans
    ((bind_eq_of_ok hstep₂).trans (bind_eq_of_ok hstep₃)))

end Calling

/-! ## The two compared -/

/-- A send of the selector to the receiver below `argc` arguments finds the method. -/
structure Finds (m : Machine) (selector receiver method : Value) (argc : Nat) : Prop where
  receiver_eq : m.stackValue argc = .ok receiver
  found : ∃ type t, m.classOf receiver = .ok type ∧ lookup type selector m = .ok (some method) t

/-- The first selector finds an accessor for a field that the receiver has, the second finds the same
written out, and there is room for its context. -/
structure Compares (m : Machine) (x : Accessor) (i : UInt8) (receiver selector selector' : Value) :
    Prop where
  field : ∃ size, m.heap.fieldCount receiver = .ok size ∧ i.toNat < size
  accessor : ∃ method, m.Finds selector receiver method x.arguments ∧
    IsAccessor m.heap x i method
  written : ∃ method header, m.Finds selector' receiver method x.arguments ∧
    IsWrittenOut m.heap x i method header ∧ HasRoom m header

theorem Calling.withCache (hc : Calling m) (c : MethodCache) : Calling (m.withCache c) :=
  ⟨hc.settled, hc.depth_pos, hc.nil_plain, hc.active_ne, hc.mirrors, hc.high⟩

theorem Finds.send_run {selector : Value} {argc : Nat} (hf : m.Finds selector receiver method argc) :
    ∃ nested c, Machine.send id selector argc m = invoke id nested method argc (m.withCache c) := by
  obtain ⟨type, t, htype, hlookup⟩ := hf.found
  obtain ⟨c, rfl⟩ := eq_withCache_of_lookup hlookup
  obtain ⟨nested, hsend⟩ := Machine.send_run hf.receiver_eq htype hlookup
  exact ⟨nested, c, hsend⟩

/-- What a heap shows but for the pointers saved in a context. -/
def withoutPointers (h : Heap) (c : Value) : View := h.view.saved c 0 0

/-- The receiver that the code of a setter leaves on the stack is there already. -/
theorem saved_setter {f : View} {c : Value} {ip sp k : Nat}
    (hj : ¬(j = Slot.ip ∨ j = Slot.sp)) (hk : ¬(receiver = c ∧ (k = Slot.ip ∨ k = Slot.sp)))
    (hplace : (f.put receiver k v).field c j = some receiver) :
    (((f.saved c ip sp).put receiver k v).put c j receiver).saved c 0 0 =
      (f.put receiver k v).saved c 0 0 := by
  calc (((f.saved c ip sp).put receiver k v).put c j receiver).saved c 0 0
      = (((f.saved c ip sp).put receiver k v).saved c 0 0).put c j receiver :=
        View.saved_put fun h => hj h.2
    _ = ((f.put receiver k v).saved c 0 0).put c j receiver := by rw [View.saved_put_saved hk]
    _ = ((f.put receiver k v).put c j receiver).saved c 0 0 := (View.saved_put fun h => hj h.2).symm
    _ = (f.put receiver k v).saved c 0 0 := by rw [View.put_same hplace]

/-- Two heaps show the same of what was there before a context was made. -/
theorem withoutPointers_eq {h₁ h₂ : Heap} {f₁ f₂ : View} {a b : Handle} {n : Nat} {xs : Nat → Value}
    {c : Value} (hview : h₁.view = f₁) (ho : h₂.Opened f₂ a n xs)
    (hsaved : f₂.saved c 0 0 = f₁.saved c 0 0) (hb : b ≠ a) :
    withoutPointers h₁ c b = withoutPointers h₂ c b := by
  calc withoutPointers h₁ c b
      = f₁.saved c 0 0 b := by rw [withoutPointers, hview]
    _ = f₂.saved c 0 0 b := congrFun hsaved.symm b
    _ = withoutPointers h₂ c b := View.put_congr (View.put_congr (ho.object_old hb).symm)

/-- An accessor does what its code does.  The two leave the same registers, and of every object that
was there they leave the same, but for the pointers saved in the context of the sender.  The accessor
allocates nothing. -/
theorem send_accessor (hc : Calling m) {selector selector' : Value}
    (hcompares : m.Compares x i receiver selector selector')
    (hfree : ¬m.Interferes receiver i.toNat x) : ∃ h₁ c₁ h₂ c₂,
      Machine.send id selector x.arguments m =
        .ok () ((m.answered x.arguments h₁).withCache c₁) ∧
      (do Machine.send id selector' x.arguments; steps (x.body i).length : MachineM Unit) m =
        .ok () ((m.answered x.arguments h₂).withCache c₂) ∧
      (∀ b, m.heap.view b ≠ none → h₁.view b ≠ none ∧
        withoutPointers h₁ m.regs.activeContext b = withoutPointers h₂ m.regs.activeContext b) ∧
      ∀ space, (h₁.pool space).layout = (m.heap.pool space).layout := by
  obtain ⟨size, hsize, hi⟩ := hcompares.field
  obtain ⟨y, hy⟩ := View.exists_field (Heap.fieldCount_iff_view.mp hsize) hi
  obtain ⟨accessor, hfinds, haccessor⟩ := hcompares.accessor
  obtain ⟨written, header, hfinds', hwritten, hroom⟩ := hcompares.written
  obtain ⟨nested, c₁, hsend⟩ := hfinds.send_run
  obtain ⟨nested', c₂, hsend'⟩ := hfinds'.send_run
  have hbase := (stackValue_eq_ok hfinds.receiver_eq).1
  have hbelow : ¬(m.regs.sp - x.arguments = Slot.ip ∨ m.regs.sp - x.arguments = Slot.sp) := by
    have htail : 9 ≤ m.regs.stackBase := hc.mirrors.tail_le
    simp only [Slot.ip, Slot.sp]
    omega
  cases x with
  | getter =>
    obtain ⟨h₁, hrun₁, hview₁, hlayout⟩ := getter_run (hc.withCache c₁) hfinds.receiver_eq hy
    obtain ⟨a, n, xs, h₂, hrun₂, hnew, hopened⟩ := (hc.withCache c₂).writtenGetter_run hwritten hroom
      hfinds'.receiver_eq hy hfree
    refine ⟨h₁, c₁, h₂, c₂, ?_, ?_, fun b hb => ⟨?_, ?_⟩, hlayout⟩
    · exact hsend.trans ((IsAccessor.invoke_run (m := m.withCache c₁) haccessor).trans hrun₁)
    · rw [bind_run, hsend', IsWrittenOut.invoke_run (m := m.withCache c₂) hwritten, ← bind_run]
      exact hrun₂
    · rw [hview₁]
      exact fun hnone => hb (View.put_eq_none.mp hnone)
    · refine withoutPointers_eq hview₁ hopened (View.saved_put_saved fun h => hbelow h.2) ?_
      rintro rfl
      exact hb hnew
  | setter =>
    obtain ⟨v, hv⟩ := hc.field_active hc.high
    obtain ⟨h₁, hrun₁, hview₁, hlayout⟩ := setter_run (m := m.withCache c₁) hfinds.receiver_eq hv hy
    obtain ⟨a, n, xs, h₂, hrun₂, hnew, hopened⟩ := (hc.withCache c₂).writtenSetter_run hwritten hroom
      hfinds'.receiver_eq hv hy hfree
    refine ⟨h₁, c₁, h₂, c₂, ?_, ?_, fun b hb => ⟨?_, ?_⟩, hlayout⟩
    · exact hsend.trans ((IsAccessor.invoke_run (m := m.withCache c₁) haccessor).trans hrun₁)
    · rw [bind_run, hsend', IsWrittenOut.invoke_run (m := m.withCache c₂) hwritten, ← bind_run]
      exact hrun₂
    · rw [hview₁]
      exact fun hnone => hb (View.put_eq_none.mp hnone)
    · have hplace : (m.heap.view.put receiver i.toNat v).field m.regs.activeContext (m.regs.sp - 1) =
          some receiver := by
        rw [View.field_put_of_ne (not_and_or.mp fun h => hfree (.inl ⟨h.1.symm, .inr (.inr h.2.symm)⟩))]
        exact Heap.fetchField_iff_view.mp (stackValue_eq_ok hfinds.receiver_eq).2
      refine withoutPointers_eq hview₁ hopened
        (saved_setter hbelow (fun h => hfree (.inl ⟨h.1, h.2.imp_right .inl⟩)) hplace) ?_
      rintro rfl
      exact hb hnew

/-! ## A small machine -/

/-- An object of a small machine. -/
def ref (k : Nat) : Value := .object ⟨.ephemeral, 0, 0, k⟩

/-- An object that nothing but its fields is known of. -/
def fielded (xs : List Value) : Object := ⟨⟨xs.length, 0, .int 0, .live⟩, .fields xs.toArray⟩

/-- The objects of a machine that is about to send: nil, an accessor, the same written out, the code of
that, the method of the sender and its context, which says that it is of the method `own`. -/
def sendingObjects (x : Accessor) (i : UInt8) (own : Value) (stack : List Value) : Array Object :=
  let nil := ref 0
  let code : Value := .bytes ⟨.ephemeral, 0, 0, 3⟩
  let arguments : UInt8 := .ofNat x.arguments
  let accessor : MethodHeader := ⟨x.kind, arguments, arguments, i.toUInt16⟩
  let bytes : List UInt8 := (x.body i).flatMap Instruction.encode
  #[fielded [],
    fielded [accessor.toValue],
    fielded [(MethodHeader.bytecodes arguments arguments).toValue, nil, nil, code],
    ⟨.forBytes bytes.length (.int 0) .live, .bytes bytes.toArray⟩,
    fielded [(MethodHeader.bytecodes 0 0).toValue, nil, nil, code],
    fielded ([nil, .int 0, .int 8, own, nil, nil, nil, nil, nil] ++ stack)]

/-- The machine with these objects, which sends the integers 1 and 2 to what is on the stack.  It is due
for a collection. -/
def sending (x : Accessor) (i : UInt8) (own : Value) (stack : List Value) : Machine :=
  let objects := sendingObjects x i own stack
  { settings := {}
    heap :=
      { settings := {}
        root := .empty .root 0 1000 1
        ephemeral := ⟨.ephemeral, 0, 1000, 1, #[⟨objects, objects.foldl (· + ·.words) 0⟩]⟩
        threshold := 1
        collections := 0 }
    known := .filled (ref 0)
    regs :=
      { Registers.cleared (ref 0) (ref 0) with
        activeContext := ref 5
        homeContext := ref 5
        method := ref 4
        code := .bytes ⟨.ephemeral, 0, 0, 3⟩
        ip := 2
        sp := 8 + stack.length
        stackBase := 9
        stackLimit := 9 + stack.length }
    cache := (MethodCache.empty.put (.int 0) (.int 1) (ref 1)).put (.int 0) (.int 2) (ref 2)
    schedule := .initial
    feed := default
    pins := default
    ticks := 0
    instructions := 0 }

/-- What is seen of the machine after an action. -/
def after (action : MachineM Unit) (m : Machine) (look : Machine → Except Fault Value) :
    Option Value :=
  match action m with
  | .ok _ m' => (look m').toOption
  | .error _ _ => none

/-- The send of the accessor of a small machine, and that of its code up to the return. -/
def sendAccessor (x : Accessor) : MachineM Unit := Machine.send id (.int 1) x.arguments

/-- The send of the code of an accessor of a small machine, up to the return. -/
def sendWritten (x : Accessor) (i : UInt8) : MachineM Unit := do
  Machine.send id (.int 2) x.arguments
  steps (x.body i).length

theorem settled_sending (x : Accessor) (i : UInt8) (own : Value) (stack : List Value) :
    (sending x i own stack).heap.Settled := by
  refine ⟨rfl, rfl, fun s j o ho => ?_⟩
  obtain ⟨seg, hseg, hobject⟩ : ∃ seg : Segment, #[(⟨sendingObjects x i own stack,
      (sendingObjects x i own stack).foldl (· + ·.words) 0⟩ : Segment)][s]? = some seg ∧
      seg.objects[j]? = some o := by
    rw [Pool.at?_eq] at ho
    exact Option.bind_eq_some_iff.mp ho
  obtain rfl : seg = ⟨sendingObjects x i own stack, _⟩ := by
    cases s with
    | zero => exact (Option.some.inj hseg).symm
    | succ s => cases hseg
  have hmem : o ∈ sendingObjects x i own stack := Array.mem_of_getElem? hobject
  simp only [sendingObjects, List.mem_toArray, List.mem_cons, List.not_mem_nil, or_false] at hmem
  obtain rfl | rfl | rfl | rfl | rfl | rfl := hmem <;> rfl

theorem calling_sending (x : Accessor) (i : UInt8) (stack : List Value) :
    Calling (sending x i (ref 4) stack) where
  settled := settled_sending ..
  depth_pos := (by decide : 0 < 32)
  nil_plain := rfl
  active_ne := (by decide : ref 5 ≠ ref 0)
  mirrors := by
    constructor
    case method => rfl
    case receiver => rfl
    case block => exact ⟨ref 0, rfl, nofun, fun _ => ⟨rfl, rfl⟩⟩
    case header => exact ⟨.bytecodes 0 0, ⟨_, rfl, rfl⟩, rfl⟩
    case code => rfl
    case limit => exact Heap.fieldCount_eq_ok.mpr ⟨_, rfl, by simp [sending]; omega⟩
  high := Nat.add_lt_add_of_lt_of_le (by decide : 8 < 9) le_rfl

/-- On the machine, where the two can be compared, different things are seen after them. -/
structure Differs (m : Machine) (x : Accessor) (i : UInt8) (receiver : Value)
    (look : Machine → Except Fault Value) : Prop where
  compares : m.Compares x i receiver (.int 1) (.int 2)
  ne : after (sendAccessor x) m look ≠ after (sendWritten x i) m look

/-- Without the conditions the two differ.  A getter of the sender's own instruction pointer answers
what was saved last; a setter of the sender's own stack changes the receiver there; after a setter of
the sender's own method its code cannot return, and neither can it to a context that the registers do
not mirror.  In any case the code saves the pointers, and a collection between its instructions moves
the objects. -/
theorem send_accessor_differs :
    (∃ m : Machine, m.Calling ∧ m.Differs .getter 1 m.regs.activeContext (·.stackValue 0)) ∧
    (∃ m : Machine, m.Calling ∧ m.Differs .setter 9 m.regs.activeContext (·.stackValue 0)) ∧
    (∃ m : Machine, m.Calling ∧ m.Differs .setter 3 m.regs.activeContext (·.stackValue 0)) ∧
    (∃ (m : Machine) (receiver : Value), receiver ≠ m.regs.activeContext ∧
      m.Differs .getter 0 receiver (·.stackValue 0)) ∧
    (∃ (m : Machine) (receiver : Value), m.Calling ∧ receiver ≠ m.regs.activeContext ∧
      m.Differs .getter 0 receiver fun m => m.heap.fetchField m.regs.activeContext Slot.ip) ∧
    ∃ (m : Machine) (receiver : Value), m.Calling ∧ receiver ≠ m.regs.activeContext ∧
      m.Compares .getter 0 receiver (.int 1) (.int 2) ∧
      after (sendAccessor .getter) m (·.heap.fetchField receiver 1) ≠
        after (do Machine.send id (.int 2) 0; let _ ← turn 0; let _ ← turn 0) m
          (·.heap.fetchField receiver 1) := by
  refine ⟨⟨sending .getter 1 (ref 4) [ref 5], calling_sending .., ?_, by decide +kernel⟩,
    ⟨sending .setter 9 (ref 4) [ref 5, .int 7], calling_sending .., ?_, by decide +kernel⟩,
    ⟨sending .setter 3 (ref 4) [ref 5, ref 0], calling_sending .., ?_, by decide +kernel⟩,
    ⟨sending .getter 0 (ref 0) [ref 4], ref 4, by decide, ?_, by decide +kernel⟩,
    ⟨sending .getter 0 (ref 4) [ref 4], ref 4, calling_sending .., by decide, ?_,
      by decide +kernel⟩,
    ⟨sending .getter 0 (ref 4) [ref 4], ref 4, calling_sending .., by decide, ?_,
      by decide +kernel⟩⟩
  all_goals
    constructor
    case field => exact ⟨_, rfl, by decide⟩
    case accessor => exact ⟨ref 1, ⟨rfl, _, _, rfl, rfl⟩, ⟨_, ⟨_, rfl, rfl⟩, rfl, rfl, rfl⟩⟩
    case written =>
      refine ⟨ref 2, _, ⟨rfl, _, _, rfl, rfl⟩,
        ⟨⟨_, rfl, rfl⟩, rfl, rfl, le_rfl, _, _, rfl, rfl, ?_⟩, _, _, rfl⟩
      repeat' first | exact ⟨_, rfl, trivial⟩ | refine ⟨_, rfl, ?_⟩

/-- A setter of an object that has no part in the send. -/
theorem send_accessor_sending : ∃ m₁ m₂, sendAccessor .setter (sending .setter 0 (ref 4)
      [ref 1, .int 7]) = .ok () m₁ ∧
    sendWritten .setter 0 (sending .setter 0 (ref 4) [ref 1, .int 7]) = .ok () m₂ ∧
    m₁.regs = m₂.regs ∧ withoutPointers m₁.heap (ref 5) ⟨.ephemeral, 0, 0, 1⟩ =
      withoutPointers m₂.heap (ref 5) ⟨.ephemeral, 0, 0, 1⟩ := by
  have hcompares : (sending .setter 0 (ref 4) [ref 1, .int 7]).Compares .setter 0 (ref 1)
      (.int 1) (.int 2) := by
    constructor
    case field => exact ⟨_, rfl, by decide⟩
    case accessor => exact ⟨ref 1, ⟨rfl, _, _, rfl, rfl⟩, ⟨_, ⟨_, rfl, rfl⟩, rfl, rfl, rfl⟩⟩
    case written =>
      exact ⟨ref 2, _, ⟨rfl, _, _, rfl, rfl⟩, ⟨⟨_, rfl, rfl⟩, rfl, rfl, le_rfl, _, _, rfl, rfl,
        ⟨_, rfl, _, rfl, _, rfl, trivial⟩⟩, _, _, rfl⟩
  have hfree : ¬(sending .setter 0 (ref 4) [ref 1, .int 7]).Interferes (ref 1) 0 .setter := by
    rintro (⟨h, -⟩ | ⟨h, -⟩ | ⟨h, -⟩) <;> exact absurd h (by decide)
  obtain ⟨h₁, c₁, h₂, c₂, hrun₁, hrun₂, hsame, -⟩ :=
    send_accessor (calling_sending ..) hcompares hfree
  exact ⟨_, _, hrun₁, hrun₂, rfl, (hsame ⟨.ephemeral, 0, 0, 1⟩ (by simp [Heap.view]; decide)).2⟩

end Machine

end MessageMachine
