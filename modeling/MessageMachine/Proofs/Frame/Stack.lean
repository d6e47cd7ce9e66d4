import MessageMachine.Proofs.Frame.Contained

/-!
# Actions on the operand stack

Pushing, popping, saving the pointers and loading a context, each with what it does to the machine:
it stays contained, and no temporary changes except by `storeTemporary`.
-/

namespace MessageMachine

namespace Machine

variable {m m' m'' : Machine} {k : Landmarks} {h h' : Heap} {r r' : Registers} {strict : Bool}
  {g : Regime}

/-! ## Pushing and popping -/

theorem push_run (v : Value) (m : Machine) : push v m =
    if m.regs.stackLimit ≤ m.regs.sp + 1 then .error (.stackOverflow m.regs.ip) m
    else (storeField m.regs.activeContext (m.regs.sp + 1) v >>= fun _ =>
      modifyRegs ({ · with sp := m.regs.sp + 1 })) m := by
  have heq : push v m = (if m.regs.stackLimit ≤ m.regs.sp + 1 then throw (.stackOverflow m.regs.ip)
      else storeField m.regs.activeContext (m.regs.sp + 1) v >>= fun _ =>
        modifyRegs ({ · with sp := m.regs.sp + 1 }) : MachineM Unit) m := rfl
  rw [heq]
  split <;> rfl

/-- What has been pushed is on the top of the stack. -/
theorem fetchField_of_push {v : Value} (hpush : push v m = .ok () m') :
    m'.heap.fetchField m'.regs.activeContext m'.regs.sp = .ok v := by
  rw [push_run] at hpush
  split at hpush
  · cases hpush
  · obtain ⟨_, m₁, hstore, hrest⟩ := bind_eq_ok.mp hpush
    obtain ⟨h, hstored, rfl⟩ := onHeap_eq_ok.mp hstore
    cases hrest
    exact Heap.fetchField_storeField hstored

theorem popN_run (n : Nat) (m : Machine) : popN n m =
    if m.regs.sp + 1 < m.regs.stackBase + n then .error (.stackUnderflow m.regs.ip) m
    else .ok () { m with regs := { m.regs with sp := m.regs.sp - n } } := by
  have heq : popN n m = (if m.regs.sp + 1 < m.regs.stackBase + n then
      throw (.stackUnderflow m.regs.ip)
      else modifyRegs fun regs => { regs with sp := regs.sp - n } : MachineM Unit) m := rfl
  rw [heq]
  split <;> rfl

theorem stackValue_eq_ok {depth : Nat} {v : Value} (hv : m.stackValue depth = .ok v) :
    m.regs.stackBase + depth ≤ m.regs.sp ∧
      m.heap.fetchField m.regs.activeContext (m.regs.sp - depth) = .ok v := by
  unfold stackValue at hv
  split at hv
  · cases hv
  · next hdepth => exact ⟨Nat.le_of_not_lt hdepth, liftFault_eq_ok.mp hv⟩

theorem stackValue_zero (m : Machine) : m.stackValue 0 =
    if m.regs.sp < m.regs.stackBase then .error (.stackUnderflow m.regs.ip)
    else liftM (m.heap.fetchField m.regs.activeContext m.regs.sp) := by
  unfold stackValue
  rw [Nat.add_zero, Nat.sub_zero]
  by_cases hlow : m.regs.sp < m.regs.stackBase
  · rw [if_pos hlow, if_pos hlow]
    rfl
  · rw [if_neg hlow, if_neg hlow]

theorem pop_run_ok {v : Value} (hv : m.stackValue 0 = .ok v) :
    pop m = .ok v { m with regs := { m.regs with sp := m.regs.sp - 1 } } :=
  bind_eq_of_ok (read_eq_ok.mpr ⟨hv, rfl⟩)

theorem pop_run_error {fault : Fault} (hv : m.stackValue 0 = .error fault) :
    pop m = .error fault m := by
  have hread : read (·.stackValue 0) m = .error fault m := by
    unfold read
    dsimp only
    rw [hv]
  exact bind_eq_of_error hread

/-! ## Stores -/

/-- The store disturbs no context but the active one, except to leave the home context or to change a
temporary. -/
def Discreet (strict : Bool) (m : Machine) (v : Value) (i : Nat) (new : Value) : Prop :=
  v = m.regs.activeContext ∨ v = m.regs.homeContext ∧ (i = Slot.ip ∧ new = m.known .nil ∨
    strict = false ∧ Slot.contextTail ≤ i ∧ i < Slot.contextTail + m.regs.tempCount)

theorem dormant_of_stored {v new : Value} {i : Nat} (hstored : Heap.Stored m.heap v i new h)
    (hv : IsContext m.known m.heap v → Discreet strict m v i new) :
    Dormant strict m (m.withHeap h) := by
  intro c j x hc hne hx
  by_cases hplace : c = v ∧ j = i
  · obtain ⟨rfl, rfl⟩ := hplace
    obtain ⟨hhome, hor⟩ := (hv hc).resolve_left hne
    refine .inr ⟨hhome, hor.imp_left fun ⟨hi, hnew⟩ => ⟨hi, ?_⟩⟩
    exact hnew ▸ hstored.self
  · exact .inl ((hstored.other c j x (not_and_or.mp hplace)).mpr hx)

/-- A store that is harmless if it succeeds. -/
theorem yields_storeField (hm : Contained g m) {v new : Value} {i : Nat}
    (hv : ∀ old, m.heap.fetchField v i = .ok old → IsContext m.known m.heap v →
      Discreet strict m v i new)
    (hh : ∀ h, Heap.Stored m.heap v i new h → Harmless g strict m.known m.heap v (· = i) h) :
    Yields (Stays g strict) (storeField v i new)
      (fun _ m' => ∃ h, Heap.Stored m.heap v i new h ∧ m' = m.withHeap h) m := by
  have houtcome := ensures_storeField hm.framed.settled v i new m rfl
  unfold Yields
  cases hrun : storeField v i new m with
  | ok u m' =>
      rw [hrun] at houtcome
      obtain ⟨h, hstored, rfl⟩ := houtcome
      have hharmless := hh h hstored
      obtain ⟨old, hold⟩ := hstored.before
      exact ⟨hm.withHeap (hm.framed.altered hstored.altered hharmless)
        (hharmless.kept hstored.altered) (dormant_of_stored hstored (hv old hold)), h, hstored, rfl⟩
  | error fault m' =>
      rw [hrun] at houtcome
      obtain rfl : m = m' := houtcome
      exact .refl hm

/-- A store into a context, other than of the stack pointer. -/
theorem yields_storeContext (hm : Contained g m) {c new : Value} {i : Nat}
    (hc : Suits g m.known m.heap .context c) (hdiscreet : Discreet strict m c i new)
    (hi : ∀ x, m.heap.fetchField c i = .ok x → i = Slot.ip ∨
      i = Slot.caller ∧ Suits g m.known m.heap .context new ∨
      Slot.contextTail ≤ i ∧ (g.rigid → strict = true → ¬Temporary m.known m.heap c i)) :
    Yields (Stays g strict) (storeField c i new)
      (fun _ m' => ∃ h, Heap.Stored m.heap c i new h ∧ m' = m.withHeap h) m := by
  refine yields_storeField hm (fun _ _ _ => hdiscreet) fun h hstored => ?_
  obtain ⟨old, hold⟩ := hstored.before
  have hi := hi old hold
  refine hm.framed.harmless_context (hm.framed.plays_of_fetchField hc hold) ?_ ?_ ?_ ?_
  · rintro j rfl
    rcases hi with hi | hi | hi
    · exact .inl hi
    · exact .inr (.inl hi.1)
    · exact .inr (.inr (.inr hi.1))
  · rintro rfl new' hfetch
    cases hstored.self.symm.trans hfetch
    rcases hi with hi | hi | hi
    · cases hi
    · exact hi.2
    · exact absurd hi.1 (by decide)
  · rintro rfl
    rcases hi with hi | hi | hi
    · cases hi
    · cases hi.1
    · exact absurd hi.1 (by decide)
  · rintro hrigid hstrict j rfl htemporary
    rcases hi with rfl | ⟨rfl, -⟩ | hi
    · exact absurd htemporary.2.1 (by decide)
    · exact absurd htemporary.2.1 (by decide)
    · exact hi.2 hrigid hstrict htemporary

/-- A store of the stack pointer. -/
theorem yields_storePointer (hm : Contained g m) {c pointer : Value}
    (hc : Live g m.known m.heap c) (hactive : c = m.regs.activeContext)
    (hpointer : StackPointer g m.known m.heap c pointer) :
    Yields (Stays g strict) (storeField c Slot.sp pointer)
      (fun _ m' => ∃ h, Heap.Stored m.heap c Slot.sp pointer h ∧ m' = m.withHeap h) m := by
  refine yields_storeField hm (fun _ _ _ => .inl hactive) fun h hstored =>
    hm.framed.harmless_context hc ?_ ?_ ?_ ?_
  · exact fun j hj => .inr (.inr (.inl hj))
  · intro hslot
    cases hslot
  · exact fun _ => ⟨pointer, hstored.self, hpointer⟩
  · rintro - - j rfl htemporary
    exact absurd htemporary.2.1 (by decide)

/-! ## Saving and loading -/

theorem yields_flush (hm : Contained g m) : Yields (Stays g strict) flush (fun _ _ => True) m := by
  refine yields_get_bind (yields_landmark_bind ?_)
  split
  · exact Yields.pure (.refl hm) trivial
  · next hactive =>
    have hl := hm.frame.resolve_left fun hnone => hactive hnone.1
    have hlive : Live g m.known m.heap m.regs.activeContext := ⟨hl.context, hl.live⟩
    refine (yields_storeContext hm (.inr hlive) (.inl rfl) fun _ _ => .inl rfl).bind
      fun _ m₁ hs _ => ?_
    have hl₁ := hl.kept hs.kept
    rw [← hs.known] at hl₁
    exact (yields_storePointer hs.contained ⟨hl₁.context, hl.live⟩ hs.same.context.symm
      hl₁.stackPointer).weaken (fun _ => id) fun _ _ _ _ => trivial

/-- The pointers have been saved, if a context is active. -/
theorem flush_eq_ok (hsettled : m.heap.Settled) (hrun : flush m = .ok () m') :
    ∃ h, m' = m.withHeap h ∧
      Heap.Altered m.heap m.regs.activeContext (fun i => i = Slot.ip ∨ i = Slot.sp) h ∧
      (m.regs.activeContext ≠ m.known .nil →
        h.fetchField m.regs.activeContext Slot.ip = .ok (.ofNat m.regs.ip) ∧
          h.fetchField m.regs.activeContext Slot.sp = .ok (.ofNat m.regs.sp)) := by
  have heq : flush m = (if m.regs.activeContext = m.known .nil then pure () else do
      storeField m.regs.activeContext Slot.ip (.ofNat m.regs.ip)
      storeField m.regs.activeContext Slot.sp (.ofNat m.regs.sp) : MachineM Unit) m := rfl
  rw [heq] at hrun
  by_cases hnil : m.regs.activeContext = m.known .nil
  · rw [if_pos hnil] at hrun
    cases hrun
    exact ⟨m.heap, rfl, ⟨hsettled, fun _ => rfl, fun _ => rfl, fun _ _ _ _ => Iff.rfl⟩,
      fun hne => absurd hnil hne⟩
  · rw [if_neg hnil] at hrun
    obtain ⟨_, m₁, hfirst, hsecond⟩ := bind_eq_ok.mp hrun
    obtain ⟨h₁, hstore₁, rfl⟩ := onHeap_eq_ok.mp hfirst
    obtain ⟨h₂, hstore₂, rfl⟩ := onHeap_eq_ok.mp hsecond
    have hs₁ := Heap.stored_of_eq_ok hsettled hstore₁
    have hs₂ := Heap.stored_of_eq_ok hs₁.settled hstore₂
    refine ⟨h₂, rfl, ⟨hs₂.settled, fun v => (hs₂.types v).trans (hs₁.types v),
      fun v => (hs₂.counts v).trans (hs₁.counts v), fun v i x hout => ?_⟩, fun _ => ⟨?_, hs₂.self⟩⟩
    · have hother := hout.imp_right not_or.mp
      exact (hs₂.other v i x (hother.imp_right And.right)).trans
        (hs₁.other v i x (hother.imp_right And.left))
    · exact (hs₂.other _ _ _ (.inr (by decide))).mpr hs₁.self

/-- What can be loaded as a context has a method. -/
theorem filled_of_loadContext (hf : Framed g k h) {context : Value}
    (hload : loadContext h r context = .ok r') : Filled k h context := by
  simp only [loadContext, reading_bind_eq_ok] at hload
  obtain ⟨method, hmethod, _, _, _, _, _, _, _, _, _, _, _, _, hrest⟩ := hload
  have hheader : ∃ header, h.fetchField method Slot.methodHeader = .ok header := by
    split at hrest
    all_goals
      simp only [reading_bind_eq_ok] at hrest
      obtain ⟨_, _, header, hheader, _⟩ := hrest
      exact ⟨header, hheader⟩
  obtain ⟨header, hheader⟩ := hheader
  refine ⟨method, hmethod, ?_⟩
  rintro rfl
  exact hf.nil_fetchField _ _ hheader

/-- The registers after a context has been loaded. -/
structure LoadedFrom (h : Heap) (r : Registers) (c : Value) (r' : Registers) : Prop where
  context : r'.activeContext = c
  method : h.fetchField c Slot.contextMethod = .ok r'.method
  sp : h.fetchField c Slot.sp = .ok (.ofNat r'.sp)
  limit : h.fieldCount c = .ok r'.stackLimit
  header : ∃ header, HeaderOf h r'.method header ∧ r'.tempCount = header.temporaries.toNat
  block : ∃ x, h.fetchField c Slot.blockArguments = .ok x ∧
    (x.isInt = true → h.fetchField c Slot.home = .ok r'.homeContext ∧
      r'.stackBase = Slot.contextTail) ∧
    (x.isInt = false → r'.homeContext = c ∧
      r'.stackBase = Slot.contextTail + r'.tempCount)
  code : ∃ code, h.fetchField r'.method Slot.methodCode = .ok code
  entry : r'.entryProcess = r.entryProcess
  wait : r'.entryWait = r.entryWait

theorem loadedFrom_of_eq_ok {context : Value} (hload : loadContext h r context = .ok r') :
    LoadedFrom h r context r' := by
  simp only [loadContext, reading_bind_eq_ok] at hload
  obtain ⟨method, hmethod, _, _, _, _, spValue, hspValue, sp, hsp, receiver, _, x, hx, hrest⟩ := hload
  have hspValue : h.fetchField context Slot.sp = .ok (.ofNat sp) := by
    rw [hspValue, Value.index_eq_ok.mp (lift_eq_ok.mp hsp)]
  split at hrest
  · next hint =>
    simp only [reading_bind_eq_ok, reading_pure_eq_ok] at hrest
    obtain ⟨home, hhome, headerValue, hheaderValue, header, hheader, code, hcode, limit, hlimit, rfl⟩ :=
      hrest
    exact ⟨rfl, hmethod, hspValue, hlimit,
      ⟨header, ⟨headerValue, hheaderValue, lift_eq_ok.mp hheader⟩, rfl⟩,
      ⟨x, hx, fun _ => ⟨hhome, rfl⟩, fun hnot => by rw [hint] at hnot; cases hnot⟩,
      ⟨code, hcode⟩, rfl, rfl⟩
  · next hnot =>
    simp only [reading_bind_eq_ok, reading_pure_eq_ok] at hrest
    obtain ⟨home, rfl, headerValue, hheaderValue, header, hheader, code, hcode, limit, hlimit, rfl⟩ :=
      hrest
    exact ⟨rfl, hmethod, hspValue, hlimit,
      ⟨header, ⟨headerValue, hheaderValue, lift_eq_ok.mp hheader⟩, rfl⟩,
      ⟨x, hx, fun hint => absurd hint hnot, fun _ => ⟨rfl, rfl⟩⟩, ⟨code, hcode⟩, rfl, rfl⟩

/-- Loading a context that has a method loads the registers with a context in shape. -/
theorem loaded_of_loadContext (hf : Framed g k h) {context : Value} (hc : Live g k h context)
    (hload : loadContext h r context = .ok r') : Loaded g k h r' := by
  obtain ⟨hc, hlive⟩ := hc
  have hfitting := hf.fitting context hc (filled_of_loadContext hf hload)
  obtain ⟨rfl, hmethod, hsp, hlimit, ⟨header, hheader, htemps⟩, ⟨x, hx, hblock, hplain⟩,
    ⟨code, hcode⟩, -, -⟩ := loadedFrom_of_eq_ok hload
  obtain ⟨method, t, hmethod', hmethodType⟩ := hfitting.method
  cases hmethod.symm.trans hmethod'
  obtain ⟨pointer, hpointer, n, sp, rfl, hn, hlow, hhigh, habove⟩ := hfitting.stack
  cases hlimit.symm.trans hn
  have hspEq : sp = r'.sp := by
    have heq := Except.ok.inj (hpointer.symm.trans hsp)
    exact Int.ofNat.inj (Value.int.inj heq)
  subst hspEq
  have hne : r'.method ≠ k .nil := by
    intro heq
    obtain ⟨v, hv, -⟩ := hheader
    rw [heq] at hv
    exact hf.nil_fetchField _ _ hv
  have hbase : h.typeOf r'.activeContext = .ok (k .methodContext) →
      r'.homeContext = r'.activeContext ∧ r'.stackBase = Slot.contextTail + r'.tempCount :=
    fun htype => hplain (hf.plain _ x htype hx)
  have hbaseBlock : h.typeOf r'.activeContext = .ok (k .blockContext) →
      h.fetchField r'.activeContext Slot.home = .ok r'.homeContext ∧
        r'.stackBase = Slot.contextTail := by
    intro htype
    obtain ⟨⟨n, hn⟩, -⟩ := hfitting.home htype
    cases hx.symm.trans hn
    exact hblock rfl
  have hhome : h.typeOf r'.homeContext = .ok (k .methodContext) ∧
      h.fetchField r'.homeContext Slot.contextMethod = .ok r'.method := by
    rcases hc with htype | htype
    · rw [(hbase htype).1]
      exact ⟨htype, hmethod⟩
    · obtain ⟨-, home, method, hhome, hhomeType, hmethod', hhomeMethod⟩ := hfitting.home htype
      cases (hbaseBlock htype).1.symm.trans hhome
      cases hmethod.symm.trans hmethod'
      exact ⟨hhomeType, hhomeMethod⟩
  obtain ⟨size, hsize⟩ := Heap.exists_count_of_fetchField hcode
  refine ⟨hc, hlive, hmethod, hne, ⟨t, hmethodType⟩,
    ⟨size, hsize, Heap.lt_of_fetchField hsize hcode⟩, hhome.1, hhome.2, fun htype => (hbase htype).1,
    hlimit, fun htype => (hbase htype).2, fun htype => (hbaseBlock htype).2, hlow, hhigh,
    fun _ _ => ⟨header, hheader, htemps⟩, fun hrigid hcompiled => ?_⟩
  rcases hc with htype | htype
  · rw [(hbase htype).2, htemps]
    exact habove hrigid htype r'.method header hmethod hcompiled hheader
  · rw [(hbaseBlock htype).2]
    exact hlow

/-- A context is loaded. -/
theorem Contained.loading (hm : Contained g m) {context : Value}
    (hc : Live g m.known m.heap context)
    (hload : loadContext m.heap m.regs context = .ok r') : Contained g { m with regs := r' } := by
  obtain ⟨-, -, -, -, -, -, -, hentry, hwait⟩ := loadedFrom_of_eq_ok hload
  exact ⟨hm.framed, .inr (loaded_of_loadContext hm.framed hc hload), hentry ▸ hm.entry,
    hwait ▸ hm.wait⟩

/-- A change of registers alone leaves what is not active as it is. -/
theorem frozen_of_heap (hheap : m'.heap = m.heap) : Frozen strict m m' := by
  intro c i x _ _ _ hx
  rw [hheap]
  exact .inl hx

/-- What does not concern the heap may come at the end of a chain. -/
theorem Moves.trans_stays (hs : Moves g strict m m') (hlater : Stays g strict m' m'')
    (hheap : m''.heap = m'.heap) : Moves g strict m m'' := by
  refine ⟨hlater.contained, hlater.known.trans hs.known, ?_, ?_⟩
  · rw [hheap]
    exact hs.kept
  · intro c i x hc hne hlow hx
    rw [hheap]
    exact hs.others c i x hc hne hlow hx

/-- A context becomes active. -/
theorem yields_reload (hm : Contained g m) {context : Value}
    (hc : Live g m.known m.heap context) :
    Yields (Moves g strict) (reload context)
      (fun _ m' => m'.heap = m.heap ∧ LoadedFrom m.heap m.regs context m'.regs) m := by
  refine yields_read_bind (Stays.refl hm).moves fun regs hload => ?_
  have hload := liftFault_eq_ok.mp hload
  exact ⟨⟨hm.loading hc hload, rfl, .refl .., frozen_of_heap rfl⟩, rfl, loadedFrom_of_eq_ok hload⟩

theorem yields_clearRegisters (hm : Contained g m) :
    Yields (Rests g strict) clearRegisters (fun _ m' => m'.regs.entryProcess = m.regs.entryProcess) m :=
  ⟨⟨⟨hm.framed, .inl ⟨rfl, rfl⟩, hm.entry, hm.wait⟩, rfl, .refl .., .inr ⟨rfl, rfl⟩,
    .of_contexts fun _ _ _ _ => id⟩, rfl⟩

/-! ## Pushing and popping -/

theorem yields_push (hm : Contained g m) (v : Value) :
    Yields (Stays g strict) (push v) (fun _ m' => m'.regs.sp = m.regs.sp + 1) m := by
  refine yields_get_bind ?_
  dsimp only
  refine Yields.ite (fun _ => Yields.throw (.refl hm)) fun hroom => ?_
  have hstore : Yields (Stays g strict) (storeField m.regs.activeContext (m.regs.sp + 1) v) _ m :=
    yields_storeContext hm hm.fills_active (.inl rfl) fun x hx =>
      have hl := hm.loaded hx
      .inr (.inr ⟨hl.low, fun hrigid _ => hl.not_temporary hrigid (hl.above hrigid)⟩)
  refine hstore.bind fun _ m₁ hs ⟨h₁, hstored, hm₁⟩ => ?_
  subst hm₁
  refine ⟨hs.contained.withRegs ⟨rfl, rfl, rfl, rfl, rfl, rfl⟩ rfl hs.contained.wait fun hl₁ => ?_,
    rfl⟩
  exact ⟨Nat.le_succ_of_le hl₁.low, Nat.lt_of_not_le hroom,
    fun hrigid htype => Nat.le_succ_of_le (hl₁.above hrigid htype)⟩

/-- A push changes the field above the top. -/
theorem fetchField_push {v c x : Value} {i : Nat}
    (hne : ¬(c = m.regs.activeContext ∧ i = m.regs.sp + 1)) (hsettled : m.heap.Settled)
    (hx : m.heap.fetchField c i = .ok x) :
    (stateAfter (push v m)).heap.fetchField c i = .ok x := by
  have houtcome :=
    ensures_storeField hsettled m.regs.activeContext (m.regs.sp + 1) v m rfl
  rw [push_run]
  split
  · exact hx
  · rw [bind_run]
    cases hrun : storeField m.regs.activeContext (m.regs.sp + 1) v m with
    | ok u m₁ =>
        rw [hrun] at houtcome
        obtain ⟨h, hstored, rfl⟩ := houtcome
        exact (hstored.other c i x (not_and_or.mp hne)).mpr hx
    | error fault m₁ =>
        rw [hrun] at houtcome
        obtain rfl : m = m₁ := houtcome
        exact hx

/-- A context is woken and given a value, which goes above the top of its stack. -/
theorem yields_wake (hm : Contained g m) {context : Value} (hc : Live g m.known m.heap context)
    (v : Value) : Yields (Moves g strict) (do reload context; push v) (fun _ _ => True) m := by
  refine (yields_reload hm hc).bind_from fun _ m₁ hs₁ ⟨hheap, hloaded⟩ => .of_after ?_
  have hs₂ : Stays g strict m₁ (stateAfter (push v m₁)) := (yields_push hs₁.contained v).after
  refine ⟨hs₂.contained, hs₂.known.trans hs₁.known, hs₁.kept.trans ?_, ?_⟩
  · rw [← hs₁.known]
    exact hs₂.kept
  · intro c i x _ _ hlow hx
    have hx₁ : m₁.heap.fetchField c i = .ok x := hheap ▸ hx
    refine .inl (fetchField_push ?_ hs₁.contained.framed.settled hx₁)
    rintro ⟨rfl, rfl⟩
    have hl := hs₁.contained.loaded hx₁
    rw [hloaded.context] at hlow
    exact absurd (hlow hl.low _ hloaded.sp) (Nat.not_succ_le_self _)

/-- Dropping values that are there. -/
theorem Contained.dropped (hm : Contained g m) {n : Nat}
    (hn : m.regs.stackBase + n ≤ m.regs.sp + 1) :
    Stays g strict m { m with regs := { m.regs with sp := m.regs.sp - n } } := by
  refine hm.withRegs ⟨rfl, rfl, rfl, rfl, rfl, rfl⟩ rfl hm.wait fun hl => ?_
  have htail : 0 < m.regs.stackBase := Nat.lt_of_lt_of_le (by decide) hl.tail
  have hbase : m.regs.stackBase ≤ m.regs.sp - n + 1 := by omega
  exact ⟨Nat.le_trans hl.tail hbase, Nat.lt_of_le_of_lt (Nat.sub_le ..) hl.high, fun _ _ => hbase⟩

theorem yields_pop (hm : Contained g m) :
    Yields (Stays g strict) pop (fun v m' => m.stackValue 0 = .ok v ∧ m'.heap = m.heap) m := by
  refine yields_read_bind (.refl hm) fun v hv => ?_
  have hbound := (stackValue_eq_ok hv).1
  have hs : Stays g strict m { m with regs := { m.regs with sp := m.regs.sp - 1 } } :=
    hm.dropped (by omega)
  exact ⟨hs, hv, rfl⟩

theorem yields_popN (hm : Contained g m) (n : Nat) :
    Yields (Stays g strict) (popN n) (fun _ _ => True) m := by
  refine yields_get_bind ?_
  dsimp only
  refine Yields.ite (fun _ => Yields.throw (.refl hm)) fun hn => ?_
  exact ⟨hm.dropped (Nat.le_of_not_lt hn), trivial⟩

/-- A temporary of the home context is changed. -/
theorem yields_storeTemporary (hm : Contained g m) (i : Nat) (v : Value) :
    Yields (Stays g false) (storeTemporary i v) (fun _ _ => True) m := by
  refine yields_get_bind ?_
  dsimp only
  refine Yields.ite (fun _ => Yields.throw (.refl hm)) fun hi => ?_
  have hstore : Yields (Stays g false) (storeField m.regs.homeContext (Slot.contextTail + i) v) _ m :=
    yields_storeContext hm hm.fills_home
      (.inr ⟨rfl, .inr ⟨rfl, Nat.le_add_right .., Nat.add_lt_add_left (Nat.lt_of_not_le hi) _⟩⟩)
      fun _ _ => .inr (.inr ⟨Nat.le_add_right .., fun _ => nofun⟩)
  exact hstore.weaken (fun _ => id) fun _ _ _ _ => trivial

end Machine

end MessageMachine
