import MessageMachine.Proofs.Creation
import MessageMachine.Proofs.Frame.Returns
import MessageMachine.Proofs.Frame.Senders
import MessageMachine.Proofs.Frame.Suspension
import MessageMachine.Proofs.Machine.Storing
import MessageMachine.Proofs.Send.Accessor

/-!
# Replies

A message that activates a method or a block suspends the context that sends it (`Waits`), for any time
and whatever is done in between.  A return to that context finds it at rest, and so it goes on behind the
message, with the answer in the place of the receiver and the arguments (`Replied`).

* `Sends m argc next`: the next instruction of `m` sends a message with `argc` arguments, and the
  instruction behind it is at `next`.
* `Returns m kind c v`: the next instruction of `m` returns `v` to the context `c`.

`Executed.staysFrozen` puts this together with what is true of suspended contexts in general.
-/

namespace MessageMachine

namespace Machine

variable {m m' m₀ m₁ m₂ m₃ : Machine} {argc next n : Nat} {kind : ReturnKind} {c v : Value} {q : Pause}
  {strict : Bool}

/-! ## Sending -/

/-- A compiled method sends a message with `argc` arguments, and goes on at `next`. -/
structure Sends (m : Machine) (argc next : Nat) : Prop where
  active : m.regs.activeContext ≠ m.known .nil
  method : m.heap.typeOf m.regs.method = .ok (m.known .compiledMethod)
  instruction : ∃ count : UInt8, count.toNat = argc ∧
    ((∃ literal, m.fetch = .ok (.send literal count, next)) ∨
      ∃ index, m.fetch = .ok (.specialSend index count, next))

/-- An instruction that sends stores no temporary. -/
theorem Sends.not_popStoreTemporary (hs : Sends m argc next) (index : UInt8) (k : Nat) :
    m.fetch ≠ .ok (.popStoreTemporary index, k) := by
  intro hfetch
  obtain ⟨count, -, ⟨literal, hsend⟩ | ⟨special, hsend⟩⟩ := hs.instruction
  · cases hsend.symm.trans hfetch
  · cases hsend.symm.trans hfetch

/-- In `m'` another context is active than in `m`, which has been left to go on at `next`, with its stack
cut off below the field `n`. -/
structure Waits (m : Machine) (n next : Nat) (m' : Machine) : Prop where
  other : m'.regs.activeContext ≠ m.regs.activeContext
  depth : m.regs.stackBase ≤ n
  ip : m'.heap.fetchField m.regs.activeContext Slot.ip = .ok (.ofNat next)
  sp : m'.heap.fetchField m.regs.activeContext Slot.sp = .ok (.ofNat (n - 1))
  rest : ∀ i x, i < n → i ≠ Slot.ip → i ≠ Slot.sp → m.heap.fetchField m.regs.activeContext i = .ok x →
    m'.heap.fetchField m.regs.activeContext i = .ok x

/-- The machine with the instruction pointer at `next`. -/
def advance (m : Machine) (next : Nat) : Machine := { m with regs.ip := next }

/-- The instruction pointer is moved past the instruction first. -/
theorem stepWith_run {store : MachineM Unit → MachineM Unit} {i : Instruction}
    (hfetch : m.fetch = .ok (i, next)) : stepWith store m = execute store i (m.advance next) :=
  bind_eq_of_ok (read_eq_ok.mpr ⟨hfetch, rfl⟩)

theorem Contained.advanced (hm : Contained .plain m) (next : Nat) :
    Stays .plain strict m (m.advance next) :=
  hm.withRegs_of_sp ⟨rfl, rfl, rfl, rfl, rfl, rfl⟩ rfl rfl hm.wait

/-- Without a receiver below the arguments nothing is sent. -/
theorem send_of_shallow (hsp : m.regs.sp < argc) (selector : Value) :
    stateAfter (send confine selector argc m) = m := by
  have hread : ∃ fault, m.stackValue argc = .error fault := by
    unfold stackValue
    rw [if_pos (by omega)]
    exact ⟨_, rfl⟩
  obtain ⟨fault, hfault⟩ := hread
  have hdispatch : ∀ unknown send, stateAfter (dispatch confine unknown send argc selector m) = m := by
    intro unknown send
    have hrun : read (·.stackValue argc) m = .error fault m := by
      unfold read
      dsimp only
      rw [hfault]
    unfold dispatch
    rw [bind_eq_of_error hrun]
    rfl
  unfold send
  cases argc with
  | zero => exact absurd hsp (Nat.not_lt_zero _)
  | succ argc => exact hdispatch _ _

theorem special_arity : ∀ entry ∈ SpecialSelector.table, entry.arity < Slot.contextTail - 1 := by decide

theorem specialSend_of_shallow (hl : Loaded .plain m.known m.heap m.regs) (hsp : m.regs.sp < argc)
    (index : UInt8) : stateAfter (specialSend confine index argc m) = m := by
  unfold specialSend
  cases hentry : SpecialSelector.table[index.toNat]? with
  | none => rfl
  | some entry =>
      have harity := special_arity entry (Array.mem_of_getElem? hentry)
      have hlow := hl.low
      have hne : entry.arity ≠ argc := by omega
      dsimp only
      rw [if_neg hne]
      rfl

/-- An instruction that sends leaves the stack below the receiver as it is. -/
theorem sent_of_sends (hm : Contained .plain m) (hsends : Sends m argc next)
    (hconfined : step m = stepWith confine m)
    (hother : (stateAfter (step m)).regs.activeContext ≠ m.regs.activeContext) :
    argc ≤ m.regs.sp ∧
      Sent (m.regs.sp - argc) (m.advance next) (stateAfter (step m)) := by
  have hl := hm.frame.resolve_left fun hnone => hsends.active hnone.1
  have hadvanced : Stays .plain true m (m.advance next) := hm.advanced next
  have hm₁ : Contained .plain (m.advance next) := hadvanced.contained
  have hsp : argc ≤ m.regs.sp → (m.advance next).regs.sp = m.regs.sp - argc + argc :=
    fun hle => (Nat.sub_add_cancel hle).symm
  obtain ⟨count, rfl, ⟨literal, hfetch⟩ | ⟨index, hfetch⟩⟩ := hsends.instruction
  · have hrun : step m = (do send confine (← read (·.literal literal)) count.toNat : MachineM Unit)
        (m.advance next) := hconfined.trans (stepWith_run hfetch)
    rw [hrun] at hother ⊢
    cases hliteral : (m.advance next).literal literal with
    | error fault =>
        have hread : read (·.literal literal) (m.advance next) =
            .error fault (m.advance next) := by
          unfold read
          dsimp only
          rw [hliteral]
        rw [bind_eq_of_error hread] at hother
        exact absurd rfl hother
    | ok selector =>
        rw [bind_eq_of_ok (read_eq_ok.mpr ⟨hliteral, rfl⟩)] at hother ⊢
        by_cases hle : count.toNat ≤ m.regs.sp
        · exact ⟨hle, Conducts.departed_state (departed_send hm₁ (hsp hle) selector)⟩
        · have hsame := send_of_shallow (m := m.advance next) (Nat.lt_of_not_le hle) selector
          rw [hsame] at hother
          exact absurd rfl hother
  · have hrun : step m = specialSend confine index count.toNat (m.advance next) :=
      hconfined.trans (stepWith_run hfetch)
    rw [hrun] at hother ⊢
    by_cases hle : count.toNat ≤ m.regs.sp
    · exact ⟨hle, Conducts.departed_state (departed_specialSend hm₁ (hsp hle) index)⟩
    · have hsame := specialSend_of_shallow (hadvanced.loaded hl) (Nat.lt_of_not_le hle) index
      rw [hsame] at hother
      exact absurd rfl hother

/-- A message that activates something leaves its sender waiting. -/
theorem waits_of_sends (hm : Contained .plain m) (hsends : Sends m argc next)
    (hconfined : step m = stepWith confine m)
    (hother : (stateAfter (step m)).regs.activeContext ≠ m.regs.activeContext) :
    argc ≤ m.regs.sp ∧ Waits m (m.regs.sp - argc) next (stateAfter (step m)) := by
  obtain ⟨hle, hsent⟩ := sent_of_sends hm hsends hconfined hother
  refine ⟨hle, ?_⟩
  obtain ⟨mid, taken, hbelow, hsp, hcall⟩ := hsent.resolve_left hother
  have hcontext : mid.regs.activeContext = m.regs.activeContext := hbelow.context
  have hbase : mid.regs.stackBase = m.regs.stackBase := hbelow.stays.same.base
  have hactive : mid.regs.activeContext ≠ mid.known .nil := by
    rw [hcontext, hbelow.stays.known]
    exact hsends.active
  obtain ⟨-, hdepth, hip, hpointer, hrest⟩ := hcall.parked hbelow.contained hactive
  rw [hcontext] at hip hpointer hrest
  constructor
  case other => exact hother
  case depth => omega
  case ip =>
    have hnext : mid.regs.ip = next := hbelow.ip
    rwa [hnext] at hip
  case sp =>
    have heq : mid.regs.sp - taken = m.regs.sp - argc - 1 := by omega
    rwa [heq] at hpointer
  case rest =>
    exact fun i x hi hip hsp hx => hrest i x hip hsp (hbelow.fields i x hi hip hsp hx)

/-! ## Waiting -/

/-- The context that is active in `m` is held in `m'`, ready to go on at `next` with its stack cut off
below the field `n`, if it has not been left. -/
structure Held (m : Machine) (n next : Nat) (q : Pause) (m' : Machine) : Prop where
  size : m'.heap.fieldCount (m.regs.activeContext.map q.moved) = .ok m.regs.stackLimit
  method : m'.heap.fetchField (m.regs.activeContext.map q.moved) Slot.contextMethod =
    .ok (m.regs.method.map q.moved)
  header : ∃ header, HeaderOf m'.heap (m.regs.method.map q.moved) header
  code : ∃ code, m'.heap.fetchField (m.regs.method.map q.moved) Slot.methodCode = .ok code
  ip : m'.heap.fetchField (m.regs.activeContext.map q.moved) Slot.ip = .ok (.ofNat next) ∨
    m'.heap.fetchField (m.regs.activeContext.map q.moved) Slot.ip = .ok (m'.known .nil)
  sp : m'.heap.fetchField (m.regs.activeContext.map q.moved) Slot.sp = .ok (.ofNat (n - 1))
  stack : ∀ i x, m.regs.stackBase ≤ i → i < n → m.heap.fetchField m.regs.activeContext i = .ok x →
    m'.heap.fetchField (m.regs.activeContext.map q.moved) i = .ok (x.map q.moved)
  below : ∀ i x, i < m.regs.stackBase → i ≠ Slot.ip → i ≠ Slot.sp →
    m.heap.fetchField m.regs.activeContext i = .ok x →
      m'.heap.fetchField (m.regs.activeContext.map q.moved) i = .ok (x.map q.moved) ∨
        q.written = true ∧ AmongTemporaries m'.known m'.heap (m.regs.activeContext.map q.moved) i

section

variable (hm : Contained .plain m) (hsends : Sends m argc next) (hwaits : Waits m n next m₁)
  (hmoves : Moves .plain true m m₁) (hat : AtRest m₁ m.regs.activeContext q m')

include hm hsends hmoves in
/-- The method of the sender, when that waits. -/
theorem exists_compiled : ∃ header size, Compiled m₁.known m₁.heap m.regs.method header size ∧
    m.regs.tempCount = header.temporaries.toNat ∧ Slot.methodCode < size := by
  have hl := hm.frame.resolve_left fun hnone => hsends.active hnone.1
  obtain ⟨header, hheader, htemps⟩ := hl.header trivial hsends.method
  obtain ⟨size, hsize, hlt⟩ := hl.method_size
  have hcompiled : Compiled m.known m.heap m.regs.method header size := ⟨hsends.method, hheader, hsize⟩
  refine ⟨header, size, ?_, htemps, hlt⟩
  rw [hmoves.known]
  exact hcompiled.kept hmoves.kept trivial

include hm hsends hmoves hat in
/-- Fields that are not below the operand stack are no temporaries. -/
theorem not_amongTemporaries (hm' : Contained .plain m') {i : Nat} (hi : m.regs.stackBase ≤ i) :
    ¬AmongTemporaries m'.known m'.heap (m.regs.activeContext.map q.moved) i := by
  rintro ⟨htype, -, hlt⟩
  have hl := hm.frame.resolve_left fun hnone => hsends.active hnone.1
  obtain ⟨header, size, hcompiled, htemps, -⟩ := exists_compiled hm hsends hmoves
  have hmethod := (hmoves.kept.method_iff hl.context).mpr hl.method
  have hcompiled' := hat.method _ header size hmethod hcompiled
  have hmethod' := hat.fetchField_low (by decide) (by decide) hmethod
  have hhigh := hlt _ header hmethod' hcompiled'.type hcompiled'.header
  rcases hl.context with hcontext | hblock
  · rw [hl.base_method hcontext, htemps] at hi
    exact absurd hhigh (Nat.not_lt.mpr hi)
  · have hblock₁ : m₁.heap.typeOf m.regs.activeContext = .ok (m₁.known .blockContext) := by
      rw [hmoves.known]
      exact hmoves.kept.types _ _ hblock
    have heq := Except.ok.inj (htype.symm.trans (hat.type _ hblock₁))
    cases hm'.framed.distinct _ (by decide) _ (by decide) heq

include hm hsends hwaits hmoves hat in
/-- A sender at rest is held. -/
theorem held_of_atRest (hm' : Contained .plain m') : Held m n next q m' := by
  have hl := hm.frame.resolve_left fun hnone => hsends.active hnone.1
  obtain ⟨header, size, hcompiled, -, hlt⟩ := exists_compiled hm hsends hmoves
  have hmethod := (hmoves.kept.method_iff hl.context).mpr hl.method
  have hcompiled' := hat.method _ header size hmethod hcompiled
  have htail := hl.tail
  have hdepth := hwaits.depth
  have hpositive : 0 < n := Nat.lt_of_lt_of_le (by decide) (Nat.le_trans htail hdepth)
  have hreaches : ∀ i, i < n → Reaches m₁.heap m.regs.activeContext i := by
    intro i hi _ sp hsp
    have heq : sp = n - 1 := Int.ofNat.inj (Value.int.inj (Except.ok.inj (hsp.symm.trans hwaits.sp)))
    omega
  constructor
  case size => exact hat.size _ ((hmoves.kept.counts _ _ hl.context.exists_type).mpr hl.limit)
  case method => exact hat.fetchField_low (by decide) (by decide) hmethod
  case header => exact ⟨header, hcompiled'.header⟩
  case code => exact Heap.exists_fetchField hcompiled'.size hlt
  case ip =>
    rcases hat.fields Slot.ip _ (reaches_of_lt (by decide)) hwaits.ip with
      hsame | ⟨-, hnil⟩ | ⟨-, -, htail, -⟩
    · exact .inl hsame
    · exact .inr hnil
    · exact absurd htail (by decide)
  case sp => exact hat.fetchField_low (by decide) (by decide) hwaits.sp
  case stack =>
    intro i x hi hlt hx
    have hip : i ≠ Slot.ip := Nat.ne_of_gt (Nat.lt_of_lt_of_le (by decide) (Nat.le_trans htail hi))
    have hsp : i ≠ Slot.sp := Nat.ne_of_gt (Nat.lt_of_lt_of_le (by decide) (Nat.le_trans htail hi))
    rcases hat.fields i x (hreaches i hlt) (hwaits.rest i x hlt hip hsp hx) with
      hsame | ⟨heq, -⟩ | ⟨-, hamong⟩
    · exact hsame
    · exact absurd heq hip
    · exact absurd hamong (not_amongTemporaries hm hsends hmoves hat hm' hi)
  case below =>
    intro i x hi hip hsp hx
    have hlt := Nat.lt_of_lt_of_le hi hdepth
    rcases hat.fields i x (hreaches i hlt) (hwaits.rest i x hlt hip hsp hx) with
      hsame | ⟨heq, -⟩ | hwritten
    · exact .inl hsame
    · exact absurd heq hip
    · exact .inr hwritten

end

/-! ## Answering -/

/-- In `m'` the context that sent in `m` goes on at `next`, with its stack as it was but for `v` in the
place of the receiver and the `argc` arguments. -/
structure Replied (m : Machine) (argc next : Nat) (q : Pause) (v : Value) (m' : Machine) : Prop where
  context : m'.regs.activeContext = m.regs.activeContext.map q.moved
  method : m'.regs.method = m.regs.method.map q.moved
  ip : m'.regs.ip = next
  sp : m'.regs.sp + argc = m.regs.sp
  depth : m.regs.stackBase ≤ m'.regs.sp
  top : m'.heap.fetchField m'.regs.activeContext m'.regs.sp = .ok v
  stack : ∀ i x, m.regs.stackBase ≤ i → i < m'.regs.sp →
    m.heap.fetchField m.regs.activeContext i = .ok x →
      m'.heap.fetchField m'.regs.activeContext i = .ok (x.map q.moved)
  below : ∀ i x, i < m.regs.stackBase → i ≠ Slot.ip → i ≠ Slot.sp →
    m.heap.fetchField m.regs.activeContext i = .ok x →
      m'.heap.fetchField m'.regs.activeContext i = .ok (x.map q.moved) ∨
        q.written = true ∧ AmongTemporaries m'.known m'.heap m'.regs.activeContext i

/-- The next instruction returns `v` to the context `c`. -/
structure Returns (m : Machine) (kind : ReturnKind) (c v : Value) : Prop where
  instruction : ∃ next, m.fetch = .ok (.ret kind, next)
  target : m.returnTarget kind = .ok c
  value : m.returnValue kind = .ok v

theorem Held.ne_nil (hh : Held m n next q m') (hm' : Contained .plain m') :
    m.regs.activeContext.map q.moved ≠ m'.known .nil := by
  intro heq
  have hsp := hh.sp
  rw [heq] at hsp
  exact hm'.framed.nil_fetchField _ _ hsp

theorem ofNat_ne_nil (hm : Contained .plain m) (k : Nat) : Value.ofNat k ≠ m.known .nil := by
  intro heq
  have hint := hm.framed.nil_isInt
  rw [← heq] at hint
  cases hint

/-- What is held goes on. -/
theorem Held.replied (hh : Held m (m.regs.sp - argc) next q m₂) (hm : Contained .plain m)
    (hactive : m.regs.activeContext ≠ m.known .nil) (hm₂ : Contained .plain m₂)
    (hcontext : IsContext m₂.known m₂.heap (m.regs.activeContext.map q.moved)) (hle : argc ≤ m.regs.sp)
    (hdepth : m.regs.stackBase ≤ m.regs.sp - argc)
    (hresume : resume (m.regs.activeContext.map q.moved) v m₂ = .ok () m') :
    Replied m argc next q v m' := by
  have hl := hm.frame.resolve_left fun hnone => hactive hnone.1
  have htail := hl.tail
  have hpositive : 0 < m.regs.stackBase := Nat.lt_of_lt_of_le (by decide) htail
  have hgoes := continued_of_resume hm₂.framed.settled (hh.ne_nil hm₂) hresume
  have hwoken : Moves .plain true m₂ m' :=
    ((yields_resume hm₂ (.inr ⟨hcontext, id⟩) v).answer hresume).1
  have hsp : m'.regs.sp = m.regs.sp - argc := by
    obtain ⟨sp, hfetch, hsp⟩ := hgoes.sp
    have heq : sp = m.regs.sp - argc - 1 :=
      Int.ofNat.inj (Value.int.inj (Except.ok.inj (hfetch.symm.trans hh.sp)))
    omega
  have hrest : ∀ i x, i < m'.regs.sp →
      m₂.heap.fetchField (m.regs.activeContext.map q.moved) i = .ok x →
        m'.heap.fetchField m'.regs.activeContext i = .ok x := by
    intro i x hi hx
    rw [hgoes.context]
    exact hgoes.rest i x (Nat.ne_of_lt hi) hx
  constructor
  case context => exact hgoes.context
  case method => exact Except.ok.inj (hgoes.method.symm.trans hh.method)
  case ip =>
    rcases hh.ip with hnext | hnil
    · exact Int.ofNat.inj (Value.int.inj (Except.ok.inj (hgoes.ip.symm.trans hnext)))
    · exact absurd (Except.ok.inj (hgoes.ip.symm.trans hnil)) (ofNat_ne_nil hm₂ _)
  case sp => omega
  case depth => rwa [hsp]
  case top =>
    rw [hgoes.context]
    exact hgoes.top
  case stack =>
    intro i x hi hlt hx
    exact hrest i _ hlt (hh.stack i x hi (hsp ▸ hlt) hx)
  case below =>
    intro i x hi hip hsp' hx
    have hlt : i < m'.regs.sp := by omega
    rcases hh.below i x hi hip hsp' hx with hsame | ⟨hwritten, hamong⟩
    · exact .inl (hrest i _ hlt hsame)
    · have hamong := hamong.kept hm₂.framed hwoken.kept trivial hcontext
      rw [← hwoken.known, ← hgoes.context] at hamong
      exact .inr ⟨hwritten, hamong⟩

/-- What is held and has not been left can be resumed. -/
theorem Held.exists_resume (hh : Held m n next q m') (hm : Contained .plain m)
    (hactive : m.regs.activeContext ≠ m.known .nil) (hm' : Contained .plain m') (hn : n ≤ m.regs.sp)
    (hdepth : m.regs.stackBase ≤ n)
    (hip : m'.heap.fetchField (m.regs.activeContext.map q.moved) Slot.ip ≠ .ok (m'.known .nil))
    (v : Value) : ∃ m'', resume (m.regs.activeContext.map q.moved) v m' = .ok () m'' := by
  have hl := hm.frame.resolve_left fun hnone => hactive hnone.1
  have htail := hl.tail
  have hhigh := hl.high
  have hpositive : 0 < m.regs.stackBase := Nat.lt_of_lt_of_le (by decide) htail
  obtain ⟨header, hheader⟩ := hh.header
  obtain ⟨code, hcode⟩ := hh.code
  have hnext := hh.ip.resolve_right hip
  have hleft : m'.hasBeenLeft (m.regs.activeContext.map q.moved) = .ok false := by
    rw [hasBeenLeft_eq hnext, decide_eq_false (ofNat_ne_nil hm' _)]
  exact Machine.exists_resume (hh.ne_nil hm') hh.size (by omega) (by omega) hnext hleft hh.sp hh.method
    hheader hcode v

/-! ## Returning to the sender -/

theorem stackValue_advance {depth : Nat} (next : Nat) (hv : m.stackValue depth = .ok v) :
    (m.advance next).stackValue depth = .ok v := by
  obtain ⟨hdepth, hfetch⟩ := stackValue_eq_ok hv
  have hlow : ¬(m.advance next).regs.sp < (m.advance next).regs.stackBase + depth :=
    Nat.not_lt.mpr hdepth
  unfold stackValue
  rw [if_neg hlow]
  exact liftFault_eq_ok.mpr hfetch

theorem Returns.value_advance (hr : Returns m kind c v) (next : Nat) :
    (m.advance next).returnValue kind = .ok v := by
  have hvalue := hr.value
  cases kind with
  | receiver | true | false | nil => exact hvalue
  | topToSender | topToCaller => exact stackValue_advance next hvalue

/-- A return is the whole of its instruction. -/
theorem Returns.exists_step (hr : Returns m kind c v) :
    ∃ next, step m = leave kind (m.advance next) := by
  obtain ⟨next, hfetch⟩ := hr.instruction
  exact ⟨next, stepWith_run hfetch⟩

/-- The home of a block that returns to the sender of it has an instruction pointer. -/
theorem Returns.exists_hasBeenLeft (hr : Returns m kind c v) (hm : Contained .plain m)
    (hanswers : ¬AnswersCaller m kind) :
    ∃ b, m.hasBeenLeft m.regs.homeContext = .ok b := by
  have htarget := hr.target
  unfold returnTarget at htarget
  rw [if_neg hanswers] at htarget
  obtain ⟨x, hx⟩ := (hm.loaded_of_home htarget).exists_ip (.inr rfl)
  exact ⟨_, hasBeenLeft_eq hx⟩

section

variable (hm : Contained .plain m) (hsends : Sends m argc next) (hle : argc ≤ m.regs.sp)
  (hwaits : Waits m (m.regs.sp - argc) next m₁) (hmoves : Moves .plain true m m₁)
  (hs : Suspended m₁ m.regs.activeContext m₂ (some q)) (haway : Away m.regs.activeContext (some q) m₂)

include hm hsends hmoves hs in
theorem followed_of_waits : Followed m₁ m.regs.activeContext (some q) m₂ := by
  have hl := hm.frame.resolve_left fun hnone => hsends.active hnone.1
  exact hs.followed hmoves.contained (hmoves.known ▸ hl.context.mono hmoves.kept.types)

include hm hsends hwaits hmoves hs haway in
/-- While the same context stays active, the sender is held. -/
theorem held_of_stays (hstays : Stays .plain true m₂ m₃) :
    Held m (m.regs.sp - argc) next q m₃ ∧
      IsContext m₃.known m₃.heap (m.regs.activeContext.map q.moved) := by
  have hf := followed_of_waits hm hsends hmoves hs
  have hrest := (hf.moves haway hstays.moves fun hstrict => absurd hstrict (by decide)).atRest q rfl
  exact ⟨held_of_atRest hm hsends hwaits hmoves hrest hstays.contained, hrest.context⟩

variable (hreturns : Returns m₂ kind (m.regs.activeContext.map q.moved) v)

include hm hsends hle hwaits hmoves hs haway hreturns in
/-- A return that is possible goes on with the sender. -/
theorem step_of_canReturn (hcan : CanReturn m₂ kind (m.regs.activeContext.map q.moved)) :
    ∃ m', step m₂ = .ok () m' ∧ Replied m argc next q v m' := by
  have hm₂ := (followed_of_waits hm hsends hmoves hs).contained
  obtain ⟨k, hstep⟩ := hreturns.exists_step
  have hadvanced : Stays .plain true m₂ (m₂.advance k) := hm₂.advanced k
  obtain ⟨m₃, hleave, hleaves⟩ := exists_leave hadvanced.contained (hreturns.value_advance k)
    hreturns.target hcan.home
  have hstays := hadvanced.trans hleaves.stays
  obtain ⟨hheld, hcontext⟩ := held_of_stays hm hsends hwaits hmoves hs haway hstays
  -- what has not been left before is not left by the return
  have hip : m₃.heap.fetchField (m.regs.activeContext.map q.moved) Slot.ip ≠ .ok (m₃.known .nil) := by
    obtain ⟨hheld₂, -⟩ := held_of_stays hm hsends hwaits hmoves hs haway (.refl hm₂)
    have hnext := hheld₂.ip.resolve_right fun hnil => by
      have htarget := hcan.target
      rw [hasBeenLeft_eq hnil, decide_eq_true rfl] at htarget
      cases htarget
    rw [hleaves.ip _ _ hcan.apart hnext]
    exact fun heq => ofNat_ne_nil hstays.contained next (Except.ok.inj heq)
  obtain ⟨m', hresume⟩ := hheld.exists_resume hm hsends.active hstays.contained (Nat.sub_le ..)
    hwaits.depth hip v
  refine ⟨m', hstep.trans (hleave.trans hresume), ?_⟩
  exact hheld.replied hm hsends.active hstays.contained hcontext hle hwaits.depth hresume

include hm hsends hwaits hmoves hs haway hreturns in
/-- A return that is not possible fails. -/
theorem step_of_not_canReturn (hcan : ¬CanReturn m₂ kind (m.regs.activeContext.map q.moved)) :
    ∃ m', step m₂ = .error .cannotReturn m' := by
  have hm₂ := (followed_of_waits hm hsends hmoves hs).contained
  obtain ⟨k, hstep⟩ := hreturns.exists_step
  have hadvanced : Stays .plain true m₂ (m₂.advance k) := hm₂.advanced k
  by_cases hhome : m₂.regs.homeContext ≠ m₂.regs.activeContext → ¬AnswersCaller m₂ kind →
      m₂.hasBeenLeft m₂.regs.homeContext = .ok false
  · obtain ⟨m₃, hleave, hleaves⟩ := exists_leave hadvanced.contained (hreturns.value_advance k)
      hreturns.target hhome
    have hstays := hadvanced.trans hleaves.stays
    obtain ⟨hheld, -⟩ := held_of_stays hm hsends hwaits hmoves hs haway hstays
    obtain ⟨hheld₂, -⟩ := held_of_stays hm hsends hwaits hmoves hs haway (.refl hm₂)
    have hnil : m₃.heap.fetchField (m.regs.activeContext.map q.moved) Slot.ip = .ok (m₂.known .nil) := by
      by_cases hexits : Exits m₂ kind (m.regs.activeContext.map q.moved)
      · exact hleaves.gone _ hexits
      · refine hleaves.ip _ _ hexits (hheld₂.ip.resolve_left fun hnext => hcan ⟨?_, hexits, hhome⟩)
        rw [hasBeenLeft_eq hnext, decide_eq_false (ofNat_ne_nil hm₂ _)]
    have hleft : m₃.hasBeenLeft (m.regs.activeContext.map q.moved) = .ok true := by
      rw [← hstays.known] at hnil
      rw [hasBeenLeft_eq hnil, decide_eq_true rfl]
    exact ⟨m₃, hstep.trans (hleave.trans (resume_of_left (hheld.ne_nil hstays.contained) hleft))⟩
  · obtain ⟨hne, hrest⟩ := Classical.not_imp.mp hhome
    obtain ⟨hanswers, hleft⟩ := Classical.not_imp.mp hrest
    obtain ⟨b, hb⟩ := hreturns.exists_hasBeenLeft hm₂ hanswers
    cases b with
    | false => exact absurd hb hleft
    | true =>
        obtain ⟨m₃, hleave⟩ := exists_leave_of_left hadvanced.contained (hreturns.value_advance k)
          hne hanswers hb
        exact ⟨m₃, hstep.trans hleave⟩

end

/-! ## Executions -/

/-- Whatever is done next leads to a machine of which `P` is true. -/
structure LeadsTo (P : Machine → Prop) (m : Machine) : Prop where
  start : ∀ method receiver arguments, P (stateAfter (startMethod method receiver arguments m))
  housekeeping : ∀ fuel, P (stateAfter (Machine.housekeeping fuel m))
  collect : Collectable m → P (stateAfter (collectGarbage m))
  step : Machine.step m = stepWith confine m → P (stateAfter (Machine.step m))
  run : ∀ budget, RunsAs confine budget m → P (stateAfter (Machine.run budget m))
  runMethod : ∀ budget method receiver arguments,
    (∀ m', startMethod method receiver arguments m = .ok () m' → RunsAs confine budget m') →
      P (stateAfter (Machine.runMethod budget method receiver arguments m))

/-- Wherever an execution goes on to, it goes on with the history of the context. -/
theorem Onward.leadsTo (hm₀ : Contained .plain m₀) (hc : IsContext m₀.known m₀.heap c)
    (h : Onward m₀ c m) : LeadsTo (Onward m₀ c) m where
  start := h.started
  housekeeping := h.housekept
  collect := h.collect hm₀ hc
  step := h.stepped
  run _ := h.run hm₀ hc
  runMethod _ := h.runMethod hm₀ hc

namespace Executed

/-- A context that is not active stays at rest, whatever an execution does.  So a message that activates
something is answered, if it ever is, as if nothing had been done but to answer it: the return goes on
with the sender behind the message, with the answer in the place of the receiver and the arguments, and
fails only where a context has been left before. -/
theorem staysFrozen (hm₀ : Executed m₀) (hc : IsContext m₀.known m₀.heap c) :
    (∀ m q, Suspended m₀ c m (some q) → AtRest m₀ c q m) ∧
    (∀ m, Onward m₀ c m → LeadsTo (Onward m₀ c) m) ∧
    (c = m₀.regs.activeContext → ∀ argc next, Sends m₀ argc next → step m₀ = stepWith confine m₀ →
      (stateAfter (step m₀)).regs.activeContext ≠ c →
        ∀ m q kind v, Suspended (stateAfter (step m₀)) c m (some q) → Away c (some q) m →
          Returns m kind (c.map q.moved) v →
            (CanReturn m kind (c.map q.moved) →
              ∃ m', step m = .ok () m' ∧ Replied m₀ argc next q v m') ∧
            (¬CanReturn m kind (c.map q.moved) → ∃ m', step m = .error .cannotReturn m')) := by
  have hcontained := hm₀.contained
  refine ⟨fun m q hs => (hs.followed hcontained hc).atRest q rfl,
    fun m h => h.leadsTo hcontained hc, ?_⟩
  rintro rfl argc next hsends hconfined hother m q kind v hs haway hreturns
  obtain ⟨hle, hwaits⟩ := waits_of_sends hcontained hsends hconfined hother
  have hmoves : Moves .plain true m₀ (stateAfter (step m₀)) := by
    rw [hconfined, confine_eq]
    exact moves_step guards_respects hcontained fun _ => hsends.not_popStoreTemporary
  exact ⟨step_of_canReturn hcontained hsends hle hwaits hmoves hs haway hreturns,
    step_of_not_canReturn hcontained hsends hwaits hmoves hs haway hreturns⟩

end Executed

/-! ## One machine -/

/-- Makes the first method of the processor add nil to its receiver, and the method for addition answer
its receiver. -/
def rewire : MachineM Value := do
  let selectors ← landmark .specialSelectors
  match (← get).firstMethod (← landmark .processorScheduler),
      ← read (·.methodAt (← landmark .smallInteger) (← fetchField selectors 0)) with
  | some sender, some callee =>
    let code ← fetchField sender Slot.methodCode
    onHeap (Heap.storeByte code 1 (Opcode.pushSpecial.withInline SpecialConstant.nil.operand))
    onHeap (Heap.storeByte code 2 (Opcode.specialSend1.withInline 0))
    onHeap (Heap.storeByte (← fetchField callee Slot.methodCode) 0
      (Opcode.ret.withInline ReturnKind.receiver.operand))
    return sender
  | _, _ => throw (.invalidMethod .noEntryCode)

theorem keeps_rewire : Keeps Executed rewire := by
  have hstore : ∀ v i b, Keeps Executed (onHeap (Heap.storeByte v i b)) := fun v i b m hm =>
    hm.storeByte v i b
  refine (keeps_landmark _).bind fun selectors => keeps_get.bind fun m => (keeps_landmark _).bind
    fun _ => (keeps_landmark _).bind fun _ => (keeps_fetchField _ _).bind fun _ =>
      (keeps_read _).bind fun found => ?_
  split
  · exact (keeps_fetchField _ _).bind fun code => (hstore _ _ _).bind fun _ =>
      (hstore _ _ _).bind fun _ => (keeps_fetchField _ _).bind fun _ => (hstore _ _ _).bind fun _ =>
        Keeps.pure _
  · exact Keeps.throw _

/-- Whether the next instruction is a special send of addition that stores nothing and ends up in another
context, where the receiver is returned. -/
def exchanges (m : Machine) : Bool :=
  match stepWith refuse m with
  | .error .. => false
  | .ok () m' =>
    decide (m.fetch.toOption = some (.specialSend 0 1, 3) ∧ m.regs.activeContext ≠ m.known .nil ∧
      (m.heap.typeOf m.regs.method).toOption = some (m.known .compiledMethod) ∧
      m'.fetch.toOption = some (.ret .receiver, 1) ∧
      m'.regs.homeContext = m'.regs.activeContext ∧ m'.regs.activeContext ≠ m.regs.activeContext ∧
      (m'.heap.fetchField m'.regs.homeContext Slot.sender).toOption = some m.regs.activeContext ∧
      (m'.hasBeenLeft m.regs.activeContext).toOption = some false ∧ m'.regs.receiver = .int 3)

theorem exists_of_exchanges (h : exchanges m = true) : ∃ m', stepWith refuse m = .ok () m' ∧
    m.fetch = .ok (.specialSend 0 1, 3) ∧ m.regs.activeContext ≠ m.known .nil ∧
    m.heap.typeOf m.regs.method = .ok (m.known .compiledMethod) ∧
    m'.fetch = .ok (.ret .receiver, 1) ∧ m'.regs.homeContext = m'.regs.activeContext ∧
    m'.regs.activeContext ≠ m.regs.activeContext ∧
    m'.heap.fetchField m'.regs.homeContext Slot.sender = .ok m.regs.activeContext ∧
    m'.hasBeenLeft m.regs.activeContext = .ok false ∧ m'.regs.receiver = .int 3 := by
  unfold exchanges at h
  split at h
  · cases h
  · next m' hstep =>
    obtain ⟨hfetch, hactive, htype, hfetch', hhome, hother, hsender, hleft, hreceiver⟩ :=
      of_decide_eq_true h
    exact ⟨m', hstep, eq_ok_of_toOption hfetch, hactive, eq_ok_of_toOption htype,
      eq_ok_of_toOption hfetch', hhome, hother, eq_ok_of_toOption hsender, eq_ok_of_toOption hleft,
      hreceiver⟩

/-- Whether the first method of the processor, rewired, pushes an integer and nil, and exchanges. -/
def adds (m : Machine) : Bool :=
  match (do startMethod (← rewire) (.int 3) []; stepWith refuse; stepWith refuse : MachineM Unit) m with
  | .error .. => false
  | .ok () m' => exchanges m'

/-- A step that stores nothing leads on. -/
theorem Executed.unstored (hm : Executed m) (hstep : stepWith refuse m = .ok () m') : Executed m' := by
  have hstepped := hm.stepped (step_eq_of_refuse hstep confine)
  rwa [show step m = .ok () m' from stepWith_of_refuse hstep id] at hstepped

theorem exists_exchange (hcreate : create s = .ok m) (hadds : adds m = true) :
    ∃ m', Executed m' ∧ exchanges m' = true := by
  unfold adds at hadds
  split at hadds
  · cases hadds
  · next m' hrun =>
    obtain ⟨method, m₁, hrewire, hrun⟩ := bind_eq_ok.mp hrun
    obtain ⟨_, m₂, hstart, hrun⟩ := bind_eq_ok.mp hrun
    obtain ⟨_, m₃, hfirst, hsecond⟩ := bind_eq_ok.mp hrun
    have hm₁ : Executed m₁ := by
      have hrewired := keeps_rewire m (.created hcreate)
      rwa [hrewire] at hrewired
    have hm₂ : Executed m₂ := by
      have hstarted := hm₁.started method (.int 3) []
      rwa [hstart] at hstarted
    exact ⟨m', (hm₂.unstored hfirst).unstored hsecond, hadds⟩

/-- Goes on until a method that has an integer on its stack, and has given itself a temporary, evaluates
a block that is about to store one. -/
def overwriting : MachineM Value := do
  let method ← compileMethod {
    selector := "overwrite"
    header := .bytecodes 0 0
    literals := [.int 7, .value (MethodHeader.bytecodes 0 1).toValue, .int 99,
      .value (MethodHeader.bytecodes 0 0).toValue]
    code := assemble [.pushLiteral 0, .pushLiteral 1, .popStoreField 0, .block 0 "stores",
      .pushLiteral 2, .popStoreTemporary 0, .pushLiteral 3, .popStoreField 0, .pushSpecial .nil,
      .ret .topToCaller, .endBlock "stores", .specialSend 18 0, .pop, .ret .topToSender] }
  startMethod method method []
  let sender := (← get).regs.activeContext
  steps 6
  return sender

/-- Whether the store goes to the stack of the method, which answers what it finds there. -/
def overwrites (m : Machine) : Bool :=
  match overwriting m with
  | .error .. => false
  | .ok c m₁ =>
    match step m₁ with
    | .error .. => false
    | .ok () m₂ =>
      decide ((m₁.heap.typeOf c).toOption = some (m₁.known .methodContext) ∧ m₁.regs.activeContext ≠ c ∧
        m₂.regs.activeContext ≠ c ∧ (m₁.heap.fetchField c Slot.sp).toOption = some (.ofNat 9) ∧
        (m₁.heap.fetchField c 9).toOption = some (.int 7) ∧
        (m₂.heap.fetchField c 9).toOption = some (.int 99) ∧ resultOf (run 7 m₂) = some (.int 99))

theorem exists_of_overwrites (h : overwrites m = true) : ∃ c m₁ m₂, overwriting m = .ok c m₁ ∧
    step m₁ = .ok () m₂ ∧ m₁.heap.typeOf c = .ok (m₁.known .methodContext) ∧
    m₁.regs.activeContext ≠ c ∧ m₂.regs.activeContext ≠ c ∧
    m₁.heap.fetchField c Slot.sp = .ok (.ofNat 9) ∧ m₁.heap.fetchField c 9 = .ok (.int 7) ∧
    m₂.heap.fetchField c 9 = .ok (.int 99) ∧ ∃ m', run 7 m₂ = .ok (.int 99) m' := by
  unfold overwrites at h
  split at h
  · cases h
  · next c m₁ hrun =>
    split at h
    · cases h
    · next m₂ hstep =>
      obtain ⟨htype, hactive, hactive', hsp, hbefore, hafter, hresult⟩ := of_decide_eq_true h
      exact ⟨c, m₁, m₂, hrun, hstep, eq_ok_of_toOption htype, hactive, hactive',
        eq_ok_of_toOption hsp, eq_ok_of_toOption hbefore, eq_ok_of_toOption hafter,
        resultOf_eq_some hresult⟩

/-- Forks a block that yields, puts an array with the context of the active process for its home in the
place of the context of the forked process, and yields to that. -/
def usurp (budget : Nat) : MachineM Value := do
  let nil ← landmark .nil
  let processor ← landmark .processor
  let _ ← defineMethod (← landmark .processorScheduler)
    (.getter "activeProcess" Slot.activeProcess.toUInt16)
  let _ ← defineMethod (← landmark .process) (.getter "context" Slot.processContext.toUInt16)
  let _ ← defineMethod (← landmark .process) (.setter "context:" Slot.processContext.toUInt16)
  let method ← compileMethod {
    selector := "store"
    header := .bytecodes 0 1
    literals := [.int 99, .value processor, .symbol "yield"]
    code := assemble [.pushLiteral 0, .popStoreTemporary 0, .pushLiteral 1, .send 2 0, .pop,
      .pushSpecial .nil, .ret .topToSender] }
  let context ← newArray [nil, .int 0, .int 8, method, nil, nil, .int 0, .int 0, nil, nil, nil, nil]
  let method ← compileMethod {
    selector := "usurp"
    header := .bytecodes 0 0
    literals := [.int 7, .value context, .int 6, .value processor, .symbol "activeProcess",
      .symbol "context", .symbol "at:put:", .symbol "fork", .symbol "context:", .symbol "yield"]
    code := assemble [.pushLiteral 0, .pushLiteral 1, .pushLiteral 2, .pushLiteral 3, .send 4 0,
      .send 5 0, .send 6 2, .pop, .block 0 "yields", .pushLiteral 3, .send 9 0, .ret .topToCaller,
      .endBlock "yields", .send 7 0, .pushLiteral 1, .send 8 1, .pop, .pushLiteral 3, .send 9 0, .pop,
      .ret .topToSender] }
  runMethod budget method nil []

theorem passes_replies : passes roomySettings (fun m =>
    adds m && (overwrites m && decide (resultOf (usurp 40 m) = some (.int 99)))) = true := by
  decide +kernel

/-- The sum of an integer and nil is what the method for addition answers instead, and nil is gone. -/
theorem staysFrozen_roomy : ∃ m c m₁ m₂, Executed m ∧ IsContext m.known m.heap c ∧
    c = m.regs.activeContext ∧ Sends m 1 3 ∧ step m = stepWith confine m ∧ step m = .ok () m₁ ∧
    m₁.regs.activeContext ≠ c ∧ AtRest m₁ c ⟨id, false⟩ m₁ ∧ LeadsTo (Onward m₁ c) m₁ ∧
    step m₁ = .ok () m₂ ∧ Replied m 1 3 ⟨id, false⟩ (.int 3) m₂ := by
  obtain ⟨m₀, hcreate, htests⟩ := exists_create_of_passes passes_replies
  obtain ⟨m, hm, hexchanges⟩ := exists_exchange hcreate (Bool.and_eq_true_iff.mp htests).1
  obtain ⟨m₁, hquiet, hfetch, hactive, htype, hfetch', hhome, hother, hsender, hleft, hreceiver⟩ :=
    exists_of_exchanges hexchanges
  have hl := hm.contained.frame.resolve_left fun hnone => hactive hnone.1
  have hsends : Sends m 1 3 := ⟨hactive, htype, 1, rfl, .inr ⟨0, hfetch⟩⟩
  have hconfined := step_eq_of_refuse hquiet confine
  have hstep : step m = .ok () m₁ := stepWith_of_refuse hquiet id
  have hstate : stateAfter (step m) = m₁ := by rw [hstep, stateAfter_ok]
  have hm₁ : Executed m₁ := hstate ▸ hm.stepped hconfined
  have hid : m.regs.activeContext.map (id : Handle → Handle) = m.regs.activeContext := Value.map_id _
  have hcontext : IsContext m₁.known m₁.heap m.regs.activeContext := by
    have hmoves : Moves .plain true m m₁ := by
      rw [← hstate, hconfined, confine_eq]
      exact moves_step guards_respects hm.contained fun _ => hsends.not_popStoreTemporary
    rw [hmoves.known]
    exact hl.context.mono hmoves.kept.types
  have haway : Away m.regs.activeContext (some ⟨id, false⟩) m₁ := by
    rintro q ⟨⟩ heq
    exact hother (heq.symm.trans hid)
  -- the return leaves the method for addition only
  have hanswers : ¬AnswersCaller m₁ .receiver := fun h => by cases h.1
  have hreturns : Returns m₁ .receiver (m.regs.activeContext.map id) (.int 3) := by
    refine ⟨⟨1, hfetch'⟩, ?_, congrArg Except.ok hreceiver⟩
    unfold returnTarget
    rw [if_neg hanswers, hid]
    exact hsender
  have hcan : CanReturn m₁ .receiver (m.regs.activeContext.map id) := by
    rw [hid]
    refine ⟨hleft, ?_, fun hne => absurd hhome hne⟩
    rintro (heq | ⟨heq, -⟩)
    · exact hother heq.symm
    · exact hother (hhome ▸ heq.symm)
  obtain ⟨hfrozen, honward, -⟩ := hm₁.staysFrozen hcontext
  obtain ⟨-, -, hreplies⟩ := hm.staysFrozen hl.context
  have hsuspended : Suspended (stateAfter (step m)) m.regs.activeContext m₁ (some ⟨id, false⟩) := by
    rw [hstate]
    exact .begun
  obtain ⟨m₂, hstep₂, hreplied⟩ := (hreplies rfl 1 3 hsends hconfined (hstate ▸ hother) m₁ ⟨id, false⟩
    .receiver (.int 3) hsuspended haway hreturns).1 hcan
  exact ⟨m, m.regs.activeContext, m₁, m₂, hm, hl.context, rfl, hsends, hconfined, hstep, hother,
    hfrozen m₁ _ .begun, honward m₁ ⟨_, .begun⟩, hstep₂, hreplied⟩

/-- A method that has another number of temporaries when a block of it is evaluated finds its stack
overwritten by the block.  Where an array stands in for the context of a process, a method that stores a
temporary of its own stores it in the context in which another process waits. -/
theorem overwrites_suspended_roomy : ∃ m, create roomySettings = .ok m ∧
    (∃ c m₁ m₂, overwriting m = .ok c m₁ ∧ step m₁ = .ok () m₂ ∧
      m₁.heap.typeOf c = .ok (m₁.known .methodContext) ∧ m₁.regs.activeContext ≠ c ∧
      m₂.regs.activeContext ≠ c ∧ m₁.heap.fetchField c Slot.sp = .ok (.ofNat 9) ∧
      m₁.heap.fetchField c 9 = .ok (.int 7) ∧ m₂.heap.fetchField c 9 = .ok (.int 99) ∧
      ∃ m', run 7 m₂ = .ok (.int 99) m') ∧
    ∃ m', usurp 40 m = .ok (.int 99) m' := by
  obtain ⟨m, hcreate, htests⟩ := exists_create_of_passes passes_replies
  obtain ⟨hoverwrites, husurps⟩ := Bool.and_eq_true_iff.mp (Bool.and_eq_true_iff.mp htests).2
  exact ⟨m, hcreate, exists_of_overwrites hoverwrites, resultOf_eq_some (of_decide_eq_true husurps)⟩

end Machine

end MessageMachine
