import MessageMachine.Proofs.Frame.Callers

/-!
# Returns

A return leaves the active context, and with it the home of a block, unless it only answers the context
that evaluates the block.  Then it goes on with another context.

* `m.returnValue kind` is what a return answers, and `m.returnTarget kind` the context that it is
  answered to.
* `Exits m kind c` says that the return leaves the context `c`, and `Leaves left m m'` that just the
  contexts in `left` have been left.
* `CanReturn m kind c` says that neither the context that is answered to nor a home that is to be left
  has been left before.

A return that finds no home that has been left goes on to the context that is answered to
(`exists_leave`), which is resumed if it is in shape (`exists_resume`) and refuses if it has been left
(`resume_of_left`).
-/

namespace MessageMachine

namespace Machine

variable {m m' m₁ m₂ : Machine} {kind : ReturnKind} {c v : Value} {left left' : Value → Prop}

/-! ## What is returned, and where to -/

/-- What a return answers. -/
def returnValue (m : Machine) : ReturnKind → Except Fault Value
  | .receiver => .ok m.regs.receiver
  | .true => .ok (m.known .true)
  | .false => .ok (m.known .false)
  | .nil => .ok (m.known .nil)
  | .topToSender | .topToCaller => m.stackValue 0

/-- The return leaves a block only, and answers the context that evaluates it. -/
def AnswersCaller (m : Machine) (kind : ReturnKind) : Prop :=
  kind = .topToCaller ∧ m.regs.activeContext ≠ m.regs.homeContext

instance : Decidable (AnswersCaller m kind) := inferInstanceAs (Decidable (_ ∧ _))

/-- The context that is answered to. -/
def returnTarget (m : Machine) (kind : ReturnKind) : Except HeapFault Value :=
  if AnswersCaller m kind then
    m.heap.fetchField m.regs.activeContext Slot.caller
  else m.heap.fetchField m.regs.homeContext Slot.sender

/-- The return leaves the context. -/
def Exits (m : Machine) (kind : ReturnKind) (c : Value) : Prop :=
  c = m.regs.activeContext ∨ c = m.regs.homeContext ∧ ¬AnswersCaller m kind

/-- A return to the context is possible: that has not been left and is not left by the return, and a
block whose home is to be left finds that it has not been left. -/
structure CanReturn (m : Machine) (kind : ReturnKind) (c : Value) : Prop where
  target : m.hasBeenLeft c = .ok false
  apart : ¬Exits m kind c
  home : m.regs.homeContext ≠ m.regs.activeContext → ¬AnswersCaller m kind →
    m.hasBeenLeft m.regs.homeContext = .ok false

/-! ## Leaving contexts -/

theorem hasBeenLeft_eq {x : Value} (hx : m.heap.fetchField c Slot.ip = .ok x) :
    m.hasBeenLeft c = .ok (decide (x = m.known .nil)) := by
  unfold hasBeenLeft
  rw [hx]
  rfl

/-- The contexts in `left` have been left, and no others. -/
structure Leaves (left : Value → Prop) (m m' : Machine) : Prop where
  stays : Stays .plain true m m'
  gone : ∀ c, left c → m'.heap.fetchField c Slot.ip = .ok (m.known .nil)
  ip : ∀ c x, ¬left c → m.heap.fetchField c Slot.ip = .ok x → m'.heap.fetchField c Slot.ip = .ok x

namespace Leaves

theorem none (hs : Stays .plain true m m')
    (hip : ∀ c x, m.heap.fetchField c Slot.ip = .ok x → m'.heap.fetchField c Slot.ip = .ok x) :
    Leaves (fun _ => False) m m' := ⟨hs, fun _ => False.elim, fun c x _ => hip c x⟩

theorem trans (hfirst : Leaves left m m₁) (hsecond : Leaves left' m₁ m₂) :
    Leaves (fun c => left c ∨ left' c) m m₂ := by
  refine ⟨hfirst.stays.trans hsecond.stays, fun c hc => ?_, fun c x hc hx => ?_⟩
  · by_cases hleft : left' c
    · rw [← hfirst.stays.known]
      exact hsecond.gone c hleft
    · exact hsecond.ip c _ hleft (hfirst.gone c (hc.resolve_right hleft))
  · obtain ⟨hleft, hleft'⟩ := not_or.mp hc
    exact hsecond.ip c x hleft' (hfirst.ip c x hleft hx)

theorem congr (hl : Leaves left m m') (hiff : ∀ c, left' c ↔ left c) : Leaves left' m m' :=
  ⟨hl.stays, fun c hc => hl.gone c ((hiff c).mp hc),
    fun c x hc => hl.ip c x fun hleft => hc ((hiff c).mpr hleft)⟩

end Leaves

/-- The active context and its home have an instruction pointer. -/
theorem Loaded.exists_ip (hl : Loaded .plain m.known m.heap m.regs)
    (hc : c = m.regs.activeContext ∨ c = m.regs.homeContext) :
    ∃ x, m.heap.fetchField c Slot.ip = .ok x := by
  rcases hc with rfl | rfl
  · refine Heap.exists_fetchField hl.limit ?_
    have hlow := hl.low
    have hhigh := hl.high
    simp only [Slot.contextTail, Slot.ip] at hlow ⊢
    omega
  · obtain ⟨n, hn⟩ := Heap.exists_count_of_fetchField hl.home_method
    exact Heap.exists_fetchField hn
      (Nat.lt_trans (by decide : Slot.ip < Slot.contextMethod) (Heap.lt_of_fetchField hn hl.home_method))

theorem Stays.loaded (hs : Stays .plain true m m') (hl : Loaded .plain m.known m.heap m.regs) :
    Loaded .plain m'.known m'.heap m'.regs := by
  have hmethod := hs.kept.fixed _ _ _ hl.context (by decide) hl.method
  rw [← hs.same.context] at hmethod
  exact hs.contained.loaded hmethod

theorem exists_markLeft (hm : Contained .plain m) (hl : Loaded .plain m.known m.heap m.regs)
    (hc : c = m.regs.activeContext ∨ c = m.regs.homeContext) :
    ∃ m₁, markLeft c m = .ok () m₁ ∧ Leaves (· = c) m m₁ := by
  have hsuits : Suits .plain m.known m.heap .context c := by
    rcases hc with rfl | rfl
    · exact hm.fills_active
    · exact hm.fills_home
  have hs : Yields (Stays .plain true) (markLeft c) _ m := yields_markLeft hm hsuits hc
  obtain ⟨x, hx⟩ := hl.exists_ip hc
  have hmark : markLeft c m = storeField c Slot.ip (m.known .nil) m := rfl
  have houtcome := ensures_storeField_of_fetchField hm.framed.settled hx (m.known .nil)
    (fun _ _ => False) m rfl
  cases hrun : storeField c Slot.ip (m.known .nil) m with
  | error fault m₁ =>
      rw [hrun] at houtcome
      exact houtcome.elim
  | ok u m₁ =>
      rw [hrun] at houtcome
      obtain ⟨h, hstored, rfl⟩ := houtcome
      refine ⟨_, hmark.trans hrun, (hs.answer (hmark.trans hrun)).1, ?_, fun d x hd hx => ?_⟩
      · rintro _ rfl
        exact hstored.self
      · exact (hstored.other d _ x (.inl hd)).mpr hx

/-! ## Returning from a method -/

/-- The home context is left, and its sender goes on. -/
theorem methodReturn_run (v : Value) (m : Machine) : methodReturn v m =
    let finish : MachineM Unit := do
      let target ← fetchField m.regs.homeContext Slot.sender
      markLeft m.regs.homeContext
      resume target v
    if m.regs.homeContext ≠ m.regs.activeContext then
      (do
        if ← read (·.hasBeenLeft m.regs.homeContext) then throw .cannotReturn
        markLeft m.regs.activeContext
        finish : MachineM Unit) m
    else finish m := by
  have heq : methodReturn v m = (if m.regs.homeContext ≠ m.regs.activeContext then do
      if ← read (·.hasBeenLeft m.regs.homeContext) then throw .cannotReturn
      markLeft m.regs.activeContext
      let target ← fetchField m.regs.homeContext Slot.sender
      markLeft m.regs.homeContext
      resume target v
    else do
      let target ← fetchField m.regs.homeContext Slot.sender
      markLeft m.regs.homeContext
      resume target v : MachineM Unit) m := rfl
  rw [heq]
  split <;> rfl

/-- From a block the home context is not left twice. -/
theorem methodReturn_of_left (v : Value) (hne : m.regs.homeContext ≠ m.regs.activeContext)
    (hleft : m.hasBeenLeft m.regs.homeContext = .ok true) :
    methodReturn v m = .error .cannotReturn m := by
  rw [methodReturn_run]
  dsimp only
  rw [if_pos hne, bind_eq_of_ok (read_eq_ok.mpr ⟨hleft, rfl⟩)]
  rfl

/-- The end of a return from a method. -/
theorem exists_finish (hm : Contained .plain m) (hl : Loaded .plain m.known m.heap m.regs)
    {home : Value} (hhome : home = m.regs.homeContext) (v : Value)
    (hsender : m.heap.fetchField home Slot.sender = .ok c) :
    ∃ m₁, (do
      let target ← fetchField home Slot.sender
      markLeft home
      resume target v : MachineM Unit) m = resume c v m₁ ∧ Leaves (· = home) m m₁ := by
  obtain ⟨m₁, hmark, hleaves⟩ := exists_markLeft hm hl (.inr hhome)
  have hfetch : fetchField home Slot.sender m = .ok c m := readHeap_eq_ok.mpr ⟨hsender, rfl⟩
  refine ⟨m₁, ?_, hleaves⟩
  rw [bind_eq_of_ok hfetch, bind_eq_of_ok hmark]

theorem exists_methodReturn (hm : Contained .plain m) (v : Value)
    (hsender : m.heap.fetchField m.regs.homeContext Slot.sender = .ok c)
    (hhome : m.regs.homeContext ≠ m.regs.activeContext →
      m.hasBeenLeft m.regs.homeContext = .ok false) :
    ∃ m₁, methodReturn v m = resume c v m₁ ∧
      Leaves (fun d => d = m.regs.activeContext ∨ d = m.regs.homeContext) m m₁ := by
  have hl := hm.loaded_of_home hsender
  rw [methodReturn_run]
  dsimp only
  by_cases hne : m.regs.homeContext ≠ m.regs.activeContext
  · obtain ⟨m₁, hmark, hleaves⟩ := exists_markLeft hm hl (.inl rfl)
    have hs := hleaves.stays
    have hsender₁ : m₁.heap.fetchField m.regs.homeContext Slot.sender = .ok c :=
      hs.kept.fixed _ _ _ (.inl hl.home_type) (by decide) hsender
    obtain ⟨m₂, hfinish, hleaves'⟩ :=
      exists_finish hs.contained (hs.loaded hl) hs.same.home.symm v hsender₁
    refine ⟨m₂, ?_, hleaves.trans hleaves'⟩
    rw [if_pos hne, bind_eq_of_ok (read_eq_ok.mpr ⟨hhome hne, rfl⟩), if_neg (by decide)]
    rw [bind_eq_of_ok hmark]
    exact hfinish
  · obtain ⟨m₁, hfinish, hleaves⟩ := exists_finish hm hl rfl v hsender
    rw [if_neg hne]
    refine ⟨m₁, hfinish, hleaves.congr fun d => ?_⟩
    rw [not_not.mp hne, or_self]

/-! ## Returning from a block -/

/-- The block forgets the context that evaluates it. -/
theorem exists_forgetCaller (hm : Contained .plain m)
    (hcaller : m.heap.fetchField m.regs.activeContext Slot.caller = .ok c) :
    ∃ m₁, storeField m.regs.activeContext Slot.caller (m.known .nil) m = .ok () m₁ ∧
      Leaves (fun _ => False) m m₁ := by
  have hs : Yields (Stays .plain true)
      (storeField m.regs.activeContext Slot.caller (m.known .nil)) _ m :=
    yields_storeContext hm hm.fills_active (.inl rfl) fun _ _ => .inr (.inl ⟨rfl, .inl rfl⟩)
  have houtcome := ensures_storeField_of_fetchField hm.framed.settled hcaller (m.known .nil)
    (fun _ _ => False) m rfl
  cases hrun : storeField m.regs.activeContext Slot.caller (m.known .nil) m with
  | error fault m₁ =>
      rw [hrun] at houtcome
      exact houtcome.elim
  | ok u m₁ =>
      rw [hrun] at houtcome
      obtain ⟨h, hstored, rfl⟩ := houtcome
      refine ⟨_, rfl, .none (hs.answer hrun).1 fun d x hx => ?_⟩
      exact (hstored.other d _ x (.inr (by decide))).mpr hx

/-- Only in a block there is a caller. -/
theorem blockReturn_run (v : Value) (m : Machine) : blockReturn v m =
    if m.regs.activeContext = m.regs.homeContext then methodReturn v m else (do
      let caller ← fetchField m.regs.activeContext Slot.caller
      storeField m.regs.activeContext Slot.caller (← landmark .nil)
      markLeft m.regs.activeContext
      resume caller v : MachineM Unit) m := by
  have heq : blockReturn v m = (if m.regs.activeContext = m.regs.homeContext then methodReturn v else do
      let caller ← fetchField m.regs.activeContext Slot.caller
      storeField m.regs.activeContext Slot.caller (← landmark .nil)
      markLeft m.regs.activeContext
      resume caller v : MachineM Unit) m := rfl
  rw [heq]
  split <;> rfl

theorem exists_blockReturn (hm : Contained .plain m) (v : Value)
    (hne : m.regs.activeContext ≠ m.regs.homeContext)
    (hcaller : m.heap.fetchField m.regs.activeContext Slot.caller = .ok c) :
    ∃ m₁, blockReturn v m = resume c v m₁ ∧ Leaves (· = m.regs.activeContext) m m₁ := by
  have hfetch : fetchField m.regs.activeContext Slot.caller m = .ok c m :=
    readHeap_eq_ok.mpr ⟨hcaller, rfl⟩
  obtain ⟨m₁, hforget, hnone⟩ := exists_forgetCaller hm hcaller
  have hs := hnone.stays
  obtain ⟨m₂, hmark, hleaves⟩ :=
    exists_markLeft hs.contained (hs.loaded (hm.loaded hcaller)) (.inl hs.same.context.symm)
  refine ⟨m₂, ?_, (hnone.trans hleaves).congr fun d => by rw [false_or]⟩
  have hnil : landmark .nil m = .ok (m.known .nil) m := rfl
  rw [blockReturn_run, if_neg hne, bind_eq_of_ok hfetch, bind_eq_of_ok hnil, bind_eq_of_ok hforget,
    bind_eq_of_ok hmark]

/-! ## Returns as a whole -/

/-- What is answered is taken first. -/
theorem exists_leave_run (hm : Contained .plain m) (hvalue : m.returnValue kind = .ok v) :
    ∃ m₁, Leaves (fun _ => False) m m₁ ∧ m₁.heap = m.heap ∧
      leave kind m = (if kind = .topToCaller then blockReturn v else methodReturn v) m₁ := by
  have hidle : Leaves (fun _ => False) m m := .none (.refl hm) fun _ _ => id
  have hpop : m.stackValue 0 = .ok v → ∃ m₁, pop m = .ok v m₁ ∧ Leaves (fun _ => False) m m₁ ∧
      m₁.heap = m.heap := by
    intro hv
    have hs : Stays .plain true m (stateAfter (pop m)) := (yields_pop hm).after
    rw [pop_run_ok hv] at hs
    exact ⟨_, pop_run_ok hv, .none hs fun _ _ => id, rfl⟩
  cases kind with
  | receiver | true | false | nil =>
      cases hvalue
      exact ⟨m, hidle, rfl, rfl⟩
  | topToSender =>
      obtain ⟨m₁, hrun, hnone, hheap⟩ := hpop hvalue
      exact ⟨m₁, hnone, hheap, bind_eq_of_ok hrun⟩
  | topToCaller =>
      obtain ⟨m₁, hrun, hnone, hheap⟩ := hpop hvalue
      exact ⟨m₁, hnone, hheap, bind_eq_of_ok hrun⟩

/-- A return that is not to the caller of a block is one from a method. -/
theorem return_eq (hanswers : ¬AnswersCaller m kind) (v : Value) :
    (if kind = .topToCaller then blockReturn v else methodReturn v) m = methodReturn v m := by
  split
  · next hkind =>
    have hsame : m.regs.activeContext = m.regs.homeContext :=
      not_not.mp fun hne => hanswers ⟨hkind, hne⟩
    rw [blockReturn_run, if_pos hsame]
  · rfl

theorem AnswersCaller.congr (hs : Stays .plain true m m') :
    AnswersCaller m' kind ↔ AnswersCaller m kind := by
  unfold AnswersCaller
  rw [hs.same.context, hs.same.home]

theorem hasBeenLeft_congr (hknown : m'.known = m.known) (hheap : m'.heap = m.heap) (c : Value) :
    m'.hasBeenLeft c = m.hasBeenLeft c := by
  unfold hasBeenLeft
  rw [hknown, hheap]

/-- A return that leaves no home, or one that has not been left before, goes on with its target. -/
theorem exists_leave (hm : Contained .plain m) (hvalue : m.returnValue kind = .ok v)
    (htarget : m.returnTarget kind = .ok c)
    (hhome : m.regs.homeContext ≠ m.regs.activeContext → ¬AnswersCaller m kind →
      m.hasBeenLeft m.regs.homeContext = .ok false) :
    ∃ m₁, leave kind m = resume c v m₁ ∧ Leaves (Exits m kind) m m₁ := by
  obtain ⟨t, hnone, hheap, hrun⟩ := exists_leave_run hm hvalue
  have hs := hnone.stays
  obtain ⟨hcontext, hhomeContext, -⟩ := hs.same
  unfold returnTarget at htarget
  by_cases hanswers : AnswersCaller m kind
  · rw [if_pos hanswers, ← hcontext, ← hheap] at htarget
    obtain ⟨m₁, hreturn, hleaves⟩ :=
      exists_blockReturn hs.contained v ((AnswersCaller.congr hs).mpr hanswers).2 htarget
    refine ⟨m₁, ?_, (hnone.trans hleaves).congr fun d => ?_⟩
    · rw [hrun, if_pos hanswers.1]
      exact hreturn
    · rw [false_or, hcontext]
      exact ⟨fun hd => hd.resolve_right fun hhome => hhome.2 hanswers, .inl⟩
  · rw [if_neg hanswers, ← hhomeContext, ← hheap] at htarget
    obtain ⟨m₁, hreturn, hleaves⟩ := exists_methodReturn hs.contained v htarget fun hne => by
      rw [hhomeContext, hcontext] at hne
      rw [hasBeenLeft_congr hs.known hheap, hhomeContext]
      exact hhome hne hanswers
    refine ⟨m₁, ?_, (hnone.trans hleaves).congr fun d => ?_⟩
    · rw [hrun, return_eq fun h => hanswers ((AnswersCaller.congr hs).mp h)]
      exact hreturn
    · rw [false_or, hcontext, hhomeContext]
      exact or_congr_right (and_iff_left hanswers)

/-- A block cannot leave its home a second time. -/
theorem exists_leave_of_left (hm : Contained .plain m) (hvalue : m.returnValue kind = .ok v)
    (hne : m.regs.homeContext ≠ m.regs.activeContext) (hanswers : ¬AnswersCaller m kind)
    (hleft : m.hasBeenLeft m.regs.homeContext = .ok true) :
    ∃ m₁, leave kind m = .error .cannotReturn m₁ := by
  obtain ⟨t, hnone, hheap, hrun⟩ := exists_leave_run hm hvalue
  have hs := hnone.stays
  refine ⟨t, ?_⟩
  rw [hrun, return_eq fun h => hanswers ((AnswersCaller.congr hs).mp h)]
  refine methodReturn_of_left v ?_ ?_
  · rwa [hs.same.home, hs.same.context]
  · rwa [hasBeenLeft_congr hs.known hheap, hs.same.home]

/-! ## Going on with a context -/

theorem resume_of_left (hne : c ≠ m.known .nil) (hleft : m.hasBeenLeft c = .ok true) :
    resume c v m = .error .cannotReturn m := by
  rw [resume_run hne, bind_eq_of_ok (read_eq_ok.mpr ⟨hleft, rfl⟩)]
  rfl

/-- A context can be loaded if it has pointers and a method with a header and code. -/
theorem exists_loadContext {h : Heap} (r : Registers) {n ip sp : Nat} {method code : Value}
    {header : MethodHeader} (hn : h.fieldCount c = .ok n) (htail : Slot.contextTail ≤ n)
    (hip : h.fetchField c Slot.ip = .ok (.ofNat ip)) (hsp : h.fetchField c Slot.sp = .ok (.ofNat sp))
    (hmethod : h.fetchField c Slot.contextMethod = .ok method) (hheader : HeaderOf h method header)
    (hcode : h.fetchField method Slot.methodCode = .ok code) :
    ∃ r', loadContext h r c = .ok r' ∧ r'.sp = sp ∧ r'.stackLimit = n := by
  have hfield : ∀ i, i < Slot.contextTail → ∃ x, h.fetchField c i = .ok x := fun i hi =>
    Heap.exists_fetchField hn (Nat.lt_of_lt_of_le hi htail)
  obtain ⟨receiver, hreceiver⟩ := hfield Slot.receiver (by decide)
  obtain ⟨x, hx⟩ := hfield Slot.blockArguments (by decide)
  obtain ⟨home, hhome⟩ := hfield Slot.home (by decide)
  refine ⟨{ r with
    activeContext := c
    homeContext := if x.isInt then home else c
    method, receiver, code, ip, sp
    stackLimit := n
    tempCount := header.temporaries.toNat
    stackBase := if x.isInt then Slot.contextTail else Slot.contextTail + header.temporaries.toNat },
    loadContext_eq_ok.mpr ⟨⟨hmethod, hreceiver, ⟨x, hx, fun hint => ?_, fun hnot => ?_⟩,
      ⟨header, hheader, rfl⟩, hcode, hn⟩, rfl, hip, hsp, rfl, rfl, rfl⟩, rfl, rfl⟩
  · dsimp only
    rw [if_pos hint, if_pos hint]
    exact ⟨hhome, rfl⟩
  · dsimp only
    rw [if_neg (Bool.not_eq_true _ ▸ hnot), if_neg (Bool.not_eq_true _ ▸ hnot)]
    exact ⟨rfl, rfl⟩

/-- A context that has not been left goes on, if there is room for the value. -/
theorem exists_resume (hne : c ≠ m.known .nil) {n ip sp : Nat} {method code : Value}
    {header : MethodHeader} (hn : m.heap.fieldCount c = .ok n) (htail : Slot.contextTail ≤ n)
    (hroom : sp + 1 < n) (hip : m.heap.fetchField c Slot.ip = .ok (.ofNat ip))
    (hleft : m.hasBeenLeft c = .ok false)
    (hsp : m.heap.fetchField c Slot.sp = .ok (.ofNat sp))
    (hmethod : m.heap.fetchField c Slot.contextMethod = .ok method)
    (hheader : HeaderOf m.heap method header)
    (hcode : m.heap.fetchField method Slot.methodCode = .ok code) (v : Value) :
    ∃ m', resume c v m = .ok () m' := by
  obtain ⟨regs, hload, hregs, hlimit⟩ := exists_loadContext m.regs hn htail hip hsp hmethod hheader hcode
  have hcontext : regs.activeContext = c := (loadContext_eq_ok.mp hload).2.1
  have hreload : reload c m = .ok () { m with regs } :=
    bind_eq_of_ok (read_eq_ok.mpr ⟨liftFault_eq_ok.mpr hload, rfl⟩)
  obtain ⟨x, hx⟩ := Heap.exists_fetchField hn hroom
  obtain ⟨h, hstore⟩ := Heap.storeField_of_fetchField hx v
  have hstored : storeField regs.activeContext (regs.sp + 1) v { m with regs } =
      .ok () { m with regs, heap := h } := by
    unfold storeField
    rw [onHeap_run, hcontext, hregs, hstore]
    rfl
  refine ⟨{ m with heap := h, regs := { regs with sp := regs.sp + 1 } }, ?_⟩
  rw [resume_run hne, bind_eq_of_ok (read_eq_ok.mpr ⟨hleft, rfl⟩), if_neg (by decide)]
  dsimp only
  rw [bind_eq_of_ok hreload, push_run, if_neg (by rw [hlimit, hregs]; omega), bind_eq_of_ok hstored]
  rfl

end Machine

end MessageMachine
