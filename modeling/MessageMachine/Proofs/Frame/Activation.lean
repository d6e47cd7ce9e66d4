import MessageMachine.Proofs.Frame.Stack

/-!
# Activating methods and blocks

A context is filled field by field, and before it has its method and stack pointer it is not in
shape.  So what is followed here is the whole making of a context: it is a draft, a new object with
given fields while the rest of the heap is as it was.  A draft that is `Presentable` is in shape.

An activation ends by making the new context active.  If it fails before, the context that was active
still is: it leads to machines that `Moves` relates to the one before if it succeeds, and `Stays` if
it fails.
-/

namespace MessageMachine

variable {k : Landmarks} {h h' : Heap} {type : Landmark} {n : Nat} {xs ys : Nat → Value} {v : Value}
  {g : Regime}

/-! ## Fields of a new context -/

/-- A new context with `n` fields that `xs` lists is in shape. -/
structure Presentable (g : Regime) (k : Landmarks) (h : Heap) (type : Landmark) (n : Nat)
    (xs : Nat → Value) : Prop where
  sender : Suits g k h .context (xs Slot.sender)
  caller : Suits g k h .context (xs Slot.caller)
  plain : type = .methodContext → (xs Slot.blockArguments).isInt = false
  method : xs Slot.contextMethod ≠ k .nil → ∃ t, h.typeOf (xs Slot.contextMethod) = .ok t
  stack : xs Slot.contextMethod ≠ k .nil → ∃ sp, xs Slot.sp = .ofNat sp ∧
    Slot.contextTail ≤ sp + 1 ∧ sp < n ∧ (g.rigid → type = .methodContext → ∀ header,
      h.typeOf (xs Slot.contextMethod) = .ok (k .compiledMethod) →
      HeaderOf h (xs Slot.contextMethod) header →
      Slot.contextTail + header.temporaries.toNat ≤ sp + 1)
  home : type = .blockContext → xs Slot.contextMethod ≠ k .nil →
    (∃ i, xs Slot.blockArguments = .int i) ∧ h.typeOf (xs Slot.home) = .ok (k .methodContext) ∧
      h.fetchField (xs Slot.home) Slot.contextMethod = .ok (xs Slot.contextMethod)

namespace Presentable

/-- Only the named fields matter. -/
theorem congr (hp : Presentable g k h type n xs) (hsame : ∀ i < Slot.contextTail, ys i = xs i) :
    Presentable g k h type n ys := by
  obtain ⟨hsender, hcaller, hplain, hmethod, hstack, hhome⟩ := hp
  constructor
  case sender => rwa [hsame _ (by decide)]
  case caller => rwa [hsame _ (by decide)]
  case plain => rwa [hsame _ (by decide)]
  case method => rwa [hsame Slot.contextMethod (by decide)]
  case stack => rwa [hsame Slot.contextMethod (by decide), hsame Slot.sp (by decide)]
  case home =>
    rwa [hsame Slot.contextMethod (by decide), hsame Slot.blockArguments (by decide),
      hsame Slot.home (by decide)]

/-- A block context with another stack pointer. -/
theorem pointer (hp : Presentable g k h .blockContext n xs) {sp : Nat}
    (hlow : Slot.contextTail ≤ sp + 1) (hhigh : sp < n) :
    Presentable g k h .blockContext n (Function.update xs Slot.sp (.ofNat sp)) := by
  have hsame : ∀ {i}, i ≠ Slot.sp → Function.update xs Slot.sp (.ofNat sp) i = xs i := fun hi =>
    Function.update_of_ne hi ..
  obtain ⟨hsender, hcaller, -, hmethod, -, hhome⟩ := hp
  constructor
  case sender => rwa [hsame (by decide)]
  case caller => rwa [hsame (by decide)]
  case plain => exact nofun
  case method => rwa [hsame (by decide)]
  case stack => exact fun _ => ⟨sp, Function.update_self .., hlow, hhigh, fun _ => nofun⟩
  case home =>
    rwa [hsame (by decide : Slot.contextMethod ≠ _), hsame (by decide : Slot.blockArguments ≠ _),
      hsame (by decide : Slot.home ≠ _)]

/-- A context without anything. -/
theorem blank (hf : Framed g k h) : Presentable g k h type n fun _ => k .nil :=
  ⟨.inl rfl, .inl rfl, fun _ => hf.nil_isInt, fun hne => absurd rfl hne, fun hne => absurd rfl hne,
    fun _ hne => absurd rfl hne⟩

end Presentable

/-- A presentable draft leaves the machine's objects in shape. -/
theorem Framed.widened_of_presentable (hf : Framed g k h)
    (htype : type = .methodContext ∨ type = .blockContext)
    (hd : Heap.Drafted h v (k type) n xs h') (hp : Presentable g k h type n xs) :
    Widened g k h h' := by
  have hown : type ∈ ownTypes := by rcases htype with rfl | rfl <;> decide
  have hmethod : ∀ {method}, h'.fetchField v Slot.contextMethod = .ok method →
      method = xs Slot.contextMethod := fun hm => ((hd.self _ _).mp hm).2
  have hback : ∀ {method header}, h.typeOf method = .ok (k .compiledMethod) →
      HeaderOf h' method header → HeaderOf h method header := by
    rintro method header hcompiled ⟨value, hvalue, hof⟩
    exact ⟨value, (hd.other _ _ _ (hd.ne ⟨_, hcompiled⟩)).mp hvalue, hof⟩
  have hkind : ∀ {l}, l ∈ ownTypes → h'.typeOf v = .ok (k l) → type = l := fun hl hvl =>
    hf.distinct type hown _ hl (Except.ok.inj (hd.type_eq.symm.trans hvl))
  refine hf.widened_of_drafted hd ?_ ?_ ?_
  · intro x i role hx _ hrole
    cases x with
    | processor =>
        obtain ⟨t, ht⟩ := hf.exists_processor
        rw [show v = k .processor from hx] at hd
        exact absurd ht (hd.stale t)
    | interrupts =>
        have hfetch := (hd.other _ _ _ (hd.ne hf.exists_processor)).mp hx
        exact absurd (hf.interrupts v hfetch) (hd.stale _)
    | semaphore =>
        obtain rfl := hkind (by decide) hx
        rcases htype with heq | heq <;> cases heq
    | link =>
        obtain rfl := hkind (by decide) hx
        rcases htype with heq | heq <;> cases heq
    | process =>
        obtain rfl := hkind (by decide) hx
        rcases htype with heq | heq <;> cases heq
    | context =>
        rw [Holder.role] at hrole
        split at hrole
        · next hi =>
          cases hrole
          refine Suits.mono hd.types ?_
          rcases hi with rfl | rfl
          · exact hp.sender
          · exact hp.caller
        · cases hrole
  · intro heq
    exact hp.plain (hf.distinct type hown _ (by decide) heq)
  · rintro hc ⟨method, hfetch, hne⟩
    obtain rfl := hmethod hfetch
    obtain ⟨t, ht⟩ := hp.method hne
    obtain ⟨sp, hsp, hlow, hhigh, habove⟩ := hp.stack hne
    have hread : ∀ {i}, i < Slot.contextTail → h'.fetchField v i = .ok (xs i) := fun hi =>
      hd.exists_field (Nat.lt_of_lt_of_le hi (Nat.le_trans hlow hhigh))
    refine ⟨⟨_, t, hfetch, hd.types _ _ ht⟩, ⟨_, hread (by decide), n, sp, hsp, hd.count_eq, hlow,
      hhigh, ?_⟩, ?_⟩
    · intro hrigid hplain method' header hfetch' hcompiled hheader
      obtain rfl := hmethod hfetch'
      have hcompiled := type_of_exists hd.types ⟨t, ht⟩ hcompiled
      exact habove hrigid (hkind (by decide) hplain) header hcompiled (hback hcompiled hheader)
    · intro hblock
      obtain ⟨⟨i, hi⟩, hhomeType, hhomeMethod⟩ := hp.home (hkind (by decide) hblock) hne
      refine ⟨⟨i, (hread (by decide)).trans (congrArg _ hi)⟩, xs Slot.home, _, hread (by decide),
        hd.types _ _ hhomeType, hfetch, ?_⟩
      exact (hd.other _ _ _ (hd.ne ⟨_, hhomeType⟩)).mpr hhomeMethod

namespace Machine

variable {m m' : Machine} {c : Value} {strict : Bool}

/-! ## Drafts -/

/-- `c` has been made since `m`, with the fields that `xs` lists, and nothing else has changed. -/
def IsDraft (m : Machine) (type : Landmark) (n : Nat) (c : Value) (xs : Nat → Value)
    (m' : Machine) : Prop :=
  ∃ h, Heap.Drafted m.heap c (m.known type) n xs h ∧ m' = m.withHeap h

theorem ensures_draft (hsettled : m.heap.Settled) (type : Landmark) (hpos : 0 < n) :
    Ensures (m = ·) (newObject type n) (fun c m' => IsDraft m type n c (fun _ => m.known .nil) m')
      fun _ m' => m = m' :=
  (ensures_newObject hsettled type n).weaken (fun _ => id)
    (fun _ _ ⟨h, hmade, hm'⟩ => ⟨h, hmade.drafted hpos, hm'⟩) fun _ _ => id

theorem ensures_storeField_draft {i : Nat} (hi : i < n) (new : Value)
    (E : Fault → Machine → Prop) : Ensures (IsDraft m type n c xs) (storeField c i new)
      (fun _ => IsDraft m type n c (Function.update xs i new)) E := by
  refine .of_forall ?_
  rintro _ ⟨h, hd, rfl⟩
  refine (ensures_storeField_of_fetchField hd.settled (hd.exists_field hi) new E).weaken
    (fun _ => id) ?_ fun _ _ => id
  rintro _ _ ⟨h', hstored, rfl⟩
  exact ⟨h', hd.stored hstored, rfl⟩

/-- Fields of another object are copied into a draft. -/
theorem ensures_transfer_draft_bind (hd : IsDraft m type n c xs m') {source : Value}
    {first j count : Nat} {f : Unit → MachineM β} {P : β → Machine → Prop}
    {E : Fault → Machine → Prop} (hE : ∀ fault, E fault m')
    (hf : ∀ ys m'', IsDraft m type n c ys m'' → (∀ l, (l < j ∨ j + count ≤ l) → ys l = xs l) →
      j + count ≤ n →
      (∀ l < count, source ≠ c → m.heap.fetchField source (first + l) = .ok (ys (j + l))) →
      Ensures (m'' = ·) (f ()) P E) :
    Ensures (m' = ·) (onHeap (Heap.transferFields source first c j count) >>= f) P E := by
  rintro _ rfl
  obtain ⟨h, hd, rfl⟩ := hd
  rw [bind_run, onHeap_run, withHeap_heap]
  cases hrun : Heap.transferFields source first c j count h with
  | ok u h' =>
      obtain ⟨ys, hd', hsame, hfits, hmoved⟩ :=
        hd.transferred (Heap.transferred_of_eq_ok hd.settled hrun)
      exact hf ys _ ⟨h', hd', rfl⟩ hsame hfits
        (fun l hl hne => (hd.other source _ _ hne).mp (hmoved l hl)) _ rfl
  | error fault h' =>
      have hE := hE (.heap fault)
      dsimp only
      rwa [Heap.heap_of_transfer_error hrun]

/-- A presentable draft leaves the machine contained. -/
theorem Contained.presented (hm : Contained g m)
    (htype : type = .methodContext ∨ type = .blockContext)
    (hd : IsDraft m type n c xs m') (hp : Presentable g m.known m.heap type n xs) :
    Stays g true m m' ∧ Live g m'.known m'.heap c := by
  obtain ⟨h, hd, rfl⟩ := hd
  -- the new context did not exist, as idle ones do
  have hlive : ¬g.idle c := fun hidle => hd.stale _ (hm.framed.blocks c hidle)
  refine ⟨hm.widened (hm.framed.widened_of_presentable htype hd hp), ?_, hlive⟩
  rcases htype with rfl | rfl
  · exact .inl hd.type_eq
  · exact .inr hd.type_eq

/-! ## Methods -/

/-- The new context of a method, before its arguments are there. -/
theorem ensures_newMethodContext (hm : Contained g m) {method sender : Value} {header : MethodHeader}
    (hmethod : ∃ t, m.heap.typeOf method = .ok t)
    (hheader : g.rigid → m.heap.typeOf method = .ok (m.known .compiledMethod) →
      HeaderOf m.heap method header)
    (hsender : Suits g m.known m.heap .context sender) (receiver : Value) :
    Ensures (m = ·) (newMethodContext method header sender receiver)
      (fun c m' => ∃ n xs, IsDraft m .methodContext n c xs m' ∧
        Presentable g m.known m.heap .methodContext n xs) fun _ m' => m = m' := by
  refine ensures_get_bind ?_
  dsimp only
  generalize hsize : Slot.contextTail + header.temporaries.toNat + m.settings.contextStackDepth = n
  have hn : Slot.contextTail + header.temporaries.toNat ≤ n := hsize ▸ Nat.le_add_right ..
  have hslot : ∀ {i}, i < Slot.contextTail → i < n := fun hi =>
    Nat.lt_of_lt_of_le hi (Nat.le_trans (Nat.le_add_right ..) hn)
  refine (ensures_draft hm.framed.settled .methodContext (hslot (by decide))).bind fun c => ?_
  refine (ensures_storeField_draft (hslot (by decide)) _ _).bind fun _ => ?_
  refine (ensures_storeField_draft (hslot (by decide)) _ _).bind fun _ => ?_
  refine (ensures_storeField_draft (hslot (by decide)) _ _).bind fun _ => ?_
  refine (ensures_storeField_draft (hslot (by decide)) _ _).bind fun _ => ?_
  refine (ensures_storeField_draft (hslot (by decide)) _ _).bind fun _ => ?_
  refine Ensures.pure fun m' hd => ⟨n, _, hd, ?_⟩
  constructor
  case sender => exact hsender
  case caller => exact .inl rfl
  case plain => exact fun _ => hm.framed.nil_isInt
  case method => exact fun _ => hmethod
  case stack =>
    refine fun _ => ⟨Slot.contextTail + header.temporaries.toNat - 1, rfl, ?_, ?_, ?_⟩
    · simp only [Slot.contextTail]
      omega
    · simp only [Slot.contextTail] at hn ⊢
      omega
    · intro hrigid _ header' hcompiled hheader'
      obtain rfl := (hheader hrigid hcompiled).unique hheader'
      exact Nat.le_add_of_sub_le (Nat.le_refl _)
  case home => exact nofun

/-- A context becomes active, if it can be loaded. -/
theorem ensures_reload (hm : Contained g m) (hc : Live g m.known m.heap c) :
    Ensures (m = ·) (reload c) (fun _ m' => Moves g strict m m') fun _ m' => Stays g strict m m' := by
  refine (yields_read (Stays.refl hm)).ensures_bind (fun _ _ => id) ?_
  rintro regs _ - ⟨hload, rfl⟩ _ rfl
  exact ⟨hm.loading hc (liftFault_eq_ok.mp hload), rfl, .refl .., frozen_of_heap rfl⟩

/-- The end of an activation. -/
theorem ensures_leaveFor (hm : Contained g m) (hc : Live g m.known m.heap c) (consumed : Nat) :
    Ensures (m = ·) (do popN consumed; flush; reload c) (fun _ m' => Moves g strict m m')
      fun _ m' => Stays g strict m m' := by
  refine (yields_popN hm consumed).ensures_bind (fun _ _ => id) fun _ m₁ hs₁ _ => ?_
  refine (yields_flush hs₁.contained).ensures_bind (fun _ _ => hs₁.trans) fun _ m₂ hs₂ _ => ?_
  have hs := hs₁.trans hs₂
  have hc : Live g m₂.known m₂.heap c := by
    rw [hs.known]
    exact hc.mono hs.kept.types
  exact (ensures_reload hs.contained hc).weaken (fun _ => id) (fun _ _ => hs.trans_moves)
    fun _ _ => hs.trans

/-- A method is activated.  Its header must be what `header` says only if code cannot change it. -/
theorem ensures_activateMethod (hm : Contained g m) {method : Value} {header : MethodHeader}
    (hmethod : ∃ t, m.heap.typeOf method = .ok t)
    (hheader : g.rigid → m.heap.typeOf method = .ok (m.known .compiledMethod) →
      HeaderOf m.heap method header) (argc : Nat) :
    Ensures (m = ·) (activateMethod method header argc) (fun _ m' => Moves g strict m m')
      fun _ m' => Stays g strict m m' := by
  refine (yields_read (Stays.refl hm)).ensures_bind (fun _ _ => id) ?_
  rintro receiver _ - ⟨-, rfl⟩
  refine ensures_get_bind ?_
  refine Ensures.bind ((ensures_newMethodContext hm hmethod hheader hm.fills_active _).weaken
    (fun _ => id) (fun _ _ => id) ?_) fun c => ?_
  · rintro _ _ rfl
    exact .refl hm
  refine .of_forall ?_
  rintro m₁ ⟨n, xs, hd, hp⟩
  refine ensures_get_bind ?_
  have hpublish : ∀ {ys m₂}, IsDraft m .methodContext n c ys m₂ →
      (∀ i < Slot.contextTail, ys i = xs i) →
      Stays g strict m m₂ ∧ Live g m₂.known m₂.heap c := fun hd₂ hsame =>
    (hm.presented (.inl rfl) hd₂ (hp.congr hsame)).imp_left Stays.of_strict
  refine ensures_transfer_draft_bind hd (fun _ => (hpublish hd fun _ _ => rfl).1) ?_
  intro ys m₂ hd₂ hsame _ _
  obtain ⟨hs, hc⟩ := hpublish hd₂ fun i hi => hsame i (.inl hi)
  exact (ensures_leaveFor hs.contained hc _).weaken (fun _ => id) (fun _ _ => hs.trans_moves)
    fun _ _ => hs.trans

/-! ## Blocks -/

/-- The fields of a block that runs in the home context of the registers. -/
theorem Loaded.presentable_block (hl : Loaded g m.known m.heap m.regs)
    (hsender : Suits g m.known m.heap .context (xs Slot.sender))
    (hcaller : xs Slot.caller = m.known .nil) (hsp : xs Slot.sp = .ofNat (Slot.contextTail - 1))
    (hn : Slot.contextTail ≤ n) (hmethod : xs Slot.contextMethod = m.regs.method)
    (hhome : xs Slot.home = m.regs.homeContext) (harguments : ∃ i, xs Slot.blockArguments = .int i) :
    Presentable g m.known m.heap .blockContext n xs := by
  constructor
  case sender => exact hsender
  case caller => exact .inl hcaller
  case plain => exact nofun
  case method =>
    rw [hmethod]
    exact fun _ => hl.method_type
  case stack => exact fun _ => ⟨_, hsp, by decide, hn, nofun⟩
  case home =>
    rw [hmethod, hhome]
    exact fun _ _ => ⟨harguments, hl.home_type, hl.home_method⟩

/-- The new block is a presentable draft, and it is pushed. -/
theorem ensures_blockCopy (hm : Contained g m) (argc : UInt8) (length : UInt16) :
    Ensures (m = ·) (blockCopy argc length)
      (fun _ m' => ∃ n block xs m₁ m₂, IsDraft m .blockContext n block xs m₁ ∧
        Presentable g m.known m.heap .blockContext n xs ∧ push block m₁ = .ok () m₂ ∧
        m' = { m₂ with regs := { m₂.regs with ip := m.regs.ip + length.toNat } })
      fun _ m' => Stays g strict m m' := by
  refine ensures_get_bind (ensures_get_bind ?_)
  dsimp only
  generalize hsize : Slot.contextTail + m.settings.contextStackDepth = n
  have hn : Slot.contextTail ≤ n := hsize ▸ Nat.le_add_right ..
  have hslot : ∀ {i}, i < Slot.contextTail → i < n := fun hi => Nat.lt_of_lt_of_le hi hn
  refine Ensures.bind ((ensures_draft hm.framed.settled .blockContext (hslot (by decide))).weaken
    (fun _ => id) (fun _ _ => id) ?_) fun block => ?_
  · rintro _ _ rfl
    exact .refl hm
  refine .of_forall fun m₁ hd => ensures_get_bind ?_
  refine ensures_fetchField_bind (fun _ => ?_) fun sender hsender => ?_
  · exact (hm.presented (.inr rfl) hd (.blank hm.framed)).1.of_strict
  obtain ⟨h₁, hdrafted, rfl⟩ := id hd
  have hsender := (hdrafted.other _ _ _ (hdrafted.ne hm.exists_home)).mp hsender
  have hl := hm.loaded_of_home hsender
  have hsenderFills : Suits g m.known m.heap .context sender :=
    hm.framed.roles .context _ _ _ _ (.inl hl.home_type) rfl hsender
  refine Ensures.weaken (P := IsDraft m .blockContext n block fun _ => m.known .nil) ?_ ?_
    (fun _ _ => id) fun _ _ => id
  · refine (ensures_storeField_draft (hslot (by decide)) _ _).bind fun _ => ?_
    refine (ensures_storeField_draft (hslot (by decide)) _ _).bind fun _ => ?_
    refine (ensures_storeField_draft (hslot (by decide)) _ _).bind fun _ => ?_
    refine (ensures_storeField_draft (hslot (by decide)) _ _).bind fun _ => ?_
    refine (ensures_storeField_draft (hslot (by decide)) _ _).bind fun _ => ?_
    refine (ensures_storeField_draft (hslot (by decide)) _ _).bind fun _ => ?_
    refine (ensures_storeField_draft (hslot (by decide)) _ _).bind fun _ => ?_
    refine (ensures_storeField_draft (hslot (by decide)) _ _).bind fun _ => ?_
    refine .of_forall fun m₂ hd₂ => ?_
    obtain ⟨xs, hd₂, hp⟩ : ∃ xs, IsDraft m .blockContext n block xs m₂ ∧
        Presentable g m.known m.heap .blockContext n xs :=
      ⟨_, hd₂, hl.presentable_block hsenderFills rfl rfl hn rfl rfl ⟨_, rfl⟩⟩
    have hs : Stays g strict m m₂ := (hm.presented (.inr rfl) hd₂ hp).1.of_strict
    rintro _ rfl
    have hpush : Stays g strict m₂ (stateAfter (push block m₂)) := (yields_push hs.contained block).after
    rw [bind_run]
    cases hrun : push block m₂ with
    | ok u m₃ => exact ⟨n, block, xs, m₂, m₃, hd₂, hp, hrun, rfl⟩
    | error fault m₃ =>
        rw [hrun] at hpush
        exact hs.trans hpush
  · rintro _ rfl
    exact hd

/-- A block can be pushed for the code of the active context. -/
theorem yields_blockCopy (hm : Contained g m) (argc : UInt8) (length : UInt16) :
    Yields (Stays g strict) (blockCopy argc length) (fun _ _ => True) m := by
  refine Ensures.yields ((ensures_blockCopy hm argc length).weaken (fun _ => id) ?_ fun _ _ => id)
  rintro _ _ ⟨n, block, xs, m₁, m₂, hd, hp, hpush, rfl⟩
  have hs₁ : Stays g strict m m₁ := (hm.presented (.inr rfl) hd hp).1.of_strict
  have hs₂ : Stays g strict m₁ m₂ := ((yields_push hs₁.contained block).answer hpush).1
  exact ⟨(hs₁.trans hs₂).trans (hs₂.contained.withRegs_of_sp ⟨rfl, rfl, rfl, rfl, rfl, rfl⟩ rfl rfl
    hs₂.contained.wait), trivial⟩

/-- A context with `n` fields that `xs` lists runs a block from its start, with an empty stack. -/
structure CopyOf (m : Machine) (block caller : Value) (n : Nat) (xs : Nat → Value) : Prop where
  count : m.heap.fieldCount block = .ok n
  tail : Slot.contextTail ≤ n
  copied : ∀ i < Slot.contextTail, i ≠ Slot.ip → i ≠ Slot.sp → i ≠ Slot.caller →
    m.heap.fetchField block i = .ok (xs i)
  ip : xs Slot.ip = xs Slot.initialIp
  sp : xs Slot.sp = .ofNat (Slot.contextTail - 1)
  caller : xs Slot.caller = caller
  blank : ∀ i, Slot.contextTail ≤ i → xs i = m.known .nil

/-- The new context of a block, before its arguments are there. -/
theorem ensures_copyBlock (hsettled : m.heap.Settled) {block caller x : Value}
    (hcount : m.heap.fetchField block Slot.blockArguments = .ok x) :
    Ensures (m = ·) (instantiateBlock block caller)
      (fun c m' => ∃ n xs, IsDraft m .blockContext n c xs m' ∧ CopyOf m block caller n xs)
      fun _ m' => m = m' ∨ ∃ n c, IsDraft m .blockContext n c (fun _ => m.known .nil) m' := by
  refine ensures_readHeap_bind (fun _ => .inl rfl) fun n hn => ?_
  have hpos : 0 < n := Nat.zero_lt_of_lt (Heap.lt_of_fetchField hn hcount)
  refine Ensures.bind ((ensures_draft hsettled .blockContext hpos).weaken
    (fun _ => id) (fun _ _ => id) fun _ _ => .inl) fun c => ?_
  refine .of_forall fun m₁ hd₁ => ensures_transfer_draft_bind hd₁ (fun _ => .inr ⟨n, c, hd₁⟩) ?_
  intro xs m₂ hd₂ hsame hfits hmoved
  obtain ⟨h, hdrafted, rfl⟩ := id hd₂
  have hne : block ≠ c := hdrafted.ne (Heap.exists_typeOf_of_fetchField hcount)
  have hcopied : ∀ {i}, i < Slot.contextTail → m.heap.fetchField block i = .ok (xs i) := by
    intro i hi
    have hfetch := hmoved i hi hne
    rwa [Nat.zero_add] at hfetch
  have hslot : ∀ {i}, i < Slot.contextTail → i < n := fun hi =>
    Nat.lt_of_lt_of_le hi (Nat.zero_add Slot.contextTail ▸ hfits)
  have hinitial := (hdrafted.other block Slot.initialIp _ hne).mpr (hcopied (by decide))
  rintro _ rfl
  rw [fetchField_bind_run hinitial]
  revert hd₂
  generalize m.withHeap h = m₂
  intro hd₂
  revert m₂
  refine (ensures_storeField_draft (hslot (by decide)) _ _).bind fun _ => ?_
  refine (ensures_storeField_draft (hslot (by decide)) _ _).bind fun _ => ?_
  refine (ensures_storeField_draft (hslot (by decide)) _ _).bind fun _ => ?_
  refine Ensures.pure fun m' hd => ⟨n, _, hd, ?_⟩
  constructor
  case count => exact hn
  case tail => exact Nat.zero_add Slot.contextTail ▸ hfits
  case copied =>
    intro i hi hip hsp hcaller
    rw [Function.update_of_ne hcaller, Function.update_of_ne hsp, Function.update_of_ne hip]
    exact hcopied hi
  case ip => rfl
  case sp => rfl
  case caller => rfl
  case blank =>
    intro i hi
    have htail : ∀ {j}, j < Slot.contextTail → i ≠ j := fun hj heq =>
      absurd (heq ▸ hi) (Nat.not_le.mpr hj)
    rw [Function.update_of_ne (htail (by decide)), Function.update_of_ne (htail (by decide)),
      Function.update_of_ne (htail (by decide))]
    exact hsame i (.inr (Nat.zero_add Slot.contextTail ▸ hi))

/-- A copy of a block in shape is in shape. -/
theorem CopyOf.presentable (hm : Contained g m) {block caller : Value}
    (hblock : m.heap.typeOf block = .ok (m.known .blockContext))
    (hcaller : Suits g m.known m.heap .context caller) (hc : CopyOf m block caller n xs) :
    Presentable g m.known m.heap .blockContext n xs := by
  have hsender := hc.copied Slot.sender (by decide) (by decide) (by decide) (by decide)
  have hmethod := hc.copied Slot.contextMethod (by decide) (by decide) (by decide) (by decide)
  have hhome := hc.copied Slot.home (by decide) (by decide) (by decide) (by decide)
  have hcount := hc.copied Slot.blockArguments (by decide) (by decide) (by decide) (by decide)
  have hfitting : xs Slot.contextMethod ≠ m.known .nil → Fitting g m.known m.heap block := fun hne =>
    hm.framed.fitting block (.inr hblock) ⟨_, hmethod, hne⟩
  constructor
  case sender => exact hm.framed.roles .context block _ _ _ (.inr hblock) rfl hsender
  case caller => exact hc.caller ▸ hcaller
  case plain => exact nofun
  case method =>
    intro hne
    obtain ⟨method, t, hfetch, ht⟩ := (hfitting hne).method
    cases hfetch.symm.trans hmethod
    exact ⟨t, ht⟩
  case stack => exact fun _ => ⟨Slot.contextTail - 1, hc.sp, by decide, hc.tail, nofun⟩
  case home =>
    intro _ hne
    obtain ⟨⟨i, hi⟩, home, method, hhome', hhomeType, hfetch, hhomeMethod⟩ :=
      (hfitting hne).home hblock
    cases hhome'.symm.trans hhome
    cases hfetch.symm.trans hmethod
    exact ⟨⟨i, Except.ok.inj (hcount.symm.trans hi)⟩, hhomeType, hhomeMethod⟩

/-- The new context that runs a block, before its arguments are there. -/
theorem ensures_instantiateBlock (hm : Contained g m) {block caller x : Value}
    (hblock : m.heap.typeOf block = .ok (m.known .blockContext))
    (hcount : m.heap.fetchField block Slot.blockArguments = .ok x)
    (hcaller : Suits g m.known m.heap .context caller) :
    Ensures (m = ·) (instantiateBlock block caller)
      (fun c m' => ∃ n xs, IsDraft m .blockContext n c xs m' ∧
        Presentable g m.known m.heap .blockContext n xs) fun _ m' => Stays g strict m m' := by
  refine (ensures_copyBlock hm.framed.settled hcount).weaken (fun _ => id) ?_ ?_
  · rintro c m' ⟨n, xs, hd, hcopy⟩
    exact ⟨n, xs, hd, hcopy.presentable hm hblock hcaller⟩
  · rintro _ m' (rfl | ⟨n, c, hd⟩)
    · exact .refl hm
    · exact (hm.presented (.inr rfl) hd (.blank hm.framed)).1.of_strict

theorem yields_instantiateBlock (hm : Contained g m) {block caller x : Value}
    (hblock : m.heap.typeOf block = .ok (m.known .blockContext))
    (hcount : m.heap.fetchField block Slot.blockArguments = .ok x)
    (hcaller : Suits g m.known m.heap .context caller) :
    Yields (Stays g strict) (instantiateBlock block caller)
      (fun c m' => Live g m'.known m'.heap c) m := by
  refine Ensures.yields ((ensures_instantiateBlock hm hblock hcount hcaller).weaken (fun _ => id) ?_
    fun _ _ => id)
  rintro c m' ⟨n, xs, hd, hp⟩
  exact (hm.presented (.inr rfl) hd hp).imp_left Stays.of_strict

theorem blockArity_eq_ok {block : Value} {n : Nat} (harity : m.blockArity block = .ok n) :
    m.heap.fetchField block Slot.blockArguments = .ok (.ofNat n) := by
  obtain ⟨x, hx, hindex⟩ := reading_bind_eq_ok.mp harity
  rw [liftFault_eq_ok.mp hx, Value.index_eq_ok.mp (liftValueFault_eq_ok.mp hindex)]

/-- A block is evaluated with arguments from anywhere. -/
theorem ensures_activateBlock (hm : Contained g m) {block : Value}
    (hblock : m.heap.typeOf block = .ok (m.known .blockContext)) (source : Value)
    (first argc consumed : Nat) :
    Ensures (m = ·) (activateBlock block source first argc consumed)
      (fun _ m' => Moves g strict m m') fun _ m' => Stays g strict m m' := by
  refine (yields_read (Stays.refl hm)).ensures_bind (fun _ _ => id) ?_
  rintro expected _ - ⟨harity, rfl⟩
  have hcount := blockArity_eq_ok harity
  refine Ensures.ite (fun _ => ?_) fun _ => ?_
  · refine ensures_get_bind ?_
    refine (ensures_instantiateBlock hm hblock hcount hm.fills_active).bind fun c => ?_
    refine .of_forall ?_
    rintro m₁ ⟨n, xs, hd, hp⟩
    refine ensures_transfer_draft_bind hd (fun _ => (hm.presented (.inr rfl) hd hp).1.of_strict) ?_
    rintro ys m₂ hd₂ hsame hfits -
    have hlow : Slot.contextTail ≤ Slot.contextTail + argc - 1 + 1 := by
      simp only [Slot.contextTail]
      omega
    have hhigh : Slot.contextTail + argc - 1 < n := by
      simp only [Slot.contextTail] at hfits ⊢
      omega
    have hp₂ := (hp.congr fun i hi => hsame i (.inl hi)).pointer hlow hhigh
    refine Ensures.weaken (P := IsDraft m .blockContext n c ys) ?_ ?_ (fun _ _ => id) fun _ _ => id
    · refine (ensures_storeField_draft (Nat.lt_of_lt_of_le (by decide)
        (Nat.le_trans (Nat.le_add_right ..) hfits)) _ _).bind fun _ => .of_forall fun m₃ hd₃ => ?_
      obtain ⟨hs, hc⟩ := hm.presented (.inr rfl) hd₃ hp₂
      exact (ensures_leaveFor hs.contained hc _).weaken (fun _ => id)
        (fun _ _ => hs.of_strict.trans_moves) fun _ _ => hs.of_strict.trans
    · rintro _ rfl
      exact hd₂
  · rintro _ rfl
    exact Stays.refl hm

/-- The context of an evaluation with its arguments, before the one that evaluates is left. -/
theorem exists_copy_of_activateBlock (hsettled : m.heap.Settled) {block source : Value}
    {first argc consumed : Nat} {t : Machine}
    (hrun : activateBlock block source first argc consumed m = .ok () t) :
    ∃ c n xs ys m₁, CopyOf m block m.regs.activeContext n xs ∧
      IsDraft m .blockContext n c
        (Function.update ys Slot.sp (.ofNat (Slot.contextTail + argc - 1))) m₁ ∧
      (∀ i, i < Slot.contextTail ∨ Slot.contextTail + argc ≤ i → ys i = xs i) ∧
      Slot.contextTail + argc ≤ n ∧
      (∀ j < argc, source ≠ c → m.heap.fetchField source (first + j) = .ok (ys (Slot.contextTail + j))) ∧
      (do popN consumed; flush; reload c : MachineM Unit) m₁ = .ok () t := by
  obtain ⟨expected, m', hread, hrest⟩ := bind_eq_ok.mp hrun
  obtain ⟨harity, hsame⟩ := read_eq_ok.mp hread
  subst m'
  split at hrest
  case isFalse => cases hrest
  obtain ⟨_, _, hget, hrest⟩ := bind_eq_ok.mp hrest
  cases hget
  obtain ⟨c, m₁, hinstantiate, hrest⟩ := bind_eq_ok.mp hrest
  have hcopied :=
    @ensures_copyBlock m hsettled block m.regs.activeContext _ (blockArity_eq_ok harity) m rfl
  rw [hinstantiate] at hcopied
  obtain ⟨n, xs, ⟨h₁, hd, rfl⟩, hcopy⟩ := hcopied
  obtain ⟨_, m₂, htransfer, hrest⟩ := bind_eq_ok.mp hrest
  obtain ⟨h₂, hmove, rfl⟩ := onHeap_eq_ok.mp htransfer
  obtain ⟨ys, hd₂, hsame, hfits, hmoved⟩ :=
    hd.transferred (Heap.transferred_of_eq_ok hd.settled hmove)
  obtain ⟨_, m₃, hstore, hrest⟩ := bind_eq_ok.mp hrest
  obtain ⟨h₃, hput, rfl⟩ := onHeap_eq_ok.mp hstore
  have hd₃ := hd₂.stored (Heap.stored_of_eq_ok hd₂.settled hput)
  exact ⟨c, n, xs, ys, _, hcopy, ⟨h₃, hd₃, rfl⟩, hsame, hfits,
    fun j hj hne => (hd.other _ _ _ hne).mp (hmoved j hj), hrest⟩

/-! ## Requests from outside -/

/-- Arguments are stored into a draft. -/
theorem keeps_storeField_draft (i : Nat) (new : Value) :
    Keeps (fun m' => ∃ ys, IsDraft m type n c ys m' ∧ ∀ j < Slot.contextTail, ys j = xs j)
      (storeField c (Slot.contextTail + i) new) := by
  rintro _ ⟨ys, ⟨h, hd, rfl⟩, hsame⟩
  have houtcome :=
    ensures_storeField (m := m.withHeap h) hd.settled c (Slot.contextTail + i) new _ rfl
  cases hrun : storeField c (Slot.contextTail + i) new (m.withHeap h) with
  | ok u m' =>
      rw [hrun] at houtcome
      obtain ⟨h', hstored, rfl⟩ := houtcome
      refine ⟨_, ⟨h', hd.stored hstored, rfl⟩, fun j hj => ?_⟩
      rw [Function.update_of_ne (Nat.ne_of_lt (Nat.lt_of_lt_of_le hj (Nat.le_add_right ..))), hsame j hj]
  | error fault m' =>
      rw [hrun] at houtcome
      obtain rfl : m.withHeap h = m' := houtcome
      exact ⟨ys, ⟨h, hd, rfl⟩, hsame⟩

/-- The context of a request. -/
theorem yields_entryContext (hm : Contained g m) (method receiver : Value) (arguments : List Value) :
    Yields (Stays g strict) (entryContext method receiver arguments)
      (fun c m' => Live g m'.known m'.heap c) m := by
  refine yields_read_bind (.refl hm) fun header hread => ?_
  obtain ⟨v, hv, hof⟩ := reading_bind_eq_ok.mp hread
  have hv := liftFault_eq_ok.mp hv
  have hheader : HeaderOf m.heap method header := ⟨v, hv, liftValueFault_eq_ok.mp hof⟩
  refine Yields.ite (fun _ => Yields.ite (fun _ => ?_) fun _ => ?_) fun _ => ?_
  · refine yields_landmark_bind (Ensures.yields ?_)
    refine Ensures.bind ((ensures_newMethodContext hm (Heap.exists_typeOf_of_fetchField hv)
      (fun _ _ => hheader) (.inl rfl) receiver).weaken (fun _ => id) (fun _ _ => id) ?_) fun c => ?_
    · rintro _ _ rfl
      exact .refl hm
    refine .of_forall ?_
    rintro m₁ ⟨n, xs, hd, hp⟩
    have hpublish : ∀ m₂, (∃ ys, IsDraft m .methodContext n c ys m₂ ∧
        ∀ j < Slot.contextTail, ys j = xs j) →
        Stays g strict m m₂ ∧ Live g m₂.known m₂.heap c := fun m₂ ⟨ys, hd₂, hsame⟩ =>
      (hm.presented (.inl rfl) hd₂ (hp.congr hsame)).imp_left Stays.of_strict
    refine Ensures.bind ((Keeps.forM (P := fun m₂ => ∃ ys, IsDraft m .methodContext n c ys m₂ ∧
      ∀ j < Slot.contextTail, ys j = xs j) fun a _ => keeps_storeField_draft a.2 a.1).ensures.weaken
      ?_ (fun _ _ => id) fun _ m₂ hm₂ => (hpublish m₂ hm₂).1) fun _ => Ensures.pure hpublish
    rintro _ rfl
    exact ⟨xs, hd, fun _ _ => rfl⟩
  · exact Yields.throw (.refl hm)
  · exact Yields.throw (.refl hm)

end Machine

end MessageMachine
