import MessageMachine.Method.Header
import MessageMachine.Proofs.Heap.Draft

/-!
# Contexts, and the fields that lead to them

A context becomes active when it is made, when a context returns to it, or when its process is
switched to.  So it is reached through fields of the machine's own objects: the sender and the caller
of a context, the context of a process, the links with the processes, and the fields of the processor
and of semaphores that the links hang on.

* `Holder` lists the sorts of object with such fields, and `Holder.role` says what a field is for.
* `Framed g k h` says that these fields hold what they are for, and that every context that has a
  method is `Fitting`: its stack pointer is behind its temporaries and inside the context.
* `Stable g strict k h h'` says what is never changed: the fields of a context other than its pointers,
  its caller and its operand stack, and the headers of compiled methods.  Temporaries count among the
  fields that stay if `strict` is true.

`Framed.altered` is about changes of one object and `Framed.widened` about new objects; all that the
machine does comes down to these two.
-/

namespace MessageMachine

variable {k : Landmarks} {h h' h'' : Heap} {strict : Bool} {g : Regime}

/-! ## What is left alone -/

/-- What the programs of an execution leave alone, besides the fields of contexts. -/
structure Regime where
  /-- Blocks that no field leads to which is for a context. -/
  idle : Value → Prop
  /-- Whether the headers of compiled methods stay as they are. -/
  rigid : Prop

/-- All contexts may become active, and the headers of methods stay. -/
def Regime.plain : Regime := ⟨fun _ => False, True⟩

/-- One regime leaves nothing alone that the other does not. -/
structure Regime.Within (g' g : Regime) : Prop where
  idle : ∀ v, g'.idle v → g.idle v
  rigid : g'.rigid → g.rigid

/-! ## Objects of the machine -/

/-- The types of the objects that the machine makes for itself. -/
def ownTypes : List Landmark :=
  [.array, .compiledMethod, .methodContext, .blockContext, .process, .semaphore, .link]

/-- A context of a method or of a block. -/
def IsContext (k : Landmarks) (h : Heap) (v : Value) : Prop :=
  h.typeOf v = .ok (k .methodContext) ∨ h.typeOf v = .ok (k .blockContext)

/-- The sorts of object through which contexts are reached. -/
inductive Holder where
  | processor
  /-- The table with the interrupt semaphores. -/
  | interrupts
  | semaphore
  | link
  | process
  | context
  deriving DecidableEq

/-- The types of the objects of a sort; the processor has a type of its own. -/
def Holder.types : Holder → List Landmark
  | .processor => []
  | .interrupts => [.array]
  | .semaphore => [.semaphore]
  | .link => [.link]
  | .process => [.process]
  | .context => [.methodContext, .blockContext]

theorem Holder.types_own (x : Holder) : ∀ l ∈ x.types, l ∈ ownTypes := by
  cases x <;> decide

theorem Holder.types_disjoint (x y : Holder) : ∀ l ∈ x.types, l ∈ y.types → x = y := by
  cases x <;> cases y <;> decide

/-- The value is an object of the sort. -/
def Holder.Has (k : Landmarks) (h : Heap) : Holder → Value → Prop
  | .processor, v => v = k .processor
  | .interrupts, v => h.fetchField (k .processor) Slot.interruptTable = .ok v
  | .semaphore, v => h.typeOf v = .ok (k .semaphore)
  | .link, v => h.typeOf v = .ok (k .link)
  | .process, v => h.typeOf v = .ok (k .process)
  | .context, v => IsContext k h v

/-- What a field is for. -/
inductive Role where
  | link
  | process
  | semaphore
  | context

/-- The value can be used as the role says. -/
def Role.Plays (k : Landmarks) (h : Heap) : Role → Value → Prop
  | .link, v => h.typeOf v = .ok (k .link)
  | .process, v => h.typeOf v = .ok (k .process)
  | .semaphore, v => h.typeOf v = .ok (k .semaphore)
  | .context, v => IsContext k h v

/-- The value plays the role, or there is none. -/
def Fills (k : Landmarks) (h : Heap) (role : Role) (v : Value) : Prop :=
  v = k .nil ∨ role.Plays k h v

/-- A context that may become active: it is not one of the idle ones. -/
def Live (g : Regime) (k : Landmarks) (h : Heap) (c : Value) : Prop :=
  IsContext k h c ∧ ¬g.idle c

/-- The value plays the role, which no idle context does. -/
def Role.Serves (g : Regime) (k : Landmarks) (h : Heap) : Role → Value → Prop
  | .link, v => h.typeOf v = .ok (k .link)
  | .process, v => h.typeOf v = .ok (k .process)
  | .semaphore, v => h.typeOf v = .ok (k .semaphore)
  | .context, v => Live g k h v

/-- The value serves in the role, or there is none. -/
def Suits (g : Regime) (k : Landmarks) (h : Heap) (role : Role) (v : Value) : Prop :=
  v = k .nil ∨ role.Serves g k h v

/-- The roles of the fields of an object. -/
def Holder.role (x : Holder) (i : Nat) : Option Role :=
  match x with
  | .processor =>
    if i = Slot.activeProcess then some .process
    else if i = Slot.firstReady ∨ i = Slot.lastReady then some .link
    else none
  | .interrupts => some .semaphore
  | .semaphore => if i = Slot.firstWaiting ∨ i = Slot.lastWaiting then some .link else none
  | .link =>
    if i = Slot.linkValue then some .process
    else if i = Slot.linkNext then some .link
    else none
  | .process => if i = Slot.processContext then some .context else none
  | .context => if i = Slot.sender ∨ i = Slot.caller then some .context else none

/-! ## Contexts -/

/-- The header that can be read from a method. -/
def HeaderOf (h : Heap) (method : Value) (header : MethodHeader) : Prop :=
  ∃ v, h.fetchField method Slot.methodHeader = .ok v ∧ MethodHeader.ofValue v = .ok header

theorem HeaderOf.unique {method : Value} {header header' : MethodHeader}
    (hh : HeaderOf h method header) (hh' : HeaderOf h method header') : header = header' := by
  obtain ⟨v, hv, hof⟩ := hh
  obtain ⟨v', hv', hof'⟩ := hh'
  cases hv.symm.trans hv'
  exact Except.ok.inj (hof.symm.trans hof')

/-- The context has a method.  Code can make contexts, but those never get one. -/
def Filled (k : Landmarks) (h : Heap) (c : Value) : Prop :=
  ∃ method, h.fetchField c Slot.contextMethod = .ok method ∧ method ≠ k .nil

/-- The fields from `j` on are behind the temporaries of the context. -/
def Behind (k : Landmarks) (h : Heap) (c : Value) (j : Nat) : Prop :=
  ∀ method header, h.fetchField c Slot.contextMethod = .ok method →
    h.typeOf method = .ok (k .compiledMethod) → HeaderOf h method header →
    Slot.contextTail + header.temporaries.toNat ≤ j

/-- The field of a method context is one of its temporaries. -/
def Temporary (k : Landmarks) (h : Heap) (c : Value) (j : Nat) : Prop :=
  h.typeOf c = .ok (k .methodContext) ∧ Slot.contextTail ≤ j ∧ ∃ method header,
    h.fetchField c Slot.contextMethod = .ok method ∧ h.typeOf method = .ok (k .compiledMethod) ∧
      HeaderOf h method header ∧ j < Slot.contextTail + header.temporaries.toNat

/-- The value can be the stack pointer of the context.  Only as long as headers stay is it known to be
behind the temporaries. -/
def StackPointer (g : Regime) (k : Landmarks) (h : Heap) (c pointer : Value) : Prop :=
  ∃ n sp, pointer = .ofNat sp ∧ h.fieldCount c = .ok n ∧ Slot.contextTail ≤ sp + 1 ∧ sp < n ∧
    (g.rigid → h.typeOf c = .ok (k .methodContext) → Behind k h c (sp + 1))

/-- What is true of a context with a method. -/
structure Fitting (g : Regime) (k : Landmarks) (h : Heap) (c : Value) : Prop where
  method : ∃ method t, h.fetchField c Slot.contextMethod = .ok method ∧ h.typeOf method = .ok t
  stack : ∃ pointer, h.fetchField c Slot.sp = .ok pointer ∧ StackPointer g k h c pointer
  /-- A block context counts its arguments, and its home is a context of the same method. -/
  home : h.typeOf c = .ok (k .blockContext) →
    (∃ n, h.fetchField c Slot.blockArguments = .ok (.int n)) ∧
      ∃ home method, h.fetchField c Slot.home = .ok home ∧
        h.typeOf home = .ok (k .methodContext) ∧ h.fetchField c Slot.contextMethod = .ok method ∧
        h.fetchField home Slot.contextMethod = .ok method

/-- The machine's own objects hold what they should, and contexts are in shape. -/
structure Framed (g : Regime) (k : Landmarks) (h : Heap) : Prop where
  settled : h.Settled
  nil_empty : h.fieldCount (k .nil) = .ok 0
  distinct : ∀ l ∈ ownTypes, ∀ l' ∈ ownTypes, k l = k l' → l = l'
  processor : ∃ t, h.typeOf (k .processor) = .ok t ∧ ∀ l ∈ ownTypes, t ≠ k l
  interrupts : ∀ t, h.fetchField (k .processor) Slot.interruptTable = .ok t →
    h.typeOf t = .ok (k .array)
  roles : ∀ (x : Holder) v i role new, x.Has k h v → x.role i = some role →
    h.fetchField v i = .ok new → Suits g k h role new
  /-- Method contexts do not count arguments. -/
  plain : ∀ c x, h.typeOf c = .ok (k .methodContext) →
    h.fetchField c Slot.blockArguments = .ok x → x.isInt = false
  fitting : ∀ c, IsContext k h c → Filled k h c → Fitting g k h c
  blocks : ∀ b, g.idle b → h.typeOf b = .ok (k .blockContext)

/-- The fields of a context that are set when it is made. -/
def fixedSlots : List Nat :=
  [Slot.sender, Slot.contextMethod, Slot.receiver, Slot.home, Slot.initialIp, Slot.blockArguments]

/-- What is never changed.  Temporaries are included if `strict` is true. -/
structure Stable (g : Regime) (strict : Bool) (k : Landmarks) (h h' : Heap) : Prop where
  types : ∀ v t, h.typeOf v = .ok t → h'.typeOf v = .ok t
  counts : ∀ v n, (∃ t, h.typeOf v = .ok t) → (h'.fieldCount v = .ok n ↔ h.fieldCount v = .ok n)
  fixed : ∀ c i x, IsContext k h c → i ∈ fixedSlots → h.fetchField c i = .ok x →
    h'.fetchField c i = .ok x
  headers : g.rigid → ∀ method x, h.typeOf method = .ok (k .compiledMethod) →
    h.fetchField method Slot.methodHeader = .ok x → h'.fetchField method Slot.methodHeader = .ok x
  table : ∀ t, h.fetchField (k .processor) Slot.interruptTable = .ok t →
    h'.fetchField (k .processor) Slot.interruptTable = .ok t
  temporaries : g.rigid → strict = true → ∀ c j x, Temporary k h c j → h.fetchField c j = .ok x →
    h'.fetchField c j = .ok x
  spared : ∀ b i x, g.idle b → h.fetchField b i = .ok x → h'.fetchField b i = .ok x

/-! ## Types that stay -/

theorem IsContext.exists_type {c : Value} (hc : IsContext k h c) : ∃ t, h.typeOf c = .ok t :=
  hc.elim (⟨_, ·⟩) (⟨_, ·⟩)

theorem IsContext.mono (htypes : ∀ v t, h.typeOf v = .ok t → h'.typeOf v = .ok t) {c : Value}
    (hc : IsContext k h c) : IsContext k h' c :=
  hc.imp (htypes c _) (htypes c _)

theorem Role.Serves.plays {role : Role} {v : Value} (hv : role.Serves g k h v) :
    role.Plays k h v := by
  cases role with
  | link => exact hv
  | process => exact hv
  | semaphore => exact hv
  | context => exact hv.1

theorem Suits.fills {role : Role} {v : Value} (hv : Suits g k h role v) : Fills k h role v :=
  hv.imp_right Role.Serves.plays

/-- Where nothing is idle, what plays a role serves in it. -/
theorem Fills.suits {role : Role} {v : Value} (hv : Fills k h role v) :
    Suits .plain k h role v := by
  refine hv.imp_right fun hplays => ?_
  cases role with
  | link => exact hplays
  | process => exact hplays
  | semaphore => exact hplays
  | context => exact ⟨hplays, id⟩

theorem Live.mono (htypes : ∀ v t, h.typeOf v = .ok t → h'.typeOf v = .ok t) {c : Value}
    (hc : Live g k h c) : Live g k h' c :=
  hc.imp_left (IsContext.mono htypes)

theorem Role.Serves.mono (htypes : ∀ v t, h.typeOf v = .ok t → h'.typeOf v = .ok t) {role : Role}
    {v : Value} (hv : role.Serves g k h v) : role.Serves g k h' v := by
  cases role with
  | link => exact htypes v _ hv
  | process => exact htypes v _ hv
  | semaphore => exact htypes v _ hv
  | context => exact Live.mono htypes hv

/-- What is true under a regime is true under one within it. -/
theorem Suits.fewer {g' : Regime} (himp : g'.Within g) {role : Role} {v : Value}
    (hv : Suits g k h role v) : Suits g' k h role v := by
  refine hv.imp_right fun hserves => ?_
  cases role with
  | link => exact hserves
  | process => exact hserves
  | semaphore => exact hserves
  | context => exact ⟨hserves.1, fun hidle => hserves.2 (himp.idle v hidle)⟩

theorem StackPointer.fewer {g' : Regime} (himp : g'.rigid → g.rigid) {c pointer : Value}
    (hpointer : StackPointer g k h c pointer) : StackPointer g' k h c pointer := by
  obtain ⟨n, sp, heq, hn, hlow, hhigh, habove⟩ := hpointer
  exact ⟨n, sp, heq, hn, hlow, hhigh, fun hrigid => habove (himp hrigid)⟩

theorem Fitting.fewer {g' : Regime} (himp : g'.rigid → g.rigid) {c : Value} (hfitting : Fitting g k h c) :
    Fitting g' k h c :=
  ⟨hfitting.method, hfitting.stack.imp fun _ hstack => hstack.imp_right (.fewer himp), hfitting.home⟩

theorem Suits.mono (htypes : ∀ v t, h.typeOf v = .ok t → h'.typeOf v = .ok t) {role : Role}
    {v : Value} (hv : Suits g k h role v) : Suits g k h' role v :=
  hv.imp_right (Role.Serves.mono htypes)

/-- An object that existed has the type that it had. -/
theorem type_of_exists (htypes : ∀ v t, h.typeOf v = .ok t → h'.typeOf v = .ok t) {v t : Value}
    (hold : ∃ t, h.typeOf v = .ok t) (htype : h'.typeOf v = .ok t) : h.typeOf v = .ok t := by
  obtain ⟨t', ht'⟩ := hold
  rw [ht', ← htype, htypes v t' ht']

theorem isContext_of_exists (htypes : ∀ v t, h.typeOf v = .ok t → h'.typeOf v = .ok t) {c : Value}
    (hold : ∃ t, h.typeOf c = .ok t) (hc : IsContext k h' c) : IsContext k h c :=
  hc.imp (type_of_exists htypes hold) (type_of_exists htypes hold)

/-- A field that keeps whatever it had, in an object of the same size, had what it has. -/
theorem fetchField_back {v x : Value} {i : Nat}
    (hcount : ∀ n, h'.fieldCount v = .ok n → h.fieldCount v = .ok n)
    (hkeep : ∀ x, h.fetchField v i = .ok x → h'.fetchField v i = .ok x)
    (hx : h'.fetchField v i = .ok x) : h.fetchField v i = .ok x := by
  obtain ⟨n, hn⟩ := Heap.exists_count_of_fetchField hx
  obtain ⟨y, hy⟩ := Heap.exists_fetchField (hcount n hn) (Heap.lt_of_fetchField hn hx)
  cases hx.symm.trans (hkeep y hy)
  exact hy

namespace Stable

theorem refl (strict : Bool) (k : Landmarks) (h : Heap) : Stable g strict k h h :=
  ⟨fun _ _ => id, fun _ _ _ => Iff.rfl, fun _ _ _ _ _ => id, fun _ _ _ _ => id, fun _ => id,
    fun _ _ _ _ _ _ => id, fun _ _ _ _ => id⟩

/-- What is kept even in the strict sense is kept. -/
theorem of_strict (hk : Stable g true k h h') : Stable g strict k h h' :=
  ⟨hk.types, hk.counts, hk.fixed, hk.headers, hk.table, fun hrigid _ => hk.temporaries hrigid rfl, hk.spared⟩

theorem header_iff (hk : Stable g strict k h h') (hrigid : g.rigid) {method x : Value}
    (htype : h.typeOf method = .ok (k .compiledMethod)) :
    h'.fetchField method Slot.methodHeader = .ok x ↔ h.fetchField method Slot.methodHeader = .ok x :=
  ⟨fetchField_back (fun n => (hk.counts method n ⟨_, htype⟩).mp) fun x => hk.headers hrigid method x htype,
    hk.headers hrigid method x htype⟩

theorem headerOf_iff (hk : Stable g strict k h h') (hrigid : g.rigid) {method : Value} {header : MethodHeader}
    (htype : h.typeOf method = .ok (k .compiledMethod)) :
    HeaderOf h' method header ↔ HeaderOf h method header := by
  unfold HeaderOf
  simp only [hk.header_iff hrigid htype]

theorem fixed_iff (hk : Stable g strict k h h') {c x : Value} {i : Nat} (hc : IsContext k h c)
    (hi : i ∈ fixedSlots) : h'.fetchField c i = .ok x ↔ h.fetchField c i = .ok x :=
  ⟨fetchField_back (fun n => (hk.counts c n hc.exists_type).mp) fun x => hk.fixed c i x hc hi,
    hk.fixed c i x hc hi⟩

theorem method_iff (hk : Stable g strict k h h') {c x : Value} (hc : IsContext k h c) :
    h'.fetchField c Slot.contextMethod = .ok x ↔ h.fetchField c Slot.contextMethod = .ok x :=
  hk.fixed_iff hc (by decide)

theorem filled_iff (hk : Stable g strict k h h') {c : Value} (hc : IsContext k h c) :
    Filled k h' c ↔ Filled k h c := by
  unfold Filled
  simp only [hk.method_iff hc]

theorem above (hk : Stable g strict k h h') (hrigid : g.rigid) {c : Value} {j : Nat} (hc : IsContext k h c)
    (hexists : ∃ method t, h.fetchField c Slot.contextMethod = .ok method ∧ h.typeOf method = .ok t)
    (habove : Behind k h c j) : Behind k h' c j := by
  obtain ⟨method₀, t, hmethod₀, ht⟩ := hexists
  intro method header hmethod htype hheader
  have hmethod := (hk.method_iff hc).mp hmethod
  cases hmethod₀.symm.trans hmethod
  have htype := type_of_exists hk.types ⟨t, ht⟩ htype
  exact habove method₀ header hmethod htype ((hk.headerOf_iff hrigid htype).mp hheader)

theorem stackPointer (hk : Stable g strict k h h') {c pointer : Value} (hc : IsContext k h c)
    (hexists : ∃ method t, h.fetchField c Slot.contextMethod = .ok method ∧ h.typeOf method = .ok t)
    (hpointer : StackPointer g k h c pointer) : StackPointer g k h' c pointer := by
  obtain ⟨n, sp, rfl, hn, hlow, hhigh, habove⟩ := hpointer
  refine ⟨n, sp, rfl, (hk.counts c n hc.exists_type).mpr hn, hlow, hhigh, fun hrigid htype => ?_⟩
  exact hk.above hrigid hc hexists (habove hrigid (type_of_exists hk.types hc.exists_type htype))

/-- A context whose stack pointer is in place stays in shape. -/
theorem fitting (hk : Stable g strict k h h') {c : Value} (hc : IsContext k h c)
    (hfitting : Fitting g k h c)
    (hstack : ∃ pointer, h'.fetchField c Slot.sp = .ok pointer ∧ StackPointer g k h c pointer) :
    Fitting g k h' c := by
  obtain ⟨method, t, hmethod, ht⟩ := hfitting.method
  refine ⟨⟨method, t, (hk.method_iff hc).mpr hmethod, hk.types method t ht⟩, ?_, fun htype => ?_⟩
  · obtain ⟨pointer, hfetch, hpointer⟩ := hstack
    exact ⟨pointer, hfetch, hk.stackPointer hc hfitting.method hpointer⟩
  · obtain ⟨⟨n, hn⟩, home, method', hhome, hhomeType, hmethod', hhomeMethod⟩ :=
      hfitting.home (type_of_exists hk.types hc.exists_type htype)
    exact ⟨⟨n, hk.fixed c _ _ hc (by decide) hn⟩, home, method', hk.fixed c _ _ hc (by decide) hhome,
      hk.types home _ hhomeType, (hk.method_iff hc).mpr hmethod',
      (hk.method_iff (.inl hhomeType)).mpr hhomeMethod⟩

theorem temporary_iff (hk : Stable g strict k h h') (hrigid : g.rigid) {c : Value} {j : Nat} (hc : IsContext k h c)
    (hexists : ∃ method t, h.fetchField c Slot.contextMethod = .ok method ∧ h.typeOf method = .ok t) :
    Temporary k h' c j ↔ Temporary k h c j := by
  obtain ⟨method₀, t, hmethod₀, ht⟩ := hexists
  constructor
  · rintro ⟨htype, hle, method, header, hmethod, hmethodType, hheader, hlt⟩
    have hmethod := (hk.method_iff hc).mp hmethod
    cases hmethod₀.symm.trans hmethod
    have hmethodType := type_of_exists hk.types ⟨t, ht⟩ hmethodType
    exact ⟨type_of_exists hk.types hc.exists_type htype, hle, method₀, header, hmethod, hmethodType,
      (hk.headerOf_iff hrigid hmethodType).mp hheader, hlt⟩
  · rintro ⟨htype, hle, method, header, hmethod, hmethodType, hheader, hlt⟩
    exact ⟨hk.types c _ htype, hle, method, header, (hk.method_iff hc).mpr hmethod,
      hk.types method _ hmethodType, (hk.headerOf_iff hrigid hmethodType).mpr hheader, hlt⟩

theorem temporary (hk : Stable g strict k h h') (hrigid : g.rigid) {c : Value} {j : Nat} (ht : Temporary k h c j) :
    Temporary k h' c j := by
  obtain ⟨htype, -, method, -, hmethod, hmethodType, -⟩ := id ht
  exact (hk.temporary_iff hrigid (.inl htype) ⟨method, _, hmethod, hmethodType⟩).mpr ht

theorem trans (hfirst : Stable g strict k h h') (hsecond : Stable g strict k h' h'') :
    Stable g strict k h h'' := by
  refine ⟨fun v t ht => hsecond.types v t (hfirst.types v t ht), ?_, ?_, ?_,
    fun t ht => hsecond.table t (hfirst.table t ht), ?_,
    fun b i x hb hx => hsecond.spared b i x hb (hfirst.spared b i x hb hx)⟩
  · rintro v n ⟨t, ht⟩
    exact (hsecond.counts v n ⟨t, hfirst.types v t ht⟩).trans (hfirst.counts v n ⟨t, ht⟩)
  · intro c i x hc hi hx
    exact hsecond.fixed c i x (hc.mono hfirst.types) hi (hfirst.fixed c i x hc hi hx)
  · intro hrigid method x htype hx
    exact hsecond.headers hrigid method x (hfirst.types method _ htype)
      (hfirst.headers hrigid method x htype hx)
  · intro hrigid hstrict c j x htemporary hx
    exact hsecond.temporaries hrigid hstrict c j x (hfirst.temporary hrigid htemporary)
      (hfirst.temporaries hrigid hstrict c j x htemporary hx)

end Stable

/-! ## Sorts of object -/

namespace Framed

theorem fewer {g' : Regime} (hf : Framed g k h) (himp : g'.Within g) : Framed g' k h :=
  ⟨hf.settled, hf.nil_empty, hf.distinct, hf.processor, hf.interrupts,
    fun x v i role new hx hrole hfetch => (hf.roles x v i role new hx hrole hfetch).fewer himp,
    hf.plain, fun c hc hfilled => (hf.fitting c hc hfilled).fewer himp.rigid,
    fun b hb => hf.blocks b (himp.idle b hb)⟩

theorem nil_fetchField (hf : Framed g k h) (i : Nat) (x : Value) :
    h.fetchField (k .nil) i ≠ .ok x := by
  intro hfetch
  exact absurd (Heap.lt_of_fetchField hf.nil_empty hfetch) (Nat.not_lt_zero i)

/-- What has fields is not nil, so it plays its role. -/
theorem plays_of_fetchField (hf : Framed g k h) {role : Role} {v x : Value} {i : Nat}
    (hv : Suits g k h role v) (hfetch : h.fetchField v i = .ok x) : role.Serves g k h v := by
  refine hv.resolve_left ?_
  rintro rfl
  exact hf.nil_fetchField i x hfetch

theorem type_of_has (hf : Framed g k h) {x : Holder} {v : Value} (hx : x.Has k h v)
    (hprocessor : x ≠ .processor) : ∃ l ∈ x.types, h.typeOf v = .ok (k l) := by
  cases x with
  | processor => exact absurd rfl hprocessor
  | interrupts => exact ⟨.array, by decide, hf.interrupts v hx⟩
  | semaphore => exact ⟨.semaphore, by decide, hx⟩
  | link => exact ⟨.link, by decide, hx⟩
  | process => exact ⟨.process, by decide, hx⟩
  | context => exact hx.elim (⟨.methodContext, by decide, ·⟩) (⟨.blockContext, by decide, ·⟩)

theorem type_unique (hf : Framed g k h) {v : Value} {l l' : Landmark} (hl : l ∈ ownTypes)
    (hl' : l' ∈ ownTypes) (htype : h.typeOf v = .ok (k l)) (htype' : h.typeOf v = .ok (k l')) :
    l = l' := hf.distinct l hl l' hl' (Except.ok.inj (htype.symm.trans htype'))

/-- Only blocks are idle. -/
theorem not_idle (hf : Framed g k h) {c : Value} (htype : h.typeOf c = .ok (k .methodContext)) :
    ¬g.idle c := by
  intro hidle
  have hkind := hf.type_unique (by decide) (by decide) htype (hf.blocks c hidle)
  cases hkind

theorem processor_type (hf : Framed g k h) {l : Landmark} (hl : l ∈ ownTypes) :
    h.typeOf (k .processor) ≠ .ok (k l) := by
  obtain ⟨t, ht, hne⟩ := hf.processor
  rw [ht]
  exact fun heq => hne l hl (Except.ok.inj heq)

/-- An object is of one sort only. -/
theorem has_unique (hf : Framed g k h) {x y : Holder} {v : Value} (hx : x.Has k h v)
    (hy : y.Has k h v) : x = y := by
  by_cases hxp : x = .processor
  · by_cases hyp : y = .processor
    · rw [hxp, hyp]
    · subst hxp
      obtain ⟨l, hl, htype⟩ := hf.type_of_has hy hyp
      rw [show v = k .processor from hx] at htype
      exact absurd htype (hf.processor_type (y.types_own l hl))
  · obtain ⟨l, hl, htype⟩ := hf.type_of_has hx hxp
    by_cases hyp : y = .processor
    · subst hyp
      rw [show v = k .processor from hy] at htype
      exact absurd htype (hf.processor_type (x.types_own l hl))
    · obtain ⟨l', hl', htype'⟩ := hf.type_of_has hy hyp
      obtain rfl := hf.type_unique (x.types_own l hl) (y.types_own l' hl') htype htype'
      exact x.types_disjoint y l hl hl'

/-- A compiled method is of none of the sorts. -/
theorem not_has_of_method (hf : Framed g k h) {x : Holder} {v : Value}
    (hv : h.typeOf v = .ok (k .compiledMethod)) : ¬x.Has k h v := by
  intro hx
  by_cases hxp : x = .processor
  · subst hxp
    rw [show v = k .processor from hx] at hv
    exact hf.processor_type (by decide) hv
  · obtain ⟨l, hl, htype⟩ := hf.type_of_has hx hxp
    obtain rfl := hf.type_unique (by decide) (x.types_own l hl) hv htype
    revert hl
    cases x <;> decide

end Framed

end MessageMachine
