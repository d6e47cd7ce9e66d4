import MessageMachine.Machine.Context
import MessageMachine.Proofs.Frame.Changes
import MessageMachine.Proofs.Machine.Access

/-!
# The operand stack of the active context

`Loaded g k h r` says that the registers `r` are those of a context in shape: the operand stack starts
behind the temporaries, and the stack pointer is inside it or just below it.  A machine is
`Contained` if its objects are in shape and either nothing is active or the registers are loaded.

The lemmas of this file take the actions on registers and stack one by one.  They are stated with
`Yields` for one of three relations:

* `Stays g strict m m'`: the same context is active in both, and between them nothing has changed but
  what may (`Stable`);
* `Rests g strict m m'`: the same, but in the end there may be no active context;
* `Moves g strict m m'`: the same, but another context may have become active.

The contexts that are not active are `Dormant` in the first two.  In the third one of them may have been
woken, so that they are `Frozen` only as far as their stacks reach.  This does not go on after a
context has been woken, so `Moves` is the end of a chain of which the other relations are the links.
-/

namespace MessageMachine

namespace Machine

variable {m m' m'' : Machine} {k : Landmarks} {h h' : Heap} {r r' : Registers} {strict : Bool}
  {g : Regime}

/-! ## Loaded registers -/

/-- The registers are those of a context in shape.  What is said of compiled methods need not be true
of other objects that are used as methods, since code can change their headers. -/
structure Loaded (g : Regime) (k : Landmarks) (h : Heap) (r : Registers) : Prop where
  context : IsContext k h r.activeContext
  live : ¬g.idle r.activeContext
  method : h.fetchField r.activeContext Slot.contextMethod = .ok r.method
  method_ne : r.method ≠ k .nil
  method_type : ∃ t, h.typeOf r.method = .ok t
  method_size : ∃ n, h.fieldCount r.method = .ok n ∧ Slot.methodCode < n
  home_type : h.typeOf r.homeContext = .ok (k .methodContext)
  home_method : h.fetchField r.homeContext Slot.contextMethod = .ok r.method
  home_eq : h.typeOf r.activeContext = .ok (k .methodContext) → r.homeContext = r.activeContext
  limit : h.fieldCount r.activeContext = .ok r.stackLimit
  base_method : h.typeOf r.activeContext = .ok (k .methodContext) →
    r.stackBase = Slot.contextTail + r.tempCount
  base_block : h.typeOf r.activeContext = .ok (k .blockContext) → r.stackBase = Slot.contextTail
  low : Slot.contextTail ≤ r.sp + 1
  high : r.sp < r.stackLimit
  header : g.rigid → h.typeOf r.method = .ok (k .compiledMethod) →
    ∃ header, HeaderOf h r.method header ∧ r.tempCount = header.temporaries.toNat
  above : g.rigid → h.typeOf r.method = .ok (k .compiledMethod) → r.stackBase ≤ r.sp + 1

/-- The same context is active, with the same operand stack area. -/
structure SameFrame (r r' : Registers) : Prop where
  context : r'.activeContext = r.activeContext
  home : r'.homeContext = r.homeContext
  method : r'.method = r.method
  base : r'.stackBase = r.stackBase
  limit : r'.stackLimit = r.stackLimit
  temps : r'.tempCount = r.tempCount

theorem SameFrame.refl (r : Registers) : SameFrame r r := ⟨rfl, rfl, rfl, rfl, rfl, rfl⟩

theorem SameFrame.trans {r'' : Registers} (hfirst : SameFrame r r') (hsecond : SameFrame r' r'') :
    SameFrame r r'' :=
  ⟨hsecond.context.trans hfirst.context, hsecond.home.trans hfirst.home,
    hsecond.method.trans hfirst.method, hsecond.base.trans hfirst.base,
    hsecond.limit.trans hfirst.limit, hsecond.temps.trans hfirst.temps⟩

namespace Loaded

theorem tail (hl : Loaded g k h r) : Slot.contextTail ≤ r.stackBase := by
  rcases hl.context with htype | htype
  · rw [hl.base_method htype]
    exact Nat.le_add_right _ _
  · rw [hl.base_block htype]

/-- Changes that keep what has to be kept do not concern the registers. -/
theorem kept (hl : Loaded g k h r) (hk : Stable g strict k h h') : Loaded g k h' r := by
  have hexists := hl.context.exists_type
  have hmethod : h'.typeOf r.method = .ok (k .compiledMethod) →
      h.typeOf r.method = .ok (k .compiledMethod) := type_of_exists hk.types hl.method_type
  refine ⟨hl.context.mono hk.types, hl.live, (hk.method_iff hl.context).mpr hl.method, hl.method_ne,
    hl.method_type.imp fun t => hk.types _ t,
    hl.method_size.imp fun n hn => ⟨(hk.counts _ n hl.method_type).mpr hn.1, hn.2⟩,
    hk.types _ _ hl.home_type,
    (hk.method_iff (.inl hl.home_type)).mpr hl.home_method,
    fun htype => hl.home_eq (type_of_exists hk.types hexists htype),
    (hk.counts _ _ hexists).mpr hl.limit,
    fun htype => hl.base_method (type_of_exists hk.types hexists htype),
    fun htype => hl.base_block (type_of_exists hk.types hexists htype), hl.low, hl.high, ?_,
    fun hrigid htype => hl.above hrigid (hmethod htype)⟩
  intro hrigid htype
  obtain ⟨header, hheader, htemps⟩ := hl.header hrigid (hmethod htype)
  exact ⟨header, (hk.headerOf_iff hrigid (hmethod htype)).mpr hheader, htemps⟩

/-- The same context with another stack pointer. -/
theorem same (hl : Loaded g k h r) (hs : SameFrame r r') (hlow : Slot.contextTail ≤ r'.sp + 1)
    (hhigh : r'.sp < r.stackLimit)
    (habove : g.rigid → h.typeOf r.method = .ok (k .compiledMethod) → r.stackBase ≤ r'.sp + 1) :
    Loaded g k h r' := by
  obtain ⟨hcontext, hhome, hmethod, hbase, hlimit, htemps⟩ := hs
  constructor
  case context => rw [hcontext]; exact hl.context
  case live => rw [hcontext]; exact hl.live
  case method => rw [hcontext, hmethod]; exact hl.method
  case method_ne => rw [hmethod]; exact hl.method_ne
  case method_type => rw [hmethod]; exact hl.method_type
  case method_size => rw [hmethod]; exact hl.method_size
  case home_type => rw [hhome]; exact hl.home_type
  case home_method => rw [hhome, hmethod]; exact hl.home_method
  case home_eq => rw [hcontext, hhome]; exact hl.home_eq
  case limit => rw [hcontext, hlimit]; exact hl.limit
  case base_method => rw [hcontext, hbase, htemps]; exact hl.base_method
  case base_block => rw [hcontext, hbase]; exact hl.base_block
  case low => exact hlow
  case high => rw [hlimit]; exact hhigh
  case header => rw [hmethod, htemps]; exact hl.header
  case above => rw [hmethod, hbase]; exact habove

/-- The stack pointer of the registers can be that of the context. -/
theorem stackPointer (hl : Loaded g k h r) : StackPointer g k h r.activeContext (.ofNat r.sp) := by
  refine ⟨r.stackLimit, r.sp, rfl, hl.limit, hl.low, hl.high, fun hrigid htype => ?_⟩
  intro method header hmethod hcompiled hheader
  cases hl.method.symm.trans hmethod
  obtain ⟨header', hheader', htemps⟩ := hl.header hrigid hcompiled
  rw [hheader.unique hheader', ← htemps, ← hl.base_method htype]
  exact hl.above hrigid hcompiled

/-- Fields behind the stack base are no temporaries. -/
theorem not_temporary (hl : Loaded g k h r) (hrigid : g.rigid) {j : Nat}
    (hj : h.typeOf r.method = .ok (k .compiledMethod) → r.stackBase ≤ j) :
    ¬Temporary k h r.activeContext j := by
  rintro ⟨htype, -, method, header, hmethod, hcompiled, hheader, hlt⟩
  cases hl.method.symm.trans hmethod
  obtain ⟨header', hheader', htemps⟩ := hl.header hrigid hcompiled
  rw [hheader.unique hheader', ← htemps, ← hl.base_method htype] at hlt
  exact absurd (hj hcompiled) (Nat.not_le.mpr hlt)

end Loaded

/-! ## Contained machines -/

/-- The objects of the machine are in shape, and so are its registers. -/
structure Contained (g : Regime) (m : Machine) : Prop where
  framed : Framed g m.known m.heap
  frame : m.regs.activeContext = m.known .nil ∧ m.regs.homeContext = m.known .nil ∨
    Loaded g m.known m.heap m.regs
  entry : m.heap.typeOf m.regs.entryProcess = .ok (m.known .process)
  wait : m.regs.entryWait = m.known .nil ∨
    m.heap.typeOf m.regs.entryWait = .ok (m.known .semaphore)

/-- Contexts that are not active are as they were, except that the home context may have been left, and
its temporaries may have changed if `strict` is false. -/
def Dormant (strict : Bool) (m m' : Machine) : Prop :=
  ∀ c i x, IsContext m.known m.heap c → c ≠ m.regs.activeContext → m.heap.fetchField c i = .ok x →
    m'.heap.fetchField c i = .ok x ∨ c = m.regs.homeContext ∧
      (i = Slot.ip ∧ m'.heap.fetchField c i = .ok (m.known .nil) ∨
        strict = false ∧ Slot.contextTail ≤ i ∧ i < Slot.contextTail + m.regs.tempCount)

/-- The same context is active, and nothing has changed but what may. -/
structure Stays (g : Regime) (strict : Bool) (m m' : Machine) : Prop where
  contained : Contained g m'
  known : m'.known = m.known
  kept : Stable g strict m.known m.heap m'.heap
  same : SameFrame m.regs m'.regs
  others : Dormant strict m m'

/-- The field is not above the top of the stack of the context, which its stack pointer says. -/
def Reaches (h : Heap) (c : Value) (i : Nat) : Prop :=
  Slot.contextTail ≤ i → ∀ sp : Nat, h.fetchField c Slot.sp = .ok (.ofNat sp) → i ≤ sp

/-- Contexts that are not active are as they were up to the tops of their stacks, except that the home
context may have been left, and its temporaries may have changed if `strict` is false. -/
def Frozen (strict : Bool) (m m' : Machine) : Prop :=
  ∀ c i x, IsContext m.known m.heap c → c ≠ m.regs.activeContext → Reaches m.heap c i →
    m.heap.fetchField c i = .ok x →
    m'.heap.fetchField c i = .ok x ∨ c = m.regs.homeContext ∧
      (i = Slot.ip ∧ m'.heap.fetchField c i = .ok (m.known .nil) ∨
        strict = false ∧ Slot.contextTail ≤ i ∧ i < Slot.contextTail + m.regs.tempCount)

/-- The same context is active, or none, and nothing has changed but what may. -/
structure Rests (g : Regime) (strict : Bool) (m m' : Machine) : Prop where
  contained : Contained g m'
  known : m'.known = m.known
  kept : Stable g strict m.known m.heap m'.heap
  same : SameFrame m.regs m'.regs ∨
    m'.regs.activeContext = m.known .nil ∧ m'.regs.homeContext = m.known .nil
  others : Dormant strict m m'

/-- Nothing has changed but what may, and which context is active. -/
structure Moves (g : Regime) (strict : Bool) (m m' : Machine) : Prop where
  contained : Contained g m'
  known : m'.known = m.known
  kept : Stable g strict m.known m.heap m'.heap
  others : Frozen strict m m'

namespace Dormant

/-- Where no context has been changed, none has been disturbed. -/
theorem of_contexts (hsame : ∀ c i x, IsContext m.known m.heap c → m.heap.fetchField c i = .ok x →
    m'.heap.fetchField c i = .ok x) : Dormant strict m m' :=
  fun c i x hc _ hx => .inl (hsame c i x hc hx)

theorem refl (strict : Bool) (m : Machine) : Dormant strict m m :=
  of_contexts fun _ _ _ _ => id

theorem of_strict (ho : Dormant true m m') : Dormant strict m m' := by
  intro c i x hc hne hx
  refine (ho c i x hc hne hx).imp_right fun ⟨hhome, hor⟩ => ⟨hhome, .inl ?_⟩
  exact hor.resolve_right fun hfalse => absurd hfalse.1 (by decide)

/-- The contexts that are not active are those that were not active before, and so is the home. -/
theorem trans (hfirst : Dormant strict m m') (hsecond : Dormant strict m' m'')
    (hknown : m'.known = m.known) (htypes : ∀ v t, m.heap.typeOf v = .ok t → m'.heap.typeOf v = .ok t)
    (hactive : ∀ c i x, m.heap.fetchField c i = .ok x → c ≠ m.regs.activeContext →
      c ≠ m'.regs.activeContext)
    (hhome : ∀ c i x, m.heap.fetchField c i = .ok x → c = m'.regs.homeContext →
      c = m.regs.homeContext ∧ m'.regs.tempCount = m.regs.tempCount) : Dormant strict m m'' := by
  intro c i x hc hne hx
  have hc' : IsContext m'.known m'.heap c := hknown ▸ hc.mono htypes
  have hne' : c ≠ m'.regs.activeContext := hactive c i x hx hne
  rcases hfirst c i x hc hne hx with hx' | ⟨hleft, ⟨hi, hnil⟩ | htemporary⟩
  · refine (hsecond c i x hc' hne' hx').imp_right fun ⟨hc'', hor⟩ => ?_
    obtain ⟨heq, htemps⟩ := hhome c i x hx hc''
    rw [htemps, hknown] at hor
    exact ⟨heq, hor⟩
  · -- a context that has been left can only be left again
    rcases hsecond c i _ hc' hne' hnil with hnil' | ⟨hc'', hor⟩
    · exact .inr ⟨hleft, .inl ⟨hi, hnil'⟩⟩
    · obtain ⟨-, htemps⟩ := hhome c i x hx hc''
      rw [htemps, hknown] at hor
      exact .inr ⟨hleft, hor⟩
  · exact .inr ⟨hleft, .inr htemporary⟩

/-- The stack pointers of contexts that are not active are those that they had. -/
theorem fetchField_sp (ho : Dormant strict m m') {c x : Value} (hc : IsContext m.known m.heap c)
    (hne : c ≠ m.regs.activeContext) (hx : m.heap.fetchField c Slot.sp = .ok x) :
    m'.heap.fetchField c Slot.sp = .ok x := by
  rcases ho c _ x hc hne hx with hx' | ⟨-, ⟨hi, -⟩ | ⟨-, hi, -⟩⟩
  · exact hx'
  · cases hi
  · exact absurd hi (by decide)

theorem frozen (ho : Dormant strict m m') : Frozen strict m m' :=
  fun c i x hc hne _ hx => ho c i x hc hne hx

end Dormant

theorem Stays.rests (hs : Stays g strict m m') : Rests g strict m m' :=
  ⟨hs.contained, hs.known, hs.kept, .inl hs.same, hs.others⟩

theorem Rests.moves (hs : Rests g strict m m') : Moves g strict m m' :=
  ⟨hs.contained, hs.known, hs.kept, hs.others.frozen⟩

theorem Stays.moves (hs : Stays g strict m m') : Moves g strict m m' := hs.rests.moves

theorem Stays.of_strict (hs : Stays g true m m') : Stays g strict m m' :=
  ⟨hs.contained, hs.known, hs.kept.of_strict, hs.same, hs.others.of_strict⟩

theorem Stays.refl (hm : Contained g m) : Stays g strict m m :=
  ⟨hm, rfl, .refl .., .refl _, Dormant.refl strict m⟩

namespace Rests

/-- Nil has no fields. -/
theorem ne_nil (hs : Rests g strict m m') {c x : Value} {i : Nat}
    (hx : m.heap.fetchField c i = .ok x) : c ≠ m.known .nil := by
  rintro rfl
  obtain ⟨n, hn⟩ := Heap.exists_count_of_fetchField hx
  have hcount := (hs.kept.counts _ n (Heap.exists_typeOf_of_fetchField hx)).mpr hn
  have hempty := hs.contained.framed.nil_empty
  rw [hs.known, hcount] at hempty
  have hlt := Heap.lt_of_fetchField hn hx
  rw [Except.ok.inj hempty] at hlt
  exact absurd hlt (Nat.not_lt_zero _)

theorem ne_active (hs : Rests g strict m m') {c x : Value} {i : Nat}
    (hx : m.heap.fetchField c i = .ok x) (hne : c ≠ m.regs.activeContext) :
    c ≠ m'.regs.activeContext := by
  rcases hs.same with hsame | ⟨hnil, -⟩
  · rwa [hsame.context]
  · rw [hnil]
    exact hs.ne_nil hx

theorem eq_home (hs : Rests g strict m m') {c x : Value} {i : Nat}
    (hx : m.heap.fetchField c i = .ok x) (heq : c = m'.regs.homeContext) :
    c = m.regs.homeContext ∧ m'.regs.tempCount = m.regs.tempCount := by
  rcases hs.same with hsame | ⟨-, hnil⟩
  · exact ⟨heq.trans hsame.home, hsame.temps⟩
  · exact absurd (heq.trans hnil) (hs.ne_nil hx)

theorem kept_trans (hfirst : Rests g strict m m') (hknown : m''.known = m'.known)
    (hkept : Stable g strict m'.known m'.heap m''.heap) :
    m''.known = m.known ∧ Stable g strict m.known m.heap m''.heap := by
  refine ⟨hknown.trans hfirst.known, hfirst.kept.trans ?_⟩
  rw [← hfirst.known]
  exact hkept

theorem trans (hfirst : Rests g strict m m') (hsecond : Rests g strict m' m'') :
    Rests g strict m m'' := by
  obtain ⟨hknown, hkept⟩ := hfirst.kept_trans hsecond.known hsecond.kept
  refine ⟨hsecond.contained, hknown, hkept, ?_, hfirst.others.trans hsecond.others hfirst.known
    hfirst.kept.types (fun c i x hx => hfirst.ne_active hx) fun c i x hx => hfirst.eq_home hx⟩
  rcases hsecond.same with hsame | hnone
  · rcases hfirst.same with hsame' | ⟨hactive, hhome⟩
    · exact .inl (hsame'.trans hsame)
    · exact .inr ⟨hsame.context.trans hactive, hsame.home.trans hhome⟩
  · rw [hfirst.known] at hnone
    exact .inr hnone

/-- At the end of a chain a context may be woken. -/
theorem trans_moves (hfirst : Rests g strict m m') (hsecond : Moves g strict m' m'') :
    Moves g strict m m'' := by
  obtain ⟨hknown, hkept⟩ := hfirst.kept_trans hsecond.known hsecond.kept
  refine ⟨hsecond.contained, hknown, hkept, ?_⟩
  intro c i x hc hne hlow hx
  have hc' : IsContext m'.known m'.heap c := hfirst.known ▸ hc.mono hfirst.kept.types
  have hne' : c ≠ m'.regs.activeContext := hfirst.ne_active hx hne
  have hlow' : Reaches m'.heap c i := by
    refine fun htail sp hsp => hlow htail sp (fetchField_back (fun n => ?_) (fun y => ?_) hsp)
    · exact (hfirst.kept.counts c n hc.exists_type).mp
    · exact hfirst.others.fetchField_sp hc hne
  rcases hfirst.others c i x hc hne hx with hx' | ⟨hleft, ⟨hi, hnil⟩ | htemporary⟩
  · refine (hsecond.others c i x hc' hne' hlow' hx').imp_right fun ⟨heq, hor⟩ => ?_
    obtain ⟨heq, htemps⟩ := hfirst.eq_home hx heq
    rw [htemps, hfirst.known] at hor
    exact ⟨heq, hor⟩
  · rcases hsecond.others c i _ hc' hne' hlow' hnil with hnil' | ⟨heq, hor⟩
    · exact .inr ⟨hleft, .inl ⟨hi, hnil'⟩⟩
    · obtain ⟨-, htemps⟩ := hfirst.eq_home hx heq
      rw [htemps, hfirst.known] at hor
      exact .inr ⟨hleft, hor⟩
  · exact .inr ⟨hleft, .inr htemporary⟩

end Rests

theorem Stays.trans (hfirst : Stays g strict m m') (hsecond : Stays g strict m' m'') :
    Stays g strict m m'' := by
  obtain ⟨hcontained, hknown, hkept, -, hothers⟩ := hfirst.rests.trans hsecond.rests
  exact ⟨hcontained, hknown, hkept, hfirst.same.trans hsecond.same, hothers⟩

theorem Stays.trans_moves (hfirst : Stays g strict m m') (hsecond : Moves g strict m' m'') :
    Moves g strict m m'' := hfirst.rests.trans_moves hsecond

instance : Trans (Stays g strict) (Stays g strict) (Stays g strict) := ⟨Stays.trans⟩

instance : Trans (Rests g strict) (Rests g strict) (Rests g strict) := ⟨Rests.trans⟩

instance : Trans (Stays g strict) (Moves g strict) (Moves g strict) := ⟨Stays.trans_moves⟩

instance : Trans (Rests g strict) (Moves g strict) (Moves g strict) := ⟨Rests.trans_moves⟩

theorem Stays.type (hs : Stays g strict m m') {v : Value} {l : Landmark}
    (hv : m.heap.typeOf v = .ok (m.known l)) : m'.heap.typeOf v = .ok (m'.known l) := by
  rw [hs.known]
  exact hs.kept.types v _ hv

theorem Rests.fills (hs : Rests g strict m m') {v : Value} {role : Role}
    (hv : Suits g m.known m.heap role v) : Suits g m'.known m'.heap role v := by
  rw [hs.known]
  exact hv.mono hs.kept.types

theorem Stays.fills (hs : Stays g strict m m') {v : Value} {role : Role}
    (hv : Suits g m.known m.heap role v) : Suits g m'.known m'.heap role v := hs.rests.fills hv

namespace Contained

/-- What is true under a regime is true under one within it. -/
theorem fewer {g' : Regime} (hm : Contained g m) (himp : g'.Within g) :
    Contained g' m := by
  refine ⟨hm.framed.fewer himp, hm.frame.imp_right fun hl => ?_, hm.entry, hm.wait⟩
  exact { hl with
    live := fun hidle => hl.live (himp.idle _ hidle)
    header := fun hrigid => hl.header (himp.rigid hrigid)
    above := fun hrigid => hl.above (himp.rigid hrigid) }

/-- The active context is one, or there is none. -/
theorem fills_active (hm : Contained g m) : Suits g m.known m.heap .context m.regs.activeContext :=
  hm.frame.imp (fun hnone => hnone.1) fun hl => ⟨hl.context, hl.live⟩

theorem fills_home (hm : Contained g m) : Suits g m.known m.heap .context m.regs.homeContext :=
  hm.frame.imp (fun hnone => hnone.2) fun hl =>
    ⟨.inl hl.home_type, hm.framed.not_idle hl.home_type⟩

theorem exists_home (hm : Contained g m) : ∃ t, m.heap.typeOf m.regs.homeContext = .ok t := by
  rcases hm.frame with ⟨-, hnil⟩ | hl
  · rw [hnil]
    exact Heap.exists_typeOf_of_count hm.framed.nil_empty
  · exact ⟨_, hl.home_type⟩

/-- A context is active if a field can be read of it. -/
theorem loaded (hm : Contained g m) {i : Nat} {x : Value}
    (hfetch : m.heap.fetchField m.regs.activeContext i = .ok x) : Loaded g m.known m.heap m.regs := by
  refine hm.frame.resolve_left ?_
  rintro ⟨hnil, -⟩
  rw [hnil] at hfetch
  exact hm.framed.nil_fetchField i x hfetch

theorem loaded_of_home (hm : Contained g m) {i : Nat} {x : Value}
    (hfetch : m.heap.fetchField m.regs.homeContext i = .ok x) : Loaded g m.known m.heap m.regs := by
  refine hm.frame.resolve_left ?_
  rintro ⟨-, hnil⟩
  rw [hnil] at hfetch
  exact hm.framed.nil_fetchField i x hfetch

/-- A change of the heap that leaves the machine's objects in shape. -/
theorem withHeap (hm : Contained g m) (hf : Framed g m.known h)
    (hk : Stable g strict m.known m.heap h) (ho : Dormant strict m (m.withHeap h)) :
    Stays g strict m (m.withHeap h) :=
  ⟨⟨hf, hm.frame.imp_right fun hl => hl.kept hk, hk.types _ _ hm.entry,
    hm.wait.imp_right (hk.types _ _)⟩, rfl, hk, .refl _, ho⟩

/-- New objects that hold what they should. -/
theorem widened (hm : Contained g m) (hw : Widened g m.known m.heap h) :
    Stays g true m (m.withHeap h) :=
  hm.withHeap (hm.framed.widened hw) (hw.kept hm.framed)
    (.of_contexts fun c i x hc hx => hw.held .context c i x hc hx)

/-- A change of registers that leaves the stack pointer in place. -/
theorem withRegs (hm : Contained g m) (hs : SameFrame m.regs r)
    (hentry : r.entryProcess = m.regs.entryProcess)
    (hwait : r.entryWait = m.known .nil ∨ m.heap.typeOf r.entryWait = .ok (m.known .semaphore))
    (hsp : Loaded g m.known m.heap m.regs → Slot.contextTail ≤ r.sp + 1 ∧ r.sp < m.regs.stackLimit ∧
      (g.rigid → m.heap.typeOf m.regs.method = .ok (m.known .compiledMethod) →
        m.regs.stackBase ≤ r.sp + 1)) :
    Stays g strict m { m with regs := r } := by
  refine ⟨⟨hm.framed, ?_, ?_, hwait⟩, rfl, .refl .., hs, .of_contexts fun _ _ _ _ => id⟩
  · rcases hm.frame with hnone | hl
    · left
      dsimp only
      rw [hs.context, hs.home]
      exact hnone
    · obtain ⟨hlow, hhigh, habove⟩ := hsp hl
      exact .inr (hl.same hs hlow hhigh habove)
  · dsimp only
    rw [hentry]
    exact hm.entry

/-- A change of registers that has nothing to do with the active context. -/
theorem withRegs_of_sp (hm : Contained g m) (hs : SameFrame m.regs r) (hsp : r.sp = m.regs.sp)
    (hentry : r.entryProcess = m.regs.entryProcess)
    (hwait : r.entryWait = m.known .nil ∨ m.heap.typeOf r.entryWait = .ok (m.known .semaphore)) :
    Stays g strict m { m with regs := r } := by
  refine hm.withRegs hs hentry hwait fun hl => ?_
  rw [hsp]
  exact ⟨hl.low, hl.high, hl.above⟩

/-- The stack pointer can be put back. -/
theorem restore (hm : Contained g m) (hs : Stays g strict m m') :
    Stays g strict m { m' with regs.sp := m.regs.sp } := by
  refine hs.trans (hs.contained.withRegs ⟨rfl, rfl, rfl, rfl, rfl, rfl⟩ rfl hs.contained.wait ?_)
  intro hl'
  have hl : Loaded g m.known m.heap m.regs := by
    refine hm.frame.resolve_left ?_
    rintro ⟨hnil, -⟩
    have hcontext := hl'.context
    obtain ⟨n, hn⟩ : ∃ n, m'.heap.fieldCount m'.regs.activeContext = .ok n := ⟨_, hl'.limit⟩
    have hempty := hs.contained.framed.nil_empty
    rw [hs.known, ← hnil, ← hs.same.context, hl'.limit] at hempty
    exact absurd hl'.high (by rw [Except.ok.inj hempty]; exact Nat.not_lt_zero _)
  refine ⟨hl.low, hs.same.limit ▸ hl.high, fun hrigid htype => ?_⟩
  rw [hs.same.method, hs.known] at htype
  rw [hs.same.base]
  exact hl.above hrigid (type_of_exists hs.kept.types hl.method_type htype)

end Contained

end Machine

open Machine

namespace Yields

variable {α β : Type} {m : Machine} {strict : Bool} {g : Regime} {x : MachineM α}
  {Q : α → Machine → Prop}

theorem resting (h : Yields (Stays g strict) x Q m) :
    Yields (Rests g strict) x (fun a m' => Stays g strict m m' ∧ Q a m') m :=
  h.weaken (fun _ => Stays.rests) fun _ _ hs hq => ⟨hs, hq⟩

/-- Another context may become active at the end. -/
theorem rests_bind {f : α → MachineM β} {P : β → Machine → Prop} (hx : Yields (Rests g strict) x Q m)
    (hf : ∀ a m₁, Rests g strict m m₁ → Q a m₁ → Yields (Machine.Moves g strict) (f a) P m₁) :
    Yields (Machine.Moves g strict) (x >>= f) P m := hx.bind_to (fun _ => Rests.moves) hf

theorem stays_bind {f : α → MachineM β} {P : β → Machine → Prop} (hx : Yields (Stays g strict) x Q m)
    (hf : ∀ a m₁, Stays g strict m m₁ → Q a m₁ → Yields (Machine.Moves g strict) (f a) P m₁) :
    Yields (Machine.Moves g strict) (x >>= f) P m := hx.bind_to (fun _ => Stays.moves) hf

end Yields

end MessageMachine
