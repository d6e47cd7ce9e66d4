import MessageMachine.Proofs.Frame.Callers
import MessageMachine.Proofs.Frame.History

/-!
# A suspended context is frozen

While a context is not active, its fields do not change, and neither does its operand stack up to where
its saved stack pointer says.  Only its instruction pointer becomes nil when it is left, and its
temporaries change by instructions of blocks whose home it is.

* `Suspended m₀ c m p` is a history of events from `m₀` to `m`, none of which begins with the context `c`
  active.  The pause `p` says where the context is now, since collections move it, and whether a
  temporary of it has been stored.  There is none once the context has been woken or freed.
* `AtRest m₀ c q m` is what becomes of the context, and `Suspended.followed` is the run lemma.
* `Onward m₀ c m` forgets the pause.  Every event of an execution leads on (`Onward.run`).
-/

namespace MessageMachine

variable {k : Landmarks} {h h' : Heap} {strict : Bool} {g : Regime} {c : Value} {i : Nat}

/-! ## Temporaries -/

/-- The field is one of the temporaries of a method context.  Only a compiled method says how many there
are. -/
def AmongTemporaries (k : Landmarks) (h : Heap) (c : Value) (i : Nat) : Prop :=
  h.typeOf c = .ok (k .methodContext) ∧ Slot.contextTail ≤ i ∧
    ∀ method header, h.fetchField c Slot.contextMethod = .ok method →
      h.typeOf method = .ok (k .compiledMethod) → HeaderOf h method header →
      i < Slot.contextTail + header.temporaries.toNat

theorem Framed.exists_method_type (hf : Framed g k h) (hc : IsContext k h c) {method : Value}
    (hmethod : h.fetchField c Slot.contextMethod = .ok method) : ∃ t, h.typeOf method = .ok t := by
  by_cases hnil : method = k .nil
  · rw [hnil]
    exact Heap.exists_typeOf_of_count hf.nil_empty
  · obtain ⟨method', t, hmethod', ht⟩ := (hf.fitting c hc ⟨method, hmethod, hnil⟩).method
    cases hmethod.symm.trans hmethod'
    exact ⟨t, ht⟩

/-- The headers of compiled methods stay, and so do the numbers of temporaries. -/
theorem AmongTemporaries.kept (ha : AmongTemporaries k h c i) (hf : Framed g k h)
    (hk : Stable g strict k h h') (hrigid : g.rigid) (hc : IsContext k h c) :
    AmongTemporaries k h' c i := by
  obtain ⟨htype, htail, hlt⟩ := ha
  refine ⟨hk.types _ _ htype, htail, fun method header hmethod hcompiled hheader => ?_⟩
  have hmethod := (hk.method_iff hc).mp hmethod
  have hcompiled := type_of_exists hk.types (hf.exists_method_type hc hmethod) hcompiled
  exact hlt method header hmethod hcompiled ((hk.headerOf_iff hrigid hcompiled).mp hheader)

/-! ## Methods -/

/-- The object is a compiled method of `n` fields with this header. -/
structure Compiled (k : Landmarks) (h : Heap) (method : Value) (header : MethodHeader) (n : Nat) :
    Prop where
  type : h.typeOf method = .ok (k .compiledMethod)
  header : HeaderOf h method header
  size : h.fieldCount method = .ok n

theorem Compiled.kept {method : Value} {header : MethodHeader} {n : Nat}
    (hm : Compiled k h method header n) (hk : Stable g strict k h h') (hrigid : g.rigid) :
    Compiled k h' method header n :=
  ⟨hk.types _ _ hm.type, (hk.headerOf_iff hrigid hm.type).mpr hm.header,
    (hk.counts _ _ ⟨_, hm.type⟩).mpr hm.size⟩

namespace Machine

variable {m m' m₀ m₁ m₂ m₃ : Machine} {φ : Handle → Handle}

/-- What a block can store into belongs to the temporaries of its home. -/
theorem Loaded.amongTemporaries {r : Registers} (hl : Loaded g k h r) (hrigid : g.rigid)
    (htail : Slot.contextTail ≤ i) (hlt : i < Slot.contextTail + r.tempCount) :
    AmongTemporaries k h r.homeContext i := by
  refine ⟨hl.home_type, htail, fun method header hmethod hcompiled hheader => ?_⟩
  cases hl.home_method.symm.trans hmethod
  obtain ⟨header', hheader', htemps⟩ := hl.header hrigid hcompiled
  rwa [hheader.unique hheader', ← htemps]

theorem Relocated.amongTemporaries (hr : Relocated φ m m') (hc : Heap.Kept m.heap m.roots c)
    (ha : AmongTemporaries m.known m.heap c i) :
    AmongTemporaries m'.known m'.heap (c.map φ) i := by
  obtain ⟨htype, htail, hlt⟩ := ha
  refine ⟨(hr.typeOf_known hc).mpr htype, htail, fun method' header hmethod' hcompiled hheader => ?_⟩
  obtain ⟨method, hmethod, rfl⟩ := hr.heap.fetchField_back hr.settled hr.settled' hc hmethod'
  have hkept := hc.of_fetchField hmethod
  exact hlt method header hmethod ((hr.typeOf_known hkept).mp hcompiled)
    ((hr.headerOf_iff hkept).mp hheader)

theorem Relocated.compiled {method : Value} {header : MethodHeader} {n : Nat} (hr : Relocated φ m m')
    (hkept : Heap.Kept m.heap m.roots method) (hm : Compiled m.known m.heap method header n) :
    Compiled m'.known m'.heap (method.map φ) header n :=
  ⟨(hr.typeOf_known hkept).mpr hm.type, (hr.headerOf_iff hkept).mpr hm.header,
    hr.heap.fieldCount_map hr.settled' hkept hm.size⟩

end Machine

/-! ## Pauses -/

/-- What has happened to a context while it has not been active: how objects have been moved, and
whether a temporary of it has been stored. -/
structure Pause where
  moved : Handle → Handle
  written : Bool

/-- The pause after a collection. -/
def Pause.after (q : Pause) (φ : Handle → Handle) : Pause := ⟨φ ∘ q.moved, q.written⟩

theorem Value.map_comp (φ ψ : Handle → Handle) (v : Value) : v.map (φ ∘ ψ) = (v.map ψ).map φ := by
  cases v <;> rfl

theorem Value.map_id (v : Value) : v.map id = v := Value.map_eq_self fun _ _ => rfl

namespace Machine

variable {m m' m₀ m₁ m₂ m₃ t : Machine} {φ : Handle → Handle} {p : Option Pause} {q : Pause}

/-- The context that is followed is not active. -/
def Away (c : Value) (p : Option Pause) (m : Machine) : Prop :=
  ∀ q ∈ p, c.map q.moved ≠ m.regs.activeContext

/-- The instruction stores a temporary of the context. -/
def Assigns (m : Machine) (c : Value) : Prop :=
  c = m.regs.homeContext ∧ ∃ index next, m.fetch = .ok (.popStoreTemporary index, next)

/-- The execution has gone on from `m₀` to `m`.  As long as there is a pause, the context `c` of `m₀` has
not been active in between. -/
inductive Suspended (m₀ : Machine) (c : Value) : Machine → Option Pause → Prop where
  | begun : Suspended m₀ c m₀ (some ⟨id, false⟩)
  /-- The context is active, and is no longer followed. -/
  | woken {m : Machine} {q : Pause} : Suspended m₀ c m (some q) →
      m.regs.activeContext = c.map q.moved → Suspended m₀ c m none
  /-- Anything that does not touch contexts, also outside of runs. -/
  | changed {m m' : Machine} {p : Option Pause} (result : Option Value) : Suspended m₀ c m p →
      m'.known = m.known → m'.regs = { m.regs with result } →
      Heap.Grows runLandmarks m.known m.heap m'.heap → Respects m.known m.heap m'.heap →
      Suspended m₀ c m' p
  | started {m : Machine} {p : Option Pause} (method receiver : Value) (arguments : List Value) :
      Suspended m₀ c m p → Away c p m →
      Suspended m₀ c (stateAfter (startMethod method receiver arguments m)) p
  | housekept {m : Machine} {p : Option Pause} (fuel : Nat) : Suspended m₀ c m p → Away c p m →
      Suspended m₀ c (stateAfter (housekeeping fuel m)) p
  /-- A collection for which the pointers cannot be saved, so that it does not begin. -/
  | unsaved {m m₁ : Machine} {p : Option Pause} {fault : Fault} : Suspended m₀ c m p → Away c p m →
      flush m = .error fault m₁ → Suspended m₀ c (stateAfter (collectGarbage m)) p
  /-- A collection that keeps the context and moves it. -/
  | collected {m m₁ : Machine} {p : Option Pause} {cycle : Heap.Cycle} {φ : Handle → Handle} :
      Suspended m₀ c m p → Away c p m → flush m = .ok () m₁ →
      (m₁.heap.collect m₁.roots).result = .ok cycle → Relocated φ m₁ m₁.collected →
      (∀ q ∈ p, Heap.Kept m₁.heap m₁.roots (c.map q.moved)) →
      Suspended m₀ c (stateAfter (collectGarbage m)) (p.map (·.after φ))
  /-- A collection that frees the context. -/
  | freed {m m₁ : Machine} {q : Pause} {cycle : Heap.Cycle} : Suspended m₀ c m (some q) →
      flush m = .ok () m₁ → (m₁.heap.collect m₁.roots).result = .ok cycle →
      ¬Heap.Kept m₁.heap m₁.roots (c.map q.moved) → Suspended m₀ c (stateAfter (collectGarbage m)) none
  | stepped {m : Machine} {p : Option Pause} : Suspended m₀ c m p → Away c p m →
      step m = stepWith confine m → (∀ q ∈ p, ¬Assigns m (c.map q.moved)) →
      Suspended m₀ c (stateAfter (step m)) p
  /-- A block stores a temporary of its home context. -/
  | assigned {m : Machine} {q : Pause} : Suspended m₀ c m (some q) → Away c (some q) m →
      step m = stepWith confine m → Assigns m (c.map q.moved) →
      Suspended m₀ c (stateAfter (step m)) (some { q with written := true })

/-- The context is as it was in `m₀`, up to the top of its stack, except that it may have been left, and
that temporaries may have been stored. -/
structure AtRest (m₀ : Machine) (c : Value) (q : Pause) (m : Machine) : Prop where
  context : IsContext m.known m.heap (c.map q.moved)
  type : ∀ l, m₀.heap.typeOf c = .ok (m₀.known l) → m.heap.typeOf (c.map q.moved) = .ok (m.known l)
  size : ∀ n, m₀.heap.fieldCount c = .ok n → m.heap.fieldCount (c.map q.moved) = .ok n
  method : ∀ method header n, m₀.heap.fetchField c Slot.contextMethod = .ok method →
    Compiled m₀.known m₀.heap method header n →
      Compiled m.known m.heap (method.map q.moved) header n
  fields : ∀ i x, Reaches m₀.heap c i → m₀.heap.fetchField c i = .ok x →
    m.heap.fetchField (c.map q.moved) i = .ok (x.map q.moved) ∨
      i = Slot.ip ∧ m.heap.fetchField (c.map q.moved) i = .ok (m.known .nil) ∨
      q.written = true ∧ AmongTemporaries m.known m.heap (c.map q.moved) i

/-! ## What keeps a context at rest -/

theorem reaches_of_lt (hi : i < Slot.contextTail) : Reaches h c i :=
  fun htail => absurd hi (Nat.not_lt.mpr htail)

/-- Integers are not moved. -/
theorem eq_ofNat_of_map {x : Value} {n : Nat} (hx : x.map φ = .ofNat n) : x = .ofNat n := by
  cases x with
  | int i => exact hx
  | object a => cases hx
  | bytes a => cases hx
  | words a => cases hx

namespace AtRest

variable (hq : AtRest m₀ c q m)
include hq

/-- The fields before the temporaries are as they were, apart from the instruction pointer. -/
theorem fetchField_low {x : Value} (hlow : i < Slot.contextTail) (hip : i ≠ Slot.ip)
    (hx : m₀.heap.fetchField c i = .ok x) :
    m.heap.fetchField (c.map q.moved) i = .ok (x.map q.moved) := by
  rcases hq.fields i x (reaches_of_lt hlow) hx with hsame | ⟨hi, -⟩ | ⟨-, -, htail, -⟩
  · exact hsame
  · exact absurd hi hip
  · exact absurd hlow (Nat.not_lt.mpr htail)

/-- The top of the stack is where it was. -/
theorem reaches {x : Value} (hreaches : Reaches m₀.heap c i)
    (hx : m₀.heap.fetchField c i = .ok x) : Reaches m.heap (c.map q.moved) i := by
  intro htail sp hsp
  obtain ⟨n, hn⟩ := Heap.exists_count_of_fetchField hx
  obtain ⟨pointer, hpointer⟩ := Heap.exists_fetchField hn
    (Nat.lt_trans (Nat.lt_of_lt_of_le (by decide) htail : Slot.sp < i) (Heap.lt_of_fetchField hn hx))
  have hsame := Except.ok.inj
    ((hq.fetchField_low (by decide) (by decide) hpointer).symm.trans hsp)
  rw [eq_ofNat_of_map hsame] at hpointer
  exact hreaches htail sp hpointer

theorem type_kept (hk : Stable g strict m.known m.heap h') (l : Landmark)
    (hl : m₀.heap.typeOf c = .ok (m₀.known l)) : h'.typeOf (c.map q.moved) = .ok (m.known l) :=
  hk.types _ _ (hq.type l hl)

theorem size_kept (hk : Stable g strict m.known m.heap h') (n : Nat)
    (hn : m₀.heap.fieldCount c = .ok n) : h'.fieldCount (c.map q.moved) = .ok n :=
  (hk.counts _ _ hq.context.exists_type).mpr (hq.size n hn)

theorem method_kept (hk : Stable g strict m.known m.heap h') (hrigid : g.rigid) (method : Value)
    (header : MethodHeader) (n : Nat) (hmethod : m₀.heap.fetchField c Slot.contextMethod = .ok method)
    (hcompiled : Compiled m₀.known m₀.heap method header n) :
    Compiled m.known h' (method.map q.moved) header n :=
  (hq.method method header n hmethod hcompiled).kept hk hrigid

/-- Nothing disturbs a context that is not active.  Only where temporaries may change, those of the home
context may. -/
theorem moves (hm : Contained g m) (hrigid : g.rigid) (haway : c.map q.moved ≠ m.regs.activeContext)
    (hs : Moves g strict m m') {written : Bool} (hwritten : q.written = true → written = true)
    (hassigned : strict = false → c.map q.moved = m.regs.homeContext → written = true) :
    AtRest m₀ c { q with written } m' := by
  refine ⟨hs.known ▸ hq.context.mono hs.kept.types, hs.known ▸ hq.type_kept hs.kept,
    hq.size_kept hs.kept, hs.known ▸ hq.method_kept hs.kept hrigid, fun i x hreaches hx => ?_⟩
  rcases hq.fields i x hreaches hx with hsame | ⟨hi, hnil⟩ | ⟨hold, hamong⟩
  · rcases hs.others _ i _ hq.context haway (hq.reaches hreaches hx) hsame with
      hsame' | ⟨hhome, ⟨hi, hnil⟩ | ⟨hstrict, htail, hlt⟩⟩
    · exact .inl hsame'
    · exact .inr (.inl ⟨hi, hs.known ▸ hnil⟩)
    · have hl := hm.loaded_of_home (hhome ▸ hsame)
      have hamong := (hl.amongTemporaries hrigid htail hlt).kept hm.framed hs.kept hrigid
        (hhome ▸ hq.context)
      rw [← hhome, ← hs.known] at hamong
      exact .inr (.inr ⟨hassigned hstrict hhome, hamong⟩)
  · have hlow : i < Slot.contextTail := hi ▸ (by decide)
    refine .inr (.inl ⟨hi, ?_⟩)
    rcases hs.others _ i _ hq.context haway (reaches_of_lt hlow) hnil with
      hnil' | ⟨-, ⟨-, hnil'⟩ | ⟨-, htail, -⟩⟩
    · exact hs.known ▸ hnil'
    · exact hs.known ▸ hnil'
    · exact absurd hlow (Nat.not_lt.mpr htail)
  · have hamong := hamong.kept hm.framed hs.kept hrigid hq.context
    rw [← hs.known] at hamong
    exact .inr (.inr ⟨hwritten hold, hamong⟩)

/-- A context that is kept is moved as a whole. -/
theorem relocated (hr : Relocated φ m m') (hkept : Heap.Kept m.heap m.roots (c.map q.moved)) :
    AtRest m₀ c (q.after φ) m' := by
  have hmoved : ∀ v : Value, v.map (q.after φ).moved = (v.map q.moved).map φ :=
    fun v => v.map_comp φ q.moved
  constructor
  case context =>
    rw [hmoved]
    exact (hr.isContext_iff hkept).mpr hq.context
  case type =>
    intro l hl
    rw [hmoved]
    exact (hr.typeOf_known hkept).mpr (hq.type l hl)
  case size =>
    intro n hn
    rw [hmoved]
    exact hr.heap.fieldCount_map hr.settled' hkept (hq.size n hn)
  case method =>
    intro method header n hmethod hcompiled
    rw [hmoved]
    have hfetch := hq.fetchField_low (by decide) (by decide) hmethod
    exact hr.compiled (hkept.of_fetchField hfetch) (hq.method method header n hmethod hcompiled)
  case fields =>
    intro i x hreaches hx
    rw [hmoved, hmoved]
    rcases hq.fields i x hreaches hx with hsame | ⟨hi, hnil⟩ | ⟨hold, hamong⟩
    · exact .inl (hr.fetchField_map hkept hsame)
    · refine .inr (.inl ⟨hi, ?_⟩)
      rw [hr.known]
      exact hr.fetchField_map hkept hnil
    · exact .inr (.inr ⟨hold, hr.amongTemporaries hkept hamong⟩)

end AtRest

/-! ## Histories -/

/-- The objects are in shape, and the context that is followed is at rest. -/
structure Followed (m₀ : Machine) (c : Value) (p : Option Pause) (m : Machine) : Prop where
  contained : Contained .plain m
  atRest : ∀ q ∈ p, AtRest m₀ c q m

namespace Followed

variable (hf : Followed m₀ c p m)
include hf

theorem moves (haway : Away c p m) (hs : Moves .plain strict m m')
    (hhome : strict = false → ∀ q ∈ p, c.map q.moved ≠ m.regs.homeContext) :
    Followed m₀ c p m' :=
  ⟨hs.contained, fun q hq => (hf.atRest q hq).moves hf.contained trivial (haway q hq) hs id
    fun hstrict heq => absurd heq (hhome hstrict q hq)⟩

/-- Changes from outside leave contexts alone, also active ones. -/
theorem changed {result : Option Value} (hknown : m'.known = m.known)
    (hregs : m'.regs = { m.regs with result })
    (hg : Heap.Grows runLandmarks m.known m.heap m'.heap) (hr : Respects m.known m.heap m'.heap) :
    Followed m₀ c p m' := by
  have hs : Moves .plain true m m' := moves_change hf.contained result hknown hregs hg hr.permits
  refine ⟨hs.contained, fun q hq => ?_⟩
  have hrest := hf.atRest q hq
  refine ⟨hs.known ▸ hrest.context.mono hs.kept.types, hs.known ▸ hrest.type_kept hs.kept,
    hrest.size_kept hs.kept, hs.known ▸ hrest.method_kept hs.kept trivial, fun i x hreaches hx => ?_⟩
  rw [hr.contexts _ _ hrest.context, hs.known]
  exact (hrest.fields i x hreaches hx).imp_right (.imp_right fun ⟨hold, hamong⟩ =>
    ⟨hold, hamong.kept hf.contained.framed hs.kept trivial hrest.context⟩)

/-- A collection follows the context to where it moves it. -/
theorem collected (haway : Away c p m) {cycle : Heap.Cycle} (hflush : flush m = .ok () m₁)
    (hcollect : (m₁.heap.collect m₁.roots).result = .ok cycle) (hr : Relocated φ m₁ m₁.collected)
    (hkept : ∀ q ∈ p, Heap.Kept m₁.heap m₁.roots (c.map q.moved)) :
    Followed m₀ c (p.map (·.after φ)) (stateAfter (collectGarbage m)) := by
  have hsaved : Stays .plain true m m₁ := ((yields_flush hf.contained).answer hflush).1
  have hf₁ := hf.moves haway hsaved.moves fun hstrict => absurd hstrict (by decide)
  obtain ⟨hcontained, hmoves⟩ : Contained (m₁.images φ .plain) m₁.collected ∧
      Moves (m₁.images φ .plain) true m₁.collected (stateAfter (collectGarbage m)) :=
    moves_collectGarbage hf.contained hflush hcollect hr
  refine ⟨hmoves.contained.fewer ⟨fun _ => False.elim, id⟩, fun q' hq' => ?_⟩
  obtain ⟨q, hq, rfl⟩ := Option.mem_map.mp hq'
  have hactive : Heap.Kept m₁.heap m₁.roots m₁.regs.activeContext := Heap.kept_of_mem (by simp [roots])
  refine ((hf₁.atRest q hq).relocated hr (hkept q hq)).moves hcontained trivial ?_ hmoves id
    fun hstrict => absurd hstrict (by decide)
  intro heq
  rw [hr.regs] at heq
  have hsame : (c.map q.moved).map φ = m₁.regs.activeContext.map φ := (Value.map_comp ..).symm.trans heq
  refine haway q hq ?_
  rw [← hsaved.same.context]
  exact hr.heap.map_injective hr.settled' (hkept q hq) hactive hsame

end Followed

namespace Suspended

/-- No event of an execution disturbs a context that is not active. -/
theorem followed (hm₀ : Contained .plain m₀) (hc : IsContext m₀.known m₀.heap c)
    (h : Suspended m₀ c m p) : Followed m₀ c p m := by
  induction h with
  | begun =>
      refine ⟨hm₀, fun q hq => ?_⟩
      cases hq
      have hsame : ∀ v : Value, v.map id = v := Value.map_id
      refine ⟨(hsame c).symm ▸ hc, fun l hl => (hsame c).symm ▸ hl, fun n hn => (hsame c).symm ▸ hn,
        fun method header n _ hcompiled => ?_, fun i x _ hx => .inl (by rwa [hsame, hsame])⟩
      exact (hsame method).symm ▸ hcompiled
  | woken _ _ ih => exact ⟨ih.contained, nofun⟩
  | changed result _ hknown hregs hg hr ih => exact ih.changed hknown hregs hg hr
  | started method receiver arguments _ haway ih =>
      have hs : Moves .plain true _ _ :=
        (yields_startMethod ih.contained method receiver arguments).after
      exact ih.moves haway hs nofun
  | housekept fuel _ haway ih =>
      have hs : Moves .plain true _ _ := (yields_housekeeping ih.contained fuel).after
      exact ih.moves haway hs nofun
  | @unsaved m m₁ p fault _ haway hflush ih =>
      have hs : Stays .plain true m (stateAfter (flush m)) := (yields_flush ih.contained).after
      rw [hflush] at hs
      rw [collectGarbage_eq_error hflush]
      exact ih.moves haway hs.moves nofun
  | collected _ haway hflush hcollect hr hkept ih => exact ih.collected haway hflush hcollect hr hkept
  | @freed m m₁ q cycle _ hflush hcollect _ ih =>
      have hs : Stays .plain true m m₁ := ((yields_flush ih.contained).answer hflush).1
      obtain ⟨φ, hr⟩ := relocated_collected hs.contained.framed.settled hcollect
      have hmoves : Moves (m₁.images φ .plain) true _ _ :=
        (moves_collectGarbage ih.contained hflush hcollect hr).2
      exact ⟨hmoves.contained.fewer ⟨fun _ => False.elim, id⟩, nofun⟩
  | @stepped m p _ haway hconfined hassigns ih =>
      rw [hconfined, confine_eq]
      -- Only storing a temporary is not done in the strict sense, and the home is then another context.
      by_cases hstores : ∃ index next, m.fetch = .ok (.popStoreTemporary index, next)
      · have hs : Moves .plain false _ _ := moves_step guards_respects ih.contained nofun
        exact ih.moves haway hs fun _ q hq heq => hassigns q hq ⟨heq, hstores⟩
      · have hs : Moves .plain true _ _ := moves_step guards_respects ih.contained
          fun _ index next hfetch => hstores ⟨index, next, hfetch⟩
        exact ih.moves haway hs nofun
  | @assigned m q _ haway hconfined _ ih =>
      rw [hconfined, confine_eq]
      have hs : Moves .plain false _ _ := moves_step guards_respects ih.contained nofun
      refine ⟨hs.contained, fun q' hq' => ?_⟩
      cases hq'
      exact (ih.atRest q rfl).moves ih.contained trivial (haway q rfl) hs (fun _ => rfl) fun _ _ => rfl

/-- If the context is active, it is no longer followed. -/
theorem exists_away (h : Suspended m₀ c m p) : ∃ p', Suspended m₀ c m p' ∧ Away c p' m := by
  cases p with
  | none => exact ⟨none, h, nofun⟩
  | some q =>
      by_cases hactive : m.regs.activeContext = c.map q.moved
      · exact ⟨none, h.woken hactive, nofun⟩
      · refine ⟨some q, h, fun q' hq' heq => hactive ?_⟩
        cases hq'
        exact heq.symm

end Suspended

/-! ## Runs -/

/-- The execution has gone on from `m₀`, and the context is still suspended or was so until it was woken
or freed. -/
def Onward (m₀ : Machine) (c : Value) (m : Machine) : Prop := ∃ p, Suspended m₀ c m p

namespace Onward

theorem stepped (h : Onward m₀ c m) (hconfined : step m = stepWith confine m) :
    Onward m₀ c (stateAfter (step m)) := by
  obtain ⟨p, hs⟩ := h
  obtain ⟨p', hs, haway⟩ := hs.exists_away
  cases p' with
  | none => exact ⟨none, hs.stepped haway hconfined nofun⟩
  | some q =>
      by_cases hassigns : Assigns m (c.map q.moved)
      · exact ⟨_, hs.assigned haway hconfined hassigns⟩
      · refine ⟨_, hs.stepped haway hconfined fun q' hq' => ?_⟩
        cases hq'
        exact hassigns

theorem housekept (h : Onward m₀ c m) (fuel : Nat) :
    Onward m₀ c (stateAfter (housekeeping fuel m)) := by
  obtain ⟨p, hs⟩ := h
  obtain ⟨p', hs, haway⟩ := hs.exists_away
  exact ⟨p', hs.housekept fuel haway⟩

theorem started (h : Onward m₀ c m) (method receiver : Value) (arguments : List Value) :
    Onward m₀ c (stateAfter (startMethod method receiver arguments m)) := by
  obtain ⟨p, hs⟩ := h
  obtain ⟨p', hs, haway⟩ := hs.exists_away
  exact ⟨p', hs.started method receiver arguments haway⟩

section

variable (hm₀ : Contained .plain m₀) (hc : IsContext m₀.known m₀.heap c)
include hm₀ hc

/-- What leaves heap and registers alone leads on. -/
theorem counted (h : Onward m₀ c m) (result : Option Value) (hknown : m'.known = m.known)
    (hregs : m'.regs = { m.regs with result }) (hheap : m'.heap = m.heap) : Onward m₀ c m' := by
  obtain ⟨p, hs⟩ := h
  have hf := (hs.followed hm₀ hc).contained.framed
  refine ⟨p, hs.changed result hknown hregs ?_ ?_⟩
  · rw [hheap]
    exact .refl hf.settled
  · rw [hheap]
    exact ⟨fun _ _ _ => rfl, fun _ _ => rfl, rfl,
      fun x v i role new hx hrole hfetch => (hf.roles x v i role new hx hrole hfetch).fills⟩

/-- A collection that does not fail moves the context or frees it. -/
theorem collect (h : Onward m₀ c m) (hcollect : Collectable m) :
    Onward m₀ c (stateAfter (collectGarbage m)) := by
  obtain ⟨p, hs⟩ := h
  obtain ⟨p', hs, haway⟩ := hs.exists_away
  cases hflush : flush m with
  | error fault m₁ => exact ⟨p', hs.unsaved haway hflush⟩
  | ok u m₁ =>
      obtain ⟨cycle, hcycle⟩ := hcollect m₁ hflush
      have hsaved : Stays .plain true m m₁ :=
        ((yields_flush (hs.followed hm₀ hc).contained).answer hflush).1
      obtain ⟨φ, hr⟩ := relocated_collected hsaved.contained.framed.settled hcycle
      by_cases hkept : ∀ q ∈ p', Heap.Kept m₁.heap m₁.roots (c.map q.moved)
      · exact ⟨_, hs.collected haway hflush hcycle hr hkept⟩
      · cases p' with
        | none => exact absurd nofun hkept
        | some q =>
            refine ⟨none, hs.freed hflush hcycle fun hq => hkept fun q' hq' => ?_⟩
            cases hq'
            exact hq

theorem keeps_tidy (fuel : Nat) : Keeps (Onward m₀ c) (tidy fuel) := by
  have hticks : ∀ n : Nat → Nat,
      Keeps (Onward m₀ c) (modify fun m => { m with ticks := n m.ticks } : MachineM Unit) :=
    fun n m h => h.counted hm₀ hc m.regs.result rfl rfl rfl
  refine (hticks (· + 1)).bind fun _ => Keeps.bind (fun _ => id) fun m₁ => Keeps.ite ?_ (.pure _)
  exact (hticks fun _ => 0).bind fun _ m h => h.housekept fuel

/-- Following a context lasts as long as a run whose stores are confined. -/
theorem lasting : Lasting confine (Onward m₀ c) (Onward m₀ c) fun _ => Onward m₀ c where
  tidy fuel := (keeps_tidy hm₀ hc fuel).ensures
  collect := Ensures.of_after fun _ h => h.1.collect hm₀ hc h.2
  step := Ensures.of_after fun _ h => h.1.stepped h.2
  count _ h := h.counted hm₀ hc none rfl rfl rfl
  outOfBudget _ := id

/-- Wherever a run ends, with a result or with a fault, the history goes on from there. -/
theorem run (h : Onward m₀ c m) {budget : Nat} (hconfined : RunsAs confine budget m) :
    Onward m₀ c (stateAfter (run budget m)) := (lasting hm₀ hc).run.after ⟨h, hconfined⟩

theorem runMethod (h : Onward m₀ c m) {budget : Nat} (method receiver : Value)
    (arguments : List Value) (hconfined : ∀ m', startMethod method receiver arguments m = .ok () m' →
      RunsAs confine budget m') :
    Onward m₀ c (stateAfter (runMethod budget method receiver arguments m)) := by
  have hstart : Keeps (Onward m₀ c) (startMethod method receiver arguments) :=
    fun _ h => h.started method receiver arguments
  exact ((lasting hm₀ hc).runMethod hstart.ensures).after ⟨h, hconfined⟩

end

end Onward

end Machine

end MessageMachine
