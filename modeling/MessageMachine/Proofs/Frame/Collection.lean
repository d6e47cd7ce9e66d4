import MessageMachine.Proofs.Frame.Contained
import MessageMachine.Proofs.Schedule.Collection

/-!
# Collections leave contexts in shape

Every object of the new heap is the image of a kept one, with the images of its fields.  Integers are
their own images, so stack pointers, counts and headers are the same, and a context fits as before.
-/

namespace MessageMachine

variable {m m' : Machine} {φ : Handle → Handle} {g : Regime}

theorem Value.isInt_map (φ : Handle → Handle) (v : Value) : (v.map φ).isInt = v.isInt := by
  cases v <;> rfl

theorem MethodHeader.ofValue_map (φ : Handle → Handle) (v : Value) :
    MethodHeader.ofValue (v.map φ) = MethodHeader.ofValue v := by
  cases v <;> rfl

/-- The regime for the new heap: what is idle is the image of something idle. -/
def Machine.images (m : Machine) (φ : Handle → Handle) (g : Regime) : Regime :=
  ⟨fun v' => ∃ v, Heap.Kept m.heap m.roots v ∧ g.idle v ∧ v.map φ = v', g.rigid⟩

namespace Machine.Relocated

variable (hr : Relocated φ m m')
include hr

/-! ## Reading what has been kept -/

/-- An object of the new heap that has a known type is the image of an object of that type. -/
theorem exists_typeOf {v' : Value} {l : Landmark} (htype : m'.heap.typeOf v' = .ok (m'.known l)) :
    ∃ v, Heap.Kept m.heap m.roots v ∧ v.map φ = v' ∧ m.heap.typeOf v = .ok (m.known l) := by
  obtain ⟨v, hv, rfl⟩ := hr.heap.exists_kept htype
  exact ⟨v, hv, rfl, (hr.typeOf_known hv).mp htype⟩

theorem isContext_iff {v : Value} (hv : Heap.Kept m.heap m.roots v) :
    IsContext m'.known m'.heap (v.map φ) ↔ IsContext m.known m.heap v :=
  or_congr (hr.typeOf_known hv) (hr.typeOf_known hv)

theorem exists_isContext {c' : Value} (hc' : IsContext m'.known m'.heap c') :
    ∃ c, Heap.Kept m.heap m.roots c ∧ c.map φ = c' ∧ IsContext m.known m.heap c := by
  obtain ⟨t, ht⟩ := hc'.exists_type
  obtain ⟨c, hc, rfl⟩ := hr.heap.exists_kept ht
  exact ⟨c, hc, rfl, (hr.isContext_iff hc).mp hc'⟩

/-- An object of a sort is the image of one of that sort. -/
theorem exists_has {x : Holder} {v' : Value} (hx : x.Has m'.known m'.heap v') :
    ∃ v, Heap.Kept m.heap m.roots v ∧ v.map φ = v' ∧ x.Has m.known m.heap v := by
  cases x with
  | processor => exact ⟨_, kept_known m _, (hr.known _).symm.trans hx.symm, rfl⟩
  | interrupts =>
      have hfetch : m'.heap.fetchField ((m.known .processor).map φ) Slot.interruptTable = .ok v' := by
        rw [← hr.known]
        exact hx
      obtain ⟨v, hv, rfl⟩ := hr.heap.fetchField_back hr.settled hr.settled' (kept_known m _) hfetch
      exact ⟨v, (kept_known m .processor).of_fetchField hv, rfl, hv⟩
  | semaphore => exact hr.exists_typeOf hx
  | link => exact hr.exists_typeOf hx
  | process => exact hr.exists_typeOf hx
  | context => exact hr.exists_isContext hx

/-- What is not idle does not become so. -/
theorem live_map {v : Value} (hv : Heap.Kept m.heap m.roots v) (hlive : ¬g.idle v) :
    ¬(m.images φ g).idle (v.map φ) := by
  rintro ⟨u, hu, hidle, heq⟩
  rw [hr.heap.map_injective hr.settled' hu hv heq] at hidle
  exact hlive hidle

theorem suits_map {role : Role} {v : Value} (hv : Heap.Kept m.heap m.roots v)
    (hfills : Suits g m.known m.heap role v) :
    Suits (m.images φ g) m'.known m'.heap role (v.map φ) := by
  refine hfills.imp (hr.eq_known_iff hv).mpr fun hplays => ?_
  cases role with
  | link => exact (hr.typeOf_known hv).mpr hplays
  | process => exact (hr.typeOf_known hv).mpr hplays
  | semaphore => exact (hr.typeOf_known hv).mpr hplays
  | context => exact ⟨(hr.isContext_iff hv).mpr hplays.1, hr.live_map hv hplays.2⟩

theorem fetchField_map {v x : Value} {i : Nat} (hv : Heap.Kept m.heap m.roots v)
    (hfetch : m.heap.fetchField v i = .ok x) : m'.heap.fetchField (v.map φ) i = .ok (x.map φ) :=
  hr.heap.fetchField_map hr.settled' hv hfetch

theorem headerOf_iff {method : Value} {header : MethodHeader}
    (hmethod : Heap.Kept m.heap m.roots method) :
    HeaderOf m'.heap (method.map φ) header ↔ HeaderOf m.heap method header := by
  constructor
  · rintro ⟨v', hv', hof⟩
    obtain ⟨v, hv, rfl⟩ := hr.heap.fetchField_back hr.settled hr.settled' hmethod hv'
    exact ⟨v, hv, (MethodHeader.ofValue_map φ v).symm.trans hof⟩
  · rintro ⟨v, hv, hof⟩
    exact ⟨_, hr.fetchField_map hmethod hv, (MethodHeader.ofValue_map φ v).trans hof⟩

/-! ## Contexts -/

theorem above_map {c : Value} {j : Nat} (hc : Heap.Kept m.heap m.roots c)
    (habove : Behind m.known m.heap c j) : Behind m'.known m'.heap (c.map φ) j := by
  intro method' header hmethod' hcompiled hheader
  obtain ⟨method, hmethod, rfl⟩ := hr.heap.fetchField_back hr.settled hr.settled' hc hmethod'
  have hkept := hc.of_fetchField hmethod
  exact habove method header hmethod ((hr.typeOf_known hkept).mp hcompiled)
    ((hr.headerOf_iff hkept).mp hheader)

theorem fitting_map {c : Value} (hc : Heap.Kept m.heap m.roots c)
    (hfitting : Fitting g m.known m.heap c) :
    Fitting (m.images φ g) m'.known m'.heap (c.map φ) := by
  obtain ⟨⟨method, t, hmethod, ht⟩, ⟨_, hpointer, n, sp, rfl, hn, hlow, hhigh, habove⟩, hhome⟩ :=
    hfitting
  refine ⟨⟨_, _, hr.fetchField_map hc hmethod,
    hr.heap.typeOf_map hr.settled' (hc.of_fetchField hmethod) ht⟩, ?_, fun hblock => ?_⟩
  · exact ⟨_, hr.fetchField_map hc hpointer, n, sp, rfl, hr.heap.fieldCount_map hr.settled' hc hn,
      hlow, hhigh, fun hrigid htype => hr.above_map hc (habove hrigid ((hr.typeOf_known hc).mp htype))⟩
  · obtain ⟨⟨i, hi⟩, home, method, hfetch, htype, hmethod, hhomeMethod⟩ :=
      hhome ((hr.typeOf_known hc).mp hblock)
    have hkept := hc.of_fetchField hfetch
    exact ⟨⟨i, hr.fetchField_map hc hi⟩, _, _, hr.fetchField_map hc hfetch,
      (hr.typeOf_known hkept).mpr htype, hr.fetchField_map hc hmethod,
      hr.fetchField_map hkept hhomeMethod⟩

theorem framed (hf : Framed g m.known m.heap) :
    Framed (m.images φ g) m'.known m'.heap where
  settled := hr.settled'
  nil_empty := by
    rw [hr.known]
    exact hr.heap.fieldCount_map hr.settled' (kept_known m _) hf.nil_empty
  distinct := by
    intro l hl l' hl' heq
    by_contra hne
    exact hr.known_ne (fun heq => hne (hf.distinct l hl l' hl' heq)) heq
  processor := by
    obtain ⟨t, ht, hown⟩ := hf.processor
    have htype := hr.heap.typeOf_map hr.settled' (kept_known m .processor) ht
    rw [← hr.known] at htype
    refine ⟨_, htype, fun l hl heq => hown l hl ?_⟩
    rw [heq, hr.known .processor, hr.typeOf_known (kept_known m _)] at htype
    exact Except.ok.inj (ht.symm.trans htype)
  interrupts := by
    intro t' ht'
    rw [hr.known] at ht'
    obtain ⟨t, ht, rfl⟩ := hr.heap.fetchField_back hr.settled hr.settled' (kept_known m _) ht'
    exact (hr.typeOf_known ((kept_known m .processor).of_fetchField ht)).mpr (hf.interrupts t ht)
  roles := by
    intro x v' i role new' hx hrole hnew'
    obtain ⟨v, hv, rfl, hold⟩ := hr.exists_has hx
    obtain ⟨new, hnew, rfl⟩ := hr.heap.fetchField_back hr.settled hr.settled' hv hnew'
    exact hr.suits_map (hv.of_fetchField hnew) (hf.roles x v i role new hold hrole hnew)
  plain := by
    intro c' x' htype hx'
    obtain ⟨c, hc, rfl, hold⟩ := hr.exists_typeOf htype
    obtain ⟨x, hx, rfl⟩ := hr.heap.fetchField_back hr.settled hr.settled' hc hx'
    rw [Value.isInt_map]
    exact hf.plain c x hold hx
  fitting := by
    rintro c' hcontext ⟨method', hmethod', hne⟩
    obtain ⟨c, hc, rfl, hold⟩ := hr.exists_isContext hcontext
    obtain ⟨method, hmethod, rfl⟩ := hr.heap.fetchField_back hr.settled hr.settled' hc hmethod'
    have hkept := hc.of_fetchField hmethod
    exact hr.fitting_map hc (hf.fitting c hold
      ⟨method, hmethod, fun heq => hne ((hr.eq_known_iff hkept).mpr heq)⟩)
  blocks := by
    rintro _ ⟨b, hb, hidle, rfl⟩
    exact (hr.typeOf_known hb).mpr (hf.blocks b hidle)

/-! ## The machine -/

theorem loaded (hl : Loaded g m.known m.heap m.regs) :
    Loaded (m.images φ g) m'.known m'.heap m'.regs := by
  have hcontext : Heap.Kept m.heap m.roots m.regs.activeContext := Heap.kept_of_mem (by simp [roots])
  have hhome : Heap.Kept m.heap m.roots m.regs.homeContext := Heap.kept_of_mem (by simp [roots])
  have hmethod : Heap.Kept m.heap m.roots m.regs.method := Heap.kept_of_mem (by simp [roots])
  rw [hr.regs]
  constructor
  case context => exact (hr.isContext_iff hcontext).mpr hl.context
  case live => exact hr.live_map hcontext hl.live
  case method => exact hr.fetchField_map hcontext hl.method
  case method_ne => exact fun heq => hl.method_ne ((hr.eq_known_iff hmethod).mp heq)
  case method_type =>
    obtain ⟨t, ht⟩ := hl.method_type
    exact ⟨_, hr.heap.typeOf_map hr.settled' hmethod ht⟩
  case method_size =>
    exact hl.method_size.imp fun n hn => ⟨hr.heap.fieldCount_map hr.settled' hmethod hn.1, hn.2⟩
  case home_type => exact (hr.typeOf_known hhome).mpr hl.home_type
  case home_method => exact hr.fetchField_map hhome hl.home_method
  case home_eq => exact fun htype => congrArg (Value.map φ) (hl.home_eq ((hr.typeOf_known hcontext).mp htype))
  case limit => exact hr.heap.fieldCount_map hr.settled' hcontext hl.limit
  case base_method => exact fun htype => hl.base_method ((hr.typeOf_known hcontext).mp htype)
  case base_block => exact fun htype => hl.base_block ((hr.typeOf_known hcontext).mp htype)
  case low => exact hl.low
  case high => exact hl.high
  case header =>
    intro hrigid hcompiled
    obtain ⟨header, hheader, htemps⟩ := hl.header hrigid ((hr.typeOf_known hmethod).mp hcompiled)
    exact ⟨header, (hr.headerOf_iff hmethod).mpr hheader, htemps⟩
  case above => exact fun hrigid hcompiled => hl.above hrigid ((hr.typeOf_known hmethod).mp hcompiled)

theorem contained (hm : Contained g m) : Contained (m.images φ g) m' := by
  have hcontext : Heap.Kept m.heap m.roots m.regs.activeContext := Heap.kept_of_mem (by simp [roots])
  have hhome : Heap.Kept m.heap m.roots m.regs.homeContext := Heap.kept_of_mem (by simp [roots])
  have hentry : Heap.Kept m.heap m.roots m.regs.entryProcess := Heap.kept_of_mem (by simp [roots])
  have hwait : Heap.Kept m.heap m.roots m.regs.entryWait := Heap.kept_of_mem (by simp [roots])
  have hregs := hr.regs
  refine ⟨hr.framed hm.framed, ?_, ?_, ?_⟩
  · refine hm.frame.imp (fun hnone => ?_) hr.loaded
    rw [hregs]
    exact ⟨(hr.eq_known_iff hcontext).mpr hnone.1, (hr.eq_known_iff hhome).mpr hnone.2⟩
  · rw [hregs]
    exact (hr.typeOf_known hentry).mpr hm.entry
  · rw [hregs]
    exact hm.wait.imp (hr.eq_known_iff hwait).mpr (hr.typeOf_known hwait).mpr

end Machine.Relocated

end MessageMachine
