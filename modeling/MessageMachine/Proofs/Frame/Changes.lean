import MessageMachine.Proofs.Frame.Slots

/-!
# Changes that leave contexts in shape

Two lemmas carry what follows.  `Framed.altered` is about a change of one object: the fields changed
have to hold what their roles ask for, and of a context only the pointers, the caller and the operand
stack may be changed (`Harmless`).  `Framed.widened` is about new objects, while all that was there
stays (`Widened`).  Both leave the machine's objects in shape, and what has to be stable (`Stable`).
-/

namespace MessageMachine

variable {k : Landmarks} {h h' : Heap} {strict : Bool} {g : Regime} {v : Value}
  {touched : Nat → Prop}

/-! ## Changing one object -/

/-- What may be changed, and to what. -/
structure Harmless (g : Regime) (strict : Bool) (k : Landmarks) (h : Heap) (v : Value)
    (touched : Nat → Prop) (h' : Heap) : Prop where
  role : ∀ (x : Holder) role j new, x.Has k h v → touched j → x.role j = some role →
    h'.fetchField v j = .ok new → Suits g k h role new
  context : IsContext k h v → ∀ j, touched j →
    j = Slot.ip ∨ j = Slot.caller ∨ j = Slot.sp ∨ Slot.contextTail ≤ j
  stack : IsContext k h v → touched Slot.sp →
    ∃ pointer, h'.fetchField v Slot.sp = .ok pointer ∧ StackPointer g k h v pointer
  header : h.typeOf v = .ok (k .compiledMethod) → ¬touched Slot.methodHeader
  table : v = k .processor → ¬touched Slot.interruptTable
  temporary : g.rigid → strict = true → ∀ j, touched j → ¬Temporary k h v j
  live : ¬g.idle v

theorem fixedSlots_apart : ∀ i ∈ fixedSlots, i ≠ Slot.ip ∧ i ≠ Slot.caller ∧ i ≠ Slot.sp ∧
    i < Slot.contextTail := by decide

theorem Harmless.kept (hh : Harmless g strict k h v touched h') (ha : Heap.Altered h v touched h') :
    Stable g strict k h h' := by
  refine ⟨fun u t ht => (ha.types u).trans ht, fun u n _ => by rw [ha.counts u], ?_, ?_, ?_, ?_, ?_⟩
  · intro c i x hc hi hx
    refine (ha.other c i x ?_).mpr hx
    by_cases heq : c = v
    · subst heq
      refine .inr fun htouched => ?_
      obtain ⟨hip, hcaller, hsp, htail⟩ := fixedSlots_apart i hi
      rcases hh.context hc i htouched with hi | hi | hi | hi
      · exact hip hi
      · exact hcaller hi
      · exact hsp hi
      · exact absurd hi (Nat.not_le.mpr htail)
    · exact .inl heq
  · intro _ method x htype hx
    refine (ha.other method _ x ?_).mpr hx
    by_cases heq : method = v
    · subst heq
      exact .inr (hh.header htype)
    · exact .inl heq
  · intro t ht
    refine (ha.other _ _ t ?_).mpr ht
    by_cases heq : k .processor = v
    · exact .inr (hh.table heq.symm)
    · exact .inl heq
  · intro hrigid hstrict c j x ht hx
    refine (ha.other c j x ?_).mpr hx
    by_cases heq : c = v
    · subst heq
      exact .inr fun htouched => hh.temporary hrigid hstrict j htouched ht
    · exact .inl heq
  · intro b i x hb hx
    refine (ha.other b i x (.inl ?_)).mpr hx
    rintro rfl
    exact hh.live hb

namespace Framed

/-- What is to be shown of a change of a context. -/
theorem harmless_context (hf : Framed g k h) (hv : Live g k h v)
    (hslots : ∀ j, touched j → j = Slot.ip ∨ j = Slot.caller ∨ j = Slot.sp ∨ Slot.contextTail ≤ j)
    (hcaller : touched Slot.caller → ∀ new, h'.fetchField v Slot.caller = .ok new →
      Suits g k h .context new)
    (hstack : touched Slot.sp →
      ∃ pointer, h'.fetchField v Slot.sp = .ok pointer ∧ StackPointer g k h v pointer)
    (htemporary : g.rigid → strict = true → ∀ j, touched j → ¬Temporary k h v j) :
    Harmless g strict k h v touched h' := by
  obtain ⟨hv, hlive⟩ := hv
  refine ⟨?_, fun _ => hslots, fun _ => hstack, ?_, ?_, htemporary, hlive⟩
  · intro x role j new hx htouched hrole hfetch
    obtain rfl : x = .context := hf.has_unique hx (show Holder.context.Has k h v from hv)
    rcases hslots j htouched with rfl | rfl | rfl | hj
    · cases hrole
    · cases hrole
      exact hcaller htouched new hfetch
    · cases hrole
    · rw [Holder.role, if_neg] at hrole
      · cases hrole
      · rintro (rfl | rfl)
        · exact absurd hj (by decide)
        · exact absurd hj (by decide)
  · intro htype
    exact absurd (show Holder.context.Has k h v from hv) (hf.not_has_of_method htype)
  · intro heq
    cases hf.has_unique (show Holder.processor.Has k h v from heq)
      (show Holder.context.Has k h v from hv)

/-- What is to be shown of a change of another object of the machine. -/
theorem harmless_holder (hf : Framed g k h) {x : Holder} (hx : x.Has k h v) (hne : x ≠ .context)
    (hrole : ∀ role j new, touched j → x.role j = some role → h'.fetchField v j = .ok new →
      Suits g k h role new)
    (htable : x = .processor → ¬touched Slot.interruptTable) : Harmless g strict k h v touched h' := by
  have hnot : ¬IsContext k h v := fun hc =>
    hne (hf.has_unique hx (show Holder.context.Has k h v from hc))
  refine ⟨?_, fun hc => absurd hc hnot, fun hc => absurd hc hnot, ?_, ?_, ?_,
    fun hidle => hnot (.inr (hf.blocks v hidle))⟩
  · intro y role j new hy htouched hrole' hfetch
    obtain rfl := hf.has_unique hx hy
    exact hrole role j new htouched hrole' hfetch
  · exact fun htype => absurd hx (hf.not_has_of_method htype)
  · exact fun heq => htable (hf.has_unique hx (show Holder.processor.Has k h v from heq))
  · exact fun _ _ _ _ ht => hnot (.inl ht.1)

/-- A harmless change of one object leaves the machine's objects in shape. -/
theorem altered (hf : Framed g k h) (ha : Heap.Altered h v touched h')
    (hh : Harmless g strict k h v touched h') : Framed g k h' := by
  have hk := hh.kept ha
  have htable : ∀ t, h'.fetchField (k .processor) Slot.interruptTable = .ok t ↔
      h.fetchField (k .processor) Slot.interruptTable = .ok t := by
    intro t
    refine ha.other _ _ _ ?_
    by_cases heq : k .processor = v
    · exact .inr (hh.table heq.symm)
    · exact .inl heq
  have hcontext : ∀ {c}, IsContext k h' c → IsContext k h c := by
    intro c hc
    unfold IsContext at hc ⊢
    rwa [ha.types c] at hc
  have hhas : ∀ {x : Holder} {u}, x.Has k h' u → x.Has k h u := by
    intro x u hx
    cases x with
    | processor => exact hx
    | interrupts => exact (htable u).mp hx
    | semaphore => exact (ha.types u).symm.trans hx
    | link => exact (ha.types u).symm.trans hx
    | process => exact (ha.types u).symm.trans hx
    | context => exact hcontext hx
  obtain ⟨t, ht, hown⟩ := hf.processor
  refine ⟨ha.settled, (ha.counts _).trans hf.nil_empty, hf.distinct,
    ⟨t, (ha.types _).trans ht, hown⟩, ?_, ?_, ?_, ?_, fun b hb => (ha.types b).trans (hf.blocks b hb)⟩
  · intro t ht
    rw [ha.types]
    exact hf.interrupts t ((htable t).mp ht)
  · intro x u i role new hx hrole hfetch
    have hx := hhas hx
    refine Suits.mono hk.types ?_
    by_cases hchanged : u = v ∧ touched i
    · obtain ⟨rfl, htouched⟩ := hchanged
      exact hh.role x role i new hx htouched hrole hfetch
    · exact hf.roles x u i role new hx hrole ((ha.other u i new (not_and_or.mp hchanged)).mp hfetch)
  · intro c x htype hx
    have htype := (ha.types c).symm.trans htype
    exact hf.plain c x htype ((hk.fixed_iff (.inl htype) (by decide)).mp hx)
  · intro c hc hfilled
    have hc := hcontext hc
    have hfitting := hf.fitting c hc ((hk.filled_iff hc).mp hfilled)
    refine hk.fitting hc hfitting ?_
    by_cases hchanged : c = v ∧ touched Slot.sp
    · obtain ⟨rfl, htouched⟩ := hchanged
      exact hh.stack hc htouched
    · obtain ⟨pointer, hfetch, hpointer⟩ := hfitting.stack
      exact ⟨pointer, (ha.other c _ pointer (not_and_or.mp hchanged)).mpr hfetch, hpointer⟩

end Framed

/-! ## New objects -/

/-- What the machine's own objects hold stays, and new ones hold what they should. -/
structure Widened (g : Regime) (k : Landmarks) (h h' : Heap) : Prop where
  settled : h'.Settled
  types : ∀ u t, h.typeOf u = .ok t → h'.typeOf u = .ok t
  counts : ∀ u n, (∃ t, h.typeOf u = .ok t) → (h'.fieldCount u = .ok n ↔ h.fieldCount u = .ok n)
  held : ∀ (x : Holder) u i y, x.Has k h u → h.fetchField u i = .ok y → h'.fetchField u i = .ok y
  headers : ∀ method y, h.typeOf method = .ok (k .compiledMethod) →
    h.fetchField method Slot.methodHeader = .ok y → h'.fetchField method Slot.methodHeader = .ok y
  roles : ∀ (x : Holder) u i role new, (∀ t, h.typeOf u ≠ .ok t) → x.Has k h' u →
    x.role i = some role → h'.fetchField u i = .ok new → Suits g k h' role new
  plain : ∀ c x, (∀ t, h.typeOf c ≠ .ok t) → h'.typeOf c = .ok (k .methodContext) →
    h'.fetchField c Slot.blockArguments = .ok x → x.isInt = false
  fitting : ∀ c, (∀ t, h.typeOf c ≠ .ok t) → IsContext k h' c → Filled k h' c → Fitting g k h' c

theorem Widened.kept (hw : Widened g k h h') (hf : Framed g k h) : Stable g true k h h' :=
  ⟨hw.types, hw.counts, fun c i x hc _ => hw.held .context c i x hc,
    fun _ => hw.headers, fun t => hw.held .processor _ _ t rfl,
    fun _ _ c j x ht => hw.held .context c j x (.inl ht.1),
    fun b i x hb => hw.held .context b i x (.inr (hf.blocks b hb))⟩

namespace Framed

theorem exists_processor (hf : Framed g k h) : ∃ t, h.typeOf (k .processor) = .ok t :=
  hf.processor.imp fun _ ht => ht.1

/-- An object of a sort exists. -/
theorem exists_type (hf : Framed g k h) {x : Holder} (hx : x.Has k h v) :
    ∃ t, h.typeOf v = .ok t := by
  by_cases hxp : x = .processor
  · subst hxp
    rw [show v = k .processor from hx]
    exact hf.exists_processor
  · obtain ⟨l, -, htype⟩ := hf.type_of_has hx hxp
    exact ⟨_, htype⟩

theorem table_of_widened (hf : Framed g k h) (hw : Widened g k h h') {t : Value} :
    h'.fetchField (k .processor) Slot.interruptTable = .ok t →
      h.fetchField (k .processor) Slot.interruptTable = .ok t :=
  fetchField_back (fun n => (hw.counts _ n hf.exists_processor).mp)
    fun x => hw.held .processor _ _ x rfl

/-- An object that existed is of the sort that it was of. -/
theorem has_of_widened (hf : Framed g k h) (hw : Widened g k h h') {x : Holder}
    (hold : ∃ t, h.typeOf v = .ok t) (hx : x.Has k h' v) : x.Has k h v := by
  cases x with
  | processor => exact hx
  | interrupts => exact hf.table_of_widened hw hx
  | semaphore => exact type_of_exists hw.types hold hx
  | link => exact type_of_exists hw.types hold hx
  | process => exact type_of_exists hw.types hold hx
  | context => exact isContext_of_exists hw.types hold hx

/-- New objects that hold what they should leave the machine's objects in shape. -/
theorem widened (hf : Framed g k h) (hw : Widened g k h h') : Framed g k h' := by
  have hk := hw.kept hf
  obtain ⟨t, ht, hown⟩ := hf.processor
  refine ⟨hw.settled, (hw.counts _ _ (Heap.exists_typeOf_of_count hf.nil_empty)).mpr hf.nil_empty,
    hf.distinct, ⟨t, hw.types _ _ ht, hown⟩, ?_, ?_, ?_, ?_,
    fun b hb => hw.types b _ (hf.blocks b hb)⟩
  · intro t ht
    exact hw.types t _ (hf.interrupts t (hf.table_of_widened hw ht))
  · intro x u i role new hx hrole hfetch
    by_cases hold : ∃ t, h.typeOf u = .ok t
    · have hx := hf.has_of_widened hw hold hx
      refine Suits.mono hw.types (hf.roles x u i role new hx hrole ?_)
      exact fetchField_back (fun n => (hw.counts u n hold).mp) (fun y => hw.held x u i y hx) hfetch
    · exact hw.roles x u i role new (fun t ht => hold ⟨t, ht⟩) hx hrole hfetch
  · intro c x htype hx
    by_cases hold : ∃ t, h.typeOf c = .ok t
    · have htype := type_of_exists hw.types hold htype
      exact hf.plain c x htype ((hk.fixed_iff (.inl htype) (by decide)).mp hx)
    · exact hw.plain c x (fun t ht => hold ⟨t, ht⟩) htype hx
  · intro c hc hfilled
    by_cases hold : ∃ t, h.typeOf c = .ok t
    · have hc := isContext_of_exists hw.types hold hc
      have hfitting := hf.fitting c hc ((hk.filled_iff hc).mp hfilled)
      obtain ⟨pointer, hfetch, hpointer⟩ := hfitting.stack
      exact hk.fitting hc hfitting ⟨pointer, hw.held .context c _ _ hc hfetch, hpointer⟩
    · exact hw.fitting c (fun t ht => hold ⟨t, ht⟩) hc hfilled

theorem nil_isInt (hf : Framed g k h) : (k .nil).isInt = false := by
  obtain ⟨xs, hxs, -⟩ := Heap.fieldCount_eq_ok.mp hf.nil_empty
  obtain ⟨a, o, heq, -⟩ := Heap.fields_eq_ok.mp hxs
  rw [heq]
  rfl

/-- New objects without fields other than nil. -/
theorem widened_of_extends (hf : Framed g k h) (he : Heap.Extends (k .nil) h h') : Widened g k h h' := by
  refine ⟨he.settled, he.types, he.counts, fun _ u i y _ => he.fields u i y,
    fun method y _ => he.fields method _ y, ?_, ?_, ?_⟩
  · exact fun _ u i _ new hnew _ _ hfetch => .inl (he.fresh u i new hnew hfetch)
  · intro c x hnew _ hx
    rw [he.fresh c _ x hnew hx]
    exact hf.nil_isInt
  · rintro c hnew - ⟨method, hmethod, hne⟩
    exact absurd (he.fresh c _ method hnew hmethod) hne

/-- One new object. -/
theorem widened_of_drafted (hf : Framed g k h) {type : Value} {n : Nat} {xs : Nat → Value}
    (hd : Heap.Drafted h v type n xs h')
    (hroles : ∀ (x : Holder) i role, x.Has k h' v → i < n → x.role i = some role →
      Suits g k h' role (xs i))
    (hplain : type = k .methodContext → (xs Slot.blockArguments).isInt = false)
    (hfitting : IsContext k h' v → Filled k h' v → Fitting g k h' v) : Widened g k h h' := by
  have hself : ∀ {u i x}, (∀ t, h.typeOf u ≠ .ok t) → h'.fetchField u i = .ok x → u = v := by
    intro u i x hnew hx
    by_contra hne
    obtain ⟨t, ht⟩ := Heap.exists_typeOf_of_fetchField ((hd.other u i x hne).mp hx)
    exact hnew t ht
  refine ⟨hd.settled, hd.types, ?_, ?_, ?_, ?_, ?_, ?_⟩
  · intro u n hold
    rw [hd.counts u (hd.ne hold)]
  · intro x u i y hx hfetch
    exact (hd.other u i y (hd.ne (hf.exists_type hx))).mpr hfetch
  · intro method y htype hfetch
    exact (hd.other method _ y (hd.ne ⟨_, htype⟩)).mpr hfetch
  · intro x u i role new hnew hx hrole hfetch
    obtain rfl := hself hnew hfetch
    obtain ⟨hlt, rfl⟩ := (hd.self i new).mp hfetch
    exact hroles x i role hx hlt hrole
  · intro c x hnew htype hx
    obtain rfl := hself hnew hx
    obtain ⟨-, rfl⟩ := (hd.self _ x).mp hx
    exact hplain (Except.ok.inj (hd.type_eq.symm.trans htype))
  · rintro c hnew hc ⟨method, hmethod, hne⟩
    obtain rfl := hself hnew hmethod
    exact hfitting hc ⟨method, hmethod, hne⟩

end Framed

end MessageMachine
