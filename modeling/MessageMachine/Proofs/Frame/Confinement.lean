import MessageMachine.Proofs.Frame.Contained
import MessageMachine.Proofs.Schedule.Stores

/-!
# Stores that leave contexts in shape

A program can store wherever it likes, also into contexts and into the objects through which contexts
are reached.  `confine` carries out a store only if that respects them (`Respects`), and does nothing
otherwise.  A program is confined if it runs the same with its stores confined.

It may well store into processes and queues, as long as it puts there what belongs there.
-/

namespace MessageMachine

variable {k : Landmarks} {h h' : Heap} {g : Regime}

theorem runLandmarks_own : ∀ l ∈ runLandmarks, l ∈ ownTypes ∧ .array ≠ l := by decide

/-- Contexts, the headers of compiled methods and the interrupt table of the processor are as they
were, and the machine's other objects hold what they should. -/
structure Respects (k : Landmarks) (h h' : Heap) : Prop where
  contexts : ∀ c i, IsContext k h c → h'.fetchField c i = h.fetchField c i
  headers : ∀ method, h.typeOf method = .ok (k .compiledMethod) →
    h'.fetchField method Slot.methodHeader = h.fetchField method Slot.methodHeader
  table : h'.fetchField (k .processor) Slot.interruptTable =
    h.fetchField (k .processor) Slot.interruptTable
  roles : ∀ (x : Holder) v i role new, x.Has k h' v → x.role i = some role →
    h'.fetchField v i = .ok new → Fills k h' role new

/-- What is asked of stores under a regime. -/
structure Permits (g : Regime) (k : Landmarks) (h h' : Heap) : Prop where
  contexts : ∀ c i, IsContext k h c → h'.fetchField c i = h.fetchField c i
  headers : g.rigid → ∀ method, h.typeOf method = .ok (k .compiledMethod) →
    h'.fetchField method Slot.methodHeader = h.fetchField method Slot.methodHeader
  table : h'.fetchField (k .processor) Slot.interruptTable =
    h.fetchField (k .processor) Slot.interruptTable
  roles : ∀ (x : Holder) v i role new, x.Has k h' v → x.role i = some role →
    h'.fetchField v i = .ok new → Suits g k h' role new

theorem Respects.permits (hr : Respects k h h') : Permits .plain k h h' :=
  ⟨hr.contexts, fun _ => hr.headers, hr.table,
    fun x v i role new hx hrole hfetch => (hr.roles x v i role new hx hrole hfetch).suits⟩

/-- Stores and table operations that a regime allows leave the machine's objects in shape. -/
theorem Framed.permitted (hf : Framed g k h) (hg : Heap.Grows runLandmarks k h h')
    (hr : Permits g k h h') : Framed g k h' ∧ Stable g true k h h' := by
  have hold : ∀ {c}, IsContext k h' c → IsContext k h c := by
    intro c hc
    by_cases hexists : ∃ t, h.typeOf c = .ok t
    · exact isContext_of_exists hg.types hexists hc
    · have hnew : ∀ t, h.typeOf c ≠ .ok t := fun t ht => hexists ⟨t, ht⟩
      rcases hc with htype | htype
      · exact absurd htype (hg.fresh c hnew .methodContext (by decide))
      · exact absurd htype (hg.fresh c hnew .blockContext (by decide))
  have hk : Stable g true k h h' := by
    refine ⟨hg.types, hg.sizes, fun c i x hc _ hx => (hr.contexts c i hc).trans hx,
      fun hrigid method x htype hx => (hr.headers hrigid method htype).trans hx,
      fun t ht => hr.table.trans ht, ?_, ?_⟩
    · exact fun _ _ c j x ht hx => (hr.contexts c j (.inl ht.1)).trans hx
    · exact fun b i x hb hx => (hr.contexts b i (.inr (hf.blocks b hb))).trans hx
  obtain ⟨t, ht, hown⟩ := hf.processor
  refine ⟨⟨hg.settled, ?_, hf.distinct, ⟨t, hg.types _ _ ht, hown⟩, ?_,
    hr.roles, ?_, ?_, fun b hb => hg.types b _ (hf.blocks b hb)⟩, hk⟩
  · exact (hg.sizes _ _ (Heap.exists_typeOf_of_count hf.nil_empty)).mpr hf.nil_empty
  · exact fun table htable => hg.types _ _ (hf.interrupts table (hr.table.symm.trans htable))
  · intro c x htype hx
    have htype := type_of_exists hg.types (hold (.inl htype)).exists_type htype
    exact hf.plain c x htype ((hr.contexts c _ (.inl htype)).symm.trans hx)
  · intro c hc hfilled
    have hc := hold hc
    have hfitting := hf.fitting c hc ((hk.filled_iff hc).mp hfilled)
    obtain ⟨pointer, hfetch, hpointer⟩ := hfitting.stack
    exact hk.fitting hc hfitting ⟨pointer, (hr.contexts c _ hc).trans hfetch, hpointer⟩

namespace Machine

variable {m : Machine} {strict : Bool}

open Classical in
/-- Carries out an action if it respects contexts, and does nothing otherwise. -/
noncomputable def confine (action : MachineM Unit) : MachineM Unit := fun m =>
  if Respects m.known m.heap (stateAfter (action m)).heap then action m else .ok () m

theorem confine_of_respects {action : MachineM Unit}
    (hr : Respects m.known m.heap (stateAfter (action m)).heap) : confine action m = action m :=
  if_pos hr

open Classical in
/-- Carries out an action if `P` is true of what it does to the heap, and does nothing otherwise. -/
noncomputable def restrict (P : Landmarks → Heap → Heap → Prop) (action : MachineM Unit) :
    MachineM Unit := fun m =>
  if P m.known m.heap (stateAfter (action m)).heap then action m else .ok () m

theorem confine_eq : confine = restrict Respects := rfl

/-- What `P` is true of is allowed under the regime. -/
def Guards (g : Regime) (P : Landmarks → Heap → Heap → Prop) : Prop :=
  ∀ k h h', Framed g k h → Heap.Grows runLandmarks k h h' → P k h h' → Permits g k h h'

theorem guards_respects : Guards .plain Respects := fun _ _ _ _ _ => Respects.permits

section Restricted

variable {P : Landmarks → Heap → Heap → Prop} (hP : Guards g P)
include hP

/-- What grows the heap does no harm if it is restricted. -/
theorem stays_restrict (hm : Contained g m) {action : MachineM Unit} {h : Heap}
    (hafter : stateAfter (action m) = m.withHeap h) (hg : Heap.Grows runLandmarks m.known m.heap h) :
    Stays g strict m (stateAfter (restrict P action m)) := by
  unfold restrict
  split
  · next hr =>
    rw [hafter] at hr ⊢
    have hpermits := hP _ _ _ hm.framed hg hr
    obtain ⟨hf, hk⟩ := hm.framed.permitted hg hpermits
    have hothers : Dormant true m (m.withHeap h) :=
      .of_contexts fun c i x hc hx => (hpermits.contexts c i hc).trans hx
    exact (hm.withHeap hf hk hothers).of_strict
  · exact .refl hm

theorem stays_restrict_storeField (hm : Contained g m) (v : Value) (i : Nat) (new : Value) :
    Stays g strict m (stateAfter (restrict P (storeField v i new) m)) :=
  stays_restrict hP hm (stateAfter_onHeap _)
    (Heap.keeps_grows_storeField v new i _ (.refl hm.framed.settled))

theorem stays_restrict_setGlobal (hm : Contained g m) (name v : Value) :
    Stays g strict m (stateAfter (restrict P (setGlobal name v) m)) := by
  refine stays_restrict hP hm (stateAfter_onHeap _)
    (Boot.keeps_grows_setGlobal m.known ?_ name v _ (.refl hm.framed.settled))
  intro l hl heq
  obtain ⟨hown, hne⟩ := runLandmarks_own l hl
  exact hne (hm.framed.distinct _ (by decide) l hown heq)

end Restricted

end Machine

end MessageMachine
