import MessageMachine.Machine.Naming
import MessageMachine.Proofs.Schedule.Quiet
import MessageMachine.Proofs.Table.Footprint

/-!
# Stores of the program

A program can store wherever it likes, also into the queues.  `restrain` carries out a store only if
that leaves the shielded objects alone, and does nothing otherwise.  A program behaves if it runs the
same with its stores restrained.

`Heap.Grows held k h h'` is what any store and any table operation is like: objects keep their types
and sizes, and none of the types `held` are made.  If semaphores and links are among those, it is calm
when it spares the shielded objects.
-/

namespace MessageMachine

variable {k : Landmarks} {h h' h₀ : Heap} {held : List Landmark}

/-! ## Growing -/

/-- The types of the objects that queues are made of. -/
def queueLandmarks : List Landmark := [.semaphore, .link]

/-- The types of the objects that are made by the scheduler and by running code. -/
def runLandmarks : List Landmark := [.semaphore, .link, .process, .methodContext, .blockContext]

/-- Objects have kept their types and sizes, and none of the types `held` are new. -/
structure Heap.Grows (held : List Landmark) (k : Landmarks) (h h' : Heap) : Prop where
  settled : h'.Settled
  types : ∀ u t, h.typeOf u = .ok t → h'.typeOf u = .ok t
  sizes : ∀ u n, (∃ t, h.typeOf u = .ok t) → (h'.fieldCount u = .ok n ↔ h.fieldCount u = .ok n)
  fresh : ∀ u, (∀ t, h.typeOf u ≠ .ok t) → ∀ l ∈ held, h'.typeOf u ≠ .ok (k l)

namespace Heap.Grows

theorem refl (hsettled : h.Settled) : Grows held k h h :=
  ⟨hsettled, fun _ _ => id, fun _ _ _ => Iff.rfl, fun _ hnew _ _ => hnew _⟩

theorem trans {h'' : Heap} (hfirst : Grows held k h h') (hsecond : Grows held k h' h'') :
    Grows held k h h'' := by
  refine ⟨hsecond.settled, fun u t ht => hsecond.types u t (hfirst.types u t ht), ?_, ?_⟩
  · rintro u n ⟨t, ht⟩
    exact (hsecond.sizes u n ⟨t, hfirst.types u t ht⟩).trans (hfirst.sizes u n ⟨t, ht⟩)
  · intro u hnew l hl htype
    by_cases hmiddle : ∃ t, h'.typeOf u = .ok t
    · obtain ⟨t, ht⟩ := hmiddle
      rw [hsecond.types u t ht, ← ht] at htype
      exact hfirst.fresh u hnew l hl htype
    · exact hsecond.fresh u (fun t ht => hmiddle ⟨t, ht⟩) l hl htype

theorem of_stored {v new : Value} {i : Nat} (hstored : Stored h v i new h') :
    Grows held k h h' := by
  refine ⟨hstored.settled, fun u t ht => (hstored.types u).trans ht, fun u n _ => ?_, ?_⟩
  · rw [hstored.counts u]
  · intro u hnew l _
    rw [hstored.types u]
    exact hnew _

theorem of_made {v type fill : Value} {count : Nat} (hmade : Made h v type count fill h')
    (htype : ∀ l ∈ held, type ≠ k l) : Grows held k h h' := by
  refine ⟨hmade.settled, hmade.types, fun u n hu => ?_, ?_⟩
  · rw [hmade.counts u (hmade.ne hu)]
  · intro u hnew l hl hnewType
    rcases hmade.types_new u _ hnewType with hold | heq
    · exact hnew _ hold
    · exact htype l hl heq.symm

/-- A heap that has grown and whose shielded objects have been spared. -/
theorem calm (hgrows : Grows queueLandmarks k h h') (hspared : ∀ v i x, Shielded k h v → i < watched →
    h.fetchField v i = .ok x → h'.fetchField v i = .ok x) : Calm k h h' := by
  refine ⟨hgrows.settled, hgrows.types, hgrows.sizes, ?_, ?_⟩
  · exact fun v i x hshielded hi hx => .inl (hspared v i x hshielded hi hx)
  · rintro v i x hnew (htype | htype)
    · exact absurd htype (hgrows.fresh v hnew .semaphore (by decide))
    · exact absurd htype (hgrows.fresh v hnew .link (by decide))

end Heap.Grows

/-! ## Table operations -/

namespace Heap

theorem keeps_grows_storeField (v new : Value) (i : Nat) :
    Keeps (Grows held k h₀) (storeField v i new) := by
  intro h hgrows
  cases hrun : storeField v i new h with
  | ok u h' => exact hgrows.trans (.of_stored (stored_of_eq_ok hgrows.settled hrun))
  | error fault h' =>
      rw [heap_of_change_error hrun]
      exact hgrows

theorem keeps_grows_allocateFields {type : Value} (htype : ∀ l ∈ held, type ≠ k l)
    (space : Space) (count : Nat) (fill : Value) :
    Keeps (Grows held k h₀) (allocateFields space type count fill) := by
  intro h hgrows
  cases hrun : allocateFields space type count fill h with
  | ok v h' =>
      exact hgrows.trans (.of_made (made_of_eq_ok hgrows.settled hrun) htype)
  | error fault h' =>
      rw [heap_of_checked_error hrun]
      exact hgrows

end Heap

/-- Setting a global makes arrays and stores, whatever the globals have become. -/
theorem Boot.keeps_grows_setGlobal {config : Table.Config} (known : Landmarks)
    (harray : ∀ l ∈ held, config.array ≠ k l) (symbol value : Value) :
    Keeps (Heap.Grows held k h₀) (setGlobal config known symbol value) := by
  have hprint : Table.Footprint config ⟨known .globals, .globals⟩ (Heap.Grows held k h₀)
      fun _ => True := by
    refine ⟨fun _ _ _ _ => trivial, fun _ _ _ _ _ _ => trivial,
      fun v i new _ => Heap.keeps_grows_storeField v new i,
      fun n => Heap.keeps_grows_storeField _ _ _, fun v _ => Heap.keeps_grows_storeField _ _ _,
      fun _ _ v _ => Heap.keeps_grows_storeField _ _ _, fun count => ?_⟩
    exact (Heap.keeps_grows_allocateFields harray _ _ _).ensures.weaken (fun _ => id)
      (fun _ _ hh => ⟨hh, trivial⟩) fun _ _ => id
  exact hprint.keeps_insert symbol value

namespace Machine

variable {m : Machine} {P : Machine → Prop}

/-! ## Restraint -/

/-- The fields of the shielded objects are the same. -/
def Spares (m m' : Machine) : Prop :=
  ∀ v i, Shielded m.known m.heap v → m'.heap.fetchField v i = m.heap.fetchField v i

open Classical in
/-- Carries out an action if it spares the shielded objects, and does nothing otherwise. -/
noncomputable def restrain (action : MachineM Unit) : MachineM Unit := fun m =>
  if Spares m (stateAfter (action m)) then action m else .ok () m

/-- What grows the heap is quiet under restraint. -/
theorem keeps_restrain (hP : Steady P) {action : MachineM Unit}
    (hgrows : ∀ m, Sound m → ∃ h, stateAfter (action m) = m.withHeap h ∧
      Heap.Grows queueLandmarks m.known m.heap h) : Keeps P (restrain action) := by
  intro m hm
  unfold restrain
  split
  · next hspares =>
    have hs := hP.sound m hm
    obtain ⟨h, heq, hh⟩ := hgrows m hs
    rw [heq] at hspares ⊢
    refine hP.undisturbed _ _ hm (hs.undisturbed_heap (hh.calm ?_))
    intro v i x hshielded _ hx
    exact (hspares v i hshielded).trans hx
  · exact hm

theorem keeps_restrain_storeField (hP : Steady P) (v new : Value) (i : Nat) :
    Keeps P (restrain (storeField v i new)) := by
  refine keeps_restrain hP fun m hs => ⟨_, stateAfter_onHeap _, ?_⟩
  exact Heap.keeps_grows_storeField v new i _ (.refl hs.furnished.settled)

theorem keeps_restrain_setGlobal (hP : Steady P) (symbol value : Value) :
    Keeps P (restrain (setGlobal symbol value)) := by
  refine keeps_restrain hP fun m hs => ⟨_, stateAfter_onHeap _, ?_⟩
  obtain ⟨hsemaphore, hlink⟩ := hs.furnished.plain .array (by decide)
  refine Boot.keeps_grows_setGlobal m.known ?_ symbol value _ (.refl hs.furnished.settled)
  intro l hl
  rcases List.mem_pair.mp hl with rfl | rfl
  · exact hsemaphore
  · exact hlink

end Machine

end MessageMachine
