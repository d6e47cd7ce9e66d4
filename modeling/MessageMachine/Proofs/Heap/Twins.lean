import MessageMachine.Proofs.Heap.Agreement
import MessageMachine.Proofs.Heap.Repetition
import MessageMachine.Proofs.Heap.Replacement

/-!
# Two heaps in lock step

`Heap.Twins but h h'`: the heaps agree but for the elements in `but`, and have the same room, so that a
new object gets the same handle in both.  `Heap.Alike` is that of outcomes.  The same action on twins has
alike outcomes if what it reads is the same in both (`Twins.alike_allocateFields`,
`Twins.alike_storeField`, `Twins.alike_transferFields`).
-/

namespace MessageMachine

/-- Pools that are filled alike reserve the same place. -/
theorem Pool.SameRoom.reserve {p q : Pool} (hq : q.SameRoom p) (hspace : q.space = p.space)
    (hepoch : q.epoch = p.epoch) (words : Nat) : q.reserve words = p.reserve words := by
  unfold Pool.reserve
  rw [hq.needsSegment, hq.size, hq.maxSegments, hq.backSize, hspace, hepoch]

theorem Pool.sameRoom_update (p : Pool) (s i : Nat) (f : Object → Object) :
    (p.update s i f).SameRoom p := ⟨rfl, rfl, Repeats.extents_update p s i f⟩

namespace Pool.SameRoom

variable {p q r : Pool}

theorem refl (p : Pool) : p.SameRoom p := ⟨rfl, rfl, rfl⟩

theorem symm (hq : q.SameRoom p) : p.SameRoom q :=
  ⟨hq.segmentWords.symm, hq.maxSegments.symm, hq.extents.symm⟩

theorem trans (hr : r.SameRoom q) (hq : q.SameRoom p) : r.SameRoom p :=
  ⟨hr.segmentWords.trans hq.segmentWords, hr.maxSegments.trans hq.maxSegments,
    hr.extents.trans hq.extents⟩

end Pool.SameRoom

namespace Heap

variable {h h' h₁ h₂ : Heap} {but : Value → Nat → Prop} {v w : Value}

/-- The heaps agree but for the elements in `but`, and a new object goes to the same place in both. -/
structure Twins (but : Value → Nat → Prop) (h h' : Heap) : Prop where
  settled : h.Settled
  settled' : h'.Settled
  agrees : h.Agrees but h'
  settings : h'.settings = h.settings
  epoch : ∀ space, (h'.pool space).epoch = (h.pool space).epoch
  room : ∀ space, (h'.pool space).SameRoom (h.pool space)

/-- The outcomes are the same, with twins for heaps. -/
inductive Alike (but : Value → Nat → Prop) :
    EStateM.Result HeapFault Heap α → EStateM.Result HeapFault Heap α → Prop
  | ok {a : α} {h h' : Heap} : Twins but h h' → Alike but (.ok a h) (.ok a h')
  | error {fault : HeapFault} {h h' : Heap} : Twins but h h' → Alike but (.error fault h) (.error fault h')

theorem Settled.pool_space (hsettled : h.Settled) (space : Space) : (h.pool space).space = space := by
  cases space with
  | root => exact hsettled.root_space
  | ephemeral => exact hsettled.ephemeral_space

/-! ## Changes -/

theorem epoch_pool_update (h : Heap) (a : Handle) (f : Object → Object) (space : Space) :
    ((h.update a f).pool space).epoch = (h.pool space).epoch := by
  unfold update
  cases a.space <;> cases space <;> rfl

theorem room_pool_update (h : Heap) (a : Handle) (f : Object → Object) (space : Space) :
    ((h.update a f).pool space).SameRoom (h.pool space) := by
  unfold update
  cases a.space <;> cases space <;>
    first | exact .refl _ | exact Pool.sameRoom_update ..

theorem settings_update (h : Heap) (a : Handle) (f : Object → Object) :
    (h.update a f).settings = h.settings := by
  unfold update
  cases a.space <;> rfl

namespace Twins

theorem symm (ht : Twins but h h') : Twins but h' h :=
  ⟨ht.settled', ht.settled, ht.agrees.symm, ht.settings.symm, fun space => (ht.epoch space).symm,
    fun space => (ht.room space).symm⟩

theorem trans (hfirst : Twins but h h₁) (hsecond : Twins but h₁ h₂) : Twins but h h₂ where
  settled := hfirst.settled
  settled' := hsecond.settled'
  agrees := (hfirst.agrees.trans hsecond.agrees).mono fun _ _ hor => hor.elim id id
  settings := hsecond.settings.trans hfirst.settings
  epoch space := (hsecond.epoch space).trans (hfirst.epoch space)
  room space := (hsecond.room space).trans (hfirst.room space)

/-- The fields of one object are replaced. -/
theorem of_replace (hsettled : h.Settled) {a : Handle} {header : Header} {xs ys : Array Value}
    (ho : h.resolve a = .ok ⟨header, .fields xs⟩) (hagrees : h.Agrees but (h.replace a header ys)) :
    Twins but h (h.replace a header ys) := by
  have heq : h.replace a header ys = h.update a fun o => { o with body := .fields ys } :=
    update_congr ho rfl
  rw [heq] at hagrees ⊢
  exact ⟨hsettled, hsettled.update a fun _ => rfl, hagrees, settings_update .., epoch_pool_update h a _,
    room_pool_update h a _⟩

/-- The objects at one handle are changed into ones that agree. -/
theorem update (ht : Twins but h h') {a : Handle} {o o' : Object} {f g : Object → Object}
    (ho : h.resolve a = .ok o) (ho' : h'.resolve a = .ok o')
    (hf : ∀ o, (f o).header.state = o.header.state) (hg : ∀ o, (g o).header.state = o.header.state)
    (hobject : Object.Agrees but a (f o) (g o')) : Twins but (h.update a f) (h'.update a g) := by
  have hput := putAt_update ho f
  have hput' := putAt_update ho' g
  refine ⟨ht.settled.update a hf, ht.settled'.update a hg, ⟨?_, ?_⟩, ?_, fun space => ?_,
    fun space => ?_⟩
  · intro b ob hob
    by_cases hb : b = a
    · subst hb
      cases hput.resolve_self.symm.trans hob
      exact ⟨_, hput'.resolve_self, hobject⟩
    · rw [hput.resolve_of_ne hb] at hob
      rw [hput'.resolve_of_ne hb]
      exact ht.agrees.object b ob hob
  · intro b fault hfault
    have hb : b ≠ a := by
      rintro rfl
      cases hput.resolve_self.symm.trans hfault
    rw [hput.resolve_of_ne hb] at hfault
    rw [hput'.resolve_of_ne hb]
    exact ht.agrees.fault b fault hfault
  · rw [settings_update, settings_update, ht.settings]
  · rw [epoch_pool_update, epoch_pool_update, ht.epoch]
  · exact ((room_pool_update h' a g space).trans (ht.room space)).trans
      (room_pool_update h a f space).symm

/-- A change that is checked alike and leads to agreeing objects. -/
theorem alike_change (ht : Twins but h h') {check check' : Heap → Except HeapFault α}
    {f g : Object → Object} (hcheck : ∀ fault, check h = .error fault ↔ check' h' = .error fault)
    (hfound : ∀ c, check h = .ok c → ∃ a o, v.handle? = some a ∧ h.resolve a = .ok o)
    (hf : ∀ o, (f o).header.state = o.header.state) (hg : ∀ o, (g o).header.state = o.header.state)
    (hobject : ∀ a o o', v.handle? = some a → Object.Agrees but a o o' →
      Object.Agrees but a (f o) (g o')) :
    Alike but (change v check f h) (change v check' g h') := by
  unfold change
  cases hc : check h with
  | error fault =>
      rw [(hcheck fault).mp hc]
      exact .error ht
  | ok c =>
      obtain ⟨a, o, ha, ho⟩ := hfound c hc
      obtain ⟨o', ho', hagrees⟩ := ht.agrees.object a o ho
      cases hc' : check' h' with
      | error fault => cases hc.symm.trans ((hcheck fault).mpr hc')
      | ok c' =>
          rw [ha]
          exact .ok (ht.update ho ho' hf hg (hobject a o o' ha hagrees))

/-- A store outside `but`. -/
theorem alike_storeField (ht : Twins but h h') {i : Nat} (hout : ¬but v i) (x : Value) :
    Alike but (storeField v i x h) (storeField v i x h') := by
  refine ht.alike_change (fun fault => ?_) (fun c hc => ?_)
    (Object.reshapes_setField i x).state_eq (Object.reshapes_setField i x).state_eq fun a o o' _ hagrees => ?_
  · rw [ht.agrees.fetchField_eq hout]
  · obtain ⟨xs, hxs, -⟩ := fetchField_eq_ok.mp hc
    obtain ⟨a, o, rfl, ho, -⟩ := fields_eq_ok.mp hxs
    exact ⟨a, o, rfl, ho⟩
  · exact hagrees.setField i x

/-- A part of the fields is refused alike. -/
theorem slice_error_iff (ht : Twins but h h') (v : Value) (first count : Nat) (fault : HeapFault) :
    (do slice (← h.fields v) first count) = .error fault ↔
      (do slice (← h'.fields v) first count) = .error fault := by
  rcases ht.agrees.fields_or v with heq | ⟨xs, ys, hxs, hys, hsize, -⟩
  · rw [heq]
  · rw [hxs, hys]
    show slice xs first count = _ ↔ slice ys first count = _
    unfold slice
    rw [hsize]
    split
    · exact ⟨nofun, nofun⟩
    · exact Iff.rfl

/-- Fields are read from wherever they are the same in both. -/
theorem alike_transferFields (ht : Twins but h h') {source source' : Value}
    {start start' first count : Nat}
    (hmoved : (do slice (← h.fields source) start count) =
      (do slice (← h'.fields source') start' count)) :
    Alike but (transferFields source start v first count h)
      (transferFields source' start' v first count h') := by
  unfold transferFields
  rw [read_bind_run, read_bind_run, hmoved]
  cases (do slice (← h'.fields source') start' count) with
  | error fault => exact .error ht
  | ok moved =>
      refine ht.alike_change (fun fault => ht.slice_error_iff v first count fault) (fun c hc => ?_)
        (Object.reshapes_overwriteFields first moved).state_eq
        (Object.reshapes_overwriteFields first moved).state_eq fun a o o' _ hagrees => ?_
      · obtain ⟨xs, hxs, -⟩ := reading_bind_eq_ok.mp hc
        obtain ⟨a, o, rfl, ho, -⟩ := fields_eq_ok.mp hxs
        exact ⟨a, o, rfl, ho⟩
      · exact Object.agrees_overwrite first moved hagrees

/-! ## New objects -/

theorem alike_allocate (ht : Twins but h h') (space : Space) {o : Object}
    (hstate : o.header.state = .initial space) :
    Alike but (allocate space o h) (allocate space o h') := by
  have hspace : (h'.pool space).space = (h.pool space).space := by
    rw [ht.settled.pool_space, ht.settled'.pool_space]
  have hreserve := (ht.room space).reserve hspace (ht.epoch space) o.words
  have hafter := keeps_settled_allocate space hstate h ht.settled
  have hafter' := keeps_settled_allocate space hstate h' ht.settled'
  cases hplace : (h.pool space).reserve o.words with
  | error fault =>
      unfold allocate
      rw [hreserve, hplace]
      exact .error ht
  | ok a =>
      have hok : allocate space o h = .ok a (h.modifyPool space (·.push o)) := by
        unfold allocate
        rw [hplace]
      have hok' : allocate space o h' = .ok a (h'.modifyPool space (·.push o)) := by
        unfold allocate
        rw [hreserve, hplace]
      rw [hok] at hafter ⊢
      rw [hok'] at hafter' ⊢
      obtain ⟨-, -, hput⟩ := allocate_eq_ok ht.settled hok
      obtain ⟨-, -, hput'⟩ := allocate_eq_ok ht.settled' hok'
      refine .ok ⟨hafter, hafter', ⟨?_, ?_⟩, ?_, fun space' => ?_, fun space' => ?_⟩
      · intro b ob hob
        by_cases hb : b = a
        · subst hb
          cases hput.resolve_self.symm.trans hob
          exact ⟨_, hput'.resolve_self, .refl ..⟩
        · rw [hput.resolve_of_ne hb] at hob
          rw [hput'.resolve_of_ne hb]
          exact ht.agrees.object b ob hob
      · intro b fault hfault
        have hb : b ≠ a := by
          rintro rfl
          cases hput.resolve_self.symm.trans hfault
        rw [hput.resolve_of_ne hb] at hfault
        rw [hput'.resolve_of_ne hb]
        exact ht.agrees.fault b fault hfault
      · cases space <;> exact ht.settings
      · by_cases hsame : space' = space
        · subst hsame
          rw [pool_modifyPool_self, pool_modifyPool_self, Pool.epoch_push, Pool.epoch_push, ht.epoch]
        · rw [pool_modifyPool_of_ne _ _ hsame, pool_modifyPool_of_ne _ _ hsame, ht.epoch]
      · by_cases hsame : space' = space
        · subst hsame
          rw [pool_modifyPool_self, pool_modifyPool_self]
          exact (ht.room space').push rfl
        · rw [pool_modifyPool_of_ne _ _ hsame, pool_modifyPool_of_ne _ _ hsame]
          exact ht.room space'

theorem alike_allocateFields (ht : Twins but h h') (space : Space) (type : Value) (count : Nat)
    (fill : Value) : Alike but (allocateFields space type count fill h)
      (allocateFields space type count fill h') := by
  unfold allocateFields
  have hcheck : h'.checkSize count = h.checkSize count := by
    unfold checkSize
    rw [ht.settings]
  rw [read_bind_run, read_bind_run, hcheck]
  cases h.checkSize count with
  | error fault => exact .error ht
  | ok u =>
      have hstate : (Object.ofFields space type count fill).header.state = .initial space := rfl
      have halike := ht.alike_allocate space hstate
      simp only [bind_run]
      generalize allocate space (Object.ofFields space type count fill) h = r at halike
      generalize allocate space (Object.ofFields space type count fill) h' = r' at halike
      cases halike with
      | ok ht₁ => exact .ok ht₁
      | error ht₁ => exact .error ht₁

end Twins

end Heap

end MessageMachine
