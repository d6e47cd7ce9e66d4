import MessageMachine.Proofs.Heap.Twins

/-!
# Heaps that have grown

`h.Within old`: all references on the heap lead to handles of `old`.

`Outgrows but h h'`: the objects of `h` are in `h'` at the same handles, the same but for the elements in
`but`.  There may be others besides, which refer only to what was there before, and there is no more room
than before.  New objects, and stores into these or into elements of `but`, keep this
(`Outgrows.allocateFields`, `Outgrows.storeField`, `Outgrows.transferFields`).
-/

namespace MessageMachine

/-- A pool that has no room for an object has none after another object has been put into it. -/
theorem Pool.reserve_push_of_error {p : Pool} {o : Object} {words : Nat} {fault : HeapFault}
    (hfault : p.reserve words = .error fault) {a : Handle} (hreserve : p.reserve o.words = .ok a) :
    (p.push o).reserve words = .error fault := by
  unfold reserve at hfault hreserve
  split at hfault
  case isFalse => cases hfault
  next hneeds =>
  split at hfault
  case isFalse => cases hfault
  next hsize =>
  have hfits : p.needsSegment o.words = false := by
    by_contra hnot
    rw [if_pos (Bool.eq_true_of_not_eq_false hnot), if_pos hsize] at hreserve
    cases hreserve
  obtain ⟨⟨objects, used⟩, hlast, hback⟩ := back_of_not_needsSegment hfits
  rw [push_eq, if_neg (by simp [hfits])]
  have hback' : (p.segments.modify (p.segments.size - 1) (·.push o)).back? =
      some ⟨objects.push o, used + o.words⟩ := by
    rw [Array.back?_eq_getElem?, Array.size_modify, Array.getElem?_modify, if_pos rfl, hlast]
    rfl
  unfold reserve
  rw [if_pos, Array.size_modify, if_pos hsize]
  · exact hfault
  · unfold needsSegment at hneeds ⊢
    rw [hback] at hneeds
    rw [hback']
    simp only [Array.size_push, Bool.or_eq_true, decide_eq_true_eq] at hneeds ⊢
    omega

/-- What is in a part of an array is in the array. -/
theorem mem_of_mem_extract {xs : Array α} {start stop : Nat} {x : α} (hx : x ∈ xs.extract start stop) :
    x ∈ xs := by
  obtain ⟨i, hi, rfl⟩ := Array.mem_iff_getElem.mp hx
  rw [Array.getElem_extract]
  exact Array.getElem_mem _

/-! ## References to known objects -/

/-- What the value refers to, if anything, is among some handles. -/
def Value.Within (old : Set Handle) (v : Value) : Prop := ∀ a, v.handle? = some a → a ∈ old

theorem Value.Within.map_eq {old : Set Handle} {v : Value} (hv : v.Within old) {ρ : Handle → Handle}
    (hfixed : ∀ a ∈ old, ρ a = a) : v.map ρ = v := map_eq_self fun a ha => hfixed a (hv a ha)

theorem Value.within_int (old : Set Handle) (n : Int) : (Value.int n).Within old := nofun

namespace Object

/-- What the object refers to is among some handles. -/
def Within (old : Set Handle) (o : Object) : Prop := ∀ v ∈ o.references, v.Within old

variable {old : Set Handle} {o : Object}

theorem Within.mono (ho : o.Within old) {new : Set Handle} (hsub : old ⊆ new) : o.Within new :=
  fun v hv a ha => hsub (ho v hv a ha)

theorem Within.setField (ho : o.Within old) (i : Nat) {x : Value} (hx : x.Within old) :
    (o.setField i x).Within old := by
  obtain ⟨header, body⟩ := o
  cases body with
  | bytes xs => exact ho
  | words xs => exact ho
  | fields xs =>
      intro v hv
      rcases List.mem_cons.mp hv with rfl | hv
      · exact ho _ (List.mem_cons_self ..)
      · rcases Array.mem_or_eq_of_mem_setIfInBounds (Array.mem_toList_iff.mp hv) with hmem | rfl
        · exact ho v (List.mem_cons_of_mem _ (Array.mem_toList_iff.mpr hmem))
        · exact hx

theorem within_overwrite (first : Nat) {moved : Array Value} (hmoved : ∀ x ∈ moved, x.Within old) :
    o.Within old → Within old
      (match o with
        | ⟨header, .fields xs⟩ => ⟨header, .fields (Heap.overwrite xs first moved)⟩
        | o => o) := by
  intro ho
  obtain ⟨header, body⟩ := o
  cases body with
  | bytes xs => exact ho
  | words xs => exact ho
  | fields xs =>
      intro v hv
      rcases List.mem_cons.mp hv with rfl | hv
      · exact ho _ (List.mem_cons_self ..)
      · obtain ⟨i, hi, rfl⟩ := Array.mem_iff_getElem.mp (Array.mem_toList_iff.mp hv)
        have hold : ∀ x ∈ xs, x.Within old := fun x hx =>
          ho x (List.mem_cons_of_mem _ (Array.mem_toList_iff.mpr hx))
        simp only [Heap.overwrite, Array.getElem_mapIdx]
        split
        · cases hget : moved[i - first]? with
          | none => exact hold _ (Array.getElem_mem _)
          | some x => exact hmoved x (Array.mem_of_getElem? hget)
        · exact hold _ (Array.getElem_mem _)

theorem within_ofFields (space : Space) {type fill : Value} (count : Nat) (htype : type.Within old)
    (hfill : fill.Within old) : (ofFields space type count fill).Within old := by
  intro v hv
  rcases List.mem_cons.mp hv with rfl | hv
  · exact htype
  · obtain rfl : v = fill := (Array.mem_replicate.mp (Array.mem_toList_iff.mp hv)).2
    exact hfill

/-- An object without references to what is moved is its own image. -/
theorem Within.map_eq (ho : o.Within old) {ρ : Handle → Handle} (hfixed : ∀ a ∈ old, ρ a = a) :
    o.map ρ = o := by
  obtain ⟨⟨size, odd, type, state⟩, body⟩ := o
  have htype : type.map ρ = type := (ho type (List.mem_cons_self ..)).map_eq hfixed
  cases body with
  | bytes xs => simp only [map, htype]
  | words xs => simp only [map, htype]
  | fields xs =>
      have hfields : xs.map (·.map ρ) = xs := by
        refine (Array.map_congr_left fun v hv => ?_).trans (Array.map_id xs)
        exact (ho v (List.mem_cons_of_mem _ (by simpa using hv))).map_eq hfixed
      simp only [map, htype, hfields]

end Object

namespace Heap

variable {h h' : Heap} {old : Set Handle} {but : Value → Nat → Prop} {v : Value} {i : Nat}

/-- The handles that lead to an object. -/
def occupied (h : Heap) : Set Handle := {a | ∃ o, h.resolve a = .ok o}

/-- All references on the heap lead to some handles. -/
def Within (old : Set Handle) (h : Heap) : Prop := ∀ a o, h.resolve a = .ok o → o.Within old

theorem Within.fields (hh : h.Within old) {xs : Array Value} (hxs : h.fields v = .ok xs) :
    ∀ x ∈ xs, x.Within old := by
  obtain ⟨a, ⟨header, body⟩, rfl, ho, rfl⟩ := fields_eq_ok.mp hxs
  exact fun x hx => hh a _ ho x (List.mem_cons_of_mem _ (Array.mem_toList_iff.mpr hx))

theorem Within.fetchField (hh : h.Within old) {x : Value} (hx : h.fetchField v i = .ok x) :
    x.Within old := by
  obtain ⟨xs, hxs, hget⟩ := fetchField_eq_ok.mp hx
  exact hh.fields hxs x (Array.mem_of_getElem? hget)

theorem Within.putAt (hh : h.Within old) {a : Handle} {o : Object} (ho : o.Within old)
    (hput : PutAt h a o h') : h'.Within old := by
  intro b ob hob
  by_cases hb : b = a
  · subst hb
    cases hput.resolve_self.symm.trans hob
    exact ho
  · exact hh b ob ((hput.resolve_of_ne hb).symm.trans hob)

/-! ## More objects -/

theorem settings_of_allocate {o : Object} {a : Handle} (hrun : allocate .ephemeral o h = .ok a h') :
    h'.settings = h.settings := by
  unfold allocate at hrun
  split at hrun
  · cases hrun
    rfl
  · cases hrun

theorem reserve_of_allocate_error {o : Object} {fault : HeapFault}
    (hrun : allocate .ephemeral o h = .error fault h') :
    (h.pool .ephemeral).reserve o.words = .error fault := by
  unfold allocate at hrun
  split at hrun
  · cases hrun
  · next hreserve =>
    cases hrun
    exact hreserve

theorem exists_of_allocate_error (hsettled : h.Settled) {o : Object} {fault : HeapFault}
    (hrun : allocate .ephemeral o h = .error fault h') :
    ∃ segments, fault = .outOfMemory .ephemeral segments := by
  obtain ⟨segments, hfault⟩ := Pool.reserve_eq_error (reserve_of_allocate_error hrun)
  exact ⟨segments, hfault.trans (congrArg (HeapFault.outOfMemory · segments) hsettled.ephemeral_space)⟩

theorem full_of_allocate {o : Object} {a : Handle} (hrun : allocate .ephemeral o h = .ok a h')
    {words : Nat} {fault : HeapFault} (hfault : (h.pool .ephemeral).reserve words = .error fault) :
    (h'.pool .ephemeral).reserve words = .error fault := by
  unfold allocate at hrun
  split at hrun
  · next b hreserve =>
    cases hrun
    rw [pool_modifyPool_self]
    exact Pool.reserve_push_of_error hfault hreserve
  · cases hrun

/-- A change of an object takes no room and makes none. -/
theorem reserve_update {a : Handle} {f : Object → Object} (hsettled : h.Settled)
    (hafter : (h.update a f).Settled) (words : Nat) :
    ((h.update a f).pool .ephemeral).reserve words = (h.pool .ephemeral).reserve words :=
  (room_pool_update h a f .ephemeral).reserve (hafter.ephemeral_space.trans hsettled.ephemeral_space.symm)
    (epoch_pool_update ..) words

theorem reserve_of_storeField (hsettled : h.Settled) {x : Value} (hrun : storeField v i x h = .ok () h')
    (words : Nat) : (h'.pool .ephemeral).reserve words = (h.pool .ephemeral).reserve words := by
  have hafter : (stateAfter (storeField v i x h)).Settled :=
    keeps_settled_change v (·.fetchField v i) (Object.reshapes_setField i x).state_eq h hsettled
  rw [hrun] at hafter
  obtain ⟨⟨y, hy⟩, hupdate⟩ := change_eq_ok hrun
  obtain ⟨xs, hxs, -⟩ := fetchField_eq_ok.mp hy
  obtain ⟨a, o, rfl, ho, -⟩ := fields_eq_ok.mp hxs
  obtain rfl := hupdate a rfl
  exact reserve_update hsettled hafter words

/-- The second heap has no more room for new objects than the first. -/
def Tighter (h h' : Heap) : Prop := ∀ words fault, (h.pool .ephemeral).reserve words = .error fault →
  ∃ fault, (h'.pool .ephemeral).reserve words = .error fault

theorem Tighter.congr {h₁ h₁' : Heap} (ht : Tighter h h')
    (hsame : ∀ words, (h₁.pool .ephemeral).reserve words = (h.pool .ephemeral).reserve words)
    (hsame' : ∀ words, (h₁'.pool .ephemeral).reserve words = (h'.pool .ephemeral).reserve words) :
    Tighter h₁ h₁' := by
  intro words fault hfault
  rw [hsame] at hfault
  rw [hsame']
  exact ht words fault hfault

/-- The objects are still there, the same but for the elements in `but`, others refer to them, and there is
no more room than before. -/
structure Outgrows (but : Value → Nat → Prop) (h h' : Heap) : Prop where
  settled : h'.Settled
  settings : h'.settings = h.settings
  object : ∀ a o, h.resolve a = .ok o → ∃ o', h'.resolve a = .ok o' ∧ Object.Agrees but a o o'
  within : h'.Within h.occupied
  tighter : Tighter h h'

theorem Outgrows.refl (hsettled : h.Settled) (hh : h.Within h.occupied) : Outgrows but h h :=
  ⟨hsettled, rfl, fun _ o ho => ⟨o, ho, .refl ..⟩, hh, fun _ fault hfault => ⟨fault, hfault⟩⟩

theorem Outgrows.of_change (hg : Outgrows but h h') {check : Heap → Except HeapFault α}
    {f : Object → Object} (hstate : ∀ o, (f o).header.state = o.header.state)
    (hfound : ∀ c, check h' = .ok c → ∃ a o, v.handle? = some a ∧ h'.resolve a = .ok o ∧
      (f o).Within h.occupied ∧ (a ∈ h.occupied → Object.Agrees but a o (f o))) :
    Outgrows but h (stateAfter (change v check f h')) := by
  have hafter := keeps_settled_change v check hstate h' hg.settled
  cases hrun : change v check f h' with
  | error fault h'' =>
      rw [heap_of_change_error hrun]
      exact hg
  | ok u h'' =>
      rw [hrun] at hafter
      obtain ⟨⟨c, hc⟩, hupdate⟩ := change_eq_ok hrun
      obtain ⟨a, o, ha, ho, hwithin, hagrees⟩ := hfound c hc
      obtain rfl := hupdate a ha
      have hput := putAt_update ho f
      refine ⟨hafter, (settings_update ..).trans hg.settings, ?_, hg.within.putAt hwithin hput, ?_⟩
      · intro b ob hob
        obtain ⟨o', ho', hsame⟩ := hg.object b ob hob
        by_cases hb : b = a
        · subst hb
          cases ho.symm.trans ho'
          refine ⟨f o, hput.resolve_self, (hsame.trans (hagrees ⟨ob, hob⟩)).mono ?_⟩
          exact fun _ _ hor => hor.elim id id
        · exact ⟨o', (hput.resolve_of_ne hb).trans ho', hsame⟩
      · exact hg.tighter.congr (fun _ => rfl) (reserve_update hg.settled hafter)

/-- A store into a new object or into an element of `but`. -/
theorem Outgrows.storeField (hg : Outgrows but h h') {x : Value} (hx : x.Within h.occupied)
    (hv : (∀ a, v.handle? = some a → a ∉ h.occupied) ∨ but v i) :
    Outgrows but h (stateAfter (storeField v i x h')) := by
  refine hg.of_change (Object.reshapes_setField i x).state_eq fun c hc => ?_
  obtain ⟨xs, hxs, -⟩ := fetchField_eq_ok.mp hc
  obtain ⟨a, o, rfl, ho, -⟩ := fields_eq_ok.mp hxs
  refine ⟨a, o, rfl, ho, (hg.within a o ho).setField i hx, fun hold => ?_⟩
  refine (Object.agrees_setField a o i x).mono ?_
  rintro _ _ ⟨rfl, rfl⟩
  exact hv.resolve_left fun hnew => hnew a rfl hold

/-- Fields are copied into a new object. -/
theorem Outgrows.transferFields (hg : Outgrows but h h') {source : Value} {start first count : Nat}
    (hv : ∀ a, v.handle? = some a → a ∉ h.occupied) :
    Outgrows but h (stateAfter (transferFields source start v first count h')) := by
  unfold Heap.transferFields
  rw [read_bind_run]
  cases hread : (do slice (← h'.fields source) start count) with
  | error fault => exact hg
  | ok moved =>
      obtain ⟨xs, hxs, hslice⟩ := reading_bind_eq_ok.mp hread
      obtain ⟨-, rfl⟩ := slice_eq_ok.mp hslice
      have hmoved : ∀ x ∈ xs.extract start (start + count), x.Within h.occupied := fun x hx =>
        hg.within.fields hxs x (mem_of_mem_extract hx)
      refine hg.of_change (Object.reshapes_overwriteFields first _).state_eq fun c hc => ?_
      obtain ⟨ys, hys, -⟩ := reading_bind_eq_ok.mp hc
      obtain ⟨a, o, rfl, ho, -⟩ := fields_eq_ok.mp hys
      exact ⟨a, o, rfl, ho, Object.within_overwrite first hmoved (hg.within a o ho), fun hold =>
        absurd hold (hv a rfl)⟩

/-- A new object. -/
theorem Outgrows.allocateFields (hg : Outgrows but h h') {type fill : Value} (count : Nat)
    (htype : type.Within h.occupied) (hfill : fill.Within h.occupied) :
    Outgrows but h (stateAfter (allocateFields .ephemeral type count fill h')) ∧
      ∀ {c h''}, allocateFields .ephemeral type count fill h' = .ok c h'' →
        ∀ a, c.handle? = some a → a ∉ h.occupied := by
  unfold Heap.allocateFields
  rw [read_bind_run]
  cases h'.checkSize count with
  | error fault => exact ⟨hg, nofun⟩
  | ok u =>
  simp only [bind_run]
  have hstate : (Object.ofFields .ephemeral type count fill).header.state = .initial .ephemeral := rfl
  have hafter := keeps_settled_allocate .ephemeral hstate h' hg.settled
  cases hrun : allocate .ephemeral (Object.ofFields .ephemeral type count fill) h' with
  | error fault h'' =>
      refine ⟨?_, nofun⟩
      rw [heap_of_allocate_error hrun]
      exact hg
  | ok a h'' =>
      rw [hrun] at hafter
      obtain ⟨-, hstale, hput⟩ := allocate_eq_ok hg.settled hrun
      -- the handle was stale, but what was there at first still answers
      have hnew : a ∉ h.occupied := by
        rintro ⟨o, ho⟩
        obtain ⟨o', ho', -⟩ := hg.object a o ho
        cases hstale.symm.trans ho'
      refine ⟨⟨hafter, ?_, ?_, hg.within.putAt (Object.within_ofFields _ _ htype hfill) hput, ?_⟩, ?_⟩
      · exact (settings_of_allocate hrun).trans hg.settings
      · intro b o ho
        have hb : b ≠ a := fun heq => hnew (heq ▸ ⟨o, ho⟩)
        show ∃ o', h''.resolve b = .ok o' ∧ _
        rw [hput.resolve_of_ne hb]
        exact hg.object b o ho
      · intro words fault hfault
        obtain ⟨fault', hfault'⟩ := hg.tighter words fault hfault
        exact ⟨fault', full_of_allocate hrun hfault'⟩
      · rintro _ _ heq b hb
        cases heq
        cases hb
        exact hnew

end Heap

end MessageMachine
