import MessageMachine.Proofs.Heap.Growth

/-!
# Heaps embedded in others

`Embeds ρ old but h h'`: the object of each handle of `h` is in `h'` at the handle that `ρ` answers, the
same but for the elements in `but`.  All references lead to handles of `old`, which `ρ` leaves alone, so that
it is only objects to which nothing refers that are in another place.  Stores into both heaps and new objects
in both keep this (`Embeds.exists_storeField`, `Embeds.transferFields_or`, `Embeds.allocateFields_or`), and
what is stored alike in both is no longer in `but`.
-/

namespace MessageMachine

namespace Object

variable {o : Object}

/-- What objects agree about depends on their own elements only. -/
theorem Agrees.congr_at {but but' : Value → Nat → Prop} {a : Handle} {o' : Object}
    (hagrees : Agrees but a o o') (himp : ∀ v i, v.handle? = some a → but v i → but' v i) :
    Agrees but' a o o' := by
  obtain ⟨header, body⟩ := o
  obtain ⟨header', body'⟩ := o'
  obtain ⟨hheader, hbody⟩ := hagrees
  cases hbody with
  | fields hsize helements =>
      exact ⟨hheader, .fields hsize fun i hi => helements i fun hbut => hi (himp _ i rfl hbut)⟩
  | bytes hsize helements =>
      exact ⟨hheader, .bytes hsize fun i hi => helements i fun hbut => hi (himp _ i rfl hbut)⟩
  | words hsize helements =>
      exact ⟨hheader, .words hsize fun i hi => helements i fun hbut => hi (himp _ i rfl hbut)⟩

/-- Objects agree about a field that has been changed in both. -/
theorem Agrees.healed {but : Value → Nat → Prop} {a : Handle} {o' : Object}
    (hagrees : Agrees but a o o') (i : Nat) (x : Value) :
    Agrees (fun v j => but v j ∧ ¬(v = .object a ∧ j = i)) a (o.setField i x) (o'.setField i x) := by
  obtain ⟨header, body⟩ := o
  obtain ⟨header', body'⟩ := o'
  obtain ⟨hheader, hbody⟩ := hagrees
  cases hbody with
  | fields hsize helements =>
      refine ⟨hheader, .fields (by simp only [Array.size_setIfInBounds, hsize]) fun j hj => ?_⟩
      rw [Array.getElem?_setIfInBounds, Array.getElem?_setIfInBounds, hsize]
      by_cases hij : i = j
      · rw [if_pos hij, if_pos hij]
      · rw [if_neg hij, if_neg hij]
        exact helements j fun hbut => hj ⟨hbut, fun heq => hij heq.2.symm⟩
  | bytes hsize helements =>
      exact ⟨hheader, .bytes hsize fun j hj => helements j fun hbut => hj ⟨hbut, nofun⟩⟩
  | words hsize helements =>
      exact ⟨hheader, .words hsize fun j hj => helements j fun hbut => hj ⟨hbut, nofun⟩⟩

/-- Objects agree after they have been overwritten, but for what differs in what they are overwritten
with. -/
theorem agrees_overwrite_of {but but' : Value → Nat → Prop} {a : Handle} {o' : Object} {first : Nat}
    {moved moved' : Array Value} (hmoved : ∀ k, ¬but' (.object a) (first + k) → moved'[k]? = moved[k]?)
    (himp : ∀ v i, but v i → but' v i) : Agrees but a o o' → Agrees but' a
      (match o with
        | ⟨header, .fields xs⟩ => ⟨header, .fields (Heap.overwrite xs first moved)⟩
        | o => o)
      (match o' with
        | ⟨header, .fields xs⟩ => ⟨header, .fields (Heap.overwrite xs first moved')⟩
        | o => o) := by
  intro hagrees
  obtain ⟨header, body⟩ := o
  obtain ⟨header', body'⟩ := o'
  obtain ⟨hheader, hbody⟩ := hagrees.mono himp
  cases hbody with
  | bytes hsize helements => exact ⟨hheader, .bytes hsize helements⟩
  | words hsize helements => exact ⟨hheader, .words hsize helements⟩
  | fields hsizes helements =>
      refine ⟨hheader, .fields ?_ fun j hj => ?_⟩
      · simp only [Heap.overwrite, Array.size_mapIdx, hsizes]
      · simp only [Heap.overwrite, Array.getElem?_mapIdx, helements j hj]
        by_cases hfirst : first ≤ j
        · simp only [if_pos hfirst]
          rw [hmoved (j - first) (by rwa [Nat.add_sub_cancel' hfirst])]
        · simp only [if_neg hfirst]

/-- Objects that agree everywhere are the same. -/
theorem Agrees.eq {but : Value → Nat → Prop} {a : Handle} {o' : Object} (hagrees : Agrees but a o o')
    (hnone : ∀ v i, ¬but v i) : o' = o := by
  obtain ⟨header, body⟩ := o
  obtain ⟨header', body'⟩ := o'
  obtain ⟨rfl, hbody⟩ := hagrees
  cases hbody with
  | fields _ helements => rw [Array.ext_getElem? fun i => helements i (hnone _ i)]
  | bytes _ helements => rw [Array.ext_getElem? fun i => helements i (hnone _ i)]
  | words _ helements => rw [Array.ext_getElem? fun i => helements i (hnone _ i)]

end Object

namespace Heap

variable {h h' : Heap} {ρ : Handle → Handle} {old : Set Handle} {but : Value → Nat → Prop} {v : Value}
  {i : Nat}

/-! ## Objects in other places -/

/-- Each object of the first heap is in the second where `ρ` says, the same but for the elements in `but`.
References lead to handles of `old`, which `ρ` leaves alone. -/
structure Embeds (ρ : Handle → Handle) (old : Set Handle) (but : Value → Nat → Prop) (h h' : Heap) :
    Prop where
  settled : h.Settled
  settled' : h'.Settled
  settings : h'.settings = h.settings
  object : ∀ a o, h.resolve a = .ok o → ∃ o', h'.resolve (ρ a) = .ok o' ∧ Object.Agrees but a o o'
  injective : ∀ a ∈ h.occupied, ∀ b ∈ h.occupied, ρ a = ρ b → a = b
  onto : ∀ b o', h'.resolve b = .ok o' → (∃ a ∈ h.occupied, ρ a = b) ∨ o'.Within old
  live : old ⊆ h.occupied
  fixed : ∀ a ∈ old, ρ a = a
  within : h.Within old

theorem Outgrows.embeds (hg : Outgrows but h h') (hsettled : h.Settled) (hh : h.Within h.occupied) :
    Embeds id h.occupied but h h' where
  settled := hsettled
  settled' := hg.settled
  settings := hg.settings
  object := hg.object
  injective _ _ _ _ heq := heq
  onto b o' ho' := .inr (hg.within b o' ho')
  live := subset_rfl
  fixed _ _ := rfl
  within := hh

namespace Embeds

variable (he : Embeds ρ old but h h')
include he

theorem mono {but' : Value → Nat → Prop} (himp : ∀ v i, but v i → but' v i) : Embeds ρ old but' h h' :=
  ⟨he.settled, he.settled', he.settings, fun a o ho => (he.object a o ho).imp fun _ h =>
    ⟨h.1, h.2.mono himp⟩, he.injective, he.onto, he.live, he.fixed, he.within⟩

theorem known (hv : v.Within old) : v.Within h.occupied := fun a ha => he.live (hv a ha)

theorem map_eq (hv : v.Within old) : v.map ρ = v := hv.map_eq he.fixed

/-! ### Readings -/

/-- A value refers to the same object as its image, or to agreeing ones. -/
theorem object_or (hv : v.Within h.occupied) : h'.object (v.map ρ) = h.object v ∨
    ∃ a o o', v.handle? = some a ∧ h.object v = .ok o ∧ h'.object (v.map ρ) = .ok o' ∧
      Object.Agrees but a o o' := by
  cases ha : v.handle? with
  | none =>
      rw [Value.map_eq_self fun a ha' => by cases ha.symm.trans ha']
      left
      unfold Heap.object Value.handle
      rw [ha]
      rfl
  | some a =>
      obtain ⟨o, ho⟩ := hv a ha
      obtain ⟨o', ho', hagrees⟩ := he.object a o ho
      have hobject : ∀ (g : Heap) (w : Value) (b : Handle), w.handle? = some b →
          g.object w = g.resolve b := by
        intro g w b hb
        unfold Heap.object Value.handle
        rw [hb]
        rfl
      have hmap : (v.map ρ).handle? = some (ρ a) := by rw [Value.handle?_map, ha]; rfl
      exact .inr ⟨a, o, o', rfl, (hobject h v a ha).trans ho, (hobject h' _ _ hmap).trans ho', hagrees⟩

theorem typeOf_eq (hv : v.Within h.occupied) : h'.typeOf (v.map ρ) = h.typeOf v := by
  unfold Heap.typeOf
  rcases he.object_or hv with heq | ⟨a, o, o', -, ho, ho', hagrees⟩
  · rw [heq]
  · rw [ho, ho']
    exact congrArg (fun header => Except.ok (Header.type header)) hagrees.header

/-- The fields of a value are the same, or as many that are the same outside `but`. -/
theorem fields_or (hv : v.Within h.occupied) : h'.fields (v.map ρ) = h.fields v ∨
    ∃ xs ys, h.fields v = .ok xs ∧ h'.fields (v.map ρ) = .ok ys ∧ ys.size = xs.size ∧
      ∀ i, ¬but v i → ys[i]? = xs[i]? := by
  unfold Heap.fields
  rcases he.object_or hv with heq | ⟨a, ⟨header, body⟩, ⟨header', body'⟩, ha, ho, ho', -, hbody⟩
  · left
    rw [heq, Value.tag_map]
    cases v <;> rfl
  · rw [ho, ho', Value.tag_map]
    cases v with
    | int n => cases ha
    | bytes b => exact .inl rfl
    | words b => exact .inl rfl
    | object b =>
        cases ha
        cases hbody with
        | fields hsize helements => exact .inr ⟨_, _, rfl, rfl, hsize, helements⟩
        | bytes hsize => exact .inl rfl
        | words hsize => exact .inl rfl

/-- The bytes of a buffer are the same if no bytes are in `but`. -/
theorem bytes_eq (hv : v.Within h.occupied) (hout : ∀ a i, ¬but (.bytes a) i) :
    h'.bytes (v.map ρ) = h.bytes v := by
  unfold Heap.bytes
  rcases he.object_or hv with heq | ⟨a, ⟨header, body⟩, ⟨header', body'⟩, ha, ho, ho', -, hbody⟩
  · rw [heq, Value.tag_map]
    cases v <;> rfl
  · rw [ho, ho', Value.tag_map]
    cases v with
    | int n => cases ha
    | object b => rfl
    | words b => rfl
    | bytes b =>
        cases ha
        cases hbody with
        | bytes _ helements =>
            rw [Array.ext_getElem? fun i => helements i (hout _ i)]
            rfl
        | fields _ => rfl
        | words _ => rfl

theorem fieldCount_eq (hv : v.Within h.occupied) : h'.fieldCount (v.map ρ) = h.fieldCount v :=
  Agrees.size_eq (he.fields_or hv)

theorem fetchField_eq (hv : v.Within h.occupied) (hout : ¬but v i) :
    h'.fetchField (v.map ρ) i = h.fetchField v i :=
  Agrees.element_eq (he.fields_or hv) hout

/-- What refers to `old` is read where it is. -/
theorem fetchField_old (hv : v.Within old) (hout : ¬but v i) :
    h'.fetchField v i = h.fetchField v i := by
  have heq := he.fetchField_eq (he.known hv) hout
  rwa [he.map_eq hv] at heq

theorem fieldCount_old (hv : v.Within old) : h'.fieldCount v = h.fieldCount v := by
  have heq := he.fieldCount_eq (he.known hv)
  rwa [he.map_eq hv] at heq

theorem bytes_old (hv : v.Within old) (hout : ∀ a i, ¬but (.bytes a) i) : h'.bytes v = h.bytes v := by
  have heq := he.bytes_eq (he.known hv) hout
  rwa [he.map_eq hv] at heq

theorem typeOf_old (hv : v.Within old) : h'.typeOf v = h.typeOf v := by
  have heq := he.typeOf_eq (he.known hv)
  rwa [he.map_eq hv] at heq

/-! ### Changes -/

/-- An object and its image are changed into ones that agree. -/
theorem update {but' : Value → Nat → Prop} {a : Handle} {o o' : Object} {f g : Object → Object}
    (ho : h.resolve a = .ok o) (ho' : h'.resolve (ρ a) = .ok o')
    (hf : ∀ o, (f o).header.state = o.header.state) (hg : ∀ o, (g o).header.state = o.header.state)
    (hwithin : (f o).Within old) (hagrees : Object.Agrees but' a (f o) (g o'))
    (himp : ∀ v i, v.handle? ≠ some a → but v i → but' v i) :
    Embeds ρ old but' (h.update a f) (h'.update (ρ a) g) := by
  have hput := putAt_update ho f
  have hput' := putAt_update ho' g
  have hoccupied : ∀ b, b ∈ (h.update a f).occupied ↔ b ∈ h.occupied := by
    intro b
    by_cases hb : b = a
    · subst hb
      exact ⟨fun _ => ⟨o, ho⟩, fun _ => ⟨_, hput.resolve_self⟩⟩
    · simp only [occupied, Set.mem_ofPred_eq, hput.resolve_of_ne hb]
  have hne : ∀ b ∈ h.occupied, b ≠ a → ρ b ≠ ρ a := fun b hb hba heq =>
    hba (he.injective b hb a ⟨o, ho⟩ heq)
  constructor
  case settled => exact he.settled.update a hf
  case settled' => exact he.settled'.update (ρ a) hg
  case settings => rw [settings_update, settings_update, he.settings]
  case object =>
    intro b ob hob
    by_cases hb : b = a
    · subst hb
      cases hput.resolve_self.symm.trans hob
      exact ⟨_, hput'.resolve_self, hagrees⟩
    · rw [hput.resolve_of_ne hb] at hob
      rw [hput'.resolve_of_ne (hne b ⟨ob, hob⟩ hb)]
      obtain ⟨ob', hob', hsame⟩ := he.object b ob hob
      refine ⟨ob', hob', hsame.congr_at fun v i hv => himp v i fun ha => hb ?_⟩
      exact Option.some.inj (hv.symm.trans ha)
  case injective =>
    intro b hb c hc heq
    exact he.injective b ((hoccupied b).mp hb) c ((hoccupied c).mp hc) heq
  case onto =>
    intro b o₁ ho₁
    by_cases hb : b = ρ a
    · exact .inl ⟨a, (hoccupied a).mpr ⟨o, ho⟩, hb.symm⟩
    · rw [hput'.resolve_of_ne hb] at ho₁
      exact (he.onto b o₁ ho₁).imp_left fun ⟨c, hc, heq⟩ => ⟨c, (hoccupied c).mpr hc, heq⟩
  case live => exact fun b hb => (hoccupied b).mpr (he.live hb)
  case fixed => exact he.fixed
  case within => exact he.within.putAt hwithin hput

/-- The same is stored into a field of an object and of its image. -/
theorem exists_storeField {n : Nat} (hcount : h.fieldCount v = .ok n) (hi : i < n) {x : Value}
    (hx : x.Within old) : ∃ h₁ h₁', Heap.storeField v i x h = .ok () h₁ ∧
      Heap.storeField (v.map ρ) i x h' = .ok () h₁' ∧
      Embeds ρ old (fun w j => but w j ∧ ¬(w = v ∧ j = i)) h₁ h₁' ∧
      ∀ u, h₁.fieldCount u = h.fieldCount u := by
  obtain ⟨xs, hxs, rfl⟩ := fieldCount_eq_ok.mp hcount
  obtain ⟨a, ⟨header, body⟩, rfl, ho, rfl⟩ := fields_eq_ok.mp hxs
  obtain ⟨o', ho', hagrees⟩ := he.object a _ ho
  have hrun : ∀ {g : Heap} {b : Handle}, g.fieldCount (.object b) = .ok xs.size →
      Heap.storeField (.object b) i x g = .ok () (g.update b (·.setField i x)) := by
    intro g b hsize
    obtain ⟨y, hy⟩ := exists_fetchField hsize hi
    exact change_run _ hy rfl
  have hcount' := (he.fieldCount_eq (fun b hb => by cases hb; exact ⟨_, ho⟩)).trans hcount
  have hstore := hrun hcount
  refine ⟨_, _, hstore, hrun hcount', ?_, (stored_of_eq_ok he.settled hstore).counts⟩
  refine he.update ho ho' (Object.reshapes_setField i x).state_eq (Object.reshapes_setField i x).state_eq
    ((he.within a _ ho).setField i hx) ?_ ?_
  · exact hagrees.healed i x
  · rintro w j hw hbut
    exact ⟨hbut, fun heq => hw (heq.1 ▸ rfl)⟩

/-- A part of the fields is refused alike, or is the same outside `but`. -/
theorem slice_or (hv : v.Within h.occupied) (start count : Nat) :
    (∃ fault, (do slice (← h.fields v) start count) = .error fault ∧
      (do slice (← h'.fields (v.map ρ)) start count) = .error fault) ∨
    ∃ xs ys, (do slice (← h.fields v) start count) = .ok xs ∧
      (do slice (← h'.fields (v.map ρ)) start count) = .ok ys ∧ xs.size = count ∧ ys.size = count ∧
      ∀ k, ¬but v (start + k) → ys[k]? = xs[k]? := by
  rcases he.fields_or hv with heq | ⟨xs, ys, hxs, hys, hsize, helements⟩
  · rw [heq]
    cases hslice : (do slice (← h.fields v) start count) with
    | error fault => exact .inl ⟨fault, rfl, rfl⟩
    | ok zs =>
        obtain ⟨xs, -, hzs⟩ := reading_bind_eq_ok.mp hslice
        obtain ⟨hfits, rfl⟩ := slice_eq_ok.mp hzs
        have hcount : (xs.extract start (start + count)).size = count := by
          rw [Array.size_extract]
          omega
        exact .inr ⟨_, _, rfl, rfl, hcount, hcount, fun _ _ => rfl⟩
  · rw [hxs, hys]
    by_cases hfits : start + count ≤ xs.size
    · refine .inr ⟨_, _, slice_eq_ok.mpr ⟨hfits, rfl⟩, slice_eq_ok.mpr ⟨hsize ▸ hfits, rfl⟩, ?_, ?_, ?_⟩
      · rw [Array.size_extract]
        omega
      · rw [Array.size_extract]
        omega
      · intro k hk
        rw [Array.getElem?_extract, Array.getElem?_extract, hsize, helements _ hk]
    · refine .inl ⟨.value (.outOfRange (start + count) xs.size), if_neg hfits, ?_⟩
      show slice ys start count = _
      unfold slice
      rw [hsize, if_neg hfits]

/-- Fields are copied from one object to another and from its image to the image of the other. -/
theorem transferFields_or {source : Value} (start first count : Nat)
    (hsource : source.Within h.occupied) (hv : v.Within h.occupied) :
    (∃ fault, Heap.transferFields source start v first count h = .error fault h ∧
      Heap.transferFields (source.map ρ) start (v.map ρ) first count h' = .error fault h') ∨
    ∃ h₁ h₁', Heap.transferFields source start v first count h = .ok () h₁ ∧
      Heap.transferFields (source.map ρ) start (v.map ρ) first count h' = .ok () h₁' ∧
      Embeds ρ old (fun w j => but w j ∨ w = v ∧ ∃ k < count, j = first + k ∧ but source (start + k))
        h₁ h₁' ∧ (∀ u, h₁.fieldCount u = h.fieldCount u) ∧ ∃ n, h.fieldCount v = .ok n ∧ first + count ≤ n := by
  have htransferred : ∀ {h₁ : Heap}, Heap.transferFields source start v first count h = .ok () h₁ →
      (∀ u, h₁.fieldCount u = h.fieldCount u) ∧ ∃ n, h.fieldCount v = .ok n ∧ first + count ≤ n :=
    fun htransfer => have ht := transferred_of_eq_ok he.settled htransfer
      ⟨ht.altered.counts, ht.fits⟩
  unfold Heap.transferFields at htransferred ⊢
  rw [read_bind_run] at htransferred
  rw [read_bind_run, read_bind_run]
  rcases he.slice_or hsource start count with ⟨fault, hread, hread'⟩ | ⟨moved, moved', hread, hread', hsize,
    hsize', hmoved⟩
  · rw [hread, hread']
    exact .inl ⟨fault, rfl, rfl⟩
  rw [hread] at htransferred
  rw [hread, hread']
  dsimp only at htransferred ⊢
  rcases he.slice_or hv first count with ⟨fault, hcheck, hcheck'⟩ | ⟨_, _, hcheck, hcheck', -⟩
  · exact .inl ⟨fault, change_of_error hcheck, change_of_error hcheck'⟩
  obtain ⟨xs, hxs, -⟩ := reading_bind_eq_ok.mp hcheck
  obtain ⟨a, o, rfl, ho, -⟩ := fields_eq_ok.mp hxs
  obtain ⟨o', ho', hagrees⟩ := he.object a o ho
  have hmovedWithin : ∀ x ∈ moved, x.Within old := by
    obtain ⟨ys, hys, hslice⟩ := reading_bind_eq_ok.mp hread
    obtain ⟨-, rfl⟩ := slice_eq_ok.mp hslice
    exact fun x hx => he.within.fields hys x (mem_of_mem_extract hx)
  refine .inr ⟨_, _, change_run _ hcheck rfl, change_run _ hcheck' rfl, ?_,
    htransferred (change_run _ hcheck rfl)⟩
  refine he.update ho ho' (Object.reshapes_overwriteFields first moved).state_eq
    (Object.reshapes_overwriteFields first moved').state_eq
    (Object.within_overwrite first hmovedWithin (he.within a o ho)) ?_ fun _ _ _ hbut => .inl hbut
  refine Object.agrees_overwrite_of (fun k hk => ?_) (fun _ _ hbut => .inl hbut) hagrees
  by_cases hlt : k < count
  · exact hmoved k fun hbut => hk (.inr ⟨rfl, k, hlt, rfl, hbut⟩)
  · rw [Array.getElem?_eq_none (by omega), Array.getElem?_eq_none (by omega)]

/-- An object is put where nothing was in either heap. -/
theorem putAt {a b : Handle} {o : Object} {h₁ h₁' : Heap} (hnew : a ∉ h.occupied)
    (hstale' : h'.resolve b = .error (.staleHandle b)) (hput : PutAt h a o h₁) (hput' : PutAt h' b o h₁')
    (ho : o.Within old) (hsettled : h₁.Settled) (hsettled' : h₁'.Settled)
    (hsettings : h₁'.settings = h₁.settings) : Embeds (Function.update ρ a b) old but h₁ h₁' := by
  -- every image has an object already, so the new handle is none of them
  have hnew' : ∀ c ∈ h.occupied, ρ c ≠ b := by
    rintro c ⟨oc, hc⟩ rfl
    obtain ⟨oc', hc', -⟩ := he.object c oc hc
    cases hstale'.symm.trans hc'
  have hne : ∀ {c}, c ∈ h.occupied → c ≠ a := fun hc heq => hnew (heq ▸ hc)
  have hsame : ∀ {c}, c ∈ h.occupied → Function.update ρ a b c = ρ c := fun hc =>
    Function.update_of_ne (hne hc) ..
  have hoccupied : ∀ c, c ∈ h₁.occupied → c = a ∨ c ∈ h.occupied := by
    rintro c ⟨oc, hc⟩
    by_cases hca : c = a
    · exact .inl hca
    · exact .inr ⟨oc, (hput.resolve_of_ne hca).symm.trans hc⟩
  have hstill : h.occupied ⊆ h₁.occupied := by
    rintro c ⟨oc, hc⟩
    exact ⟨oc, (hput.resolve_of_ne (hne ⟨oc, hc⟩)).trans hc⟩
  constructor
  case settled => exact hsettled
  case settled' => exact hsettled'
  case settings => exact hsettings
  case object =>
    intro c oc hc
    rcases hoccupied c ⟨oc, hc⟩ with rfl | hold
    · cases hput.resolve_self.symm.trans hc
      rw [Function.update_self]
      exact ⟨_, hput'.resolve_self, .refl ..⟩
    · rw [hput.resolve_of_ne (hne hold)] at hc
      rw [hsame hold, hput'.resolve_of_ne (hnew' c hold)]
      exact he.object c oc hc
  case injective =>
    intro c hc d hd heq
    rcases hoccupied c hc with rfl | hold
    · rcases hoccupied d hd with rfl | hold'
      · rfl
      · rw [Function.update_self, hsame hold'] at heq
        exact absurd heq.symm (hnew' d hold')
    · rcases hoccupied d hd with rfl | hold'
      · rw [Function.update_self, hsame hold] at heq
        exact absurd heq (hnew' c hold)
      · rw [hsame hold, hsame hold'] at heq
        exact he.injective c hold d hold' heq
  case onto =>
    intro c oc hc
    by_cases hcb : c = b
    · exact .inl ⟨a, ⟨_, hput.resolve_self⟩, (Function.update_self ..).trans hcb.symm⟩
    · rw [hput'.resolve_of_ne hcb] at hc
      refine (he.onto c oc hc).imp_left ?_
      rintro ⟨d, hd, rfl⟩
      exact ⟨d, hstill hd, hsame hd⟩
  case live => exact he.live.trans hstill
  case fixed => exact fun c hc => (hsame (he.live hc)).trans (he.fixed c hc)
  case within => exact he.within.putAt ho hput

/-- An object is made in both heaps.  The second has no more room than the first. -/
theorem allocateFields_or (htighter : Tighter h h') {type fill : Value} (count : Nat)
    (htype : type.Within old) (hfill : fill.Within old) :
    (∃ fault, Heap.allocateFields .ephemeral type count fill h = .error fault h ∧
      Heap.allocateFields .ephemeral type count fill h' = .error fault h') ∨
    (∃ segments h₁', Heap.allocateFields .ephemeral type count fill h' =
      .error (.outOfMemory .ephemeral segments) h₁') ∨
    ∃ a b h₁ h₁', Heap.allocateFields .ephemeral type count fill h = .ok (.object a) h₁ ∧
      Heap.allocateFields .ephemeral type count fill h' = .ok (.object b) h₁' ∧
      a ∉ h.occupied ∧ h₁.fieldCount (.object a) = .ok count ∧
      Embeds (Function.update ρ a b) old but h₁ h₁' := by
  have hcheck : h'.checkSize count = h.checkSize count := by
    unfold checkSize
    rw [he.settings]
  unfold Heap.allocateFields
  rw [read_bind_run, read_bind_run, hcheck]
  cases h.checkSize count with
  | error fault => exact .inl ⟨fault, rfl, rfl⟩
  | ok u =>
  have hstate : (Object.ofFields .ephemeral type count fill).header.state = .initial .ephemeral := rfl
  have hafter := keeps_settled_allocate .ephemeral hstate h he.settled
  have hafter' := keeps_settled_allocate .ephemeral hstate h' he.settled'
  simp only [bind_run]
  cases hallocate' : allocate .ephemeral (Object.ofFields .ephemeral type count fill) h' with
  | error fault h₁' =>
      obtain ⟨segments, rfl⟩ := exists_of_allocate_error he.settled' hallocate'
      exact .inr (.inl ⟨segments, h₁', rfl⟩)
  | ok b h₁' =>
  cases hallocate : allocate .ephemeral (Object.ofFields .ephemeral type count fill) h with
  | error fault h₁ =>
      -- no room in the first heap would have meant no room in the second
      obtain ⟨fault', hfault⟩ := htighter _ fault (reserve_of_allocate_error hallocate)
      unfold allocate at hallocate'
      rw [hfault] at hallocate'
      cases hallocate'
  | ok a h₁ =>
  rw [hallocate] at hafter
  rw [hallocate'] at hafter'
  obtain ⟨-, hstale, hput⟩ := allocate_eq_ok he.settled hallocate
  obtain ⟨-, hstale', hput'⟩ := allocate_eq_ok he.settled' hallocate'
  have hnew : a ∉ h.occupied := by
    rintro ⟨o, ho⟩
    cases hstale.symm.trans ho
  have hcount : h₁.fieldCount (.object a) = .ok count := by
    refine fieldCount_eq_ok.mpr ⟨Array.replicate count fill, ?_, Array.size_replicate⟩
    exact fields_eq_ok.mpr ⟨a, _, rfl, hput.resolve_self, rfl⟩
  have hsettings : h₁'.settings = h₁.settings :=
    (settings_of_allocate hallocate').trans (he.settings.trans (settings_of_allocate hallocate).symm)
  exact .inr (.inr ⟨a, b, h₁, h₁', rfl, rfl, hnew, hcount, he.putAt hnew hstale' hput hput'
    (Object.within_ofFields .ephemeral count htype hfill) hafter hafter' hsettings⟩)

end Embeds

end Heap

end MessageMachine
