import MessageMachine.Machine.Method
import MessageMachine.Proofs.Heap.Embedding
import MessageMachine.Proofs.Machine.Access
import MessageMachine.Proofs.Send.Uncached
import MessageMachine.Proofs.Table.Failure

/-!
# Lookups on a heap that has grown

A lookup that has an answer has the same on a heap with more objects: what it reads is still there, and it has
more fuel to get along the chain of supertypes (`Machine.lookup_of_extended`).

A heap that has grown, with other elements in one object, is such a heap as soon as that object is exchanged
(`Heap.Outgrows.exists_agreeing`).
-/

namespace MessageMachine

variable {h h' : Heap}

/-- There are no fewer objects in a pool that has an object in every place where the other has one. -/
theorem Pool.objectCount_le {p q : Pool}
    (htaken : ∀ segment index o, p.at? segment index = some o → ∃ o', q.at? segment index = some o') :
    p.objectCount ≤ q.objectCount := by
  rw [← length_positions]
  refine length_le_objectCount p.nodup_positions fun place hplace => ?_
  obtain ⟨o, ho⟩ := mem_positions.mp hplace
  exact htaken _ _ o ho

namespace Heap

theorem objectCount_le (hsettled : h.Settled) (hsub : h.occupied ⊆ h'.occupied) :
    h.objectCount ≤ h'.objectCount := by
  have hpool : ∀ space, (h.pool space).objectCount ≤ (h'.pool space).objectCount := by
    intro space
    refine Pool.objectCount_le fun segment index o ho => ?_
    have hspace := hsettled.pool_space space
    have hresolve : h.resolve ⟨space, (h.pool space).epoch, segment, index⟩ = .ok o :=
      resolve_eq_ok.mpr ⟨hspace.symm, rfl, ho⟩
    obtain ⟨o', ho'⟩ := hsub ⟨o, hresolve⟩
    exact ⟨o', (resolve_eq_ok.mp ho').2.2⟩
  exact Nat.add_le_add (hpool .root) (hpool .ephemeral)

/-- A heap with the same objects and others has been extended. -/
theorem Extended.of_resolve (hsettled : h'.Settled)
    (hsame : ∀ a o, h.resolve a = .ok o → h'.resolve a = .ok o) : Extended h h' := by
  refine ⟨hsettled, fun v t ht => ?_, fun a o ho => ⟨o, hsame a o ho⟩, fun v xs hxs => ?_, fun v xs hxs => ?_,
    fun v xs _ hxs => ?_⟩
  · obtain ⟨a, o, ha, ho, hheader⟩ := typeOf_eq_ok.mp ht
    exact typeOf_eq_ok.mpr ⟨a, o, ha, hsame a o ho, hheader⟩
  · obtain ⟨a, o, rfl, ho, hbody⟩ := bytes_eq_ok.mp hxs
    exact bytes_eq_ok.mpr ⟨a, o, rfl, hsame a o ho, hbody⟩
  · obtain ⟨a, o, rfl, ho, hbody⟩ := words_eq_ok.mp hxs
    exact words_eq_ok.mpr ⟨a, o, rfl, hsame a o ho, hbody⟩
  · obtain ⟨a, o, rfl, ho, hbody⟩ := fields_eq_ok.mp hxs
    exact fields_eq_ok.mpr ⟨a, o, rfl, hsame a o ho, hbody⟩

theorem Extended.occupied (he : Extended h h') : h.occupied ⊆ h'.occupied := fun a ⟨o, ho⟩ =>
  he.retains.exist a o ho

/-- If all the elements that may differ are of one object, that is the one to exchange. -/
theorem Outgrows.exists_agreeing {but : Value → Nat → Prop} (hsettled : h.Settled)
    (hg : Outgrows but h h') {a : Handle} {header : Header} {xs : Array Value}
    (ho : h.resolve a = .ok ⟨header, .fields xs⟩) (honly : ∀ v i, but v i → v = .object a) :
    ∃ g, g.Settled ∧ h.Agrees but g ∧ g.Extended h' := by
  obtain ⟨⟨header', body⟩, ho', hagrees⟩ := hg.object a _ ho
  obtain ⟨ys, rfl⟩ : ∃ ys, body = .fields ys := by
    cases hagrees.body with
    | fields => exact ⟨_, rfl⟩
  obtain rfl : header' = header := hagrees.header
  have hput : h.PutAt a ⟨header', .fields ys⟩ (h.replace a header' ys) := putAt_update ho _
  have hsame : h.Agrees but (h.replace a header' ys) := by
    refine ⟨fun b o hb => ?_, fun b fault hb => ?_⟩
    · by_cases hba : b = a
      · subst hba
        cases ho.symm.trans hb
        exact ⟨_, hput.resolve_self, hagrees⟩
      · exact ⟨o, (hput.resolve_of_ne hba).trans hb, .refl ..⟩
    · have hba : b ≠ a := by
        rintro rfl
        cases ho.symm.trans hb
      exact (hput.resolve_of_ne hba).trans hb
  refine ⟨_, (Twins.of_replace hsettled ho hsame).settled', hsame, .of_resolve hg.settled fun b o hb => ?_⟩
  by_cases hba : b = a
  · subst hba
    cases hput.resolve_self.symm.trans hb
    exact ho'
  · rw [hput.resolve_of_ne hba] at hb
    obtain ⟨o', hb', hother⟩ := hg.object b o hb
    have hnone : Object.Agrees (fun _ _ => False) b o o' := hother.congr_at fun v i hv hbut => hba <| by
      cases honly v i hbut
      exact (Option.some.inj hv).symm
    rwa [hnone.eq fun _ _ => id] at hb'

end Heap

namespace Machine

variable {m t : Machine} {type selector : Value}

theorem lookupFrom_of_extended (he : m.heap.Extended h') {fuel fuel' : Nat} (hle : fuel ≤ fuel')
    {found : Option Value} (hfound : m.lookupFrom selector fuel type = .ok found) :
    (m.withHeap h').lookupFrom selector fuel' type = .ok found := by
  induction fuel generalizing fuel' type with
  | zero => cases hfound
  | succ fuel ih =>
      -- the fuel is the number of objects, of which there are now more
      obtain ⟨fuel', rfl⟩ := Nat.exists_eq_add_one.mpr (Nat.lt_of_lt_of_le fuel.succ_pos hle)
      unfold lookupFrom at hfound ⊢
      rw [withHeap_known]
      by_cases hnil : type = m.known .nil
      · rw [if_pos hnil] at hfound ⊢
        exact hfound
      · rw [if_neg hnil] at hfound ⊢
        obtain ⟨method, hmethod, hrest⟩ := reading_bind_eq_ok.mp hfound
        have hmethod' : (m.withHeap h').methodAt type selector = .ok method := by
          obtain ⟨r, hr, hfilter⟩ := reading_bind_eq_ok.mp hmethod
          refine reading_bind_eq_ok.mpr ⟨r, liftFault_eq_ok.mpr ?_, hfilter⟩
          exact Table.lookup_of_extended he (liftFault_eq_ok.mp hr)
        refine reading_bind_eq_ok.mpr ⟨method, hmethod', ?_⟩
        cases method with
        | some method => exact hrest
        | none =>
            obtain ⟨above, habove, hrest⟩ := reading_bind_eq_ok.mp hrest
            refine reading_bind_eq_ok.mpr ⟨above, ?_, ih (Nat.le_of_succ_le_succ hle) hrest⟩
            exact liftFault_eq_ok.mpr (he.retains.fetchField id (liftFault_eq_ok.mp habove))

theorem lookupFrom_withCache (c : MethodCache) (fuel : Nat) :
    (m.withCache c).lookupFrom selector fuel type = m.lookupFrom selector fuel type := by
  induction fuel generalizing type with
  | zero => rfl
  | succ fuel ih =>
      unfold lookupFrom
      simp only [ih]
      rfl

/-- A lookup answers what the cache has, or else what the types have. -/
theorem exists_lookup_iff {found : Option Value} : (∃ t, lookup type selector m = .ok found t) ↔
    (m.cache.find? type selector).isSome ∧ m.cache.find? type selector = found ∨
      m.cache.find? type selector = none ∧ m.lookupMethod type selector = .ok found := by
  have hget : (m.cache.get type selector).1 = m.cache.find? type selector := by
    unfold MethodCache.get
    cases m.cache.find? type selector <;> rfl
  have hcached : (modifyGet fun m : Machine =>
      ((m.cache.get type selector).1, m.withCache (m.cache.get type selector).2) :
        MachineM (Option Value)) m =
        .ok (m.cache.find? type selector) (m.withCache (m.cache.get type selector).2) := by
    rw [← hget]
    rfl
  rw [show lookup type selector m = _ from bind_eq_of_ok hcached]
  cases m.cache.find? type selector with
  | some method =>
      constructor
      · rintro ⟨t, heq⟩
        exact .inl ⟨rfl, (pure_eq_ok.mp heq).1⟩
      · rintro (⟨-, rfl⟩ | ⟨hnone, -⟩)
        · exact ⟨_, rfl⟩
        · cases hnone
  | none =>
      constructor
      · rintro ⟨t, heq⟩
        obtain ⟨found', t', hread, hrest⟩ := bind_eq_ok.mp heq
        obtain ⟨hlookup, rfl⟩ := read_eq_ok.mp hread
        obtain rfl : found' = found := by
          cases found' with
          | some method =>
              cases hrest
              rfl
          | none =>
              cases hrest
              rfl
        exact .inr ⟨rfl, (lookupFrom_withCache _ _).symm.trans hlookup⟩
      · rintro (⟨hsome, -⟩ | ⟨-, hlookup⟩)
        · cases hsome
        · have hread : read (·.lookupMethod type selector) (m.withCache (m.cache.get type selector).2) =
              .ok found _ := read_eq_ok.mpr ⟨(lookupFrom_withCache _ _).trans hlookup, rfl⟩
          dsimp only
          rw [bind_eq_of_ok hread]
          cases found with
          | some method => exact ⟨_, rfl⟩
          | none => exact ⟨_, rfl⟩

/-- A lookup that has an answer has it too on a heap with more objects. -/
theorem lookup_of_extended (hsettled : m.heap.Settled) (he : m.heap.Extended h') {found : Option Value}
    (hfound : lookup type selector m = .ok found t) :
    ∃ t', lookup type selector (m.withHeap h') = .ok found t' := by
  refine exists_lookup_iff.mpr ((exists_lookup_iff.mp ⟨t, hfound⟩).imp_right ?_)
  rintro ⟨hcache, hlookup⟩
  refine ⟨hcache, lookupFrom_of_extended he ?_ hlookup⟩
  exact Nat.succ_le_succ (Heap.objectCount_le hsettled he.occupied)

end Machine

end MessageMachine
