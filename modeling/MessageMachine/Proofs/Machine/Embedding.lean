import MessageMachine.Proofs.Heap.Embedding
import MessageMachine.Proofs.Machine.Growth
import MessageMachine.Proofs.Machine.Relocation
import MessageMachine.Proofs.Table.Refusal

/-!
# The same action on a machine with more objects

`Akin ρ old but m m'`: the machines are the same but for their heaps, of which the first is embedded in the
second by `ρ`.  The same action on both ends with the same fault, or makes and stores the same
(`Trails`), unless there is no room for a new object in the second.  This goes on until a context that has
been made in both is made active: then the machines are the same but for its place and for objects to which
nothing refers (`Isomorphic`).
-/

namespace MessageMachine

namespace Machine

variable {m m' t t' : Machine} {ρ : Handle → Handle} {old : Set Handle} {but : Value → Nat → Prop}
  {v c x : Value} {i n k : Nat}

/-! ## Outcomes -/

/-- The second outcome is that of the first, with `Q` for what they come to, or that memory has run out. -/
inductive Trails (Q : α → Machine → α → Machine → Prop) :
    EStateM.Result Fault Machine α → EStateM.Result Fault Machine α → Prop
  | ok {a a' : α} {m m' : Machine} : Q a m a' m' → Trails Q (.ok a m) (.ok a' m')
  | error {fault : Fault} {m m' : Machine} : Trails Q (.error fault m) (.error fault m')
  | exhausted {r : EStateM.Result Fault Machine α} {segments : Nat} {m' : Machine} :
      Trails Q r (.error (.heap (.outOfMemory .ephemeral segments)) m')

namespace Trails

variable {Q Q' : α → Machine → α → Machine → Prop}

theorem bind {R : β → Machine → β → Machine → Prop} {x y : MachineM α} {f g : α → MachineM β}
    (hx : Trails Q (x m) (y m')) (hf : ∀ a t a' t', Q a t a' t' → Trails R (f a t) (g a' t')) :
    Trails R ((x >>= f) m) ((y >>= g) m') := by
  rw [bind_run, bind_run]
  generalize x m = r at hx
  generalize y m' = r' at hx
  cases hx with
  | ok hq => exact hf _ _ _ _ hq
  | error => exact .error
  | exhausted => exact .exhausted

theorem weaken {r r' : EStateM.Result Fault Machine α} (h : Trails Q r r')
    (hQ : ∀ a t a' t', Q a t a' t' → Q' a t a' t') : Trails Q' r r' := by
  cases h with
  | ok hq => exact .ok (hQ _ _ _ _ hq)
  | error => exact .error
  | exhausted => exact .exhausted

/-- A reading with the same result. -/
theorem read {f g : Machine → Except Fault α} (hf : g m' = f m) :
    Trails (fun a t a' t' => a = a' ∧ f m = .ok a ∧ m = t ∧ m' = t') (Machine.read f m)
      (Machine.read g m') := by
  unfold Machine.read
  rw [hf]
  cases hfm : f m with
  | ok a => exact .ok ⟨rfl, rfl, rfl, rfl⟩
  | error fault => exact .error

theorem readHeap {f g : Heap → Except HeapFault α} (hf : g m'.heap = f m.heap) :
    Trails (fun a t a' t' => a = a' ∧ f m.heap = .ok a ∧ m = t ∧ m' = t') (Machine.readHeap f m)
      (Machine.readHeap g m') := by
  unfold Machine.readHeap
  rw [hf]
  cases hfm : f m.heap with
  | ok a => exact .ok ⟨rfl, rfl, rfl, rfl⟩
  | error fault => exact .error

theorem get : Trails (fun u t u' t' => m = u ∧ m' = u' ∧ m = t ∧ m' = t')
    ((MonadState.get : MachineM Machine) m) ((MonadState.get : MachineM Machine) m') :=
  .ok ⟨rfl, rfl, rfl, rfl⟩

end Trails

/-! ## Machines akin -/

/-- The machines are the same but for their heaps, of which the first is embedded in the second. -/
structure Akin (ρ : Handle → Handle) (old : Set Handle) (but : Value → Nat → Prop) (m m' : Machine) :
    Prop where
  rest : m' = m.withHeap m'.heap
  heap : m.heap.Embeds ρ old but m'.heap
  roots : ∀ v ∈ m.roots, v.Within old

/-- A machine that has grown is akin to what it was, but for the saved pointers. -/
theorem Closed.akin (hm : m.Closed) {h : Heap} (hg : m.heap.Outgrows m.Saved h) :
    Akin id m.heap.occupied m.Saved m (m.withHeap h) :=
  ⟨rfl, hg.embeds hm.settled hm.heap, hm.roots⟩

namespace Akin

variable (ha : Akin ρ old but m m')
include ha

theorem mono {but' : Value → Nat → Prop} (himp : ∀ v i, but v i → but' v i) : Akin ρ old but' m m' :=
  ⟨ha.rest, ha.heap.mono himp, ha.roots⟩

theorem known_eq : m'.known = m.known := by rw [ha.rest]; rfl

theorem regs_eq : m'.regs = m.regs := by rw [ha.rest]; rfl

theorem known (l : Landmark) : (m.known l).Within old := by
  refine ha.roots _ (List.mem_append_left _ (List.mem_append_right _ ?_))
  simp [Landmarks.toList, Landmarks.get]

theorem activeContext : m.regs.activeContext.Within old :=
  ha.roots _ (List.mem_append_left _ (List.mem_append_left _ (List.mem_cons_self ..)))

theorem withHeap {ρ' : Handle → Handle} {but' : Value → Nat → Prop} {h h' : Heap}
    (he : h.Embeds ρ' old but' h') : Akin ρ' old but' (m.withHeap h) (m'.withHeap h') := by
  refine ⟨?_, he, ha.roots⟩
  rw [ha.rest]
  rfl

/-! ### Readings -/

theorem stackValue_eq {depth : Nat} (hhigh : ∀ v i, but v i → i < m.regs.stackBase) :
    m'.stackValue depth = m.stackValue depth := by
  unfold stackValue
  rw [ha.regs_eq]
  by_cases hlow : m.regs.sp < m.regs.stackBase + depth
  · rw [if_pos hlow, if_pos hlow]
    rfl
  · rw [if_neg hlow, if_neg hlow]
    have hfetch : m'.heap.fetchField m.regs.activeContext (m.regs.sp - depth) =
        m.heap.fetchField m.regs.activeContext (m.regs.sp - depth) :=
      ha.heap.fetchField_old ha.activeContext fun hbut => by
        have := hhigh _ _ hbut
        omega
    rw [hfetch]

theorem within_stackValue {depth : Nat} (hv : m.stackValue depth = .ok v) : v.Within old :=
  ha.heap.within.fetchField (stackValue_eq_ok hv).2

theorem isInstance_eq (hv : v.Within old) (l : Landmark) : m'.isInstance v l = m.isInstance v l := by
  unfold isInstance
  rw [ha.known_eq]
  cases v with
  | object a => rw [ha.heap.typeOf_old hv]
  | int n => rfl
  | bytes a => rfl
  | words a => rfl

theorem within_classOf {type : Value} (htype : m.classOf v = .ok type) : type.Within old := by
  have hheader : ∀ {u}, m.heap.typeOf u = .ok type → type.Within old := by
    intro u hu
    obtain ⟨a, o, -, ho, rfl⟩ := Heap.typeOf_eq_ok.mp hu
    exact ha.heap.within a o ho _ (List.mem_cons_self ..)
  cases v with
  | int n =>
      cases htype
      exact ha.known _
  | object a => exact hheader (liftFault_eq_ok.mp htype)
  | bytes a => exact hheader (liftFault_eq_ok.mp htype)
  | words a => exact hheader (liftFault_eq_ok.mp htype)

theorem textOf_eq (hv : v.Within old) (hout : ∀ a i, ¬but (.bytes a) i) : m'.textOf v = m.textOf v := by
  unfold textOf
  rw [ha.heap.bytes_old hv hout]

theorem typeName_eq (hv : v.Within old) (hout : ¬but v Slot.typeName)
    (htext : ∀ a i, ¬but (.bytes a) i) :
    m'.typeName v = m.typeName v := by
  unfold typeName
  rw [ha.known_eq, ha.heap.fetchField_old hv hout]
  cases hname : m.heap.fetchField v Slot.typeName with
  | error fault => rfl
  | ok name =>
      have hsame := ha.textOf_eq (ha.heap.within.fetchField hname) htext
      show (if name = m.known .nil then _ else m'.textOf name) = _
      rw [hsame]
      rfl

theorem blockArity_eq (hv : v.Within old) (hout : ¬but v Slot.blockArguments) :
    m'.blockArity v = m.blockArity v := by
  unfold blockArity
  rw [ha.heap.fetchField_old hv hout]

theorem trails_fetchField (hv : v.Within old) (hout : ¬but v i) :
    Trails (fun x t x' t' => x = x' ∧ x.Within old ∧ m = t ∧ m' = t') (fetchField v i m)
      (fetchField v i m') := by
  refine (Trails.readHeap (ha.heap.fetchField_old hv hout)).weaken ?_
  rintro x t x' t' ⟨rfl, hx, rfl, rfl⟩
  exact ⟨rfl, ha.heap.within.fetchField hx, rfl, rfl⟩

/-! ### Stores -/

/-- A store into an element that is the same in both. -/
theorem trails_storeField (htighter : m.heap.Tighter m'.heap) (hv : v.Within old) (hout : ¬but v i)
    (hx : x.Within old) : Trails (fun _ t _ t' => Akin ρ old but t t' ∧ t = m.withHeap t.heap ∧
      t.heap.Tighter t'.heap) (storeField v i x m) (storeField v i x m') := by
  unfold storeField
  rw [onHeap_run, onHeap_run]
  cases hfetch : m.heap.fetchField v i with
  | error fault =>
      have hrun : Heap.storeField v i x m.heap = .error fault m.heap := Heap.change_of_error hfetch
      have hrun' : Heap.storeField v i x m'.heap = .error fault m'.heap :=
        Heap.change_of_error ((ha.heap.fetchField_old hv hout).trans hfetch)
      rw [hrun, hrun']
      exact .error
  | ok y =>
      obtain ⟨xs, hxs, hy⟩ := Heap.fetchField_eq_ok.mp hfetch
      have hcount : m.heap.fieldCount v = .ok xs.size := Heap.fieldCount_eq_ok.mpr ⟨xs, hxs, rfl⟩
      have hi := (Array.getElem?_eq_some_iff.mp hy).1
      obtain ⟨h, h', hrun, hrun', he, -⟩ := ha.heap.exists_storeField hcount hi hx
      rw [ha.heap.map_eq hv] at hrun'
      rw [hrun, hrun']
      refine .ok ⟨(ha.withHeap he).mono fun _ _ hbut => hbut.1, rfl, ?_⟩
      exact htighter.congr (Heap.reserve_of_storeField ha.heap.settled hrun)
        (Heap.reserve_of_storeField ha.heap.settled' hrun')

/-! ### New objects -/

end Akin

/-- The machines `t` and `t'` are akin, and have made an object with `n` fields since the first of them was
`m`, `c` in the first. -/
structure Making (old : Set Handle) (m : Machine) (c : Value) (n : Nat) (ρ : Handle → Handle)
    (but : Value → Nat → Prop) (t t' : Machine) : Prop where
  akin : Akin ρ old but t t'
  rest : t = m.withHeap t.heap
  new : ¬c.Within old
  count : t.heap.fieldCount c = .ok n
  counts : ∀ v k, v.Within old → m.heap.fieldCount v = .ok k → t.heap.fieldCount v = .ok k

theorem Akin.trails_newObject (ha : Akin ρ old but m m')
    (htighter : m.heap.Tighter m'.heap) (type : Landmark) (n : Nat) :
    Trails (fun c t c' t' => ∃ ρ, c' = c.map ρ ∧ Making old m c n ρ but t t')
      (newObject type n m) (newObject type n m') := by
  have hrun : newObject type n m' =
      onHeap (Heap.allocateFields .ephemeral (m.known type) n (m.known .nil)) m' := by
    rw [← ha.known_eq]
    rfl
  rw [hrun]
  show Trails _ (onHeap (Heap.allocateFields .ephemeral (m.known type) n (m.known .nil)) m) _
  rw [onHeap_run, onHeap_run]
  rcases ha.heap.allocateFields_or htighter n (ha.known type) (ha.known .nil) with
    ⟨fault, hmake, hmake'⟩ | ⟨segments, h', hmake'⟩ | ⟨a, b, h, h', hmake, hmake', hnew, hcount, he⟩
  · rw [hmake, hmake']
    exact .error
  · rw [hmake']
    exact .exhausted
  · rw [hmake, hmake']
    refine .ok ⟨Function.update ρ a b, ?_, ha.withHeap he, rfl, ?_, hcount, fun v k hv hk => ?_⟩
    · simp [Value.map]
    · exact fun hold => hnew (ha.heap.live (hold a rfl))
    · obtain ⟨xs, hxs, rfl⟩ := Heap.fieldCount_eq_ok.mp hk
      have hextended := Heap.Extended.of_allocateFields ha.heap.settled hmake
      exact Heap.fieldCount_eq_ok.mpr ⟨xs, hextended.retains.fields v xs id hxs, rfl⟩

namespace Making

variable (hk : Making old m c n ρ but t t')
include hk

theorem mono {but' : Value → Nat → Prop} (himp : ∀ v i, but v i → but' v i) :
    Making old m c n ρ but' t t' :=
  ⟨hk.akin.mono himp, hk.rest, hk.new, hk.count, hk.counts⟩

theorem activeContext_eq : t.regs.activeContext = m.regs.activeContext := by rw [hk.rest]; rfl

/-- The object and those that were there refer to handles that lead to objects. -/
theorem known : c.Within t.heap.occupied := by
  obtain ⟨xs, hxs, -⟩ := Heap.fieldCount_eq_ok.mp hk.count
  obtain ⟨a, o, rfl, ho, -⟩ := Heap.fields_eq_ok.mp hxs
  rintro _ ⟨⟩
  exact ⟨o, ho⟩

/-- A store into a field that is there. -/
theorem trails_storeField (hcount : t.heap.fieldCount v = .ok k) (hi : i < k) (hx : x.Within old) :
    Trails (fun _ t₁ _ t₁' => Making old m c n ρ (fun w j => but w j ∧ ¬(w = v ∧ j = i)) t₁ t₁')
      (storeField v i x t) (storeField (v.map ρ) i x t') := by
  obtain ⟨h, h', hstore, hstore', he, hcounts⟩ := hk.akin.heap.exists_storeField hcount hi hx
  unfold storeField
  rw [onHeap_run, onHeap_run, hstore, hstore']
  refine .ok ⟨hk.akin.withHeap he, ?_, hk.new, (hcounts c).trans hk.count, fun v k hv hk' => ?_⟩
  · rw [hk.rest]
    rfl
  · exact (hcounts v).trans (hk.counts v k hv hk')

theorem trails_transferFields {source : Value} (hsource : source.Within old) (start first count : Nat) :
    Trails (fun _ t₁ _ t₁' => first + count ≤ n ∧ Making old m c n ρ (fun w j => but w j ∨
        w = c ∧ ∃ k < count, j = first + k ∧ but source (start + k)) t₁ t₁')
      (onHeap (Heap.transferFields source start c first count) t)
      (onHeap (Heap.transferFields source start (c.map ρ) first count) t') := by
  have htransfer := hk.akin.heap.transferFields_or start first count
    (hk.akin.heap.known hsource) hk.known
  rw [hk.akin.heap.map_eq hsource] at htransfer
  rw [onHeap_run, onHeap_run]
  rcases htransfer with ⟨fault, hrun, hrun'⟩ | ⟨h, h', hrun, hrun', he, hcounts, size, hsize, hfits⟩
  · rw [hrun, hrun']
    exact .error
  · rw [hrun, hrun']
    cases hsize.symm.trans hk.count
    refine .ok ⟨hfits, hk.akin.withHeap he, ?_, hk.new, (hcounts c).trans hk.count, fun v k hv hk' => ?_⟩
    · rw [hk.rest]
      rfl
    · exact (hcounts v).trans (hk.counts v k hv hk')

end Making

/-! ### Saved pointers -/

namespace Making

/-- Saving the pointers makes up for a difference in the saved ones. -/
theorem trails_flush (hk : Making old m c n ρ m.Saved t t')
    (hactive : m.heap.fieldCount m.regs.activeContext = .ok k) (htail : Slot.contextTail ≤ k) :
    Trails (fun _ t₁ _ t₁' => Making old m c n ρ (fun _ _ => False) t₁ t₁') (flush t) (flush t') := by
  have hrun : ∀ t : Machine, flush t = (if t.regs.activeContext = t.known .nil then pure () else do
      storeField t.regs.activeContext Slot.ip (.ofNat t.regs.ip)
      storeField t.regs.activeContext Slot.sp (.ofNat t.regs.sp) : MachineM Unit) t := fun _ => rfl
  have hregs : t.regs = m.regs := by rw [hk.rest]; rfl
  have hknown : t.known = m.known := by rw [hk.rest]; rfl
  have hold : m.regs.activeContext.Within old := hk.activeContext_eq ▸ hk.akin.activeContext
  rw [hrun, hrun t', hk.akin.regs_eq, hk.akin.known_eq, hregs, hknown]
  split
  · next hnil => exact .ok (hk.mono fun v i hsaved => hsaved.2.1 (hsaved.1.trans hnil))
  · have hmap := hk.akin.heap.map_eq hold
    have hip := hk.trails_storeField (hk.counts _ _ hold hactive)
      ((by decide : Slot.ip < Slot.contextTail).trans_le htail) (Value.within_int old m.regs.ip)
    rw [hmap] at hip
    refine hip.bind ?_
    rintro _ t₁ _ t₁' hk₁
    have hsp := hk₁.trails_storeField (hk₁.counts _ _ hold hactive)
      ((by decide : Slot.sp < Slot.contextTail).trans_le htail) (Value.within_int old m.regs.sp)
    rw [hmap] at hsp
    refine hsp.weaken ?_
    rintro _ t₂ _ t₂' hk₂
    refine hk₂.mono ?_
    -- the two fields that could differ are those that have just been stored
    rintro v i ⟨⟨⟨rfl, -, rfl | rfl⟩, hnotip⟩, hnotsp⟩
    · exact hnotip ⟨rfl, rfl⟩
    · exact hnotsp ⟨rfl, rfl⟩

theorem trails_popN (hk : Making old m c n ρ but t t') (count : Nat) :
    Trails (fun _ t₁ _ t₁' => ∃ sp, Making old { m with regs := { m.regs with sp } } c n ρ
      but t₁ t₁') (popN count t) (popN count t') := by
  rw [popN_run, popN_run, hk.akin.regs_eq]
  split
  · exact .error
  · refine .ok ⟨t.regs.sp - count, ⟨?_, hk.akin.heap, hk.akin.roots⟩, ?_, hk.new, hk.count, hk.counts⟩
    · rw [hk.akin.rest]
      rfl
    · rw [hk.rest]
      rfl

end Making

/-! ## Loading a context -/

/-- What is read alike and goes on to images. -/
theorem reading_bind_map {x x' : Except ε α} {f : α → Except ε β} {f' : α → Except ε γ} {g : β → γ}
    (hx : x' = x) (hf : ∀ a, x = .ok a → f' a = (f a).map g) : (x' >>= f') = (x >>= f).map g := by
  subst hx
  cases x' with
  | error fault => rfl
  | ok a => exact hf a rfl

/-- The image of a context is loaded as the context is, with images for what the registers hold. -/
theorem loadContext_map (he : h.Embeds ρ old (fun _ _ => False) h') (hc : c.Within h.occupied)
    (hentry : r.entryProcess.Within old) (hwait : r.entryWait.Within old) :
    loadContext h' r (c.map ρ) = (loadContext h r c).map (Registers.map ρ) := by
  have hfetch : ∀ i, h'.fetchField (c.map ρ) i = h.fetchField c i := fun i => he.fetchField_eq hc id
  have hwithin : ∀ {v i x}, h.fetchField v i = .ok x → x.Within old := fun hx =>
    he.within.fetchField hx
  unfold loadContext
  refine reading_bind_map (hfetch _) fun method hmethod => ?_
  refine reading_bind_map (hfetch _) fun ipValue _ => reading_bind_map rfl fun ip _ => ?_
  refine reading_bind_map (hfetch _) fun spValue _ => reading_bind_map rfl fun sp _ => ?_
  refine reading_bind_map (hfetch _) fun receiver hreceiver => ?_
  refine reading_bind_map (hfetch _) fun arguments _ => ?_
  dsimp only
  split
  · refine reading_bind_map (hfetch _) fun home hhome => ?_
    refine reading_bind_map (he.fetchField_old (hwithin hmethod) id) fun header _ => ?_
    refine reading_bind_map rfl fun header _ => ?_
    refine reading_bind_map (he.fetchField_old (hwithin hmethod) id) fun code hcode => ?_
    refine reading_bind_map (he.fieldCount_eq hc) fun limit _ => ?_
    simp only [Registers.map, Except.map, pure, Except.pure, he.map_eq (hwithin hmethod),
      he.map_eq (hwithin hreceiver), he.map_eq (hwithin hcode), he.map_eq (hwithin hhome),
      he.map_eq hentry, he.map_eq hwait]
  · simp only [pure_bind]
    refine reading_bind_map (he.fetchField_old (hwithin hmethod) id) fun header _ => ?_
    refine reading_bind_map rfl fun header _ => ?_
    refine reading_bind_map (he.fetchField_old (hwithin hmethod) id) fun code hcode => ?_
    refine reading_bind_map (he.fieldCount_eq hc) fun limit _ => ?_
    simp only [Registers.map, Except.map, pure, Except.pure, he.map_eq (hwithin hmethod),
      he.map_eq (hwithin hreceiver), he.map_eq (hwithin hcode), he.map_eq hentry, he.map_eq hwait]

/-- What has been loaded is there. -/
theorem within_loadContext {h : Heap} {r r' : Registers} (hwithin : h.Within old) (hlive : old ⊆ h.occupied)
    (hc : c.Within h.occupied) (hentry : r.entryProcess.Within old) (hwait : r.entryWait.Within old)
    (hload : loadContext h r c = .ok r') : ∀ v ∈ [r'.activeContext, r'.homeContext, r'.method, r'.receiver,
      r'.code, r'.entryProcess, r'.entryWait], v.Within h.occupied := by
  obtain ⟨hmirrors, hactive, -, -, hprocess, hwait', -⟩ := loadContext_eq_ok.mp hload
  have hfield : ∀ {v i x}, h.fetchField v i = .ok x → x.Within h.occupied := fun hx a ha =>
    hlive (hwithin.fetchField hx a ha)
  have hold : ∀ {v : Value}, v.Within old → v.Within h.occupied := fun hv a ha => hlive (hv a ha)
  have hhome : r'.homeContext.Within h.occupied := by
    obtain ⟨x, -, hblock, hmethod⟩ := hmirrors.block
    cases hint : x.isInt with
    | true => exact hfield (hblock hint).1
    | false => exact (hmethod hint).1.trans hactive ▸ hc
  simp only [List.forall_mem_cons, List.not_mem_nil, false_implies, implies_true, and_true]
  exact ⟨hactive ▸ hc, hhome, hfield hmirrors.method, hfield hmirrors.receiver, hfield hmirrors.code,
    hprocess ▸ hold hentry, hwait' ▸ hold hwait⟩

/-! ## Isomorphic machines -/

/-- Nothing refers to the handle. -/
def Unreferenced (m : Machine) (b : Handle) : Prop :=
  (∀ v ∈ m.roots, v.handle? ≠ some b) ∧
    ∀ a o, m.heap.resolve a = .ok o → ∀ v ∈ o.references, v.handle? ≠ some b

/-- The machines are the same but for the places of their objects and for objects to which nothing refers
in the second, and for the method cache. -/
structure Isomorphic (ρ : Handle → Handle) (m m' : Machine) : Prop where
  rest : m' = { m with heap := m'.heap, regs := m.regs.map ρ, cache := m'.cache }
  roots : m'.roots = m.roots.map (·.map ρ)
  object : ∀ a o, m.heap.resolve a = .ok o → m'.heap.resolve (ρ a) = .ok (o.map ρ)
  injective : ∀ a ∈ m.heap.occupied, ∀ b ∈ m.heap.occupied, ρ a = ρ b → a = b
  onto : ∀ b ∈ m'.heap.occupied, (∃ a ∈ m.heap.occupied, ρ a = b) ∨ m'.Unreferenced b

namespace Making

variable (hk : Making old m c n ρ (fun _ _ => False) t t')
include hk

theorem isomorphic {r : Registers} (hload : loadContext t.heap t.regs c = .ok r) :
    Isomorphic ρ { t with regs := r } { t' with regs := r.map ρ } := by
  have he := hk.akin.heap
  have hroot := fun v hv => hk.akin.roots v (List.mem_append_left _ (List.mem_append_left _ hv))
  have hloaded := within_loadContext he.within he.live hk.known (hroot t.regs.entryProcess (by simp))
    (hroot t.regs.entryWait (by simp)) hload
  have hshared : ∀ v ∈ t.known.toList ++ t.pins.values, v.Within old := fun v hv => by
    refine hk.akin.roots v ?_
    unfold Machine.roots
    rw [List.append_assoc]
    exact List.mem_append_right _ hv
  have hpins : t'.pins = t.pins := by rw [hk.akin.rest]; rfl
  -- landmarks and pins stay where they are, so of the roots only the registers move
  have hroots : ({ t' with regs := r.map ρ } : Machine).roots =
      ({ t with regs := r } : Machine).roots.map (·.map ρ) := by
    have hfixed : (t.known.toList ++ t.pins.values).map (·.map ρ) = t.known.toList ++ t.pins.values :=
      (List.map_congr_left fun v hv => he.map_eq (hshared v hv)).trans (List.map_id _)
    unfold Machine.roots
    rw [List.append_assoc, List.append_assoc, List.map_append, hfixed, hk.akin.known_eq, hpins]
    rfl
  have hthere : ∀ v ∈ ({ t with regs := r } : Machine).roots, v.Within t.heap.occupied := by
    intro v hv
    unfold Machine.roots at hv
    rw [List.append_assoc] at hv
    rcases List.mem_append.mp hv with hv | hv
    · exact hloaded v hv
    · exact he.known (hshared v hv)
  constructor
  case rest =>
    rw [hk.akin.rest]
    rfl
  case roots => exact hroots
  case object =>
    intro a o ho
    obtain ⟨o', ho', hagrees⟩ := he.object a o ho
    rw [hagrees.eq fun _ _ => id, ← (he.within a o ho).map_eq he.fixed] at ho'
    exact ho'
  case injective => exact he.injective
  case onto =>
    intro b hb
    by_cases himage : ∃ a ∈ t.heap.occupied, ρ a = b
    · exact .inl himage
    · -- what anything refers to is an image
      have hold : b ∉ old := fun hold => himage ⟨b, he.live hold, he.fixed b hold⟩
      refine .inr ⟨?_, ?_⟩
      · rw [hroots]
        rintro _ hv hhandle
        obtain ⟨w, hw, rfl⟩ := List.mem_map.mp hv
        rw [Value.handle?_map] at hhandle
        obtain ⟨a, ha, rfl⟩ := Option.map_eq_some_iff.mp hhandle
        exact himage ⟨a, hthere w hw a ha, rfl⟩
      · intro a o' ho' v hv hhandle
        rcases he.onto a o' ho' with ⟨d, ⟨o, ho⟩, rfl⟩ | hwithin
        · obtain ⟨o'', ho'', hagrees⟩ := he.object d o ho
          cases ho''.symm.trans ho'
          rw [hagrees.eq fun _ _ => id] at hv
          exact hold (he.within d o ho v hv b hhandle)
        · exact hold (hwithin v hv b hhandle)

/-- The new context is made active. -/
theorem trails_reload : Trails (fun _ u _ u' => Isomorphic ρ u u') (reload c t) (reload (c.map ρ) t') := by
  have hroot := fun v hv => hk.akin.roots v (List.mem_append_left _ (List.mem_append_left _ hv))
  have hmap := loadContext_map hk.akin.heap hk.known (hroot t.regs.entryProcess (by simp))
    (hroot t.regs.entryWait (by simp))
  have hread : Trails (fun r u r' u' => r' = r.map ρ ∧ loadContext t.heap t.regs c = .ok r ∧ t = u ∧ t' = u')
      (read (fun m => (loadContext m.heap m.regs c : Except Fault Registers)) t)
      (read (fun m => (loadContext m.heap m.regs (c.map ρ) : Except Fault Registers)) t') := by
    unfold Machine.read
    dsimp only
    rw [hk.akin.regs_eq, hmap]
    cases loadContext t.heap t.regs c with
    | error fault => exact .error
    | ok r => exact .ok ⟨rfl, rfl, rfl, rfl⟩
  refine hread.bind ?_
  rintro r u _ u' ⟨rfl, hload, rfl, rfl⟩
  exact .ok (hk.isomorphic hload)

end Making

end Machine

end MessageMachine
