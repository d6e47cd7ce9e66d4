import MessageMachine.Proofs.Frame.Bounds
import MessageMachine.Proofs.Heap.Permanence
import MessageMachine.Proofs.Lookup.NewMachine
import MessageMachine.Proofs.Machine.Relocation

/-!
# The types of a machine form well-founded trees

`Developed m types` says that `m` has come from a new machine by defining types, compiling and installing
methods and collecting the heap, each of which may succeed or fail; `types` are the first types and the
ones defined, each with what was asked for (`Declaration`).  A type may be defined below any of these.

In all such machines the types are joined as they should be (`ClassGraph`): each has been made anew, below
the supertype that was asked for, and has a metatype of its own; the metatypes inherit from each other
as the types do, and every chain of supertypes ends at `Object`.  So a lookup ends, whatever the receiver
and the selector.  A type has the fields of its supertype and those that were asked for; but their number
is stored without the bits that do not fit, and a definition that asks for too many makes a type with
fewer than its supertype (`fewer_fields_of_wrapping`).

Collections are where the hierarchy meets the heap: kinds are root objects, and what joins them are
references between root objects, which no collection touches (`Heap.Permanence`).
-/

namespace MessageMachine

open Boot (placeholder)

variable {k k' : Landmarks} {h h' : Heap}

/-! ## Collections -/

theorem Value.Rooted.still {v : Value} (hv : v.Rooted) : ¬v.Mobile := by
  obtain ⟨a, rfl, hspace⟩ := hv
  exact not_mobile_of_handle rfl hspace

theorem Portable.carried {v v' : Value} (hv : Portable k v) (hc : v.Carried v') : Portable k v' := by
  rcases hc with rfl | ⟨-, hmobile⟩
  · exact hv
  · exact fun hrooted => absurd hmobile hrooted.still

/-- The supertype of a kind is one, or there is none. -/
theorem Reaches.supertype {nil metaclass v last x : Value} (hv : Reaches nil metaclass h v last)
    (hx : h.fetchField v Slot.supertype = .ok x) : x = nil ∨ IsKind metaclass h x := by
  obtain ⟨chain, hl, hlast, hkinds⟩ := hv
  cases hl with
  | root => cases hlast
  | @cons _ supertype rest _ hsuper hrest =>
      cases hx.symm.trans hsuper
      cases hrest with
      | root => exact .inl rfl
      | cons => exact .inr (hkinds _ (by simp))

/-- Where a chain ends there is no supertype. -/
theorem Reaches.fetchField_self {nil metaclass v : Value} (hv : Reaches nil metaclass h v v) :
    h.fetchField v Slot.supertype = .ok nil := by
  obtain ⟨chain, hl, hlast, -⟩ := hv
  have hnodup := hl.nodup
  cases hl with
  | root => cases hlast
  | @cons _ supertype rest _ hsuper hrest =>
      cases hrest with
      | root => exact hsuper
      | cons =>
          rw [List.getLast?_cons_cons] at hlast
          exact absurd (List.mem_of_getLast? hlast) (List.nodup_cons.mp hnodup).1

namespace Hierarchy

variable (hh : Hierarchy k h)
include hh

theorem isKind_of_typeOf {u t : Value} (ht : h.typeOf u = .ok t) : IsKind (k .metaclass) h t :=
  (hh.family.typed u t ht).resolve_right (hh.typed u t ht)

theorem stillTypes : h.StillTypes := fun _ _ ht =>
  (hh.family.rooted _ (hh.isKind_of_typeOf ht)).1.still

/-- The supertype chain of `Metaclass` goes through `Class`. -/
theorem reaches_metaclass : Reaches (k .nil) (k .metaclass) h (k .metaclass) (k .object) :=
  .cons (.inl hh.self) (hh.family.rooted _ (.inl hh.self)).2 hh.metaclass_super
    (hh.family.types_end _ (hh.first .classType (by decide)))

/-- The chain of supertypes of every kind ends at `Object`. -/
theorem reaches {v : Value} (hv : IsKind (k .metaclass) h v) :
    Reaches (k .nil) (k .metaclass) h v (k .object) := by
  rcases hv with hv | hv
  · by_cases hmeta : v = k .metaclass
    · rw [hmeta]
      exact hh.reaches_metaclass
    · exact hh.family.metatypes_end v hv hmeta
  · exact hh.family.types_end v hv

theorem supertype_still {v x : Value} (hv : IsKind (k .metaclass) h v)
    (hx : h.fetchField v Slot.supertype = .ok x) : ¬x.Mobile := by
  rcases (hh.reaches hv).supertype hx with rfl | hkind
  · exact hh.nil_rooted.still
  · exact (hh.family.rooted x hkind).1.still

/-- A collection makes no kinds, and joins none otherwise. -/
theorem steady_collected (hp : Heap.Permanence h h') : Steady (k .metaclass) h h' := by
  have hstill : ∀ v, IsKind (k .metaclass) h v → ¬v.Mobile := fun v hv =>
    (hh.family.rooted v hv).1.still
  refine ⟨hp.settled, fun v hv t => hp.types v t (hstill v hv), fun v hv x hx => ?_,
    fun v hv n hn => ?_, fun u t ht => ?_⟩
  · obtain ⟨x', hx', hc⟩ := hp.fields v _ x (hstill v hv) hx
    rw [hc.eq_of_still (hh.supertype_still hv hx)] at hx'
    exact hx'
  · obtain ⟨x', hx', hc⟩ := hp.fields v _ _ (hstill v hv) hn
    rw [hc.eq_of_still] at hx'
    · exact hx'
    · rintro ⟨a, ha, -⟩
      cases ha
  · by_cases hmobile : u.Mobile
    · -- an object that moves is no kind, so its type is no metatype
      obtain ⟨a, hspace, ha⟩ := hp.types_moved u t hmobile ht
      have hmoves : (Value.object a).Mobile := ⟨a, rfl, hspace⟩
      rcases hh.isKind_of_typeOf ha with hmeta | htype
      · refine absurd hmoves (hstill _ ?_)
        by_cases heq : t = k .metaclass
        · exact .inl ⟨rfl, heq ▸ ha⟩
        · exact .inr ⟨rfl, t, ha, hmeta, heq⟩
      · exact .inr htype
    · exact .inl (hp.types_back u t hmobile ht)

theorem owner_rooted {t : Table} (ht : TableOf k h t) : t.owner.Rooted := by
  cases ht with
  | symbols => exact hh.symbols_owner.rooted
  | globals => exact hh.globals_owner.rooted
  | methods hkind => exact (hh.family.rooted _ hkind).1

theorem collected (hp : Heap.Permanence h h') : Hierarchy k h' := by
  refine hh.steady (hh.steady_collected hp) (fun u t hu => hp.types u t hu.still) ?_
  intro t ht i hi v hv
  obtain ⟨x, hx, hc⟩ := hp.fields_back _ i v (hh.owner_rooted ht).still hv
  exact (hh.arrays t ht i hi x hx).carried hc

/-- The landmarks that count for the hierarchy are root objects. -/
theorem landmark_rooted {l : Landmark}
    (hl : l ∈ [Landmark.nil, .metaclass, .symbolTable, .globals] ∨
      l ∈ Boot.firstTypes.map Prod.fst) : (k l).Rooted := by
  rcases hl with hl | hl
  · simp only [List.mem_cons, List.not_mem_nil, or_false] at hl
    rcases hl with rfl | rfl | rfl | rfl
    · exact hh.nil_rooted
    · exact (hh.family.rooted _ (.inl hh.self)).1
    · exact hh.symbols_owner.rooted
    · exact hh.globals_owner.rooted
  · exact (hh.family.rooted _ (hh.isKind_first hl)).1

end Hierarchy

/-! ## What the steps of a development have in common -/

/-- Kinds are kinds still, with the supertypes and the numbers of fields that they had. -/
structure KeepsKinds (metaclass : Value) (h h' : Heap) : Prop where
  isType : ∀ v, IsType metaclass h v → IsType metaclass h' v
  isKind : ∀ v, IsKind metaclass h v → IsKind metaclass h' v
  supertypes : ∀ v, IsKind metaclass h v → ∀ x, h.fetchField v Slot.supertype = .ok x →
    h'.fetchField v Slot.supertype = .ok x
  fixed : ∀ v, IsKind metaclass h v → ∀ n, h.fetchField v Slot.fixedFields = .ok (.int n) →
    h'.fetchField v Slot.fixedFields = .ok (.int n)

namespace KeepsKinds

variable {metaclass : Value} {h'' : Heap}

theorem of_steady (hs : Steady metaclass h h') : KeepsKinds metaclass h h' :=
  ⟨fun _ => hs.isType, fun _ => hs.isKind, hs.supertypes, hs.fixed⟩

theorem of_enlarged {nil : Value} (he : Enlarged nil metaclass h h') : KeepsKinds metaclass h h' :=
  ⟨fun _ => he.isType, fun _ => he.isKind, fun v _ => he.fields v _, fun v _ _ => he.fields v _ _⟩

theorem trans (hfirst : KeepsKinds metaclass h h') (hsecond : KeepsKinds metaclass h' h'') :
    KeepsKinds metaclass h h'' where
  isType v hv := hsecond.isType v (hfirst.isType v hv)
  isKind v hv := hsecond.isKind v (hfirst.isKind v hv)
  supertypes v hv x hx := hsecond.supertypes v (hfirst.isKind v hv) x (hfirst.supertypes v hv x hx)
  fixed v hv n hn := hsecond.fixed v (hfirst.isKind v hv) n (hfirst.fixed v hv n hn)

theorem definedAs (hk : KeepsKinds metaclass h h') {v supertype : Value} {fixed : Nat}
    (hv : DefinedAs metaclass h v supertype fixed) : DefinedAs metaclass h' v supertype fixed :=
  ⟨hk.isType v hv.isType, hk.supertypes v (.inr hv.isType) _ hv.supertype_eq,
    hk.fixed v (.inr hv.isType) _ hv.fixed_eq⟩

end KeepsKinds

namespace Machine

variable {m m' : Machine}

/-! ### The two kinds of step -/

/-- The landmarks and the active context are carried along with the other roots. -/
theorem carried_setRoots {roots : List Value} (hall : List.Forall₂ Value.Carried m.roots roots) :
    (∀ l, (m.known l).Carried ((m.setRoots roots).known l)) ∧
      m.regs.activeContext.Carried (m.setRoots roots).regs.activeContext := by
  unfold Machine.roots at hall
  simp only [List.cons_append, List.nil_append, List.forall₂_cons_left_iff] at hall
  obtain ⟨activeContext, _, hactive, ⟨homeContext, _, -, ⟨method, _, -, ⟨receiver, _, -, ⟨code, _, -,
    ⟨entryProcess, _, -, ⟨entryWait, rest, -, hrest, rfl⟩, rfl⟩, rfl⟩, rfl⟩, rfl⟩, rfl⟩, rfl⟩ := hall
  refine ⟨fun l => ?_, hactive⟩
  change (m.known l).Carried (m.known.refill rest l)
  obtain ⟨hlength, hget⟩ := List.forall₂_iff_get.mp hrest
  have hindex : l.index.val < m.known.toList.length := by
    rw [Landmarks.toList, Vector.length_toList]
    exact l.index.isLt
  have hleft : l.index.val < (m.known.toList ++ m.pins.values).length := by
    rw [List.length_append]
    exact Nat.lt_add_right _ hindex
  have hcarried := hget l.index.val hleft (hlength ▸ hleft)
  simp only [List.get_eq_getElem, List.getElem_append_left hindex] at hcarried
  simp only [Landmarks.refill, Landmarks.get, Fin.getElem_fin, Vector.getElem_mapIdx,
    Array.getD_eq_getD_getElem?, List.getElem?_toArray, List.getElem?_eq_getElem (hlength ▸ hleft),
    Option.getD_some]
  simpa only [Landmarks.toList, Vector.getElem_toList] using hcarried

/-- The types of a machine are in order, and no context is active. -/
structure Poised (m : Machine) : Prop where
  hierarchy : Hierarchy m.known m.heap
  idle : m.regs.activeContext = m.known .nil

/-- The machine is poised again, and what was a kind is one. -/
structure Advanced (m m' : Machine) : Prop where
  poised : Poised m'
  nil_eq : m'.known .nil = m.known .nil
  metaclass_eq : m'.known .metaclass = m.known .metaclass
  kinds : KeepsKinds (m.known .metaclass) m.heap m'.heap

theorem Advanced.trans {m'' : Machine} (ha : Advanced m m') (ha' : Advanced m' m'') :
    Advanced m m'' :=
  ⟨ha'.poised, ha'.nil_eq.trans ha.nil_eq, ha'.metaclass_eq.trans ha.metaclass_eq,
    ha.kinds.trans (ha.metaclass_eq ▸ ha'.kinds)⟩

namespace Poised

theorem tending (hm : Poised m) : Tending m.known m.heap m := ⟨rfl, hm.idle, hm.hierarchy.tended⟩

theorem advanced {action : MachineM α} (hm : Poised m)
    (hkeeps : Keeps (Tending m.known m.heap) action) : Advanced m (stateAfter (action m)) := by
  obtain ⟨hknown, hidle, ht⟩ := hkeeps m hm.tending
  exact ⟨⟨hknown ▸ ht.hierarchy, hknown ▸ hidle⟩, by rw [hknown], by rw [hknown], .of_steady ht.steady⟩

/-- A collection, whether it succeeds or fails. -/
theorem collectGarbage (hm : Poised m) : Advanced m (stateAfter (collectGarbage m)) := by
  have hstill := hm.hierarchy.stillTypes
  have hsettled := hm.hierarchy.family.settled
  have hp := Heap.permanence_collect hsettled hstill m.roots
  obtain ⟨hknown, hactive⟩ := carried_setRoots (Heap.roots_collect hsettled hstill m.roots)
  have hsame : ∀ l, l ∈ [Landmark.nil, .metaclass, .symbolTable, .globals] ∨
      l ∈ Boot.firstTypes.map Prod.fst → m.collected.known l = m.known l := fun l hl =>
    (hknown l).eq_of_still (hm.hierarchy.landmark_rooted hl).still
  have hnil := hsame .nil (.inl (by decide))
  have hmeta := hsame .metaclass (.inl (by decide))
  have hidle : m.collected.regs.activeContext = m.collected.known .nil := by
    rw [hnil, ← hm.idle]
    refine hactive.eq_of_still ?_
    rw [hm.idle]
    exact hm.hierarchy.nil_rooted.still
  have hcollected : Advanced m m.collected :=
    ⟨⟨(hm.hierarchy.collected hp).congr hsame, hidle⟩, hnil, hmeta,
      .of_steady (hm.hierarchy.steady_collected hp)⟩
  -- no context is active, so nothing is saved before and nothing loaded after
  unfold Machine.collectGarbage
  rw [bind_eq_of_ok (flush_of_idle hm.idle)]
  change Advanced m (stateAfter (((liftM (m.heap.collect m.roots).result : MachineM Heap.Cycle) >>=
    fun cycle => do
      modify fun m => { m with cache := m.cache.flush }
      let context := (← get).regs.activeContext
      unless context = (← landmark .nil) do reload context
      return cycle) m.collected))
  cases (m.heap.collect m.roots).result with
  | error fault => exact hcollected
  | ok cycle =>
      change Advanced m (stateAfter ((if m.collected.regs.activeContext = m.collected.known .nil then
        pure cycle else do
          reload m.collected.regs.activeContext
          pure cycle : MachineM Heap.Cycle) { m.collected with cache := m.collected.cache.flush }))
      rw [if_pos hidle]
      exact ⟨⟨hcollected.poised.hierarchy, hidle⟩, hnil, hmeta, hcollected.kinds⟩

theorem refl (hm : Poised m) : Advanced m m :=
  ⟨hm, rfl, rfl, .of_steady (.refl hm.hierarchy.family.settled)⟩

/-- Kinds have been made. -/
theorem enlarged (hm : Poised m) (hh : Hierarchy m.known h)
    (he : Enlarged (m.known .nil) (m.known .metaclass) m.heap h) : Advanced m (m.withHeap h) :=
  ⟨⟨hh, hm.idle⟩, rfl, rfl, .of_enlarged he⟩

/-- Naming a new type, after which nothing but its name is different. -/
theorem nameType (hm : Poised m) {v : Value} (hv : IsType (m.known .metaclass) m.heap v)
    (name : String) : Advanced m (stateAfter
      (onHeap (Boot.nameType m.tableConfig m.known v name) m)) := by
  have hkeeps : Keeps (Tending m.known m.heap)
      (fun m => onHeap (Boot.nameType m.tableConfig m.known v name) m) :=
    Tending.keeps_nameType (.inr hv) name
  have hnamed := hm.advanced hkeeps
  exact hnamed

/-- Making a type and its metatype. -/
theorem ensures_newType (hm : Poised m) {supertype : Value}
    (hsupertype : IsType (m.known .metaclass) m.heap supertype ∨ supertype = m.known .metaclass)
    (fixed : Nat) (format : Format) : Ensures (m = ·)
      (onHeap (Boot.newType (m.known .nil) (m.known .metaclass) supertype fixed format))
      (fun v m' => Advanced m m' ∧ DefinedAs (m'.known .metaclass) m'.heap v supertype fixed ∧
        ∀ t, m.heap.typeOf v ≠ .ok t)
      fun _ m' => Advanced m m' := by
  rintro _ rfl
  have houtcome := hm.hierarchy.newType hsupertype fixed format
  rw [onHeap_run]
  cases hnew : Boot.newType (m.known .nil) (m.known .metaclass) supertype fixed format m.heap with
  | error fault h =>
      rw [hnew] at houtcome
      exact hm.enlarged houtcome.1 houtcome.2
  | ok v h =>
      rw [hnew] at houtcome
      exact ⟨hm.enlarged houtcome.1 houtcome.2.1, houtcome.2.2⟩

/-- A definition makes a metatype and its type.  If it fails, it may have made both, or just the
metatype. -/
theorem ensures_defineType (hm : Poised m) {supertype : Value}
    (hsupertype : IsType (m.known .metaclass) m.heap supertype ∨ supertype = m.known .metaclass)
    (name : String) (fields : Nat) (format : Format) :
    Ensures (m = ·) (defineType name supertype fields format)
      (fun v m' => Advanced m m' ∧ (∀ t, m.heap.typeOf v ≠ .ok t) ∧ ∃ n : Nat,
        m.heap.fetchField supertype Slot.fixedFields = .ok (.ofNat n) ∧
        DefinedAs (m'.known .metaclass) m'.heap v supertype (n + fields))
      fun _ m' => Advanced m m' := by
  unfold defineType
  refine Ensures.bind (Q := fun n m' => m = m' ∧
    m.heap.fetchField supertype Slot.fixedFields = .ok (.ofNat n)) ?_ fun n => ?_
  · refine (ensures_read (m = ·) _).weaken (fun _ => id) ?_ ?_
    · rintro n _ ⟨rfl, hn⟩
      obtain ⟨x, hx, hindex⟩ := reading_bind_eq_ok.mp hn
      refine ⟨rfl, ?_⟩
      rw [liftFault_eq_ok.mp hx, Value.index_eq_ok.mp (liftValueFault_eq_ok.mp hindex)]
    · rintro _ _ rfl
      exact hm.refl
  · rintro _ ⟨rfl, hfixed⟩
    refine Ensures.bind (hm.ensures_newType hsupertype (n + fields) format) (fun v => ?_) m rfl
    refine Ensures.bind (Q := fun _ m' => Advanced m m' ∧ (∀ t, m.heap.typeOf v ≠ .ok t) ∧
      DefinedAs (m'.known .metaclass) m'.heap v supertype (n + fields)) ?_
      fun _ => Ensures.pure fun _ ⟨ha, hnew, hv⟩ => ⟨ha, hnew, n, hfixed, hv⟩
    rintro m₁ ⟨ha, hv, hnew⟩
    have hnamed := ha.poised.nameType hv.isType name
    dsimp only
    cases hname : onHeap (Boot.nameType m₁.tableConfig m₁.known v name) m₁ with
    | error fault m₂ =>
        rw [hname] at hnamed
        exact ha.trans hnamed
    | ok u m₂ =>
        rw [hname] at hnamed
        exact ⟨ha.trans hnamed, hnew, hnamed.metaclass_eq ▸ hnamed.kinds.definedAs hv⟩

end Poised

/-! ## Histories -/

/-- The answer of an action that has succeeded. -/
def answers : EStateM.Result ε σ α → List α
  | .ok a _ => [a]
  | .error .. => []

/-- A type, with the supertype and the number of additional fields that it was asked for with. -/
structure Declaration where
  type : Value
  supertype : Value
  fields : Nat

/-- The types that a machine is booted with. -/
def bootTypes (m : Machine) : List Declaration :=
  ⟨m.known .metaclass, m.known .classType, 0⟩ ::
    Boot.firstTypes.map fun entry => ⟨m.known entry.1, m.known entry.2.1, entry.2.2.1⟩

/-- `m` has come from a new machine by defining types below `types`, compiling and installing methods
and collecting the heap; each of these may also fail. -/
inductive Developed : Machine → List Declaration → Prop where
  | created {settings : Settings} {m : Machine} : create settings = .ok m → Developed m m.bootTypes
  | defined {m : Machine} {types : List Declaration} {supertype : Value} (name : String) (fields : Nat)
      (format : Format) : Developed m types → supertype ∈ types.map Declaration.type →
      Developed (stateAfter (defineType name supertype fields format m))
        ((answers (defineType name supertype fields format m)).map (⟨·, supertype, fields⟩) ++ types)
  | compiled {m : Machine} {types : List Declaration} (spec : MethodSpec) : Developed m types →
      Developed (stateAfter (compileMethod spec m)) types
  | installed {m : Machine} {types : List Declaration} {type method : Value} : Developed m types →
      (type ∈ types.map Declaration.type ∨ ∃ d ∈ types, m.heap.typeOf d.type = .ok type) →
      m.heap.typeOf method = .ok (m.known .compiledMethod) →
      Developed (stateAfter (installMethod type method m)) types
  | methodDefined {m : Machine} {types : List Declaration} {type : Value} (spec : MethodSpec) :
      Developed m types →
      (type ∈ types.map Declaration.type ∨ ∃ d ∈ types, m.heap.typeOf d.type = .ok type) →
      Developed (stateAfter (defineMethod type spec m)) types
  | collected {m : Machine} {types : List Declaration} : Developed m types →
      Developed (stateAfter (collectGarbage m)) types

variable {types : List Declaration}

/-- The machine has a type as it was asked for. -/
structure Declared (m : Machine) (d : Declaration) : Prop where
  genuine : IsType (m.known .metaclass) m.heap d.type ∨ d.type = m.known .metaclass
  supertype_eq : m.heap.fetchField d.type Slot.supertype = .ok d.supertype
  inherits : d.supertype = m.known .nil ∨ IsKind (m.known .metaclass) m.heap d.supertype ∧ ∃ n : Nat,
    m.heap.fetchField d.supertype Slot.fixedFields = .ok (.ofNat n) ∧
    m.heap.fetchField d.type Slot.fixedFields = .ok (.wrapping ↑(n + d.fields))

theorem isKind_of_genuine (hm : Poised m) {v : Value}
    (hv : IsType (m.known .metaclass) m.heap v ∨ v = m.known .metaclass) :
    IsKind (m.known .metaclass) m.heap v := by
  rcases hv with htype | rfl
  · exact .inr htype
  · exact .inl hm.hierarchy.self

theorem Declared.advanced (hm : Poised m) (ha : Advanced m m') {d : Declaration}
    (hd : Declared m d) : Declared m' d := by
  have hkind := isKind_of_genuine hm hd.genuine
  refine ⟨?_, ha.kinds.supertypes _ hkind _ hd.supertype_eq, ?_⟩
  · rw [ha.metaclass_eq]
    exact hd.genuine.imp_left (ha.kinds.isType _)
  · rw [ha.metaclass_eq, ha.nil_eq]
    refine hd.inherits.imp_right fun ⟨hsuper, n, hn, hfixed⟩ => ?_
    exact ⟨ha.kinds.isKind _ hsuper, n, ha.kinds.fixed _ hsuper _ hn, ha.kinds.fixed _ hkind _ hfixed⟩

namespace Developed

/-- The machine has the types as they were asked for, each for itself. -/
structure Recorded (m : Machine) (types : List Declaration) : Prop where
  poised : Poised m
  declared : ∀ d ∈ types, Declared m d
  nodup : (types.map Declaration.type).Nodup

namespace Recorded

theorem advanced (hr : Recorded m types) (ha : Advanced m m') : Recorded m' types :=
  ⟨ha.poised, fun d hd => (hr.declared d hd).advanced hr.poised ha, hr.nodup⟩

theorem genuine (hr : Recorded m types) {v : Value} (hv : v ∈ types.map Declaration.type) :
    IsType (m.known .metaclass) m.heap v ∨ v = m.known .metaclass := by
  obtain ⟨d, hd, rfl⟩ := List.mem_map.mp hv
  exact (hr.declared d hd).genuine

theorem isKind (hr : Recorded m types) {type : Value}
    (htype : type ∈ types.map Declaration.type ∨ ∃ d ∈ types, m.heap.typeOf d.type = .ok type) :
    IsKind (m.known .metaclass) m.heap type := by
  rcases htype with hmem | ⟨d, -, hd⟩
  · exact isKind_of_genuine hr.poised (hr.genuine hmem)
  · exact hr.poised.hierarchy.isKind_of_typeOf hd

/-- A type that was not there has been defined. -/
theorem cons (hr : Recorded m types) (ha : Advanced m m') {v supertype : Value} {n fields : Nat}
    (hsupertype : supertype ∈ types.map Declaration.type)
    (hfixed : m.heap.fetchField supertype Slot.fixedFields = .ok (.ofNat n))
    (hnew : ∀ t, m.heap.typeOf v ≠ .ok t)
    (hv : DefinedAs (m'.known .metaclass) m'.heap v supertype (n + fields)) :
    Recorded m' (⟨v, supertype, fields⟩ :: types) := by
  have hr' := hr.advanced ha
  have hkind := hr.isKind (.inl hsupertype)
  refine ⟨ha.poised, List.forall_mem_cons.mpr ⟨?_, hr'.declared⟩, List.nodup_cons.mpr ⟨?_, hr.nodup⟩⟩
  · exact ⟨.inl hv.isType, hv.supertype_eq,
      .inr ⟨hr'.isKind (.inl hsupertype), n, ha.kinds.fixed _ hkind _ hfixed, hv.fixed_eq⟩⟩
  · intro hmem
    obtain ⟨t, ht⟩ := (hr.isKind (.inl hmem)).exists_type
    exact hnew t ht

end Recorded

/-- The types of a new machine are those of the table, and `Metaclass`. -/
theorem recorded_create {settings : Settings} (hcreate : create settings = .ok m) :
    Recorded m m.bootTypes := by
  obtain ⟨hh, hidle⟩ := hierarchy_create hcreate
  have hclass : IsKind (m.known .metaclass) m.heap (m.known .classType) := hh.isKind_first (by decide)
  refine ⟨⟨hh, hidle⟩, List.forall_mem_cons.mpr ⟨⟨.inr rfl, hh.metaclass_super, .inr ⟨hclass, ?_⟩⟩, ?_⟩, ?_⟩
  · exact ⟨Slot.typeSize, (hh.planned (.classType, .object, Slot.typeSize, .fixed) (by decide)).fixed_eq,
      hh.metaclass_fixed⟩
  · intro d hd
    obtain ⟨entry, hentry, rfl⟩ := List.mem_map.mp hd
    have hplanned := hh.planned entry hentry
    refine ⟨.inl hplanned.isType, hplanned.supertype_eq, ?_⟩
    -- those with a type above them inherit no fields
    rcases planned_above entry hentry with hnil | ⟨above, habove, heq, hnone⟩
    · exact .inl (congrArg m.known.get hnil)
    · have hsuper := hh.planned above habove
      rw [heq, hnone] at hsuper
      refine .inr ⟨.inr hsuper.isType, 0, hsuper.fixed_eq, ?_⟩
      rw [Nat.zero_add]
      exact hplanned.fixed_eq
  · have hnodup : (Boot.firstTypes.map Prod.fst).Nodup := by decide
    have htypes : (m.bootTypes.map Declaration.type) =
        m.known .metaclass :: (Boot.firstTypes.map Prod.fst).map m.known.get := by
      simp only [bootTypes, List.map_cons, List.map_map]
      rfl
    rw [htypes]
    refine List.nodup_cons.mpr ⟨fun hmem => ?_, hnodup.map_on fun l hl l' hl' => hh.distinct l hl l' hl'⟩
    obtain ⟨l, hl, heq⟩ := List.mem_map.mp hmem
    have htype := hh.first l hl
    rw [heq] at htype
    exact hh.self.not_isType htype

/-- Each step keeps the types in order. -/
theorem recorded (hd : Developed m types) : Recorded m types := by
  induction hd with
  | created hcreate => exact recorded_create hcreate
  | @defined m types supertype name fields format _ hmem ih =>
      have houtcome := ih.poised.ensures_defineType (ih.genuine hmem) name fields format m rfl
      cases hrun : defineType name supertype fields format m with
      | ok v m' =>
          rw [hrun] at houtcome
          obtain ⟨ha, hnew, n, hfixed, hv⟩ := houtcome
          exact ih.cons ha hmem hfixed hnew hv
      | error fault m' =>
          rw [hrun] at houtcome
          exact ih.advanced houtcome
  | compiled spec _ ih =>
      exact ih.advanced <| ih.poised.advanced <| Ensures.keeps <|
        (Tending.compiles.ensures_compileMethod spec).weaken (fun _ => id) (fun _ _ h => h.1)
          fun _ _ => id
  | installed _ htype hmethod ih =>
      exact ih.advanced (ih.poised.advanced (Tending.keeps_installMethod (ih.isKind htype)
        (ih.poised.hierarchy.plain_of_method hmethod)))
  | methodDefined spec _ htype ih =>
      exact ih.advanced (ih.poised.advanced (Tending.keeps_defineMethod (ih.isKind htype) spec))
  | collected _ ih => exact ih.advanced ih.poised.collectGarbage

end Developed

/-! ## Lookups -/

/-- Reading one method table does not go on for ever. -/
theorem methodAt_ne_endless {type selector : Value} :
    m.methodAt type selector ≠ .error .endless := by
  unfold methodAt
  cases Table.lookup m.tableConfig m.heap ⟨type, .methods⟩ selector with
  | ok found => nofun
  | error fault => nofun

/-- A lookup that has the fuel to get through the chain of a type is not given up. -/
theorem lookupFrom_of_lineage {selector type : Value} {chain : List Value}
    (hl : Lineage (m.known .nil) m.heap type chain) {fuel fuel' : Nat} (hfuel : chain.length < fuel)
    (hfuel' : chain.length < fuel') :
    m.lookupFrom selector fuel type = m.lookupFrom selector fuel' type ∧
      m.lookupFrom selector fuel type ≠ .error .endless := by
  induction hl generalizing fuel fuel' with
  | root =>
      obtain ⟨fuel, rfl⟩ := Nat.exists_eq_add_one.mpr hfuel
      obtain ⟨fuel', rfl⟩ := Nat.exists_eq_add_one.mpr hfuel'
      unfold lookupFrom
      rw [if_pos rfl, if_pos rfl]
      exact ⟨rfl, fun heq => by cases heq⟩
  | @cons type supertype chain hne hsuper _ ih =>
      obtain ⟨fuel, rfl⟩ := Nat.exists_eq_add_one.mpr (Nat.zero_lt_of_lt hfuel)
      obtain ⟨fuel', rfl⟩ := Nat.exists_eq_add_one.mpr (Nat.zero_lt_of_lt hfuel')
      obtain ⟨hsame, hend⟩ := ih (Nat.lt_of_succ_lt_succ hfuel) (Nat.lt_of_succ_lt_succ hfuel')
      unfold lookupFrom
      rw [if_neg hne, if_neg hne]
      cases hfound : m.methodAt type selector with
      | error fault =>
          refine ⟨rfl, fun heq => methodAt_ne_endless (hfound.trans ?_)⟩
          exact congrArg _ (Except.error.inj heq)
      | ok found =>
          cases found with
          | some method => exact ⟨rfl, fun heq => by cases heq⟩
          | none =>
              have hnext : ∀ n, ((liftM (m.heap.fetchField type Slot.supertype) : Except Fault Value) >>=
                  m.lookupFrom selector n) = m.lookupFrom selector n supertype := by
                intro n
                rw [hsuper]
                rfl
              refine ⟨(hnext fuel).trans (hsame.trans (hnext fuel').symm), fun heq => hend ?_⟩
              exact (hnext fuel).symm.trans heq

/-! ## The graph of types -/

/-- The supertypes lead to `Object`, which has none. -/
def EndsAtObject (m : Machine) (v : Value) : Prop :=
  ∃ chain, Lineage (m.known .nil) m.heap v chain ∧ chain.getLast? = some (m.known .object)

/-- A type has a metatype of its own, which inherits from the metatype of its supertype. -/
structure HasMetatype (m : Machine) (types : List Declaration) (d : Declaration) (metatype : Value) :
    Prop where
  typeOf_eq : m.heap.typeOf d.type = .ok metatype
  typeOf_metatype : m.heap.typeOf metatype = .ok (m.known .metaclass)
  own : ∀ d' ∈ types, m.heap.typeOf d'.type = .ok metatype → d'.type = d.type
  of_object : d.type = m.known .object → d.supertype = m.known .nil ∧
    m.heap.fetchField metatype Slot.supertype = .ok (m.known .classType)
  of_other : d.type ≠ m.known .object → d.supertype ≠ m.known .nil ∧ ∃ above,
    m.heap.typeOf d.supertype = .ok above ∧ m.heap.fetchField metatype Slot.supertype = .ok above

/-- The types and their metatypes are trees below `Object`, so every lookup ends. -/
structure ClassGraph (m : Machine) (types : List Declaration) : Prop where
  /-- Every definition has made a type that was not there. -/
  distinct : (types.map Declaration.type).Nodup
  supertypes : ∀ d ∈ types, m.heap.fetchField d.type Slot.supertype = .ok d.supertype
  metaclass_self : m.heap.typeOf (m.known .metaclass) = .ok (m.known .metaclass)
  metatypes : ∀ d ∈ types, d.type ≠ m.known .metaclass → ∃ metatype, HasMetatype m types d metatype
  /-- A type has the fields of its supertype and those that were asked for, as far as their number
  can be stored. -/
  fixed_eq : ∀ d ∈ types, d.supertype ≠ m.known .nil → ∃ n : Nat,
    m.heap.fetchField d.supertype Slot.fixedFields = .ok (.ofNat n) ∧
    m.heap.fetchField d.type Slot.fixedFields = .ok (.wrapping ↑(n + d.fields))
  fixed_le : ∀ d ∈ types, d.supertype ≠ m.known .nil → ∀ n n' : Int,
    m.heap.fetchField d.supertype Slot.fixedFields = .ok (.int n) →
    m.heap.fetchField d.type Slot.fixedFields = .ok (.int n') → n + d.fields ≤ Value.maxInt → n ≤ n'
  types_end : ∀ d ∈ types, EndsAtObject m d.type
  metatypes_end : ∀ d ∈ types, ∀ metatype, m.heap.typeOf d.type = .ok metatype →
    EndsAtObject m metatype
  /-- A lookup has an answer, or fails, for a reason other than the length of the chain, and more fuel
  does not change it. -/
  lookups_end : ∀ v type, m.classOf v = .ok type → ∀ selector,
    m.lookupMethod type selector ≠ .error .endless ∧
      ∀ fuel, m.heap.objectCount < fuel →
        m.lookupFrom selector fuel type = m.lookupMethod type selector

namespace Poised

variable (hm : Poised m)
include hm

theorem endsAtObject {v : Value} (hv : IsKind (m.known .metaclass) m.heap v) : EndsAtObject m v := by
  obtain ⟨chain, hl, hlast, -⟩ := hm.hierarchy.reaches hv
  exact ⟨chain, hl, hlast⟩

/-- What has a class has one whose chain of supertypes ends. -/
theorem isKind_classOf {v type : Value} (htype : m.classOf v = .ok type) :
    IsKind (m.known .metaclass) m.heap type := by
  cases v with
  | int n =>
      obtain rfl := Except.ok.inj htype
      exact .inr (hm.hierarchy.first .smallInteger (by decide))
  | object a => exact hm.hierarchy.isKind_of_typeOf (liftFault_eq_ok.mp htype)
  | bytes a => exact hm.hierarchy.isKind_of_typeOf (liftFault_eq_ok.mp htype)
  | words a => exact hm.hierarchy.isKind_of_typeOf (liftFault_eq_ok.mp htype)

theorem lookup_ends {type : Value} (htype : IsKind (m.known .metaclass) m.heap type)
    (selector : Value) : m.lookupMethod type selector ≠ .error .endless ∧
      ∀ fuel, m.heap.objectCount < fuel →
        m.lookupFrom selector fuel type = m.lookupMethod type selector := by
  obtain ⟨chain, hl, -⟩ := hm.endsAtObject htype
  have hlength := hl.length_le
  have hfuel : chain.length < m.heap.objectCount + 1 := Nat.lt_succ_of_le hlength
  refine ⟨(lookupFrom_of_lineage hl hfuel hfuel).2, fun fuel hmore => ?_⟩
  exact (lookupFrom_of_lineage hl (Nat.lt_of_le_of_lt hlength hmore) hfuel).1

end Poised

namespace Developed.Recorded

variable (hr : Recorded m types)
include hr

theorem hasMetatype {d : Declaration} (hd : d ∈ types) (hne : d.type ≠ m.known .metaclass) :
    ∃ metatype, HasMetatype m types d metatype := by
  have hh := hr.poised.hierarchy
  obtain ⟨hgenuine, hsupertype, -⟩ := hr.declared d hd
  obtain ⟨htag, w, hw, hmeta, hwne⟩ := hgenuine.resolve_right hne
  have hobject : m.heap.fetchField (m.known .object) Slot.supertype = .ok (m.known .nil) :=
    (hh.reaches (.inr (hh.first .object (by decide)))).fetchField_self
  refine ⟨w, hw, hmeta.2, fun d' hd' hw' => ?_, fun heq => ?_, fun hne' => ?_⟩
  · refine hh.family.alone d'.type d.type w ?_ htag hmeta hwne hw' hw
    rcases (hr.declared d' hd').genuine with htype | hmetaclass
    · exact htype.1
    · exact hmetaclass ▸ hh.self.1
  · rcases hh.family.joined d.type w htag hmeta hwne hw with ⟨-, hsuper, htop⟩ |
      ⟨u, _, hsuper, hu, -⟩
    · exact ⟨Except.ok.inj (hsupertype.symm.trans hsuper), htop⟩
    · cases (heq ▸ hobject).symm.trans hsuper
      exact absurd rfl (hh.family.rooted _ hu).2
  · rcases hh.family.joined d.type w htag hmeta hwne hw with ⟨heq, -⟩ |
      ⟨u, above, hsuper, hu, habove, htop⟩
    · exact absurd heq hne'
    · obtain rfl : u = d.supertype := Except.ok.inj (hsuper.symm.trans hsupertype)
      exact ⟨(hh.family.rooted _ hu).2, above, habove, htop⟩

theorem fixed_eq {d : Declaration} (hd : d ∈ types) (hnil : d.supertype ≠ m.known .nil) : ∃ n : Nat,
    m.heap.fetchField d.supertype Slot.fixedFields = .ok (.ofNat n) ∧
    m.heap.fetchField d.type Slot.fixedFields = .ok (.wrapping ↑(n + d.fields)) := by
  obtain ⟨-, n, hn, hfixed⟩ := (hr.declared d hd).inherits.resolve_left hnil
  exact ⟨n, hn, hfixed⟩

theorem fixed_le {d : Declaration} (hd : d ∈ types) (hnil : d.supertype ≠ m.known .nil) {n n' : Int}
    (hn : m.heap.fetchField d.supertype Slot.fixedFields = .ok (.int n))
    (hn' : m.heap.fetchField d.type Slot.fixedFields = .ok (.int n'))
    (hfew : n + d.fields ≤ Value.maxInt) : n ≤ n' := by
  obtain ⟨k, hk, hfixed⟩ := hr.fixed_eq hd hnil
  cases hn.symm.trans hk
  have hmin : Value.minInt ≤ ((k + d.fields : Nat) : Int) :=
    (show Value.minInt ≤ 0 by decide).trans (Int.natCast_nonneg _)
  rw [Value.wrapping_eq hmin (by push_cast; exact hfew)] at hfixed
  cases hn'.symm.trans hfixed
  exact Int.ofNat_le.mpr (Nat.le_add_right k d.fields)

end Developed.Recorded

/-- However a machine has been developed, its types are in order and its lookups end. -/
theorem Developed.classGraph (hd : Developed m types) : ClassGraph m types := by
  have hr := hd.recorded
  have hm := hr.poised
  have hkind : ∀ d ∈ types, IsKind (m.known .metaclass) m.heap d.type := fun d hd =>
    isKind_of_genuine hm (hr.declared d hd).genuine
  exact {
    distinct := hr.nodup
    supertypes := fun d hd => (hr.declared d hd).supertype_eq
    metaclass_self := hm.hierarchy.self.2
    metatypes := fun d hd hne => hr.hasMetatype hd hne
    fixed_eq := fun d hd hnil => hr.fixed_eq hd hnil
    fixed_le := fun d hd hnil _ _ hn hn' hfew => hr.fixed_le hd hnil hn hn' hfew
    types_end := fun d hd => hm.endsAtObject (hkind d hd)
    metatypes_end := fun _ _ _ hmeta => hm.endsAtObject (hm.hierarchy.isKind_of_typeOf hmeta)
    lookups_end := fun _ _ htype selector => hm.lookup_ends (hm.isKind_classOf htype) selector }

/-- Whether a type can be defined, and another one below it, and then one with more fields than can be
stored, which is left with fewer than `Object`. -/
def definesTypes (m : Machine) : Bool :=
  match defineType "Animal" (m.known .object) 2 .fixed m with
  | .error .. => false
  | .ok animal m₁ =>
    match defineType "Dog" animal 1 .fixed m₁ with
    | .error .. => false
    | .ok _ m₂ =>
      match defineType "Herd" (m.known .object) (2 ^ 64 - 1) .fixed m₂ with
      | .error .. => false
      | .ok herd m₃ =>
        decide ((m₃.heap.fetchField (m.known .object) Slot.fixedFields).toOption = some (.int 0) ∧
          (m₃.heap.fetchField herd Slot.fixedFields).toOption = some (.int (-1)))

theorem passes_definesTypes : passes roomySettings definesTypes = true := by decide +kernel

theorem exists_of_definesTypes (hdefines : definesTypes m = true) : ∃ animal m₁ dog m₂ herd m₃,
    defineType "Animal" (m.known .object) 2 .fixed m = .ok animal m₁ ∧
    defineType "Dog" animal 1 .fixed m₁ = .ok dog m₂ ∧
    defineType "Herd" (m.known .object) (2 ^ 64 - 1) .fixed m₂ = .ok herd m₃ ∧
    m₃.heap.fetchField (m.known .object) Slot.fixedFields = .ok (.int 0) ∧
    m₃.heap.fetchField herd Slot.fixedFields = .ok (.int (-1)) := by
  unfold definesTypes at hdefines
  split at hdefines
  · cases hdefines
  · next animal m₁ hanimal =>
    split at hdefines
    · cases hdefines
    · next dog m₂ hdog =>
      split at hdefines
      · cases hdefines
      · next herd m₃ hherd =>
        obtain ⟨hobject, hfew⟩ := of_decide_eq_true hdefines
        exact ⟨animal, m₁, dog, m₂, herd, m₃, hanimal, hdog, hherd, eq_ok_of_toOption hobject,
          eq_ok_of_toOption hfew⟩

theorem object_mem_bootTypes (m : Machine) :
    m.known .object ∈ m.bootTypes.map Declaration.type := by
  simp only [bootTypes, List.map_cons, List.map_map, List.mem_cons]
  exact .inr (List.mem_map.mpr ⟨(.object, .nil, 0, .fixed), by decide, rfl⟩)

/-- A definition that succeeds adds its type to the others. -/
theorem Developed.add (hd : Developed m types) {name : String} {supertype v : Value} {fields : Nat}
    {format : Format} (hsupertype : supertype ∈ types.map Declaration.type)
    (hdefine : defineType name supertype fields format m = .ok v m') :
    Developed m' (⟨v, supertype, fields⟩ :: types) := by
  have hdefined := hd.defined name fields format hsupertype
  rw [hdefine] at hdefined
  exact hdefined

/-- Two types, one below the other, and a collection. -/
theorem classGraph_roomy : ∃ m animal m₁ dog m₂, create roomySettings = .ok m ∧
    defineType "Animal" (m.known .object) 2 .fixed m = .ok animal m₁ ∧
    defineType "Dog" animal 1 .fixed m₁ = .ok dog m₂ ∧
    ClassGraph (stateAfter (collectGarbage m₂))
      (⟨dog, animal, 1⟩ :: ⟨animal, m.known .object, 2⟩ :: m.bootTypes) := by
  obtain ⟨m, hcreate, hdefines⟩ := exists_create_of_passes passes_definesTypes
  obtain ⟨animal, m₁, dog, m₂, -, -, hanimal, hdog, -⟩ := exists_of_definesTypes hdefines
  have hm₁ := (Developed.created hcreate).add (object_mem_bootTypes m) hanimal
  have hm₂ := hm₁.add (List.mem_cons_self ..) hdog
  exact ⟨m, animal, m₁, dog, m₂, hcreate, hanimal, hdog, hm₂.collected.classGraph⟩

/-- The number of fields of a type is stored without its highest bits, and the type that has been asked to
have the most has fewer than `Object`. -/
theorem fewer_fields_of_wrapping : ∃ m types object herd, Developed m types ∧
    ⟨herd, object, 2 ^ 64 - 1⟩ ∈ types ∧ m.heap.fetchField object Slot.fixedFields = .ok (.int 0) ∧
    m.heap.fetchField herd Slot.fixedFields = .ok (.int (-1)) := by
  obtain ⟨m, hcreate, hdefines⟩ := exists_create_of_passes passes_definesTypes
  obtain ⟨animal, m₁, dog, m₂, herd, m₃, hanimal, hdog, hherd, hobject, hfew⟩ :=
    exists_of_definesTypes hdefines
  have hm₁ := (Developed.created hcreate).add (object_mem_bootTypes m) hanimal
  have hm₂ := hm₁.add (List.mem_cons_self ..) hdog
  have hm₃ := hm₂.add (List.mem_cons_of_mem _ (List.mem_cons_of_mem _ (object_mem_bootTypes m))) hherd
  exact ⟨m₃, _, m.known .object, herd, hm₃, List.mem_cons_self .., hobject, hfew⟩

end Machine

end MessageMachine
