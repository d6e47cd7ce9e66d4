import MessageMachine.Proofs.Heap.Accessors
import MessageMachine.Proofs.Heap.Accounting

/-!
# A value denotes one object

A handle is made of a place and an epoch.  Places are used again after a collection, and epochs after
`2 ^ 28` of them, so that a value denotes one object only as long as there have been fewer.  This
file shows that it does, over any sequence of operations, failed ones and failed collections
included.

* `Dated h n`: the epoch of the heap tells that there have been `n` collections.
* `Known h n a`: the object at `a` exists, or `a` was issued before one of these collections.  Every
  handle that an operation issues is known from then on, and a place that is free is not.
* `StandsFor h v a o n`: what `v` stands for in `h`, `n` collections after it was issued for the
  object `o` at `a`.

`allocation_standsFor` is the main statement.
-/

namespace MessageMachine

/-! ## Objects with other references -/

namespace Object

/-- The second object is the first with its references replaced one by one. -/
def Redirected (o o' : Object) : Prop :=
  ∃ vs : Array Value, vs.size = o.references.length ∧ o' = o.setReferences vs

theorem Redirected.refl (o : Object) : Redirected o o := by
  have hsame : ∀ v : Value, v.map id = v := fun v => Value.map_eq_self fun _ _ => rfl
  have hid : o.map id = o := by
    obtain ⟨header, body⟩ := o
    cases body <;> simp [map, hsame]
  have hreferences := setReferences_map o id
  simp only [hsame, List.map_id_fun'] at hreferences
  exact ⟨o.references.toArray, by simp, (hreferences.trans hid).symm⟩

theorem Redirected.sameShape {o o' : Object} (hr : Redirected o o') : SameShape o o' := by
  obtain ⟨vs, hsize, rfl⟩ := hr
  obtain ⟨header, body⟩ := o
  cases body with
  | fields xs =>
      refine ⟨rfl, rfl, ?_, by rintro _ ⟨⟩⟩
      simp only [references, List.length_cons, Array.length_toList] at hsize
      simp [setReferences, Body.wordCount, hsize]
  | bytes xs => exact ⟨rfl, rfl, rfl, fun ys h => ⟨ys, h, rfl⟩⟩
  | words xs => exact ⟨rfl, rfl, rfl, by rintro _ ⟨⟩⟩

/-- References that have been replaced may be replaced again. -/
theorem Redirected.setReferences {o o' : Object} (hr : Redirected o o') {vs : Array Value}
    (hsize : vs.size = o'.references.length) : Redirected o (o'.setReferences vs) := by
  obtain ⟨ws, hws, rfl⟩ := hr
  obtain ⟨header, body⟩ := o
  cases body with
  | fields xs =>
      simp only [references, Object.setReferences, List.length_cons, Array.length_toList,
        Array.size_extract] at hws hsize
      refine ⟨vs, by simp [references]; omega, ?_⟩
      have hpos : 0 < vs.size := by omega
      simp [Object.setReferences, Array.getD, hpos]
  | bytes xs =>
      simp only [references, Object.setReferences, List.length_cons, List.length_nil] at hws hsize
      have hpos : 0 < vs.size := by omega
      exact ⟨vs, hsize, by simp [Object.setReferences, Array.getD, hpos]⟩
  | words xs =>
      simp only [references, Object.setReferences, List.length_cons, List.length_nil] at hws hsize
      have hpos : 0 < vs.size := by omega
      exact ⟨vs, hsize, by simp [Object.setReferences, Array.getD, hpos]⟩

end Object

namespace Heap

variable {h h' : Heap} {n : Nat} {a : Handle} {v : Value} {o : Object}

/-! ## One operation -/

/-- A collection under way has its own epoch, and only redirects root objects. -/
structure Rooted (h : Heap) (e : Evacuation) : Prop where
  root_space : e.root.space = h.root.space
  root_epoch : e.root.epoch = h.root.epoch
  root : ∀ s i o, h.root.at? s i = some o → ∃ o', e.root.at? s i = some o' ∧ o.Redirected o'
  target_epoch : e.target.epoch = (h.epoch + 1) % (Handle.maxEpoch + 1)

theorem invariant_rooted (h : Heap) : Evacuation.Invariant (Rooted h) where
  copied he _ _ _ :=
    ⟨he.root_space, he.root_epoch, he.root, (Pool.epoch_push ..).trans he.target_epoch⟩
  rootScanned {e s i found vs} he hfound hall := by
    refine ⟨he.root_space, he.root_epoch, ?_, he.target_epoch⟩
    intro s' i' o ho
    obtain ⟨o', ho', hr⟩ := he.root s' i' o ho
    by_cases hplace : s' = s ∧ i' = i
    · obtain ⟨rfl, rfl⟩ := hplace
      cases hfound.symm.trans ho'
      refine ⟨found.setReferences vs, ?_, hr.setReferences hall.length_eq.symm⟩
      rw [Pool.at?_update_self, ho', Option.map_some]
    · exact ⟨o', (Pool.at?_update_of_ne _ _ hplace).trans ho', hr⟩
  copyScanned he _ _ _ := ⟨he.root_space, he.root_epoch, he.root, he.target_epoch⟩

theorem rooted_collect (h : Heap) (roots : List Value) :
    ∃ e, Rooted h e ∧ (h.collect roots).heap.root = e.root ∧
      (h.collect roots).heap.ephemeral = e.target ∧
      (h.collect roots).heap.settings = h.settings :=
  (invariant_rooted h).collect
    ⟨rfl, rfl, fun _ _ o ho => ⟨o, ho, .refl o⟩, rfl⟩ roots

theorem epoch_collect (h : Heap) (roots : List Value) :
    (h.collect roots).heap.epoch = (h.epoch + 1) % (Handle.maxEpoch + 1) := by
  obtain ⟨e, he, -, hephemeral, -⟩ := rooted_collect h roots
  unfold epoch
  rw [hephemeral]
  exact he.target_epoch

/-- A root object outlasts a collection, even one that fails, with other references. -/
theorem resolve_collect (hget : h.resolve a = .ok o) (hroot : a.space = .root) (roots : List Value) :
    ∃ o', (h.collect roots).heap.resolve a = .ok o' ∧ o.Redirected o' := by
  obtain ⟨e, he, hpool, -, -⟩ := rooted_collect h roots
  unfold resolve at hget ⊢
  rw [hroot] at hget ⊢
  obtain ⟨hspace, hepoch, hat⟩ := Pool.get_eq_ok_iff.mp hget
  obtain ⟨o', ho', hr⟩ := he.root _ _ _ hat
  refine ⟨o', Pool.get_eq_ok_iff.mpr ?_, hr⟩
  change a.space = (h.collect roots).heap.root.space ∧ a.epoch = (h.collect roots).heap.root.epoch ∧
    (h.collect roots).heap.root.at? a.segment a.index = some o'
  rw [hpool, he.root_space, he.root_epoch]
  exact ⟨hspace, hepoch, ho'⟩

/-- A new object is in a place that was free. -/
theorem Allocated.put {space : Space} (hnew : Allocated h space o a h') (hsettled : h.Settled) :
    a.space = space ∧ h.resolve a = .error (.staleHandle a) ∧ PutAt h a o h' := by
  refine allocate_eq_ok hsettled ?_
  unfold allocate
  rw [hnew.reserve_eq, hnew.heap_eq]

/-- An operation that is no collection keeps an object, and leaves it alone unless it is asked to
change it. -/
theorem resolve_performed (hsettled : h.Settled) (hsettings : h.settings.segmentWords < 2 ^ 32)
    {op : Operation} (hop : op.roots? = none) (hget : h.resolve a = .ok o) :
    ∃ o', (op.perform h).resolve a = .ok o' ∧ o.SameShape o' ∧
      ((∀ w, op.target? = some w → w.handle? ≠ some a) → o' = o) := by
  have hstep := op.performed hsettings
  generalize op.perform h = h' at hstep
  cases hstep with
  | unchanged => exact ⟨o, hget, .refl o, fun _ => rfl⟩
  | @allocated space new b _ hnew =>
      obtain ⟨-, hfree, hput⟩ := hnew.put hsettled
      refine ⟨o, ?_, .refl o, fun _ => rfl⟩
      rw [hput.resolve_of_ne]
      · exact hget
      · rintro rfl
        rw [hget] at hfree
        cases hfree
  | @changed w b old f htarget hw hold hf =>
      have hput := putAt_update hold f
      by_cases heq : a = b
      · subst heq
        cases hget.symm.trans hold
        exact ⟨f o, hput.resolve_self, hf o, fun hother => absurd hw (hother w htarget)⟩
      · exact ⟨o, (hput.resolve_of_ne heq).trans hget, .refl o, fun _ => rfl⟩
  | collected hroots =>
      rw [hop] at hroots
      cases hroots

/-! ## Dates -/

/-- There have been `n` collections. -/
structure Dated (h : Heap) (n : Nat) : Prop where
  settled : h.Settled
  segmentWords_lt : h.settings.segmentWords < 2 ^ 32
  epoch_eq : h.epoch = (1 + n) % (Handle.maxEpoch + 1)

/-- What has become, after `n` collections, of the object `o₀` that was at `a` after `k` of them. -/
inductive Fate (h : Heap) (n : Nat) (a : Handle) (o₀ : Object) (k : Nat) : Prop where
  /-- It is there. -/
  | present {o : Object} : a.space = .root ∨ n = k → h.resolve a = .ok o → o₀.SameShape o →
      Fate h n a o₀ k
  /-- The handle is of an earlier epoch. -/
  | gone : a.space = .ephemeral → k < n → a.epoch = (1 + k) % (Handle.maxEpoch + 1) →
      Fate h n a o₀ k

/-- There is an object at the handle, or was before one of the collections. -/
def Known (h : Heap) (n : Nat) (a : Handle) : Prop := ∃ o₀ k, Fate h n a o₀ k

/-- How many collections an operation is. -/
def Operation.cycles (op : Operation) : Nat := if op.roots?.isSome then 1 else 0

/-- How many collections there are in a sequence of operations. -/
def collectionsOf (ops : List Operation) : Nat := (ops.map (·.cycles)).sum

/-- The handles that a sequence of operations issues. -/
def issuedBy : List Operation → Heap → Set Handle
  | [], _ => ∅
  | op :: ops, h => op.issued h ∪ issuedBy ops (op.perform h)

theorem Operation.cycles_of_none {op : Operation} (hop : op.roots? = none) : op.cycles = 0 := by
  simp [cycles, hop]

theorem Operation.cycles_of_some {op : Operation} {roots : List Value}
    (hop : op.roots? = some roots) : op.cycles = 1 ∧ op.perform h = (h.collect roots).heap := by
  cases op <;> cases hop
  exact ⟨rfl, rfl⟩

theorem epoch_of_resolve (hget : h.resolve a = .ok o)
    (hspace : a.space = .ephemeral) : a.epoch = h.epoch := by
  unfold resolve at hget
  rw [hspace] at hget
  exact (Pool.get_eq_ok_iff.mp hget).2.1

namespace Dated

variable (hd : Dated h n)
include hd

theorem performed (op : Operation) : Dated (op.perform h) (n + op.cycles) := by
  have hsettled := settled_perform hd.settled op
  have hstep := op.performed hd.segmentWords_lt
  cases hop : op.roots? with
  | some roots =>
      obtain ⟨hcycles, hperform⟩ := Operation.cycles_of_some (h := h) hop
      obtain ⟨e, -, -, -, hsettings⟩ := rooted_collect h roots
      rw [hcycles]
      rw [hperform] at hsettled ⊢
      refine ⟨hsettled, hsettings ▸ hd.segmentWords_lt, ?_⟩
      rw [epoch_collect, hd.epoch_eq, Nat.mod_add_mod, Nat.add_assoc]
  | none =>
      rw [Operation.cycles_of_none hop]
      have hsame : (op.perform h).settings = h.settings ∧ (op.perform h).epoch = h.epoch := by
        generalize op.perform h = h' at hstep
        cases hstep with
        | unchanged => exact ⟨rfl, rfl⟩
        | @allocated space o a _ hnew =>
            rw [hnew.heap_eq]
            cases space with
            | root => exact ⟨rfl, rfl⟩
            | ephemeral => exact ⟨rfl, Pool.epoch_push ..⟩
        | @changed v a o f _ _ _ _ =>
            unfold Heap.update
            cases a.space <;> exact ⟨rfl, rfl⟩
        | collected hroots =>
            rw [hop] at hroots
            cases hroots
      exact ⟨hsettled, hsame.1 ▸ hd.segmentWords_lt, hsame.2.trans hd.epoch_eq⟩

theorem fate_performed {o₀ : Object} {k : Nat} (hfate : Fate h n a o₀ k) (op : Operation) :
    Fate (op.perform h) (n + op.cycles) a o₀ k := by
  cases hfate with
  | gone hspace hk hepoch => exact .gone hspace (by omega) hepoch
  | present hwhen hget hshape =>
      cases hop : op.roots? with
      | none =>
          obtain ⟨o', hget', hshape', -⟩ :=
            resolve_performed hd.settled hd.segmentWords_lt hop hget
          rw [Operation.cycles_of_none hop]
          exact .present hwhen hget' (hshape.trans hshape')
      | some roots =>
          obtain ⟨hcycles, hperform⟩ := Operation.cycles_of_some (h := h) hop
          rw [hcycles, hperform]
          cases hspace : a.space with
          | root =>
              obtain ⟨o', hget', hr⟩ := resolve_collect hget hspace roots
              exact .present (.inl hspace) hget' (hshape.trans hr.sameShape)
          | ephemeral =>
              obtain rfl : n = k := hwhen.resolve_left (by rw [hspace]; nofun)
              exact .gone hspace (by omega) ((epoch_of_resolve hget hspace).trans hd.epoch_eq)

/-- What is issued is known. -/
theorem known_of_issued {op : Operation} (ha : a ∈ op.issued h) :
    Known (op.perform h) (n + op.cycles) a := by
  rcases ha with ⟨action, v, h', hop, hrun, hv⟩ | ⟨-, o, hget⟩
  · have hallocating := op.allocating hop hd.segmentWords_lt
    rw [hrun] at hallocating
    obtain ⟨space, o, b, hb, -, hnew⟩ := hallocating
    cases hv.symm.trans hb
    rw [Operation.perform_eq_stateAfter hop, hrun]
    exact ⟨o, _, .present (.inr rfl) (hnew.put hd.settled).2.2.resolve_self (.refl o)⟩
  · have hspace := (Pool.get_eq_ok_iff.mp hget).1
    rw [(settled_perform hd.settled op).ephemeral_space] at hspace
    refine ⟨o, _, .present (.inr rfl) ?_ (.refl o)⟩
    unfold resolve
    rw [hspace]
    exact hget

theorem performAll (ops : List Operation) : Dated (performAll ops h) (n + collectionsOf ops) := by
  induction ops generalizing h n with
  | nil => exact hd
  | cons op ops ih =>
      have hrest := ih (hd.performed op)
      rw [Nat.add_assoc] at hrest
      exact hrest

theorem fate_performAll {o₀ : Object} {k : Nat} (hfate : Fate h n a o₀ k) (ops : List Operation) :
    Fate (Heap.performAll ops h) (n + collectionsOf ops) a o₀ k := by
  induction ops generalizing h n with
  | nil => exact hfate
  | cons op ops ih =>
      have hrest := ih (hd.performed op) (hd.fate_performed hfate op)
      rw [Nat.add_assoc] at hrest
      exact hrest

theorem known_of_issuedBy {ops : List Operation} (ha : a ∈ issuedBy ops h) :
    Known (Heap.performAll ops h) (n + collectionsOf ops) a := by
  induction ops generalizing h n with
  | nil => exact ha.elim
  | cons op ops ih =>
      have hrest : Known (Heap.performAll ops (op.perform h)) (n + op.cycles + collectionsOf ops) a := by
        rcases ha with hnow | hlater
        · obtain ⟨o₀, k, hfate⟩ := hd.known_of_issued hnow
          exact ⟨o₀, k, (hd.performed op).fate_performAll hfate ops⟩
        · exact ih (hd.performed op) hlater
      rw [Nat.add_assoc] at hrest
      exact hrest

/-- Among fewer than `2 ^ 28` collections no epoch comes twice, so what is known is not current
unless its object exists. -/
theorem epoch_ne (hfew : n < 2 ^ 28) {k : Nat} (hk : k < n) :
    (1 + k) % (Handle.maxEpoch + 1) ≠ h.epoch := by
  rw [hd.epoch_eq]
  have hmax : Handle.maxEpoch + 1 = 2 ^ 28 := rfl
  rw [hmax]
  omega

end Dated

theorem object_eq_resolve (hv : v.handle? = some a) : h.object v = h.resolve a := by
  have hhandle : v.handle = .ok a := Value.handle_eq_ok.mpr hv
  unfold object
  rw [hhandle]
  rfl

/-- A handle of another epoch is stale. -/
theorem stale_of_epoch_ne (hv : v.handle? = some a) (hspace : a.space = .ephemeral)
    (hepoch : a.epoch ≠ h.epoch) : Stale h v a := by
  refine ⟨hv, ?_⟩
  cases hget : h.resolve a with
  | ok o => exact absurd (epoch_of_resolve hget hspace) hepoch
  | error fault => rw [Pool.get_eq_error hget]

/-! ## What a value stands for -/

/-- What `v` stands for, `n` collections after it was issued for the object `o₀` at `a`. -/
structure StandsFor (h : Heap) (v : Value) (a : Handle) (o₀ : Object) (n : Nat) : Prop where
  handle_eq : v.handle? = some a
  /-- A value of a root object is valid for ever, any other until the next collection. -/
  valid : a.space = .root ∨ n = 0 → ∃ o, h.object v = .ok o ∧ o₀.SameShape o
  /-- From then on every accessor is refused, also when the place has been taken again. -/
  refused : a.space = .ephemeral → 0 < n → h.object v = .error (.staleHandle a) ∧
    ∀ x : Accessor, x.Ready h → x.fault? v h = some (x.refusal v a)
  /-- What is done to other objects is not seen through the value. -/
  apart : ∀ op : Operation, op.roots? = none →
    (∀ w, op.target? = some w → w.handle? ≠ some a) → (op.perform h).object v = h.object v
  /-- What is done to the object is a change of its type or of its elements. -/
  changed : ∀ op : Operation, op.roots? = none → ∀ o, h.object v = .ok o →
    ∃ o', (op.perform h).object v = .ok o' ∧ o.SameShape o'
  /-- A collection replaces the references of a root object, and if it succeeds all of them. -/
  collected : a.space = .root → ∀ roots o, h.object v = .ok o →
    ∃ o', (h.collect roots).heap.object v = .ok o' ∧ o.Redirected o' ∧
      ∀ cycle, (h.collect roots).result = .ok cycle →
        ∃ φ, Relocation h roots (h.collect roots).heap (h.collect roots).roots φ ∧ o' = o.map φ

theorem standsFor_of_fate {k : Nat} {o₀ : Object} (hd : Dated h (k + n)) (hfew : k + n < 2 ^ 28)
    (hv : v.handle? = some a) (hfate : Fate h (k + n) a o₀ k) : StandsFor h v a o₀ n := by
  have hobject : ∀ h' : Heap, h'.object v = h'.resolve a := fun _ => object_eq_resolve hv
  -- a value of an earlier epoch stays stale as long as the epoch does not come back
  have hstale : ∀ h', Dated h' (k + n) → a.space = .ephemeral → 0 < n →
      a.epoch = (1 + k) % (Handle.maxEpoch + 1) → Stale h' v a := fun h' hd' hspace hn hepoch =>
    stale_of_epoch_ne hv hspace (hepoch ▸ hd'.epoch_ne hfew (by omega))
  constructor
  case handle_eq => exact hv
  case valid =>
    intro hwhen
    cases hfate with
    | present _ hget hshape => exact ⟨_, (hobject h).trans hget, hshape⟩
    | gone hspace hk _ =>
        rcases hwhen with hroot | rfl
        · cases hspace.symm.trans hroot
        · exact absurd hk (Nat.lt_irrefl k)
  case refused =>
    intro hspace hn
    cases hfate with
    | present hwhen _ _ =>
        rcases hwhen with hroot | hsame
        · cases hspace.symm.trans hroot
        · omega
    | gone _ hk hepoch =>
        have hs := hstale h hd hspace hn hepoch
        exact ⟨hs.object_eq, fun x hready => fault?_of_stale hs x hready⟩
  case apart =>
    intro op hop hother
    cases hfate with
    | present _ hget _ =>
        obtain ⟨o', hget', -, hsame⟩ := resolve_performed hd.settled hd.segmentWords_lt hop hget
        rw [hobject, hobject, hget, hget', hsame hother]
    | gone hspace hk hepoch =>
        have hd' := hd.performed op
        rw [Operation.cycles_of_none hop] at hd'
        have hn : 0 < n := by omega
        rw [(hstale h hd hspace hn hepoch).object_eq, (hstale _ hd' hspace hn hepoch).object_eq]
  case changed =>
    intro op hop o ho
    obtain ⟨o', hget', hshape, -⟩ := resolve_performed hd.settled hd.segmentWords_lt hop
      ((hobject h).symm.trans ho)
    exact ⟨o', (hobject _).trans hget', hshape⟩
  case collected =>
    intro hroot roots o ho
    have hget := (hobject h).symm.trans ho
    obtain ⟨o', hget', hr⟩ := resolve_collect hget hroot roots
    refine ⟨o', (hobject _).trans hget', hr, fun cycle hcycle => ?_⟩
    have hcollect : h.collect roots =
        ⟨.ok cycle, (h.collect roots).roots, (h.collect roots).heap⟩ := by rw [← hcycle]
    obtain ⟨φ, hφ⟩ := collect_relocates hd.settled hcollect
    have hkept : Kept h roots v := by
      rintro b ⟨hb, hspace⟩
      cases hv.symm.trans hb
      cases hspace.symm.trans hroot
    have hmap := hφ.resolve_map (settled_collect hd.settled roots) hkept hv hget
    rw [hφ.fixes_root a hroot] at hmap
    exact ⟨φ, hφ, Except.ok.inj (hget'.symm.trans hmap)⟩

theorem dated_create {settings : Settings} (hcreate : create settings = .ok h) : Dated h 0 := by
  refine ⟨settled_create hcreate, ?_, ?_⟩
  · exact Settings.segmentWords_lt (Regular.create hcreate).accepted
  · unfold create at hcreate
    split at hcreate
    · cases hcreate
    · cases hcreate
      rfl

/-- In any sequence of operations with fewer than `2 ^ 28` collections, an allocation issues a handle
that no operation has issued before, and whatever operations follow, its value stands for the object
it was issued for. -/
theorem allocation_standsFor {settings : Settings} {h₀ h₁ : Heap}
    (hcreate : create settings = .ok h₀) (before after : List Operation) (op : Operation)
    (hfew : collectionsOf (before ++ op :: after) < 2 ^ 28) {action : HeapM Value}
    (hop : op.allocation? = some action) (hrun : action (performAll before h₀) = .ok v h₁) :
    ∃ a o, v.handle? = some a ∧ a ∉ issuedBy before h₀ ∧ h₁.object v = .ok o ∧
      o.body.tag = v.tag ∧ o.Measured ∧
      StandsFor (performAll (before ++ op :: after) h₀) v a o (collectionsOf after) := by
  have hdated := (dated_create hcreate).performAll before
  rw [Nat.zero_add] at hdated
  have hallocating := op.allocating hop hdated.segmentWords_lt
  rw [hrun] at hallocating
  obtain ⟨space, o, a, hv, htag, hnew⟩ := hallocating
  obtain ⟨-, hfree, hput⟩ := hnew.put hdated.settled
  have hperform : op.perform (performAll before h₀) = h₁ := by
    rw [Operation.perform_eq_stateAfter hop, hrun]
    rfl
  have hroots : op.roots? = none := by cases op <;> cases hop <;> rfl
  have hcycles : op.cycles = 0 := Operation.cycles_of_none hroots
  have hcount : collectionsOf (before ++ op :: after) = collectionsOf before + collectionsOf after := by
    simp [collectionsOf, hcycles]
  rw [hcount] at hfew
  have hd₁ : Dated h₁ (collectionsOf before) := by
    have hd₁ := hdated.performed op
    rwa [hcycles, hperform] at hd₁
  refine ⟨a, o, hv, ?_, (object_eq_resolve hv).trans hput.resolve_self, htag.symm, hnew.measured, ?_⟩
  · intro hissued
    obtain ⟨o', k, hfate⟩ := (dated_create hcreate).known_of_issuedBy hissued
    rw [Nat.zero_add] at hfate
    cases hfate with
    | present _ hget _ => cases hfree.symm.trans hget
    | gone hspace hk hepoch =>
        have hcurrent := epoch_of_resolve hput.resolve_self hspace
        exact hd₁.epoch_ne (by omega) hk (hepoch.symm.trans hcurrent)
  · rw [performAll_append, performAll_cons, hperform]
    have hfate := hd₁.fate_performAll (.present (.inr rfl) hput.resolve_self (.refl o)) after
    exact standsFor_of_fate (hd₁.performAll after) hfew hv hfate

/-- A word buffer, dropped by the collection after it, and another one in its place. -/
theorem allocation_standsFor_replaced : ∃ h₀ v h₁, create tightSettings = .ok h₀ ∧
    Heap.allocateWords .ephemeral (.int 7) 4 h₀ = .ok v h₁ ∧ ∃ a o,
      v.handle? = some a ∧ h₁.object v = .ok o ∧
      StandsFor (performAll [.allocateWords .ephemeral (.int 7) 4, .collect [],
        .allocateWords .ephemeral (.int 7) 4] h₀) v a o 1 := by
  have hruns : ∃ h₀ v h₁, create tightSettings = .ok h₀ ∧
      Heap.allocateWords .ephemeral (.int 7) 4 h₀ = .ok v h₁ := ⟨_, _, _, rfl, rfl⟩
  obtain ⟨h₀, v, h₁, hcreate, hrun⟩ := hruns
  obtain ⟨a, o, hv, -, ho, -, -, hstands⟩ :=
    allocation_standsFor hcreate [] [.collect [], .allocateWords .ephemeral (.int 7) 4]
      (.allocateWords .ephemeral (.int 7) 4) (by decide) rfl hrun
  exact ⟨h₀, v, h₁, hcreate, hrun, a, o, hv, ho, hstands⟩

/-- A stale value of one kind, used as one of another kind, is refused for its kind. -/
theorem stale_bytes_fetchField : ∃ h₀ v h₁, create {} = .ok h₀ ∧
    Heap.allocateBytes .ephemeral (.int 0) 8 h₀ = .ok v h₁ ∧
    (performAll [.collect []] h₁).byteSize v = .error (.staleHandle ⟨.ephemeral, 1, 0, 0⟩) ∧
    (performAll [.collect []] h₁).fetchField v 0 =
      .error (.value (.tagMismatch .object .bytes)) :=
  ⟨_, _, _, rfl, rfl, by decide +kernel, by decide +kernel⟩

end Heap

end MessageMachine
