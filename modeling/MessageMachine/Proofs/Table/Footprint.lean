import MessageMachine.Proofs.Action
import MessageMachine.Table

/-!
# What a table touches

A table operation writes into the owner of the table, into the arrays that the owner refers to, and
into arrays that it makes, and nowhere else.  It does so also in a heap in which the table is broken,
and also when it fails.

`Footprint config t P Fit` says that `P` survives these writes.  `Fit` describes the arrays: what the
owner refers to fits, what is made fits, and only what fits becomes part of the table.
-/

namespace MessageMachine

theorem Heap.keeps_read {P : Heap → Prop} (f : Heap → Except HeapFault α) :
    Keeps P (Heap.read f) := by
  intro h hh
  unfold Heap.read
  split <;> exact hh

theorem Heap.ensures_read {P : Heap → Prop} (f : Heap → Except HeapFault α) :
    Ensures P (Heap.read f) (fun a h => P h ∧ f h = .ok a) fun _ => P := by
  intro h hh
  unfold Heap.read
  split
  · next heq =>
    split at heq <;> cases heq
    next hf => exact ⟨hh, hf⟩
  · next heq =>
    split at heq <;> cases heq
    exact hh

namespace Table

/-- `P` survives what an operation on the table writes. -/
structure Footprint (config : Config) (t : Table) (P : Heap → Prop) (Fit : Value → Prop) : Prop where
  keys : ∀ h v, P h → h.fetchField t.owner t.kind.keys = .ok v → Fit v
  values : ∀ slot ∈ t.kind.values?, ∀ h v, P h → h.fetchField t.owner slot = .ok v → Fit v
  fill : ∀ v i new, Fit v → Keeps P (Heap.storeField v i new)
  setTally : ∀ n, Keeps P (Heap.storeField t.owner t.kind.tally (.ofNat n))
  setKeys : ∀ v, Fit v → Keeps P (Heap.storeField t.owner t.kind.keys v)
  setValues : ∀ slot ∈ t.kind.values?, ∀ v, Fit v → Keeps P (Heap.storeField t.owner slot v)
  make : ∀ count, Ensures P (Heap.allocateFields .ephemeral config.array count config.nil)
    (fun v h => P h ∧ Fit v) fun _ => P

namespace Footprint

variable {config : Config} {t : Table} {P : Heap → Prop} {Fit : Value → Prop}
  (hp : Footprint config t P Fit)
include hp

theorem keeps_rehash (oldKeys newKeys : Value) (oldNewValues : Option (Value × Value))
    (capacity place : Nat) (hkeys : Fit newKeys) (hvalues : ∀ pair ∈ oldNewValues, Fit pair.2) :
    Keeps P (rehash config oldKeys newKeys oldNewValues capacity place) := by
  refine (Heap.keeps_read _).bind fun key => Keeps.ite (Keeps.pure _) ?_
  refine (Heap.keeps_read _).bind fun hash => (Heap.keeps_read _).bind fun probe => ?_
  cases probe with
  | found place => exact Keeps.throw _
  | full => exact Keeps.throw _
  | vacant place =>
      refine (hp.fill _ _ _ hkeys).bind fun _ => ?_
      cases oldNewValues with
      | none => exact Keeps.pure _
      | some pair => exact (Heap.keeps_read _).bind fun v => hp.fill _ _ _ (hvalues pair rfl)

/-- The array for the values, if the table has them. -/
theorem ensures_makeValues (oldValues : Option Value) (capacity : Nat) :
    Ensures P
      (oldValues.mapM fun old => do
        return (old, ← Heap.allocateFields .ephemeral config.array capacity config.nil))
      (fun values h => P h ∧ ∀ pair ∈ values, Fit pair.2) fun _ => P := by
  cases oldValues with
  | none => exact Ensures.pure fun h hh => ⟨hh, nofun⟩
  | some old =>
      refine Ensures.bind (Ensures.bind (hp.make capacity) fun v => Ensures.pure (a := (old, v))
        (Q := fun pair h => P h ∧ Fit pair.2) fun _ => id) fun pair => Ensures.pure ?_
      rintro h ⟨hh, hfit⟩
      exact ⟨hh, fun pair' hpair => Option.some.inj hpair ▸ hfit⟩

theorem keeps_grow (capacity : Nat) : Keeps P (grow config t capacity) := by
  refine (Heap.keeps_read _).bind fun oldKeys => Keeps.bind ?_ fun oldValues => ?_
  · cases t.kind.values? with
    | none => exact Keeps.pure _
    | some slot => exact (Heap.keeps_read _).bind fun v => Keeps.pure _
  refine Ensures.keeps (Ensures.bind (hp.make capacity) fun keys => ?_)
  refine Ensures.bind (Q := fun values h => P h ∧ Fit keys ∧ ∀ pair ∈ values, Fit pair.2) ?_
    fun values => ?_
  · intro h hh
    refine ((hp.ensures_makeValues oldValues capacity).weaken (fun _ => id) ?_ fun _ _ => id) h hh.1
    exact fun values h' hh' => ⟨hh'.1, hh.2, hh'.2⟩
  rintro h ⟨hh, hkeys, hvalues⟩
  refine Keeps.ensures ((Heap.keeps_read _).bind fun places => Keeps.bind (Keeps.forM ?_) fun _ => ?_)
    h hh
  · exact fun place _ => hp.keeps_rehash _ _ _ _ _ hkeys hvalues
  refine (hp.setKeys _ hkeys).bind fun _ => ?_
  split
  · next slot pair values hslot =>
    exact hp.setValues slot hslot _ (hvalues _ rfl)
  · exact Keeps.pure _

/-- The array of values is read before it is written to. -/
theorem keeps_read_values {slot : Nat} (hslot : t.kind.values? = some slot)
    {f : Value → HeapM α} (hf : ∀ v, Fit v → Keeps P (f v)) :
    Keeps P (Heap.read (·.fetchField t.owner slot) >>= f) := by
  refine Ensures.keeps (Ensures.bind (Heap.ensures_read _) fun v => ?_)
  rintro h ⟨hh, hv⟩
  exact (hf v (hp.values slot hslot h v hh hv)).ensures h hh

/-- A store into the array of values, if the table has one. -/
theorem keeps_fillValue (place : Nat) (value : Value) :
    Keeps P (match t.kind.values? with
      | some slot => do Heap.storeField (← Heap.read (·.fetchField t.owner slot)) place value
      | none => pure () : HeapM Unit) := by
  split
  · next slot hslot => exact hp.keeps_read_values hslot fun v hv => hp.fill v place value hv
  · exact Keeps.pure _

theorem keeps_insertNew (hash : Nat) (key value : Value) :
    Keeps P (insertNew config t hash key value) := by
  refine (Heap.keeps_read _).bind fun tally => (Heap.keeps_read _).bind fun capacity => ?_
  -- the entry is added in the same way whether or not the table grew first
  refine Keeps.ite ?add ((hp.keeps_grow _).bind fun _ => ?add)
  case add =>
    refine Ensures.keeps (Ensures.bind (Heap.ensures_read _) fun keys => ?_)
    rintro h ⟨hh, hkeys⟩
    refine Keeps.ensures ((Heap.keeps_read _).bind fun probe => ?_) h hh
    cases probe with
    | found place => exact Keeps.throw _
    | full => exact Keeps.throw _
    | vacant place =>
        refine (hp.fill _ _ _ (hp.keys h keys hh hkeys)).bind fun _ => ?_
        split
        · next slot hslot =>
          exact hp.keeps_read_values hslot fun v hv =>
            (hp.fill v place value hv).bind fun _ => hp.setTally _
        · exact hp.setTally _

theorem keeps_insert (key value : Value) : Keeps P (insert config t key value) := by
  refine (Heap.keeps_read _).bind fun keys => (Heap.keeps_read _).bind fun probe => ?_
  have hnew : Keeps P (do
      let hash ← Heap.read (keyHash · key)
      insertNew config t hash key value : HeapM Unit) :=
    (Heap.keeps_read _).bind fun hash => hp.keeps_insertNew hash key value
  cases probe with
  | found place => exact hp.keeps_fillValue place value
  | vacant place => exact hnew
  | full => exact hnew

/-- Interning makes a buffer, if there is none with that text, and enters it. -/
theorem keeps_intern (hkind : t.kind = .symbols) {symbolType : Value} {name : Array UInt8}
    (hmake : Keeps P (Heap.allocateBytesFrom .ephemeral symbolType name)) :
    Keeps P (intern config t.owner symbolType name) := by
  obtain ⟨owner, kind⟩ := t
  obtain rfl : kind = .symbols := hkind
  refine (Heap.keeps_read _).bind fun found => ?_
  cases found with
  | some symbol => exact Keeps.pure _
  | none =>
      refine hmake.bind fun symbol => ?_
      exact Keeps.bind (hp.keeps_insertNew _ _ _) fun _ => Keeps.pure _

end Footprint

end Table

end MessageMachine
