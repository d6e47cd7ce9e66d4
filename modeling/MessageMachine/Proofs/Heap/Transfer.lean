import MessageMachine.Proofs.Heap.Draft
import MessageMachine.Proofs.Heap.Packing
import MessageMachine.Proofs.Heap.Twins

/-!
# Transfers are simultaneous copies

A transfer reads the whole range of the source before it writes anything, so it copies all elements
at once, also when source and target are one object and the ranges overlap.  Fields and bytes are
transferred in the same way, and a `Kind` says what they differ in.

* `K.Holds h v xs`: the value carries the tag of the kind, and its object exists, is of the kind and
  has the elements `xs`.
* `K.Covers h v start count`: the value does so, and has elements in the whole of the range.
* `K.Copied h source start target first count h'`: the elements of one range have been copied to the
  other, and all else is as it was.

`transfer_simultaneous` is the main statement.
-/

namespace MessageMachine.Heap

variable {h h' : Heap} {source target v : Value} {start first count : Nat}

/-! ## What a change leaves alone -/

theorem segments_size_update (p : Pool) (s i : Nat) (f : Object → Object) :
    (p.update s i f).segments.size = p.segments.size := by
  rw [Pool.update_eq, Array.size_modify]

/-- No counter depends on what objects are made of. -/
theorem stats_update (h : Heap) (a : Handle) (f : Object → Object) :
    (h.update a f).stats = h.stats := by
  unfold update
  cases a.space with
  | ephemeral =>
      simp only [modifyPool, stats, epoch, segments_size_update, Pool.usedWords_update,
        Pool.objectCount_update, Pool.epoch_update]
  | root => simp only [modifyPool, stats, epoch, segments_size_update, Pool.usedWords_update]

/-! ## Kinds -/

/-- A kind of object: how values refer to its objects, and what their bodies are. -/
structure Kind (α : Type) where
  value : Handle → Value
  body : Array α → Body
  handle_value : ∀ a, (value a).handle? = some a
  /-- Bodies agree where their elements do. -/
  agrees : ∀ {but : Value → Nat → Prop} {a : Handle} {xs ys : Array α}, ys.size = xs.size →
    (∀ i, ¬but (value a) i → ys[i]? = xs[i]?) → Body.Agrees but a (body xs) (body ys)

/-- Objects with fields. -/
def Kind.fields : Kind Value where
  value := .object
  body := .fields
  handle_value _ := rfl
  agrees := .fields

/-- Byte buffers. -/
def Kind.bytes : Kind UInt8 where
  value := .bytes
  body := .bytes
  handle_value _ := rfl
  agrees := .bytes

namespace Kind

variable (K : Kind α)

/-- The value carries the tag of the kind, and its object exists and is of the kind. -/
def Holds (h : Heap) (v : Value) (xs : Array α) : Prop :=
  ∃ a header, v = K.value a ∧ h.resolve a = .ok ⟨header, K.body xs⟩

/-- The value is of the kind, and the range lies within its bounds. -/
def Covers (h : Heap) (v : Value) (start count : Nat) : Prop :=
  ∃ xs, K.Holds h v xs ∧ start + count ≤ xs.size

/-- The element of an object at a place. -/
def At (h : Heap) (v : Value) (i : Nat) (x : α) : Prop := ∃ xs, K.Holds h v xs ∧ xs[i]? = some x

/-- From `h` to `h'` the elements of one range have been copied to another, and all else is the same. -/
structure Copied (h : Heap) (source : Value) (start : Nat) (target : Value) (first count : Nat)
    (h' : Heap) : Prop where
  /-- What is in the target now was in the source before, also when they are the same. -/
  moved : ∀ k < count, ∃ x, K.At h source (start + k) x ∧ K.At h' target (first + k) x
  rest : h.Agrees (fun v i => v = target ∧ first ≤ i ∧ i < first + count) h'
  stats : h'.stats = h.stats
  settings : h'.settings = h.settings

/-- The action copies one range to another, or it is refused and changes nothing. -/
structure Transfers (h : Heap) (source : Value) (start : Nat) (target : Value) (first count : Nat)
    (action : HeapM Unit) : Prop where
  succeeds_iff : (∃ h', action h = .ok () h') ↔
    K.Covers h source start count ∧ K.Covers h target first count
  copied : ∀ h', action h = .ok () h' → K.Copied h source start target first count h'
  refused : ∀ fault h', action h = .error fault h' → h' = h

variable {K} {xs : Array α}

theorem covers_iff {contents : Heap → Value → Except HeapFault (Array α)}
    (hcontents : ∀ v xs, contents h v = .ok xs ↔ K.Holds h v xs) :
    K.Covers h v start count ↔ ∃ ys, (do slice (← contents h v) start count) = .ok ys := by
  constructor
  · rintro ⟨xs, hxs, hfits⟩
    exact ⟨_, reading_bind_eq_ok.mpr ⟨xs, (hcontents v xs).mpr hxs, slice_eq_ok.mpr ⟨hfits, rfl⟩⟩⟩
  · rintro ⟨ys, hys⟩
    obtain ⟨xs, hxs, hslice⟩ := reading_bind_eq_ok.mp hys
    exact ⟨xs, (hcontents v xs).mp hxs, (slice_eq_ok.mp hslice).1⟩

theorem Holds.exists_handle (hholds : K.Holds h v xs) : ∃ a, v.handle? = some a := by
  obtain ⟨a, header, rfl, -⟩ := hholds
  exact ⟨a, K.handle_value a⟩

/-- Overwriting a range of the target with what was read of the source. -/
theorem copied_update {a : Handle} {header : Header} {xs ys : Array α} {f : Object → Object}
    (hsource : K.Holds h source xs) (hstart : start + count ≤ xs.size)
    (hget : h.resolve a = .ok ⟨header, K.body ys⟩) (hfirst : first + count ≤ ys.size)
    (hf : f ⟨header, K.body ys⟩ =
      ⟨header, K.body (overwrite ys first (xs.extract start (start + count)))⟩) :
    K.Copied h source start (K.value a) first count (h.update a f) := by
  have hsize : (xs.extract start (start + count)).size = count := by
    rw [Array.size_extract]
    omega
  have hread := @getElem?_overwrite _ ys (xs.extract start (start + count)) first (by rwa [hsize])
  rw [hsize] at hread
  have hput := putAt_update hget f
  rw [hf] at hput
  constructor
  case moved =>
    intro k hk
    have hlt : start + k < xs.size := by omega
    refine ⟨xs[start + k], ⟨xs, hsource, Array.getElem?_eq_getElem hlt⟩,
      _, ⟨a, header, rfl, hput.resolve_self⟩, ?_⟩
    rw [hread, if_pos (by omega), Nat.add_sub_cancel_left, Array.getElem?_extract, if_pos (by omega),
      Array.getElem?_eq_getElem hlt]
  case rest =>
    refine .of_putAt hget hput ⟨rfl, K.agrees ?_ fun i hi => ?_⟩
    · simp only [overwrite, Array.size_mapIdx]
    · rw [hread, if_neg fun hin => hi ⟨rfl, hin⟩]
  case stats => exact stats_update h a f
  case settings => exact settings_update h a f

/-- A transfer between objects of a kind, whose contents are read by `contents` and overwritten by
`put`. -/
theorem transfers {contents : Heap → Value → Except HeapFault (Array α)}
    (hcontents : ∀ v xs, contents h v = .ok xs ↔ K.Holds h v xs) {put : Array α → Object → Object}
    (hput : ∀ moved header ys,
      put moved ⟨header, K.body ys⟩ = ⟨header, K.body (overwrite ys first moved)⟩) :
    K.Transfers h source start target first count
      (read (fun h => do slice (← contents h source) start count) >>= fun moved =>
        change target (fun h => do slice (← contents h target) first count) (put moved)) := by
  constructor
  case succeeds_iff =>
    rw [covers_iff hcontents, covers_iff hcontents]
    constructor
    · rintro ⟨h', hrun⟩
      obtain ⟨moved, hmoved, hchange⟩ := read_bind_eq_ok.mp hrun
      exact ⟨⟨moved, hmoved⟩, (change_eq_ok hchange).1⟩
    · rintro ⟨⟨moved, hmoved⟩, ys, hys⟩
      obtain ⟨_, hholds, -⟩ := (covers_iff hcontents).mpr ⟨ys, hys⟩
      obtain ⟨a, ha⟩ := hholds.exists_handle
      exact ⟨_, read_bind_eq_ok.mpr ⟨moved, hmoved, change_run (put moved) hys ha⟩⟩
  case copied =>
    intro h' hrun
    obtain ⟨moved, hmoved, hchange⟩ := read_bind_eq_ok.mp hrun
    obtain ⟨⟨ys', hcheck⟩, hupdate⟩ := change_eq_ok hchange
    obtain ⟨xs, hxs, hslice⟩ := reading_bind_eq_ok.mp hmoved
    obtain ⟨hstart, rfl⟩ := slice_eq_ok.mp hslice
    obtain ⟨ys, hys, hfirst⟩ := (covers_iff hcontents).mpr ⟨ys', hcheck⟩
    obtain ⟨a, header, rfl, hget⟩ := hys
    rw [hupdate a (K.handle_value a)]
    exact copied_update ((hcontents source xs).mp hxs) hstart hget hfirst (hput ..)
  case refused =>
    intro fault h' hrun
    rcases error_of_bind hrun with hread | ⟨moved, t, hread, hchange⟩
    · exact heap_of_read_error hread
    · obtain ⟨-, rfl⟩ := read_eq_ok.mp hread
      exact heap_of_change_error hchange

end Kind

theorem fields_iff_holds {v : Value} {xs : Array Value} :
    h.fields v = .ok xs ↔ Kind.fields.Holds h v xs := by
  rw [fields_eq_ok]
  constructor
  · rintro ⟨a, ⟨header, body⟩, rfl, hget, rfl⟩
    exact ⟨a, header, rfl, hget⟩
  · rintro ⟨a, header, rfl, hget⟩
    exact ⟨a, _, rfl, hget, rfl⟩

theorem bytes_iff_holds {v : Value} {xs : Array UInt8} :
    h.bytes v = .ok xs ↔ Kind.bytes.Holds h v xs := by
  rw [bytes_eq_ok]
  constructor
  · rintro ⟨a, ⟨header, body⟩, rfl, hget, rfl⟩
    exact ⟨a, header, rfl, hget⟩
  · rintro ⟨a, header, rfl, hget⟩
    exact ⟨a, _, rfl, hget, rfl⟩

/-- Fields and bytes are transferred if and only if both values refer to objects of the kind and both
ranges lie within them.  Then each element of the target range is what the source had before at the
same place of its range, and nothing else changes; a transfer that is refused changes nothing. -/
theorem transfer_simultaneous (h : Heap) (source : Value) (start : Nat) (target : Value)
    (first count : Nat) :
    Kind.fields.Transfers h source start target first count
        (transferFields source start target first count) ∧
      Kind.bytes.Transfers h source start target first count
        (transferBytes source start target first count) :=
  ⟨Kind.transfers (fun _ _ => fields_iff_holds) fun _ _ _ => rfl,
    Kind.transfers (fun _ _ => bytes_iff_holds) fun _ _ _ => rfl⟩

end MessageMachine.Heap
