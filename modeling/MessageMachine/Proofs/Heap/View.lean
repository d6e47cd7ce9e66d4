import MessageMachine.Proofs.Heap.Draft

/-!
# What a heap shows

`Heap.view` is the object at each handle, and so all that can be read of a heap.  Each change of a
heap is told by one equation between views:

* a store into a field: `View.put` (`exists_storeField`, `view_of_storeField`);
* a new object: `View.add` (`view_of_allocateFields`);
* fields copied into an object: `exists_transferFields`.

What is read of a changed heap then follows from `field_put` and `field_add` alone.
-/

namespace MessageMachine

/-- A field of an object. -/
def Object.field? (o : Object) (i : Nat) : Option Value :=
  match o.body with
  | .fields xs => xs[i]?
  | _ => none

/-- How many fields an object has. -/
def Object.count? (o : Object) : Option Nat :=
  match o.body with
  | .fields xs => some xs.size
  | _ => none

/-- The contents of a byte buffer. -/
def Object.bytes? (o : Object) : Option (Array UInt8) :=
  match o.body with
  | .bytes xs => some xs
  | _ => none

namespace Object

variable {o : Object}

theorem exists_field {i n : Nat} (hcount : o.count? = some n) (hi : i < n) :
    ∃ x, o.field? i = some x := by
  obtain ⟨header, body⟩ := o
  cases body with
  | fields xs =>
      cases hcount
      exact ⟨xs[i], Array.getElem?_eq_getElem hi⟩
  | bytes xs => cases hcount
  | words xs => cases hcount

theorem field?_setField (o : Object) (i j : Nat) (x : Value) :
    (o.setField i x).field? j = if j = i then (o.field? i).map fun _ => x else o.field? j := by
  obtain ⟨header, body⟩ := o
  cases body with
  | fields xs =>
      simp only [setField, field?, Array.getElem?_setIfInBounds]
      by_cases hj : j = i
      · subst hj
        by_cases hlt : j < xs.size
        · simp [hlt]
        · simp [hlt]
      · rw [if_neg (Ne.symm hj), if_neg hj]
  | bytes xs => simp [setField, field?]
  | words xs => simp [setField, field?]

theorem count?_setField (o : Object) (i : Nat) (x : Value) :
    (o.setField i x).count? = o.count? := by
  obtain ⟨header, body⟩ := o
  cases body <;> simp [setField, count?]

theorem bytes?_setField (o : Object) (i : Nat) (x : Value) :
    (o.setField i x).bytes? = o.bytes? := by
  obtain ⟨header, body⟩ := o
  cases body <;> simp [setField, bytes?]

theorem setField_same {i : Nat} {x : Value} (hx : o.field? i = some x) : o.setField i x = o := by
  obtain ⟨header, body⟩ := o
  cases body with
  | fields xs =>
      obtain ⟨hi, rfl⟩ := Array.getElem?_eq_some_iff.mp hx
      simp [setField, Array.setIfInBounds, hi]
  | bytes xs => cases hx
  | words xs => cases hx

theorem setField_comm {i j : Nat} (hij : i ≠ j) (x y : Value) :
    (o.setField i x).setField j y = (o.setField j y).setField i x := by
  obtain ⟨header, body⟩ := o
  cases body with
  | fields xs => simp [setField, Array.setIfInBounds_comm x y hij]
  | bytes xs => rfl
  | words xs => rfl

theorem setField_setField (i : Nat) (x y : Value) :
    (o.setField i x).setField i y = o.setField i y := by
  obtain ⟨header, body⟩ := o
  cases body <;> simp [setField]

end Object

/-! ## Views -/

/-- The object at each handle. -/
abbrev View := Handle → Option Object

namespace View

variable (f : View) (v w : Value) (a : Handle) (o : Object) (i j : Nat) (x : Value)

/-- A field of an object. -/
def field : Option Value :=
  match v with
  | .object a => f a >>= (·.field? i)
  | _ => none

/-- How many fields an object has. -/
def count : Option Nat :=
  match v with
  | .object a => f a >>= Object.count?
  | _ => none

/-- The contents of a byte buffer. -/
def bytes : Option (Array UInt8) :=
  match v with
  | .bytes a => f a >>= Object.bytes?
  | _ => none

/-- The view with a field changed. -/
def put : View := fun a => if v = .object a then (f a).map (·.setField i x) else f a

/-- The view with one more object. -/
def add : View := Function.update f a (some o)

variable {f v w a o i j x} {y : Value}

theorem put_of_ne (hne : v ≠ .object a) : f.put v i x a = f a := if_neg hne

theorem put_self : f.put (.object a) i x a = (f a).map (·.setField i x) := if_pos rfl

theorem put_eq_none : f.put v i x a = none ↔ f a = none := by
  unfold put
  split
  · exact Option.map_eq_none_iff
  · exact Iff.rfl

/-- What a store makes of an object depends on that object only. -/
theorem put_congr {g : View} (hfg : f a = g a) : f.put v i x a = g.put v i x a := by
  unfold put
  rw [hfg]

theorem put_put : (f.put v i x).put v i y = f.put v i y := by
  funext a
  by_cases hv : v = .object a
  · subst hv
    rw [put_self, put_self, put_self, Option.map_map]
    exact congrArg (Option.map · (f a)) (funext fun o => o.setField_setField i x y)
  · rw [put_of_ne hv, put_of_ne hv, put_of_ne hv]

/-- Stores into different fields can be made in any order. -/
theorem put_comm (hne : ¬(v = w ∧ i = j)) :
    (f.put v i x).put w j y = (f.put w j y).put v i x := by
  funext a
  by_cases hv : v = .object a
  · subst hv
    by_cases hw : w = .object a
    · subst hw
      have hij : i ≠ j := fun heq => hne ⟨rfl, heq⟩
      rw [put_self, put_self, put_self, put_self, Option.map_map, Option.map_map]
      exact congrArg (Option.map · (f a)) (funext fun o => o.setField_comm hij x y)
    · rw [put_of_ne hw, put_self, put_self, put_of_ne hw]
  · rw [put_of_ne hv]
    exact put_congr (put_of_ne hv)

theorem field_put : (f.put v i x).field w j =
    if w = v ∧ j = i then (f.field v i).map fun _ => x else f.field w j := by
  cases w with
  | object a =>
      by_cases hv : v = .object a
      · subst hv
        simp only [field, put_self, true_and]
        cases f a with
        | none => simp
        | some o => simpa using o.field?_setField i j x
      · have hne : ¬(Value.object a = v ∧ j = i) := fun h => hv h.1.symm
        rw [if_neg hne]
        simp only [field, put_of_ne hv]
  | int n =>
      cases v <;> simp [field]
  | bytes b =>
      cases v <;> simp [field]
  | words b =>
      cases v <;> simp [field]

theorem field_put_of_ne (hne : w ≠ v ∨ j ≠ i) : (f.put v i x).field w j = f.field w j := by
  rw [field_put, if_neg (not_and_or.mpr hne)]

theorem field_put_self {old : Value} (hold : f.field v i = some old) :
    (f.put v i x).field v i = some x := by
  rw [field_put, if_pos ⟨rfl, rfl⟩, hold]
  rfl

/-- Storing what is there already changes nothing. -/
theorem put_same (hx : f.field v i = some x) : f.put v i x = f := by
  funext a
  by_cases hv : v = .object a
  · subst hv
    rw [put_self]
    cases ho : f a with
    | none => rfl
    | some o =>
        have hfield : o.field? i = some x := by simpa [field, ho] using hx
        rw [Option.map_some, Object.setField_same hfield]
  · exact put_of_ne hv

/-- An object has the fields that it counts. -/
theorem exists_field {n : Nat} (hcount : f.count v = some n) (hi : i < n) :
    ∃ x, f.field v i = some x := by
  cases v with
  | object a =>
      cases ho : f a with
      | none => simp [count, ho] at hcount
      | some o =>
          have hsize : o.count? = some n := by simpa [count, ho] using hcount
          obtain ⟨x, hx⟩ := Object.exists_field hsize hi
          exact ⟨x, by simpa [field, ho] using hx⟩
  | int n => cases hcount
  | bytes b => cases hcount
  | words b => cases hcount

theorem count_put : (f.put v i x).count w = f.count w := by
  cases w with
  | object a =>
      by_cases hv : v = .object a
      · subst hv
        simp only [count, put_self]
        cases f a with
        | none => rfl
        | some o => exact o.count?_setField i x
      · simp only [count, put_of_ne hv]
  | int n => rfl
  | bytes b => rfl
  | words b => rfl

theorem bytes_put : (f.put v i x).bytes w = f.bytes w := by
  cases w with
  | bytes a =>
      unfold bytes put
      dsimp only
      split
      · cases f a with
        | none => rfl
        | some o => exact o.bytes?_setField i x
      · rfl
  | int n => rfl
  | object b => rfl
  | words b => rfl

theorem add_self : f.add a o a = some o := Function.update_self ..

theorem add_of_ne {b : Handle} (hne : b ≠ a) : f.add a o b = f b := Function.update_of_ne hne ..

theorem field_add_self : (f.add a o).field (.object a) j = o.field? j := by
  simp [field, add_self]

/-- What was there is not the new object. -/
theorem ne_of_field (hnew : f a = none) (hfield : f.field w j = some x) : w ≠ .object a := by
  rintro rfl
  simp [field, hnew] at hfield

theorem field_add (hnew : f a = none) (hfield : f.field w j = some x) :
    (f.add a o).field w j = some x := by
  have hne := ne_of_field hnew hfield
  cases w with
  | object b =>
      have hba : b ≠ a := fun heq => hne (congrArg _ heq)
      simpa only [field, add_of_ne hba] using hfield
  | int n => cases hfield
  | bytes b => cases hfield
  | words b => cases hfield

theorem count_add_self : (f.add a o).count (.object a) = o.count? := by
  simp [count, add_self]

theorem count_add (hnew : f a = none) {n : Nat} (hcount : f.count w = some n) :
    (f.add a o).count w = some n := by
  cases w with
  | object b =>
      have hba : b ≠ a := by
        rintro rfl
        simp [count, hnew] at hcount
      simpa only [count, add_of_ne hba] using hcount
  | int n => cases hcount
  | bytes b => cases hcount
  | words b => cases hcount

theorem bytes_add (hnew : f a = none) {xs : Array UInt8} (hbytes : f.bytes w = some xs) :
    (f.add a o).bytes w = some xs := by
  cases w with
  | bytes b =>
      have hba : b ≠ a := by
        rintro rfl
        simp [bytes, hnew] at hbytes
      simpa only [bytes, add_of_ne hba] using hbytes
  | int n => cases hbytes
  | object b => cases hbytes
  | words b => cases hbytes

/-- A store into the new object is part of what it is. -/
theorem put_add_self : (f.add a o).put (.object a) i x = f.add a (o.setField i x) := by
  funext b
  by_cases hb : b = a
  · subst hb
    rw [put_self, add_self, add_self]
    rfl
  · rw [put_of_ne (fun heq => hb (Value.object.inj heq).symm), add_of_ne hb, add_of_ne hb]

/-- A store into what was there can as well be done first. -/
theorem put_add (hne : v ≠ .object a) : (f.add a o).put v i x = (f.put v i x).add a o := by
  funext b
  by_cases hb : b = a
  · subst hb
    rw [put_of_ne hne, add_self, add_self]
  · rw [add_of_ne hb]
    unfold put
    rw [add_of_ne hb]

end View

/-! ## Heaps -/

namespace Heap

variable {h h' : Heap} {v w x : Value} {i n : Nat}

/-- The object at each handle. -/
def view (h : Heap) : View := fun a => (h.resolve a).toOption

theorem view_eq_some {a : Handle} {o : Object} : h.view a = some o ↔ h.resolve a = .ok o := by
  unfold view
  cases h.resolve a <;> simp [Except.toOption]

theorem view_of_putAt {a : Handle} {o : Object} (hput : PutAt h a o h') :
    h'.view = h.view.add a o := by
  funext b
  unfold view View.add
  rw [hput b]
  by_cases hb : b = a
  · subst hb
    rw [if_pos rfl, Function.update_self]
    rfl
  · rw [if_neg hb, Function.update_of_ne hb]

theorem fetchField_iff_view : h.fetchField v i = .ok x ↔ h.view.field v i = some x := by
  cases v with
  | object a =>
      simp only [fetchField_eq_ok, fields_eq_ok, View.field, Option.bind_eq_bind,
        Option.bind_eq_some_iff, view_eq_some]
      constructor
      · rintro ⟨xs, ⟨b, o, hb, ho, hbody⟩, hx⟩
        cases hb
        exact ⟨o, ho, by rw [Object.field?, hbody]; exact hx⟩
      · rintro ⟨o, ho, hx⟩
        obtain ⟨header, body⟩ := o
        cases body with
        | fields xs => exact ⟨xs, ⟨a, _, rfl, ho, rfl⟩, hx⟩
        | bytes xs => cases hx
        | words xs => cases hx
  | int k => simp [fetchField_eq_ok, fields_eq_ok, View.field]
  | bytes a => simp [fetchField_eq_ok, fields_eq_ok, View.field]
  | words a => simp [fetchField_eq_ok, fields_eq_ok, View.field]

theorem fieldCount_iff_view : h.fieldCount v = .ok n ↔ h.view.count v = some n := by
  cases v with
  | object a =>
      simp only [fieldCount_eq_ok, fields_eq_ok, View.count, Option.bind_eq_bind,
        Option.bind_eq_some_iff, view_eq_some]
      constructor
      · rintro ⟨xs, ⟨b, o, hb, ho, hbody⟩, rfl⟩
        cases hb
        exact ⟨o, ho, by rw [Object.count?, hbody]⟩
      · rintro ⟨o, ho, hn⟩
        obtain ⟨header, body⟩ := o
        cases body with
        | fields xs =>
            cases hn
            exact ⟨xs, ⟨a, _, rfl, ho, rfl⟩, rfl⟩
        | bytes xs => cases hn
        | words xs => cases hn
  | int k => simp [fieldCount_eq_ok, fields_eq_ok, View.count]
  | bytes a => simp [fieldCount_eq_ok, fields_eq_ok, View.count]
  | words a => simp [fieldCount_eq_ok, fields_eq_ok, View.count]

theorem bytes_iff_view {xs : Array UInt8} : h.bytes v = .ok xs ↔ h.view.bytes v = some xs := by
  cases v with
  | bytes a =>
      simp only [bytes_eq_ok, View.bytes, Option.bind_eq_bind, Option.bind_eq_some_iff,
        view_eq_some]
      constructor
      · rintro ⟨b, o, hb, ho, hbody⟩
        cases hb
        exact ⟨o, ho, by rw [Object.bytes?, hbody]⟩
      · rintro ⟨o, ho, hxs⟩
        obtain ⟨header, body⟩ := o
        cases body with
        | fields ys => cases hxs
        | bytes ys =>
            cases hxs
            exact ⟨a, _, rfl, ho, rfl⟩
        | words ys => cases hxs
  | int k => simp [bytes_eq_ok, View.bytes]
  | object a => simp [bytes_eq_ok, View.bytes]
  | words a => simp [bytes_eq_ok, View.bytes]

/-! ## Stores -/

theorem view_of_storeField {u : Unit} (hstore : storeField v i x h = .ok u h') :
    h'.view = h.view.put v i x := by
  obtain ⟨a, ⟨header, body⟩, xs, rfl, ho, hbody, -, hput⟩ := storeField_eq_ok hstore
  obtain rfl : body = .fields xs := hbody
  rw [view_of_putAt hput]
  funext b
  by_cases hb : b = a
  · subst hb
    rw [View.add_self, View.put_self, view_eq_some.mpr ho]
    rfl
  · rw [View.add_of_ne hb, View.put_of_ne fun heq => hb (Value.object.inj heq).symm]

/-- A store into a field that is there. -/
theorem exists_storeField {old : Value} (hold : h.view.field v i = some old) (x : Value) :
    ∃ h', storeField v i x h = .ok () h' ∧ h'.view = h.view.put v i x := by
  obtain ⟨h', hstore⟩ := storeField_of_fetchField (fetchField_iff_view.mpr hold) x
  exact ⟨h', hstore, view_of_storeField hstore⟩

/-! ## New objects -/

theorem view_of_allocateFields (hsettled : h.Settled) {space : Space} {type fill : Value}
    (hallocate : allocateFields space type n fill h = .ok v h') :
    ∃ a, v = .object a ∧ h.view a = none ∧
      h'.view = h.view.add a (.ofFields space type n fill) := by
  obtain ⟨_, -, hrest⟩ := read_bind_eq_ok.mp hallocate
  obtain ⟨a, t, hallocated, hv⟩ := bind_eq_ok.mp hrest
  obtain ⟨rfl, rfl⟩ := pure_eq_ok.mp hv
  obtain ⟨-, hstale, hput⟩ := allocate_eq_ok hsettled hallocated
  refine ⟨a, rfl, ?_, view_of_putAt hput⟩
  simp [view, hstale, Except.toOption]

/-! ## Transfers -/

/-- A transfer is one change of the target, by the fields that were read of the source. -/
theorem transferFields_eq_change (source : Value) (start : Nat) (target : Value)
    (first count : Nat) :
    ∃ f : Array Value → Object → Object,
      (∀ moved header xs,
        f moved ⟨header, .fields xs⟩ = ⟨header, .fields (overwrite xs first moved)⟩) ∧
      transferFields source start target first count =
        read (fun h => do slice (← h.fields source) start count) >>= fun moved =>
          Heap.change target (fun h => do slice (← h.fields target) first count) (f moved) := by
  refine ⟨_, ?_, rfl⟩
  intro moved header xs
  rfl

/-- Fields of another object are copied into an object that has room for them. -/
theorem exists_transferFields {a : Handle} {o : Object} {start first count size : Nat}
    (ho : h.view a = some o) (hroom : o.count? = some size) (hfits : first + count ≤ size)
    {length : Nat} (hlength : h.view.count w = some length) (hsource : start + count ≤ length) :
    ∃ h' o', transferFields w start (.object a) first count h = .ok () h' ∧
      h'.view = h.view.add a o' ∧ o'.count? = some size ∧
      ∀ j, o'.field? j =
        if first ≤ j ∧ j < first + count then h.view.field w (start + (j - first))
        else o.field? j := by
  obtain ⟨header, body⟩ := o
  cases body with
  | bytes xs => cases hroom
  | words xs => cases hroom
  | fields xs =>
  cases hroom
  obtain ⟨ys, hys, rfl⟩ := fieldCount_eq_ok.mp (fieldCount_iff_view.mpr hlength)
  have hxs : h.fields (.object a) = .ok xs := fields_eq_ok.mpr ⟨a, _, rfl, view_eq_some.mp ho, rfl⟩
  have hmoved : (do slice (← h.fields w) start count) = .ok (ys.extract start (start + count)) := by
    rw [hys]
    exact slice_eq_ok.mpr ⟨hsource, rfl⟩
  have hsize : (ys.extract start (start + count)).size = count := by
    rw [Array.size_extract]
    omega
  have hplace : ∃ zs, (do slice (← h.fields (.object a)) first count) = .ok zs := by
    rw [hxs]
    exact ⟨_, slice_eq_ok.mpr ⟨hfits, rfl⟩⟩
  obtain ⟨zs, hzs⟩ := hplace
  let o' : Object := ⟨header, .fields (overwrite xs first (ys.extract start (start + count)))⟩
  obtain ⟨f, hf, htransfer⟩ := transferFields_eq_change w start (.object a) first count
  have hput := putAt_update (view_eq_some.mp ho) (f (ys.extract start (start + count)))
  rw [hf] at hput
  refine ⟨h.update a (f (ys.extract start (start + count))), o', ?_, view_of_putAt hput, ?_, ?_⟩
  · rw [htransfer]
    refine read_bind_eq_ok.mpr ⟨_, hmoved, ?_⟩
    unfold Heap.change
    dsimp only
    rw [hzs]
    rfl
  · simp [o', Object.count?, overwrite]
  · intro j
    have hplaced : first + (ys.extract start (start + count)).size ≤ xs.size := by rwa [hsize]
    have hread := getElem?_overwrite hplaced j
    rw [hsize] at hread
    change (overwrite xs first (ys.extract start (start + count)))[j]? = _
    rw [hread]
    by_cases hj : first ≤ j ∧ j < first + count
    · rw [if_pos hj, if_pos hj, Array.getElem?_extract, if_pos (by omega)]
      have hlt : start + (j - first) < ys.size := by omega
      rw [Array.getElem?_eq_getElem hlt]
      exact (fetchField_iff_view.mp (fetchField_eq_ok.mpr
        ⟨ys, hys, Array.getElem?_eq_getElem hlt⟩)).symm
    · rw [if_neg hj, if_neg hj]
      rfl

end Heap

end MessageMachine
