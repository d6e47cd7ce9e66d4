import MessageMachine.Proofs.Machine.Operands
import MessageMachine.Proofs.Primitive.Integers

/-!
# Indexed access obeys the laws of arrays

Indices count from 1.  In a fielded object they start after the fields that its type declares; bytes
and words are numbers.  `peek m v index` is the element that is there, if there is one.

* `attempt_basicAt`, `attempt_basicSize`, `attempt_basicAtPut`: what the primitives make of operands
  on the stack.  Whatever goes wrong on the way is a refused access (`Mild`), so that they decline.
* `peek_congr`: an element depends on its place in the body and on the number of fixed fields that
  the type declares.
* `basicAtPut_lawful`: a store is seen at its index and nowhere else.  That holds for every other
  object, but not for the instances of a type whose number of fixed fields is itself what was stored:
  their indices are counted from another place then (`Redeclares`).
-/

namespace MessageMachine

/-! ## Refused accesses -/

/-- A reading that fails refuses the access only. -/
def Heap.Mild (x : Except HeapFault α) : Prop := ∀ fault, x = .error fault → fault.isFatal = false

namespace Heap

variable {h : Heap} {v : Value} {o : Object}

theorem Mild.bind {x : Except HeapFault α} {f : α → Except HeapFault β} (hx : Mild x)
    (hf : ∀ a, Mild (f a)) : Mild (x >>= f) := by
  intro fault hfault
  cases x with
  | ok a => exact hf a fault hfault
  | error fault' =>
      cases hfault
      exact hx fault rfl

theorem mild_lift (x : Except ValueFault α) : Mild (liftM x) := by
  intro fault hfault
  cases x with
  | ok a => cases hfault
  | error fault' =>
      cases hfault
      rfl

theorem mild_element (xs : Array α) (i : Nat) : Mild (element xs i) := by
  intro fault hfault
  unfold element at hfault
  split at hfault <;> cases hfault
  rfl

/-! Nothing worse than a refusal comes of looking into an object that is there. -/

theorem mild_fields (ho : h.object v = .ok o) : Mild (h.fields v) := by
  unfold fields
  refine (mild_lift _).bind fun _ => ?_
  rw [ho]
  obtain ⟨header, body⟩ := o
  intro fault hfault
  cases body <;> cases hfault <;> rfl

theorem mild_bytes (ho : h.object v = .ok o) : Mild (h.bytes v) := by
  unfold bytes
  refine (mild_lift _).bind fun _ => ?_
  rw [ho]
  obtain ⟨header, body⟩ := o
  intro fault hfault
  cases body <;> cases hfault <;> rfl

theorem mild_words (ho : h.object v = .ok o) : Mild (h.words v) := by
  unfold words
  refine (mild_lift _).bind fun _ => ?_
  rw [ho]
  obtain ⟨header, body⟩ := o
  intro fault hfault
  cases body <;> cases hfault <;> rfl

theorem mild_pure (a : α) : Mild (pure a : Except HeapFault α) := nofun

theorem mild_fetchField (ho : h.object v = .ok o) (i : Nat) : Mild (h.fetchField v i) :=
  (mild_fields ho).bind fun xs => mild_element xs i

end Heap

namespace Machine

/-- A reading that fails makes a primitive decline. -/
def Mild (x : Except Fault α) : Prop := ∀ fault, x = .error fault → fault.abortsPrimitive = false

section Mild

variable {x : Except Fault α} {f : α → Except Fault β}

theorem Mild.bind (hx : Mild x) (hf : ∀ a, x = .ok a → Mild (f a)) : Mild (x >>= f) := by
  intro fault hfault
  cases x with
  | ok a => exact hf a rfl fault hfault
  | error fault' =>
      cases hfault
      exact hx fault rfl

theorem mild_pure (a : α) : Mild (pure a : Except Fault α) := nofun

theorem mild_heap {y : Except HeapFault α} (hy : Heap.Mild y) : Mild (liftM y) := by
  intro fault hfault
  cases y with
  | ok a => cases hfault
  | error fault' =>
      cases hfault
      exact hy fault' rfl

theorem mild_value (y : Except ValueFault α) : Mild (liftM y) := by
  intro fault hfault
  cases y with
  | ok a => cases hfault
  | error fault' =>
      cases hfault
      rfl

end Mild

variable {m m₁ m' : Machine} {v w x index : Value} {i j n : Nat}

/-! ## Elements -/

/-- What has indexed access: integers, and objects that are there and whose type is a type. -/
def Accessible (m : Machine) (v : Value) : Prop :=
  (∃ n, v = .int n) ∨ ∃ t, m.heap.typeOf v = .ok t ∧ m.isType t = .ok true

/-- The element at a place in the body of a value. -/
def elementAt (m : Machine) (v : Value) (i : Nat) : Except Fault Value :=
  match v with
  | .int _ => throw (.heap (.value (.outOfRange i 0)))
  | .object _ => m.heap.fetchField v i
  | .bytes _ => do return .ofNat (← m.heap.fetchByte v i).toNat
  | .words _ => do Value.ofInt (← m.heap.fetchWord v i).toNat

/-- The element at an index, if there is one and it is a value. -/
def peek (m : Machine) (v index : Value) : Option Value :=
  match m.indexedPlace v index with
  | .ok (some i) => (m.elementAt v i).toOption
  | _ => none

/-- The value can be an element of what is stored like `v`. -/
def Fits (v x : Value) : Prop :=
  match v with
  | .int _ | .object _ => True
  | .bytes _ => ∃ b : Nat, b ≤ 255 ∧ x = .ofNat b
  | .words _ => ∃ n : Nat, x = .ofNat n

/-- No index reaches into an integer. -/
theorem indexedPlace_int (n : Int) : m.indexedPlace (.int n) index ≠ .ok (some i) := by
  unfold indexedPlace indexedSize
  intro hplace
  obtain ⟨k, -, hrest⟩ := reading_bind_eq_ok.mp hplace
  obtain ⟨size, hsize, hrest⟩ := reading_bind_eq_ok.mp hrest
  cases hsize
  rw [if_pos (by omega)] at hrest
  cases hrest

theorem indexedPlace_eq_ok : m.indexedPlace v index = .ok (some j) ↔
    ∃ i n, index = .ofNat i ∧ m.indexedSize v = .ok n ∧ 1 ≤ i ∧ i ≤ n ∧
      match v with
      | .object _ => ∃ k, m.skippedFields v = .ok k ∧ j = k + (i - 1)
      | _ => j = i - 1 := by
  unfold indexedPlace
  simp only [reading_bind_eq_ok, liftValueFault_eq_ok, Value.index_eq_ok]
  constructor
  · rintro ⟨i, rfl, n, hn, hrest⟩
    split at hrest
    · cases hrest
    · next hin =>
      refine ⟨i, n, rfl, hn, by omega, by omega, ?_⟩
      cases v with
      | object a =>
          obtain ⟨k, hk, hj⟩ := reading_bind_eq_ok.mp hrest
          cases hj
          exact ⟨k, hk, rfl⟩
      | int z => exact (Option.some.inj (Except.ok.inj hrest)).symm
      | bytes a => exact (Option.some.inj (Except.ok.inj hrest)).symm
      | words a => exact (Option.some.inj (Except.ok.inj hrest)).symm
  · rintro ⟨i, n, rfl, hn, hlow, hhigh, hj⟩
    refine ⟨i, rfl, n, hn, ?_⟩
    rw [if_neg (by omega)]
    cases v with
    | object a =>
        obtain ⟨k, hk, rfl⟩ := hj
        exact reading_bind_eq_ok.mpr ⟨k, hk, rfl⟩
    | int z => exact congrArg (fun j => Except.ok (some j)) hj.symm
    | bytes a => exact congrArg (fun j => Except.ok (some j)) hj.symm
    | words a => exact congrArg (fun j => Except.ok (some j)) hj.symm

/-- Different indices reach different elements. -/
theorem indexedPlace_inj {index' : Value} (hi : m.indexedPlace v index = .ok (some i))
    (hj : m.indexedPlace v index' = .ok (some i)) : index = index' := by
  obtain ⟨k, n, rfl, -, hk, -, hplace⟩ := indexedPlace_eq_ok.mp hi
  obtain ⟨k', n', rfl, -, hk', -, hplace'⟩ := indexedPlace_eq_ok.mp hj
  have heq : k = k' := by
    cases v with
    | object a =>
        obtain ⟨f, hf, hplace⟩ := hplace
        obtain ⟨f', hf', hplace'⟩ := hplace'
        cases hf.symm.trans hf'
        omega
    | int z =>
        dsimp only at hplace hplace'
        omega
    | bytes a =>
        dsimp only at hplace hplace'
        omega
    | words a =>
        dsimp only at hplace hplace'
        omega
  rw [heq]

/-! ## What is accessible declines at worst -/

namespace Accessible

theorem exists_object (hv : m.Accessible v) (hint : ∀ n, v ≠ .int n) :
    ∃ o, m.heap.object v = .ok o := by
  obtain ⟨n, rfl⟩ | ⟨t, ht, -⟩ := hv
  · exact absurd rfl (hint n)
  · obtain ⟨o, ho, -⟩ := reading_bind_eq_ok.mp ht
    exact ⟨o, ho⟩

theorem mild_skippedFields (hv : m.Accessible v) (hint : ∀ n, v ≠ .int n) :
    Mild (m.skippedFields v) := by
  obtain ⟨n, rfl⟩ | ⟨t, ht, htype⟩ := hv
  · exact absurd rfl (hint n)
  · unfold skippedFields fixedFieldsOf
    rw [ht]
    have hobject : ∃ o, m.heap.object t = .ok o := by
      cases t with
      | object a =>
          obtain ⟨u, hu, -⟩ := reading_bind_eq_ok.mp htype
          obtain ⟨o, ho, -⟩ := reading_bind_eq_ok.mp (liftFault_eq_ok.mp hu)
          exact ⟨o, ho⟩
      | int n => cases htype
      | bytes a => cases htype
      | words a => cases htype
    obtain ⟨o, ho⟩ := hobject
    refine (mild_heap (Heap.mild_fetchField ho _)).bind fun y _ => ?_
    exact mild_value _

theorem mild_indexedSize (hv : m.Accessible v) : Mild (m.indexedSize v) := by
  unfold indexedSize
  cases v with
  | int n => exact mild_pure _
  | object a =>
      obtain ⟨o, ho⟩ := hv.exists_object nofun
      refine (mild_heap ((Heap.mild_fields ho).bind fun _ => Heap.mild_pure _)).bind fun _ _ => ?_
      exact (hv.mild_skippedFields nofun).bind fun _ _ => mild_pure _
  | bytes a =>
      obtain ⟨o, ho⟩ := hv.exists_object nofun
      exact mild_heap ((Heap.mild_bytes ho).bind fun _ => Heap.mild_pure _)
  | words a =>
      obtain ⟨o, ho⟩ := hv.exists_object nofun
      exact mild_heap ((Heap.mild_words ho).bind fun _ => Heap.mild_pure _)

theorem mild_indexedPlace (hv : m.Accessible v) : Mild (m.indexedPlace v index) := by
  unfold indexedPlace
  refine (mild_value _).bind fun i _ => hv.mild_indexedSize.bind fun n _ => ?_
  split
  · exact mild_pure _
  · cases v with
    | object a => exact (hv.mild_skippedFields nofun).bind fun _ _ => mild_pure _
    | int z => exact mild_pure _
    | bytes a => exact mild_pure _
    | words a => exact mild_pure _

theorem mild_elementAt (hv : m.Accessible v) : Mild (m.elementAt v i) := by
  unfold elementAt
  cases v with
  | int n =>
      intro fault hfault
      cases hfault
      rfl
  | object a =>
      obtain ⟨o, ho⟩ := hv.exists_object nofun
      exact mild_heap (Heap.mild_fetchField ho i)
  | bytes a =>
      obtain ⟨o, ho⟩ := hv.exists_object nofun
      exact (mild_heap ((Heap.mild_bytes ho).bind fun xs => Heap.mild_element xs i)).bind
        fun _ _ => mild_pure _
  | words a =>
      obtain ⟨o, ho⟩ := hv.exists_object nofun
      exact (mild_heap ((Heap.mild_words ho).bind fun xs => Heap.mild_element xs i)).bind
        fun _ _ => mild_value _

end Accessible

/-! ## The primitives on operands -/

/-- An action that begins with a reading that is refused declines. -/
theorem attempt_read_refused {f : Machine → Except Fault α} {g : α → MachineM Bool} {fault : Fault}
    (hf : f m = .error fault) (hmild : Mild (f m)) : attempt (read f >>= g) m = .ok false m := by
  have hread : read f m = .error fault m := by
    unfold read
    rw [hf]
  refine attempt_eq_false.mpr ⟨m, ?_, rfl⟩
  unfold Declines
  rw [bind_eq_of_error hread]
  exact ⟨hmild fault hf, rfl⟩

/-- An action that begins with a reading goes on with what was read. -/
theorem attempt_read {f : Machine → Except Fault α} {g : α → MachineM Bool} {a : α}
    (hf : f m = .ok a) : attempt (read f >>= g) m = attempt (g a) m := by
  unfold attempt
  rw [bind_eq_of_ok (read_eq_ok.mpr ⟨hf, rfl⟩)]

theorem readHeap_eq_read (f : Heap → Except HeapFault α) :
    readHeap f = read fun m => liftM (f m.heap) := by
  funext m
  unfold readHeap read
  dsimp only
  cases f m.heap <;> rfl

theorem lift_eq_read (x : Except ValueFault α) :
    (liftM x : MachineM α) = read fun _ => liftM x := by
  funext m
  cases x <;> rfl

theorem peek_eq_some : m.peek v index = some x ↔
    ∃ i, m.indexedPlace v index = .ok (some i) ∧ m.elementAt v i = .ok x := by
  unfold peek
  constructor
  · intro hpeek
    split at hpeek
    · next i hplace =>
      refine ⟨i, hplace, ?_⟩
      cases helement : m.elementAt v i with
      | error fault =>
          rw [helement] at hpeek
          cases hpeek
      | ok y =>
          rw [helement] at hpeek
          exact congrArg Except.ok (Option.some.inj hpeek)
    · cases hpeek
  · rintro ⟨i, hplace, helement⟩
    rw [hplace]
    dsimp only
    rw [helement]
    rfl

section Frame

variable (hbase : 0 < m.regs.stackBase) (hlimit : m.regs.sp < m.regs.stackLimit)

include hbase hlimit

/-- An action that comes to an answer answers. -/
theorem attempt_answer {action : MachineM Bool} {argc : Nat}
    (haction : attempt action m = attempt (answer argc x) m)
    (hreceiver : m.stackValue argc = .ok v) :
    ∃ m', attempt action m = .ok true m' ∧ Answered m argc x m' := by
  obtain ⟨m', hanswer, hanswered⟩ := exists_answered hbase hlimit hreceiver x
  refine ⟨m', ?_, hanswered⟩
  rw [haction]
  unfold attempt
  rw [hanswer]

/-- `basicAt` answers the element that is there. -/
theorem attempt_basicAt_some (hreceiver : m.stackValue 1 = .ok v)
    (hindex : m.stackValue 0 = .ok index) (hx : m.peek v index = some x) :
    ∃ m', attempt basicAt m = .ok true m' ∧ Answered m 1 x m' := by
  obtain ⟨i, hplace, helement⟩ := peek_eq_some.mp hx
  refine attempt_answer hbase hlimit ?_ hreceiver
  unfold basicAt
  rw [attempt_read hreceiver, attempt_read hindex, attempt_read hplace]
  cases v with
  | int n => exact absurd hplace (indexedPlace_int n)
  | object a =>
      show attempt (readHeap (·.fetchField (.object a) i) >>= answer 1) m = _
      rw [readHeap_eq_read]
      exact attempt_read helement
  | bytes a =>
      obtain ⟨b, hb, hx⟩ := reading_bind_eq_ok.mp helement
      cases hx
      show attempt (readHeap (·.fetchByte (.bytes a) i) >>= fun b => answer 1 (.ofNat b.toNat)) m = _
      rw [readHeap_eq_read]
      exact attempt_read hb
  | words a =>
      obtain ⟨w, hw, hx⟩ := reading_bind_eq_ok.mp helement
      show attempt (readHeap (·.fetchWord (.words a) i) >>= fun w =>
        (liftM (Value.ofInt w.toNat) : MachineM Value) >>= answer 1) m = _
      rw [readHeap_eq_read, attempt_read hw, lift_eq_read]
      exact attempt_read hx

omit hbase hlimit

/-- `basicAt` declines where there is no element. -/
theorem attempt_basicAt_none (hv : m.Accessible v) (hreceiver : m.stackValue 1 = .ok v)
    (hindex : m.stackValue 0 = .ok index) (hnone : m.peek v index = none) :
    attempt basicAt m = .ok false m := by
  unfold basicAt
  rw [attempt_read hreceiver, attempt_read hindex]
  cases hplace : m.indexedPlace v index with
  | error fault => exact attempt_read_refused hplace hv.mild_indexedPlace
  | ok place =>
  rw [attempt_read hplace]
  cases place with
  | none => rfl
  | some i =>
  have hmissing : ∀ y, m.elementAt v i ≠ .ok y := by
    intro y hy
    cases hnone.symm.trans (peek_eq_some.mpr ⟨i, hplace, hy⟩)
  have hmild := hv.mild_elementAt (i := i)
  cases v with
  | int n => rfl
  | object a =>
      show attempt (readHeap (·.fetchField (.object a) i) >>= answer 1) m = _
      rw [readHeap_eq_read]
      cases helement : m.elementAt (.object a) i with
      | ok y => exact absurd helement (hmissing y)
      | error fault => exact attempt_read_refused helement hmild
  | bytes a =>
      show attempt (readHeap (·.fetchByte (.bytes a) i) >>= fun b => answer 1 (.ofNat b.toNat)) m = _
      rw [readHeap_eq_read]
      cases hb : (liftM (m.heap.fetchByte (.bytes a) i) : Except Fault UInt8) with
      | ok b =>
          have helement : m.elementAt (.bytes a) i = .ok (.ofNat b.toNat) :=
            reading_bind_eq_ok.mpr ⟨b, hb, rfl⟩
          exact absurd helement (hmissing _)
      | error fault =>
          refine attempt_read_refused hb ?_
          obtain ⟨o, ho⟩ := hv.exists_object nofun
          exact mild_heap ((Heap.mild_bytes ho).bind fun xs => Heap.mild_element xs i)
  | words a =>
      show attempt (readHeap (·.fetchWord (.words a) i) >>= fun w =>
        (liftM (Value.ofInt w.toNat) : MachineM Value) >>= answer 1) m = _
      rw [readHeap_eq_read]
      cases hw : (liftM (m.heap.fetchWord (.words a) i) : Except Fault UInt64) with
      | error fault =>
          refine attempt_read_refused hw ?_
          obtain ⟨o, ho⟩ := hv.exists_object nofun
          exact mild_heap ((Heap.mild_words ho).bind fun xs => Heap.mild_element xs i)
      | ok w =>
          cases hx : (liftM (Value.ofInt w.toNat) : Except Fault Value) with
          | ok y => exact absurd (reading_bind_eq_ok.mpr ⟨w, hw, hx⟩) (hmissing y)
          | error fault =>
              rw [attempt_read hw, lift_eq_read]
              exact attempt_read_refused hx (mild_value _)

/-- `basicSize` answers the number of indexed elements, and declines where that is not known. -/
theorem attempt_basicSize_none (hv : m.Accessible v) (hreceiver : m.stackValue 0 = .ok v)
    {fault : Fault} (hsize : m.indexedSize v = .error fault) :
    attempt basicSize m = .ok false m := by
  unfold basicSize
  rw [attempt_read hreceiver]
  exact attempt_read_refused hsize hv.mild_indexedSize

include hbase hlimit

theorem attempt_basicSize_some (hreceiver : m.stackValue 0 = .ok v)
    (hsize : m.indexedSize v = .ok n) :
    ∃ m', attempt basicSize m = .ok true m' ∧ Answered m 0 (.ofNat n) m' := by
  refine attempt_answer hbase hlimit ?_ hreceiver
  unfold basicSize
  rw [attempt_read hreceiver, attempt_read hsize]

end Frame

/-! ## Storing an element -/

/-- The heap is that of the machine but for the element at a place, which is `x`. -/
structure Written (m : Machine) (v : Value) (i : Nat) (x : Value) (h : Heap) : Prop where
  agrees : m.heap.Agrees (Object.ElementOf v i) h
  element : (m.withHeap h).elementAt v i = .ok x

theorem attempt_onHeap {action : HeapM α} {g : α → MachineM Bool} {a : α} {h : Heap}
    (haction : action m.heap = .ok a h) :
    attempt (onHeap action >>= g) m = attempt (g a) (m.withHeap h) := by
  unfold attempt
  rw [bind_eq_of_ok (onHeap_eq_ok.mpr ⟨h, haction, rfl⟩)]
  rfl

/-- An element that an index reaches is there. -/
theorem exists_element (hplace : m.indexedPlace v index = .ok (some i)) :
    match v with
    | .int _ => False
    | .object _ => ∃ x, m.heap.fetchField v i = .ok x
    | .bytes _ => ∃ b, m.heap.fetchByte v i = .ok b
    | .words _ => ∃ w, m.heap.fetchWord v i = .ok w := by
  have hint := hplace
  obtain ⟨k, n, rfl, hsize, hlow, hhigh, hi⟩ := indexedPlace_eq_ok.mp hplace
  cases v with
  | int z => exact indexedPlace_int z hint
  | object a =>
      obtain ⟨fixed, hfixed, rfl⟩ := hi
      obtain ⟨count, hcount, hrest⟩ := reading_bind_eq_ok.mp hsize
      obtain ⟨fixed', hfixed', hn⟩ := reading_bind_eq_ok.mp hrest
      cases hfixed.symm.trans hfixed'
      cases hn
      obtain ⟨xs, hxs, rfl⟩ := Heap.fieldCount_eq_ok.mp (liftFault_eq_ok.mp hcount)
      have hbound : fixed + (k - 1) < xs.size := by omega
      exact ⟨xs[fixed + (k - 1)],
        Heap.fetchField_eq_ok.mpr ⟨xs, hxs, Array.getElem?_eq_getElem hbound⟩⟩
  | bytes a =>
      dsimp only at hi
      obtain ⟨xs, hxs, hn⟩ := reading_bind_eq_ok.mp (liftFault_eq_ok.mp hsize)
      cases hn
      have hbound : i < xs.size := by omega
      exact ⟨xs[i], reading_bind_eq_ok.mpr
        ⟨xs, hxs, Heap.element_eq_ok.mpr (Array.getElem?_eq_getElem hbound)⟩⟩
  | words a =>
      dsimp only at hi
      obtain ⟨xs, hxs, hn⟩ := reading_bind_eq_ok.mp (liftFault_eq_ok.mp hsize)
      cases hn
      have hbound : i < xs.size := by omega
      exact ⟨xs[i], reading_bind_eq_ok.mpr
        ⟨xs, hxs, Heap.element_eq_ok.mpr (Array.getElem?_eq_getElem hbound)⟩⟩

/-- A value that fits is stored, and then answered. -/
theorem attempt_basicAtPut_stores (hreceiver : m.stackValue 2 = .ok v)
    (hindex : m.stackValue 1 = .ok index) (hvalue : m.stackValue 0 = .ok x)
    (hplace : m.indexedPlace v index = .ok (some i)) (hfits : Fits v x) (hx : x.InRange) :
    ∃ h, Written m v i x h ∧
      attempt (basicAtPut id) m = attempt (answer 2 x) (m.withHeap h) := by
  have hthere := exists_element hplace
  unfold basicAtPut
  rw [attempt_read hreceiver, attempt_read hindex, attempt_read hvalue, attempt_read hplace]
  cases v with
  | int n => exact absurd hplace (indexedPlace_int n)
  | object a =>
      obtain ⟨old, hold⟩ := hthere
      obtain ⟨h, hstore⟩ := Heap.storeField_of_fetchField hold x
      refine ⟨h, ⟨Heap.agrees_storeField hstore, ?_⟩, attempt_onHeap hstore⟩
      exact liftFault_eq_ok.mpr (Heap.fetchField_storeField hstore)
  | bytes a =>
      obtain ⟨old, hold⟩ := hthere
      obtain ⟨b, hb, rfl⟩ := hfits
      obtain ⟨h, hstore, hfetch⟩ := Heap.exists_storeByte hold (.ofNat b)
      refine ⟨h, ⟨Heap.agrees_storeByte hstore, ?_⟩, ?_⟩
      · refine reading_bind_eq_ok.mpr ⟨.ofNat b, liftFault_eq_ok.mpr hfetch, ?_⟩
        have hnat : (UInt8.ofNat b).toNat = b := by
          rw [UInt8.toNat_ofNat']
          omega
        rw [hnat]
        rfl
      · show attempt (if (b : Int) < 0 ∨ (b : Int) > 255 then pure false else do
          onHeap (Heap.storeByte (.bytes a) i (.ofNat (b : Int).toNat))
          answer 2 (.ofNat b)) m = _
        rw [if_neg (by omega)]
        exact attempt_onHeap hstore
  | words a =>
      obtain ⟨old, hold⟩ := hthere
      obtain ⟨n, rfl⟩ := hfits
      obtain ⟨h, hstore, hfetch⟩ := Heap.exists_storeWord hold (.ofNat n)
      have hindexed : (Value.ofNat n).index = .ok n := Value.index_eq_ok.mpr rfl
      refine ⟨h, ⟨Heap.agrees_storeWord hstore, ?_⟩, ?_⟩
      · refine reading_bind_eq_ok.mpr ⟨.ofNat n, liftFault_eq_ok.mpr hfetch, ?_⟩
        have hbound := Value.inRange_int.mp hx
        have hnat : (UInt64.ofNat n).toNat = n := by
          rw [UInt64.toNat_ofNat']
          omega
        rw [hnat, IsSmall.ofInt_eq_ok hbound]
        rfl
      · show attempt ((liftM (Value.ofNat n).index : MachineM Nat) >>= fun n => do
          onHeap (Heap.storeWord (.words a) i (.ofNat n))
          answer 2 (.ofNat _)) m = _
        rw [hindexed]
        exact attempt_onHeap hstore

/-- Nothing is stored outside the bounds, and nothing that does not fit. -/
theorem attempt_basicAtPut_declines (hv : m.Accessible v) (hreceiver : m.stackValue 2 = .ok v)
    (hindex : m.stackValue 1 = .ok index) (hvalue : m.stackValue 0 = .ok x)
    (hnot : ∀ i, m.indexedPlace v index = .ok (some i) → ¬Fits v x) :
    attempt (basicAtPut id) m = .ok false m := by
  unfold basicAtPut
  rw [attempt_read hreceiver, attempt_read hindex, attempt_read hvalue]
  cases hplace : m.indexedPlace v index with
  | error fault => exact attempt_read_refused hplace hv.mild_indexedPlace
  | ok place =>
  rw [attempt_read hplace]
  cases place with
  | none => rfl
  | some i =>
  have hnot := hnot i hplace
  cases v with
  | int n => rfl
  | object a => exact absurd trivial hnot
  | bytes a =>
      cases x with
      | int n =>
          have hout : n < 0 ∨ n > 255 := by
            by_contra hin
            exact hnot ⟨n.toNat, by omega, congrArg Value.int (by omega)⟩
          show attempt (if n < 0 ∨ n > 255 then pure false else do
            onHeap (Heap.storeByte (.bytes a) i (.ofNat n.toNat))
            answer 2 (.int n)) m = _
          rw [if_pos hout]
          rfl
      | object b => rfl
      | bytes b => rfl
      | words b => rfl
  | words a =>
      cases hn : x.index with
      | ok n => exact absurd ⟨n, Value.index_eq_ok.mp hn⟩ hnot
      | error fault => rfl

/-! ## Elements of agreeing heaps -/

section Congr

variable {but : Value → Nat → Prop} (hagrees : m.heap.Agrees but m'.heap)

include hagrees

theorem accessible_congr (hknown : m'.known = m.known) : m'.Accessible v ↔ m.Accessible v := by
  have htype : ∀ t, m'.isType t = m.isType t := by
    intro t
    unfold isType
    simp only [hagrees.typeOf_eq, hknown]
  unfold Accessible
  simp only [hagrees.typeOf_eq, htype]

variable (htype : ∀ t, m.heap.typeOf v = .ok t → ¬but t Slot.fixedFields)

include htype

theorem skippedFields_congr : m'.skippedFields v = m.skippedFields v := by
  unfold skippedFields fixedFieldsOf
  rw [hagrees.typeOf_eq]
  cases ht : m.heap.typeOf v with
  | error fault => rfl
  | ok t =>
      show (do return (← (← m'.heap.fetchField t Slot.fixedFields).index) : Except Fault Nat) =
        (do return (← (← m.heap.fetchField t Slot.fixedFields).index) : Except Fault Nat)
      rw [hagrees.fetchField_eq (htype t ht)]

theorem indexedSize_congr : m'.indexedSize v = m.indexedSize v := by
  unfold indexedSize
  rw [hagrees.fieldCount_eq, hagrees.byteSize_eq, hagrees.wordCount_eq,
    skippedFields_congr hagrees htype]

theorem indexedPlace_congr : m'.indexedPlace v index = m.indexedPlace v index := by
  unfold indexedPlace
  rw [indexedSize_congr hagrees htype, skippedFields_congr hagrees htype]

omit htype

theorem elementAt_congr (hplace : ¬but v i) : m'.elementAt v i = m.elementAt v i := by
  unfold elementAt
  rw [hagrees.fetchField_eq hplace, hagrees.fetchByte_eq hplace, hagrees.fetchWord_eq hplace]

include htype

/-- An element depends on its place and on the number of fixed fields that the type declares. -/
theorem peek_congr (hplace : ∀ i, m.indexedPlace v index = .ok (some i) → ¬but v i) :
    m'.peek v index = m.peek v index := by
  unfold peek
  rw [indexedPlace_congr hagrees htype]
  split
  · next i hi => rw [elementAt_congr hagrees (hplace i hi)]
  · rfl

end Congr

/-! ## Asking -/

/-- The primitive answers `x`. -/
def Replies (m : Machine) (p : Primitive) (operands : List Value) (x : Value) : Prop :=
  ∃ m', ask p operands m = .ok true m' ∧ m'.stackValue 0 = .ok x

/-- The primitive declines, and nothing has changed since its operands were pushed. -/
def Refuses (m : Machine) (p : Primitive) (operands : List Value) : Prop :=
  ∃ m₁, operands.forM push m = .ok () m₁ ∧ ask p operands m = .ok false m₁

/-- The element at an index is not above the top of the operand stack. -/
def OffStack (m : Machine) (v index : Value) : Prop :=
  v = m.regs.activeContext → ∀ i, m.indexedPlace v index = .ok (some i) → i ≤ m.regs.sp

theorem ask_run {p : Primitive} {operands : List Value}
    (hpush : operands.forM push m = .ok () m₁) :
    ask p operands m = attempt (p.run id (send id · (p.arity - 1))) m₁ := by
  unfold ask tryPrimitive
  rw [bind_eq_of_ok hpush, Primitive.ofNumber?_number]
  dsimp only
  rw [if_pos rfl]

theorem Roomy.above_tail (hroom : m.Roomy n) : Slot.fixedFields ≤ m.regs.sp := by
  have hbase := hroom.base
  have hheight := hroom.height
  have htail : Slot.fixedFields + 1 ≤ Slot.contextTail := by decide
  omega

section Asking

variable (hroom : m.Roomy n)

include hroom

/-- Pushing operands does not touch what types declare. -/
theorem Roomy.declares (t : Value) : ¬m.Above t Slot.fixedFields :=
  fun habove => Nat.not_lt.mpr hroom.above_tail habove.2

theorem Roomy.exists_ask (operands : List Value) (hlength : operands.length = n) : ∃ m₁,
    operands.forM push m = .ok () m₁ ∧ Pushed m operands m₁ ∧ 0 < m₁.regs.stackBase ∧
      m₁.regs.sp < m₁.regs.stackLimit := by
  subst hlength
  obtain ⟨m₁, hpush, hpushed⟩ := exists_pushed hroom
  have hbase := hroom.base
  have hlimit := hroom.limit
  have htail : 0 < Slot.contextTail := by decide
  refine ⟨m₁, hpush, hpushed, ?_, ?_⟩
  · obtain ⟨h, rfl⟩ := hpushed.rest
    exact Nat.lt_of_lt_of_le htail hbase
  · obtain ⟨h, rfl⟩ := hpushed.rest
    exact hlimit

end Asking

/-- What a primitive makes of its operands decides whether it replies or refuses. -/
theorem replies_iff {p : Primitive} {operands : List Value} (found : Option Value)
    (hpush : operands.forM push m = .ok () m₁)
    (hsome : ∀ y, found = some y → ∃ m', attempt (p.run id (send id · (p.arity - 1))) m₁ =
      .ok true m' ∧ m'.stackValue 0 = .ok y)
    (hnone : found = none → attempt (p.run id (send id · (p.arity - 1))) m₁ = .ok false m₁) :
    (∀ x, Replies m p operands x ↔ found = some x) ∧ (Refuses m p operands ↔ found = none) := by
  unfold Replies Refuses
  rw [ask_run hpush]
  cases found with
  | none =>
      have hrun := hnone rfl
      refine ⟨fun x => ⟨?_, nofun⟩, ⟨fun _ => rfl, fun _ => ⟨m₁, hpush, hrun⟩⟩⟩
      rintro ⟨m', hreply, -⟩
      cases hrun.symm.trans hreply
  | some y =>
      obtain ⟨m', hrun, htop⟩ := hsome y rfl
      refine ⟨fun x => ⟨?_, ?_⟩, ⟨?_, nofun⟩⟩
      · rintro ⟨t, hreply, hx⟩
        cases hrun.symm.trans hreply
        cases htop.symm.trans hx
        rfl
      · intro hx
        cases hx
        exact ⟨m', hrun, htop⟩
      · rintro ⟨t, -, hrefuse⟩
        cases hrun.symm.trans hrefuse

/-- `basicAt` says what is at an index. -/
theorem basicAt_replies (hroom : m.Roomy 2) (hv : m.Accessible v) (hoff : m.OffStack v index) :
    (∀ x, Replies m .basicAt [v, index] x ↔ m.peek v index = some x) ∧
      (Refuses m .basicAt [v, index] ↔ m.peek v index = none) := by
  obtain ⟨m₁, hpush, hpushed, hbase, hlimit⟩ := hroom.exists_ask [v, index] rfl
  have hpeek : m₁.peek v index = m.peek v index :=
    peek_congr hpushed.agrees (fun t _ => hroom.declares t) fun i hi habove =>
      Nat.not_lt.mpr (hoff habove.1 i hi) habove.2
  have hreceiver : m₁.stackValue 1 = .ok v := hpushed.stackValue hroom (by simp) rfl
  have hindex : m₁.stackValue 0 = .ok index := hpushed.stackValue hroom (by simp) rfl
  refine replies_iff _ hpush (fun y hy => ?_) fun hnone => ?_
  · obtain ⟨m', hrun, hanswered⟩ :=
      attempt_basicAt_some hbase hlimit hreceiver hindex (hpeek.trans hy)
    exact ⟨m', hrun, hanswered.top⟩
  · have hv₁ := (accessible_congr hpushed.agrees hpushed.known_eq).mpr hv
    exact attempt_basicAt_none hv₁ hreceiver hindex (hpeek.trans hnone)

/-- `basicSize` says how many elements there are. -/
theorem basicSize_replies (hroom : m.Roomy 1) (hv : m.Accessible v) :
    (∀ x, Replies m .basicSize [v] x ↔ ∃ n, m.indexedSize v = .ok n ∧ x = .ofNat n) := by
  obtain ⟨m₁, hpush, hpushed, hbase, hlimit⟩ := hroom.exists_ask [v] rfl
  have hsize : m₁.indexedSize v = m.indexedSize v :=
    indexedSize_congr hpushed.agrees fun t _ => hroom.declares t
  have hreceiver : m₁.stackValue 0 = .ok v := hpushed.stackValue hroom (by simp) rfl
  intro x
  cases hn : m.indexedSize v with
  | error fault =>
      have hv₁ := (accessible_congr hpushed.agrees hpushed.known_eq).mpr hv
      have hdeclines := attempt_basicSize_none hv₁ hreceiver (hsize.trans hn)
      have hiff := replies_iff (p := .basicSize) none hpush nofun fun _ => hdeclines
      rw [hiff.1 x]
      simp
  | ok n =>
      obtain ⟨m', hrun, hanswered⟩ :=
        attempt_basicSize_some hbase hlimit hreceiver (hsize.trans hn)
      have hiff := replies_iff (p := .basicSize) (some (.ofNat n)) hpush
        (fun y hy => ⟨m', hrun, Option.some.inj hy ▸ hanswered.top⟩) nofun
      rw [hiff.1 x]
      simp [eq_comm]

/-! ## The laws -/

/-- The index is one of `1` to the number that `basicSize` answers. -/
def InBounds (m : Machine) (v index : Value) : Prop :=
  ∃ i n : Nat, index = .ofNat i ∧ Replies m .basicSize [v] (.ofNat n) ∧ 1 ≤ i ∧ i ≤ n

/-- What is stored at the index of `v` is the number of fixed fields that the type of `w`
declares. -/
def Redeclares (m : Machine) (v index w : Value) : Prop :=
  m.heap.typeOf w = .ok v ∧ m.indexedPlace v index = .ok (some Slot.fixedFields)

/-- What `basicAtPut` has done when it has stored `x`. -/
structure ElementStored (m : Machine) (v index x : Value) (m' : Machine) : Prop where
  answer : m'.stackValue 0 = .ok x
  element : ¬Redeclares m v index v → Replies m' .basicAt [v, index] x
  others : ∀ w j, m.Accessible w → m.OffStack w j → ¬(w = v ∧ j = index) →
    ¬Redeclares m v index w →
    (∀ y, Replies m' .basicAt [w, j] y ↔ Replies m .basicAt [w, j] y) ∧
      (Refuses m' .basicAt [w, j] ↔ Refuses m .basicAt [w, j])
  size : ∀ w, m.Accessible w → ¬Redeclares m v index w →
    ∀ y, Replies m' .basicSize [w] y ↔ Replies m .basicSize [w] y
  fixed : ∀ k j, m.skippedFields v = .ok k → j < k →
    m'.heap.fetchField v j = m.heap.fetchField v j

theorem inBounds_iff (hroom : m.Roomy 1) (hv : m.Accessible v) :
    InBounds m v index ↔ ∃ i, m.indexedPlace v index = .ok (some i) := by
  have hsize := basicSize_replies hroom hv
  constructor
  · rintro ⟨i, n, rfl, hreplies, hlow, hhigh⟩
    obtain ⟨n', hn, heq⟩ := (hsize _).mp hreplies
    obtain rfl : n = n' := Int.ofNat.inj (Value.int.inj heq)
    cases v with
    | object a =>
        obtain ⟨count, -, hrest⟩ := reading_bind_eq_ok.mp hn
        obtain ⟨k, hk, -⟩ := reading_bind_eq_ok.mp hrest
        exact ⟨_, indexedPlace_eq_ok.mpr ⟨i, n, rfl, hn, hlow, hhigh, k, hk, rfl⟩⟩
    | int z => exact ⟨_, indexedPlace_eq_ok.mpr ⟨i, n, rfl, hn, hlow, hhigh, rfl⟩⟩
    | bytes a => exact ⟨_, indexedPlace_eq_ok.mpr ⟨i, n, rfl, hn, hlow, hhigh, rfl⟩⟩
    | words a => exact ⟨_, indexedPlace_eq_ok.mpr ⟨i, n, rfl, hn, hlow, hhigh, rfl⟩⟩
  · rintro ⟨j, hj⟩
    obtain ⟨i, n, rfl, hn, hlow, hhigh, -⟩ := indexedPlace_eq_ok.mp hj
    exact ⟨i, n, rfl, (hsize _).mpr ⟨n, hn, rfl⟩, hlow, hhigh⟩

/-- There is no element outside the bounds; inside them there is one, but for words that no small
integer can stand for. -/
theorem peek_eq_none_iff (hroom : m.Roomy 1) (hv : m.Accessible v) : m.peek v index = none ↔
    ¬InBounds m v index ∨ ∃ (i : Nat) (xs : Array UInt64) (w : UInt64), index = .ofNat (i + 1) ∧
      m.heap.words v = .ok xs ∧ xs[i]? = some w ∧ 2 ^ 62 ≤ w.toNat := by
  rw [inBounds_iff hroom hv]
  constructor
  · intro hnone
    refine or_iff_not_imp_left.mpr fun hin => ?_
    obtain ⟨i, hi⟩ := not_not.mp hin
    have hmissing : ∀ y, m.elementAt v i ≠ .ok y := by
      intro y hy
      cases hnone.symm.trans (peek_eq_some.mpr ⟨i, hi, hy⟩)
    have hthere := exists_element hi
    obtain ⟨k, n, rfl, -, hlow, -, hplace⟩ := indexedPlace_eq_ok.mp hi
    cases v with
    | int z => exact hthere.elim
    | object a =>
        obtain ⟨y, hy⟩ := hthere
        exact absurd (liftFault_eq_ok.mpr hy) (hmissing y)
    | bytes a =>
        obtain ⟨b, hb⟩ := hthere
        have helement : m.elementAt (.bytes a) i = .ok (.ofNat b.toNat) :=
          reading_bind_eq_ok.mpr ⟨b, liftFault_eq_ok.mpr hb, rfl⟩
        exact absurd helement (hmissing _)
    | words a =>
        obtain ⟨w, hw⟩ := hthere
        obtain ⟨xs, hxs, helement⟩ := reading_bind_eq_ok.mp hw
        obtain rfl : i = k - 1 := hplace
        refine ⟨k - 1, xs, w, congrArg Value.ofNat (by omega), hxs,
          Heap.element_eq_ok.mp helement, ?_⟩
        by_contra hsmall
        have hofInt : Value.ofInt w.toNat = .ok (.int w.toNat) :=
          IsSmall.ofInt_eq_ok ⟨by omega, by omega⟩
        refine hmissing (.int w.toNat) (reading_bind_eq_ok.mpr ⟨w, liftFault_eq_ok.mpr hw, ?_⟩)
        rw [hofInt]
        rfl
  · intro hor
    cases hpeek : m.peek v index with
    | none => rfl
    | some y =>
        obtain ⟨i, hi, hy⟩ := peek_eq_some.mp hpeek
        rcases hor with hout | ⟨k, xs, w, rfl, hxs, hw, hlarge⟩
        · exact absurd ⟨i, hi⟩ hout
        · obtain ⟨a, -, rfl, -, -⟩ := Heap.words_eq_ok.mp hxs
          obtain ⟨k', n, hk, -, -, -, hplace⟩ := indexedPlace_eq_ok.mp hi
          have hkk : k + 1 = k' := Int.ofNat.inj (Value.int.inj hk)
          obtain rfl : i = k' - 1 := hplace
          obtain ⟨w', hw', hofInt⟩ := reading_bind_eq_ok.mp hy
          obtain ⟨xs', hxs', helement⟩ := reading_bind_eq_ok.mp (liftFault_eq_ok.mp hw')
          cases hxs.symm.trans hxs'
          have hplace : k' - 1 = k := by omega
          rw [hplace] at helement
          cases hw.symm.trans (Heap.element_eq_ok.mp helement)
          rw [ofInt_eq_error (fun hsmall => by unfold IsSmall at hsmall; omega)] at hofInt
          cases hofInt

/-- The machine has `x` on its stack and at a place in `v`; the heap is as before but for that and
for what is above the top of the stack. -/
structure Committed (m : Machine) (v : Value) (i : Nat) (x : Value) (m' : Machine) : Prop where
  answer : m'.stackValue 0 = .ok x
  agrees : m.heap.Agrees (fun w j => m.Above w j ∨ Object.ElementOf v i w j) m'.heap
  element : m'.elementAt v i = .ok x
  known : m'.known = m.known
  regs : m'.regs = { m.regs with sp := m.regs.sp + 1 }

theorem exists_commit (hroom : m.Roomy 3) (hother : v ≠ m.regs.activeContext) (hx : x.InRange)
    (hplace : m.indexedPlace v index = .ok (some i)) (hfits : Fits v x) :
    ∃ m', ask .basicAtPut [v, index, x] m = .ok true m' ∧ Committed m v i x m' := by
  obtain ⟨m₁, hpush, hpushed, hbase, hlimit⟩ := hroom.exists_ask [v, index, x] rfl
  have hreceiver : m₁.stackValue 2 = .ok v := hpushed.stackValue hroom (by simp) rfl
  have hindex : m₁.stackValue 1 = .ok index := hpushed.stackValue hroom (by simp) rfl
  have hvalue : m₁.stackValue 0 = .ok x := hpushed.stackValue hroom (by simp) rfl
  have hplace₁ : m₁.indexedPlace v index = .ok (some i) :=
    (indexedPlace_congr hpushed.agrees fun t _ => hroom.declares t).trans hplace
  obtain ⟨h, hwritten, hstore⟩ :=
    attempt_basicAtPut_stores hreceiver hindex hvalue hplace₁ hfits hx
  -- the element stored is not one of the operands
  have hreceiver' : (m₁.withHeap h).stackValue 2 = .ok v := by
    obtain ⟨hdepth, hfetch⟩ := stackValue_eq_ok hreceiver
    refine stackValue_of_fetchField hdepth ((hwritten.agrees.fetchField_eq fun hof => ?_).trans hfetch)
    exact hother (hof.1.symm.trans hpushed.activeContext_eq)
  obtain ⟨m', hanswer, hanswered⟩ :=
    exists_answered (m := m₁.withHeap h) hbase hlimit hreceiver' x
  obtain ⟨h', hput, hm'⟩ := hanswered.rest
  have hsp : m₁.regs.sp - 2 = m.regs.sp + 1 := by
    rw [hpushed.sp_eq]
    rfl
  have hanswers := Heap.agrees_storeField hput
  rw [withHeap_regs, hpushed.activeContext_eq, hsp] at hanswers
  refine ⟨m', ?_, hanswered.top, ?_, ?_, ?_, ?_⟩
  · rw [ask_run hpush]
    refine hstore.trans ?_
    unfold attempt
    rw [hanswer]
  · rw [hm']
    refine ((hpushed.agrees.trans hwritten.agrees).trans hanswers).mono fun w j hj => ?_
    rcases hj with hj | ⟨rfl, rfl⟩
    · exact hj
    · exact .inl ⟨rfl, Nat.lt_succ_self _⟩
  · have helement := hwritten.element
    rw [← helement, hm']
    exact elementAt_congr (m := m₁.withHeap h) hanswers fun hof => hother hof.1
  · rw [hm']
    exact hpushed.known_eq
  · rw [hm']
    obtain ⟨h₁, rfl⟩ := hpushed.rest
    rfl

/-- The answer takes the room of one operand. -/
theorem Committed.roomy (hc : Committed m v i x m') (hroom : m.Roomy 3) : m'.Roomy 2 := by
  have hcontext : m'.heap.fieldCount m.regs.activeContext = .ok m.regs.stackLimit :=
    (hc.agrees.fieldCount_eq _).trans hroom.context
  constructor <;> rw [hc.regs]
  · exact hroom.base
  · exact Nat.le_succ_of_le hroom.height
  · exact hroom.limit
  · exact hcontext

/-- Such a machine shows what was stored, and all else as before. -/
theorem Committed.elementStored (hc : Committed m v i x m') (hroom : m.Roomy 3)
    (hv : m.Accessible v) (hother : v ≠ m.regs.activeContext)
    (hplace : m.indexedPlace v index = .ok (some i)) : ElementStored m v index x m' := by
  have hagrees := hc.agrees
  have hroom₁ := hroom.fewer (k := 1) (by decide)
  have hroom₂ := hroom.fewer (k := 2) (by decide)
  have hroom' := hc.roomy hroom
  have hroom₁' := hroom'.fewer (k := 1) (by decide)
  have htype : ∀ w, ¬Redeclares m v index w → ∀ t, m.heap.typeOf w = .ok t →
      ¬(m.Above t Slot.fixedFields ∨ Object.ElementOf v i t Slot.fixedFields) := by
    rintro w hnot t ht (habove | ⟨rfl, rfl⟩)
    · exact hroom.declares t habove
    · exact hnot ⟨ht, hplace⟩
  have haccessible : ∀ w, m.Accessible w → m'.Accessible w := fun w hw =>
    (accessible_congr hagrees hc.known).mpr hw
  have hoff : ∀ w j, m.OffStack w j → ¬Redeclares m v index w → m'.OffStack w j := by
    intro w j hoff hnot hw k hk
    rw [hc.regs] at hw ⊢
    rw [indexedPlace_congr hagrees (htype w hnot)] at hk
    exact Nat.le_succ_of_le (hoff hw k hk)
  refine ⟨hc.answer, fun hnot => ?_, fun w j hw hwoff hne hnot => ?_, fun w hw hnot y => ?_, ?_⟩
  · have hpeek : m'.peek v index = some x :=
      peek_eq_some.mpr ⟨i, (indexedPlace_congr hagrees (htype v hnot)).trans hplace, hc.element⟩
    have hvoff : m'.OffStack v index := hoff v index (fun heq => absurd heq hother) hnot
    exact ((basicAt_replies hroom' (haccessible v hv) hvoff).1 x).mpr hpeek
  · have hpeek : m'.peek w j = m.peek w j := by
      refine peek_congr hagrees (htype w hnot) fun k hk => ?_
      rintro (⟨rfl, habove⟩ | ⟨rfl, rfl⟩)
      · exact Nat.not_lt.mpr (hwoff rfl k hk) habove
      · exact hne ⟨rfl, indexedPlace_inj hk hplace⟩
    have hbefore := basicAt_replies hroom₂ hw hwoff
    have hafter := basicAt_replies hroom' (haccessible w hw) (hoff w j hwoff hnot)
    rw [hpeek] at hafter
    exact ⟨fun y => (hafter.1 y).trans (hbefore.1 y).symm, hafter.2.trans hbefore.2.symm⟩
  · rw [basicSize_replies hroom₁' (haccessible w hw), basicSize_replies hroom₁ hw,
      indexedSize_congr hagrees (htype w hnot)]
  · intro k j hk hj
    obtain ⟨l, n, rfl, -, -, -, hi⟩ := indexedPlace_eq_ok.mp hplace
    cases v with
    | object a =>
        obtain ⟨k', hk', rfl⟩ := hi
        cases hk.symm.trans hk'
        refine hagrees.fetchField_eq ?_
        rintro (⟨heq, -⟩ | ⟨-, rfl⟩)
        · exact hother heq
        · exact absurd hj (Nat.not_lt.mpr (Nat.le_add_right ..))
    | int z => rfl
    | bytes a => rfl
    | words a => rfl

/-- Indexed access obeys the laws of arrays, for every receiver but the active context, every index
and every value.  Elements of another object can move only if the number of fixed fields that its
type declares is what was stored. -/
theorem basicAtPut_lawful (m : Machine) (v index x : Value) (hroom : m.Roomy 3)
    (hv : m.Accessible v) (hother : v ≠ m.regs.activeContext) (hx : x.InRange) :
    ((∃ m', ask .basicAtPut [v, index, x] m = .ok true m') ↔
      InBounds m v index ∧ Fits v x) ∧
    ((¬∃ m', ask .basicAtPut [v, index, x] m = .ok true m') →
      Refuses m .basicAtPut [v, index, x]) ∧
    (∀ m', ask .basicAtPut [v, index, x] m = .ok true m' → ElementStored m v index x m') ∧
    (Refuses m .basicAt [v, index] ↔ ¬InBounds m v index ∨
      ∃ (i : Nat) (xs : Array UInt64) (w : UInt64), index = .ofNat (i + 1) ∧
        m.heap.words v = .ok xs ∧ xs[i]? = some w ∧ 2 ^ 62 ≤ w.toNat) ∧
    (¬Refuses m .basicAt [v, index] → ∃ y, Replies m .basicAt [v, index] y) := by
  have hroom₁ := hroom.fewer (k := 1) (by decide)
  have hroom₂ := hroom.fewer (k := 2) (by decide)
  have hoff : m.OffStack v index := fun heq => absurd heq hother
  have hbounds : m.InBounds v index ↔ _ := inBounds_iff hroom₁ hv
  have hreads := basicAt_replies hroom₂ hv hoff
  have hrefuses : (¬∃ i, m.indexedPlace v index = .ok (some i) ∧ Fits v x) →
      Refuses m .basicAtPut [v, index, x] := by
    intro hnot
    obtain ⟨m₁, hpush, hpushed, -, -⟩ := hroom.exists_ask [v, index, x] rfl
    refine ⟨m₁, hpush, (ask_run hpush).trans ?_⟩
    refine attempt_basicAtPut_declines
      ((accessible_congr hpushed.agrees hpushed.known_eq).mpr hv)
      (hpushed.stackValue hroom (by simp) rfl) (hpushed.stackValue hroom (by simp) rfl)
      (hpushed.stackValue hroom (by simp) rfl) fun i hi hfits => hnot ⟨i, ?_, hfits⟩
    exact (indexedPlace_congr hpushed.agrees fun t _ => hroom.declares t).symm.trans hi
  have hcommits : (∃ m', ask .basicAtPut [v, index, x] m = .ok true m') ↔
      ∃ i, m.indexedPlace v index = .ok (some i) ∧ Fits v x := by
    constructor
    · rintro ⟨m', hrun⟩
      by_contra hnot
      obtain ⟨m₁, -, hrefuse⟩ := hrefuses hnot
      cases hrun.symm.trans hrefuse
    · rintro ⟨i, hi, hfits⟩
      obtain ⟨m', hrun, -⟩ := exists_commit hroom hother hx hi hfits
      exact ⟨m', hrun⟩
  refine ⟨?_, fun hnot => hrefuses fun hyes => hnot (hcommits.mpr hyes), fun m' hrun => ?_, ?_, ?_⟩
  · rw [hcommits, hbounds, exists_and_right]
  · obtain ⟨i, hi, hfits⟩ := hcommits.mp ⟨m', hrun⟩
    obtain ⟨t, hrun', hcommitted⟩ := exists_commit hroom hother hx hi hfits
    cases hrun.symm.trans hrun'
    exact hcommitted.elementStored hroom hv hother hi
  · exact hreads.2.trans (peek_eq_none_iff hroom₁ hv)
  · intro hnot
    cases hpeek : m.peek v index with
    | none => exact absurd (hreads.2.mpr hpeek) hnot
    | some y => exact ⟨y, (hreads.1 y).mpr hpeek⟩

/-! ## A type that redeclares its fixed fields -/

/-- A frame with an empty stack, and a row: its type declares one fixed field, in the first field
after the two that the type of the type declares. -/
def rowMachine : Machine :=
  let place (i : Nat) : Value := .object ⟨.ephemeral, 0, 0, i⟩
  let object (type : Value) (fields : Array Value) : Object :=
    ⟨⟨fields.size, 0, type, .live⟩, .fields fields⟩
  let pool := (Pool.empty .ephemeral 0 100 1).push (object (.int 0) (.replicate 14 (.int 0)))
  let pool := pool.push (object (place 1) #[.int 0, .int 0, .int 3])
  let pool := pool.push (object (place 1) #[.int 0, .int 0, .int 2])
  let pool := pool.push (object (place 2) #[.int 0, .int 0, .int 1])
  let pool := pool.push (object (place 3) #[.int 10, .int 77])
  { (default : Machine) with
    heap := { (default : Heap) with ephemeral := pool }
    known := (default : Machine).known.set .metaclass (place 1)
    regs := { Registers.cleared (.int 0) (.int 0) with
      activeContext := place 0, sp := 8, stackBase := 9, stackLimit := 14 } }

/-- The type of the row. -/
def rowType : Value := .object ⟨.ephemeral, 0, 0, 3⟩

/-- The row. -/
def row : Value := .object ⟨.ephemeral, 0, 0, 4⟩

theorem roomy_rowMachine : rowMachine.Roomy 3 := by
  constructor <;> decide

theorem accessible_rowType : rowMachine.Accessible rowType :=
  .inr ⟨.object ⟨.ephemeral, 0, 0, 2⟩, rfl, rfl⟩

theorem accessible_row : rowMachine.Accessible row := .inr ⟨rowType, rfl, rfl⟩

theorem basicAtPut_lawful_row :
    ∃ m', ask .basicAtPut [row, .ofNat 1, .int 5] rowMachine = .ok true m' ∧
      ElementStored rowMachine row (.ofNat 1) (.int 5) m' := by
  have hlaws := basicAtPut_lawful rowMachine row (.ofNat 1) (.int 5) roomy_rowMachine
    accessible_row (by decide) (by decide)
  have hroom₁ := roomy_rowMachine.fewer (k := 1) (by decide)
  have hbounds : InBounds rowMachine row (.ofNat 1) :=
    (inBounds_iff hroom₁ accessible_row).mpr ⟨1, rfl⟩
  obtain ⟨m', hrun⟩ := hlaws.1.mpr ⟨hbounds, trivial⟩
  exact ⟨m', hrun, hlaws.2.2.1 m' hrun⟩

/-- When a type comes to declare `k` fixed fields, its instances skip `k` fields. -/
theorem Committed.skippedFields_eq {a : Handle} {k : Nat}
    (hc : Committed m (.object a) Slot.fixedFields (.ofNat k) m')
    (hw : m.heap.typeOf w = .ok (.object a)) : m'.skippedFields w = .ok k := by
  have hfetch := liftFault_eq_ok.mp hc.element
  have htype : m'.heap.typeOf w = .ok (.object a) := (hc.agrees.typeOf_eq w).trans hw
  refine reading_bind_eq_ok.mpr ⟨_, liftFault_eq_ok.mpr htype, ?_⟩
  exact reading_bind_eq_ok.mpr ⟨_, liftFault_eq_ok.mpr hfetch, rfl⟩

/-- A store at an index of a type can move the elements of its instances: the row shows another of
its fields where it showed 77. -/
theorem basicAtPut_moves_elements :
    rowMachine.Roomy 3 ∧ rowMachine.Accessible rowType ∧ rowMachine.Accessible row ∧
      row ≠ rowType ∧ Replies rowMachine .basicAt [row, .ofNat 1] (.int 77) ∧
      ∃ m', ask .basicAtPut [rowType, .ofNat 1, .ofNat 0] rowMachine = .ok true m' ∧
        Replies m' .basicAt [row, .ofNat 1] (.int 10) := by
  have hroom := roomy_rowMachine
  have hroom₂ := hroom.fewer (k := 2) (by decide)
  have hoff : rowMachine.OffStack row (.ofNat 1) := nofun
  have hbefore := basicAt_replies hroom₂ accessible_row hoff
  refine ⟨hroom, accessible_rowType, accessible_row, by decide, (hbefore.1 _).mpr rfl, ?_⟩
  have hplace : rowMachine.indexedPlace rowType (.ofNat 1) = .ok (some Slot.fixedFields) := rfl
  obtain ⟨m', hrun, hc⟩ :=
    exists_commit (x := .ofNat 0) hroom (by decide) (by decide) hplace trivial
  refine ⟨m', hrun, ?_⟩
  have hagrees := hc.agrees
  have hskipped : m'.skippedFields row = .ok 0 := hc.skippedFields_eq rfl
  have hcount : m'.heap.fieldCount row = .ok 2 := (hagrees.fieldCount_eq row).trans rfl
  have hsize : m'.indexedSize row = .ok 2 := by
    refine reading_bind_eq_ok.mpr ⟨2, liftFault_eq_ok.mpr hcount, ?_⟩
    exact reading_bind_eq_ok.mpr ⟨0, hskipped, rfl⟩
  have hplace' : m'.indexedPlace row (.ofNat 1) = .ok (some 0) :=
    indexedPlace_eq_ok.mpr ⟨1, 2, rfl, hsize, by decide, by decide, 0, hskipped, rfl⟩
  have helement : m'.elementAt row 0 = .ok (.int 10) := by
    refine (elementAt_congr hagrees ?_).trans rfl
    rintro (⟨heq, -⟩ | ⟨heq, -⟩) <;> cases heq
  have hrow : m'.Accessible row := (accessible_congr hagrees hc.known).mpr accessible_row
  have hoff : m'.OffStack row (.ofNat 1) := by
    intro heq
    rw [hc.regs] at heq
    cases heq
  have hafter := basicAt_replies (hc.roomy hroom) hrow hoff
  exact (hafter.1 _).mpr (peek_eq_some.mpr ⟨0, hplace', helement⟩)

end Machine

end MessageMachine
