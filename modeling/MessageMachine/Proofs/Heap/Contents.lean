import Mathlib.Data.Nat.Digits.Lemmas
import MessageMachine.Proofs.Heap.Access
import MessageMachine.Proofs.Primitive.Integers

/-!
# The order of contents

Byte and word buffers are compared and hashed by what they spell.  `Heap.Spells h v bs` says what that
is without a function that computes it: the bytes of a byte buffer, and for a word buffer eight bytes
for each word, of which the word is the value in base 256, lowest first (`LittleEndian`).

* `Heap.content_eq_ok`: the contents that the heap answers are what the buffer spells.
* `compareContents` is a linear order on byte strings: its instances of `TransCmp` and `LawfulEqCmp`,
  and `compareContents_eq_lt`, which says which order.
* `wrappedHash_eq`: the hash is the same in 64-bit arithmetic that wraps around.

`Heap.contents_ordered` puts these together for buffers of either kind.
-/

namespace MessageMachine

/-! ## Words as bytes -/

/-- Each word is spelled by eight bytes, lowest first. -/
inductive LittleEndian : List UInt64 → List UInt8 → Prop where
  | nil : LittleEndian [] []
  | cons {w : UInt64} {ws : List UInt64} {eight bs : List UInt8} : eight.length = 8 →
      Nat.ofDigits 256 (eight.map UInt8.toNat) = w.toNat → LittleEndian ws bs →
      LittleEndian (w :: ws) (eight ++ bs)

theorem length_wordBytes (w : UInt64) : (wordBytes w).length = 8 := by simp [wordBytes]

/-- The bytes of a word are its digits. -/
theorem ofDigits_wordBytes (w : UInt64) :
    Nat.ofDigits 256 ((wordBytes w).map UInt8.toNat) = w.toNat := by
  have hw := w.toNat_lt
  simp only [wordBytes, List.range_succ, List.range_zero, List.nil_append, List.cons_append,
    List.map_cons, List.map_nil, UInt64.toNat_toUInt8, UInt64.toNat_shiftRight, Nat.ofDigits_cons,
    Nat.ofDigits_nil]
  norm_num [Nat.shiftRight_eq_div_pow]
  omega

theorem eq_wordBytes {w : UInt64} {eight : List UInt8} (hlength : eight.length = 8)
    (hvalue : Nat.ofDigits 256 (eight.map UInt8.toNat) = w.toNat) : eight = wordBytes w := by
  have hdigits : ∀ bs : List UInt8, ∀ n ∈ bs.map UInt8.toNat, n < 256 := by
    intro bs n hn
    obtain ⟨b, -, rfl⟩ := List.mem_map.mp hn
    exact b.toNat_lt
  have hmap : eight.map UInt8.toNat = (wordBytes w).map UInt8.toNat := by
    refine Nat.ofDigits_inj_of_len_eq (by decide) ?_ (hdigits _) (hdigits _) ?_
    · rw [List.length_map, List.length_map, hlength, length_wordBytes]
    · rw [hvalue, ofDigits_wordBytes]
  exact List.map_injective_iff.mpr (fun _ _ => UInt8.toNat_inj.mp) hmap

theorem littleEndian_iff {ws : List UInt64} {bs : List UInt8} :
    LittleEndian ws bs ↔ bs = ws.flatMap wordBytes := by
  constructor
  · intro h
    induction h with
    | nil => rfl
    | cons hlength hvalue _ ih => rw [List.flatMap_cons, ← ih, eq_wordBytes hlength hvalue]
  · rintro rfl
    induction ws with
    | nil => exact .nil
    | cons w ws ih => exact .cons (length_wordBytes w) (ofDigits_wordBytes w) ih

/-! ## What a buffer spells -/

namespace Heap

/-- What a byte or word buffer spells. -/
inductive Spells (h : Heap) : Value → List UInt8 → Prop where
  | bytes {v : Value} {xs : Array UInt8} : h.bytes v = .ok xs → Spells h v xs.toList
  | words {v : Value} {ws : Array UInt64} {bs : List UInt8} : h.words v = .ok ws →
      LittleEndian ws.toList bs → Spells h v bs

theorem content_eq_ok {h : Heap} {v : Value} {xs : Array UInt8} :
    h.content v = .ok xs ↔ h.Spells v xs.toList := by
  constructor
  · intro hcontent
    cases v with
    | int n => cases hcontent
    | object a => cases hcontent
    | bytes a => exact .bytes hcontent
    | words a =>
        obtain ⟨ws, hws, hxs⟩ := reading_bind_eq_ok.mp hcontent
        cases hxs
        exact .words hws (littleEndian_iff.mpr rfl)
  · intro hspells
    generalize hbs : xs.toList = bs at hspells
    cases hspells with
    | bytes hbytes =>
        obtain ⟨a, o, rfl, -⟩ := bytes_eq_ok.mp hbytes
        cases Array.toList_inj.mp hbs
        exact hbytes
    | words hwords hbytes =>
        obtain ⟨a, o, rfl, -⟩ := words_eq_ok.mp hwords
        refine reading_bind_eq_ok.mpr ⟨_, hwords, congrArg Except.ok ?_⟩
        rw [← littleEndian_iff.mp hbytes, ← hbs]

theorem Spells.content {h : Heap} {v : Value} {bs : List UInt8} (hs : h.Spells v bs) :
    h.content v = .ok bs.toArray := content_eq_ok.mpr hs

end Heap

/-! ## The order of byte strings -/

section

variable {a b : List UInt8}

instance : Std.TransCmp compareContents :=
  inferInstanceAs (Std.TransCmp (compareLex (compareOn List.length) (List.compareLex compare)))

instance : Std.LawfulEqCmp compareContents where
  eq_of_compare h := Std.LawfulEqCmp.eq_of_compare (Ordering.then_eq_eq.mp h).2

theorem compareContents_swap (a b : List UInt8) :
    compareContents b a = (compareContents a b).swap := Std.OrientedCmp.eq_swap

theorem compareContents_eq_eq : compareContents a b = .eq ↔ a = b :=
  Std.LawfulEqCmp.compare_eq_iff_eq

theorem compareLex_eq_lt : List.compareLex compare a b = .lt ↔ a < b := by
  induction a generalizing b with
  | nil => cases b <;> simp [List.compareLex]
  | cons x xs ih =>
      cases b with
      | nil => simp [List.compareLex]
      | cons y ys =>
          rw [List.compareLex_cons_cons, Ordering.then_eq_lt, ih, List.cons_lt_cons_iff,
            Std.LawfulLTCmp.eq_lt_iff_lt, Std.LawfulEqCmp.compare_eq_iff_eq]

/-- Shorter contents come first, and those of one length in lexicographic order. -/
theorem compareContents_eq_lt :
    compareContents a b = .lt ↔ a.length < b.length ∨ a.length = b.length ∧ a < b := by
  rw [compareContents, Ordering.then_eq_lt, compareLex_eq_lt, Nat.compare_eq_lt,
    Nat.compare_eq_eq]

end

/-! ## The hash -/

/-- The hash in 64-bit arithmetic that wraps around, at each step and in the absolute value. -/
def wrappedHash (bytes : List UInt8) : Int :=
  Arithmetic.wrapped |bytes.foldl (fun sum b => Arithmetic.wrapped (sum + signedByte b)) 0|

theorem contentHash_eq (bytes : List UInt8) :
    contentHash bytes.toArray = (bytes.map signedByte).sum.natAbs := by
  rw [contentHash, List.foldl_toArray, List.sum_eq_foldl, List.foldl_map]

theorem signedByte_bounds (b : UInt8) : -128 ≤ signedByte b ∧ signedByte b ≤ 127 := by
  have hlow := b.toInt8.le_toInt
  have hhigh := b.toInt8.toInt_lt
  unfold signedByte
  omega

theorem natAbs_sum_signedByte_le (bytes : List UInt8) :
    (bytes.map signedByte).sum.natAbs ≤ 128 * bytes.length := by
  induction bytes with
  | nil => rfl
  | cons b bytes ih =>
      have hbounds := signedByte_bounds b
      rw [List.map_cons, List.sum_cons, List.length_cons]
      omega

/-- No sum on the way leaves the 64 bits. -/
theorem foldl_wrapped {bytes : List UInt8} (hlength : bytes.length < 2 ^ 56) :
    bytes.foldl (fun sum b => Arithmetic.wrapped (sum + signedByte b)) 0 =
      (bytes.map signedByte).sum := by
  induction bytes using List.reverseRecOn with
  | nil => rfl
  | append_singleton bytes b ih =>
      have hsum := natAbs_sum_signedByte_le (bytes ++ [b])
      rw [List.length_append, List.length_singleton] at hlength hsum
      rw [List.foldl_append, ih (by omega), List.foldl_cons, List.foldl_nil]
      rw [List.map_append, List.sum_append, List.map_singleton, List.sum_singleton] at hsum ⊢
      exact Arithmetic.wrapped_of_isWord (Arithmetic.isWord_iff.mpr (by omega))

theorem wrappedHash_eq {bytes : List UInt8} (hlength : bytes.length < 2 ^ 56) :
    wrappedHash bytes = contentHash bytes.toArray := by
  have hsum := natAbs_sum_signedByte_le bytes
  rw [wrappedHash, foldl_wrapped hlength, contentHash_eq, Int.abs_eq_natAbs]
  exact Arithmetic.wrapped_of_isWord (Arithmetic.isWord_iff.mpr (by omega))

/-! ## Buffers -/

namespace Heap

variable {h : Heap} {u v w : Value} {a b c : List UInt8}

theorem contentCompare_eq (hu : h.Spells u a) (hv : h.Spells v b) :
    h.contentCompare u v = .ok (compareContents a b) := by
  unfold contentCompare
  rw [hu.content, hv.content]
  rfl

theorem hashOf_eq (hu : h.Spells u a) : h.hashOf u = .ok (contentHash a.toArray) := by
  unfold hashOf
  rw [hu.content]
  rfl

theorem keyHash_eq (hu : h.Spells u a) : Table.keyHash h u = .ok (contentHash a.toArray) := by
  have hhash := hashOf_eq hu
  cases hu with
  | bytes hbytes =>
      obtain ⟨_, _, rfl, -⟩ := bytes_eq_ok.mp hbytes
      exact hhash
  | words hwords =>
      obtain ⟨_, _, rfl, -⟩ := words_eq_ok.mp hwords
      exact hhash

/-- The contents of `u` do not come after those of `v`. -/
def ContentLE (h : Heap) (u v : Value) : Prop := ∃ o, h.contentCompare u v = .ok o ∧ o.isLE

theorem contentLE_iff (hu : h.Spells u a) (hv : h.Spells v b) :
    h.ContentLE u v ↔ (compareContents a b).isLE := by
  unfold ContentLE
  rw [contentCompare_eq hu hv]
  simp

/-- Comparing buffers by contents is a linear order up to equal contents, by length and then
lexicographically, and equal contents hash alike, as buffers, as keys and as names. -/
theorem contents_ordered (hu : h.Spells u a) (hv : h.Spells v b) (hw : h.Spells w c) :
    h.ContentLE u u ∧
      (h.ContentLE u v → h.ContentLE v u → a = b) ∧
      (h.ContentLE u v → h.ContentLE v w → h.ContentLE u w) ∧
      (h.ContentLE u v ∨ h.ContentLE v u) ∧
      (h.contentCompare u v = .ok .lt ↔
        a.length < b.length ∨ a.length = b.length ∧ List.Lex (· < ·) a b) ∧
      (∃ o, h.contentCompare u v = .ok o ∧ h.contentCompare v u = .ok o.swap ∧
        (o = .eq ↔ a = b)) ∧
      h.contentEquals u v = .ok (decide (a = b)) ∧
      (∃ m n, h.hashOf u = .ok m ∧ h.hashOf v = .ok n ∧ (a = b → m = n)) ∧
      (∀ name : Array UInt8, name.toList = a → h.hashOf u = .ok (contentHash name) ∧
        Table.keyHash h u = .ok (contentHash name)) ∧
      (a.length < 2 ^ 56 → ∃ n : Nat, h.hashOf u = .ok n ∧ wrappedHash a = n) := by
  have hle : (compareContents a b).isLE ∨ (compareContents b a).isLE := by
    rw [compareContents_swap a b]
    cases compareContents a b <;> decide
  rw [contentLE_iff hu hu, contentLE_iff hu hv, contentLE_iff hv hu, contentLE_iff hv hw,
    contentLE_iff hu hw]
  refine ⟨Std.ReflCmp.isLE_rfl, ?_, Std.TransCmp.isLE_trans, hle, ?_, ?_, ?_, ?_, ?_, ?_⟩
  · intro huv hvu
    exact compareContents_eq_eq.mp (Std.OrientedCmp.isLE_antisymm huv hvu)
  · rw [contentCompare_eq hu hv, List.lex_lt, ← compareContents_eq_lt]
    exact ⟨Except.ok.inj, congrArg _⟩
  · refine ⟨_, contentCompare_eq hu hv, ?_, compareContents_eq_eq⟩
    rw [contentCompare_eq hv hu, compareContents_swap]
  · unfold contentEquals
    rw [contentCompare_eq hu hv]
    exact congrArg Except.ok (decide_eq_decide.mpr compareContents_eq_eq)
  · exact ⟨_, _, hashOf_eq hu, hashOf_eq hv, fun heq => heq ▸ rfl⟩
  · rintro name rfl
    exact ⟨hashOf_eq hu, keyHash_eq hu⟩
  · exact fun hlength => ⟨_, hashOf_eq hu, wrappedHash_eq hlength⟩

/-- A word buffer, a byte buffer that spells the same, and a shorter byte buffer. -/
def bufferHeap : Heap :=
  let word : Object := ⟨⟨1, 0, .int 7, .live⟩, .words #[0x00000000000080FF]⟩
  let same := Object.ofBytes .ephemeral (.int 7) #[255, 128, 0, 0, 0, 0, 0, 0]
  let short := Object.ofBytes .ephemeral (.int 7) #[255]
  { settings := {}
    root := .empty .root 0 65536 16
    ephemeral := ((Pool.empty .ephemeral 1 65536 1024).push word |>.push same).push short
    threshold := 8
    collections := 0 }

/-- A word buffer and a byte buffer with the same contents, both after a shorter one, and both with
the absolute value of `-1 - 128` as their hash. -/
theorem contents_ordered_bufferHeap :
    bufferHeap.Spells (.words ⟨.ephemeral, 1, 0, 0⟩) [255, 128, 0, 0, 0, 0, 0, 0] ∧
      bufferHeap.Spells (.bytes ⟨.ephemeral, 1, 0, 1⟩) [255, 128, 0, 0, 0, 0, 0, 0] ∧
      bufferHeap.Spells (.bytes ⟨.ephemeral, 1, 0, 2⟩) [255] ∧
      bufferHeap.contentEquals (.words ⟨.ephemeral, 1, 0, 0⟩) (.bytes ⟨.ephemeral, 1, 0, 1⟩) =
        .ok true ∧
      bufferHeap.contentCompare (.bytes ⟨.ephemeral, 1, 0, 2⟩) (.words ⟨.ephemeral, 1, 0, 0⟩) =
        .ok .lt ∧
      bufferHeap.hashOf (.words ⟨.ephemeral, 1, 0, 0⟩) = .ok 129 := by
  have hword : bufferHeap.Spells (.words ⟨.ephemeral, 1, 0, 0⟩) [255, 128, 0, 0, 0, 0, 0, 0] :=
    .words rfl (littleEndian_iff.mpr (by decide))
  have hsame : bufferHeap.Spells (.bytes ⟨.ephemeral, 1, 0, 1⟩) [255, 128, 0, 0, 0, 0, 0, 0] :=
    content_eq_ok.mp (show _ = Except.ok #[255, 128, 0, 0, 0, 0, 0, 0] from rfl)
  have hshort : bufferHeap.Spells (.bytes ⟨.ephemeral, 1, 0, 2⟩) [255] :=
    content_eq_ok.mp (show _ = Except.ok #[255] from rfl)
  obtain ⟨-, -, -, -, -, -, hequal, -, hhash, -⟩ := contents_ordered hword hsame hshort
  obtain ⟨-, -, -, -, hless, -⟩ := contents_ordered hshort hword hsame
  exact ⟨hword, hsame, hshort, hequal, hless.mpr (.inl (by decide)),
    (hhash #[255, 128, 0, 0, 0, 0, 0, 0] rfl).1⟩

end Heap

end MessageMachine
