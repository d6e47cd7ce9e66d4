import MessageMachine.Proofs.Instruction.Encoding
import Mathlib.Data.List.TakeWhile

/-!
# The layout of a program

`layout program` says which instructions a program of directives stands for, and at which offsets,
without saying how their bytes come about.  Every directive that appends an instruction has a
`size`, so the offset of an instruction is the `width` of the directives before it.  The `distance`
of a jump or block is a width too:

* a forward jump skips the directives up to the one that binds its label;
* a jump back goes back over the directives since its mark, and over itself;
* a block skips the directives up to its end.

What ends a forward jump or a block is its `closer?`.  A program is `Closed` when every label is
bound once, every block is ended once, and jumps back go to marks; it `Fits` when every distance
fits in its place.  Labels and blocks may overlap in any way.
-/

namespace MessageMachine

namespace Directive

/-! ## Single directives -/

/-- The instruction that a directive appends, if it has the given distance. -/
def instruction? (distance : Nat) : Directive → Option Instruction
  | .pushSpecial constant => some (.pushSpecial constant)
  | .pushLiteral index => some (.pushLiteral index)
  | .pushTemporary index => some (.pushTemporary index)
  | .pushField index => some (.pushField index)
  | .pushGlobal literal => some (.pushGlobal literal)
  | .popStoreTemporary index => some (.popStoreTemporary index)
  | .popStoreField index => some (.popStoreField index)
  | .popStoreGlobal literal => some (.popStoreGlobal literal)
  | .pop => some .pop
  | .dup => some .dup
  | .send literal argc => some (.send literal argc)
  | .specialSend selector argc => some (.specialSend selector argc)
  | .ret kind => some (.ret kind)
  | .jump _ => some (.jump (.ofNat distance))
  | .jumpIfTrue _ => some (.jumpIfTrue (.ofNat distance))
  | .jumpIfFalse _ => some (.jumpIfFalse (.ofNat distance))
  | .jumpBack _ => some (.jumpBack (.ofNat distance))
  | .block argc _ => some (.blockCopy argc (.ofNat distance))
  | .bind _ | .mark _ | .endBlock _ => none

/-- How many bytes a directive appends.  The distance does not matter. -/
def size (d : Directive) : Nat := ((d.instruction? 0).map (·.encode.length)).getD 0

/-- The directive that ends a forward jump or a block. -/
def closer? : Directive → Option Directive
  | .jump label | .jumpIfTrue label | .jumpIfFalse label => some (.bind label)
  | .block _ name => some (.endBlock name)
  | _ => none

/-- Whether the directive ends a forward jump or a block. -/
def isCloser : Directive → Bool
  | .bind _ | .endBlock _ => true
  | _ => false

/-- The largest distance that the directive has room for. -/
def reach : Directive → Nat
  | .jump _ | .jumpIfTrue _ | .jumpIfFalse _ | .jumpBack _ => Instruction.maxDistance
  | .block _ _ => 2 ^ 16 - 1
  | _ => 0

theorem reach_lt (d : Directive) : d.reach < 2 ^ 16 := by
  unfold reach
  split <;> decide

variable {d c : Directive} {distance : Nat} {i : Instruction}

theorem length_encode (h : d.instruction? distance = some i) : i.encode.length = d.size := by
  cases d <;> cases h <;> simp [size, instruction?, Instruction.encode, Assembler.jumpBytes]

theorem size_eq_zero (h : d.instruction? distance = none) : d.size = 0 := by
  cases d <;> cases h <;> rfl

theorem size_pos (h : d.instruction? distance = some i) : 0 < d.size := by
  rw [← length_encode h]
  exact i.length_encode_pos

theorem isCloser_of_closer? (h : d.closer? = some c) : c.isCloser = true := by
  cases d <;> cases h <;> rfl

theorem ne_closer (h : d.closer? = some c) {d' : Directive} (hd' : d'.isCloser = false) :
    d' ≠ c := by
  rintro rfl
  rw [isCloser_of_closer? h] at hd'
  cases hd'

theorem isCloser_of_isSome (h : d.closer? = some c) : d.isCloser = false := by
  cases d <;> cases h <;> rfl

/-- Within its reach, the instruction of a directive can be written. -/
theorem encodable (hinstruction : d.instruction? distance = some i) (hreach : distance ≤ d.reach) :
    i.Encodable := by
  have hof : (UInt16.ofNat distance).toNat ≤ distance := by
    rw [UInt16.toNat_ofNat']
    exact Nat.mod_le _ _
  cases d <;> cases hinstruction <;> first | trivial | exact Nat.le_trans hof hreach

end Directive

open Directive

/-! ## Widths and distances -/

/-- How many bytes directives append. -/
def width (ds : List Directive) : Nat := (ds.map size).sum

@[simp] theorem width_nil : width [] = 0 := rfl

@[simp] theorem width_cons (d : Directive) (ds : List Directive) :
    width (d :: ds) = d.size + width ds := by simp [width]

@[simp] theorem width_append (ds es : List Directive) :
    width (ds ++ es) = width ds + width es := by simp [width]

@[simp] theorem width_reverse (ds : List Directive) : width ds.reverse = width ds := by
  simp [width, List.map_reverse, List.sum_reverse]

/-- The distance of a directive that stands between others.  The directives before it are listed
from the nearest on.  What has not been closed has distance 0. -/
def distance (before : List Directive) (d : Directive) (after : List Directive) : Nat :=
  match d.closer? with
  | some c => if c ∈ after then width (after.takeWhile (· ≠ c)) else 0
  | none =>
    match d with
    | .jumpBack name => width (before.takeWhile (· ≠ .mark name)) + 2
    | _ => 0

/-- The instruction of a directive that stands between others, with its offset. -/
def entry (before : List Directive) (d : Directive) (after : List Directive) :
    List (Nat × Instruction) :=
  ((d.instruction? (distance before d after)).map (width before, ·)).toList

/-- The instructions of the directives between others.  Those before are listed from the nearest
on. -/
def layoutBetween (before after : List Directive) : List Directive → List (Nat × Instruction)
  | [] => []
  | d :: ds => entry before d (ds ++ after) ++ layoutBetween (d :: before) after ds

theorem layoutBetween_nil (before after : List Directive) : layoutBetween before after [] = [] := rfl

theorem layoutBetween_cons (before after : List Directive) (d : Directive) (ds : List Directive) :
    layoutBetween before after (d :: ds) =
      entry before d (ds ++ after) ++ layoutBetween (d :: before) after ds := rfl

/-- The instructions of a program with their offsets. -/
def layout (program : List Directive) : List (Nat × Instruction) := layoutBetween [] [] program

/-- Every distance in the program has room. -/
def Fits (program : List Directive) : Prop :=
  ∀ before d after, program = before ++ d :: after → distance before.reverse d after ≤ d.reach

theorem fits_iff {program : List Directive} : Fits program ↔ ∀ k, (h : k < program.length) →
    distance (program.take k).reverse program[k] (program.drop (k + 1)) ≤ program[k].reach := by
  constructor
  · intro h k hk
    exact h _ _ _ (by rw [List.getElem_cons_drop, List.take_append_drop])
  · rintro h before d after rfl
    simpa using h before.length (by simp)

instance (program : List Directive) : Decidable (Fits program) := decidable_of_iff' _ fits_iff

/-! ## Closed programs -/

/-- The directives still awaited that close a jump or a block, and the marks passed so far. -/
structure Scope where
  awaited : List Directive := []
  marks : List String := []
  deriving DecidableEq, Repr, Inhabited

/-- The scope after one more directive, unless that opens what is open, closes what is not, or goes
back to no mark. -/
def Scope.step? (s : Scope) (d : Directive) : Option Scope :=
  match d with
  | .mark name => some { s with marks := name :: s.marks }
  | .jumpBack name => if name ∈ s.marks then some s else none
  | d =>
    match d.closer? with
    | some c => if c ∈ s.awaited then none else some { s with awaited := c :: s.awaited }
    | none =>
      if d.isCloser then
        if d ∈ s.awaited then some { s with awaited := s.awaited.filter (· ≠ d) } else none
      else some s

theorem Scope.step?_jumpBack (s : Scope) (name : String) :
    s.step? (.jumpBack name) = if name ∈ s.marks then some s else none := rfl

/-- A directive that closes something has to be awaited. -/
theorem Scope.step?_closes (s : Scope) {d : Directive} (h : d.isCloser = true) :
    s.step? d =
      if d ∈ s.awaited then some { s with awaited := s.awaited.filter (· ≠ d) } else none := by
  cases d <;> cases h <;> rfl

/-- The scope at the end of a program. -/
def scope? (program : List Directive) : Option Scope := program.foldlM Scope.step? {}

/-- Every label is bound, every block is ended, and jumps back go to marks. -/
def Closed (program : List Directive) : Prop := (scope? program).map (·.awaited) = some []

instance (program : List Directive) : Decidable (Closed program) :=
  inferInstanceAs (Decidable (_ = _))

theorem scope?_snoc {program : List Directive} {d : Directive} {s : Scope} :
    scope? (program ++ [d]) = some s ↔ ∃ t, scope? program = some t ∧ t.step? d = some s := by
  simp [scope?, List.foldlM_append, Option.bind_eq_some_iff]

/-! ## Extending a program -/

variable {before after : List Directive} {d c x : Directive}

theorem distance_of_closer (h : d.closer? = some c) :
    distance before d after = if c ∈ after then width (after.takeWhile (· ≠ c)) else 0 := by
  simp only [distance, h]

/-- Directives that do not close a jump or block leave its distance alone. -/
theorem distance_snoc (h : ∀ c, d.closer? = some c → c ∈ after ∨ x ≠ c) :
    distance before d (after ++ [x]) = distance before d after := by
  cases hc : d.closer? with
  | none => simp only [distance, hc]
  | some c =>
      rw [distance_of_closer hc, distance_of_closer hc]
      by_cases hmem : c ∈ after
      · have htake : (after ++ [x]).takeWhile (· ≠ c) = after.takeWhile (· ≠ c) := by
          rw [List.takeWhile_append, if_neg]
          intro hlength
          have hall := List.takeWhile_eq_self_iff.mp
            (List.IsPrefix.eq_of_length (List.takeWhile_prefix _) hlength) c hmem
          simp at hall
        rw [if_pos (List.mem_append_left _ hmem), if_pos hmem, htake]
      · have hx : x ≠ c := (h c hc).resolve_left hmem
        rw [if_neg hmem, if_neg]
        simp [hmem, hx.symm]

/-- A jump or block gets its distance when it is closed. -/
theorem distance_closed (h : d.closer? = some c) (hmem : c ∉ after) (rest : List Directive) :
    distance before d (after ++ c :: rest) = width after := by
  rw [distance_of_closer h, if_pos (by simp)]
  congr 1
  rw [List.takeWhile_append_of_pos]
  · simp
  · intro y hy
    have hne : y ≠ c := by
      rintro rfl
      exact hmem hy
    simpa using hne

/-- A jump back goes to the nearest mark. -/
theorem distance_jumpBack {name : String} (hmem : .mark name ∉ before) (rest : List Directive) :
    distance (before ++ .mark name :: rest) (.jumpBack name) after = width before + 2 := by
  change width (List.takeWhile _ _) + 2 = _
  congr 2
  rw [List.takeWhile_append_of_pos]
  · simp
  · intro y hy
    have hne : y ≠ .mark name := by
      rintro rfl
      exact hmem hy
    simpa using hne

theorem entry_congr {after' : List Directive}
    (h : distance before d after = distance before d after') :
    entry before d after = entry before d after' := by
  unfold entry
  rw [h]

theorem layoutBetween_append (before after ds es : List Directive) :
    layoutBetween before after (ds ++ es) =
      layoutBetween before (es ++ after) ds ++ layoutBetween (ds.reverse ++ before) after es := by
  induction ds generalizing before with
  | nil => rfl
  | cons d ds ih =>
      simp only [List.cons_append, layoutBetween_cons, ih, List.append_assoc, List.reverse_cons,
        List.nil_append]

/-- Later directives only matter by the distances that they give. -/
theorem layoutBetween_congr {before after after' ds : List Directive}
    (h : ∀ early d late, ds = early ++ d :: late → ∀ b,
      distance b d (late ++ after) = distance b d (late ++ after')) :
    layoutBetween before after ds = layoutBetween before after' ds := by
  induction ds generalizing before with
  | nil => rfl
  | cons d ds ih =>
      simp only [layoutBetween_cons]
      rw [entry_congr (h [] d ds rfl before), ih]
      intro early d' late heq
      exact h (d :: early) d' late (by rw [heq, List.cons_append])

/-- A directive at the end of a program adds its own instruction, unless it closes something. -/
theorem layout_snoc {program : List Directive}
    (h : ∀ early d late c, program = early ++ d :: late → d.closer? = some c → c ∈ late ∨ x ≠ c) :
    layout (program ++ [x]) = layout program ++ entry program.reverse x [] := by
  unfold layout
  rw [layoutBetween_append]
  congr 1
  · refine layoutBetween_congr fun early d late heq b => ?_
    rw [List.append_nil, List.append_nil]
    exact distance_snoc fun c hc => h early d late c heq hc
  · simp [layoutBetween_cons, layoutBetween_nil]

/-- A program is laid out around each of its directives. -/
theorem layout_split (before after : List Directive) (d : Directive) :
    layout (before ++ d :: after) = layoutBetween [] (d :: after) before ++
      (entry before.reverse d after ++ layoutBetween (d :: before.reverse) [] after) := by
  rw [layout, layoutBetween_append]
  simp [layoutBetween_cons]

/-- The instructions of a program are those of its directives. -/
theorem mem_layoutBetween {pos : Nat} {i : Instruction} {ds : List Directive} :
    (pos, i) ∈ layoutBetween before after ds ↔ ∃ early d late, ds = early ++ d :: late ∧
      d.instruction? (distance (early.reverse ++ before) d (late ++ after)) = some i ∧
      pos = width early + width before := by
  induction ds generalizing before with
  | nil => simp [layoutBetween_nil]
  | cons d ds ih =>
      rw [layoutBetween_cons, List.mem_append, ih]
      constructor
      · rintro (hmem | ⟨early, d', late, rfl, hi, rfl⟩)
        · obtain ⟨j, hj, heq⟩ : ∃ j, d.instruction? (distance before d (ds ++ after)) = some j ∧
              (width before, j) = (pos, i) := by simpa [entry] using hmem
          cases heq
          exact ⟨[], d, ds, rfl, hj, by simp⟩
        · refine ⟨d :: early, d', late, rfl, ?_, ?_⟩
          · simpa using hi
          · simp only [width_cons]
            omega
      · rintro ⟨early, d', late, heq, hi, rfl⟩
        cases early with
        | nil =>
            cases heq
            refine .inl ?_
            simpa [entry] using hi
        | cons e early =>
            cases heq
            refine .inr ⟨early, d', late, rfl, ?_, ?_⟩
            · simpa using hi
            · simp only [width_cons]
              omega

theorem mem_layout {pos : Nat} {i : Instruction} {program : List Directive} :
    (pos, i) ∈ layout program ↔ ∃ early d late, program = early ++ d :: late ∧
      d.instruction? (distance early.reverse d late) = some i ∧ pos = width early := by
  simp only [layout, mem_layoutBetween, List.append_nil, width_nil, Nat.add_zero]

/-- Between two directives an instruction starts, or nothing follows. -/
theorem boundary_layout (before after : List Directive) :
    (∃ i, (width before, i) ∈ layout (before ++ after)) ∨
      width before = width (before ++ after) := by
  induction after generalizing before with
  | nil => exact .inr (by rw [List.append_nil])
  | cons d after ih =>
      cases hi : d.instruction? (distance before.reverse d after) with
      | some i => exact .inl ⟨i, mem_layout.mpr ⟨before, d, after, rfl, hi, rfl⟩⟩
      | none =>
          have hwidth : width (before ++ [d]) = width before := by simp [size_eq_zero hi]
          have hnext := ih (before ++ [d])
          rwa [hwidth, List.append_assoc, List.singleton_append] at hnext

/-- The bytes of instructions. -/
def encodeAll (entries : List (Nat × Instruction)) : List UInt8 :=
  entries.flatMap fun e => e.2.encode

@[simp] theorem encodeAll_append (xs ys : List (Nat × Instruction)) :
    encodeAll (xs ++ ys) = encodeAll xs ++ encodeAll ys := List.flatMap_append ..

theorem length_encodeAll_entry (before : List Directive) (d : Directive) (after : List Directive) :
    (encodeAll (entry before d after)).length = d.size := by
  unfold entry
  cases h : d.instruction? (distance before d after) with
  | none => exact (size_eq_zero h).symm
  | some i => simpa [encodeAll] using length_encode h

/-- The bytes of a program are as many as its directives append. -/
theorem length_encodeAll_layoutBetween (before after ds : List Directive) :
    (encodeAll (layoutBetween before after ds)).length = width ds := by
  induction ds generalizing before with
  | nil => rfl
  | cons d ds ih =>
      simp only [layoutBetween_cons, encodeAll_append, List.length_append, ih, width_cons,
        length_encodeAll_entry]

theorem length_encodeAll_layout (program : List Directive) :
    (encodeAll (layout program)).length = width program :=
  length_encodeAll_layoutBetween [] [] program

/-- A program fits if a longer one does. -/
theorem Fits.of_snoc {program : List Directive} (h : Fits (program ++ [x])) : Fits program := by
  intro before d after heq
  have hlonger := h before d (after ++ [x]) (by rw [heq, List.append_assoc, List.cons_append])
  refine Nat.le_trans ?_ hlonger
  cases hc : d.closer? with
  | none => exact (distance_snoc fun c h => by rw [hc] at h; cases h).ge
  | some c =>
      by_cases hmem : c ∈ after
      · refine (distance_snoc fun c' h => .inl ?_).ge
        rw [hc] at h
        cases h
        exact hmem
      · have hzero : distance before.reverse d after = 0 := by
          rw [distance_of_closer hc, if_neg hmem]
        rw [hzero]
        exact Nat.zero_le _

end MessageMachine
