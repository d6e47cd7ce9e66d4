import MessageMachine.Proofs.Instruction.Layout
import Mathlib.Data.List.Induction

/-!
# Assembled programs read back

The assembler writes jumps and blocks before their distances are known, and patches the distances
into bytes that have long been followed by others.  `Mirrors` says where it stands after part of a
program: its bytes are those of the layout of that part, in which what is still open has distance 0,
and it remembers where each open jump or block and each mark is.  One more directive keeps this
(`Mirrors.step`), so it holds of whole programs.

The main result is `listing_assemble`: a closed program that fits is read back as its layout, and
everything that transfers control leads to where its label was bound, its mark was set or its block
was ended.
-/

namespace MessageMachine

open Directive

namespace Instruction

/-- Where an instruction can transfer control to, given the offset after it. -/
def target? (next : Nat) : Instruction → Option Nat
  | .jump delta | .jumpIfTrue delta | .jumpIfFalse delta => some (next + delta.toNat)
  | .jumpBack delta => some (next - delta.toNat)
  | .blockCopy _ length => some (next + length.toNat)
  | _ => none

end Instruction

/-- The assembler after a part of a program. -/
def assembler (program : List Directive) : Assembler := program.foldl Assembler.step {}

theorem assembler_snoc (program : List Directive) (d : Directive) :
    assembler (program ++ [d]) = (assembler program).step d := by
  simp [assembler, List.foldl_append]

namespace Assembler

/-- Where the distance of the open jump or block is, that a directive closes. -/
def place? (a : Assembler) : Directive → Option Nat
  | .bind label => a.jumps.lookup label
  | .endBlock name => a.blocks.lookup name
  | _ => none

/-! ## Single directives -/

theorem step_bind (a : Assembler) (label : String) : a.step (.bind label) =
    match a.jumps.lookup label with
    | some start => a.patchJump start
    | none => a := rfl

theorem step_endBlock (a : Assembler) (name : String) : a.step (.endBlock name) =
    match a.blocks.lookup name with
    | some start => a.patchLength start
    | none => a := rfl

theorem step_jumpBack (a : Assembler) (name : String) : a.step (.jumpBack name) =
    match a.marks.lookup name with
    | some target => a.write (jumpBytes .jumpBack (a.code.size + 2 - target))
    | none => a := rfl

theorem step_block (a : Assembler) (argc : UInt8) (name : String) : a.step (.block argc name) =
    { (a.write (operandBytes .blockCopy argc)).write [0, 0] with
      blocks := (name, (a.write (operandBytes .blockCopy argc)).code.size) :: a.blocks } := rfl

/-! ## Patching -/

theorem toList_set_two {code : Array UInt8} {xs ys : List UInt8} {x y : UInt8}
    (h : code.toList = xs ++ [x, y] ++ ys) (x' y' : UInt8) :
    ((code.setIfInBounds xs.length x').setIfInBounds (xs.length + 1) y').toList =
      xs ++ [x', y'] ++ ys := by
  simp [h, List.set_append_right]

/-- Patching gives a jump or block its distance, and leaves all other bytes alone. -/
theorem toList_patch {a : Assembler} {d c : Directive} {i j : Instruction} {xs ys : List UInt8}
    (hc : d.closer? = some c) (hcode : a.code.toList = xs ++ i.encode ++ ys)
    (hplace : a.place? c = some (xs.length + d.size - 2)) (hi : d.instruction? 0 = some i)
    (hj : d.instruction? ys.length = some j) (hreach : ys.length ≤ d.reach) :
    (a.step c).code.toList = xs ++ j.encode ++ ys := by
  have hsize : a.code.size = xs.length + d.size + ys.length := by
    rw [← Array.length_toList, hcode, List.length_append, List.length_append, length_encode hi]
  have hjump : ∀ {op : Opcode} {label : String}, ys.length ≤ Instruction.maxDistance →
      a.code.toList = xs ++ jumpBytes op 0 ++ ys → a.jumps.lookup label = some xs.length →
      a.code.size = xs.length + 2 + ys.length →
      (a.step (.bind label)).code.toList =
        xs ++ jumpBytes op (UInt16.ofNat ys.length).toNat ++ ys := by
    intro op label hle hcode hlookup hsize
    have hof : (UInt16.ofNat ys.length).toNat = ys.length := by
      rw [UInt16.toNat_ofNat', Nat.mod_eq_of_lt]
      exact Nat.lt_of_le_of_lt hle (by decide)
    have hfirst : a.code.getD xs.length 0 = op.withInline 0 := by
      have hbyte := (BytesAt.of_toList hcode).head
      simp [Array.getD_eq_getD_getElem?, hbyte]
    have hcodeOf : Opcode.codeOf (op.withInline 0) = op.code := op.codeOf_withInline (by decide)
    simp only [step_bind, hlookup, patchJump, hfirst, hcodeOf]
    rw [toList_set_two hcode, hsize, hof]
    simp [jumpBytes, Opcode.withInline]
  cases d <;> cases hc <;> cases hi <;> cases hj
  case block argc name =>
    have hle : ys.length ≤ 2 ^ 16 - 1 := hreach
    have hof : (UInt16.ofNat ys.length).toNat = ys.length := by
      rw [UInt16.toNat_ofNat', Nat.mod_eq_of_lt]
      omega
    have hbytes : (Directive.block argc name).size = (operandBytes .blockCopy argc).length + 2 := by
      simp [size, instruction?, Instruction.encode]
    have hstart : xs.length + (Directive.block argc name).size - 2 =
        (xs ++ operandBytes .blockCopy argc).length := by
      rw [hbytes, List.length_append]
      omega
    have hlookup : a.blocks.lookup name = some (xs ++ operandBytes .blockCopy argc).length :=
      hplace.trans (congrArg some hstart)
    have hcode' : a.code.toList = (xs ++ operandBytes .blockCopy argc) ++ [0, 0] ++ ys := by
      rw [hcode]
      simp [Instruction.encode]
    have hlength : a.code.size - ((xs ++ operandBytes .blockCopy argc).length + 2) = ys.length := by
      rw [hsize, hbytes, List.length_append]
      omega
    simp only [step_endBlock, hlookup, patchLength, hlength]
    rw [toList_set_two hcode']
    simp [Instruction.encode, hof]
  all_goals exact hjump hreach hcode hplace hsize

/-! ## Appending -/

/-- A directive that closes nothing appends its instruction. -/
theorem toList_step {a : Assembler} {before : List Directive} {x : Directive}
    (hcloser : x.isCloser = false) (hreach : distance before x [] ≤ x.reach)
    (hback : ∀ name, x = .jumpBack name → ∃ target, a.marks.lookup name = some target ∧
      a.code.size + 2 - target = distance before x []) :
    (a.step x).code.toList = a.code.toList ++ encodeAll (entry before x []) := by
  cases x with
  | bind label => cases hcloser
  | endBlock name => cases hcloser
  | mark name => simp [step, entry, instruction?, encodeAll]
  | jumpBack name =>
      obtain ⟨target, hlookup, hdistance⟩ := hback name rfl
      have hof : (UInt16.ofNat (distance before (.jumpBack name) [])).toNat =
          distance before (.jumpBack name) [] := by
        rw [UInt16.toNat_ofNat', Nat.mod_eq_of_lt]
        have hle : distance before (.jumpBack name) [] ≤ 2 ^ 11 - 1 := hreach
        omega
      simp [step_jumpBack, hlookup, write, hdistance, entry, instruction?, encodeAll, Instruction.encode, hof]
  | _ =>
      simp [step, forward, write, entry, instruction?, encodeAll, Instruction.encode, distance,
        closer?]

/-- A name that has just been put down hides the older ones. -/
theorem lookup_cons_eq {name key : String} {start : Nat} {rest : List (String × Nat)} :
    ((name, start) :: rest).lookup key = if name = key then some start else rest.lookup key := by
  by_cases h : name = key
  · subst h
    simp
  · have hne : (key == name) = false := by simpa using fun heq : key = name => h heq.symm
    simp [List.lookup_cons, hne, h]

theorem place?_forward (a : Assembler) (op : Opcode) (label : String) (c : Directive) :
    (a.forward op label).place? c =
      if some (Directive.bind label) = some c then some a.code.size else a.place? c := by
  cases c with
  | bind other => simp [place?, forward, lookup_cons_eq]
  | _ => simp [place?, forward, write]

/-- What is open is remembered where it is. -/
theorem place?_step {a : Assembler} {x : Directive} (c : Directive) :
    (a.step x).place? c =
      if x.closer? = some c then some (a.code.size + x.size - 2) else a.place? c := by
  cases x with
  | jump label => exact place?_forward a _ label c
  | jumpIfTrue label => exact place?_forward a _ label c
  | jumpIfFalse label => exact place?_forward a _ label c
  | block argc name =>
      cases c with
      | endBlock other =>
          have hstart : (a.code ++ operandBytes .blockCopy argc).size =
              a.code.size + (Directive.block argc name).size - 2 := by
            have hsize : (Directive.block argc name).size =
                (operandBytes .blockCopy argc).length + 2 := by
              simp [size, instruction?, Instruction.encode]
            rw [hsize, ← Array.length_toList, Array.toList_appendList, List.length_append,
              Array.length_toList]
            omega
          have hclose : ((Directive.block argc name).closer? = some (.endBlock other)) ↔
              name = other := by
            simp [closer?]
          simp only [step_block, place?, write, lookup_cons_eq, hstart, hclose]
      | _ => simp [step_block, place?, closer?, write]
  | bind label =>
      simp only [step_bind, closer?, reduceCtorEq, if_false]
      split <;> cases c <;> rfl
  | endBlock name =>
      simp only [step_endBlock, closer?, reduceCtorEq, if_false]
      split <;> cases c <;> rfl
  | jumpBack name =>
      simp only [step_jumpBack, closer?, reduceCtorEq, if_false]
      split <;> cases c <;> rfl
  | _ => cases c <;> rfl

theorem marks_step {a : Assembler} {x : Directive} (hmark : ∀ name, x ≠ .mark name) :
    (a.step x).marks = a.marks := by
  cases x with
  | mark name => exact absurd rfl (hmark name)
  | bind label =>
      rw [step_bind]
      split <;> rfl
  | endBlock name =>
      rw [step_endBlock]
      split <;> rfl
  | jumpBack name =>
      rw [step_jumpBack]
      split <;> rfl
  | _ => rfl

end Assembler

/-! ## Part of a program -/

/-- A directive at the end of a program stands last, or does not matter to a split before it. -/
theorem split_snoc {program before after : List Directive} {x d : Directive}
    (h : program ++ [x] = before ++ d :: after) :
    (before = program ∧ d = x ∧ after = []) ∨
      ∃ shorter, after = shorter ++ [x] ∧ program = before ++ d :: shorter := by
  rcases List.eq_nil_or_concat after with rfl | ⟨shorter, last, rfl⟩
  · obtain ⟨hbefore, hlast⟩ := List.append_inj' h rfl
    cases hlast
    exact .inl ⟨hbefore.symm, rfl, rfl⟩
  · rw [List.concat_eq_append, ← List.cons_append, ← List.append_assoc] at h
    obtain ⟨hbefore, hlast⟩ := List.append_inj' h rfl
    cases hlast
    exact .inr ⟨shorter, List.concat_eq_append, hbefore⟩

/-- The jump or block that `c` will close is `d`, and the assembler remembers where it is. -/
structure OpenAt (a : Assembler) (c : Directive) (early : List Directive) (d : Directive)
    (late : List Directive) : Prop where
  opens : d.closer? = some c
  unclosed : c ∉ late
  /-- Nothing else has been opened under the same name since, -/
  fresh : ∀ d' ∈ late, d'.closer? ≠ some c
  /-- and what had been opened under it before has been closed. -/
  reused : ∀ before d' after, early = before ++ d' :: after → d'.closer? = some c → c ∈ after
  place : a.place? c = some (width early + d.size - 2)

/-- How the assembler and the scope stand to the part of the program that they have seen. -/
structure Mirrors (program : List Directive) (s : Scope) (a : Assembler) : Prop where
  code : a.code.toList = encodeAll (layout program)
  awaited : ∀ c ∈ s.awaited, ∃ early d late, program = early ++ d :: late ∧ OpenAt a c early d late
  opened : ∀ early d late c, program = early ++ d :: late → d.closer? = some c →
    c ∈ late ∨ c ∈ s.awaited
  marked : ∀ name ∈ s.marks, ∃ early late, program = early ++ .mark name :: late ∧
    .mark name ∉ late ∧ a.marks.lookup name = some (width early)

namespace Mirrors

variable {program : List Directive} {s t : Scope} {a : Assembler} {x : Directive}

theorem nil : Mirrors [] {} {} where
  code := rfl
  awaited := by simp
  opened := by simp
  marked := by simp

theorem size_code (h : Mirrors program s a) : a.code.size = width program := by
  rw [← Array.length_toList, h.code, length_encodeAll_layout]

/-- The directives that change the scope only by what they open leave the marks alone. -/
theorem marks_eq_of_step? (hstep : s.step? x = some t) (hmark : ∀ name, x ≠ .mark name) :
    t.marks = s.marks := by
  cases x with
  | mark name => exact absurd rfl (hmark name)
  | _ =>
      simp only [Scope.step?, closer?, isCloser] at hstep
      grind

/-- A jump or block is opened once. -/
theorem awaited_of_opens {c : Directive} (hopens : x.closer? = some c)
    (hstep : s.step? x = some t) : c ∉ s.awaited ∧ t.awaited = c :: s.awaited := by
  cases x with
  | mark name => cases hopens
  | jumpBack name => cases hopens
  | _ =>
      simp only [Scope.step?, hopens] at hstep
      split at hstep
      · cases hstep
      · next h =>
        cases hstep
        exact ⟨h, rfl⟩

/-- What is closed had been opened. -/
theorem awaited_of_closes (hcloses : x.isCloser = true) (hstep : s.step? x = some t) :
    x ∈ s.awaited ∧ t.awaited = s.awaited.filter (· ≠ x) := by
  rw [Scope.step?_closes s hcloses] at hstep
  split at hstep
  · next h =>
    cases hstep
    exact ⟨h, rfl⟩
  · cases hstep

/-- All other directives leave open what is open. -/
theorem awaited_of_neither (hopens : x.closer? = none) (hcloses : x.isCloser = false)
    (hstep : s.step? x = some t) : t.awaited = s.awaited := by
  cases x with
  | jumpBack name =>
      rw [Scope.step?_jumpBack] at hstep
      split at hstep
      · cases hstep
        rfl
      · cases hstep
  | jump label => cases hopens
  | jumpIfTrue label => cases hopens
  | jumpIfFalse label => cases hopens
  | block argc name => cases hopens
  | bind label => cases hcloses
  | endBlock name => cases hcloses
  | _ =>
      cases hstep
      rfl

/-- What is open stays open unless it is the one that is closed. -/
theorem openAt_step {c d : Directive} {early late : List Directive}
    (h : OpenAt a c early d late) (hopens : x.closer? ≠ some c) (hcloses : x ≠ c) :
    OpenAt (a.step x) c early d (late ++ [x]) where
  opens := h.opens
  unclosed := by simp [h.unclosed, hcloses.symm]
  fresh := by
    intro d' hd'
    rcases List.mem_append.mp hd' with hmem | hmem
    · exact h.fresh d' hmem
    · rwa [List.mem_singleton.mp hmem]
  reused := h.reused
  place := by rw [Assembler.place?_step, if_neg hopens, h.place]

/-- A directive that closes nothing is added to what has been read. -/
theorem code_step (h : Mirrors program s a) (hstep : s.step? x = some t)
    (hfits : Fits (program ++ [x])) (hcloses : x.isCloser = false) :
    (a.step x).code.toList = encodeAll (layout (program ++ [x])) := by
  have hlayout : layout (program ++ [x]) = layout program ++ entry program.reverse x [] :=
    layout_snoc fun _ _ _ _ _ hc => .inr (ne_closer hc hcloses)
  rw [hlayout, encodeAll_append, ← h.code]
  refine Assembler.toList_step hcloses (hfits program x [] rfl) ?_
  rintro name rfl
  have hmem : name ∈ s.marks := by
    rw [Scope.step?_jumpBack] at hstep
    split at hstep
    · assumption
    · cases hstep
  obtain ⟨early, late, rfl, hlate, hlookup⟩ := h.marked name hmem
  refine ⟨_, hlookup, ?_⟩
  have hbefore : (early ++ .mark name :: late).reverse =
      late.reverse ++ .mark name :: early.reverse := by simp
  rw [hbefore, distance_jumpBack (by simpa using hlate), h.size_code, width_reverse]
  have hmark : (Directive.mark name).size = 0 := rfl
  simp only [width_append, width_cons, hmark]
  omega

/-- Every directive that opens something appends an instruction. -/
theorem exists_instruction {d c : Directive} (h : d.closer? = some c) (distance : Nat) :
    ∃ i, d.instruction? distance = some i := by
  cases d <;> cases h <;> exact ⟨_, rfl⟩

/-- Closing a jump or block completes its instruction. -/
theorem code_close (h : Mirrors program s a) (hfits : Fits (program ++ [x]))
    {early late : List Directive} {d : Directive} (heq : program = early ++ d :: late)
    (hopen : OpenAt a x early d late) :
    (a.step x).code.toList = encodeAll (layout (program ++ [x])) := by
  have hx : x.instruction? (distance (d :: late).reverse x []) = none := by
    have hclose := isCloser_of_closer? hopen.opens
    cases x <;> cases hclose <;> rfl
  subst heq
  obtain ⟨i, hi⟩ := exists_instruction hopen.opens 0
  obtain ⟨j, hj⟩ := exists_instruction hopen.opens (width late)
  -- The instructions before and after keep their distances; `d` gets its own.
  have hbefore : layoutBetween [] (d :: late) early = layoutBetween [] (d :: (late ++ [x])) early := by
    refine layoutBetween_congr fun before d' after hsplit b => ?_
    have hassoc : after ++ d :: (late ++ [x]) = (after ++ d :: late) ++ [x] := by simp
    rw [hassoc]
    refine (distance_snoc fun c hc => ?_).symm
    by_cases hcx : c = x
    · subst hcx
      exact .inl (List.mem_append_left _ (hopen.reused before d' after hsplit hc))
    · exact .inr (Ne.symm hcx)
  have hafter : layoutBetween (d :: early.reverse) [] (late ++ [x]) =
      layoutBetween (d :: early.reverse) [] late := by
    rw [layoutBetween_append]
    have hnone : layoutBetween (late.reverse ++ d :: early.reverse) [] [x] = [] := by
      have hclose := isCloser_of_closer? hopen.opens
      cases x <;> cases hclose <;> rfl
    rw [hnone, List.append_nil]
    refine layoutBetween_congr fun before d' after hsplit b => ?_
    rw [List.append_nil, List.append_nil]
    refine distance_snoc fun c hc => .inr ?_
    rintro rfl
    exact hopen.fresh d' (by simp [hsplit]) hc
  have hzero : distance early.reverse d late = 0 := by
    rw [distance_of_closer hopen.opens, if_neg hopen.unclosed]
  have hwidth : distance early.reverse d (late ++ [x]) = width late :=
    distance_closed hopen.opens hopen.unclosed []
  have hcode : a.code.toList = encodeAll (layoutBetween [] (d :: late) early) ++ i.encode ++
      encodeAll (layoutBetween (d :: early.reverse) [] late) := by
    rw [h.code, layout, layoutBetween_append]
    simp [layoutBetween, entry, hzero, hi, encodeAll]
  have hlength : (encodeAll (layoutBetween (d :: early.reverse) [] late)).length = width late :=
    length_encodeAll_layoutBetween _ _ _
  have hpatched := Assembler.toList_patch hopen.opens hcode
    (by rw [hopen.place, length_encodeAll_layoutBetween]) hi (by rw [hlength]; exact hj)
    (by
      rw [hlength, ← hwidth]
      exact hfits early d (late ++ [x]) (by simp))
  have hassoc : (early ++ d :: late) ++ [x] = early ++ d :: (late ++ [x]) := by simp
  rw [hpatched, hassoc, layout, layoutBetween_append]
  simp [layoutBetween, entry, hwidth, hj, encodeAll, hafter, hbefore]

/-- One more directive. -/
theorem step (h : Mirrors program s a) (hstep : s.step? x = some t)
    (hfits : Fits (program ++ [x])) : Mirrors (program ++ [x]) t (a.step x) where
  code := by
    cases hcloses : x.isCloser with
    | false => exact h.code_step hstep hfits hcloses
    | true =>
        obtain ⟨hmem, -⟩ := awaited_of_closes hcloses hstep
        obtain ⟨early, d, late, heq, hopen⟩ := h.awaited x hmem
        exact h.code_close hfits heq hopen
  awaited := by
    have hkeep : ∀ c ∈ s.awaited, x.closer? ≠ some c → x ≠ c →
        ∃ early d late, program ++ [x] = early ++ d :: late ∧ OpenAt (a.step x) c early d late := by
      intro c hc hopens hcloses
      obtain ⟨early, d, late, rfl, hopen⟩ := h.awaited c hc
      exact ⟨early, d, late ++ [x], by simp, openAt_step hopen hopens hcloses⟩
    intro c hc
    cases hopens : x.closer? with
    | some c' =>
        obtain ⟨hnew, ht⟩ := awaited_of_opens hopens hstep
        rw [ht] at hc
        rcases List.mem_cons.mp hc with rfl | hold
        · refine ⟨program, x, [], rfl, hopens, by simp, by simp, ?_, ?_⟩
          · intro before d' after heq hd'
            exact (h.opened before d' after c heq hd').resolve_right hnew
          · rw [Assembler.place?_step, if_pos hopens, h.size_code]
        · refine hkeep c hold (fun heq => ?_) (fun heq => ?_)
          · rw [hopens] at heq
            cases heq
            exact hnew hold
          · obtain ⟨_, _, _, _, hopen⟩ := h.awaited c hold
            have hcloser := isCloser_of_closer? hopen.opens
            rw [← heq, isCloser_of_isSome hopens] at hcloser
            cases hcloser
    | none =>
        cases hcloses : x.isCloser with
        | true =>
            obtain ⟨-, ht⟩ := awaited_of_closes hcloses hstep
            rw [ht] at hc
            obtain ⟨hold, hne⟩ := List.mem_filter.mp hc
            exact hkeep c hold (by rw [hopens]; nofun) (by simpa using Ne.symm (by simpa using hne))
        | false =>
            rw [awaited_of_neither hopens hcloses hstep] at hc
            refine hkeep c hc (by rw [hopens]; nofun) (fun heq => ?_)
            obtain ⟨_, _, _, _, hopen⟩ := h.awaited c hc
            exact ne_closer hopen.opens hcloses heq
  opened := by
    intro early d late c heq hd
    rcases split_snoc heq with ⟨rfl, rfl, rfl⟩ | ⟨shorter, rfl, hsplit⟩
    · exact .inr (by rw [(awaited_of_opens hd hstep).2]; simp)
    · rcases h.opened early d shorter c hsplit hd with hmem | hmem
      · exact .inl (List.mem_append_left _ hmem)
      · cases hopens : x.closer? with
        | some c' => exact .inr (by rw [(awaited_of_opens hopens hstep).2]; simp [hmem])
        | none =>
            cases hcloses : x.isCloser with
            | false => exact .inr (by rwa [awaited_of_neither hopens hcloses hstep])
            | true =>
                by_cases hcx : c = x
                · exact .inl (by simp [hcx])
                · refine .inr ?_
                  rw [(awaited_of_closes hcloses hstep).2]
                  simp [hmem, hcx]
  marked := by
    intro name hname
    have hkeep : name ∈ s.marks → x ≠ .mark name →
        (a.step x).marks.lookup name = a.marks.lookup name →
        ∃ early late, program ++ [x] = early ++ .mark name :: late ∧ .mark name ∉ late ∧
          (a.step x).marks.lookup name = some (width early) := by
      intro hmem hne hsame
      obtain ⟨early, late, rfl, hlate, hlookup⟩ := h.marked name hmem
      exact ⟨early, late ++ [x], by simp, by simp [hlate, hne.symm], by rw [hsame, hlookup]⟩
    by_cases hmark : ∃ other, x = .mark other
    · obtain ⟨other, rfl⟩ := hmark
      cases hstep
      by_cases hother : other = name
      · subst hother
        refine ⟨program, [], rfl, by simp, ?_⟩
        rw [← h.size_code]
        exact Assembler.lookup_cons_eq.trans (if_pos rfl)
      · have hmem : name ∈ s.marks := by
          rcases List.mem_cons.mp hname with heq | hmem
          · exact absurd heq.symm hother
          · exact hmem
        exact hkeep hmem (by simpa using hother)
          (Assembler.lookup_cons_eq.trans (if_neg hother))
    · have hne : ∀ other, x ≠ .mark other := fun other heq => hmark ⟨other, heq⟩
      rw [marks_eq_of_step? hstep hne] at hname
      exact hkeep hname (hne name) (by rw [Assembler.marks_step hne])

end Mirrors

variable {program : List Directive} {s : Scope}

/-- The assembler mirrors every program whose distances have room. -/
theorem mirrors_assembler (hscope : scope? program = some s) (hfits : Fits program) :
    Mirrors program s (assembler program) := by
  induction program using List.reverseRecOn generalizing s with
  | nil =>
      cases hscope
      exact .nil
  | append_singleton program x ih =>
      obtain ⟨t, ht, hstep⟩ := scope?_snoc.mp hscope
      rw [assembler_snoc]
      exact (ih ht hfits.of_snoc).step hstep hfits

/-- Part of a closed program has a scope. -/
theorem scope?_of_append {before after : List Directive} (h : scope? (before ++ after) = some s) :
    ∃ t, scope? before = some t := by
  rw [scope?, List.foldlM_append] at h
  obtain ⟨t, ht, -⟩ := Option.bind_eq_some_iff.mp h
  exact ⟨t, ht⟩

theorem Fits.of_append {before after : List Directive} (h : Fits (before ++ after)) :
    Fits before := by
  induction after using List.reverseRecOn with
  | nil => rwa [List.append_nil] at h
  | append_singleton after x ih =>
      rw [← List.append_assoc] at h
      exact ih h.of_snoc

/-- The assembler stands at the width of what it has seen. -/
theorem size_assemble {before after : List Directive} (hscope : scope? (before ++ after) = some s)
    (hfits : Fits (before ++ after)) : (assemble before).size = width before := by
  obtain ⟨t, ht⟩ := scope?_of_append hscope
  exact (mirrors_assembler ht hfits.of_append).size_code

/-! ## Reading it back -/

namespace Instruction

/-- Code that ends with the bytes of directives is read as their instructions. -/
theorem listingFrom_eq {code : Array UInt8} {xs : List UInt8} {before ds : List Directive}
    {fuel : Nat} (hcode : code.toList = xs ++ encodeAll (layoutBetween before [] ds))
    (hxs : xs.length = width before) (hfuel : width ds ≤ fuel)
    (hfits : ∀ early d late, ds = early ++ d :: late →
      distance (early.reverse ++ before) d late ≤ d.reach) :
    listingFrom code fuel (width before) = ⟨layoutBetween before [] ds, code.size, none⟩ := by
  have hsize : code.size = width before + width ds := by
    rw [← Array.length_toList, hcode, List.length_append, length_encodeAll_layoutBetween, hxs]
  induction ds generalizing before xs fuel with
  | nil =>
      rw [width_nil, Nat.add_zero] at hsize
      cases fuel with
      | zero => rw [listingFrom, hsize]; rfl
      | succ fuel =>
          rw [listingFrom, if_pos hsize.le, hsize]
          rfl
  | cons d ds ih =>
      have hlater : ∀ early d' late, ds = early ++ d' :: late →
          distance (early.reverse ++ d :: before) d' late ≤ d'.reach := by
        rintro early d' late rfl
        have := hfits (d :: early) d' late rfl
        rwa [List.reverse_cons, List.append_assoc] at this
      have hfirst := hfits [] d ds rfl
      simp only [layoutBetween, encodeAll_append, List.append_nil] at hcode ⊢
      cases hi : d.instruction? (distance before d ds) with
      | none =>
          have hzero := size_eq_zero hi
          have hentry : entry before d ds = [] := by simp [entry, hi]
          rw [hentry] at hcode ⊢
          have hbefore : width before = width (d :: before) := by rw [width_cons, hzero, Nat.zero_add]
          rw [width_cons, hzero, Nat.zero_add] at hsize hfuel
          rw [hbefore] at hsize hxs ⊢
          exact ih hcode hxs hfuel hlater hsize
      | some i =>
          have hentry : entry before d ds = [(width before, i)] := by simp [entry, hi]
          have hlength := length_encode hi
          have hpos := size_pos hi
          have hbytes : encodeAll [(width before, i)] = i.encode := by simp [encodeAll]
          rw [hentry, hbytes, ← List.append_assoc] at hcode
          rw [hentry]
          rw [width_cons] at hsize hfuel
          obtain ⟨fuel, rfl⟩ : ∃ n, fuel = n + 1 := ⟨fuel - 1, by omega⟩
          have hdecode : decodeAt code (width before) = .ok (i, width (d :: before)) := by
            rw [decodeAt_encode (encodable hi hfirst) (hxs ▸ BytesAt.of_toList hcode), hlength,
              width_cons, Nat.add_comm]
          rw [listingFrom, if_neg (by omega), hdecode]
          have hrest : listingFrom code fuel (width (d :: before)) = _ :=
            ih hcode (by rw [List.length_append, hxs, hlength, width_cons]; omega) (by omega) hlater
              (by rw [width_cons]; omega)
          simp only [hrest, List.singleton_append]

end Instruction

/-- What reading an assembled program gives. -/
structure ReadsBack (program : List Directive) : Prop where
  /-- The instructions that the directives stand for, in order, and nothing else. -/
  listing : Instruction.listing (assemble program) =
    ⟨layout program, (assemble program).size, none⟩
  /-- An instruction stands where the code ended when it was appended. -/
  emitted : ∀ before d after i, program = before ++ d :: after →
    d.instruction? (distance before.reverse d after) = some i →
    ((assemble before).size, i) ∈ layout program ∧
      Instruction.decodeAt (assemble program) (assemble before).size =
        .ok (i, (assemble (before ++ [d])).size)
  /-- A forward jump or block leads to where it was closed. -/
  forward : ∀ before d inside c after, program = before ++ d :: (inside ++ c :: after) →
    d.closer? = some c → c ∉ inside →
    ∃ i next, Instruction.decodeAt (assemble program) (assemble before).size = .ok (i, next) ∧
      i.target? next = some (assemble (before ++ d :: inside)).size
  /-- A jump back leads to its mark. -/
  backward : ∀ before name inside after,
    program = before ++ .mark name :: (inside ++ .jumpBack name :: after) → .mark name ∉ inside →
    ∃ i next, Instruction.decodeAt (assemble program)
        (assemble (before ++ .mark name :: inside)).size = .ok (i, next) ∧
      i.target? next = some (assemble before).size
  /-- Whatever an instruction leads to is an instruction, or the end. -/
  boundary : ∀ pos i next target, (pos, i) ∈ layout program →
    Instruction.decodeAt (assemble program) pos = .ok (i, next) → i.target? next = some target →
    (∃ j, (target, j) ∈ layout program) ∨ target = (assemble program).size

/-- A jump or block that is closed leads to its end. -/
theorem Fits.target_forward (hfits : Fits program) {before inside after : List Directive}
    {d c : Directive} {i : Instruction} (heq : program = before ++ d :: (inside ++ c :: after))
    (hd : d.closer? = some c) (hc : c ∉ inside)
    (hi : d.instruction? (distance before.reverse d (inside ++ c :: after)) = some i) :
    i.target? (width before + d.size) = some (width (before ++ d :: inside)) := by
  have hdistance : distance before.reverse d (inside ++ c :: after) = width inside :=
    distance_closed hd hc after
  have hreach := hfits before d _ heq
  rw [hdistance] at hi hreach
  have hof : (UInt16.ofNat (width inside)).toNat = width inside := by
    rw [UInt16.toNat_ofNat', Nat.mod_eq_of_lt (Nat.lt_of_le_of_lt hreach d.reach_lt)]
  cases d <;> cases hd <;> cases hi <;>
    simp only [Instruction.target?, hof, width_append, width_cons, Nat.add_assoc]

/-- A jump back leads to its mark. -/
theorem Fits.target_backward (hfits : Fits program) {before inside after : List Directive} {name : String}
    {i : Instruction} (heq : program = before ++ .mark name :: (inside ++ .jumpBack name :: after))
    (hname : .mark name ∉ inside)
    (hi : (Directive.jumpBack name).instruction? (distance (before ++ .mark name :: inside).reverse
      (.jumpBack name) after) = some i) :
    i.target? (width (before ++ .mark name :: inside) + (Directive.jumpBack name).size) =
      some (width before) := by
  have hreverse : (before ++ .mark name :: inside).reverse =
      inside.reverse ++ .mark name :: before.reverse := by simp
  have hsplit : program = (before ++ .mark name :: inside) ++ .jumpBack name :: after := by
    simp [heq]
  have hdistance : distance (inside.reverse ++ .mark name :: before.reverse) (.jumpBack name) after =
      width inside.reverse + 2 := distance_jumpBack (by simpa using hname) before.reverse
  have hreach := hfits _ _ _ hsplit
  rw [hreverse, hdistance, width_reverse] at hi hreach
  have hof : (UInt16.ofNat (width inside + 2)).toNat = width inside + 2 := by
    rw [UInt16.toNat_ofNat', Nat.mod_eq_of_lt (Nat.lt_of_le_of_lt hreach (reach_lt _))]
  have hmark : (Directive.mark name).size = 0 := rfl
  have hback : (Directive.jumpBack name).size = 2 := rfl
  cases hi
  simp only [Instruction.target?, hof, width_append, width_cons, hmark, hback]
  congr 1
  omega

section

variable (hclosed : Closed program) (hfits : Fits program)

include hclosed

theorem Closed.scope : ∃ s, scope? program = some s ∧ s.awaited = [] :=
  Option.map_eq_some_iff.mp hclosed

/-- Every jump or block is closed. -/
theorem Closed.closer_mem (hfits : Fits program) {before after : List Directive} {d c : Directive}
    (heq : program = before ++ d :: after) (hd : d.closer? = some c) : c ∈ after := by
  obtain ⟨s, hs, hawaited⟩ := hclosed.scope
  have hopened := (mirrors_assembler hs hfits).opened before d after c heq hd
  rw [hawaited] at hopened
  exact hopened.resolve_right List.not_mem_nil

/-- Every jump back has a mark before it. -/
theorem Closed.mark_mem (hfits : Fits program) {before after : List Directive} {name : String}
    (heq : program = before ++ .jumpBack name :: after) :
    ∃ early late, before = early ++ .mark name :: late ∧ .mark name ∉ late := by
  obtain ⟨s, hs, -⟩ := hclosed.scope
  rw [heq, List.append_cons] at hs
  obtain ⟨t, ht⟩ := scope?_of_append hs
  obtain ⟨t', ht', hstep⟩ := scope?_snoc.mp ht
  have hname : name ∈ t'.marks := by
    rw [Scope.step?_jumpBack] at hstep
    split at hstep
    · assumption
    · cases hstep
  rw [heq] at hfits
  obtain ⟨early, late, hsplit, hlate, -⟩ :=
    (mirrors_assembler ht' hfits.of_append).marked name hname
  exact ⟨early, late, hsplit, hlate⟩

include hfits

theorem Closed.size {before after : List Directive} (heq : program = before ++ after) :
    (assemble before).size = width before := by
  obtain ⟨s, hs, -⟩ := hclosed.scope
  subst heq
  exact size_assemble hs hfits

/-- The instruction of a directive is read where the directive stands. -/
theorem Closed.decodeAt {before after : List Directive} {d : Directive} {i : Instruction}
    (heq : program = before ++ d :: after)
    (hi : d.instruction? (distance before.reverse d after) = some i) :
    Instruction.decodeAt (assemble program) (width before) = .ok (i, width before + d.size) := by
  obtain ⟨s, hs, -⟩ := hclosed.scope
  have hcode : (assemble program).toList = encodeAll (layout program) :=
    (mirrors_assembler hs hfits).code
  have hentry : encodeAll (entry before.reverse d after) = i.encode := by
    simp [entry, hi, encodeAll]
  subst heq
  rw [layout_split, encodeAll_append, encodeAll_append, hentry, ← List.append_assoc] at hcode
  have hbytes := BytesAt.of_toList hcode
  rw [length_encodeAll_layoutBetween] at hbytes
  rw [Instruction.decodeAt_encode (encodable hi (hfits _ _ _ rfl)) hbytes, length_encode hi]

/-- Whatever an instruction leads to is a place between two directives. -/
theorem Closed.target_split {before after : List Directive} {d : Directive} {i : Instruction}
    {target : Nat} (heq : program = before ++ d :: after)
    (hi : d.instruction? (distance before.reverse d after) = some i)
    (htarget : i.target? (width before + d.size) = some target) :
    ∃ early late, program = early ++ late ∧ target = width early := by
  cases hd : d.closer? with
  | some c =>
      obtain ⟨inside, rest, rfl, hc⟩ := List.eq_append_cons_of_mem (hclosed.closer_mem hfits heq hd)
      rw [hfits.target_forward heq hd hc hi] at htarget
      cases htarget
      exact ⟨before ++ d :: inside, c :: rest, by simp [heq], rfl⟩
  | none =>
      cases d with
      | jumpBack name =>
          obtain ⟨early, late, rfl, hlate⟩ := hclosed.mark_mem hfits heq
          have hsplit : program = early ++ .mark name :: (late ++ .jumpBack name :: after) := by
            simp [heq]
          rw [hfits.target_backward hsplit hlate hi] at htarget
          cases htarget
          exact ⟨early, _, hsplit, rfl⟩
      | jump label => cases hd
      | jumpIfTrue label => cases hd
      | jumpIfFalse label => cases hd
      | block argc name => cases hd
      | bind | mark | endBlock => cases hi
      | _ =>
          cases hi
          cases htarget

end

/-- A closed program that fits is read back as its layout, and control goes where labels were bound,
marks were set and blocks were ended. -/
theorem listing_assemble (hclosed : Closed program) (hfits : Fits program) : ReadsBack program where
  listing := by
    obtain ⟨s, hs, -⟩ := hclosed.scope
    have hcode : (assemble program).toList = [] ++ encodeAll (layoutBetween [] [] program) :=
      (mirrors_assembler hs hfits).code
    have hsize : (assemble program).size = width program :=
      hclosed.size hfits (List.append_nil _).symm
    refine Instruction.listingFrom_eq hcode rfl hsize.ge fun early d late heq => ?_
    rw [List.append_nil]
    exact hfits early d late heq
  emitted := by
    intro before d after i heq hi
    have hnext : program = (before ++ [d]) ++ after := by simp [heq]
    rw [hclosed.size hfits heq, hclosed.size hfits hnext]
    refine ⟨mem_layout.mpr ⟨before, d, after, heq, hi, rfl⟩, ?_⟩
    rw [hclosed.decodeAt hfits heq hi]
    simp
  forward := by
    intro before d inside c after heq hd hc
    obtain ⟨i, hi⟩ := Mirrors.exists_instruction hd
      (distance before.reverse d (inside ++ c :: after))
    have hinside : program = (before ++ d :: inside) ++ c :: after := by simp [heq]
    rw [hclosed.size hfits heq, hclosed.size hfits hinside]
    exact ⟨i, _, hclosed.decodeAt hfits heq hi, hfits.target_forward heq hd hc hi⟩
  backward := by
    intro before name inside after heq hname
    have hinside : program = (before ++ .mark name :: inside) ++ .jumpBack name :: after := by
      simp [heq]
    rw [hclosed.size hfits heq, hclosed.size hfits hinside]
    exact ⟨_, _, hclosed.decodeAt hfits hinside rfl,
      hfits.target_backward heq hname rfl⟩
  boundary := by
    intro pos i next target hmem hdecode htarget
    obtain ⟨before, d, after, heq, hi, rfl⟩ := mem_layout.mp hmem
    rw [hclosed.decodeAt hfits heq hi] at hdecode
    cases hdecode
    obtain ⟨early, late, rfl, rfl⟩ := hclosed.target_split hfits heq hi htarget
    rw [hclosed.size hfits (List.append_nil _).symm]
    exact boundary_layout early late

/-- A jump into a block and a jump out of it, with an escaped operand between them and a jump back
over all of it. -/
theorem listing_assemble_overlapping :
    let program := [.mark "again", .jump "in", .block 1 "body", .jumpIfTrue "out", .bind "in",
      .pushLiteral 200, .endBlock "body", .send 3 9, .bind "out", .jumpBack "again",
      .ret .receiver]
    Closed program ∧ Fits program ∧ ReadsBack program :=
  ⟨by decide, by decide, listing_assemble (by decide) (by decide)⟩

end MessageMachine
