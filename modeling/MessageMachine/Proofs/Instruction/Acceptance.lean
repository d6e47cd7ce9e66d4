import MessageMachine.Machine.Method
import MessageMachine.Proofs.Instruction.Grammar
import MessageMachine.Proofs.Machine.Access

/-!
# Which bodies a method may have

`compileMethod` reads the whole body before it makes anything.  `buildMethod` is what it does when the
body is accepted; that can only fail for want of memory or for a literal that is no value
(`ensures_buildMethod`), and never asks about the body again.
-/

namespace MessageMachine

namespace Machine

/-- Makes a compiled method of a specification that has been checked. -/
def buildMethod (spec : MethodSpec) : MachineM Value := do
  let method ← newObject .compiledMethod (Slot.methodLiterals + spec.literals.length)
  let selector ← intern spec.selector
  let code ← onHeap (Heap.allocateBytesFrom .ephemeral (← landmark .byteArray) spec.code)
  storeField method Slot.methodHeader spec.header.toValue
  storeField method Slot.methodSelector selector
  storeField method Slot.methodCode code
  spec.literals.zipIdx.forM fun (literal, i) => do
    storeField method (Slot.methodLiterals + i) (← literalValue literal)
  return method

theorem compileMethod_eq (spec : MethodSpec) (m : Machine) :
    compileMethod spec m = match spec.defect? with
      | some defect => .error (.invalidMethod defect) m
      | none => match (Instruction.listing spec.code).fault with
        | some fault => .error (.malformed fault) m
        | none => buildMethod spec m := by
  unfold compileMethod
  cases spec.defect? with
  | some defect => rfl
  | none =>
    simp only [Instruction.check]
    cases (Instruction.listing spec.code).fault with
    | some fault => rfl
    | none => rfl

/-! ## How making a method can fail -/

/-- The action fails only because an object cannot be made, read or changed. -/
def FailsOnHeap (action : MachineM α) : Prop :=
  ∀ m fault m', action m = .error fault m' → ∃ refusal, fault = .heap refusal

namespace FailsOnHeap

theorem pure (a : α) : FailsOnHeap (Pure.pure a : MachineM α) := by
  rintro m fault m' ⟨⟩

theorem bind {x : MachineM α} {f : α → MachineM β} (hx : FailsOnHeap x)
    (hf : ∀ a, FailsOnHeap (f a)) : FailsOnHeap (x >>= f) := by
  intro m fault m' h
  rw [bind_run] at h
  split at h
  · next a t _ => exact hf a t fault m' h
  · next hrun =>
    cases h
    exact hx _ _ _ hrun

theorem forM {xs : List α} {f : α → MachineM PUnit} (hf : ∀ a, FailsOnHeap (f a)) :
    FailsOnHeap (xs.forM f) := by
  induction xs with
  | nil => exact pure _
  | cons a xs ih => exact bind (hf a) fun _ => ih

theorem landmark (l : Landmark) : FailsOnHeap (Machine.landmark l) := by
  rintro m fault m' ⟨⟩

theorem onHeap (action : HeapM α) : FailsOnHeap (Machine.onHeap action) := by
  intro m fault m' h
  rw [onHeap_run] at h
  split at h
  · cases h
  · cases h
    exact ⟨_, rfl⟩

theorem storeField (v : Value) (i : Nat) (new : Value) :
    FailsOnHeap (Machine.storeField v i new) := onHeap _

theorem intern (name : String) : FailsOnHeap (Machine.intern name) :=
  fun m => onHeap (Boot.intern m.tableConfig m.known name) m

theorem literalValue (literal : Literal) : FailsOnHeap (Machine.literalValue literal) := by
  cases literal with
  | int n =>
    intro m fault m' h
    have hrun : Machine.literalValue (.int n) m = match Value.ofInt n with
        | .ok v => .ok v m
        | .error refusal => .error (.heap (.value refusal)) m := by
      rw [Machine.literalValue]
      cases Value.ofInt n with
      | ok v => rfl
      | error refusal => rfl
    rw [hrun] at h
    split at h
    · cases h
    · cases h
      exact ⟨_, rfl⟩
  | symbol name => exact intern name
  | string text => exact bind (landmark _) fun _ => onHeap _
  | value v => exact pure v
  | nil => exact landmark _
  | true => exact landmark _
  | false => exact landmark _

end FailsOnHeap

/-- Making a method does not fail because of its body. -/
theorem failsOnHeap_buildMethod (spec : MethodSpec) : FailsOnHeap (buildMethod spec) := by
  refine .bind (.bind (.landmark _) fun _ => .bind (.landmark _) fun _ => .onHeap _) fun method => ?_
  refine .bind (.intern _) fun selector => .bind (.landmark _) fun type =>
    .bind (.onHeap _) fun code => ?_
  refine .bind (.storeField _ _ _) fun _ => .bind (.storeField _ _ _) fun _ =>
    .bind (.storeField _ _ _) fun _ => .bind (.forM fun _ => ?_) fun _ => .pure method
  exact .bind (.literalValue _) fun _ => .storeField _ _ _

end Machine

/-! ## The language of the decoder -/

namespace Instruction

open Machine

/-- The decoder accepts exactly the grammar of instructions, one at a time and as whole bodies, and
so does the compiler of methods.  An instruction is read where one of its forms stands and depends on
those bytes only; anything else is reported with its place and first byte.  No bytes have two
parses.  A listing ends at the end of the body or at the first place that does not start a form, and a
method is refused for its body only if there is such a place.  (That a method with code has no code
at all is a defect of its specification, as is the number of its literals or temporaries.) -/
theorem decoder_accepts_grammar (code : Array UInt8) :
    (∀ ip i next, decodeAt code ip = .ok (i, next) ↔
      ip < next ∧ next ≤ code.size ∧ Spells i (code.extract ip next).toList) ∧
    (∀ ip i next, decodeAt code ip = .ok (i, next) → next - ip ≤ 4 ∧
      ∀ other : Array UInt8, other.extract ip next = code.extract ip next →
        decodeAt other ip = .ok (i, next)) ∧
    (∀ ip fault, decodeAt code ip = .error fault →
      fault.ip = ip ∧ fault.byte = code[ip]?.getD 0) ∧
    (∀ parse parse', IsParse parse code.toList → IsParse parse' code.toList → parse' = parse) ∧
    (∃ parse, Reads code (listing code) parse) ∧
    ((listing code).fault = none ↔ Wellformed code.toList) ∧
    (check code = .ok () ↔ Wellformed code.toList) ∧
    (∀ (spec : MethodSpec) (m : Machine), spec.code = code →
      (Wellformed code.toList → ∀ fault m', compileMethod spec m = .error fault m' →
        (∃ defect, spec.defect? = some defect ∧ fault = .invalidMethod defect ∧ m' = m) ∨
        ∃ refusal, fault = .heap refusal) ∧
      (¬Wellformed code.toList →
        (∃ defect, spec.defect? = some defect ∧
          compileMethod spec m = .error (.invalidMethod defect) m) ∨
        ∃ malformed, (listing code).fault = some malformed ∧
          compileMethod spec m = .error (.malformed malformed) m)) := by
  obtain ⟨parse, hreads⟩ := reads_listing code
  refine ⟨fun ip i next => decodeAt_eq_ok_iff, ?part, fun ip fault => decodeAt_error,
    fun parse parse' => IsParse.unique, ⟨parse, hreads⟩, hreads.fault_eq_none, check_eq_ok code,
    ?method⟩
  case part =>
    intro ip i next h
    obtain ⟨hlt, hle, hspells⟩ := decodeAt_eq_ok_iff.mp h
    have hlength := hspells.length_bounds.2
    rw [Array.length_toList, Array.size_extract, Nat.min_eq_left hle] at hlength
    refine ⟨hlength, fun other hsame => decodeAt_eq_ok_iff.mpr ⟨hlt, ?_, hsame ▸ hspells⟩⟩
    have hsize := congrArg Array.size hsame
    simp only [Array.size_extract] at hsize
    omega
  case method =>
    rintro spec m rfl
    rw [compileMethod_eq, ← hreads.fault_eq_none]
    cases spec.defect? with
    | some defect =>
      refine ⟨fun _ fault m' h => ?_, fun _ => .inl ⟨defect, rfl, rfl⟩⟩
      cases h
      exact .inl ⟨defect, rfl, rfl, rfl⟩
    | none =>
      cases hfault : (listing spec.code).fault with
      | none =>
        exact ⟨fun _ fault m' h => .inr (failsOnHeap_buildMethod spec m fault m' h),
          fun hnot => absurd rfl hnot⟩
      | some malformed =>
        exact ⟨fun hnone => absurd hnone (Option.some_ne_none malformed),
          fun _ => .inr ⟨malformed, rfl, rfl⟩⟩

/-- The last jump of a body has lost its second byte. -/
theorem decoder_accepts_grammar_truncated :
    decodeAt #[0xe2, 0x07, 0x13] 0 = .ok (.pushLiteral 7, 2) ∧
    (∀ i bytes, Spells i bytes → ¬bytes <+: [0x13]) ∧
    ¬Wellformed [0xe2, 0x07, 0x13] := by
  obtain ⟨hread, hpart, hfault, -, ⟨parse, hreads⟩, hwhole, -⟩ :=
    decoder_accepts_grammar #[0xe2, 0x07, 0x13]
  have hlisting : (listing #[0xe2, 0x07, 0x13]).fault = some ⟨2, 0x13, .truncatedJump⟩ := by
    decide
  have hoffset : (listing #[0xe2, 0x07, 0x13]).offset = 2 := by decide
  have hstopped := (hreads.stopped _ hlisting).2.2
  rw [hoffset] at hstopped
  have hspelled : Spells (.pushLiteral 7) [0xe2, 0x07] := .pushLiteral (.escaped 7)
  refine ⟨(hread 0 _ 2).mpr ⟨by decide, by decide, hspelled⟩, hstopped, ?_⟩
  rw [← hwhole, hlisting]
  rintro ⟨⟩

end Instruction

end MessageMachine
