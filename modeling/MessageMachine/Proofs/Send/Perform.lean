import MessageMachine.Proofs.Heap.Replacement
import MessageMachine.Proofs.Machine.Operands
import MessageMachine.Proofs.Send.Accessor

/-!
# Computed messages

`perform:` takes the selector from among its operands and sends it.  `dropSelector` is what a program
could do instead before it sends the selector itself: drop the selector and the arguments, and push the
arguments again.

* `pushed_run`, `exists_shifted`: pushing values overwrites the fields above the stack pointer by them,
  and so does the transfer of `perform:` with the arguments, which it reads from one place higher up
  before it writes any.  The two leave the same heap, not only the same stack.
* `perform_sends`: so `perform:` is the send of its selector, whatever that send then reaches.  Only a
  refused access makes a difference, by which `perform:` declines.
-/

namespace MessageMachine.Machine

variable {m m' : Machine} {store : MachineM Unit → MachineM Unit} {receiver selector : Value}
  {arguments : List Value}

/-! ## The operands -/

/-- The frame of the active context has `vs` on top of its stack. -/
structure Operands (m : Machine) (vs : List Value) : Prop where
  room : m.Roomy 0
  high : m.regs.stackBase + vs.length ≤ m.regs.sp + 1
  value : ∀ j v, vs[j]? = some v →
    m.heap.fetchField m.regs.activeContext (m.regs.sp + 1 - vs.length + j) = .ok v

/-- The machine with `n` values dropped. -/
def dropped (m : Machine) (n : Nat) : Machine :=
  { m with regs := { m.regs with sp := m.regs.sp - n } }

/-- Drops the selector and the arguments, and pushes the arguments again. -/
def dropSelector (arguments : List Value) : MachineM Unit := do
  popN (arguments.length + 1)
  arguments.forM push

/-! ## Closing the gap -/

/-- The machine with other fields in the active context and another stack pointer. -/
def withFrame (m : Machine) (a : Handle) (header : Header) (xs : Array Value) (sp : Nat) : Machine :=
  { m with heap := m.heap.replace a header xs, regs := { m.regs with sp } }

theorem withFrame_withFrame (a : Handle) (header : Header) (xs ys : Array Value) (i j : Nat) :
    (m.withFrame a header xs i).withFrame a header ys j = m.withFrame a header ys j := by
  unfold withFrame
  rw [Heap.replace_replace]

/-- The active context is an object with fields, as many as the stack may grow to. -/
theorem Roomy.exists_frame {n : Nat} (hroom : m.Roomy n) : ∃ a header xs,
    m.regs.activeContext = .object a ∧ m.heap.resolve a = .ok ⟨header, .fields xs⟩ ∧
      xs.size = m.regs.stackLimit := by
  obtain ⟨xs, hfields, hsize⟩ := Heap.fieldCount_eq_ok.mp hroom.context
  obtain ⟨a, ⟨header, body⟩, hactive, ho, rfl⟩ := Heap.fields_eq_ok.mp hfields
  exact ⟨a, header, xs, hactive, ho, hsize⟩

/-- Pushing overwrites the fields above the stack pointer. -/
theorem pushed_run {a : Handle} {header : Header} {xs : Array Value} {vs : List Value}
    (hactive : m.regs.activeContext = .object a)
    (ho : m.heap.resolve a = .ok ⟨header, .fields xs⟩) (hsize : xs.size = m.regs.stackLimit)
    (hroom : m.regs.sp + vs.length < m.regs.stackLimit) :
    vs.forM push m = .ok () (m.withFrame a header (Heap.overwrite xs (m.regs.sp + 1) vs.toArray)
      (m.regs.sp + vs.length)) := by
  induction vs generalizing m xs with
  | nil =>
      have hsame : m.heap.replace a header (Heap.overwrite xs (m.regs.sp + 1) #[]) = m.heap := by
        rw [Heap.overwrite_empty, Heap.replace_self ho]
      show EStateM.Result.ok () m = .ok () _
      unfold withFrame
      rw [hsame]
      rfl
  | cons v vs ih =>
      have hlength : (v :: vs).length = vs.length + 1 := rfl
      let m₁ := m.withFrame a header (xs.setIfInBounds (m.regs.sp + 1) v) (m.regs.sp + 1)
      have hpush : push v m = .ok () m₁ := by
        rw [push_run, if_neg (by omega), hactive]
        have hstore := Heap.storeField_run ho (i := m.regs.sp + 1) (by omega) v
        exact bind_eq_of_ok (onHeap_eq_ok.mpr ⟨_, hstore, rfl⟩)
      have hrest : vs.forM push m₁ = .ok () (m₁.withFrame a header
          (Heap.overwrite (xs.setIfInBounds (m.regs.sp + 1) v) (m.regs.sp + 1 + 1) vs.toArray)
          (m.regs.sp + 1 + vs.length)) := by
        refine ih (m := m₁) hactive (Heap.resolve_replace ho _) ?_ ?_
        · rw [Array.size_setIfInBounds]
          exact hsize
        · show m.regs.sp + 1 + vs.length < m.regs.stackLimit
          omega
      show (push v >>= fun _ => vs.forM push) m = _
      rw [bind_eq_of_ok hpush, hrest, withFrame_withFrame, Heap.overwrite_cons, hlength,
        show m.regs.sp + 1 + vs.length = m.regs.sp + (vs.length + 1) by omega]

namespace Operands

variable {vs : List Value}

/-- An operand stands at its depth. -/
theorem stackValue (ho : m.Operands vs) {depth : Nat} {v : Value} (hdepth : depth < vs.length)
    (hv : vs[vs.length - 1 - depth]? = some v) : m.stackValue depth = .ok v := by
  have hhigh := ho.high
  have hvalue := ho.value _ v hv
  rw [show m.regs.sp + 1 - vs.length + (vs.length - 1 - depth) = m.regs.sp - depth by omega] at hvalue
  exact stackValue_of_fetchField (by omega) hvalue

theorem popN_run (ho : m.Operands vs) {n : Nat} (hn : n ≤ vs.length) :
    popN n m = .ok () (m.dropped n) := by
  have hhigh := ho.high
  rw [Machine.popN_run, if_neg (by omega)]
  rfl

end Operands

section Performing

variable (ho : m.Operands (receiver :: selector :: arguments))

include ho

/-- The fields above the selector are the arguments. -/
theorem Operands.extract_eq {a : Handle} {header : Header} {xs : Array Value}
    (hactive : m.regs.activeContext = .object a)
    (hframe : m.heap.resolve a = .ok ⟨header, .fields xs⟩) (hsize : xs.size = m.regs.stackLimit) :
    xs.extract (m.regs.sp + 1 - arguments.length)
      (m.regs.sp + 1 - arguments.length + arguments.length) = arguments.toArray := by
  have hhigh := ho.high
  have hlimit := ho.room.limit
  have hlength : (receiver :: selector :: arguments).length = arguments.length + 2 := rfl
  apply Array.ext_getElem?
  intro j
  rw [Array.getElem?_extract]
  by_cases hj : j < arguments.length
  · have hargument : arguments.toArray[j]? = some arguments[j] := by simp [hj]
    rw [if_pos (by omega), hargument]
    have hvalue := ho.value (j + 2) arguments[j] (List.getElem?_eq_getElem hj)
    rw [hlength, show m.regs.sp + 1 - (arguments.length + 2) + (j + 2) =
      m.regs.sp + 1 - arguments.length + j by omega, hactive] at hvalue
    obtain ⟨ys, hys, hvalue⟩ := Heap.fetchField_eq_ok.mp hvalue
    obtain ⟨b, o, hb, hresolve, hbody⟩ := Heap.fields_eq_ok.mp hys
    cases hb
    cases hframe.symm.trans hresolve
    cases hbody
    exact hvalue
  · have hargument : arguments.toArray[j]? = none := by simp [hj]
    rw [if_neg (by omega), hargument]

/-- The transfer of `perform:`, and dropping what is left on top, comes to dropping the selector and
the arguments and pushing the arguments again. -/
theorem exists_shifted : ∃ m₁, dropSelector arguments m = .ok () m₁ ∧
    (do
      onHeap (Heap.transferFields m.regs.activeContext (m.regs.sp - arguments.length + 1)
        m.regs.activeContext (m.regs.sp - arguments.length) arguments.length)
      let _ ← pop : MachineM Unit) m = .ok () m₁ := by
  obtain ⟨a, header, xs, hactive, hframe, hsize⟩ := ho.room.exists_frame
  have hhigh := ho.high
  have hlimit := ho.room.limit
  have hlength : (receiver :: selector :: arguments).length = arguments.length + 2 := rfl
  let slot := m.regs.sp - arguments.length
  let moved := Heap.overwrite xs slot arguments.toArray
  refine ⟨m.withFrame a header moved (m.regs.sp - 1), ?_, ?_⟩
  · have hpush : arguments.forM push (m.dropped (arguments.length + 1)) =
        .ok () ((m.dropped (arguments.length + 1)).withFrame a header
          (Heap.overwrite xs (m.regs.sp - (arguments.length + 1) + 1) arguments.toArray)
          (m.regs.sp - (arguments.length + 1) + arguments.length)) := by
      refine pushed_run (m := m.dropped (arguments.length + 1)) hactive hframe hsize ?_
      show m.regs.sp - (arguments.length + 1) + arguments.length < m.regs.stackLimit
      omega
    unfold dropSelector
    rw [bind_eq_of_ok (ho.popN_run (by omega)), hpush,
      show m.regs.sp - (arguments.length + 1) + 1 = slot by omega,
      show m.regs.sp - (arguments.length + 1) + arguments.length = m.regs.sp - 1 by omega]
    rfl
  · have hextract : xs.extract (slot + 1) (slot + 1 + arguments.length) = arguments.toArray := by
      have heq := ho.extract_eq hactive hframe hsize
      rwa [show m.regs.sp + 1 - arguments.length = slot + 1 by omega] at heq
    let m₂ := m.withFrame a header moved m.regs.sp
    have htransfer : onHeap (Heap.transferFields m.regs.activeContext (slot + 1)
        m.regs.activeContext slot arguments.length) m = .ok () m₂ := by
      rw [hactive]
      refine onHeap_eq_ok.mpr ⟨_, Heap.transferFields_run hframe (by omega) (by omega), ?_⟩
      rw [hextract]
      rfl
    have htop : ∃ v, m₂.stackValue 0 = .ok v := by
      have hsize₂ : moved.size = xs.size := by simp [moved, Heap.overwrite]
      have hresolve := Heap.resolve_replace hframe moved
      refine ⟨moved[m.regs.sp], stackValue_of_fetchField ?_ ?_⟩
      · show m.regs.stackBase ≤ m.regs.sp
        omega
      · show m₂.heap.fetchField m.regs.activeContext m.regs.sp = _
        rw [hactive]
        exact Heap.fetchField_eq_ok.mpr ⟨moved, Heap.fields_eq_ok.mpr ⟨a, _, rfl, hresolve, rfl⟩,
          Array.getElem?_eq_getElem (by omega)⟩
    obtain ⟨v, hv⟩ := htop
    rw [bind_eq_of_ok htransfer]
    exact bind_eq_of_ok (pop_run_ok hv)

end Performing

/-! ## Sending the selector -/

/-- The primitives that send a computed selector. -/
def performing : List Primitive := [.perform, .performWith, .performWithWith]

theorem run_performing {p : Primitive} (hp : p ∈ performing) (send : Value → MachineM Unit) :
    p.run store send = perform send p.arity := by
  simp only [performing, List.mem_cons, List.not_mem_nil, or_false] at hp
  obtain rfl | rfl | rfl := hp <;> rfl

/-- `perform:` goes on as a send from the machine with the selector dropped. -/
theorem exists_perform_run (ho : m.Operands (receiver :: selector :: arguments))
    (hsymbol : m.isSymbol selector = .ok true) (send : Value → MachineM Unit) : ∃ m₁,
    dropSelector arguments m = .ok () m₁ ∧
      perform send (arguments.length + 1) m = (send selector >>= fun _ => pure true) m₁ := by
  obtain ⟨m₁, hdrop, hshift⟩ := exists_shifted ho
  refine ⟨m₁, hdrop, ?_⟩
  have hhigh := ho.high
  have hlength : (receiver :: selector :: arguments).length = arguments.length + 2 := rfl
  have hselector : m.argument (arguments.length + 1) 0 = .ok selector :=
    ho.stackValue (by omega) (by simp)
  have hslot : m.regs.sp + 1 - (arguments.length + 1) = m.regs.sp - arguments.length := by omega
  obtain ⟨_, m₂, htransfer, hrest⟩ := bind_eq_ok.mp hshift
  obtain ⟨v, m₃, hpop, hdone⟩ := bind_eq_ok.mp hrest
  have hlast : m₃ = m₁ := (pure_eq_ok.mp hdone).2
  rw [hlast] at hpop
  calc perform send (arguments.length + 1) m
      = (do
          onHeap (Heap.transferFields m.regs.activeContext
            (m.regs.sp + 1 - (arguments.length + 1) + 1) m.regs.activeContext
            (m.regs.sp + 1 - (arguments.length + 1)) arguments.length)
          let _ ← pop
          send selector
          return true) m := by
        unfold perform
        rw [bind_eq_of_ok (read_eq_ok.mpr ⟨hselector, rfl⟩),
          bind_eq_of_ok (read_eq_ok.mpr ⟨hsymbol, rfl⟩)]
        rfl
    _ = (pop >>= fun _ => send selector >>= fun _ => pure true) m₂ := by
        rw [hslot]
        exact bind_eq_of_ok htransfer
    _ = (send selector >>= fun _ => pure true) m₁ := bind_eq_of_ok hpop

/-- `perform:` is a send of the computed selector.  Let the receiver, a symbol and the other arguments
be on the stack, as many as the primitive takes, and let `m₁` be the machine with the symbol dropped
from among them.  The primitive succeeds where sending the symbol from `m₁` does, with the same
machine, and it fails where that send fails so that no primitive can go on, with the same fault. -/
theorem perform_sends (store : MachineM Unit → MachineM Unit) {p : Primitive} (hp : p ∈ performing)
    (harity : p.arity = arguments.length + 1)
    (hoperands : m.Operands (receiver :: selector :: arguments))
    (hsymbol : m.isSymbol selector = .ok true) : ∃ m₁,
    dropSelector arguments m = .ok () m₁ ∧
    Pushed (m.dropped (arguments.length + 1)) arguments m₁ ∧
    (∀ m', tryPrimitive store (send store · arguments.length) p.number p.arity m = .ok true m' ↔
      send store selector arguments.length m₁ = .ok () m') ∧
    ∀ fault m', fault.abortsPrimitive = true →
      (tryPrimitive store (send store · arguments.length) p.number p.arity m = .error fault m' ↔
        send store selector arguments.length m₁ = .error fault m') := by
  obtain ⟨m₁, hdrop, hrun⟩ := exists_perform_run hoperands hsymbol (send store · arguments.length)
  have hpushed : Pushed (m.dropped (arguments.length + 1)) arguments m₁ := by
    have hlength : (receiver :: selector :: arguments).length = arguments.length + 2 := rfl
    have hhigh := hoperands.high
    have hlimit := hoperands.room.limit
    have hroom : (m.dropped (arguments.length + 1)).Roomy arguments.length := by
      refine ⟨hoperands.room.base, ?_, ?_, hoperands.room.context⟩
      · show m.regs.stackBase ≤ m.regs.sp - (arguments.length + 1) + 1
        omega
      · show m.regs.sp - (arguments.length + 1) + arguments.length < m.regs.stackLimit
        omega
    obtain ⟨m₂, hpush, hpushed⟩ := exists_pushed hroom
    have hdrop₂ : dropSelector arguments m = .ok () m₂ :=
      (bind_eq_of_ok (hoperands.popN_run (by omega))).trans hpush
    cases hdrop.symm.trans hdrop₂
    exact hpushed
  have htry : tryPrimitive store (send store · arguments.length) p.number p.arity m =
      attempt (perform (send store · arguments.length) (arguments.length + 1)) m := by
    rw [tryPrimitive_number, run_performing hp, harity]
  refine ⟨m₁, hdrop, hpushed, ?_, ?_⟩
  · intro m'
    rw [htry, attempt_eq_true, hrun]
    constructor
    · intro hok
      obtain ⟨_, m₂, hsend, hdone⟩ := bind_eq_ok.mp hok
      obtain ⟨-, hlast⟩ := pure_eq_ok.mp hdone
      rwa [hlast] at hsend
    · exact fun hsend => bind_eq_of_ok hsend
  · intro fault m' haborts
    rw [htry, attempt_eq_error haborts, hrun]
    constructor
    · intro herror
      rcases error_of_bind herror with hsend | ⟨_, m₂, -, hdone⟩
      · exact hsend
      · cases hdone
    · exact fun hsend => bind_eq_of_error hsend

/-- The selector of a small machine: the code is a byte buffer, which the machine takes for a symbol. -/
def computed : Value := .bytes ⟨.ephemeral, 0, 0, 3⟩

/-- A small machine that is about to perform a method with two arguments, which stand above its
selector. -/
def computing : Machine :=
  let m := sending .setter 0 (ref 4) [ref 4, computed, .int 7, .int 8]
  let twoArguments := (MethodHeader.bytecodes 2 2).toValue
  { m with
    heap := stateAfter (Heap.storeField (ref 2) Slot.methodHeader twoArguments m.heap)
    known := m.known.set .symbol (.int 0)
    cache := m.cache.put (.int 0) computed (ref 2) }

theorem operands_computing : computing.Operands [ref 4, computed, .int 7, .int 8] := by
  refine ⟨by constructor <;> decide, by decide, ?_⟩
  intro j v hv
  match j, hv with
  | 0, rfl => rfl
  | 1, rfl => rfl
  | 2, rfl => rfl
  | 3, rfl => rfl

/-- The method that is performed has the two arguments in their order. -/
theorem perform_sends_computing : ∃ m',
    tryPrimitive id (send id · 2) Primitive.performWithWith.number 3 computing = .ok true m' ∧
      m'.regs.method = ref 2 ∧
      m'.heap.fetchField m'.regs.activeContext Slot.contextTail = .ok (.int 7) ∧
      m'.heap.fetchField m'.regs.activeContext (Slot.contextTail + 1) = .ok (.int 8) := by
  have hsymbol : computing.isSymbol computed = .ok true := rfl
  obtain ⟨m₁, hdrop, -, hok, -⟩ := perform_sends id (p := .performWithWith) (by decide) rfl
    operands_computing hsymbol
  obtain ⟨m', hsend, hmethod, hfirst, hsecond⟩ :
      ∃ m', (dropSelector [.int 7, .int 8] >>= fun _ => send id computed 2) computing = .ok () m' ∧
        m'.regs.method = ref 2 ∧
        m'.heap.fetchField m'.regs.activeContext Slot.contextTail = .ok (.int 7) ∧
        m'.heap.fetchField m'.regs.activeContext (Slot.contextTail + 1) = .ok (.int 8) :=
    ⟨_, rfl, rfl, rfl, rfl⟩
  rw [bind_eq_of_ok hdrop] at hsend
  exact ⟨m', (hok m').mpr hsend, hmethod, hfirst, hsecond⟩

end MessageMachine.Machine
