import MessageMachine.Machine.Method
import MessageMachine.Proofs.Schedule.Quiet

/-!
# What compiling a method touches

Compiling makes an object for the method and one for its code, interns the selector and the symbols
among the literals, makes the strings among them, and stores into the method it has made.  It does
nothing else, also when it fails.

`Compiles P Fit` says that `P` survives all of this.  `Fit` describes the method: what is made fits,
and only what fits is stored into.
-/

namespace MessageMachine.Machine

variable {P : Machine → Prop} {Fit : Value → Prop}

/-- `P` survives what compiling a method does. -/
structure Compiles (P : Machine → Prop) (Fit : Value → Prop) : Prop where
  intern : ∀ name, Keeps P (intern name)
  buffer : ∀ l ∈ [Landmark.string, .byteArray], ∀ type bytes m, P m → m.known l = type →
    P (stateAfter (onHeap (Heap.allocateBytesFrom .ephemeral type bytes) m))
  make : ∀ count, Ensures P (newObject .compiledMethod count) (fun v m => P m ∧ Fit v) fun _ => P
  fill : ∀ v i new, Fit v → Keeps P (storeField v i new)

namespace Compiles

variable (hc : Compiles P Fit)
include hc

theorem keeps_buffer {l : Landmark} (hl : l ∈ [Landmark.string, .byteArray])
    (bytes : Array UInt8) : Keeps P
      (landmark l >>= fun type => onHeap (Heap.allocateBytesFrom .ephemeral type bytes)) :=
  fun m hm => hc.buffer l hl _ bytes m hm rfl

theorem keeps_literalValue (literal : Literal) : Keeps P (literalValue literal) := by
  cases literal with
  | int n => exact keeps_lift _
  | symbol name => exact hc.intern name
  | string text => exact hc.keeps_buffer (by decide) _
  | value v => exact Keeps.pure _
  | nil => exact keeps_landmark _
  | true => exact keeps_landmark _
  | false => exact keeps_landmark _

theorem ensures_compileMethod (spec : MethodSpec) : Ensures P (compileMethod spec)
    (fun v m => P m ∧ Fit v) fun _ => P := by
  unfold compileMethod
  split
  · exact Ensures.throw fun _ => id
  refine Ensures.bind (keeps_lift _).ensures fun _ => ?_
  refine Ensures.bind (hc.make _) fun method => ?_
  rintro m ⟨hm, hmethod⟩
  have hstore : ∀ i new, Keeps P (storeField method i new) := fun i new =>
    hc.fill method i new hmethod
  refine Ensures.bind ((hc.intern _).frame (Fit method)) (fun selector => ?_) m ⟨hm, hmethod⟩
  refine Ensures.bind (ensures_landmark _ .byteArray _) fun byteArray => ?_
  rintro m₁ ⟨⟨hm₁, -⟩, hbyteArray⟩
  refine Ensures.bind (Q := fun _ m => P m ∧ Fit method) ?_ (fun code => ?_) m₁ rfl
  · refine Ensures.of_forall ?_
    rintro _ rfl
    refine (Ensures.of_after (Q := P) ?_).weaken (fun _ => id) (fun _ _ h => ⟨h, hmethod⟩) fun _ _ => id
    rintro _ rfl
    exact hc.buffer .byteArray (by decide) _ _ m₁ hm₁ hbyteArray.symm
  refine Ensures.bind ((hstore _ _).frame _) fun _ => Ensures.bind ((hstore _ _).frame _) fun _ =>
    Ensures.bind ((hstore _ _).frame _) fun _ => ?_
  refine Ensures.bind (Keeps.frame (Keeps.forM fun literal _ => ?_) _)
    fun _ => Ensures.pure fun _ => id
  exact Keeps.bind (hc.keeps_literalValue _) fun v => hstore _ v

end Compiles

end MessageMachine.Machine
