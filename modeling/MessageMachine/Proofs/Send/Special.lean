import MessageMachine.Proofs.Creation
import MessageMachine.Proofs.Send.Declining
import MessageMachine.Proofs.Send.Unknown

/-!
# Special sends

A special send tries its primitive before it looks at the type of the receiver, and a send looks up a
method, whose primitive it then tries.  `specialSend_agrees` says that the two come to the same if the
lookup finds the method of the kernel or the primitive declines.

The proof follows the primitive.

* If it does not decline, the method that the send finds tries the same primitive
  (`KernelMethod.primitive_eq`), on a machine with another cache, which no primitive reads
  (`Primitive.uncached_run`).
* If it declines and has changed nothing, a special send goes on as a send from the same machine
  (`specialSend_of_declines`).
* The evaluation of a block can decline after a context has been made for it.  A special send then makes
  another one, for which there has to be room, and ends with the same but for the places of its objects
  (`trails_send`), also if the message is not understood (`trails_send_of_unknown`).
-/

namespace MessageMachine

/-! ## The methods of the kernel -/

namespace KernelMethod

theorem decode_encode (p : Primitive) : MethodHeader.decode
    (MethodHeader.primitive (.ofNat p.number) (.ofNat p.arity) (.ofNat p.arity)).encode =
      MethodHeader.primitive (.ofNat p.number) (.ofNat p.arity) (.ofNat p.arity) := by
  cases p <;> decide +kernel

theorem ofValue_header (k : KernelMethod) :
    MethodHeader.ofValue k.spec.header.toValue = .ok k.spec.header :=
  congrArg Except.ok (decode_encode k.primitive)

/-- The kernel has one primitive for each selector of a special send, and for equality besides that
of integers also identity. -/
theorem primitive_eq {entry : SpecialSelector} (hentry : entry ∈ SpecialSelector.table)
    {p : Primitive} (hp : entry.primitive = some p) {k : KernelMethod} (hk : k ∈ table)
    (hselector : k.selector = entry.name) :
    k.primitive = p ∨ p = .intEqual ∧ k.primitive = .identical := by
  have hall : ∀ entry ∈ SpecialSelector.table.toList, ∀ p ∈ entry.primitive, ∀ k ∈ table,
      k.selector = entry.name → k.primitive = p ∨ p = .intEqual ∧ k.primitive = .identical := by
    decide +kernel
  exact hall entry (by simpa using hentry) p hp k hk hselector

end KernelMethod

theorem SpecialSelector.arity_eq {entry : SpecialSelector} (hentry : entry ∈ table) {p : Primitive}
    (hp : entry.primitive = some p) : entry.arity = p.arity := by
  have hall : ∀ entry ∈ table.toList, ∀ p ∈ entry.primitive, entry.arity = p.arity := by decide
  exact hall entry (by simpa using hentry) p hp

namespace Machine

variable {m m' : Machine} {store : MachineM Unit → MachineM Unit}

/-- The method is one that the kernel has for a selector. -/
def IsKernelMethod (h : Heap) (name : String) (method : Value) : Prop :=
  ∃ k ∈ KernelMethod.table, k.selector = name ∧
    h.fetchField method Slot.methodHeader = .ok k.spec.header.toValue

/-- A method of the kernel is invoked by trying its primitive. -/
theorem invoke_kernel {send : Value → MachineM Unit} {method : Value} {k : KernelMethod}
    (hheader : m.heap.fetchField method Slot.methodHeader = .ok k.spec.header.toValue) :
    invoke store send method k.primitive.arity m = (do
      unless ← attempt (k.primitive.run store send) do
        activateMethod method k.spec.header k.primitive.arity) m := by
  have hread : read (fun m => do
      return (← MethodHeader.ofValue (← m.heap.fetchField method Slot.methodHeader) :
        MethodHeader)) m = .ok k.spec.header m := by
    refine read_eq_ok.mpr ⟨reading_bind_eq_ok.mpr ⟨_, liftFault_eq_ok.mpr hheader, ?_⟩, rfl⟩
    rw [k.ofValue_header]
    rfl
  have harguments : k.spec.header.arguments.toNat = k.primitive.arity := by
    obtain ⟨type, onType, selector, p⟩ := k
    cases p <;> rfl
  have htry : tryPrimitive store send k.spec.header.index.toNat k.primitive.arity =
      attempt (k.primitive.run store send) := by
    have hnumber : k.spec.header.index.toNat = k.primitive.number := by
      obtain ⟨type, onType, selector, p⟩ := k
      cases p <;> rfl
    rw [hnumber]
    unfold tryPrimitive
    rw [Primitive.ofNumber?_number]
    exact if_pos rfl
  refine (bind_eq_of_ok hread).trans ?_
  dsimp only
  rw [if_pos harguments, ← htry]
  rfl

/-! ## Special sends -/

/-- The two outcomes differ in nothing but the method cache. -/
inductive SameButCache : EStateM.Result Fault Machine α → EStateM.Result Fault Machine α → Prop where
  | ok (a : α) (m : Machine) (c : MethodCache) : SameButCache (.ok a m) (.ok a (m.withCache c))
  | error (fault : Fault) (m : Machine) (c : MethodCache) :
    SameButCache (.error fault m) (.error fault (m.withCache c))

theorem SameButCache.refl (r : EStateM.Result Fault Machine α) : SameButCache r r := by
  cases r with
  | ok a m => exact .ok a m m.cache
  | error fault m => exact .error fault m m.cache

/-- The lookup of a selector in the type of the receiver below `argc` arguments finds a method, which is
one that the kernel has under a name. -/
def FindsKernelMethod (m : Machine) (name : String) (selector : Value) (argc : Nat) (method : Value) :
    Prop :=
  ∃ receiver type t, m.stackValue argc = .ok receiver ∧ m.classOf receiver = .ok type ∧
    lookup type selector m = .ok (some method) t ∧ IsKernelMethod m.heap name method

theorem tryPrimitive_number {send : Value → MachineM Unit} (p : Primitive) :
    tryPrimitive store send p.number p.arity = attempt (p.run store send) := by
  unfold tryPrimitive
  rw [Primitive.ofNumber?_number]
  exact if_pos rfl

/-- A send invokes the method that it finds. -/
theorem send_run {receiver type selector method : Value} {argc : Nat} {t : Machine}
    (hreceiver : m.stackValue argc = .ok receiver) (htype : m.classOf receiver = .ok type)
    (hlookup : lookup type selector m = .ok (some method) t) :
    ∃ nested, send store selector argc m = invoke store nested method argc t := by
  have hdispatch : ∀ unknown nested, dispatch store unknown nested argc selector m =
      invoke store nested method argc t := by
    intro unknown nested
    refine (bind_eq_of_ok (read_eq_ok.mpr ⟨hreceiver, rfl⟩)).trans ?_
    refine (bind_eq_of_ok (read_eq_ok.mpr ⟨htype, rfl⟩)).trans ?_
    exact bind_eq_of_ok hlookup
  cases argc with
  | zero => exact ⟨_, hdispatch _ _⟩
  | succ argc => exact ⟨_, hdispatch _ _⟩

/-- What a special send does first: it tries its primitive, if it has one. -/
def tryFirst (store : MachineM Unit → MachineM Unit) (entry : SpecialSelector) : MachineM Bool :=
  match entry.primitive with
  | some p => tryPrimitive store (send store · (entry.arity - 1)) p.number entry.arity
  | none => return false

theorem specialSend_run {index : UInt8} {entry : SpecialSelector}
    (hentry : SpecialSelector.table[index.toNat]? = some entry) :
    specialSend store index entry.arity = (do
      unless ← tryFirst store entry do
        send store (← fetchField (← landmark .specialSelectors) index.toNat) entry.arity) := by
  unfold specialSend tryFirst
  rw [hentry]
  dsimp only
  rw [if_pos rfl]
  cases entry.primitive <;> rfl

/-- After its primitive has declined and changed nothing, a special send is a send. -/
theorem specialSend_of_declines {index : UInt8} {entry : SpecialSelector} {selector : Value}
    (hentry : SpecialSelector.table[index.toNat]? = some entry)
    (hselector : m.heap.fetchField (m.known .specialSelectors) index.toNat = .ok selector)
    (hdeclines : tryFirst store entry m = .ok false m) :
    specialSend store index entry.arity m = send store selector entry.arity m := by
  rw [specialSend_run hentry, bind_eq_of_ok hdeclines]
  exact bind_eq_of_ok (readHeap_eq_ok.mpr ⟨hselector, rfl⟩)

/-- A special send ends with its primitive unless that declines. -/
theorem specialSend_of_tryFirst {index : UInt8} {entry : SpecialSelector}
    (hentry : SpecialSelector.table[index.toNat]? = some entry) :
    (∀ t, tryFirst store entry m = .ok true t → specialSend store index entry.arity m = .ok () t) ∧
      ∀ fault t, tryFirst store entry m = .error fault t →
        specialSend store index entry.arity m = .error fault t := by
  rw [specialSend_run hentry]
  exact ⟨fun t hdone => bind_eq_of_ok hdone, fun fault t hfailed => bind_eq_of_error hfailed⟩

/-- A send that finds a method of the kernel ends with the primitive of that method unless it
declines. -/
theorem send_of_attempt {receiver type selector method : Value} {k : KernelMethod} {t : Machine}
    (hk : k.primitive ∈ Primitive.direct)
    (hheader : m.heap.fetchField method Slot.methodHeader = .ok k.spec.header.toValue)
    (hreceiver : m.stackValue k.primitive.arity = .ok receiver)
    (htype : m.classOf receiver = .ok type)
    (hlookup : lookup type selector m = .ok (some method) t) (nested : Value → MachineM Unit) :
    (∀ t', attempt (k.primitive.run store nested) m = .ok true t' →
      SameButCache (.ok () t') (send store selector k.primitive.arity m)) ∧
    ∀ fault t', attempt (k.primitive.run store nested) m = .error fault t' →
      SameButCache (.error fault t') (send store selector k.primitive.arity m) := by
  obtain ⟨nested', hsend⟩ : ∃ nested, send store selector k.primitive.arity m =
      invoke store nested method k.primitive.arity t := send_run hreceiver htype hlookup
  obtain ⟨c, rfl⟩ := eq_withCache_of_lookup hlookup
  rw [hsend, invoke_kernel (m := m.withCache c) hheader]
  have huncached : Uncached (k.primitive.run store nested') := Primitive.uncached_run hk
  have hrecached := huncached.attempt m c
  rw [Primitive.run_congr hk store nested']
  constructor
  · intro t' hdone
    rw [hdone] at hrecached
    rw [bind_eq_of_ok hrecached]
    exact .ok () t' c
  · intro fault t' hfailed
    rw [hfailed] at hrecached
    rw [bind_eq_of_error hrecached]
    exact .error fault t' c

/-- Where the primitive of a special send does not decline, a send that finds the method of the kernel
ends as that primitive does. -/
theorem send_of_primitive {entry : SpecialSelector} (hentry : entry ∈ SpecialSelector.table)
    {p : Primitive} (hp : entry.primitive = some p) (hdirect : p ∈ Primitive.direct)
    {selector method : Value} (hfinds : FindsKernelMethod m entry.name selector entry.arity method)
    {nested : Value → MachineM Unit} (hruns : ∀ t, attempt (p.run store nested) m ≠ .ok false t) :
    (∀ t, attempt (p.run store nested) m = .ok true t →
      SameButCache (.ok () t) (send store selector entry.arity m)) ∧
    ∀ fault t, attempt (p.run store nested) m = .error fault t →
      SameButCache (.error fault t) (send store selector entry.arity m) := by
  obtain ⟨receiver, type, t, hreceiver, htype, hlookup, k, hk, hname, hheader⟩ := hfinds
  obtain ⟨hkdirect, harity, hsame⟩ : k.primitive ∈ Primitive.direct ∧
      entry.arity = k.primitive.arity ∧
      attempt (k.primitive.run store nested) m = attempt (p.run store nested) m := by
    rcases KernelMethod.primitive_eq hentry hp hk hname with heq | ⟨rfl, heq⟩
    · rw [heq]
      exact ⟨hdirect, SpecialSelector.arity_eq hentry hp, rfl⟩
    · -- equality of integers, where the kernel's method may be identity
      have hequality := Primitive.integerEquality_eq_identical (hruns m)
      have harity : entry.arity = Primitive.intEqual.arity := SpecialSelector.arity_eq hentry hp
      rw [heq]
      refine ⟨by decide, harity, ?_⟩
      simp only [Primitive.run]
      unfold attempt
      rw [hequality]
  rw [harity] at hreceiver ⊢
  rw [← hsame]
  exact send_of_attempt hkdirect hheader hreceiver htype hlookup nested

/-! ## Primitives that decline late -/

theorem FindsKernelMethod.within {name : String} {selector method : Value} {argc : Nat}
    (hfinds : FindsKernelMethod m name selector argc method) : method.Within m.heap.occupied := by
  obtain ⟨_, _, _, -, -, -, k, -, -, hheader⟩ := hfinds
  obtain ⟨xs, hxs, -⟩ := Heap.fetchField_eq_ok.mp hheader
  obtain ⟨a, o, rfl, ho, -⟩ := Heap.fields_eq_ok.mp hxs
  rintro _ ⟨⟩
  exact ⟨o, ho⟩

/-- The kernel's method is also found when there are more objects. -/
theorem FindsKernelMethod.of_extended {name : String} {selector method : Value} {argc : Nat}
    (hfinds : FindsKernelMethod m name selector argc method) {h : Heap} (hsettled : m.heap.Settled)
    (he : m.heap.Extended h) : FindsKernelMethod (m.withHeap h) name selector argc method := by
  obtain ⟨receiver, type, t, hreceiver, htype, hlookup, k, hk, hname, hheader⟩ := hfinds
  obtain ⟨t', hlookup'⟩ := lookup_of_extended hsettled he hlookup
  exact ⟨receiver, type, t', stackValue_withHeap (fun _ => he.retains.fetchField id) hreceiver,
    classOf_withHeap (fun v => he.types v type) htype, hlookup', k, hk, hname,
    he.retains.fetchField id hheader⟩

/-- The machine has no reference to an object that is not there, and `P` holds of it whatever the saved
pointers of the active context are. -/
structure Steadfast (m : Machine) (P : Machine → Prop) : Prop where
  closed : m.Closed
  holds : ∀ h, m.heap.Agrees m.Saved h → P (m.withHeap h)

namespace Steadfast

variable {P : Machine → Prop} {name : String} {receiver type selector method : Value} {argc : Nat}

theorem self (hs : Steadfast m P) : P m := hs.holds m.heap (.refl ..)

/-- What the method cache has does not depend on the saved pointers. -/
theorem of_cached (hclosed : m.Closed) (hbase : Slot.contextTail ≤ m.regs.stackBase)
    (hreceiver : m.stackValue argc = .ok receiver) (htype : m.classOf receiver = .ok type)
    (hcached : m.cache.find? type selector = some method) (hkernel : IsKernelMethod m.heap name method) :
    Steadfast m (FindsKernelMethod · name selector argc method) := by
  refine ⟨hclosed, fun h hagrees => ?_⟩
  obtain ⟨t, hlookup⟩ : ∃ t, lookup type selector (m.withHeap h) = .ok (some method) t :=
    exists_lookup_iff.mpr (.inl ⟨Option.isSome_of_eq_some hcached, hcached⟩)
  obtain ⟨k, hk, hname, hheader⟩ := hkernel
  refine ⟨receiver, type, t, stackValue_withHeap (fun x hx => ?_) hreceiver,
    classOf_withHeap (fun v hv => (hagrees.typeOf_eq v).trans hv) htype, hlookup, k, hk, hname, ?_⟩
  · have hdepth := (stackValue_eq_ok hreceiver).1
    have hout : ¬m.Saved m.regs.activeContext (m.regs.sp - argc) := fun hsaved => by
      have := hsaved.lt
      omega
    exact (hagrees.fetchField_eq hout).trans hx
  -- the header of a method is field zero, which is none of the two saved pointers
  · have hout : ¬m.Saved method Slot.methodHeader := fun hsaved => by
      rcases hsaved.2.2 with heq | heq <;> cases heq
    exact (hagrees.fetchField_eq hout).trans hheader

/-- What does not depend on the saved pointers, nor on more objects, holds when the machine has grown. -/
theorem of_outgrows (hs : Steadfast m P) (hreceiver : m.stackValue argc = .ok receiver) {h : Heap}
    (hg : m.heap.Outgrows m.Saved h)
    (hP : ∀ g, P (m.withHeap g) → g.Settled → g.Extended h → P (m.withHeap h)) : P (m.withHeap h) := by
  obtain ⟨xs, hxs, -⟩ := Heap.fetchField_eq_ok.mp (stackValue_eq_ok hreceiver).2
  obtain ⟨a, ⟨header, body⟩, hactive, ho, rfl⟩ := Heap.fields_eq_ok.mp hxs
  obtain ⟨g, hsettled, hagrees, he⟩ := hg.exists_agreeing hs.closed.settled ho
    fun v i hsaved => hsaved.1.trans hactive
  exact hP g (hs.holds g hagrees) hsettled he

theorem finds (hs : Steadfast m (FindsKernelMethod · name selector argc method)) {h : Heap}
    (hg : m.heap.Outgrows m.Saved h) : FindsKernelMethod (m.withHeap h) name selector argc method := by
  obtain ⟨receiver, _, _, hreceiver, -⟩ := hs.self
  exact hs.of_outgrows hreceiver hg fun g hfinds hsettled he => hfinds.of_extended hsettled he

theorem isUnknown {handler : Option (Value × MethodHeader)}
    (hs : Steadfast m (IsUnknown · selector argc handler type)) {h : Heap}
    (hg : m.heap.Outgrows m.Saved h) : IsUnknown (m.withHeap h) selector argc handler type := by
  obtain ⟨receiver, hreceiver, -⟩ := hs.self.receiver
  exact hs.of_outgrows hreceiver hg fun g hunknown hsettled he => hunknown.of_extended hsettled he

end Steadfast

/-- A block whose evaluation is refused leaves a machine that has grown. -/
theorem exists_outgrows_of_attempt (hm : m.Closed) {argc : Nat}
    (hrun : attempt (blockValue argc) m = .ok false m') :
    ∃ h, m' = m.withHeap h ∧ m.heap.Outgrows m.Saved h := by
  obtain ⟨t, hdeclines, rfl⟩ := attempt_eq_false.mp hrun
  have houtcome := ensures_littered_blockValue hm argc m (.refl hm)
  have ht : Littered m t := by
    unfold Declines at hdeclines
    cases hvalue : blockValue argc m with
    | ok done u =>
        rw [hvalue] at houtcome hdeclines
        exact hdeclines.2 ▸ houtcome hdeclines.1
    | error fault u =>
        rw [hvalue] at houtcome hdeclines
        exact hdeclines.2 ▸ houtcome
  refine ⟨t.heap, ?_, ht.heap⟩
  rw [ht.rest]
  rfl

/-- The header of a kernel method with a primitive. -/
def primitiveHeader (p : Primitive) : MethodHeader :=
  .primitive (.ofNat p.number) (.ofNat p.arity) (.ofNat p.arity)

/-- A send that finds the method of the kernel tries its primitive, and then activates the method. -/
theorem exists_send_of_evaluating (store : MachineM Unit → MachineM Unit) {entry : SpecialSelector}
    (hentry : entry ∈ SpecialSelector.table)
    {p : Primitive} (hp : entry.primitive = some p) (hevaluating : p ∈ Primitive.evaluating)
    {selector method : Value} (hfinds : FindsKernelMethod m entry.name selector entry.arity method) :
    ∃ c, send store selector entry.arity m = recached c ((do
      unless ← attempt (blockValue entry.arity) do
        activateMethod method (primitiveHeader p) entry.arity : MachineM Unit) m) := by
  obtain ⟨receiver, type, t, hreceiver, htype, hlookup, k, hk, hname, hheader⟩ := hfinds
  obtain ⟨nested, hsend⟩ : ∃ nested, send store selector entry.arity m =
      invoke store nested method entry.arity t := send_run hreceiver htype hlookup
  obtain ⟨c, rfl⟩ := eq_withCache_of_lookup hlookup
  have harity : entry.arity = p.arity := SpecialSelector.arity_eq hentry hp
  obtain rfl : k.primitive = p := by
    rcases KernelMethod.primitive_eq hentry hp hk hname with heq | ⟨rfl, -⟩
    · exact heq
    · exact absurd hevaluating (by decide)
  rw [harity] at hsend ⊢
  have hinvoke : invoke store nested method k.primitive.arity (m.withCache c) = _ :=
    invoke_kernel (m := m.withCache c) hheader
  rw [Primitive.run_evaluating hevaluating] at hinvoke
  have huncached : Uncached (do
      unless ← attempt (blockValue k.primitive.arity) do
        activateMethod method k.spec.header k.primitive.arity : MachineM Unit) :=
    (Uncached.blockValue _).attempt.bind fun done => .ite (.pure _) (.activateMethod _ _ _)
  exact ⟨c, hsend.trans (hinvoke.trans (huncached m c))⟩

/-- What is tried on both declines in both, or runs out of memory in the second. -/
theorem Trails.attempt {x y : MachineM Bool}
    (hxy : Trails (fun done _ done' _ => done = done') (x m) (y m')) :
    Trails (fun done _ done' _ => done = done') (Machine.attempt x m) (Machine.attempt y m') := by
  unfold Machine.attempt
  generalize x m = r at hxy
  generalize y m' = r' at hxy
  cases hxy with
  | @ok done done' t t' hdone =>
      subst hdone
      cases done <;> exact .ok rfl
  | @error fault t t' =>
      dsimp only
      split
      · exact .error
      · exact .ok rfl
  | exhausted => exact .exhausted

theorem Trails.recached {Q : α → Machine → α → Machine → Prop}
    {r r' : EStateM.Result Fault Machine α} (h : Trails Q r r') {c c' : MethodCache}
    (hQ : ∀ a t a' t', Q a t a' t' → Q a (t.withCache c) a' (t'.withCache c')) :
    Trails Q (Machine.recached c r) (Machine.recached c' r') := by
  cases h with
  | ok hq => exact .ok (hQ _ _ _ _ hq)
  | error => exact .error
  | exhausted => exact .exhausted

theorem Isomorphic.withCache {ρ : Handle → Handle} (hi : Isomorphic ρ m m') (c c' : MethodCache) :
    Isomorphic ρ (m.withCache c) (m'.withCache c') := by
  refine ⟨?_, hi.roots, hi.object, hi.injective, hi.onto⟩
  rw [hi.rest]
  rfl

/-- The selectors of evaluations are not where pointers of a context are saved. -/
theorem not_saved_of_evaluating {index : UInt8} {entry : SpecialSelector}
    (hentry : SpecialSelector.table[index.toNat]? = some entry) {p : Primitive}
    (hp : entry.primitive = some p) (hevaluating : p ∈ Primitive.evaluating) (v : Value) :
    ¬m.Saved v index.toNat := by
  have hother : ∀ i ∈ [Slot.ip, Slot.sp], ∀ entry ∈ SpecialSelector.table[i]?,
      ∀ p ∈ entry.primitive, p ∉ Primitive.evaluating := by decide
  rintro ⟨-, -, hslot⟩
  refine hother index.toNat ?_ entry hentry p hp hevaluating
  rcases hslot with heq | heq <;> simp [heq]

section Refused

variable {index : UInt8} {entry : SpecialSelector} {p : Primitive} {selector : Value}
  (hbase : Slot.contextTail ≤ m.regs.stackBase)
  (hentry : SpecialSelector.table[index.toNat]? = some entry) (hp : entry.primitive = some p)
  (hevaluating : p ∈ Primitive.evaluating)
  (hselector : m.heap.fetchField (m.known .specialSelectors) index.toNat = .ok selector)
  (hfirst : tryFirst store entry = attempt (blockValue entry.arity))
  (hrefused : attempt (blockValue entry.arity) m = .ok false m')
include hentry hp hevaluating hselector hfirst hrefused

/-- After its evaluation has been refused, a special send is a send on a machine that has grown. -/
theorem exists_specialSend_of_refused (hclosed : m.Closed) : ∃ h, m' = m.withHeap h ∧
    m.heap.Outgrows m.Saved h ∧
    specialSend store index entry.arity m = send store selector entry.arity (m.withHeap h) := by
  obtain ⟨h, rfl, hg⟩ := exists_outgrows_of_attempt hclosed hrefused
  have ha := hclosed.akin hg
  have hselector' : h.fetchField (m.known .specialSelectors) index.toNat = .ok selector :=
    (ha.heap.fetchField_old (ha.known _) (not_saved_of_evaluating hentry hp hevaluating _)).trans hselector
  refine ⟨h, rfl, hg, ?_⟩
  rw [specialSend_run hentry, hfirst, bind_eq_of_ok hrefused]
  exact bind_eq_of_ok (readHeap_eq_ok.mpr ⟨hselector', rfl⟩)

include hbase

/-- A special send whose evaluation is refused late goes as the send does, unless there is no room for
another context. -/
theorem trails_send {method : Value}
    (hs : Steadfast m (FindsKernelMethod · entry.name selector entry.arity method)) :
    Trails (fun _ u _ u' => ∃ ρ, Isomorphic ρ u u') (send store selector entry.arity m)
      (specialSend store index entry.arity m) := by
  have hmem : entry ∈ SpecialSelector.table := Array.mem_of_getElem? hentry
  obtain ⟨h, rfl, hg, hspecial⟩ := exists_specialSend_of_refused hentry hp hevaluating hselector hfirst
    hrefused hs.closed
  have ha := hs.closed.akin hg
  have hclosed : (m.withHeap h).Closed :=
    (show Littered m (m.withHeap h) from ⟨rfl, hg⟩).closed hs.closed
  obtain ⟨c, hsend⟩ := exists_send_of_evaluating store hmem hp hevaluating hs.self
  obtain ⟨c', hsend'⟩ := exists_send_of_evaluating store hmem hp hevaluating (hs.finds hg)
  rw [hspecial, hsend, hsend']
  refine Trails.recached ?_ fun _ _ _ _ ⟨ρ, hi⟩ => ⟨ρ, hi.withCache c c'⟩
  rw [bind_eq_of_ok hrefused, bind_run]
  -- the primitive is tried once more, and declines once more
  have hagain := (ha.trails_blockValue hg.tighter entry.arity hbase).attempt
  rw [hrefused] at hagain
  generalize hrun : attempt (blockValue entry.arity) (m.withHeap h) = r at hagain
  cases hagain with
  | exhausted => exact .exhausted
  | ok hdone =>
      subst hdone
      obtain ⟨h', rfl, hg'⟩ := exists_outgrows_of_attempt hclosed hrun
      exact (hclosed.akin hg').trails_activateMethod hg'.tighter _ hbase (hs.finds hg).within

/-- So does one of a message that is not understood. -/
theorem trails_send_of_unknown {type : Value} {handler : Option (Value × MethodHeader)}
    (hs : Steadfast m (IsUnknown · selector entry.arity handler type)) :
    Trails (fun _ u _ u' => ∃ ρ, Isomorphic ρ u u') (send store selector entry.arity m)
      (specialSend store index entry.arity m) := by
  obtain ⟨h, rfl, hg, hspecial⟩ := exists_specialSend_of_refused hentry hp hevaluating hselector hfirst
    hrefused hs.closed
  have ha := hs.closed.akin hg
  obtain ⟨c, hsend⟩ := send_of_unknown store hs.closed.settled hs.self
  obtain ⟨c', hsend'⟩ := send_of_unknown store hg.settled (hs.isUnknown hg)
  rw [hspecial, hsend, hsend']
  refine Trails.recached ?_ fun _ _ _ _ ⟨ρ, hi⟩ => ⟨ρ, hi.withCache c c'⟩
  obtain ⟨receiver, hreceiver, htype⟩ := hs.self.receiver
  obtain ⟨hdepth, hfetch⟩ := stackValue_eq_ok hreceiver
  obtain ⟨xs, hxs, -⟩ := Heap.fetchField_eq_ok.mp hfetch
  obtain ⟨a, o, hactive, -⟩ := Heap.fields_eq_ok.mp hxs
  have habreast : Abreast id m.heap.occupied m (m.withHeap h) := ⟨ha, hg.tighter, hbase, by omega⟩
  exact habreast.trails_react (ha.heap.within.fetchField hselector) (ha.within_classOf htype)
    (fun entry hentry => (hs.self.hasCode entry hentry).within) hs.self.named (hactive ▸ rfl)

end Refused

/-! ## Agreement -/

/-- The fast path of special sends agrees with the full send.  The entry is any but one for a
computed message, and either the lookup finds the method of the kernel or the primitive declines, as
it does where the kernel has no method for the receiver.  If the primitive declines after it has made
something, which is a context, it must not depend on the saved pointers what is found, the method of the
kernel or, for a message that is not understood, a handler with code or none; then the machines that the two
end with have their objects in different places, or the special send has no room for another context. -/
theorem specialSend_agrees {index : UInt8} {entry : SpecialSelector} {selector method : Value}
    (hbase : Slot.contextTail ≤ m.regs.stackBase)
    (hentry : SpecialSelector.table[index.toNat]? = some entry)
    (hperform : entry.primitive ≠ some .perform ∧ entry.primitive ≠ some .performWith)
    (hselector : m.heap.fetchField (m.known .specialSelectors) index.toNat = .ok selector)
    (hmethod : FindsKernelMethod m entry.name selector entry.arity method ∨
      ∃ t, tryFirst store entry m = .ok false t)
    (hlate : ∀ t, tryFirst store entry m = .ok false t →
      t = m ∨ Steadfast m (FindsKernelMethod · entry.name selector entry.arity method) ∨
        ∃ handler type, Steadfast m (IsUnknown · selector entry.arity handler type)) :
    SameButCache (specialSend store index entry.arity m) (send store selector entry.arity m) ∨
      (∃ t, tryFirst store entry m = .ok false t ∧ t ≠ m) ∧
        Trails (fun _ u _ u' => ∃ ρ, Isomorphic ρ u u') (send store selector entry.arity m)
          (specialSend store index entry.arity m) := by
  have hmem : entry ∈ SpecialSelector.table := Array.mem_of_getElem? hentry
  cases hp : entry.primitive with
  | none =>
      have hfirst : tryFirst store entry m = .ok false m := by
        unfold tryFirst
        rw [hp]
        rfl
      rw [specialSend_of_declines hentry hselector hfirst]
      exact .inl (.refl _)
  | some p =>
      have harity := SpecialSelector.arity_eq hmem hp
      have hdirect : p ∈ Primitive.direct := by
        rw [hp] at hperform
        exact List.mem_filter.mpr
          ⟨List.mem_filterMap.mpr ⟨entry, hmem.val, hp⟩, by simpa using hperform⟩
      have hfirst : tryFirst store entry =
          attempt (p.run store (send store · (entry.arity - 1))) := by
        unfold tryFirst
        rw [hp, harity]
        exact tryPrimitive_number p
      rw [hfirst] at hmethod
      have hagrees := fun hruns =>
        send_of_primitive hmem hp hdirect (hmethod.resolve_right (not_exists.mpr hruns)) hruns
      cases hrun : tryFirst store entry m with
      | ok done t =>
          cases done with
          | false =>
              by_cases hsame : t = m
              · subst hsame
                rw [specialSend_of_declines hentry hselector hrun]
                exact .inl (.refl _)
              -- only evaluations can decline after they have changed something
              · have hevaluating : p ∈ Primitive.evaluating := by
                  by_contra hother
                  rw [hfirst] at hrun
                  exact hsame (Primitive.eq_of_attempt hdirect hother
                    (Nat.lt_of_lt_of_le (by decide) hbase) hrun)
                have hblock : tryFirst store entry = attempt (blockValue entry.arity) := by
                  rw [hfirst, Primitive.run_evaluating hevaluating, harity]
                have hlate := (hlate t hrun).resolve_left hsame
                rw [hblock] at hrun
                refine .inr ⟨⟨t, rfl, hsame⟩, ?_⟩
                rcases hlate with hs | ⟨handler, type, hs⟩
                · exact trails_send hbase hentry hp hevaluating hselector hblock hrun hs
                · exact trails_send_of_unknown hbase hentry hp hevaluating hselector hblock hrun hs
          | true =>
              rw [(specialSend_of_tryFirst hentry).1 t hrun]
              rw [hfirst] at hrun
              exact .inl ((hagrees fun t ht => by cases hrun.symm.trans ht).1 t hrun)
      | error fault t =>
          rw [(specialSend_of_tryFirst hentry).2 fault t hrun]
          rw [hfirst] at hrun
          exact .inl ((hagrees fun t ht => by cases hrun.symm.trans ht).2 fault t hrun)

/-! ## Where they differ, and where they agree -/

/-- Settings with little memory for objects that can be collected. -/
def crowdedSettings : Settings :=
  { roomySettings with
    contextStackDepth := 21
    heap := { roomySettings.heap with maxEphemeralSegments := 19, gcThresholdSegments := 19 } }

/-- Starts the first method of the processor. -/
def startFirst : MachineM Unit := do
  match (← get).firstMethod (← landmark .processorScheduler) with
  | none => throw (.invalidMethod .noEntryCode)
  | some method => startMethod method (← landmark .processor) []

/-- Takes the supertype from the type of integers, and pushes two integers. -/
def sever : MachineM Unit := do
  startFirst
  storeField (← landmark .smallInteger) Slot.supertype (← landmark .nil)
  push (.int 3)
  push (.int 3)

/-- Pushes a block and takes the place where it starts from it, so that its evaluation is refused after a
context has been made for it. -/
def jam : MachineM Unit := do
  startFirst
  blockCopy 0 0
  storeField (← read (·.stackValue 0)) Slot.initialIp (← landmark .nil)

/-- Looks up the selector for the evaluation of a block, which the method cache then has. -/
def jamCached : MachineM Unit := do
  jam
  let _ ← lookup (← landmark .blockContext) (← fetchField (← landmark .specialSelectors) 18)

/-- Leaves room for two more contexts only. -/
def cram : MachineM Unit := do
  jamCached
  let _ ← newObject .array 180

/-- Makes the active context the array of the selectors of blocks, with the selector for their evaluation
in the place of the saved instruction pointer. -/
def pose : MachineM Unit := do
  jam
  let type ← landmark .blockContext
  let selector ← fetchField (← landmark .specialSelectors) 18
  match ← read (·.lookupMethod type selector) with
  | none => throw (.invalidMethod .noEntryCode)
  | some method =>
    let methods ← newObject .array 30
    storeField methods Slot.ip method
    let context := (← get).regs.activeContext
    storeField context Slot.ip selector
    storeField type Slot.selectors context
    storeField type Slot.methods methods

/-- Pushes the block once more, and leaves the type of blocks with identity as its handler of messages that
are not understood and with no other method. -/
def hush : MachineM Unit := do
  jam
  push (← read (·.stackValue 0))
  let identity ← fetchField (← landmark .specialSelectors) 14
  let object ← landmark .object
  match ← read (·.lookupMethod object identity) with
  | none => throw (.invalidMethod .noEntryCode)
  | some method =>
    let selectors ← newObject .array 1
    storeField selectors 0 (← landmark .doesNotUnderstand)
    let methods ← newObject .array 1
    storeField methods 0 method
    let type ← landmark .blockContext
    storeField type Slot.selectors selectors
    storeField type Slot.methods methods

/-- The selector of a special send with `argc` arguments, with the method that is found for it. -/
def soughtMethod (m : Machine) (index argc : Nat) : Option (Value × Option Value) := do
  let selector ← (m.heap.fetchField (m.known .specialSelectors) index).toOption
  let receiver ← (m.stackValue argc).toOption
  let type ← (m.classOf receiver).toOption
  let method ← resultOf (lookup type selector m)
  return (selector, method)

theorem soughtMethod_eq_some {index argc : Nat} {selector : Value} {found : Option Value}
    (h : m.soughtMethod index argc = some (selector, found)) :
    m.heap.fetchField (m.known .specialSelectors) index = .ok selector ∧
      ∃ receiver type t, m.stackValue argc = .ok receiver ∧ m.classOf receiver = .ok type ∧
        lookup type selector m = .ok found t := by
  simp only [soughtMethod, Option.bind_eq_bind, Option.bind_eq_some_iff, Option.pure_def,
    Option.some.injEq, Prod.mk.injEq] at h
  obtain ⟨selector, hselector, receiver, hreceiver, type, htype, found, hfound, rfl, rfl⟩ := h
  obtain ⟨t, hlookup⟩ := resultOf_eq_some hfound
  exact ⟨eq_ok_of_toOption hselector, receiver, type, t, eq_ok_of_toOption hreceiver,
    eq_ok_of_toOption htype, hlookup⟩

/-- Whether the method has the header of a kernel method. -/
def heads (m : Machine) (method : Value) (k : KernelMethod) : Bool :=
  (m.heap.fetchField method Slot.methodHeader).toOption = some k.spec.header.toValue

theorem isKernelMethod_of_heads {method : Value} {k : KernelMethod} (hk : k ∈ KernelMethod.table)
    (h : m.heads method k = true) : IsKernelMethod m.heap k.selector method :=
  ⟨k, hk, rfl, eq_ok_of_toOption (of_decide_eq_true h)⟩

/-- The fault that an action ends with, if it does. -/
def faultOf (r : EStateM.Result Fault Machine α) : Option Fault :=
  match r with
  | .ok .. => none
  | .error fault _ => some fault

theorem faultOf_eq_some {r : EStateM.Result Fault Machine α} {fault : Fault} (h : faultOf r = some fault) :
    ∃ t, r = .error fault t := by
  cases r with
  | ok a t => cases h
  | error fault' t =>
      cases h
      exact ⟨t, rfl⟩

/-- Whether an action can be done, and the test is true of the machine after it. -/
def thereafter (action : MachineM α) (test : Machine → Bool) (m : Machine) : Bool :=
  match action m with
  | .ok _ m' => test m'
  | .error .. => false

theorem exists_of_thereafter {action : MachineM α} {test : Machine → Bool}
    (h : thereafter action test m = true) : ∃ a m', action m = .ok a m' ∧ test m' = true := by
  unfold thereafter at h
  split at h
  · next a m' hrun => exact ⟨a, m', hrun, h⟩
  · cases h

/-- Whether nothing is found for identity, and a special send of it answers while a send does not. -/
def splits (m : Machine) : Bool :=
  match m.soughtMethod 14 1 with
  | some (selector, none) =>
    thereafter (specialSend id 14 1) (fun _ => true) m && (faultOf (send id selector 1 m)).isSome
  | _ => false

/-- Whether the method of the kernel is found for addition, whose primitive answers. -/
def sums (m : Machine) : Bool :=
  match m.soughtMethod 0 1 with
  | some (_, some method) =>
    m.heads method ⟨.smallInteger, false, "+", .intAdd⟩ && decide (Slot.contextTail ≤ m.regs.stackBase) &&
      resultOf (tryFirst id ⟨"+", 1, some .intAdd⟩ m) = some true
  | _ => false

/-- Whether the lookup finds the method of the kernel for the evaluation of a block, but the send of it
succeeds while the special send ends with a fault. -/
def parts (fault : Fault) (m : Machine) : Bool :=
  match m.soughtMethod 18 0 with
  | some (selector, some method) =>
    m.heads method ⟨.blockContext, false, "value", .blockValue⟩ &&
      thereafter (send id selector 0) (fun _ => true) m && faultOf (specialSend id 18 0 m) = some fault
  | _ => false

/-- Whether nothing is found for the evaluation of a block, and the send and the special send of it end with the
same registers, but with different numbers saved in the active context. -/
def strays (m : Machine) : Bool :=
  match m.soughtMethod 18 0 with
  | some (selector, none) =>
    thereafter (send id selector 0) (fun u => thereafter (specialSend id 18 0) (fun v =>
      v.regs = u.regs && (v.heap.fetchField u.regs.activeContext Slot.sp).toOption ≠
        (u.heap.fetchField u.regs.activeContext Slot.sp).toOption) m) m
  | _ => false

/-- Whether the method cache has the method of the kernel for the evaluation of a block, and the send and the
special send of it end with different contexts. -/
def rejoins (m : Machine) : Bool :=
  match (do
    let selector ← (m.heap.fetchField (m.known .specialSelectors) 18).toOption
    let receiver ← (m.stackValue 0).toOption
    let type ← (m.classOf receiver).toOption
    let method ← m.cache.find? type selector
    return (selector, method) : Option (Value × Value)) with
  | some (selector, method) =>
    m.closes && decide (Slot.contextTail ≤ m.regs.stackBase) &&
      m.heads method ⟨.blockContext, false, "value", .blockValue⟩ &&
      thereafter (send id selector 0) (fun u => thereafter (specialSend id 18 0)
        (fun v => u.regs.activeContext ≠ v.regs.activeContext) m) m
  | none => false

/-- The programs, one after the other. -/
def differs (m : Machine) : Bool :=
  thereafter sever (fun m => splits m && sums m) m &&
    thereafter cram (parts (.heap (.outOfMemory .ephemeral 19))) m &&
    thereafter pose (parts (.unknownSelector "value" "BlockContext")) m && thereafter hush strays m &&
    thereafter jamCached rejoins m

theorem exists_of_splits (h : splits m = true) : ∃ selector receiver type t u fault v,
    m.heap.fetchField (m.known .specialSelectors) 14 = .ok selector ∧
      m.stackValue 1 = .ok receiver ∧ m.classOf receiver = .ok type ∧
      lookup type selector m = .ok none t ∧ specialSend id 14 1 m = .ok () u ∧
      send id selector 1 m = .error fault v := by
  unfold splits at h
  split at h
  · next selector hsought =>
    simp only [Bool.and_eq_true] at h
    obtain ⟨hselector, receiver, type, t, hreceiver, htype, hlookup⟩ := soughtMethod_eq_some hsought
    obtain ⟨⟨⟩, u, hspecial, -⟩ := exists_of_thereafter h.1
    obtain ⟨fault, hfault⟩ := Option.isSome_iff_exists.mp h.2
    obtain ⟨v, hsend⟩ := faultOf_eq_some hfault
    exact ⟨selector, receiver, type, t, u, fault, v, hselector, hreceiver, htype, hlookup, hspecial, hsend⟩
  · cases h

theorem exists_of_sums (h : sums m = true) : ∃ selector method t,
    m.heap.fetchField (m.known .specialSelectors) 0 = .ok selector ∧
      FindsKernelMethod m "+" selector 1 method ∧ Slot.contextTail ≤ m.regs.stackBase ∧
      tryFirst id ⟨"+", 1, some .intAdd⟩ m = .ok true t := by
  unfold sums at h
  split at h
  · next selector method hsought =>
    simp only [Bool.and_eq_true, decide_eq_true_eq] at h
    obtain ⟨⟨hkernel, hbase⟩, hdone⟩ := h
    obtain ⟨hselector, receiver, type, t, hreceiver, htype, hlookup⟩ := soughtMethod_eq_some hsought
    obtain ⟨t', hdone⟩ := resultOf_eq_some hdone
    exact ⟨selector, method, t', hselector, ⟨receiver, type, t, hreceiver, htype, hlookup,
      isKernelMethod_of_heads (by decide) hkernel⟩, hbase, hdone⟩
  · cases h

theorem exists_of_parts {fault : Fault} (h : parts fault m = true) : ∃ selector method u v,
    m.heap.fetchField (m.known .specialSelectors) 18 = .ok selector ∧
      FindsKernelMethod m "value" selector 0 method ∧ send id selector 0 m = .ok () u ∧
      specialSend id 18 0 m = .error fault v := by
  unfold parts at h
  split at h
  · next selector method hsought =>
    simp only [Bool.and_eq_true, decide_eq_true_eq] at h
    obtain ⟨⟨hkernel, hsend⟩, hspecial⟩ := h
    obtain ⟨hselector, receiver, type, t, hreceiver, htype, hlookup⟩ := soughtMethod_eq_some hsought
    obtain ⟨⟨⟩, u, hsend, -⟩ := exists_of_thereafter hsend
    obtain ⟨v, hspecial⟩ := faultOf_eq_some hspecial
    exact ⟨selector, method, u, v, hselector, ⟨receiver, type, t, hreceiver, htype, hlookup,
      isKernelMethod_of_heads (by decide) hkernel⟩, hsend, hspecial⟩
  · cases h

theorem exists_of_strays (h : strays m = true) : ∃ selector receiver type t u v,
    m.heap.fetchField (m.known .specialSelectors) 18 = .ok selector ∧
      m.stackValue 0 = .ok receiver ∧ m.classOf receiver = .ok type ∧
      lookup type selector m = .ok none t ∧ send id selector 0 m = .ok () u ∧
      specialSend id 18 0 m = .ok () v ∧ v.regs = u.regs ∧
      v.heap.fetchField u.regs.activeContext Slot.sp ≠ u.heap.fetchField u.regs.activeContext Slot.sp := by
  unfold strays at h
  split at h
  · next selector hsought =>
    obtain ⟨hselector, receiver, type, t, hreceiver, htype, hlookup⟩ := soughtMethod_eq_some hsought
    obtain ⟨⟨⟩, u, hsend, hruns⟩ := exists_of_thereafter h
    obtain ⟨⟨⟩, v, hspecial, hends⟩ := exists_of_thereafter hruns
    simp only [Bool.and_eq_true, decide_eq_true_eq] at hends
    exact ⟨selector, receiver, type, t, u, v, hselector, hreceiver, htype, hlookup, hsend, hspecial, hends.1,
      fun heq => hends.2 (congrArg Except.toOption heq)⟩
  · cases h

theorem exists_of_rejoins (h : rejoins m = true) : ∃ selector method u v,
    m.heap.fetchField (m.known .specialSelectors) 18 = .ok selector ∧
      Slot.contextTail ≤ m.regs.stackBase ∧ Steadfast m (FindsKernelMethod · "value" selector 0 method) ∧
      send id selector 0 m = .ok () u ∧ specialSend id 18 0 m = .ok () v ∧
      u.regs.activeContext ≠ v.regs.activeContext := by
  unfold rejoins at h
  split at h
  · next hread =>
    simp only [Option.bind_eq_bind, Option.bind_eq_some_iff, Option.pure_def, Option.some.injEq,
      Prod.mk.injEq] at hread
    obtain ⟨selector, hselector, receiver, hreceiver, type, htype, method, hcached, rfl, rfl⟩ := hread
    simp only [Bool.and_eq_true, decide_eq_true_eq] at h
    obtain ⟨⟨⟨hcloses, hbase⟩, hkernel⟩, hruns⟩ := h
    obtain ⟨⟨⟩, u, hsend, hspecial⟩ := exists_of_thereafter hruns
    obtain ⟨⟨⟩, v, hspecial, hdifferent⟩ := exists_of_thereafter hspecial
    have hs : Steadfast m (FindsKernelMethod · "value" selector 0 method) :=
      .of_cached (closed_of_closes hcloses) hbase (eq_ok_of_toOption hreceiver) (eq_ok_of_toOption htype)
        hcached (isKernelMethod_of_heads (by decide) hkernel)
    exact ⟨selector, method, u, v, eq_ok_of_toOption hselector, hbase, hs, hsend, hspecial,
      of_decide_eq_true hdifferent⟩
  · cases h

theorem passes_differs : passes crowdedSettings differs = true := by decide +kernel

/-- The two can differ in four ways.  Without its supertype, the type of integers has no method for
identity, and the special send of it answers while a send does not.  There may be room for the contexts of a
send but not for the one more of a special send.  Where pointers are saved into what the lookup reads, the
special send does not find what a send finds.  And a message that is not understood may be answered by a
primitive, which leaves the pointers as they are saved, in a special send by the evaluation that has been
refused. -/
theorem specialSend_differs : ∃ m, create crowdedSettings = .ok m ∧
    (∃ m' identity receiver type t u fault v, sever m = .ok () m' ∧
      m'.heap.fetchField (m'.known .specialSelectors) 14 = .ok identity ∧
      m'.stackValue 1 = .ok receiver ∧ m'.classOf receiver = .ok type ∧
      lookup type identity m' = .ok none t ∧ specialSend id 14 1 m' = .ok () u ∧
      send id identity 1 m' = .error fault v) ∧
    (∃ m' selector method u v, cram m = .ok () m' ∧
      m'.heap.fetchField (m'.known .specialSelectors) 18 = .ok selector ∧
      FindsKernelMethod m' "value" selector 0 method ∧ send id selector 0 m' = .ok () u ∧
      specialSend id 18 0 m' = .error (.heap (.outOfMemory .ephemeral 19)) v) ∧
    (∃ m' selector method u v, pose m = .ok () m' ∧
      m'.heap.fetchField (m'.known .specialSelectors) 18 = .ok selector ∧
      FindsKernelMethod m' "value" selector 0 method ∧ send id selector 0 m' = .ok () u ∧
      specialSend id 18 0 m' = .error (.unknownSelector "value" "BlockContext") v) ∧
    ∃ m' selector receiver type t u v, hush m = .ok () m' ∧
      m'.heap.fetchField (m'.known .specialSelectors) 18 = .ok selector ∧
      m'.stackValue 0 = .ok receiver ∧ m'.classOf receiver = .ok type ∧
      lookup type selector m' = .ok none t ∧ send id selector 0 m' = .ok () u ∧
      specialSend id 18 0 m' = .ok () v ∧ v.regs = u.regs ∧
      v.heap.fetchField u.regs.activeContext Slot.sp ≠
        u.heap.fetchField u.regs.activeContext Slot.sp := by
  obtain ⟨m, hcreate, hdiffers⟩ := exists_create_of_passes passes_differs
  simp only [differs, Bool.and_eq_true] at hdiffers
  obtain ⟨⟨⟨⟨hsever, hcram⟩, hpose⟩, hhush⟩, -⟩ := hdiffers
  refine ⟨m, hcreate, ?_, ?_, ?_, ?_⟩
  · obtain ⟨⟨⟩, m', hrun, hends⟩ := exists_of_thereafter hsever
    simp only [Bool.and_eq_true] at hends
    obtain ⟨selector, receiver, type, t, u, fault, v, hdifferent⟩ := exists_of_splits hends.1
    exact ⟨m', selector, receiver, type, t, u, fault, v, hrun, hdifferent⟩
  · obtain ⟨⟨⟩, m', hrun, hparts⟩ := exists_of_thereafter hcram
    obtain ⟨selector, method, u, v, hdifferent⟩ := exists_of_parts hparts
    exact ⟨m', selector, method, u, v, hrun, hdifferent⟩
  · obtain ⟨⟨⟩, m', hrun, hparts⟩ := exists_of_thereafter hpose
    obtain ⟨selector, method, u, v, hdifferent⟩ := exists_of_parts hparts
    exact ⟨m', selector, method, u, v, hrun, hdifferent⟩
  · obtain ⟨⟨⟩, m', hrun, hstrays⟩ := exists_of_thereafter hhush
    obtain ⟨selector, receiver, type, t, u, v, hdifferent⟩ := exists_of_strays hstrays
    exact ⟨m', selector, receiver, type, t, u, v, hrun, hdifferent⟩

/-- A special send that agrees with the send to the letter, and one that makes a context more. -/
theorem specialSend_agrees_crowded : ∃ m, create crowdedSettings = .ok m ∧
    (∃ m' selector method, sever m = .ok () m' ∧ FindsKernelMethod m' "+" selector 1 method ∧
      SameButCache (specialSend id 0 1 m') (send id selector 1 m')) ∧
    ∃ m' selector method u v ρ, jamCached m = .ok () m' ∧
      Steadfast m' (FindsKernelMethod · "value" selector 0 method) ∧ send id selector 0 m' = .ok () u ∧
      specialSend id 18 0 m' = .ok () v ∧ u.regs.activeContext ≠ v.regs.activeContext ∧
      Isomorphic ρ u v := by
  obtain ⟨m, hcreate, hdiffers⟩ := exists_create_of_passes passes_differs
  simp only [differs, Bool.and_eq_true] at hdiffers
  obtain ⟨⟨⟨⟨hsever, -⟩, -⟩, -⟩, hjam⟩ := hdiffers
  refine ⟨m, hcreate, ?_, ?_⟩
  · obtain ⟨⟨⟩, m', hrun, hends⟩ := exists_of_thereafter hsever
    simp only [Bool.and_eq_true] at hends
    obtain ⟨selector, method, t', hselector, hfinds, hbase, hdone⟩ := exists_of_sums hends.2
    have hruns : ∀ t, tryFirst id ⟨"+", 1, some .intAdd⟩ m' ≠ .ok false t := fun t ht => by
      cases hdone.symm.trans ht
    have hentry : SpecialSelector.table[(0 : UInt8).toNat]? = some ⟨"+", 1, some .intAdd⟩ := rfl
    refine ⟨m', selector, method, hrun, hfinds, ?_⟩
    rcases specialSend_agrees hbase hentry (by decide) hselector (.inl hfinds)
        fun t ht => absurd ht (hruns t) with hsame | ⟨⟨t, ht, -⟩, -⟩
    · exact hsame
    · exact absurd ht (hruns t)
  · obtain ⟨⟨⟩, m', hrun, hrejoins⟩ := exists_of_thereafter hjam
    obtain ⟨selector, method, u, v, hselector, hbase, hs, hsend, hspecial, hdifferent⟩ :=
      exists_of_rejoins hrejoins
    have hentry : SpecialSelector.table[(18 : UInt8).toNat]? = some ⟨"value", 0, some .blockValue⟩ := rfl
    have hagrees : SameButCache (specialSend id 18 0 m') _ ∨ _ := specialSend_agrees hbase hentry
      (by decide) hselector (.inl hs.self) fun _ _ => .inr (.inl hs)
    rw [hsend, hspecial] at hagrees
    rcases hagrees with hsame | ⟨-, htrails⟩
    · cases hsame
      exact absurd rfl hdifferent
    · cases htrails with
      | ok hiso =>
          obtain ⟨ρ, hiso⟩ := hiso
          exact ⟨m', selector, method, u, v, ρ, hrun, hs, hsend, hspecial, hdifferent, hiso⟩

end Machine

end MessageMachine
