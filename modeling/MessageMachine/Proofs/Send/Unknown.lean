import MessageMachine.Proofs.Lookup.Growth
import MessageMachine.Proofs.Send.Retry

/-!
# Messages that are not understood

Where the type of the receiver has no method, its handler of such messages is activated with the selector as
argument, or the send fails with the names of the selector and the type (`send_of_unknown`).  Both go on alike
on a machine and on one that has grown (`Abreast.trails_react`), for the same handler with code or none.  A
handler that is a primitive or an accessor need not make a context, so the saved pointers of the active one,
in which the two machines may differ, are not saved again.
-/

namespace MessageMachine.Machine

variable {m m' : Machine} {store : MachineM Unit → MachineM Unit} {ρ : Handle → Handle} {old : Set Handle}
  {type selector method v : Value} {header : MethodHeader} {argc : Nat}
  {handler : Option (Value × MethodHeader)}

/-! ## Methods with code -/

/-- The method has this header, of a method with code. -/
structure HasCode (h : Heap) (method : Value) (header : MethodHeader) : Prop where
  reads : (do MethodHeader.ofValue (← h.fetchField method Slot.methodHeader) : Except HeapFault _) = .ok header
  bytecodes : header.kind = .bytecodes

theorem HasCode.of_fetchField {h h' : Heap} (hc : HasCode h method header)
    (hkept : ∀ x, h.fetchField method Slot.methodHeader = .ok x →
      h'.fetchField method Slot.methodHeader = .ok x) : HasCode h' method header := by
  refine ⟨?_, hc.bytecodes⟩
  obtain ⟨x, hx, hofValue⟩ := reading_bind_eq_ok.mp hc.reads
  exact reading_bind_eq_ok.mpr ⟨x, hkept x hx, hofValue⟩

/-- What has a header is an object of the heap. -/
theorem HasCode.within {h : Heap} (hc : HasCode h method header) : method.Within h.occupied := by
  obtain ⟨x, hx, -⟩ := reading_bind_eq_ok.mp hc.reads
  obtain ⟨xs, hxs, -⟩ := Heap.fetchField_eq_ok.mp hx
  obtain ⟨a, o, rfl, ho, -⟩ := Heap.fields_eq_ok.mp hxs
  rintro _ ⟨⟩
  exact ⟨o, ho⟩

/-- A method with code is activated if it takes as many arguments. -/
def enter (method : Value) (header : MethodHeader) (argc : Nat) : MachineM Unit :=
  if header.arguments.toNat = argc then activateMethod method header argc
  else throw (.wrongArgumentCount header.arguments.toNat argc)

theorem invoke_of_hasCode {send : Value → MachineM Unit} (hc : HasCode m.heap method header) (argc : Nat) :
    invoke store send method argc m = enter method header argc m := by
  have hread : read (fun m => do
      return (← MethodHeader.ofValue (← m.heap.fetchField method Slot.methodHeader) : MethodHeader)) m =
        .ok header m := by
    obtain ⟨x, hx, hofValue⟩ := reading_bind_eq_ok.mp hc.reads
    refine read_eq_ok.mpr ⟨reading_bind_eq_ok.mpr ⟨x, liftFault_eq_ok.mpr hx, ?_⟩, rfl⟩
    exact liftFault_eq_ok.mpr hofValue
  refine (bind_eq_of_ok hread).trans ?_
  unfold enter
  dsimp only
  rw [hc.bytecodes]
  split <;> rfl

/-! ## Unknown messages -/

/-- The type of the receiver below `argc` arguments has no method for the selector.  It has this handler with
code for such messages, or none, and then it is not the active context, in which its name might be a saved
pointer. -/
structure IsUnknown (m : Machine) (selector : Value) (argc : Nat)
    (handler : Option (Value × MethodHeader)) (type : Value) : Prop where
  receiver : ∃ receiver, m.stackValue argc = .ok receiver ∧ m.classOf receiver = .ok type
  unknown : ∃ t, lookup type selector m = .ok none t
  handled : selector = m.known .doesNotUnderstand ∧ handler = none ∨
    selector ≠ m.known .doesNotUnderstand ∧
      ∃ t, lookup type (m.known .doesNotUnderstand) m = .ok (handler.map Prod.fst) t
  hasCode : ∀ entry ∈ handler, HasCode m.heap entry.1 entry.2
  named : handler = none → type ≠ m.regs.activeContext

/-- The value on the stack is the same on a heap with the same element. -/
theorem stackValue_withHeap {h : Heap} (hkept : ∀ x, m.heap.fetchField m.regs.activeContext
      (m.regs.sp - argc) = .ok x → h.fetchField m.regs.activeContext (m.regs.sp - argc) = .ok x)
    (hv : m.stackValue argc = .ok v) : (m.withHeap h).stackValue argc = .ok v := by
  obtain ⟨hdepth, hfetch⟩ := stackValue_eq_ok hv
  unfold stackValue
  rw [withHeap_regs, if_neg (Nat.not_lt.mpr hdepth)]
  exact liftFault_eq_ok.mpr (hkept v hfetch)

theorem classOf_withHeap {h : Heap} (hkept : ∀ v, m.heap.typeOf v = .ok type → h.typeOf v = .ok type)
    (htype : m.classOf v = .ok type) : (m.withHeap h).classOf v = .ok type := by
  cases v with
  | int n => exact htype
  | object a => exact liftFault_eq_ok.mpr (hkept _ (liftFault_eq_ok.mp htype))
  | bytes a => exact liftFault_eq_ok.mpr (hkept _ (liftFault_eq_ok.mp htype))
  | words a => exact liftFault_eq_ok.mpr (hkept _ (liftFault_eq_ok.mp htype))

/-- A message stays unknown when there are more objects. -/
theorem IsUnknown.of_extended (hu : IsUnknown m selector argc handler type) {h : Heap}
    (hsettled : m.heap.Settled) (he : m.heap.Extended h) :
    IsUnknown (m.withHeap h) selector argc handler type where
  receiver := by
    obtain ⟨receiver, hreceiver, htype⟩ := hu.receiver
    exact ⟨receiver, stackValue_withHeap (fun _ => he.retains.fetchField id) hreceiver,
      classOf_withHeap (fun v => he.types v type) htype⟩
  unknown := by
    obtain ⟨t, ht⟩ := hu.unknown
    exact lookup_of_extended hsettled he ht
  handled := hu.handled.imp_right fun ⟨hne, t, ht⟩ => ⟨hne, lookup_of_extended hsettled he ht⟩
  hasCode entry hentry := (hu.hasCode entry hentry).of_fetchField fun _ => he.retains.fetchField id
  named := hu.named

/-- What becomes of an unknown message. -/
def react (type selector : Value) (argc : Nat) : Option (Value × MethodHeader) → MachineM Unit
  | some (handler, header) => do
    popN argc
    push selector
    enter handler header 1
  | none => do
    let selectorText ← read (·.textOf selector)
    let typeText ← read (·.typeName type)
    throw (.unknownSelector selectorText typeText)

theorem uncached_react : Uncached (react type selector argc handler) := by
  cases handler with
  | some entry =>
      refine (Uncached.popN _).bind fun _ => (Uncached.push _).bind fun _ => ?_
      exact .ite (.activateMethod _ _ _) (.throw _)
  | none =>
      refine (Uncached.read fun _ _ => rfl).bind fun _ => (Uncached.read fun _ _ => rfl).bind fun _ => ?_
      exact .throw _

/-- A lookup changes only the cache. -/
theorem eq_withCache_of_lookup {type selector : Value} {found : Option Value}
    (hlookup : lookup type selector m = .ok found m') : ∃ c, m' = m.withCache c := by
  obtain ⟨cached, t, hcached, hlookup⟩ := bind_eq_ok.mp hlookup
  have ht : t = m.withCache (m.cache.get type selector).2 := by
    cases hcached
    rfl
  subst ht
  cases cached with
  | some method =>
      obtain ⟨-, rfl⟩ := pure_eq_ok.mp hlookup
      exact ⟨_, rfl⟩
  | none =>
      obtain ⟨found', t, hread, hlookup⟩ := bind_eq_ok.mp hlookup
      obtain ⟨-, rfl⟩ := read_eq_ok.mp hread
      cases found' with
      | none =>
          obtain ⟨-, rfl⟩ := pure_eq_ok.mp hlookup
          exact ⟨_, rfl⟩
      | some method =>
          cases hlookup
          exact ⟨_, rfl⟩

/-- A lookup that finds nothing leaves the cache as it is but for its counts. -/
theorem exists_of_lookup_none {t : Machine} (hlookup : lookup type selector m = .ok none t) :
    ∃ c, t = m.withCache c ∧ ∀ type selector, c.find? type selector = m.cache.find? type selector := by
  obtain ⟨cached, t₁, hcached, hlookup⟩ := bind_eq_ok.mp hlookup
  have ht₁ : t₁ = m.withCache (m.cache.get type selector).2 := by
    cases hcached
    rfl
  subst ht₁
  refine ⟨(m.cache.get type selector).2, ?_, fun type' selector' => ?_⟩
  · cases cached with
    | some method => cases hlookup
    | none =>
        obtain ⟨found, t₂, hread, hlookup⟩ := bind_eq_ok.mp hlookup
        obtain ⟨-, rfl⟩ := read_eq_ok.mp hread
        cases found with
        | some method => cases hlookup
        | none =>
            cases hlookup
            rfl
  · unfold MethodCache.get
    cases m.cache.find? type selector <;> rfl

/-- A lookup depends only on what the cache has. -/
theorem exists_lookup_withCache {c : MethodCache} {found : Option Value}
    (hfind : ∀ type selector, c.find? type selector = m.cache.find? type selector)
    (hlookup : ∃ t, lookup type selector m = .ok found t) :
    ∃ t, lookup type selector (m.withCache c) = .ok found t := by
  refine exists_lookup_iff.mpr ?_
  have hhas : (m.withCache c).cache.find? type selector = m.cache.find? type selector := hfind ..
  rw [hhas, show (m.withCache c).lookupMethod type selector = m.lookupMethod type selector from
    lookupFrom_withCache _ _]
  exact exists_lookup_iff.mp hlookup

/-- A push stores above what it does not change. -/
theorem fetchField_of_push_of_ne (hsettled : m.heap.Settled) {v w x : Value} {i : Nat}
    (hpush : push v m = .ok () m') (hi : i ≠ m.regs.sp + 1) (hx : m.heap.fetchField w i = .ok x) :
    m'.heap.fetchField w i = .ok x := by
  rw [push_run] at hpush
  split at hpush
  · cases hpush
  · obtain ⟨_, m₁, hstore, hrest⟩ := bind_eq_ok.mp hpush
    obtain ⟨h, hrun, rfl⟩ := onHeap_eq_ok.mp hstore
    cases hrest
    exact ((Heap.stored_of_eq_ok hsettled hrun).other w i x (.inr hi)).mpr hx

/-- A handler with code is activated with the selector as argument. -/
theorem handle_run (hsettled : m.heap.Settled) {send : Value → MachineM Unit}
    (hc : HasCode m.heap method header) :
    (do popN argc; push selector; invoke store send method 1 : MachineM Unit) m =
      react type selector argc (some (method, header)) m := by
  refine bind_congr_of_ok fun _ t hpop => bind_congr_of_ok fun _ t' hpush => ?_
  have hheap : t.heap = m.heap := by
    rw [popN_run] at hpop
    split at hpop
    · cases hpop
    · cases hpop
      rfl
  -- the push has left the header alone: it is field zero, and no stack reaches down to that
  refine invoke_of_hasCode (hc.of_fetchField fun x hx => ?_) 1
  exact fetchField_of_push_of_ne (hheap ▸ hsettled) hpush (Nat.succ_ne_zero _).symm (hheap ▸ hx)

/-- A message that is not understood goes to the handler that is looked up. -/
theorem send_of_unknown (store : MachineM Unit → MachineM Unit) (hsettled : m.heap.Settled)
    (hu : IsUnknown m selector argc handler type) :
    ∃ c, send store selector argc m = recached c (react type selector argc handler m) := by
  obtain ⟨receiver, hreceiver, htype⟩ := hu.receiver
  obtain ⟨t, hlookup⟩ := hu.unknown
  have hdispatch : ∀ nested, dispatch store (doesNotUnderstand store) nested argc selector m =
      doesNotUnderstand store type selector argc t := by
    intro nested
    refine (bind_eq_of_ok (read_eq_ok.mpr ⟨hreceiver, rfl⟩)).trans ?_
    refine (bind_eq_of_ok (read_eq_ok.mpr ⟨htype, rfl⟩)).trans ?_
    exact bind_eq_of_ok hlookup
  have hsend : send store selector argc m = doesNotUnderstand store type selector argc t := by
    cases argc with
    | zero => exact hdispatch _
    | succ argc => exact hdispatch _
  obtain ⟨c, rfl, hfind⟩ := exists_of_lookup_none hlookup
  rw [hsend]
  rcases hu.handled with ⟨heq, rfl⟩ | ⟨hne, hhandler⟩
  · refine ⟨c, ?_⟩
    rw [← uncached_react]
    exact congrFun (if_pos heq) _
  -- the handler is looked up after the selector, when the cache has counted one miss more
  · obtain ⟨t, hhandler⟩ := exists_lookup_withCache hfind hhandler
    obtain ⟨c', rfl⟩ := eq_withCache_of_lookup hhandler
    refine ⟨c', ?_⟩
    rw [← uncached_react]
    refine (congrFun (if_neg hne) _).trans ((bind_eq_of_ok hhandler).trans ?_)
    cases handler with
    | none => rfl
    | some entry => exact handle_run (m := m.withCache c') hsettled (hu.hasCode entry rfl)

/-! ## On a machine that has grown -/

/-- The second machine has grown out of the first, which has the fields of a context below the operand stack
of its active context. -/
structure Abreast (ρ : Handle → Handle) (old : Set Handle) (m m' : Machine) : Prop where
  akin : Akin ρ old m.Saved m m'
  tighter : m.heap.Tighter m'.heap
  base : Slot.contextTail ≤ m.regs.stackBase
  high : m.regs.stackBase ≤ m.regs.sp + 1

namespace Abreast

variable (hp : Abreast ρ old m m')
include hp

theorem trails_popN (n : Nat) :
    Trails (fun _ t _ t' => Abreast ρ old t t') (popN n m) (popN n m') := by
  rw [popN_run, popN_run, hp.akin.regs_eq]
  split
  · exact .error
  · refine .ok ⟨⟨?_, hp.akin.heap, hp.akin.roots⟩, hp.tighter, hp.base, ?_⟩
    · rw [hp.akin.rest]
      rfl
    · dsimp only
      omega

theorem trails_push (hv : v.Within old) :
    Trails (fun _ t _ t' => Abreast ρ old t t') (push v m) (push v m') := by
  rw [push_run, push_run, hp.akin.regs_eq]
  -- the stack begins above the saved pointers
  have hout : ¬m.Saved m.regs.activeContext (m.regs.sp + 1) := fun hsaved => by
    have := hsaved.lt
    have := hp.base
    have := hp.high
    omega
  split
  · exact .error
  · refine (hp.akin.trails_storeField hp.tighter hp.akin.activeContext hout hv).bind ?_
    rintro _ t _ t' ⟨ha, hrest, htighter⟩
    rw [hrest] at ha htighter ⊢
    refine .ok ⟨⟨?_, ha.heap, ha.roots⟩, htighter, hp.base, hp.high.trans (Nat.le_succ _)⟩
    rw [ha.rest]
    rfl

theorem trails_enter (hmethod : method.Within old) :
    Trails (fun _ u _ u' => ∃ ρ, Isomorphic ρ u u') (enter method header argc m)
      (enter method header argc m') := by
  unfold enter
  split
  · exact hp.akin.trails_activateMethod hp.tighter header hp.base hmethod
  · exact .error

/-- What becomes of an unknown message is the same. -/
theorem trails_react (hselector : selector.Within old) (htype : type.Within old)
    (hhandler : ∀ entry ∈ handler, entry.1.Within old) (hnamed : handler = none → type ≠ m.regs.activeContext)
    (hactive : m.regs.activeContext.tag = .object) :
    Trails (fun _ u _ u' => ∃ ρ, Isomorphic ρ u u') (react type selector argc handler m)
      (react type selector argc handler m') := by
  cases handler with
  | some entry =>
      refine (hp.trails_popN argc).bind fun _ t _ t' hp => ?_
      refine (hp.trails_push hselector).bind fun _ t _ t' hp => ?_
      exact hp.trails_enter (hhandler entry rfl)
  | none =>
      -- texts are no contexts, so both machines tell the same
      have hbytes : ∀ a i, ¬m.Saved (.bytes a) i := fun a i hsaved => by
        rw [← hsaved.1] at hactive
        cases hactive
      have htype' : m'.typeName type = m.typeName type :=
        hp.akin.typeName_eq htype (fun hsaved => hnamed rfl hsaved.1) hbytes
      refine (Trails.read (hp.akin.textOf_eq hselector hbytes)).bind ?_
      rintro selectorText _ _ _ ⟨rfl, -, rfl, rfl⟩
      refine (Trails.read htype').bind ?_
      rintro typeText _ _ _ ⟨rfl, -, rfl, rfl⟩
      exact .error

end Abreast

end MessageMachine.Machine
