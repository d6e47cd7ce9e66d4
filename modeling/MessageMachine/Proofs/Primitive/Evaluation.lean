import MessageMachine.Proofs.Frame.Activation
import MessageMachine.Proofs.Machine.Lockstep
import MessageMachine.Proofs.Machine.Mirror
import MessageMachine.Proofs.Primitive.Indexing
import MessageMachine.Proofs.Send.Perform

/-!
# Evaluating blocks
-/

namespace MessageMachine

namespace Machine

variable {m m₁ m' t : Machine} {block : Value} {vs : List Value} {height : Nat}

/-! ## What an evaluation does -/

/-- In `t` a block is evaluated with `vs` for arguments.  The context that was active in `m` has its
pointers saved, with `height` for the stack pointer, and what is above that counts for nothing. -/
structure Evaluating (m : Machine) (block : Value) (vs : List Value) (height : Nat) (t : Machine) :
    Prop where
  rest : ∃ h r, t = { m with heap := h, regs := r }
  fresh : ∀ type, m.heap.typeOf t.regs.activeContext ≠ .ok type
  type : t.heap.typeOf t.regs.activeContext = .ok (m.known .blockContext)
  count : t.heap.fieldCount t.regs.activeContext = m.heap.fieldCount block
  copied : ∀ i < Slot.contextTail, i ≠ Slot.ip → i ≠ Slot.sp → i ≠ Slot.caller →
    t.heap.fetchField t.regs.activeContext i = m.heap.fetchField block i
  ip : t.heap.fetchField t.regs.activeContext Slot.ip = m.heap.fetchField block Slot.initialIp
  sp : t.heap.fetchField t.regs.activeContext Slot.sp = .ok (.ofNat (Slot.contextTail + vs.length - 1))
  caller : t.heap.fetchField t.regs.activeContext Slot.caller = .ok m.regs.activeContext
  arguments : ∀ j v, vs[j]? = some v →
    t.heap.fetchField t.regs.activeContext (Slot.contextTail + j) = .ok v
  loaded : loadContext t.heap { m.regs with sp := height } t.regs.activeContext = .ok t.regs
  saved : m.regs.activeContext ≠ m.known .nil →
    t.heap.fetchField m.regs.activeContext Slot.ip = .ok (.ofNat m.regs.ip) ∧
      t.heap.fetchField m.regs.activeContext Slot.sp = .ok (.ofNat height)
  other : ∀ v i x, m.heap.fetchField v i = .ok x →
    ¬(v = m.regs.activeContext ∧ (i = Slot.ip ∨ i = Slot.sp ∨ height < i)) →
      t.heap.fetchField v i = .ok x

/-- What an evaluation does once the arguments have been counted. -/
def enterBlock (block caller source : Value) (first argc consumed : Nat) : MachineM Unit := do
  let context ← instantiateBlock block caller
  onHeap (Heap.transferFields source first context Slot.contextTail argc)
  storeField context Slot.sp (.ofNat (Slot.contextTail + argc - 1))
  popN consumed
  flush
  reload context

theorem activateBlock_run {expected : Nat} (harity : m.blockArity block = .ok expected)
    (source : Value) (first argc consumed : Nat) :
    activateBlock block source first argc consumed m = if expected = argc then
      enterBlock block m.regs.activeContext source first argc consumed m
      else .error (.wrongArgumentCount expected argc) m := by
  unfold activateBlock
  rw [bind_eq_of_ok (read_eq_ok.mpr ⟨harity, rfl⟩)]
  split <;> rfl

theorem read_blockArity_error {fault : Fault} (harity : m.blockArity block = .error fault) :
    read (·.blockArity block) m = .error fault m := by
  unfold read
  dsimp only
  rw [harity]

theorem activateBlock_error {fault : Fault} (harity : m.blockArity block = .error fault)
    (source : Value) (first argc consumed : Nat) :
    activateBlock block source first argc consumed m = .error fault m :=
  bind_eq_of_error (read_blockArity_error harity)

/-- A context with `n` fields that `xs` lists runs a block with `vs` for arguments. -/
structure Instance (m : Machine) (block : Value) (vs : List Value) (n : Nat) (xs : Nat → Value) :
    Prop where
  count : m.heap.fieldCount block = .ok n
  tail : Slot.contextTail + vs.length ≤ n
  copied : ∀ i < Slot.contextTail, i ≠ Slot.ip → i ≠ Slot.sp → i ≠ Slot.caller →
    m.heap.fetchField block i = .ok (xs i)
  ip : xs Slot.ip = xs Slot.initialIp
  sp : xs Slot.sp = .ofNat (Slot.contextTail + vs.length - 1)
  caller : xs Slot.caller = m.regs.activeContext
  arguments : ∀ j v, vs[j]? = some v → xs (Slot.contextTail + j) = v

/-- The context of an evaluation, before the one that evaluates is left. -/
theorem exists_instance (hsettled : m.heap.Settled) {source : Value} {first consumed : Nat}
    (hsource : (do Heap.slice (← m.heap.fields source) first vs.length) = .ok vs.toArray)
    (hrun : activateBlock block source first vs.length consumed m = .ok () t) :
    ∃ c n xs m₁, IsDraft m .blockContext n c xs m₁ ∧ Instance m block vs n xs ∧
      (do popN consumed; flush; reload c : MachineM Unit) m₁ = .ok () t := by
  obtain ⟨c, n, xs, ys, m₁, hcopy, hd, hsame, hfits, hmoved, hrest⟩ :=
    exists_copy_of_activateBlock hsettled hrun
  refine ⟨c, n, _, m₁, hd, ?_, hrest⟩
  have hnamed : ∀ {i}, i < Slot.contextTail → i ≠ Slot.sp →
      Function.update ys Slot.sp (.ofNat (Slot.contextTail + vs.length - 1)) i = xs i := by
    intro i hi hsp
    rw [Function.update_of_ne hsp, hsame i (.inl hi)]
  constructor
  case count => exact hcopy.count
  case tail => exact hfits
  case copied =>
    intro i hi hip hsp hcaller
    rw [hnamed hi hsp]
    exact hcopy.copied i hi hip hsp hcaller
  case ip => rw [hnamed (by decide) (by decide), hnamed (by decide) (by decide), hcopy.ip]
  case sp => exact Function.update_self ..
  case caller => rw [hnamed (by decide) (by decide), hcopy.caller]
  case arguments =>
    intro j v hv
    obtain ⟨zs, hzs, hslice⟩ := reading_bind_eq_ok.mp hsource
    obtain ⟨hlength, hextract⟩ := Heap.slice_eq_ok.mp hslice
    have hj : j < vs.length := (List.getElem?_eq_some_iff.mp hv).1
    have helement : zs[first + j]? = some v := by
      have hget : vs.toArray[j]? = some v := by simpa using hv
      rwa [hextract, Array.getElem?_extract, if_pos (by omega)] at hget
    have hfetch : m.heap.fetchField source (first + j) = .ok v :=
      Heap.fetchField_eq_ok.mpr ⟨zs, hzs, helement⟩
    obtain ⟨_, hd, -⟩ := hd
    have hne : source ≠ c := hd.ne (Heap.exists_typeOf_of_fetchField hfetch)
    rw [Function.update_of_ne (by simp only [Slot.contextTail, Slot.sp]; omega)]
    exact Except.ok.inj ((hmoved j hj hne).symm.trans hfetch)

/-- A block that is evaluated runs in a fresh context. -/
theorem evaluating_of_eq_ok (hsettled : m.heap.Settled)
    (hactive : ∃ type, m.heap.typeOf m.regs.activeContext = .ok type) {source : Value}
    {first consumed : Nat}
    (hsource : (do Heap.slice (← m.heap.fields source) first vs.length) = .ok vs.toArray)
    (hrun : activateBlock block source first vs.length consumed m = .ok () t) :
    Evaluating m block vs (m.regs.sp - consumed) t := by
  obtain ⟨c, n, xs, _, ⟨h, hd, rfl⟩, hinstance, hleave⟩ := exists_instance hsettled hsource hrun
  obtain ⟨_, m₂, hpop, hrest⟩ := bind_eq_ok.mp hleave
  obtain rfl : m₂ = { m with heap := h, regs := { m.regs with sp := m.regs.sp - consumed } } := by
    rw [popN_run] at hpop
    split at hpop
    · cases hpop
    · exact (EStateM.Result.ok.inj hpop).2.symm
  obtain ⟨_, m₃, hflush, hreload⟩ := bind_eq_ok.mp hrest
  obtain ⟨h', rfl, haltered, hsaved⟩ := flush_eq_ok hd.settled hflush
  obtain ⟨regs, _, hread, hmodify⟩ := bind_eq_ok.mp hreload
  obtain ⟨hload, rfl⟩ := read_eq_ok.mp hread
  cases hmodify
  have hload := liftFault_eq_ok.mp hload
  have hcontext : regs.activeContext = c := (loadContext_eq_ok.mp hload).2.1
  have hne : c ≠ m.regs.activeContext := (hd.ne hactive).symm
  have hfield : ∀ {i}, i < n → h'.fetchField c i = .ok (xs i) := fun hi =>
    (haltered.other _ _ _ (.inl hne)).mpr (hd.exists_field hi)
  have hslot : ∀ {i}, i < Slot.contextTail → i < n := fun hi =>
    Nat.lt_of_lt_of_le hi (Nat.le_trans (Nat.le_add_right ..) hinstance.tail)
  subst hcontext
  constructor
  case rest => exact ⟨h', regs, rfl⟩
  case fresh => exact hd.stale
  case type => exact (haltered.types _).trans hd.type_eq
  case count => exact ((haltered.counts _).trans hd.count_eq).trans hinstance.count.symm
  case copied =>
    intro i hi hip hsp hcaller
    exact (hfield (hslot hi)).trans (hinstance.copied i hi hip hsp hcaller).symm
  case ip =>
    have hinitial := hinstance.copied Slot.initialIp (by decide) (by decide) (by decide) (by decide)
    rw [hinitial, ← hinstance.ip]
    exact hfield (hslot (by decide))
  case sp => exact hinstance.sp ▸ hfield (hslot (by decide))
  case caller => exact hinstance.caller ▸ hfield (hslot (by decide))
  case arguments =>
    intro j v hv
    have hj : j < vs.length := (List.getElem?_eq_some_iff.mp hv).1
    have htail := hinstance.tail
    rw [← hinstance.arguments j v hv]
    exact hfield (by omega)
  case loaded => exact hload
  case saved => exact hsaved
  case other =>
    intro v i x hx hout
    have hv : v ≠ regs.activeContext := hd.ne (Heap.exists_typeOf_of_fetchField hx)
    refine (haltered.other v i x ?_).mpr ((hd.other v i x hv).mpr hx)
    by_cases hactive : v = m.regs.activeContext
    · exact .inr fun hi => hout ⟨hactive, hi.imp_right .inl⟩
    · exact .inl hactive

/-! ## Where the arguments come from -/

/-- Arguments that were on the heap are there after a new object has been made. -/
theorem IsDraft.slice_eq {type : Landmark} {n : Nat} {c : Value} {xs : Nat → Value}
    (hd : IsDraft m type n c xs m₁) {source : Value} {first count : Nat} {ys : Array Value}
    (hsource : (do Heap.slice (← m.heap.fields source) first count) = .ok ys) :
    (do Heap.slice (← m₁.heap.fields source) first count) = .ok ys := by
  obtain ⟨zs, hzs, hslice⟩ := reading_bind_eq_ok.mp hsource
  obtain ⟨h, hd, rfl⟩ := hd
  obtain ⟨a, o, rfl, ho, -⟩ := Heap.fields_eq_ok.mp hzs
  have hne : Value.object a ≠ c := hd.ne ⟨_, Heap.typeOf_eq_ok.mpr ⟨a, o, rfl, ho, rfl⟩⟩
  exact reading_bind_eq_ok.mpr ⟨zs, hd.fields_eq_ok hne hzs, hslice⟩

section Lockstep

/-- Values that are there are dropped. -/
theorem popN_eq_ok {n : Nat} (hheight : m.regs.stackBase + n ≤ m.regs.sp + 1) :
    popN n m = .ok () (m.dropped n) := by
  rw [popN_run, if_neg (Nat.not_lt.mpr hheight)]
  rfl

theorem Twins.dropped {but : Value → Nat → Prop} (ht : Twins but m m') (n n' : Nat) :
    Twins but (m.dropped n) (m'.dropped n') := by
  obtain ⟨h, sp, rfl⟩ := ht.rest
  exact ⟨⟨h, sp - n', rfl⟩, ht.heap⟩

variable {but : Value → Nat → Prop} {source source' : Value} {first first' consumed consumed' : Nat}

/-- A block is evaluated alike with the same arguments, wherever these are taken from. -/
theorem Twins.alike_activateBlock (ht : Twins but m m')
    (hlow : ∀ v i, but v i → Slot.contextTail ≤ i)
    (hsource : (do Heap.slice (← m.heap.fields source) first vs.length) = .ok vs.toArray)
    (hsource' : (do Heap.slice (← m'.heap.fields source') first' vs.length) = .ok vs.toArray)
    (hheight : m.regs.stackBase + consumed ≤ m.regs.sp + 1)
    (hheight' : m'.regs.stackBase + consumed' ≤ m'.regs.sp + 1)
    (hsp : m'.regs.sp - consumed' = m.regs.sp - consumed) :
    Alike but (activateBlock block source first vs.length consumed m)
      (activateBlock block source' first' vs.length consumed' m') := by
  have hout : ∀ {v i}, i < Slot.contextTail → ¬but v i := fun hi hbut =>
    absurd (hlow _ _ hbut) (Nat.not_le.mpr hi)
  have harities : m'.blockArity block = m.blockArity block := ht.blockArity_eq (hout (by decide))
  cases harity : m.blockArity block with
  | error fault =>
      rw [activateBlock_error harity, activateBlock_error (harities.trans harity)]
      exact .error ht
  | ok expected =>
  rw [activateBlock_run harity, activateBlock_run (harities.trans harity), ht.activeContext_eq]
  split
  case isFalse => exact .error ht
  refine (ht.alike_instantiateBlock hlow _ _).bind fun context m₁ m₁' hmade hmade' ht₁ => ?_
  have hdraft := @ensures_copyBlock m ht.heap.settled block m.regs.activeContext _
    (blockArity_eq_ok harity) m rfl
  have hdraft' := @ensures_copyBlock m' ht.heap.settled' block m.regs.activeContext _
    (blockArity_eq_ok (harities.trans harity)) m' rfl
  rw [hmade] at hdraft
  rw [hmade'] at hdraft'
  obtain ⟨_, _, hd, -⟩ := hdraft
  obtain ⟨_, _, hd', -⟩ := hdraft'
  have hmoved := (hd.slice_eq hsource).trans (hd'.slice_eq hsource').symm
  obtain ⟨h₁, -, rfl⟩ := hd
  obtain ⟨h₁', -, rfl⟩ := hd'
  refine (ht₁.alike_onHeap (ht₁.heap.alike_transferFields hmoved)).bind fun _ m₂ m₂' hrun hrun' ht₂ => ?_
  obtain ⟨h₂, -, rfl⟩ := onHeap_eq_ok.mp hrun
  obtain ⟨h₂', -, rfl⟩ := onHeap_eq_ok.mp hrun'
  refine (ht₂.alike_storeField (hout (by decide)) _).bind fun _ m₃ m₃' hrun hrun' ht₃ => ?_
  obtain ⟨h₃, -, rfl⟩ := onHeap_eq_ok.mp hrun
  obtain ⟨h₃', -, rfl⟩ := onHeap_eq_ok.mp hrun'
  have hpop := popN_eq_ok (m := m.withHeap h₃) hheight
  have hpop' := popN_eq_ok (m := m'.withHeap h₃') hheight'
  have ht₄ := ht₃.dropped consumed consumed'
  show Alike but ((popN consumed >>= fun _ => flush >>= fun _ => reload context) (m.withHeap h₃))
    ((popN consumed' >>= fun _ => flush >>= fun _ => reload context) (m'.withHeap h₃'))
  rw [bind_eq_of_ok hpop, bind_eq_of_ok hpop']
  refine (ht₄.alike_flush hlow hsp).bind fun _ m₅ m₅' hrun hrun' ht₅ => ?_
  obtain ⟨h₅, rfl, -, -⟩ := flush_eq_ok ht₄.heap.settled hrun
  obtain ⟨h₅', rfl, -, -⟩ := flush_eq_ok ht₄.heap.settled' hrun'
  exact ht₅.alike_reload hlow hsp context

end Lockstep

/-! ## The two ways -/

/-- The primitives that evaluate a block with arguments from the stack. -/
def evaluators : List Primitive := [.blockValue, .blockValue1, .blockValue2, .blockValue3]

/-- Evaluates a block, if it is one, and declines otherwise. -/
def evaluate (block source : Value) (first argc consumed : Nat) : MachineM Bool := do
  unless ← read (·.isBlock block) do return false
  activateBlock block source first argc consumed
  return true

theorem run_evaluators {p : Primitive} (hp : p ∈ evaluators) (send : Value → MachineM Unit) :
    p.run id send = blockValue p.arity := by
  simp only [evaluators, List.mem_cons, List.not_mem_nil, or_false] at hp
  obtain rfl | rfl | rfl | rfl := hp <;> rfl

theorem arity_le {p : Primitive} (hp : p ∈ evaluators) : p.arity ≤ 3 := by
  simp only [evaluators, List.mem_cons, List.not_mem_nil, or_false] at hp
  obtain rfl | rfl | rfl | rfl := hp <;> decide

theorem blockValue_run {argc : Nat} (hblock : m.stackValue argc = .ok block) : blockValue argc m =
    evaluate block m.regs.activeContext (m.regs.sp + 1 - argc) argc (argc + 1) m := by
  unfold blockValue evaluate
  rw [bind_eq_of_ok (read_eq_ok.mpr ⟨hblock, rfl⟩)]
  cases hrun : read (·.isBlock block) m with
  | error fault t => rw [bind_eq_of_error hrun, bind_eq_of_error hrun]
  | ok b t =>
      obtain ⟨-, heq⟩ := read_eq_ok.mp hrun
      rw [bind_eq_of_ok hrun, bind_eq_of_ok hrun, heq]
      cases b <;> rfl

/-- The arguments are counted twice, with the same result. -/
theorem valueWithArguments_run {array : Value} {argc : Nat} (hblock : m.stackValue 1 = .ok block)
    (hargument : m.stackValue 0 = .ok array) (harray : m.isInstance array .array = .ok true)
    (hcount : m.heap.fieldCount array = .ok argc) :
    valueWithArguments m = evaluate block array 0 argc 2 m := by
  unfold valueWithArguments evaluate
  rw [bind_eq_of_ok (read_eq_ok.mpr ⟨hblock, rfl⟩), bind_eq_of_ok (read_eq_ok.mpr ⟨hargument, rfl⟩)]
  cases hrun : read (·.isBlock block) m with
  | error fault t => rw [bind_eq_of_error hrun, bind_eq_of_error hrun]
  | ok b t =>
      obtain ⟨-, heq⟩ := read_eq_ok.mp hrun
      rw [bind_eq_of_ok hrun, bind_eq_of_ok hrun, heq]
      cases b with
      | false => rfl
      | true =>
          have hread : read (·.isInstance array .array) m = .ok true m := read_eq_ok.mpr ⟨harray, rfl⟩
          rw [if_pos rfl, if_pos rfl, bind_eq_of_ok hread, if_pos rfl,
            bind_eq_of_ok (readHeap_eq_ok.mpr ⟨hcount, rfl⟩)]
          cases harity : m.blockArity block with
          | error fault =>
              rw [bind_eq_of_error (activateBlock_error harity ..)]
              exact bind_eq_of_error (read_blockArity_error harity)
          | ok expected =>
              rw [bind_eq_of_ok (read_eq_ok.mpr ⟨harity, rfl⟩)]
              by_cases hexpected : argc = expected
              · rw [if_pos hexpected]
              · have hrefused := activateBlock_run harity array 0 argc 2
                rw [if_neg (Ne.symm hexpected)] at hrefused
                rw [if_neg hexpected, bind_eq_of_error hrefused]
                rfl

/-! ## Operands that are pushed for them -/

section Pushed

variable {array : Value}

/-- Pushing values leads to a twin. -/
theorem Roomy.twins (hroom : m.Roomy vs.length) (hsettled : m.heap.Settled)
    (hpush : vs.forM push m = .ok () m₁) (hpushed : Pushed m vs m₁) : Twins m.Above m m₁ := by
  obtain ⟨a, header, xs, hactive, hframe, hsize⟩ := hroom.exists_frame
  have hrun := pushed_run hactive hframe hsize hroom.limit
  obtain ⟨_, hm₁⟩ := hpushed.rest
  cases hpush.symm.trans hrun
  exact ⟨⟨_, _, rfl⟩, .of_replace hsettled hframe hpushed.agrees⟩

/-- The values that were pushed are fields of the active context. -/
theorem Pushed.slice_eq (hpushed : Pushed m (block :: vs) m₁) (hroom : m.Roomy (vs.length + 1)) :
    (do Heap.slice (← m₁.heap.fields m₁.regs.activeContext) (m₁.regs.sp + 1 - vs.length) vs.length) =
      .ok vs.toArray := by
  have hlength : (block :: vs).length = vs.length + 1 := rfl
  have hlimit := hroom.limit
  rw [hpushed.sp_eq, hpushed.activeContext_eq, hlength,
    show m.regs.sp + (vs.length + 1) + 1 - vs.length = m.regs.sp + 2 by omega]
  have hcount := (hpushed.agrees.fieldCount_eq m.regs.activeContext).trans hroom.context
  obtain ⟨xs, hxs, hsize⟩ := Heap.fieldCount_eq_ok.mp hcount
  refine reading_bind_eq_ok.mpr ⟨xs, hxs, Heap.slice_eq_ok.mpr ⟨by omega, ?_⟩⟩
  apply Array.ext_getElem?
  intro j
  rw [Array.getElem?_extract]
  by_cases hj : j < vs.length
  · have hvalue := hpushed.value (j + 1) vs[j] (List.getElem?_eq_getElem hj)
    obtain ⟨ys, hys, hget⟩ := Heap.fetchField_eq_ok.mp hvalue
    cases hxs.symm.trans hys
    rw [show m.regs.sp + 1 + (j + 1) = m.regs.sp + 2 + j by omega] at hget
    rw [if_pos (by omega), hget]
    simp [hj]
  · rw [if_neg (by omega)]
    simp [Nat.le_of_not_lt hj]

/-- What an evaluation does is seen from the machine before the operands were pushed. -/
theorem Evaluating.of_pushed {ws : List Value} (hpushed : Pushed m ws m₁)
    (hroom : m.Roomy ws.length) (he : Evaluating m₁ block vs m.regs.sp t) :
    Evaluating m block vs m.regs.sp t := by
  have hbase := hroom.base
  have hheight := hroom.height
  have hlow : ∀ {i}, i < Slot.contextTail → m₁.heap.fetchField block i = m.heap.fetchField block i := by
    intro i hi
    refine hpushed.agrees.fetchField_eq fun habove => ?_
    have hsp := habove.2
    omega
  obtain ⟨h₁, rfl⟩ := hpushed.rest
  constructor
  case rest => exact he.rest
  case fresh => exact fun type htype => he.fresh type ((hpushed.agrees.typeOf_eq _).trans htype)
  case type => exact he.type
  case count => exact he.count.trans (hpushed.agrees.fieldCount_eq block)
  case copied => exact fun i hi hip hsp hcaller => (he.copied i hi hip hsp hcaller).trans (hlow hi)
  case ip => exact he.ip.trans (hlow (by decide))
  case sp => exact he.sp
  case caller => exact he.caller
  case arguments => exact he.arguments
  case loaded => exact he.loaded
  case saved => exact he.saved
  case other =>
    intro v i x hx hout
    refine he.other v i x ?_ hout
    rw [hpushed.agrees.fetchField_eq fun habove => hout ⟨habove.1, .inr (.inr habove.2)⟩]
    exact hx

/-- The stack of a block holds its arguments. -/
theorem Evaluating.sp_eq (he : Evaluating m block vs height t) :
    t.regs.sp = Slot.contextTail + vs.length - 1 := by
  obtain ⟨-, -, -, hsp, -⟩ := loadContext_eq_ok.mp he.loaded
  have heq := Except.ok.inj (he.sp.symm.trans hsp)
  exact (Int.ofNat.inj (Value.int.inj heq)).symm

end Pushed

/-! ## Both ways in lock step -/

section Both

variable {but : Value → Nat → Prop} {array : Value}

/-- Trying what is alike is alike. -/
theorem Alike.attempt {x y : MachineM Bool} (hx : Alike but (x m) (y m')) :
    Alike but (Machine.attempt x m) (Machine.attempt y m') := by
  have hdecline : ∀ {t t' : Machine}, Twins but t t' →
      Twins but { t with regs.sp := m.regs.sp } { t' with regs.sp := m'.regs.sp } := by
    intro t t' ht'
    obtain ⟨h, sp, rfl⟩ := ht'.rest
    exact ⟨⟨h, m'.regs.sp, rfl⟩, ht'.heap⟩
  unfold Machine.attempt
  generalize x m = r at hx
  generalize y m' = r' at hx
  cases hx with
  | @ok done t t' ht' =>
      cases done with
      | true => exact .ok ht'
      | false => exact .ok (hdecline ht')
  | @error fault t t' ht' =>
      dsimp only
      split
      · exact .error ht'
      · exact .ok (hdecline ht')

theorem congr_attempt {x y : MachineM Bool} (hxy : x m = y m) : attempt x m = attempt y m := by
  unfold attempt
  rw [hxy]

/-- An evaluation that succeeds has entered the block. -/
theorem evaluate_eq_true {source : Value} {first argc consumed : Nat} :
    evaluate block source first argc consumed m = .ok true t ↔ m.isBlock block = .ok true ∧
      activateBlock block source first argc consumed m = .ok () t := by
  unfold evaluate
  constructor
  · intro hrun
    obtain ⟨b, _, hread, hrest⟩ := bind_eq_ok.mp hrun
    obtain ⟨hblock, heq⟩ := read_eq_ok.mp hread
    rw [heq] at hrest
    cases b with
    | false => cases hrest
    | true =>
        obtain ⟨_, t', hactivate, hdone⟩ := bind_eq_ok.mp hrest
        obtain ⟨-, rfl⟩ := pure_eq_ok.mp hdone
        exact ⟨hblock, hactivate⟩
  · rintro ⟨hblock, hactivate⟩
    have hread : read (·.isBlock block) m = .ok true m := read_eq_ok.mpr ⟨hblock, rfl⟩
    rw [bind_eq_of_ok hread, if_pos rfl, bind_eq_of_ok hactivate]
    rfl

/-- A block is evaluated alike if it is entered alike. -/
theorem Twins.alike_evaluate {source source' : Value} {first first' argc consumed consumed' : Nat}
    (ht : Twins but m m') (hactivate : Alike but (activateBlock block source first argc consumed m)
      (activateBlock block source' first' argc consumed' m')) :
    Alike but (evaluate block source first argc consumed m)
      (evaluate block source' first' argc consumed' m') := by
  refine (ht.alike_read (ht.isInstance_eq block .blockContext).symm).bind
    fun b m₁ m₁' hread hread' _ => ?_
  obtain ⟨-, heq⟩ := read_eq_ok.mp hread
  obtain ⟨-, heq'⟩ := read_eq_ok.mp hread'
  rw [heq, heq']
  cases b with
  | false => exact .ok ht
  | true =>
      rw [if_pos rfl, if_pos rfl]
      exact hactivate.bind fun _ _ _ _ _ ht₁ => .ok ht₁

/-- The active context exists. -/
theorem Twins.exists_typeOf (ht : Twins but m m') {n : Nat} (hroom : m.Roomy n) :
    ∃ type, m'.heap.typeOf m'.regs.activeContext = .ok type := by
  obtain ⟨a, header, xs, hactive, hframe, -⟩ := hroom.exists_frame
  rw [ht.heap.agrees.typeOf_eq, ht.activeContext_eq, hactive]
  exact ⟨_, Heap.typeOf_eq_ok.mpr ⟨a, _, rfl, hframe, rfl⟩⟩

/-- The two ways to evaluate a block agree.  Let `vs` be as many arguments as `p` takes, and `array` an
array of them.  Asking a block to evaluate itself with the arguments and with the array ends in the same
way: both decline, or both fail with the same fault, or both enter the block.  All that differs then is
what lies above the stack pointer of the context that evaluates. -/
theorem alike_evaluations {p : Primitive} (hp : p ∈ evaluators) (harity : p.arity = vs.length)
    (hsettled : m.heap.Settled) (hroom : m.Roomy (max (vs.length + 1) 2))
    (harray : m.isInstance array .array = .ok true) (helements : m.heap.fields array = .ok vs.toArray) :
    Alike m.Above (ask p (block :: vs) m) (ask .blockValueWithArguments [block, array] m) ∧
      ∀ t, ask p (block :: vs) m = .ok true t → Evaluating m block vs m.regs.sp t ∧
        ∃ h, ask .blockValueWithArguments [block, array] m = .ok true { t with heap := h } ∧
          Evaluating m block vs m.regs.sp { t with heap := h } := by
  have hargc : vs.length ≤ 3 := harity ▸ arity_le hp
  have hbase := hroom.base
  have hheight := hroom.height
  have hroom₁ : m.Roomy (vs.length + 1) := hroom.fewer (Nat.le_max_left ..)
  have hroom₂ : m.Roomy 2 := hroom.fewer (Nat.le_max_right ..)
  obtain ⟨m₁, hpush₁, hpushed₁⟩ : ∃ m₁, (block :: vs).forM push m = .ok () m₁ ∧
      Pushed m (block :: vs) m₁ := exists_pushed hroom₁
  obtain ⟨m₂, hpush₂, hpushed₂⟩ : ∃ m₂, [block, array].forM push m = .ok () m₂ ∧
      Pushed m [block, array] m₂ := exists_pushed hroom₂
  have ht₁ := hroom₁.twins hsettled hpush₁ hpushed₁
  have ht₂ := hroom₂.twins hsettled hpush₂ hpushed₂
  have ht : Twins m.Above m₁ m₂ := ht₁.symm.trans ht₂
  have hlow : ∀ v i, m.Above v i → Slot.contextTail ≤ i := by
    intro v i habove
    have hsp := habove.2
    omega
  -- the array is too small for the active context
  have hslice₁ := hpushed₁.slice_eq hroom₁
  have hslice₂ : (do Heap.slice (← m₂.heap.fields array) 0 vs.length) = .ok vs.toArray := by
    have hwhole : (do Heap.slice (← m.heap.fields array) 0 vs.length) = .ok vs.toArray :=
      reading_bind_eq_ok.mpr ⟨_, helements, Heap.slice_eq_ok.mpr ⟨by simp, by simp⟩⟩
    refine (hpushed₂.agrees.slice_eq fun i _ hi habove => ?_).symm.trans hwhole
    have hi' := hlow _ _ habove
    have htail : 3 < Slot.contextTail := by decide
    omega
  let x := evaluate block m₁.regs.activeContext (m₁.regs.sp + 1 - vs.length) vs.length (vs.length + 1)
  let y := evaluate block array 0 vs.length 2
  have hask₁ : ask p (block :: vs) m = attempt x m₁ := by
    have hblock : m₁.stackValue vs.length = .ok block :=
      hpushed₁.stackValue hroom₁ (by simp) (by simp)
    have hrun : p.run id (send id · (p.arity - 1)) m₁ = x m₁ := by
      rw [run_evaluators hp, harity]
      exact blockValue_run hblock
    rw [ask_run hpush₁]
    exact congr_attempt hrun
  have hask₂ : ask .blockValueWithArguments [block, array] m = attempt y m₂ := by
    have hblock : m₂.stackValue 1 = .ok block := hpushed₂.stackValue hroom₂ (by simp) rfl
    have hargument : m₂.stackValue 0 = .ok array := hpushed₂.stackValue hroom₂ (by simp) rfl
    have hcount : m₂.heap.fieldCount array = .ok vs.length :=
      (hpushed₂.agrees.fieldCount_eq array).trans (Heap.fieldCount_eq_ok.mpr ⟨_, helements, rfl⟩)
    rw [ask_run hpush₂]
    exact congr_attempt (valueWithArguments_run hblock hargument
      ((ht₂.isInstance_eq array .array).trans harray) hcount)
  rw [hask₁, hask₂]
  have hsp₁ : m₁.regs.sp = m.regs.sp + (vs.length + 1) := hpushed₁.sp_eq
  have hsp₂ : m₂.regs.sp = m.regs.sp + 2 := hpushed₂.sp_eq
  have halike : Alike m.Above (x m₁) (y m₂) := by
    have hbase₁ : m₁.regs.stackBase = m.regs.stackBase := ht₁.stackBase_eq
    have hbase₂ : m₂.regs.stackBase = m.regs.stackBase := ht₂.stackBase_eq
    exact ht.alike_evaluate (ht.alike_activateBlock hlow hslice₁ hslice₂ (by omega) (by omega) (by omega))
  refine ⟨halike.attempt, fun t hrun => ?_⟩
  have hrun₁ : x m₁ = .ok true t := attempt_eq_true.mp hrun
  obtain ⟨t', hrun₂, ht'⟩ := halike.exists_ok hrun₁
  have he₁ : Evaluating m block vs m.regs.sp t := by
    have he := evaluating_of_eq_ok ht₁.heap.settled' (ht₁.exists_typeOf hroom) hslice₁
      (evaluate_eq_true.mp hrun₁).2
    rw [hsp₁, Nat.add_sub_cancel] at he
    exact he.of_pushed hpushed₁ hroom₁
  have he₂ : Evaluating m block vs m.regs.sp t' := by
    have he := evaluating_of_eq_ok ht₂.heap.settled' (ht₂.exists_typeOf hroom) hslice₂
      (evaluate_eq_true.mp hrun₂).2
    rw [hsp₂, Nat.add_sub_cancel] at he
    exact he.of_pushed hpushed₂ hroom₂
  obtain ⟨h, sp, rfl⟩ := ht'.rest
  obtain rfl : sp = t.regs.sp := he₂.sp_eq.trans he₁.sp_eq.symm
  exact ⟨he₁, h, attempt_eq_true.mpr hrun₂, he₂⟩

end Both

end Machine

end MessageMachine
