import MessageMachine.Primitive.Control
import MessageMachine.Proofs.Machine.Embedding

/-!
# Trying once more what has been refused

A special send whose primitive is refused tries it again, through the method that the send finds, before it
runs the code of that method.  So the code runs on a machine that may have grown once more.  Both the
evaluation of a block and the activation of a method make a context, and both go on alike on a machine and on
one that has grown (`Akin.trails_blockValue`, `Akin.trails_activateMethod`).
-/

namespace MessageMachine.Machine

variable {m m' t t' : Machine} {ρ : Handle → Handle} {old : Set Handle} {c v : Value} {n k argc : Nat}

/-- The pointers of the active context are saved below the operand stack. -/
theorem Saved.lt_stackBase (hbase : Slot.contextTail ≤ m.regs.stackBase) {i : Nat}
    (hsaved : m.Saved v i) : i < m.regs.stackBase := hsaved.lt.trans_le hbase

/-- A context with something on its operand stack has the fields of a context. -/
theorem exists_fieldCount_of_stackValue (hbase : Slot.contextTail ≤ m.regs.stackBase) {depth : Nat}
    (hv : m.stackValue depth = .ok v) :
    ∃ k, m.heap.fieldCount m.regs.activeContext = .ok k ∧ Slot.contextTail ≤ k := by
  obtain ⟨hdepth, hfetch⟩ := stackValue_eq_ok hv
  obtain ⟨xs, hxs, hget⟩ := Heap.fetchField_eq_ok.mp hfetch
  have hlt := (Array.getElem?_eq_some_iff.mp hget).1
  refine ⟨xs.size, Heap.fieldCount_eq_ok.mpr ⟨xs, hxs, rfl⟩, ?_⟩
  omega

/-- The machine that made a context leaves its active context for it. -/
theorem Making.trails_enter (hk : Making old m c n ρ m.Saved t t')
    (hactive : m.heap.fieldCount m.regs.activeContext = .ok k) (htail : Slot.contextTail ≤ k)
    (count : Nat) : Trails (fun _ u _ u' => Isomorphic ρ u u')
      ((do popN count; flush; reload c : MachineM Unit) t)
      ((do popN count; flush; reload (c.map ρ) : MachineM Unit) t') := by
  refine (hk.trails_popN count).bind ?_
  rintro _ t₁ _ t₁' ⟨sp, hk₁⟩
  refine (hk₁.trails_flush hactive htail).bind ?_
  rintro _ t₂ _ t₂' hk₂
  exact hk₂.trails_reload

namespace Akin

variable (ha : Akin ρ old m.Saved m m')
  (htighter : m.heap.Tighter m'.heap)
include ha htighter

/-! ## Blocks -/

theorem trails_instantiateBlock {block caller : Value} (hblock : block.Within old)
    (hcaller : caller.Within old) :
    Trails (fun c t c' t' => ∃ ρ n, c' = c.map ρ ∧ Slot.contextTail ≤ n ∧
      Making old m c n ρ m.Saved t t') (instantiateBlock block caller m)
      (instantiateBlock block caller m') := by
  refine (Trails.readHeap (ha.heap.fieldCount_old hblock)).bind ?_
  rintro size _ _ _ ⟨rfl, -, rfl, rfl⟩
  refine (ha.trails_newObject htighter .blockContext _).bind ?_
  rintro c t _ t' ⟨ρ', rfl, hk⟩
  refine (hk.trails_transferFields hblock 0 0 Slot.contextTail).bind ?_
  rintro _ t _ t' ⟨hfits, hk⟩
  -- the saved pointers are copied too if the block is the active context, and stored over below
  have hcopied : Making old m c size ρ'
      (fun w j => m.Saved w j ∨ w = c ∧ (j = Slot.ip ∨ j = Slot.sp)) t t' := by
    refine hk.mono ?_
    rintro w j (hsaved | ⟨rfl, k, -, rfl, -, -, hslot⟩)
    · exact .inl hsaved
    · exact .inr ⟨rfl, hslot⟩
  have hlt : ∀ {i}, i < Slot.contextTail → i < size := fun hi => hi.trans_le (by omega)
  refine (hcopied.akin.trails_fetchField hblock ?_).bind ?_
  · rintro (⟨-, -, hslot⟩ | ⟨-, hslot⟩)
    · exact absurd hslot (by decide)
    · exact absurd hslot (by decide)
  rintro initialIp _ _ _ ⟨rfl, hinitial, rfl, rfl⟩
  refine (hcopied.trails_storeField hcopied.count (hlt (by decide)) hinitial).bind ?_
  rintro _ t _ t' hk
  refine (hk.trails_storeField hk.count (hlt (by decide)) (Value.within_int _ _)).bind ?_
  rintro _ t _ t' hk
  refine (hk.trails_storeField hk.count (hlt (by decide)) hcaller).bind ?_
  rintro _ t _ t' hk
  refine .ok ⟨ρ', size, rfl, by omega, hk.mono ?_⟩
  rintro w j ⟨⟨⟨hsaved | ⟨rfl, rfl | rfl⟩, hnotip⟩, hnotsp⟩, -⟩
  · exact hsaved
  · exact absurd ⟨rfl, rfl⟩ hnotip
  · exact absurd ⟨rfl, rfl⟩ hnotsp

theorem trails_activateBlock {block : Value} {first consumed : Nat} (hblock : block.Within old)
    (hactive : m.heap.fieldCount m.regs.activeContext = .ok k) (htail : Slot.contextTail ≤ k)
    (hfirst : Slot.contextTail ≤ first) :
    Trails (fun _ u _ u' => ∃ ρ, Isomorphic ρ u u')
      (activateBlock block m.regs.activeContext first argc consumed m)
      (activateBlock block m.regs.activeContext first argc consumed m') := by
  have harity : m'.blockArity block = m.blockArity block :=
    ha.blockArity_eq hblock fun ⟨_, _, hslot⟩ => absurd hslot (by decide)
  refine (Trails.read (f := (·.blockArity block)) (g := (·.blockArity block)) harity).bind ?_
  rintro expected _ _ _ ⟨rfl, -, rfl, rfl⟩
  dsimp only
  split
  case isFalse => exact .error
  case isTrue =>
  refine Trails.get.bind ?_
  rintro _ _ _ _ ⟨rfl, rfl, rfl, rfl⟩
  rw [ha.regs_eq]
  refine (ha.trails_instantiateBlock htighter hblock ha.activeContext).bind ?_
  rintro c t _ t' ⟨ρ', n, rfl, htail', hk⟩
  refine (hk.trails_transferFields ha.activeContext first Slot.contextTail argc).bind ?_
  rintro _ t _ t' ⟨hfits, hk⟩
  refine (hk.trails_storeField hk.count (i := Slot.sp)
    ((by decide : Slot.sp < Slot.contextTail).trans_le htail') (Value.within_int _ _)).bind ?_
  rintro _ t _ t' hk
  have hsaved : Making old m c n ρ' m.Saved t t' := by
    refine hk.mono ?_
    rintro w j ⟨hsaved | ⟨-, j, -, -, hsaved⟩, -⟩
    · exact hsaved
    · exact absurd hsaved.lt (by omega)
  refine (hsaved.trails_enter hactive htail consumed).weaken fun _ _ _ _ hi => ⟨ρ', hi⟩

/-- Evaluating a block. -/
theorem trails_blockValue (argc : Nat) (hbase : Slot.contextTail ≤ m.regs.stackBase) :
    Trails (fun done _ done' _ => done = done') (blockValue argc m) (blockValue argc m') := by
  have hreceiver : m'.receiver argc = m.receiver argc :=
    ha.stackValue_eq fun _ _ => Saved.lt_stackBase hbase
  refine (Trails.read (f := (·.receiver argc)) (g := (·.receiver argc)) hreceiver).bind ?_
  rintro block _ _ _ ⟨rfl, hblock, rfl, rfl⟩
  have hold : block.Within old := ha.within_stackValue hblock
  refine (Trails.read (f := (·.isBlock block)) (g := (·.isBlock block)) (ha.isInstance_eq hold _)).bind ?_
  rintro accepted _ _ _ ⟨rfl, -, rfl, rfl⟩
  dsimp only
  split
  case isFalse => exact .ok rfl
  case isTrue =>
  obtain ⟨k, hactive, htail⟩ := exists_fieldCount_of_stackValue hbase hblock
  have hdepth := (stackValue_eq_ok hblock).1
  refine Trails.get.bind ?_
  rintro _ _ _ _ ⟨rfl, rfl, rfl, rfl⟩
  rw [ha.regs_eq]
  refine (ha.trails_activateBlock htighter hold hactive htail (by omega)).bind ?_
  rintro _ _ _ _ -
  exact .ok rfl

/-! ## Methods -/

theorem trails_newMethodContext {method sender receiver : Value} (header : MethodHeader)
    (hmethod : method.Within old) (hsender : sender.Within old) (hreceiver : receiver.Within old) :
    Trails (fun c t c' t' => ∃ ρ n, c' = c.map ρ ∧ Making old m c n ρ m.Saved t t')
      (newMethodContext method header sender receiver m)
      (newMethodContext method header sender receiver m') := by
  refine Trails.get.bind ?_
  rintro _ _ _ _ ⟨rfl, rfl, rfl, rfl⟩
  have hsettings : m'.settings = m.settings := by rw [ha.rest]; rfl
  rw [hsettings]
  refine (ha.trails_newObject htighter .methodContext _).bind ?_
  rintro c t _ t' ⟨ρ', rfl, hk⟩
  have hlt : ∀ {i}, i < Slot.contextTail →
      i < Slot.contextTail + header.temporaries.toNat + m.settings.contextStackDepth := fun hi =>
    hi.trans_le (by omega)
  refine (hk.trails_storeField hk.count (hlt (by decide)) hsender).bind ?_
  rintro _ t _ t' hk
  refine (hk.trails_storeField hk.count (hlt (by decide)) (Value.within_int _ _)).bind ?_
  rintro _ t _ t' hk
  refine (hk.trails_storeField hk.count (hlt (by decide)) (Value.within_int _ _)).bind ?_
  rintro _ t _ t' hk
  refine (hk.trails_storeField hk.count (hlt (by decide)) hmethod).bind ?_
  rintro _ t _ t' hk
  refine (hk.trails_storeField hk.count (hlt (by decide)) hreceiver).bind ?_
  rintro _ t _ t' hk
  exact .ok ⟨ρ', _, rfl, hk.mono fun _ _ hsaved => hsaved.1.1.1.1.1⟩

/-- Activating a method. -/
theorem trails_activateMethod {method : Value} (header : MethodHeader)
    (hbase : Slot.contextTail ≤ m.regs.stackBase) (hmethod : method.Within old) :
    Trails (fun _ u _ u' => ∃ ρ, Isomorphic ρ u u') (activateMethod method header argc m)
      (activateMethod method header argc m') := by
  have hsame : m'.stackValue argc = m.stackValue argc :=
    ha.stackValue_eq fun _ _ => Saved.lt_stackBase hbase
  refine (Trails.read (f := (·.stackValue argc)) (g := (·.stackValue argc)) hsame).bind ?_
  rintro receiver _ _ _ ⟨rfl, hreceiver, rfl, rfl⟩
  obtain ⟨k, hactive, htail⟩ := exists_fieldCount_of_stackValue hbase hreceiver
  have hdepth := (stackValue_eq_ok hreceiver).1
  refine Trails.get.bind ?_
  rintro _ _ _ _ ⟨rfl, rfl, rfl, rfl⟩
  rw [ha.regs_eq]
  refine (ha.trails_newMethodContext htighter header hmethod ha.activeContext
    (ha.within_stackValue hreceiver)).bind ?_
  rintro c t _ t' ⟨ρ', n, rfl, hk⟩
  refine Trails.get.bind ?_
  rintro _ _ _ _ ⟨rfl, rfl, rfl, rfl⟩
  have hregs : t.regs = m.regs := by rw [hk.rest]; rfl
  rw [hk.akin.regs_eq, hregs]
  refine (hk.trails_transferFields ha.activeContext (m.regs.sp + 1 - argc) Slot.contextTail argc).bind ?_
  rintro _ t _ t' ⟨-, hk⟩
  have hsaved : Making old m c n ρ' m.Saved t t' := by
    refine hk.mono ?_
    rintro w j (hsaved | ⟨-, j, -, -, hsaved⟩)
    · exact hsaved
    · exact absurd hsaved.lt (by omega)
  exact (hsaved.trails_enter hactive htail (argc + 1)).weaken fun _ _ _ _ hi => ⟨ρ', hi⟩

end Akin

end MessageMachine.Machine
