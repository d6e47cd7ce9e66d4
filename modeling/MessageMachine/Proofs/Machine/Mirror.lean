import MessageMachine.Proofs.Frame.Slots
import MessageMachine.Machine.Stack
import MessageMachine.Proofs.Machine.Access

/-!
# Registers that mirror the active context

Most registers are copies: of fields of the active context, of fields of its method, and of its size.
`Mirrors h r` says that they are what these fields say now.  Only the two pointers are ahead of the
context, which has them when they are saved; so saving and loading again changes nothing
(`Mirrors.reload`).

`loadContext_eq_ok` is what loading a context comes down to.  `Feeds h r v i` names the fields that
the copies are taken from; where these stay, the registers go on to mirror the context
(`Mirrors.kept`).
-/

namespace MessageMachine.Machine

variable {h h' : Heap} {r r' : Registers} {m m' : Machine}

/-- The registers, the pointers apart, are what the active context and its method say. -/
structure Mirrors (h : Heap) (r : Registers) : Prop where
  method : h.fetchField r.activeContext Slot.contextMethod = .ok r.method
  receiver : h.fetchField r.activeContext Slot.receiver = .ok r.receiver
  /-- A context with an argument count is of a block. -/
  block : ∃ x, h.fetchField r.activeContext Slot.blockArguments = .ok x ∧
    (x.isInt = true → h.fetchField r.activeContext Slot.home = .ok r.homeContext ∧
      r.stackBase = Slot.contextTail) ∧
    (x.isInt = false → r.homeContext = r.activeContext ∧
      r.stackBase = Slot.contextTail + r.tempCount)
  header : ∃ header, HeaderOf h r.method header ∧ r.tempCount = header.temporaries.toNat
  code : h.fetchField r.method Slot.methodCode = .ok r.code
  limit : h.fieldCount r.activeContext = .ok r.stackLimit

/-- Loading a context gives the registers that mirror it, with the saved pointers. -/
theorem loadContext_eq_ok {context : Value} : loadContext h r context = .ok r' ↔
    Mirrors h r' ∧ r'.activeContext = context ∧ h.fetchField context Slot.ip = .ok (.ofNat r'.ip) ∧
      h.fetchField context Slot.sp = .ok (.ofNat r'.sp) ∧ r'.entryProcess = r.entryProcess ∧
      r'.entryWait = r.entryWait ∧ r'.result = r.result := by
  simp only [loadContext, reading_bind_eq_ok, lift_eq_ok, Value.index_eq_ok]
  constructor
  · rintro ⟨method, hmethod, _, hip, ip, rfl, _, hsp, sp, rfl, receiver, hreceiver, x, hx, hrest⟩
    split at hrest
    · next hint =>
      simp only [reading_bind_eq_ok, reading_pure_eq_ok, lift_eq_ok] at hrest
      obtain ⟨home, hhome, v, hv, header, hheader, code, hcode, limit, hlimit, rfl⟩ := hrest
      refine ⟨⟨hmethod, hreceiver, ⟨x, hx, fun _ => ⟨hhome, rfl⟩, fun hnot => ?_⟩,
        ⟨header, ⟨v, hv, hheader⟩, rfl⟩, hcode, hlimit⟩, rfl, hip, hsp, rfl, rfl, rfl⟩
      rw [hint] at hnot
      cases hnot
    · next hnot =>
      simp only [reading_bind_eq_ok, reading_pure_eq_ok, lift_eq_ok] at hrest
      obtain ⟨_, rfl, v, hv, header, hheader, code, hcode, limit, hlimit, rfl⟩ := hrest
      exact ⟨⟨hmethod, hreceiver, ⟨x, hx, fun hint => absurd hint hnot, fun _ => ⟨rfl, rfl⟩⟩,
        ⟨header, ⟨v, hv, hheader⟩, rfl⟩, hcode, hlimit⟩, rfl, hip, hsp, rfl, rfl, rfl⟩
  · rintro ⟨hm, rfl, hip, hsp, hentry, hwait, hresult⟩
    obtain ⟨x, hx, hblock, hplain⟩ := hm.block
    obtain ⟨header, ⟨v, hv, hheader⟩, htemps⟩ := hm.header
    refine ⟨r'.method, hm.method, _, hip, r'.ip, rfl, _, hsp, r'.sp, rfl, r'.receiver, hm.receiver, x,
      hx, ?_⟩
    split
    · next hint =>
      obtain ⟨hhome, hbase⟩ := hblock hint
      simp only [reading_bind_eq_ok, reading_pure_eq_ok, lift_eq_ok]
      refine ⟨r'.homeContext, hhome, v, hv, header, hheader, r'.code, hm.code, r'.stackLimit, hm.limit, ?_⟩
      rw [← htemps, ← hbase, ← hentry, ← hwait, ← hresult]
    · next hnot =>
      obtain ⟨hhome, hbase⟩ := hplain (Bool.eq_false_iff.mpr hnot)
      simp only [reading_bind_eq_ok, reading_pure_eq_ok, lift_eq_ok]
      refine ⟨_, rfl, v, hv, header, hheader, r'.code, hm.code, r'.stackLimit, hm.limit, ?_⟩
      rw [← htemps, ← hbase, ← hentry, ← hwait, ← hresult]
      cases r'
      dsimp only at hhome
      rw [hhome]

/-! ## Where registers come from -/

/-- The field `i` of `v` is one that the registers, the pointers apart, are copied from. -/
def Feeds (h : Heap) (r : Registers) (v : Value) (i : Nat) : Prop :=
  v = r.activeContext ∧ (i = Slot.contextMethod ∨ i = Slot.receiver ∨ i = Slot.blockArguments ∨
    i = Slot.home ∧ ∃ n, h.fetchField r.activeContext Slot.blockArguments = .ok (.int n)) ∨
  v = r.method ∧ (i = Slot.methodHeader ∨ i = Slot.methodCode)

/-- The pointers are not copied. -/
theorem Feeds.ne_pointer {v : Value} {i : Nat} (hf : Feeds h r v i) : i ≠ Slot.ip ∧ i ≠ Slot.sp := by
  obtain ⟨-, rfl | rfl | rfl | ⟨rfl, -⟩⟩ | ⟨-, rfl | rfl⟩ := hf <;> decide

namespace Mirrors

/-- Registers go on to mirror a context where the fields stay that they are copied from. -/
theorem kept (hm : Mirrors h r)
    (hfeeds : ∀ v i x, Feeds h r v i → h.fetchField v i = .ok x → h'.fetchField v i = .ok x)
    (hcount : ∀ n, h.fieldCount r.activeContext = .ok n → h'.fieldCount r.activeContext = .ok n) :
    Mirrors h' r := by
  obtain ⟨x, hx, hblock, hplain⟩ := hm.block
  obtain ⟨header, ⟨v, hv, hheader⟩, htemps⟩ := hm.header
  constructor
  case method => exact hfeeds _ _ _ (.inl ⟨rfl, .inl rfl⟩) hm.method
  case receiver => exact hfeeds _ _ _ (.inl ⟨rfl, .inr (.inl rfl)⟩) hm.receiver
  case block =>
    refine ⟨x, hfeeds _ _ _ (.inl ⟨rfl, .inr (.inr (.inl rfl))⟩) hx, fun hint => ?_, hplain⟩
    obtain ⟨hhome, hbase⟩ := hblock hint
    obtain ⟨n, rfl⟩ : ∃ n, x = .int n := by
      cases x with
      | int n => exact ⟨n, rfl⟩
      | object a => cases hint
      | bytes a => cases hint
      | words a => cases hint
    exact ⟨hfeeds _ _ _ (.inl ⟨rfl, .inr (.inr (.inr ⟨rfl, n, hx⟩))⟩) hhome, hbase⟩
  case header =>
    exact ⟨header, ⟨v, hfeeds _ _ _ (.inr ⟨rfl, .inl rfl⟩) hv, hheader⟩, htemps⟩
  case code => exact hfeeds _ _ _ (.inr ⟨rfl, .inr rfl⟩) hm.code
  case limit => exact hcount _ hm.limit

/-- Only the copies matter. -/
theorem congr (hm : Mirrors h r) (hcontext : r'.activeContext = r.activeContext)
    (hhome : r'.homeContext = r.homeContext) (hmethod : r'.method = r.method)
    (hreceiver : r'.receiver = r.receiver) (hcode : r'.code = r.code)
    (hbase : r'.stackBase = r.stackBase) (hlimit : r'.stackLimit = r.stackLimit)
    (htemps : r'.tempCount = r.tempCount) : Mirrors h r' := by
  constructor
  case method => rw [hcontext, hmethod]; exact hm.method
  case receiver => rw [hcontext, hreceiver]; exact hm.receiver
  case block => rw [hcontext, hhome, hbase, htemps]; exact hm.block
  case header => rw [hmethod, htemps]; exact hm.header
  case code => rw [hmethod, hcode]; exact hm.code
  case limit => rw [hcontext, hlimit]; exact hm.limit

theorem tail_le (hm : Mirrors h r) : Slot.contextTail ≤ r.stackBase := by
  obtain ⟨x, -, hblock, hplain⟩ := hm.block
  cases hint : x.isInt with
  | true => exact (hblock hint).2.ge
  | false => exact (hplain hint).2 ▸ Nat.le_add_right ..

/-- The context has all the named fields. -/
theorem lt_limit (hm : Mirrors h r) {i : Nat} (hi : i ≤ Slot.blockArguments) : i < r.stackLimit := by
  obtain ⟨x, hx, -, -⟩ := hm.block
  exact Nat.lt_of_le_of_lt hi (Heap.lt_of_fetchField hm.limit hx)

end Mirrors

end MessageMachine.Machine
