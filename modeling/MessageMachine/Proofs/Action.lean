import MessageMachine.Value.Basic

/-!
# Actions

Heap and machine actions are `EStateM` programs, which keep their state when they fail.  This file
has what is true of all such programs.

* `stateAfter` is the state that an action leaves, whether it succeeds or fails.
* `Keeps P action`: the action leads from states with `P` only to states with `P`.
* `Ensures P action Q E`: from a state with `P` the action leads to `Q` if it succeeds and to `E` if
  it fails; `Q` is told the answer and `E` the fault.
* `Yields R action Q s`: from `s` the action leads only to states that `R` relates to `s`, and if it
  succeeds `Q` is true of its answer.
* `bind_eq_ok`: an action followed by another succeeds when both do; `reading_bind_eq_ok` says the
  same of the pure readings, which are `Except` values.
-/

namespace MessageMachine

variable {ε σ α β : Type}

/-- The state that an action leaves, also when it fails. -/
def stateAfter : EStateM.Result ε σ α → σ
  | .ok _ s => s
  | .error _ s => s

@[simp] theorem stateAfter_ok (a : α) (s : σ) :
    stateAfter (.ok a s : EStateM.Result ε σ α) = s := rfl

@[simp] theorem stateAfter_error (fault : ε) (s : σ) :
    stateAfter (.error fault s : EStateM.Result ε σ α) = s := rfl

/-- Whether an action has succeeded. -/
def succeeds : EStateM.Result ε σ α → Bool
  | .ok _ _ => true
  | .error _ _ => false

theorem eq_ok_of_succeeds {r : EStateM.Result ε σ Unit} (h : succeeds r = true) :
    r = .ok () (stateAfter r) := by
  cases r with
  | ok a s => rfl
  | error fault s => cases h

/-! ## Running one action after another -/

theorem bind_run (x : EStateM ε σ α) (f : α → EStateM ε σ β) (s : σ) :
    (x >>= f) s = match x s with
      | .ok a s => f a s
      | .error fault s => .error fault s := rfl

theorem bind_eq_of_ok {x : EStateM ε σ α} {f : α → EStateM ε σ β} {s s' : σ} {a : α}
    (hx : x s = .ok a s') : (x >>= f) s = f a s' := by
  rw [bind_run, hx]

theorem bind_eq_of_error {x : EStateM ε σ α} {f : α → EStateM ε σ β} {s s' : σ} {fault : ε}
    (hx : x s = .error fault s') : (x >>= f) s = .error fault s' := by
  rw [bind_run, hx]

/-- What follows matters only after what has been done. -/
theorem bind_congr_of_ok {x : EStateM ε σ α} {f g : α → EStateM ε σ β} {s : σ}
    (h : ∀ a t, x s = .ok a t → f a t = g a t) : (x >>= f) s = (x >>= g) s := by
  rw [bind_run, bind_run]
  cases hx : x s with
  | ok a t => exact h a t hx
  | error fault t => rfl

theorem bind_eq_ok {x : EStateM ε σ α} {f : α → EStateM ε σ β} {s s' : σ} {b : β} :
    (x >>= f) s = .ok b s' ↔ ∃ a t, x s = .ok a t ∧ f a t = .ok b s' := by
  rw [bind_run]
  cases hx : x s with
  | ok a t =>
      constructor
      · intro h
        exact ⟨a, t, rfl, h⟩
      · rintro ⟨a', t', heq, h⟩
        cases heq
        exact h
  | error fault t => simp

theorem error_of_bind {x : EStateM ε σ α} {f : α → EStateM ε σ β} {s s' : σ} {fault : ε}
    (hrun : (x >>= f) s = .error fault s') :
    x s = .error fault s' ∨ ∃ a t, x s = .ok a t ∧ f a t = .error fault s' := by
  rw [bind_run] at hrun
  cases hx : x s with
  | ok a t =>
      rw [hx] at hrun
      exact .inr ⟨a, t, rfl, hrun⟩
  | error fault' t =>
      rw [hx] at hrun
      cases hrun
      exact .inl rfl

theorem ite_bind {c : Prop} [Decidable c] (x y : EStateM ε σ α) (f : α → EStateM ε σ β) :
    (if c then x else y) >>= f = if c then x >>= f else y >>= f := by
  split
  · rfl
  · rfl

/-- An action that is left out under a condition, and what comes after it. -/
theorem ite_skip_eq_ok {c : Prop} [Decidable c] {x : EStateM ε σ PUnit}
    {next : PUnit → EStateM ε σ β} {s s' : σ} {b : β}
    (hrun : (if c then next ⟨⟩ else x >>= next) s = .ok b s') :
    ∃ t, (c ∧ t = s ∨ ¬c ∧ x s = .ok ⟨⟩ t) ∧ next ⟨⟩ t = .ok b s' := by
  split at hrun
  · next hc => exact ⟨s, .inl ⟨hc, rfl⟩, hrun⟩
  · next hc =>
    obtain ⟨_, t, hx, hnext⟩ := bind_eq_ok.mp hrun
    exact ⟨t, .inr ⟨hc, hx⟩, hnext⟩

theorem error_of_ite_skip {c : Prop} [Decidable c] {x : EStateM ε σ PUnit}
    {next : PUnit → EStateM ε σ β} {s s' : σ} {fault : ε}
    (hrun : (if c then next ⟨⟩ else x >>= next) s = .error fault s') :
    (¬c ∧ x s = .error fault s') ∨
      ∃ t, (c ∧ t = s ∨ ¬c ∧ x s = .ok ⟨⟩ t) ∧ next ⟨⟩ t = .error fault s' := by
  split at hrun
  · next hc => exact .inr ⟨s, .inl ⟨hc, rfl⟩, hrun⟩
  · next hc =>
    rcases error_of_bind hrun with hx | ⟨_, t, hx, hnext⟩
    · exact .inl ⟨hc, hx⟩
    · exact .inr ⟨t, .inr ⟨hc, hx⟩, hnext⟩

/-- A loop over `0, …, n - 1` that succeeds leads from `P 0` to `P n` if each round leads from one
to the next. -/
theorem forM_range_eq_ok {P : Nat → σ → Prop} {f : Nat → EStateM ε σ PUnit} {n : Nat} {s s' : σ}
    {u : PUnit} (hrun : (List.range n).forM f s = .ok u s') (hzero : P 0 s)
    (hstep : ∀ p < n, ∀ t t' u, P p t → f p t = .ok u t' → P (p + 1) t') : P n s' := by
  induction n generalizing s' u with
  | zero =>
      cases hrun
      exact hzero
  | succ n ih =>
      rw [List.range_succ, List.forM_eq_forM, List.forM_append] at hrun
      obtain ⟨_, t, hfirst, hlast⟩ := bind_eq_ok.mp hrun
      obtain ⟨_, t', hround, hend⟩ := bind_eq_ok.mp hlast
      cases hend
      refine hstep n (Nat.lt_succ_self n) t _ _ ?_ hround
      exact ih hfirst fun p hp => hstep p (Nat.lt_succ_of_lt hp)

@[simp] theorem pure_eq_ok {a b : α} {s s' : σ} :
    (pure a : EStateM ε σ α) s = .ok b s' ↔ a = b ∧ s = s' := by
  simp [pure, EStateM.pure]

@[simp] theorem throw_ne_ok {fault : ε} {b : α} {s s' : σ} :
    (throw fault : EStateM ε σ α) s ≠ .ok b s' := by
  intro h
  cases h

/-! ## Readings -/

theorem reading_bind_eq_ok {x : Except ε α} {f : α → Except ε β} {b : β} :
    (x >>= f) = .ok b ↔ ∃ a, x = .ok a ∧ f a = .ok b := by
  cases x with
  | ok a => simp [bind, Except.bind]
  | error fault => simp [bind, Except.bind]

@[simp] theorem reading_pure_eq_ok {a b : α} : (pure a : Except ε α) = .ok b ↔ a = b := by
  simp [pure, Except.pure]

@[simp] theorem reading_throw_ne_ok {fault : ε} {b : α} : (throw fault : Except ε α) ≠ .ok b := by
  simp [throw, throwThe, MonadExceptOf.throw]

theorem eq_ok_of_toOption {x : Except ε α} {a : α} (hx : x.toOption = some a) : x = .ok a := by
  cases x with
  | error fault => cases hx
  | ok b =>
      cases hx
      rfl

/-! ## Keeping a property -/

/-- The action leads from states with `P` to states with `P`, also when it fails. -/
def Keeps (P : σ → Prop) (action : EStateM ε σ α) : Prop :=
  ∀ s, P s → P (stateAfter (action s))

namespace Keeps

variable {P : σ → Prop}

theorem pure (a : α) : Keeps P (Pure.pure a : EStateM ε σ α) := fun _ h => h

theorem throw (fault : ε) : Keeps P (MonadExcept.throw fault : EStateM ε σ α) := fun _ h => h

theorem bind {x : EStateM ε σ α} {f : α → EStateM ε σ β} (hx : Keeps P x)
    (hf : ∀ a, Keeps P (f a)) : Keeps P (x >>= f) := by
  intro s h
  rw [bind_run]
  have hmiddle := hx s h
  cases hrun : x s with
  | ok a t =>
      rw [hrun] at hmiddle
      exact hf a t hmiddle
  | error fault t =>
      rw [hrun] at hmiddle
      exact hmiddle

theorem and {Q : σ → Prop} {action : EStateM ε σ α} (hP : Keeps P action) (hQ : Keeps Q action) :
    Keeps (fun s => P s ∧ Q s) action := fun s hs => ⟨hP s hs.1, hQ s hs.2⟩

theorem ite {c : Prop} [Decidable c] {x y : EStateM ε σ α} (hx : Keeps P x) (hy : Keeps P y) :
    Keeps P (if c then x else y) := by
  split
  · exact hx
  · exact hy

theorem forM {xs : List α} {f : α → EStateM ε σ PUnit} (hf : ∀ a ∈ xs, Keeps P (f a)) :
    Keeps P (xs.forM f) := by
  induction xs with
  | nil => exact Keeps.pure _
  | cons x xs ih =>
      exact Keeps.bind (hf x (List.mem_cons_self ..)) fun _ =>
        ih fun a ha => hf a (List.mem_cons_of_mem _ ha)

end Keeps

/-! ## Outcomes -/

/-- From states with `P` the action leads to `Q` with its answer, or to `E` with its fault. -/
def Ensures (P : σ → Prop) (action : EStateM ε σ α) (Q : α → σ → Prop) (E : ε → σ → Prop) : Prop :=
  ∀ s, P s → match action s with
    | .ok a s => Q a s
    | .error fault s => E fault s

namespace Ensures

variable {P P' : σ → Prop} {Q Q' : α → σ → Prop} {E E' : ε → σ → Prop}

theorem pure {a : α} (hQ : ∀ s, P s → Q a s) : Ensures P (Pure.pure a : EStateM ε σ α) Q E := hQ

theorem throw {fault : ε} (hE : ∀ s, P s → E fault s) :
    Ensures P (MonadExcept.throw fault : EStateM ε σ α) Q E := hE

theorem bind {x : EStateM ε σ α} {f : α → EStateM ε σ β} {R : β → σ → Prop}
    (hx : Ensures P x Q E) (hf : ∀ a, Ensures (Q a) (f a) R E) : Ensures P (x >>= f) R E := by
  intro s h
  rw [bind_run]
  have hmiddle := hx s h
  cases hrun : x s with
  | ok a t =>
      rw [hrun] at hmiddle
      exact hf a t hmiddle
  | error fault t =>
      rw [hrun] at hmiddle
      exact hmiddle

theorem weaken {action : EStateM ε σ α} (h : Ensures P action Q E) (hP : ∀ s, P' s → P s)
    (hQ : ∀ a s, Q a s → Q' a s) (hE : ∀ fault s, E fault s → E' fault s) :
    Ensures P' action Q' E' := by
  intro s hs
  have houtcome := h s (hP s hs)
  cases hrun : action s with
  | ok a t =>
      rw [hrun] at houtcome
      exact hQ a t houtcome
  | error fault t =>
      rw [hrun] at houtcome
      exact hE fault t houtcome

/-- Where an action leads if success and failure come to the same. -/
theorem after {action : EStateM ε σ α} (h : Ensures P action (fun _ => P') fun _ => P') {s : σ}
    (hs : P s) : P' (stateAfter (action s)) := by
  have houtcome := h s hs
  cases hrun : action s with
  | ok a t =>
      rw [hrun] at houtcome
      exact houtcome
  | error fault t =>
      rw [hrun] at houtcome
      exact houtcome

/-- An action that may be left out. -/
theorem ite {c : Prop} [Decidable c] {x y : EStateM ε σ α} (hx : c → Ensures P x Q E)
    (hy : ¬c → Ensures P y Q E) : Ensures P (if c then x else y) Q E := by
  split
  · next hc => exact hx hc
  · next hc => exact hy hc

end Ensures

theorem Ensures.of_after {P Q : σ → Prop} {action : EStateM ε σ α}
    (h : ∀ s, P s → Q (stateAfter (action s))) : Ensures P action (fun _ => Q) fun _ => Q := by
  intro s hs
  have hafter := h s hs
  cases hrun : action s with
  | ok a t =>
      rw [hrun] at hafter
      exact hafter
  | error fault t =>
      rw [hrun] at hafter
      exact hafter

theorem Keeps.ensures {P : σ → Prop} {action : EStateM ε σ α} (h : Keeps P action) :
    Ensures P action (fun _ => P) fun _ => P := Ensures.of_after h

/-- What does not depend on the state stays true. -/
theorem Keeps.frame {P : σ → Prop} {action : EStateM ε σ α} (h : Keeps P action) (q : Prop) :
    Ensures (fun s => P s ∧ q) action (fun _ s => P s ∧ q) fun _ => P := by
  rintro s ⟨hs, hq⟩
  have hafter := h s hs
  cases hrun : action s with
  | ok a t =>
      rw [hrun] at hafter
      exact ⟨hafter, hq⟩
  | error fault t =>
      rw [hrun] at hafter
      exact hafter

theorem Ensures.keeps {P : σ → Prop} {action : EStateM ε σ α}
    (h : Ensures P action (fun _ => P) fun _ => P) : Keeps P action :=
  fun _ hs => h.after hs

/-! ## Two states -/

/-- From `s` the action leads to states that `R` relates to `s`, with `Q` for its answer. -/
def Yields (R : σ → σ → Prop) (action : EStateM ε σ α) (Q : α → σ → Prop) (s : σ) : Prop :=
  match action s with
  | .ok a t => R s t ∧ Q a t
  | .error _ t => R s t

namespace Yields

variable {R R' : σ → σ → Prop} {Q Q' : α → σ → Prop} {s : σ}

theorem pure {a : α} (hR : R s s) (hQ : Q a s) : Yields R (Pure.pure a : EStateM ε σ α) Q s :=
  ⟨hR, hQ⟩

theorem throw {fault : ε} (hR : R s s) :
    Yields R (MonadExcept.throw fault : EStateM ε σ α) Q s := hR

theorem weaken {action : EStateM ε σ α} (h : Yields R action Q s) (hR : ∀ t, R s t → R' s t)
    (hQ : ∀ a t, R s t → Q a t → Q' a t) : Yields R' action Q' s := by
  unfold Yields at h ⊢
  cases hrun : action s with
  | ok a t =>
      rw [hrun] at h
      exact ⟨hR t h.1, hQ a t h.1 h.2⟩
  | error fault t =>
      rw [hrun] at h
      exact hR t h

theorem of_after {action : EStateM ε σ α} (h : R s (stateAfter (action s))) :
    Yields R action (fun _ _ => True) s := by
  unfold Yields
  cases hrun : action s with
  | ok a t =>
      rw [hrun] at h
      exact ⟨h, trivial⟩
  | error fault t =>
      rw [hrun] at h
      exact h

/-- What comes after the action is seen from where the action began. -/
theorem bind_from {x : EStateM ε σ α} {f : α → EStateM ε σ β} {P : β → σ → Prop}
    (hx : Yields R x Q s) (hf : ∀ a t, R s t → Q a t → Yields (fun _ => R s) (f a) P t) :
    Yields R (x >>= f) P s := by
  unfold Yields at hx ⊢
  rw [bind_run]
  cases hrun : x s with
  | ok a t =>
      rw [hrun] at hx
      exact hf a t hx.1 hx.2
  | error fault t =>
      rw [hrun] at hx
      exact hx

/-- What comes after the action leads further. -/
theorem bind_to {S : σ → σ → Prop} [Trans R S S] {x : EStateM ε σ α} {f : α → EStateM ε σ β}
    {P : β → σ → Prop} (hx : Yields R x Q s) (hR : ∀ t, R s t → S s t)
    (hf : ∀ a t, R s t → Q a t → Yields S (f a) P t) : Yields S (x >>= f) P s := by
  have hx' : Yields S x (fun a t => R s t ∧ Q a t) s := hx.weaken hR fun _ _ hs hq => ⟨hs, hq⟩
  exact hx'.bind_from fun a t _ ⟨hs, hq⟩ => (hf a t hs hq).weaken (fun _ => Trans.trans hs)
    fun _ _ _ => id

theorem bind [Trans R R R] {x : EStateM ε σ α} {f : α → EStateM ε σ β} {P : β → σ → Prop}
    (hx : Yields R x Q s) (hf : ∀ a t, R s t → Q a t → Yields R (f a) P t) :
    Yields R (x >>= f) P s := hx.bind_to (fun _ => id) hf

theorem ite {c : Prop} [Decidable c] {x y : EStateM ε σ α} (hx : c → Yields R x Q s)
    (hy : ¬c → Yields R y Q s) : Yields R (if c then x else y) Q s := by
  split
  · next hc => exact hx hc
  · next hc => exact hy hc

theorem after {action : EStateM ε σ α} (h : Yields R action Q s) : R s (stateAfter (action s)) := by
  unfold Yields at h
  cases hrun : action s with
  | ok a t =>
      rw [hrun] at h
      exact h.1
  | error fault t =>
      rw [hrun] at h
      exact h

/-- What an answer is like. -/
theorem answer {action : EStateM ε σ α} (h : Yields R action Q s) {a : α} {t : σ}
    (hrun : action s = .ok a t) : R s t ∧ Q a t := by
  unfold Yields at h
  rw [hrun] at h
  exact h

/-- What comes after the action may end elsewhere. -/
theorem ensures_bind {x : EStateM ε σ α} {f : α → EStateM ε σ β} {P : β → σ → Prop}
    {E : ε → σ → Prop} (hx : Yields R x Q s) (hE : ∀ fault t, R s t → E fault t)
    (hf : ∀ a t, R s t → Q a t → Ensures (t = ·) (f a) P E) : Ensures (s = ·) (x >>= f) P E := by
  rintro _ rfl
  unfold Yields at hx
  rw [bind_run]
  cases hrun : x s with
  | ok a t =>
      rw [hrun] at hx
      exact hf a t hx.1 hx.2 t rfl
  | error fault t =>
      rw [hrun] at hx
      exact hE fault t hx

end Yields

theorem Ensures.yields {R : σ → σ → Prop} {Q : α → σ → Prop} {s : σ} {action : EStateM ε σ α}
    (h : Ensures (s = ·) action (fun a t => R s t ∧ Q a t) fun _ t => R s t) :
    Yields R action Q s := by
  have houtcome := h s rfl
  unfold Yields
  cases hrun : action s with
  | ok a t =>
      rw [hrun] at houtcome
      exact houtcome
  | error fault t =>
      rw [hrun] at houtcome
      exact houtcome

/-- It is enough to start from one state at a time. -/
theorem Ensures.of_forall {P : σ → Prop} {Q : α → σ → Prop} {E : ε → σ → Prop}
    {action : EStateM ε σ α} (h : ∀ s, P s → Ensures (s = ·) action Q E) : Ensures P action Q E :=
  fun s hs => h s hs s rfl

end MessageMachine
