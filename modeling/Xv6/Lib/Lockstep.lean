import Xv6.Lib.Wp

/-!
# Runs in step

A computation is run from two states that are related. `InStep R m s s'` says that both runs
return the same value, or stop for the same reason, and that the states they end in are related
again. What relates the states is what the computation depends on.
-/

namespace Xv6

variable {ε σ α β : Type}

/-- Two runs ended in the same way, in states related by `R`. -/
def SameEnd (R : σ → σ → Prop) : EStateM.Result ε σ α → EStateM.Result ε σ α → Prop
  | .ok a t, .ok a' t' => a = a' ∧ R t t'
  | .error e t, .error e' t' => e = e' ∧ R t t'
  | _, _ => False

/-- From `s` and `s'`, the runs of the computation `m` end in the same way. -/
def InStep (R : σ → σ → Prop) (m : EStateM ε σ α) (s s' : σ) : Prop := SameEnd R (m s) (m s')

variable {R R' : σ → σ → Prop} {s s' : σ} {m : EStateM ε σ α}

theorem SameEnd.mono {r r' : EStateM.Result ε σ α} (h : SameEnd R r r')
    (hR : ∀ t t', R t t' → R' t t') : SameEnd R' r r' := by
  cases r with
  | ok a t =>
    cases r' with
    | ok a' t' => exact ⟨h.1, hR _ _ h.2⟩
    | error e' t' => exact h.elim
  | error e t =>
    cases r' with
    | ok a' t' => exact h.elim
    | error e' t' => exact ⟨h.1, hR _ _ h.2⟩

theorem InStep.mono (h : InStep R m s s') (hR : ∀ t t', R t t' → R' t t') : InStep R' m s s' :=
  SameEnd.mono h hR

theorem inStep_pure (a : α) (h : R s s') : InStep R (pure a : EStateM ε σ α) s s' := ⟨rfl, h⟩

theorem inStep_throw (e : ε) (h : R s s') : InStep R (throw e : EStateM ε σ α) s s' := ⟨rfl, h⟩

theorem inStep_modify {f : σ → σ} (h : R (f s) (f s')) :
    InStep R (modify f : EStateM ε σ PUnit) s s' := ⟨rfl, h⟩

/-- One computation after another. -/
theorem InStep.bind {f : α → EStateM ε σ β} (h : InStep R m s s')
    (hf : ∀ a t t', m s = .ok a t → m s' = .ok a t' → R t t' → InStep R' (f a) t t')
    (hR : ∀ t t', R t t' → R' t t') : InStep R' (m >>= f) s s' := by
  simp only [InStep, Bind.bind, EStateM.bind] at *
  cases hm : m s with
  | ok a t =>
    cases hm' : m s' with
    | ok a' t' =>
      rw [hm, hm'] at h
      obtain ⟨rfl, hR⟩ := h
      exact hf a t t' hm hm' hR
    | error e' t' =>
      rw [hm, hm'] at h
      exact h.elim
  | error e t =>
    cases hm' : m s' with
    | ok a' t' =>
      rw [hm, hm'] at h
      exact h.elim
    | error e' t' =>
      rw [hm, hm'] at h
      exact SameEnd.mono h hR

/-- Looking at the states, for what is the same in both. -/
theorem InStep.get {f : σ → EStateM ε σ β} (hread : f s' = f s) (h : InStep R (f s) s s') :
    InStep R (MonadState.get >>= f) s s' := by
  have h' : SameEnd R (f s s) (f s' s') := by
    rw [hread]
    exact h
  exact h'

/-- A loop, each iteration of which is run in step from any pair of related states. -/
theorem inStep_forRange {f : ℕ → EStateM ε σ PUnit}
    (hf : ∀ i x y, R x y → InStep R (f i) x y) (a n : ℕ) (h : R s s') :
    InStep R (forRange f a n) s s' := by
  induction n generalizing a s s' with
  | zero => exact inStep_pure _ h
  | succ n ih => exact (hf a s s' h).bind (fun _ _ _ _ _ ht => ih (a + 1) ht) fun _ _ ht => ht

/-- Both runs return, if one of them does. -/
theorem InStep.exists_ok (h : InStep R m s s') {a : α} {t : σ} (hm : m s = .ok a t) :
    ∃ t', m s' = .ok a t' ∧ R t t' := by
  rw [InStep, hm] at h
  cases hm' : m s' with
  | ok a' t' =>
    rw [hm'] at h
    obtain ⟨rfl, hR⟩ := h
    exact ⟨t', rfl, hR⟩
  | error e t' =>
    rw [hm'] at h
    exact h.elim

end Xv6
