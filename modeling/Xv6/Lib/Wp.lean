import Mathlib

/-!
# Weakest preconditions

The code is modelled in the state and exception monad `EStateM ε σ`, in which
the state survives an exception: a computation that stops (a panic, say) leaves
what it did so far behind it.

`wp m Q E s` says that from the state `s`, the computation `m` either returns a
value and a state satisfying `Q`, or stops in a state satisfying `E`. It is
computed through the structure of the code by the `simp` set below; a loop
over a range of numbers (`forRange`) is handled by an invariant
(`wp_forRange`), and a function by its specification, weakened to what is
needed (`wp.mono`).
-/

namespace Xv6

variable {ε σ α β : Type}

/-- From `s`, the computation `m` returns in `Q` or stops in `E`. -/
def wp (m : EStateM ε σ α) (Q : α → σ → Prop) (E : ε → σ → Prop) (s : σ) : Prop :=
  match m s with
  | .ok a t => Q a t
  | .error e t => E e t

variable {Q : α → σ → Prop} {E : ε → σ → Prop} {s : σ}

instance decidableWp {m : EStateM ε σ α} [∀ a t, Decidable (Q a t)] [∀ e t, Decidable (E e t)] :
    Decidable (wp m Q E s) :=
  match h : m s with
  | .ok a t => decidable_of_iff (Q a t) (by rw [wp, h])
  | .error e t => decidable_of_iff (E e t) (by rw [wp, h])

@[simp] theorem wp_pure (a : α) : wp (pure a : EStateM ε σ α) Q E s ↔ Q a s := Iff.rfl

@[simp] theorem wp_bind {Q : β → σ → Prop} (m : EStateM ε σ α) (f : α → EStateM ε σ β) :
    wp (m >>= f) Q E s ↔ wp m (fun a t => wp (f a) Q E t) E s := by
  simp only [wp, bind, EStateM.bind]
  cases m s <;> rfl

@[simp] theorem wp_get {Q : σ → σ → Prop} : wp (get : EStateM ε σ σ) Q E s ↔ Q s s := Iff.rfl

@[simp] theorem wp_set {Q : PUnit → σ → Prop} (t : σ) :
    wp (set t : EStateM ε σ PUnit) Q E s ↔ Q ⟨⟩ t := Iff.rfl

@[simp] theorem wp_modify {Q : PUnit → σ → Prop} (f : σ → σ) :
    wp (modify f : EStateM ε σ PUnit) Q E s ↔ Q ⟨⟩ (f s) := Iff.rfl

@[simp] theorem wp_throw (e : ε) : wp (throw e : EStateM ε σ α) Q E s ↔ E e s := Iff.rfl

/-- Weakening what is known after a computation. -/
theorem wp.mono {Q' : α → σ → Prop} {E' : ε → σ → Prop} {m : EStateM ε σ α} (h : wp m Q E s)
    (hQ : ∀ a t, Q a t → Q' a t) (hE : ∀ e t, E e t → E' e t) : wp m Q' E' s := by
  unfold wp at *
  cases hm : m s with
  | ok a t => rw [hm] at h; exact hQ a t h
  | error e t => rw [hm] at h; exact hE e t h

/-- Nothing is asked of a computation. -/
theorem wp_true {m : EStateM ε σ α} : wp m (fun _ _ => True) (fun _ _ => True) s := by
  unfold wp
  split <;> trivial

/-- What is known after a computation, from two sources. -/
theorem wp.and {Q' : α → σ → Prop} {E' : ε → σ → Prop} {m : EStateM ε σ α} (h : wp m Q E s)
    (h' : wp m Q' E' s) : wp m (fun a t => Q a t ∧ Q' a t) (fun e t => E e t ∧ E' e t) s := by
  unfold wp at *
  cases hm : m s with
  | ok a t => rw [hm] at h h'; exact ⟨h, h'⟩
  | error e t => rw [hm] at h h'; exact ⟨h, h'⟩

/-- What is known of a computation that returned. -/
theorem wp.of_ok {m : EStateM ε σ α} (h : wp m Q E s) {a : α} {t : σ} (hm : m s = .ok a t) :
    Q a t := by
  rwa [wp, hm] at h

/-- A computation returns or stops. -/
theorem wp.ok_or_error {m : EStateM ε σ α} (h : wp m Q E s) :
    (∃ a t, m s = .ok a t ∧ Q a t) ∨ ∃ e t, m s = .error e t ∧ E e t := by
  cases hm : m s with
  | ok a t => exact .inl ⟨a, t, rfl, h.of_ok hm⟩
  | error e t =>
    rw [wp, hm] at h
    exact .inr ⟨e, t, rfl, h⟩

/-- A computation that cannot stop returns. -/
theorem wp.exists_ok {m : EStateM ε σ α} (h : wp m Q (fun _ _ => False) s) :
    ∃ a t, m s = .ok a t ∧ Q a t := by
  cases hm : m s with
  | ok a t => exact ⟨a, t, rfl, h.of_ok hm⟩
  | error e t => rw [wp, hm] at h; exact h.elim

/-- The loop `for(i = lo; i < lo + k; i++) f(i);`. -/
def forRange (f : ℕ → EStateM ε σ PUnit) (lo : ℕ) : ℕ → EStateM ε σ PUnit
  | 0 => pure ⟨⟩
  | k + 1 => do
    f lo
    forRange f (lo + 1) k

/-- A loop keeps its invariant `I`, indexed by the iterations done. -/
theorem wp_forRange {f : ℕ → EStateM ε σ PUnit} {a k : ℕ} {s : σ} (I : ℕ → σ → Prop)
    (h : I a s)
    (hf : ∀ i t, a ≤ i → i < a + k → I i t → wp (f i) (fun _ => I (i + 1)) E t) :
    wp (forRange f a k) (fun _ => I (a + k)) E s := by
  induction k generalizing a s with
  | zero => exact h
  | succ k ih =>
    rw [forRange, wp_bind]
    refine (hf a s (Nat.le_refl a) (by omega) h).mono (fun _ t ht => ?_) fun _ _ he => he
    have := ih ht fun i t h₁ h₂ => hf i t (by omega) (by omega)
    rwa [show a + 1 + k = a + (k + 1) by omega] at this

/-- A loop over a list keeps its invariant `I`, indexed by what is left of the list. -/
theorem wp_forM {γ : Type} {f : γ → EStateM ε σ PUnit} {l : List γ} {s : σ}
    (I : List γ → σ → Prop) (h : I l s)
    (hf : ∀ a l' t, (a :: l') <:+ l → I (a :: l') t → wp (f a) (fun _ => I l') E t) :
    wp (l.forM f) (fun _ => I []) E s := by
  induction l generalizing s with
  | nil => exact h
  | cons a l ih =>
    rw [List.forM_eq_forM, List.forM_cons, wp_bind]
    refine (hf a l s (List.suffix_refl _) h).mono (fun _ t ht => ?_) fun _ _ he => he
    exact ih ht fun b l' t hs => hf b l' t (hs.trans (List.suffix_cons a l))

end Xv6
