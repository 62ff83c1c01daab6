import Xv6.Lib.Wp

/-!
# What a computation does not touch

A map `φ` of the states changes a part of the state, and leaves the rest as it is.
`Blind φ m s` says that from `s`, the computation `m` neither looks at that part nor
changes it: applying `φ` before it comes to the same as applying it afterwards.
-/

namespace Xv6

variable {ε σ α β : Type}

/-- What a computation comes to, with the state changed by `φ`. -/
def mapState (φ : σ → σ) : EStateM.Result ε σ α → EStateM.Result ε σ α
  | .ok a t => .ok a (φ t)
  | .error e t => .error e (φ t)

/-- From `s`, the computation `m` does not touch what `φ` changes. -/
def Blind (φ : σ → σ) (m : EStateM ε σ α) (s : σ) : Prop := m (φ s) = mapState φ (m s)

variable {φ : σ → σ} {s : σ}

theorem blind_pure (a : α) : Blind φ (pure a : EStateM ε σ α) s := rfl

theorem blind_throw (e : ε) : Blind φ (throw e : EStateM ε σ α) s := rfl

theorem blind_modify {f : σ → σ} (h : f (φ s) = φ (f s)) :
    Blind φ (modify f : EStateM ε σ PUnit) s :=
  congrArg (EStateM.Result.ok PUnit.unit) h

theorem Blind.bind {m : EStateM ε σ α} {f : α → EStateM ε σ β} (h : Blind φ m s)
    (hf : ∀ a t, m s = .ok a t → Blind φ (f a) t) : Blind φ (m >>= f) s := by
  simp only [Blind, Bind.bind, EStateM.bind] at *
  rw [h]
  cases hm : m s with
  | ok a t => exact hf a t hm
  | error e t => rfl

/-- A change of the state, and what follows it. -/
theorem Blind.modify_bind {f : σ → σ} {g : PUnit → EStateM ε σ β}
    (h : Blind φ (modify f : EStateM ε σ PUnit) s) (hg : Blind φ (g ⟨⟩) (f s)) :
    Blind φ (modify f >>= g) s := by
  refine h.bind fun a t ht => ?_
  cases ht
  exact hg

/-- Looking at the state, for what `φ` does not change. -/
theorem Blind.get {f : σ → EStateM ε σ β} (hread : f (φ s) = f s) (h : Blind φ (f s) s) :
    Blind φ (MonadState.get >>= f) s := by
  have h' : f (φ s) (φ s) = mapState φ (f s s) := by
    rw [hread]
    exact h
  exact h'

end Xv6
