import Mathlib

/-!
# Ownership of numbered resources

A pool of resources, numbered from `lo` up to `hi`, with a set of those in use. A resource in
use is stored in one place, and a place that stores nothing stores `0`. The resources below `lo`
are in use by themselves, and so are those that are *lost*: nothing stores them.

A resource that is not in use can be stored in an empty place (`Owned.alloc`), and one that is
stored can be released (`Owned.free`).
-/

namespace Xv6

variable {X : Type*} {lo hi : ℕ} {lost : Set ℕ}

/-- The resources in use are stored once, or lost. -/
structure Owned (lo hi : ℕ) (lost : Set ℕ) (used : ℕ → Bool) (st : X → ℕ) : Prop where
  pos : 0 < lo
  range : ∀ x, st x ≠ 0 → lo ≤ st x ∧ st x < hi
  inj : ∀ x y, st x ≠ 0 → st x = st y → x = y
  kept : ∀ x, st x ≠ 0 → st x ∉ lost
  used : ∀ b < hi, used b = true ↔ b < lo ∨ b ∈ lost ∨ ∃ x, st x = b

namespace Owned

variable {used used' : ℕ → Bool} {st : X → ℕ} {x : X} {b : ℕ}

/-- A resource that is not in use is stored nowhere. -/
theorem ne_of_not_used (h : Owned lo hi lost used st) (hb : b < hi) (hu : used b = false) (x : X) :
    st x ≠ b := by
  intro hx
  rw [(h.used b hb).2 (.inr (.inr ⟨x, hx⟩))] at hu
  cases hu

/-- A resource that is not in use is not one of the first. -/
theorem le_of_not_used (h : Owned lo hi lost used st) (hb : b < hi) (hu : used b = false) : lo ≤ b := by
  by_contra hlt
  rw [(h.used b hb).2 (.inl (by omega))] at hu
  cases hu

/-- A resource that is not in use is not lost. -/
theorem not_lost_of_not_used (h : Owned lo hi lost used st) (hb : b < hi) (hu : used b = false) :
    b ∉ lost := by
  intro hl
  rw [(h.used b hb).2 (.inr (.inl hl))] at hu
  cases hu

/-- A resource that is stored is in use. -/
theorem used_of_ne_zero (h : Owned lo hi lost used st) (hx : st x ≠ 0) : used (st x) = true :=
  (h.used _ (h.range x hx).2).2 (.inr (.inr ⟨x, rfl⟩))

theorem congr (h : Owned lo hi lost used st) (hu : ∀ b < hi, used' b = used b) :
    Owned lo hi lost used' st :=
  ⟨h.pos, h.range, h.inj, h.kept, fun b hb => by rw [hu b hb]; exact h.used b hb⟩

variable [DecidableEq X]

/-- Store a resource that is not in use. -/
theorem alloc (h : Owned lo hi lost used st) (hx : st x = 0) (hb : b < hi) (hf : used b = false)
    (hu : ∀ c < hi, used' c = if c = b then true else used c) :
    Owned lo hi lost used' (Function.update st x b) := by
  have hne := h.ne_of_not_used hb hf
  have hlo := h.le_of_not_used hb hf
  refine ⟨h.pos, fun y hy => ?_, fun y z hy hyz => ?_, fun y hy => ?_, fun c hc => ?_⟩
  · by_cases hyx : y = x
    · rw [hyx, Function.update_self]
      exact ⟨hlo, hb⟩
    · rw [Function.update_of_ne hyx] at hy ⊢
      exact h.range y hy
  · by_cases hyx : y = x
    · by_cases hzx : z = x
      · rw [hyx, hzx]
      · rw [hyx, Function.update_self, Function.update_of_ne hzx] at hyz
        exact absurd hyz.symm (hne z)
    · rw [Function.update_of_ne hyx] at hy hyz
      by_cases hzx : z = x
      · rw [hzx, Function.update_self] at hyz
        exact absurd hyz (hne y)
      · rw [Function.update_of_ne hzx] at hyz
        exact h.inj y z hy hyz
  · by_cases hyx : y = x
    · rw [hyx, Function.update_self]
      exact h.not_lost_of_not_used hb hf
    · rw [Function.update_of_ne hyx] at hy ⊢
      exact h.kept y hy
  · rw [hu c hc]
    by_cases hcb : c = b
    · simp only [hcb, if_pos, true_iff]
      exact .inr (.inr ⟨x, Function.update_self ..⟩)
    rw [if_neg hcb, h.used c hc]
    constructor
    · rintro (hlt | hl | ⟨y, rfl⟩)
      · exact .inl hlt
      · exact .inr (.inl hl)
      · by_cases hyx : y = x
        · exact .inl (by rw [hyx, hx]; exact h.pos)
        · exact .inr (.inr ⟨y, Function.update_of_ne hyx _ _⟩)
    · rintro (hlt | hl | ⟨y, hy⟩)
      · exact .inl hlt
      · exact .inr (.inl hl)
      · by_cases hyx : y = x
        · rw [hyx, Function.update_self] at hy
          exact absurd hy.symm hcb
        · rw [Function.update_of_ne hyx] at hy
          exact .inr (.inr ⟨y, hy⟩)

/-- Release a resource. -/
theorem free (h : Owned lo hi lost used st) (hx : st x ≠ 0)
    (hu : ∀ c < hi, used' c = if c = st x then false else used c) :
    Owned lo hi lost used' (Function.update st x 0) := by
  have hne : ∀ y, y ≠ x → st y ≠ st x := fun y hy hyx => hy (h.inj x y hx hyx.symm).symm
  refine ⟨h.pos, fun y hy => ?_, fun y z hy hyz => ?_, fun y hy => ?_, fun c hc => ?_⟩
  · by_cases hyx : y = x
    · rw [hyx, Function.update_self] at hy
      exact absurd rfl hy
    · rw [Function.update_of_ne hyx] at hy ⊢
      exact h.range y hy
  · by_cases hyx : y = x
    · rw [hyx, Function.update_self] at hy
      exact absurd rfl hy
    · rw [Function.update_of_ne hyx] at hy hyz
      by_cases hzx : z = x
      · rw [hzx, Function.update_self] at hyz
        exact absurd hyz hy
      · rw [Function.update_of_ne hzx] at hyz
        exact h.inj y z hy hyz
  · by_cases hyx : y = x
    · rw [hyx, Function.update_self] at hy
      exact absurd rfl hy
    · rw [Function.update_of_ne hyx] at hy ⊢
      exact h.kept y hy
  · rw [hu c hc]
    by_cases hcx : c = st x
    · simp only [hcx, if_pos, Bool.false_eq_true, false_iff, not_or, not_exists]
      refine ⟨Nat.not_lt.2 (h.range x hx).1, h.kept x hx, fun y hy => ?_⟩
      by_cases hyx : y = x
      · rw [hyx, Function.update_self] at hy
        exact hx hy.symm
      · rw [Function.update_of_ne hyx] at hy
        exact hne y hyx hy
    rw [if_neg hcx, h.used c hc]
    constructor
    · rintro (hlt | hl | ⟨y, rfl⟩)
      · exact .inl hlt
      · exact .inr (.inl hl)
      · exact .inr (.inr ⟨y, Function.update_of_ne (fun hyx => hcx (by rw [hyx])) _ _⟩)
    · rintro (hlt | hl | ⟨y, hy⟩)
      · exact .inl hlt
      · exact .inr (.inl hl)
      · by_cases hyx : y = x
        · rw [hyx, Function.update_self] at hy
          exact .inl (by rw [← hy]; exact h.pos)
        · rw [Function.update_of_ne hyx] at hy
          exact .inr (.inr ⟨y, hy⟩)

end Owned

end Xv6
