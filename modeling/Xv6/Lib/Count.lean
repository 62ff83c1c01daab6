import Mathlib

/-!
# Counting references

The number of places that hold a reference to a thing, and how it changes when a place
changes (`refs_update`). Counts are integers, so that they can be compared with a reference
count that is ahead of the places or behind them.
-/

namespace Xv6

variable {ι α : Type*} [Fintype ι] [DecidableEq α]

/-- One if the place holds a reference to `a`, zero if not. -/
def holds (o : Option α) (a : α) : ℤ := if o = some a then 1 else 0

@[simp] theorem holds_none (a : α) : holds none a = 0 := rfl

@[simp] theorem holds_self (a : α) : holds (some a) a = 1 := if_pos rfl

theorem holds_of_ne {a b : α} (h : b ≠ a) : holds (some b) a = 0 :=
  if_neg fun he => h (Option.some.inj he)

theorem holds_nonneg (o : Option α) (a : α) : 0 ≤ holds o a := by
  unfold holds
  split <;> simp

/-- The number of places that hold a reference to `a`. -/
def refs (g : ι → Option α) (a : α) : ℤ := ∑ i, holds (g i) a

theorem refs_nonneg (g : ι → Option α) (a : α) : 0 ≤ refs g a :=
  Finset.sum_nonneg fun _ _ => holds_nonneg _ _

theorem refs_pos {g : ι → Option α} {a : α} {i : ι} (h : g i = some a) : 1 ≤ refs g a := by
  have := Finset.single_le_sum (f := fun i => holds (g i) a) (fun i _ => holds_nonneg (g i) a)
    (Finset.mem_univ i)
  rwa [h, holds_self] at this

theorem refs_eq_zero {g : ι → Option α} {a : α} (h : ∀ i, g i ≠ some a) : refs g a = 0 :=
  Finset.sum_eq_zero fun i _ => if_neg (h i)

theorem refs_eq_card (g : ι → Option α) (a : α) :
    refs g a = (Finset.univ.filter fun i => g i = some a).card := by
  rw [refs, Finset.card_filter]
  push_cast
  exact Finset.sum_congr rfl fun i _ => rfl

/-- Fewer places hold a reference. -/
theorem refs_le {g g' : ι → Option α} (h : ∀ i, g' i = g i ∨ g' i = none) (a : α) :
    refs g' a ≤ refs g a := by
  refine Finset.sum_le_sum fun i _ => ?_
  obtain hi | hi := h i
  · rw [hi]
  · rw [hi, holds_none]
    exact holds_nonneg _ _

/-- When one place changes. -/
theorem refs_update [DecidableEq ι] (g : ι → Option α) (i : ι) (o : Option α) (a : α) :
    refs (Function.update g i o) a = refs g a - holds (g i) a + holds o a := by
  unfold refs
  rw [← Finset.add_sum_erase _ _ (Finset.mem_univ i),
    ← Finset.add_sum_erase _ (fun i => holds (g i) a) (Finset.mem_univ i), Function.update_self]
  have : ∀ j ∈ Finset.univ.erase i, holds (Function.update g i o j) a = holds (g j) a :=
    fun j hj => by rw [Function.update_of_ne (Finset.ne_of_mem_erase hj)]
  rw [Finset.sum_congr rfl this]
  ring

end Xv6
