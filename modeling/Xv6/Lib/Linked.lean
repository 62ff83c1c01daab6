import Mathlib

/-!
# Linked lists

A function `next` links nodes. `Linked next p xs q` states that from the node `p` the links lead
through the nodes `xs`, in this order, to `q`; a circular list leads from a node to the node itself.
A list can be cut at any of its nodes (`linked_append`) and behind any of them (`Linked.split`), and
it is not changed by a change of a link that is not in it (`Linked.update_of_not_mem`).
-/

namespace Xv6

variable {α : Type*}

/-- From `p`, the links lead through `xs` to `q`. -/
def Linked (next : α → α) : α → List α → α → Prop
  | p, [], q => next p = q
  | p, x :: xs, q => next p = x ∧ Linked next x xs q

variable {next next' : α → α} {p q x : α} {xs ys : List α}

theorem linked_append : Linked next p (xs ++ x :: ys) q ↔
    Linked next p xs x ∧ Linked next x ys q := by
  induction xs generalizing p with
  | nil => rfl
  | cons z xs ih => simp only [List.cons_append, Linked, ih, and_assoc]

/-- A list from another node that is linked with the same one. -/
theorem Linked.enter {p' : α} (h : Linked next p xs q) (hp : next' p' = next p)
    (hn : ∀ x ∈ xs, next' x = next x) : Linked next' p' xs q := by
  induction xs generalizing p p' with
  | nil => exact hp.trans h
  | cons z xs ih =>
    exact ⟨hp.trans h.1, ih h.2 (hn z (by simp)) fun x hx => hn x (List.mem_cons_of_mem _ hx)⟩

theorem Linked.congr (h : Linked next p xs q) (hn : ∀ x ∈ p :: xs, next' x = next x) :
    Linked next' p xs q :=
  h.enter (hn p (by simp)) fun x hx => hn x (List.mem_cons_of_mem _ hx)

theorem getLastD_append_cons (xs ys : List α) (p x : α) :
    (xs ++ x :: ys).getLastD p = ys.getLastD x := by
  induction xs generalizing p with
  | nil => exact List.getLastD_cons
  | cons z xs ih => rw [List.cons_append, List.getLastD_cons, ih]

/-- The two parts of a list. -/
theorem Linked.split (h : Linked next p (xs ++ ys) q) :
    (∃ x, Linked next p xs x) ∧ Linked next (xs.getLastD p) ys q := by
  induction xs generalizing p with
  | nil => exact ⟨⟨_, rfl⟩, h⟩
  | cons z xs ih =>
    obtain ⟨⟨x, hx⟩, hys⟩ := ih h.2
    rw [List.getLastD_cons]
    exact ⟨⟨x, h.1, hx⟩, hys⟩

variable [DecidableEq α]

theorem Linked.update_of_not_mem {a b : α} (h : Linked next p xs q) (ha : a ∉ p :: xs) :
    Linked (Function.update next a b) p xs q := by
  refine h.congr fun x hx => Function.update_of_ne ?_ b next
  rintro rfl
  exact ha hx

/-- The last node before `x` is linked with what follows `x`. -/
theorem Linked.skip (h : Linked next p (xs ++ x :: ys) q) (hp : (p :: (xs ++ x :: ys)).Nodup) :
    Linked (Function.update next (xs.getLastD p) (next x)) p (xs ++ ys) q := by
  induction xs generalizing p with
  | nil =>
    refine h.2.enter (Function.update_self _ _ _) fun y hy => Function.update_of_ne ?_ _ _
    rintro rfl
    exact (List.nodup_cons.mp hp).1 (by simp [hy])
  | cons z xs ih =>
    rw [List.cons_append, List.nodup_cons] at hp
    rw [List.getLastD_cons]
    have hne : p ≠ xs.getLastD z := by
      rintro rfl
      exact hp.1 (List.mem_append_left (x :: ys) List.getLastD_mem_cons)
    exact ⟨by rw [Function.update_of_ne hne, h.1], ih h.2 hp.2⟩

end Xv6
