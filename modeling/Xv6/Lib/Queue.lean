import Mathlib

/-!
# Queues in rings

A ring of `n` cells that a producer and a consumer address by free-running counters, modulo
`m`: the producer stores at its counter and then increments it, the consumer reads at its own
counter. The cells between the counters hold a queue. The counters wrap at `m`, which has to be
a multiple of `n`; what is in the queue does not change when they do.
-/

namespace Xv6

/-- The cells of `ring` from the counter `r` up to the counter `w` hold the elements of `l`. -/
structure Queue {α : Type*} (n m : ℕ) (ring : ℕ → α) (r w : ℕ) (l : List α) : Prop where
  counter : w = (r + l.length) % m
  cell : ∀ k (h : k < l.length), ring ((r + k) % n) = l[k]

namespace Queue

variable {α : Type*} {n m : ℕ} {ring : ℕ → α} {r w : ℕ} {l : List α} {x : α}

/-- The cell of the producer. -/
theorem cell_counter (h : Queue n m ring r w l) (hnm : n ∣ m) : w % n = (r + l.length) % n := by
  rw [h.counter, Nat.mod_mod_of_dvd _ hnm]

/-- An element may be stored in a queue that is not full. -/
theorem store (h : Queue n m ring r w l) (hnm : n ∣ m) (hl : l.length < n) :
    Queue n m (Function.update ring (w % n) x) r w l := by
  refine ⟨h.counter, fun k hk => ?_⟩
  rw [Function.update_of_ne, h.cell k hk]
  rw [h.cell_counter hnm]
  intro heq
  have hdvd := (Nat.modEq_iff_dvd' (by omega)).1 heq
  have := Nat.le_of_dvd (by omega) hdvd
  omega

/-- Once it is stored, the producer counts it. -/
theorem push (h : Queue n m ring r w l) (hnm : n ∣ m) (hx : ring (w % n) = x) :
    Queue n m ring r ((w + 1) % m) (l ++ [x]) := by
  refine ⟨?_, fun k hk => ?_⟩
  · rw [h.counter, List.length_append, List.length_singleton, Nat.mod_add_mod, Nat.add_assoc]
  · rcases Nat.lt_succ_iff_lt_or_eq.1 (by simpa using hk : k < l.length + 1) with hk' | rfl
    · rw [h.cell k hk', List.getElem_append_left hk']
    · rw [← h.cell_counter hnm, hx]
      simp

/-- The consumer takes the first element. -/
theorem pop (h : Queue n m ring r w (x :: l)) (hnm : n ∣ m) :
    ring (r % n) = x ∧ Queue n m ring ((r + 1) % m) w l := by
  refine ⟨h.cell 0 (Nat.succ_pos _), ?_, fun k hk => ?_⟩
  · rw [h.counter, List.length_cons, Nat.mod_add_mod, Nat.add_assoc, Nat.add_comm 1]
  · have hcell := h.cell (k + 1) (by simpa using hk)
    rw [← Nat.mod_mod_of_dvd _ hnm, Nat.mod_add_mod, Nat.mod_mod_of_dvd _ hnm, Nat.add_assoc,
      Nat.add_comm 1, hcell, List.getElem_cons_succ]

/-- The counters agree if and only if the queue is empty. -/
theorem eq_nil_iff (h : Queue n m ring r w l) (hr : r < m) (hl : l.length < m) :
    r = w ↔ l = [] := by
  rw [h.counter]
  constructor
  · intro heq
    by_contra hne
    have hpos := List.length_pos_iff.2 hne
    rcases Nat.lt_or_ge (r + l.length) m with hlt | hge
    · rw [Nat.mod_eq_of_lt hlt] at heq
      omega
    · rw [Nat.mod_eq_sub_mod hge, Nat.mod_eq_of_lt (by omega)] at heq
      omega
  · rintro rfl
    exact (Nat.mod_eq_of_lt hr).symm

end Queue

end Xv6
