import Mathlib.Data.Set.Insert
import Mathlib.Tactic.Common

/-!
# Maps in slots

A finite map is kept in numbered slots, each of which is empty or holds a key and its value; there
are `n` slots. The map is the set of the pairs that the slots hold (`Slots.graph`), in which a key
has one value if no two slots hold the same key (`Slots.Distinct`).

Filling an empty slot, or one more slot at the end, adds a pair; emptying a slot removes one.
-/

namespace Xv6

namespace Slots

variable {K V : Type*}

/-- The pairs in the first `n` slots. -/
def graph (slot : ℕ → Option (K × V)) (n : ℕ) : Set (K × V) := {b | ∃ k < n, slot k = some b}

/-- No two of the first `n` slots hold the same key. -/
def Distinct (slot : ℕ → Option (K × V)) (n : ℕ) : Prop :=
  ∀ k < n, ∀ k' < n, ∀ b b', slot k = some b → slot k' = some b' → b.1 = b'.1 → k = k'

variable {slot slot' : ℕ → Option (K × V)} {n n' k : ℕ} {a : K} {b : K × V} {v v' : V}

theorem Distinct.unique (h : Distinct slot n) (hv : (a, v) ∈ graph slot n)
    (hv' : (a, v') ∈ graph slot n) : v = v' := by
  obtain ⟨k, hk, hs⟩ := hv
  obtain ⟨k', hk', hs'⟩ := hv'
  obtain rfl := h k hk k' hk' _ _ hs hs' rfl
  exact (Prod.mk.inj (Option.some.inj (hs.symm.trans hs'))).2

/-- The slots, when the slot `k` is filled, be it empty or the next one. -/
structure Filled (slot : ℕ → Option (K × V)) (n k : ℕ) (b : K × V) (slot' : ℕ → Option (K × V))
    (n' : ℕ) : Prop where
  count : n' = max n (k + 1)
  le : k ≤ n
  empty : k < n → slot k = none
  new : slot' k = some b
  old : ∀ j, j ≠ k → j < n → slot' j = slot j

theorem Filled.graph_eq (h : Filled slot n k b slot' n') :
    graph slot' n' = insert b (graph slot n) := by
  have hlt : ∀ j, j < n' ↔ j = k ∨ j < n := fun j => by
    rw [h.count]
    have := h.le
    omega
  ext b'
  constructor
  · rintro ⟨j, hj, hs⟩
    by_cases hjk : j = k
    · rw [hjk, h.new] at hs
      exact .inl (Option.some.inj hs).symm
    · have hjn := ((hlt j).1 hj).resolve_left hjk
      exact .inr ⟨j, hjn, (h.old j hjk hjn).symm.trans hs⟩
  · rintro (rfl | ⟨j, hj, hs⟩)
    · exact ⟨k, (hlt k).2 (.inl rfl), h.new⟩
    · have hjk : j ≠ k := by
        rintro rfl
        rw [h.empty hj] at hs
        cases hs
      exact ⟨j, (hlt j).2 (.inr hj), (h.old j hjk hj).trans hs⟩

/-- The keys stay distinct if the one that is added is new. -/
theorem Filled.distinct (h : Filled slot n k b slot' n') (hd : Distinct slot n)
    (hnew : ∀ v, (b.1, v) ∉ graph slot n) : Distinct slot' n' := by
  have hlt : ∀ j, j < n' → j ≠ k → j < n := fun j hj hjk => by
    rw [h.count] at hj
    have := h.le
    omega
  have hother : ∀ j < n', j ≠ k → ∀ c, slot' j = some c → c.1 ≠ b.1 := by
    intro j hj hjk c hc hcb
    refine hnew c.2 ⟨j, hlt j hj hjk, ?_⟩
    rw [← h.old j hjk (hlt j hj hjk), hc, ← hcb]
  intro j hj j' hj' c c' hc hc' hcc
  by_cases hjk : j = k
  · by_cases hjk' : j' = k
    · rw [hjk, hjk']
    · rw [hjk, h.new] at hc
      obtain rfl := Option.some.inj hc
      exact absurd hcc.symm (hother j' hj' hjk' c' hc')
  · by_cases hjk' : j' = k
    · rw [hjk', h.new] at hc'
      obtain rfl := Option.some.inj hc'
      exact absurd hcc (hother j hj hjk c hc)
    · rw [h.old j hjk (hlt j hj hjk)] at hc
      rw [h.old j' hjk' (hlt j' hj' hjk')] at hc'
      exact hd j (hlt j hj hjk) j' (hlt j' hj' hjk') c c' hc hc' hcc

/-- The slots, when the slot `k` is emptied. -/
structure Emptied (slot : ℕ → Option (K × V)) (n k : ℕ) (b : K × V)
    (slot' : ℕ → Option (K × V)) : Prop where
  lt : k < n
  was : slot k = some b
  new : slot' k = none
  old : ∀ j, j ≠ k → j < n → slot' j = slot j

theorem Emptied.graph_eq (h : Emptied slot n k b slot') (hd : Distinct slot n) :
    graph slot' n = graph slot n \ {b} := by
  ext b'
  constructor
  · rintro ⟨j, hj, hs⟩
    have hjk : j ≠ k := by
      rintro rfl
      rw [h.new] at hs
      cases hs
    rw [h.old j hjk hj] at hs
    refine ⟨⟨j, hj, hs⟩, ?_⟩
    rintro rfl
    exact hjk (hd j hj k h.lt _ _ hs h.was rfl)
  · rintro ⟨⟨j, hj, hs⟩, hne⟩
    have hjk : j ≠ k := by
      rintro rfl
      rw [h.was] at hs
      exact hne (Option.some.inj hs).symm
    exact ⟨j, hj, (h.old j hjk hj).trans hs⟩

theorem Emptied.distinct (h : Emptied slot n k b slot') (hd : Distinct slot n) :
    Distinct slot' n := by
  have hold : ∀ j < n, ∀ c, slot' j = some c → slot j = some c := by
    intro j hj c hc
    have hjk : j ≠ k := by
      rintro rfl
      rw [h.new] at hc
      cases hc
    exact (h.old j hjk hj).symm.trans hc
  intro j hj j' hj' c c' hc hc'
  exact hd j hj j' hj' c c' (hold j hj c hc) (hold j' hj' c' hc')

end Slots

end Xv6
