import Mathlib

/-!
# Circular doubly linked lists

A circular list of nodes linked in both directions through a head that is no element:
`none` is the head, and `some a` the node of `a`. The links hold a list `l` from the head on
(`Links.Chain`) if wherever `l` is cut in two, the last node before the cut and the first
node after it are linked, the head standing for a missing one. Nodes are taken out
(`Links.unlink`) and put in behind the head (`Links.pushFront`) by changing pointers, and
the list is searched from either end (`Links.findNext`, `Links.findPrev`).
-/

namespace Xv6

/-- The pointers of a circular list, for the head and for every node. -/
structure Links (α : Type*) where
  next : Option α → Option α
  prev : Option α → Option α

namespace Links

variable {α : Type*} {k : Links α} {l : List α} {b : α}

/-- The links hold the list `l`. -/
def Chain (k : Links α) (l : List α) : Prop :=
  ∀ l₁ l₂, l = l₁ ++ l₂ → k.next l₁.getLast? = l₂.head? ∧ k.prev l₂.head? = l₁.getLast?

/-- The head alone. -/
def empty (α : Type*) : Links α where
  next _ := none
  prev _ := none

theorem chain_empty : (empty α).Chain [] := by
  intro l₁ l₂ h
  obtain ⟨rfl, rfl⟩ := List.append_eq_nil_iff.1 h.symm
  exact ⟨rfl, rfl⟩

/-- The pointers in the two directions are inverse to each other, on the nodes of the list and
    on the head. -/
theorem Chain.prev_next (h : k.Chain l) {x : Option α} (hx : ∀ a, x = some a → a ∈ l) :
    k.prev (k.next x) = x := by
  have hcut : ∃ l₁ l₂, l = l₁ ++ l₂ ∧ l₁.getLast? = x := by
    cases x with
    | none => exact ⟨[], l, rfl, rfl⟩
    | some a =>
      obtain ⟨l₁, l₂, rfl⟩ := List.append_of_mem (hx a rfl)
      exact ⟨l₁ ++ [a], l₂, by simp, by simp⟩
  obtain ⟨l₁, l₂, hl, rfl⟩ := hcut
  obtain ⟨hn, hp⟩ := h l₁ l₂ hl
  rw [hn, hp]

theorem Chain.next_prev (h : k.Chain l) {x : Option α} (hx : ∀ a, x = some a → a ∈ l) :
    k.next (k.prev x) = x := by
  have hcut : ∃ l₁ l₂, l = l₁ ++ l₂ ∧ l₂.head? = x := by
    cases x with
    | none => exact ⟨l, [], by simp, rfl⟩
    | some a =>
      obtain ⟨l₁, l₂, rfl⟩ := List.append_of_mem (hx a rfl)
      exact ⟨l₁, a :: l₂, rfl, rfl⟩
  obtain ⟨l₁, l₂, hl, rfl⟩ := hcut
  obtain ⟨hn, hp⟩ := h l₁ l₂ hl
  rw [hp, hn]

/-! ## Searching -/

/-- Search from the node on, along the pointers `step`, up to the head. -/
def search (step : Option α → Option α) (p : α → Bool) : ℕ → Option α → Option α
  | 0, _ => none
  | _ + 1, none => none
  | n + 1, some b => if p b then some b else search step p n (step (some b))

/-- Search from the front, over `n` nodes at most. -/
def findNext (k : Links α) (p : α → Bool) (n : ℕ) : Option α := search k.next p n (k.next none)

/-- Search from the back. -/
def findPrev (k : Links α) (p : α → Bool) (n : ℕ) : Option α := search k.prev p n (k.prev none)

theorem search_of_cuts {step : Option α → Option α} {p : α → Bool} {n : ℕ}
    (h : ∀ l₁ a l₂, l = l₁ ++ a :: l₂ → step (some a) = l₂.head?) (hn : l.length < n) :
    search step p n l.head? = l.find? p := by
  induction l generalizing n with
  | nil => cases n <;> rfl
  | cons b l ih =>
    cases n with
    | zero => exact absurd hn (Nat.not_lt_zero _)
    | succ n =>
      rw [List.head?_cons, search, List.find?_cons]
      split
      · rename_i hp
        rw [hp]
      · rename_i hp
        rw [h [] b l rfl, Bool.eq_false_of_not_eq_true hp]
        exact ih (fun l₁ a l₂ hl => h (b :: l₁) a l₂ (by rw [hl]; rfl)) (Nat.lt_of_succ_lt_succ hn)

/-- With enough steps, the search finds what is on the list. -/
theorem Chain.findNext_eq (h : k.Chain l) {p : α → Bool} {n : ℕ} (hn : l.length < n) :
    k.findNext p n = l.find? p := by
  have h₀ := (h [] l rfl).1
  rw [List.getLast?_nil] at h₀
  rw [findNext, h₀]
  refine search_of_cuts (fun l₁ a l₂ hl => ?_) hn
  have := (h (l₁ ++ [a]) l₂ (by simp [hl])).1
  rwa [List.getLast?_concat] at this

theorem Chain.findPrev_eq (h : k.Chain l) {p : α → Bool} {n : ℕ} (hn : l.length < n) :
    k.findPrev p n = l.reverse.find? p := by
  have h₀ := (h l [] (by simp)).2
  rw [List.head?_nil] at h₀
  rw [findPrev, h₀, ← List.head?_reverse]
  refine search_of_cuts (fun l₁ a l₂ hl => ?_) (by simpa using hn)
  have hl' : l = l₂.reverse ++ a :: l₁.reverse := by
    rw [← List.reverse_reverse l, hl]
    simp
  have := (h l₂.reverse (a :: l₁.reverse) hl').2
  rwa [List.head?_cons, List.getLast?_reverse] at this

/-! ## Moving nodes -/

variable [DecidableEq α]

/-- Take a node out. -/
def unlink (k : Links α) (b : α) : Links α :=
  let k := { k with prev := Function.update k.prev (k.next (some b)) (k.prev (some b)) }
  { k with next := Function.update k.next (k.prev (some b)) (k.next (some b)) }

/-- Put a node in behind the head. -/
def pushFront (k : Links α) (b : α) : Links α :=
  let k := { k with next := Function.update k.next (some b) (k.next none) }
  let k := { k with prev := Function.update k.prev (some b) none }
  let k := { k with prev := Function.update k.prev (k.next none) (some b) }
  { k with next := Function.update k.next none (some b) }

theorem Chain.unlink {l₁ l₂ : List α} (h : k.Chain (l₁ ++ b :: l₂))
    (hd : (l₁ ++ b :: l₂).Nodup) : (k.unlink b).Chain (l₁ ++ l₂) := by
  have hprev : k.prev (some b) = l₁.getLast? := (h l₁ (b :: l₂) rfl).2
  have hnext : k.next (some b) = l₂.head? := by
    have := (h (l₁ ++ [b]) l₂ (by simp)).1
    rwa [List.getLast?_concat] at this
  obtain ⟨hd₁, hd₂, hdis⟩ := List.nodup_append'.1 hd
  have hb₂ : l₂.head? ≠ some b := fun hc => (List.nodup_cons.1 hd₂).1 (List.mem_of_head? hc)
  have hdis' : ∀ a, a ∈ l₁ → a ∈ l₂ → False := fun a h₁ h₂ =>
    hdis h₁ (List.mem_cons_of_mem b h₂)
  have hk : k.unlink b = ⟨Function.update k.next l₁.getLast? l₂.head?,
      Function.update k.prev l₂.head? l₁.getLast?⟩ := by
    simp only [Links.unlink, hnext, hprev, Function.update_of_ne hb₂.symm]
  rw [hk]
  intro m₁ m₂ hm
  dsimp only
  rcases List.append_eq_append_iff.1 hm with ⟨r, rfl, rfl⟩ | ⟨r, rfl, rfl⟩
  · cases r with
    | nil => simp
    | cons c r =>
      -- The cut is after the node.
      obtain ⟨hn, hp⟩ := h (l₁ ++ b :: c :: r) m₂ (by simp)
      have hlast : (l₁ ++ c :: r).getLast? = (l₁ ++ b :: c :: r).getLast? := by simp
      rw [hlast, Function.update_of_ne, Function.update_of_ne]
      · exact ⟨hn, hp⟩
      · intro hc
        have hmem : c ∈ m₂ := List.mem_of_head? hc
        exact (List.nodup_cons.1 (List.nodup_cons.1 hd₂).2).1 (List.mem_append_right r hmem)
      · intro hc
        obtain ⟨y, hy⟩ : ∃ y, (c :: r).getLast? = some y := by
          rw [List.getLast?_cons]
          exact ⟨_, rfl⟩
        have hy₁ : y ∈ l₁ := List.mem_of_getLast? (by
          rw [← hc, ← hlast, List.getLast?_append, hy]
          rfl)
        exact hdis' y hy₁ (List.mem_append_left m₂ (List.mem_of_getLast? hy))
  · cases r with
    | nil => simp
    | cons c r =>
      -- The cut is before the node.
      obtain ⟨hn, hp⟩ := h m₁ (c :: r ++ b :: l₂) (by simp)
      rw [List.cons_append, List.head?_cons] at hn hp ⊢
      rw [Function.update_of_ne, Function.update_of_ne]
      · exact ⟨hn, hp⟩
      · intro hc
        have hmem : c ∈ l₂ := List.mem_of_head? hc.symm
        exact hdis' c (List.mem_append_right m₁ List.mem_cons_self) hmem
      · intro hc
        obtain ⟨y, hy⟩ : ∃ y, (c :: r).getLast? = some y := by
          rw [List.getLast?_cons]
          exact ⟨_, rfl⟩
        have hy₁ : y ∈ m₁ := List.mem_of_getLast? (by
          rw [hc, List.getLast?_append, hy]
          rfl)
        exact (List.nodup_append'.1 hd₁).2.2 hy₁ (List.mem_of_getLast? hy)

theorem Chain.pushFront (h : k.Chain l) (hd : (b :: l).Nodup) : (k.pushFront b).Chain (b :: l) := by
  obtain ⟨hb, hl⟩ := List.nodup_cons.1 hd
  have hhead : k.next none = l.head? := (h [] l rfl).1
  have hne : l.head? ≠ some b := fun hc => hb (List.mem_of_head? hc)
  have hk : k.pushFront b = ⟨Function.update (Function.update k.next (some b) l.head?) none (some b),
      Function.update (Function.update k.prev (some b) none) l.head? (some b)⟩ := by
    simp [Links.pushFront, hhead]
  rw [hk]
  intro m₁ m₂ hm
  dsimp only
  cases m₁ with
  | nil =>
    rw [List.nil_append] at hm
    subst hm
    simp [hne.symm]
  | cons c r =>
    obtain ⟨rfl, rfl⟩ : b = c ∧ l = r ++ m₂ := by simpa using hm
    cases hr : r.getLast? with
    | none =>
      rw [List.getLast?_eq_none_iff] at hr
      subst hr
      simp
    | some y =>
      -- The cut is behind the first node.
      have hy : y ∈ r := List.mem_of_getLast? hr
      have hyb : y ≠ b := by
        rintro rfl
        exact hb (List.mem_append_left m₂ hy)
      obtain ⟨hn, hp⟩ := h r m₂ rfl
      rw [hr] at hn hp
      have hlast : (b :: r).getLast? = some y := by
        rw [List.getLast?_cons, hr]
        rfl
      have hm₂ : m₂.head? ≠ (r ++ m₂).head? := by
        intro hc
        cases r with
        | nil => cases hy
        | cons z r =>
          have : z ∈ m₂ := List.mem_of_head? hc
          exact (List.nodup_cons.1 hl).1 (List.mem_append_right r this)
      have hm₂b : m₂.head? ≠ some b := fun hc =>
        hb (List.mem_append_right r (List.mem_of_head? hc))
      rw [hlast, Function.update_of_ne (by simp), Function.update_of_ne (by simpa using hyb),
        Function.update_of_ne hm₂, Function.update_of_ne hm₂b]
      exact ⟨hn, hp⟩

end Links

end Xv6
