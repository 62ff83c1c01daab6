import Xv6.Lib.Count

/-!
# Trees of names

A store of nodes, some of which are directories. A directory has slots, which are empty or hold a
name and a node, and it points to itself and to the directory above it. Each node has a number of
links. A file may have any number of names, in any directories, and a directory has one at most.

The steps (`NameTree.Step`) enter a name for a file, make a node with a name, take a name away, and
drop a node that has no links. An empty directory can lose its name, and may be used until it is
dropped; it can even get names in it. So the links of a node are not less than what uses them
(`NameTree.Wf`), and they are equal to it (`NameTree.Exact`) if names are entered in directories
that have links only. In both cases no name leads to a node that was dropped, and the directories
form a forest.
-/

namespace Xv6

/-- A node is free, or it is in use. -/
inductive NodeKind
  | free
  | file
  | dir
  deriving DecidableEq

/-- A node. -/
structure TreeNode (N M A : Type*) where
  kind : NodeKind
  links : ℤ
  /-- What a directory has for itself. -/
  self : Option N
  /-- What a directory has for the one above it. -/
  up : Option N
  entry : M → Option (A × N)

/-- The nodes `N`, with the slots `M` and the names `A`. -/
abbrev NameTree (N M A : Type*) := N → TreeNode N M A

/-- The number of links to the directory above. -/
def NodeKind.upLinks (kind : NodeKind) : ℤ := if kind = .dir then 1 else 0

namespace TreeNode

variable {N M A : Type*}

/-- A free node. -/
def unused : TreeNode N M A := ⟨.free, 0, none, none, fun _ => none⟩

/-- The new node `j`, below `i`. -/
def fresh (kind : NodeKind) (i j : N) : TreeNode N M A where
  kind
  links := 1
  self := if kind = .dir then some j else none
  up := if kind = .dir then some i else none
  entry _ := none

/-- Set a slot, and change the number of links. -/
def edit [DecidableEq M] (n : TreeNode N M A) (k : M) (o : Option (A × N)) (d : ℤ) :
    TreeNode N M A :=
  { n with links := n.links + d, entry := Function.update n.entry k o }

theorem edit_entry_of_ne [DecidableEq M] {n : TreeNode N M A} {o : Option (A × N)} {d : ℤ}
    {k k' : M} (h : k' ≠ k) : (n.edit k o d).entry k' = n.entry k' := Function.update_of_ne h _ _

/-- Change the number of links. -/
def addLinks (n : TreeNode N M A) (d : ℤ) : TreeNode N M A := { n with links := n.links + d }

end TreeNode

namespace NameTree

variable {N M A : Type*}

/-- What the slots name. -/
def named (t : NameTree N M A) (x : N × M) : Option N := ((t x.1).entry x.2).map Prod.snd

theorem named_eq_some {t : NameTree N M A} {i j : N} {k : M} :
    t.named (i, k) = some j ↔ ∃ a, (t i).entry k = some (a, j) := by
  simp [named]

/-- The directory, if it has a directory in the slot. -/
def above (t : NameTree N M A) (x : N × M) : Option N :=
  (t.named x).bind fun j => if (t j).kind = .dir then some x.1 else none

variable [DecidableEq N]

section

variable [DecidableEq M]

/-- The steps. If `strict`, names are entered in directories that have links only. -/
inductive Step (strict : Prop) (t : NameTree N M A) : NameTree N M A → Prop
  | link {i j : N} {k : M} {a : A} : (t i).kind = .dir → (t i).entry k = none →
      (∀ k' j', (t i).entry k' ≠ some (a, j')) → (t j).kind = .file →
      (strict → (t i).links ≠ 0) →
      Step strict t (Function.update (Function.update t i ((t i).edit k (some (a, j)) 0)) j
        ((t j).addLinks 1))
  | make {i j : N} {k : M} {a : A} {kind : NodeKind} : (t i).kind = .dir →
      (t i).entry k = none → (∀ k' j', (t i).entry k' ≠ some (a, j')) → (t j).kind = .free →
      kind ≠ .free → (strict → (t i).links ≠ 0) →
      Step strict t (Function.update (Function.update t i
        ((t i).edit k (some (a, j)) kind.upLinks)) j (.fresh kind i j))
  | unlink {i j : N} {k : M} {a : A} : (t i).entry k = some (a, j) → i ≠ j →
      (∀ k', (t j).entry k' = none) →
      Step strict t (Function.update (Function.update t i
        ((t i).edit k none (-(t j).kind.upLinks))) j ((t j).addLinks (-1)))
  | drop {j : N} : (t j).links = 0 → Step strict t (Function.update t j .unused)

end

section

variable [Fintype N] [Fintype M]

/-- The links that are accounted for: the names, and the directories below. -/
def uses (t : NameTree N M A) (i : N) : ℤ := refs t.named i + refs t.above i

/-- The invariant; `r` is the root. -/
structure Wf (r : Option N) (t : NameTree N M A) : Prop where
  counted : ∀ i, t.uses i + holds r i ≤ (t i).links
  unused : ∀ i, (t i).kind = .free → (t i).links = 0
  inDir : ∀ i k e, (t i).entry k = some e → (t i).kind = .dir
  self : ∀ i, (t i).kind = .dir → (t i).self = some i
  hasUp : ∀ i, (t i).kind = .dir → (t i).up.isSome = true
  up : ∀ i k a j, (t i).entry k = some (a, j) → (t j).kind = .dir → (t j).up = some i
  once : ∀ i k a i' k' a' j, (t i).entry k = some (a, j) → (t i').entry k' = some (a', j) →
    (t j).kind = .dir → i = i' ∧ k = k'
  distinct : ∀ i k k' a j j', (t i).entry k = some (a, j) → (t i).entry k' = some (a, j') → k = k'
  root : ∀ i, r = some i → (t i).kind = .dir ∧ ∀ x, t.named x ≠ some i
  /-- No directory is below itself. -/
  ranked : ∃ rank : N → ℕ, ∀ i k a j, (t i).entry k = some (a, j) → (t j).kind = .dir →
    rank i < rank j

/-- All links are accounted for, and a directory that has lost its name is empty. -/
structure Exact (r : Option N) (t : NameTree N M A) : Prop extends Wf r t where
  exact : ∀ i, t.uses i + holds r i = (t i).links
  quiet : ∀ i, (∀ x, t.named x ≠ some i) → r ≠ some i → ∀ k, (t i).entry k = none

end

/-- What can be reached from the root. -/
inductive Below (r : Option N) (t : NameTree N M A) : N → Prop
  | root {i : N} : r = some i → Below r t i
  | entry {i j : N} {k : M} {a : A} : Below r t i → (t i).entry k = some (a, j) → Below r t j

variable {t u : NameTree N M A} {r : Option N} {i j : N} {k : M} {a : A} {kind : NodeKind}
  {strict : Prop}

/-! ## Nodes that are dropped -/

theorem update_unused_entry {i' : N} {k' : M} {e : A × N}
    (he : (Function.update t j .unused i').entry k' = some e) :
    i' ≠ j ∧ (t i').entry k' = some e := by
  by_cases hne : i' = j
  · rw [hne, Function.update_self] at he
    cases he
  · rw [Function.update_of_ne hne] at he
    exact ⟨hne, he⟩

theorem kind_update_unused {i' : N} (hd : (Function.update t j .unused i').kind = .dir) :
    i' ≠ j ∧ (t i').kind = .dir := by
  by_cases hne : i' = j
  · rw [hne, Function.update_self] at hd
    cases hd
  · rw [Function.update_of_ne hne] at hd
    exact ⟨hne, hd⟩

theorem named_update_unused (t : NameTree N M A) (j : N) (x : N × M) :
    named (Function.update t j .unused) x = t.named x ∨
      named (Function.update t j .unused) x = none := by
  by_cases hne : x.1 = j
  · right
    rw [named, hne, Function.update_self]
    rfl
  · left
    rw [named, Function.update_of_ne hne, named]

theorem above_update_unused (hn : ∀ x, t.named x ≠ some j) (x : N × M) :
    above (Function.update t j .unused) x = t.above x ∨
      above (Function.update t j .unused) x = none := by
  obtain hx | hx := named_update_unused t j x
  · left
    rw [above, hx, above]
    cases hx' : t.named x with
    | none => rfl
    | some j' =>
      have hne : j' ≠ j := by
        rintro rfl
        exact hn x hx'
      rw [Option.bind_some, Option.bind_some, Function.update_of_ne hne]
  · right
    rw [above, hx]
    rfl

/-! ## Names that are entered -/

theorem update_of_ne_pair {x y : TreeNode N M A} {i' : N} (hi : i' ≠ i) (hj : i' ≠ j) :
    Function.update (Function.update t i x) j y i' = t i' := by
  rw [Function.update_of_ne hj, Function.update_of_ne hi]

/-- `u` is `t` with the name `a` for `j` in the slot `k` of `i`, where `j` is of the kind `kind`. -/
structure Entered (i : N) (k : M) (a : A) (j : N) (kind : NodeKind) (t u : NameTree N M A) :
    Prop where
  vacant : (t i).entry k = none
  slot : (u i).entry k = some (a, j)
  entry : ∀ i' k', (i', k') ≠ (i, k) → (u i').entry k' = (t i').entry k'
  kind_self : (u j).kind = kind
  kind_named : (∃ x, t.named x = some j) → (t j).kind = kind
  kind_of_ne : ∀ i', i' ≠ j → (u i').kind = (t i').kind
  links : ∀ i', (u i').links = (t i').links + (holds (some j) i' + kind.upLinks * holds (some i) i')
  dots : ∀ i', i' ≠ j → (u i').self = (t i').self ∧ (u i').up = (t i').up

section

variable [DecidableEq M]

theorem Entered.named_eq (h : Entered i k a j kind t u) :
    u.named = Function.update t.named (i, k) (some j) := by
  funext x
  by_cases hx : x = (i, k)
  · rw [hx, Function.update_self, named, h.slot]
    rfl
  · rw [Function.update_of_ne hx, named, h.entry x.1 x.2 hx, named]

theorem Entered.above_eq (h : Entered i k a j kind t u) :
    u.above = Function.update t.above (i, k) (if kind = .dir then some i else none) := by
  funext x
  by_cases hx : x = (i, k)
  · rw [hx, Function.update_self, above, h.named_eq, Function.update_self, Option.bind_some,
      h.kind_self]
  · rw [Function.update_of_ne hx, above, h.named_eq, Function.update_of_ne hx, above]
    cases hn : t.named x with
    | none => rfl
    | some j' =>
      have hkind : (u j').kind = (t j').kind := by
        by_cases hj : j' = j
        · rw [hj] at hn ⊢
          rw [h.kind_self, h.kind_named ⟨x, hn⟩]
        · exact h.kind_of_ne j' hj
      rw [Option.bind_some, Option.bind_some, hkind]

theorem Entered.eq_or (h : Entered i k a j kind t u) {i' j' : N} {k' : M} {a' : A}
    (he : (u i').entry k' = some (a', j')) :
    (i' = i ∧ k' = k ∧ a' = a ∧ j' = j) ∨ (t i').entry k' = some (a', j') := by
  by_cases hx : (i', k') = (i, k)
  · obtain ⟨rfl, rfl⟩ := Prod.mk.inj hx
    rw [h.slot] at he
    cases he
    exact .inl ⟨rfl, rfl, rfl, rfl⟩
  · rw [h.entry i' k' hx] at he
    exact .inr he

/-- Entering a name: `y` is the node `j` then. -/
theorem entered_of_update {y : TreeNode N M A} (hij : i ≠ j) (hv : (t i).entry k = none)
    (hy : y.kind = kind) (hentry : ∀ k', y.entry k' = (t j).entry k')
    (hlinks : y.links = (t j).links + 1) (hnamed : (∃ x, t.named x = some j) → (t j).kind = kind) :
    Entered i k a j kind t (Function.update (Function.update t i
      ((t i).edit k (some (a, j)) kind.upLinks)) j y) := by
  have hself : ∀ x : TreeNode N M A, Function.update (Function.update t i x) j y i = x :=
    fun x => by rw [Function.update_of_ne hij, Function.update_self]
  refine ⟨hv, ?_, fun i' k' hne => ?_, ?_, hnamed, fun i' hi' => ?_, fun i' => ?_, fun i' hi' => ?_⟩
  · rw [hself]
    exact Function.update_self ..
  · by_cases hi : i' = i
    · subst hi
      rw [hself]
      exact TreeNode.edit_entry_of_ne fun hk => hne (by rw [hk])
    · by_cases hj : i' = j
      · rw [hj, Function.update_self, hentry]
      · rw [update_of_ne_pair hi hj]
  · rw [Function.update_self, hy]
  · by_cases hi : i' = i
    · rw [hi, hself]
      rfl
    · rw [update_of_ne_pair hi hi']
  · by_cases hj : i' = j
    · rw [hj, Function.update_self, hlinks, holds_self, holds_of_ne hij, mul_zero]
      rfl
    · rw [holds_of_ne fun h => hj h.symm, zero_add]
      by_cases hi : i' = i
      · rw [hi, hself, holds_self, mul_one]
        rfl
      · rw [update_of_ne_pair hi hj, holds_of_ne fun h => hi h.symm, mul_zero, add_zero]
  · by_cases hi : i' = i
    · rw [hi, hself]
      exact ⟨rfl, rfl⟩
    · rw [update_of_ne_pair hi hi']
      exact ⟨rfl, rfl⟩

/-- Taking a name away is entering it, backwards. -/
theorem entered_of_unlink (hij : i ≠ j) (he : (t i).entry k = some (a, j)) :
    Entered i k a j (t j).kind (Function.update (Function.update t i
      ((t i).edit k none (-(t j).kind.upLinks))) j ((t j).addLinks (-1))) t := by
  have hself : ∀ x y : TreeNode N M A, Function.update (Function.update t i x) j y i = x :=
    fun x y => by rw [Function.update_of_ne hij, Function.update_self]
  refine ⟨?_, he, fun i' k' hne => ?_, rfl, fun _ => ?_, fun i' hi' => ?_, fun i' => ?_,
    fun i' hi' => ?_⟩
  · rw [hself]
    exact Function.update_self ..
  · by_cases hi : i' = i
    · subst hi
      rw [hself]
      exact (TreeNode.edit_entry_of_ne fun hk => hne (by rw [hk])).symm
    · by_cases hj : i' = j
      · rw [hj, Function.update_self]
        rfl
      · rw [update_of_ne_pair hi hj]
  · rw [Function.update_self]
    rfl
  · by_cases hi : i' = i
    · rw [hi, hself]
      rfl
    · rw [update_of_ne_pair hi hi']
  · by_cases hj : i' = j
    · rw [hj, Function.update_self, holds_self, holds_of_ne hij, mul_zero]
      change _ = (t j).links + -1 + _
      omega
    · rw [holds_of_ne fun h => hj h.symm, zero_add]
      by_cases hi : i' = i
      · rw [hi, hself, holds_self, mul_one]
        change _ = (t i).links + -(t j).kind.upLinks + _
        omega
      · rw [update_of_ne_pair hi hj, holds_of_ne fun h => hi h.symm, mul_zero, add_zero]
  · by_cases hi : i' = i
    · rw [hi, hself]
      exact ⟨rfl, rfl⟩
    · rw [update_of_ne_pair hi hi']
      exact ⟨rfl, rfl⟩

end

/-! ## Counting -/

variable [Fintype N] [Fintype M]

theorem uses_nonneg (t : NameTree N M A) (i : N) : 0 ≤ t.uses i :=
  add_nonneg (refs_nonneg _ _) (refs_nonneg _ _)

/-- A node that has a name has a link. -/
theorem Wf.links_pos (h : Wf r t) (he : (t i).entry k = some (a, j)) : 1 ≤ (t j).links := by
  have h₁ := h.counted j
  have h₂ : 1 ≤ refs t.named j := refs_pos (named_eq_some.2 ⟨a, he⟩)
  have h₃ := refs_nonneg t.above j
  have h₄ := holds_nonneg r j
  rw [uses] at h₁
  omega

/-- A directory that has a directory in a slot has a link. -/
theorem Wf.links_pos_of_dir (h : Wf r t) (he : (t i).entry k = some (a, j))
    (hj : (t j).kind = .dir) : 1 ≤ (t i).links := by
  have habove : t.above (i, k) = some i := by
    rw [above, named_eq_some.2 ⟨a, he⟩, Option.bind_some, if_pos hj]
  have h₁ := h.counted i
  have h₂ : 1 ≤ refs t.above i := refs_pos habove
  have h₃ := refs_nonneg t.named i
  have h₄ := holds_nonneg r i
  rw [uses] at h₁
  omega

/-- No name leads to a free node. -/
theorem Wf.not_free (h : Wf r t) (he : (t i).entry k = some (a, j)) : (t j).kind ≠ .free := by
  intro hf
  have := h.links_pos he
  rw [h.unused j hf] at this
  omega

/-- A node without links has no name, and is not the root. -/
theorem Wf.not_named (h : Wf r t) (hj : (t j).links ≤ 0) :
    (∀ x, t.named x ≠ some j) ∧ r ≠ some j := by
  have h₁ := h.counted j
  have h₂ := t.uses_nonneg j
  have h₃ := holds_nonneg r j
  refine ⟨fun x hx => ?_, fun hr => ?_⟩
  · obtain ⟨i, k⟩ := x
    obtain ⟨a, he⟩ := named_eq_some.1 hx
    have := h.links_pos he
    omega
  · rw [hr, holds_self] at h₁
    omega

/-- A directory is not below itself. -/
theorem Wf.ne (h : Wf r t) (he : (t i).entry k = some (a, j)) : i ≠ j := by
  rintro rfl
  obtain ⟨rank, hrank⟩ := h.ranked
  exact (hrank i k a i he (h.inDir i k _ he)).false

/-- A node without links is dropped. -/
theorem Wf.drop (hw : Wf r t) (hj : (t j).links = 0) : Wf r (Function.update t j .unused) := by
  obtain ⟨hn, hr⟩ := hw.not_named hj.le
  have huses : ∀ i', uses (Function.update t j .unused) i' ≤ t.uses i' := fun i' =>
    add_le_add (refs_le (named_update_unused t j) i') (refs_le (above_update_unused hn) i')
  refine ⟨fun i' => ?_, fun i' hf => ?_, fun i' k' e he => ?_, fun i' hd => ?_, fun i' hd => ?_,
    fun i' k' a' j' he hd => ?_, fun i₁ k₁ a₁ i₂ k₂ a₂ j' h₁ h₂ hd => ?_,
    fun i' k₁ k₂ a' j₁ j₂ h₁ h₂ => ?_, fun i' hr' => ?_, ?_⟩
  · -- What uses a link can only become less.
    have hle := huses i'
    have hc := hw.counted i'
    by_cases hne : i' = j
    · rw [hne, Function.update_self]
      rw [hne] at hle hc
      change _ ≤ (0 : ℤ)
      omega
    · rw [Function.update_of_ne hne]
      omega
  · by_cases hne : i' = j
    · rw [hne, Function.update_self]
      rfl
    · rw [Function.update_of_ne hne] at hf ⊢
      exact hw.unused i' hf
  · obtain ⟨hne, he⟩ := update_unused_entry he
    rw [Function.update_of_ne hne]
    exact hw.inDir i' k' e he
  · obtain ⟨hne, hd⟩ := kind_update_unused hd
    rw [Function.update_of_ne hne]
    exact hw.self i' hd
  · obtain ⟨hne, hd⟩ := kind_update_unused hd
    rw [Function.update_of_ne hne]
    exact hw.hasUp i' hd
  · obtain ⟨hne, hd⟩ := kind_update_unused hd
    rw [Function.update_of_ne hne]
    exact hw.up i' k' a' j' (update_unused_entry he).2 hd
  · exact hw.once i₁ k₁ a₁ i₂ k₂ a₂ j' (update_unused_entry h₁).2 (update_unused_entry h₂).2
      (kind_update_unused hd).2
  · exact hw.distinct i' k₁ k₂ a' j₁ j₂ (update_unused_entry h₁).2 (update_unused_entry h₂).2
  · obtain ⟨hd, hn'⟩ := hw.root i' hr'
    have hne : i' ≠ j := by
      rintro rfl
      exact hr hr'
    refine ⟨by rwa [Function.update_of_ne hne], fun x hx => ?_⟩
    obtain he | he := named_update_unused t j x
    · exact hn' x (he ▸ hx)
    · rw [he] at hx
      cases hx
  · obtain ⟨rank, hrank⟩ := hw.ranked
    exact ⟨rank, fun i' k' a' j' he hd => hrank i' k' a' j' (update_unused_entry he).2
      (kind_update_unused hd).2⟩

variable [DecidableEq M]

/-- The name is accounted for, and so is the directory above. -/
theorem Entered.uses_eq (h : Entered i k a j kind t u) (i' : N) :
    u.uses i' = t.uses i' + (holds (some j) i' + kind.upLinks * holds (some i) i') := by
  have hnamed : t.named (i, k) = none := by rw [named, h.vacant]; rfl
  have habove : t.above (i, k) = none := by rw [above, hnamed]; rfl
  rw [uses, uses, h.named_eq, h.above_eq, refs_update, refs_update, hnamed, habove, holds_none,
    NodeKind.upLinks]
  split
  · rw [one_mul]
    omega
  · rw [zero_mul, holds_none]
    omega

/-! ## The invariant -/

/-- A name is entered, for a file or for a new node. -/
theorem Entered.wf (h : Entered i k a j kind t u) (hw : Wf r t) (hi : (t i).kind = .dir)
    (ha : ∀ k' j', (t i).entry k' ≠ some (a, j')) (hj : (t j).kind ≠ .dir) (hkind : kind ≠ .free)
    (hnew : kind = .dir → (t j).kind = .free ∧ (u j).self = some j ∧ (u j).up = some i) :
    Wf r u := by
  have hij : i ≠ j := by
    rintro rfl
    exact hj hi
  have hdir : ∀ i', (t i').kind = .dir → (u i').kind = .dir := fun i' hd => by
    rw [h.kind_of_ne i' fun he => hj (he ▸ hd), hd]
  -- A directory with an old name is not the new node.
  have hold : ∀ {i' j' : N} {k' : M} {a' : A}, (t i').entry k' = some (a', j') →
      (u j').kind = .dir → j' ≠ j ∧ (t j').kind = .dir := fun {i' j' k' a'} he hd => by
    have hne : j' ≠ j := by
      rintro rfl
      rw [h.kind_self] at hd
      exact hw.not_free he (hnew hd).1
    rw [h.kind_of_ne j' hne] at hd
    exact ⟨hne, hd⟩
  refine ⟨fun i' => ?_, fun i' hf => ?_, fun i' k' e he => ?_, fun i' hd => ?_, fun i' hd => ?_,
    fun i' k' a' j' he hd => ?_, fun i₁ k₁ a₁ i₂ k₂ a₂ j' h₁ h₂ hd => ?_,
    fun i' k₁ k₂ a' j₁ j₂ h₁ h₂ => ?_, fun i' hr => ?_, ?_⟩
  · have := hw.counted i'
    rw [h.uses_eq, h.links]
    omega
  · have hne : i' ≠ j := by
      rintro rfl
      exact hkind (h.kind_self.symm.trans hf)
    rw [h.kind_of_ne i' hne] at hf
    have hni : i' ≠ i := by
      rintro rfl
      rw [hi] at hf
      cases hf
    rw [h.links, hw.unused i' hf, holds_of_ne hne.symm, holds_of_ne hni.symm, mul_zero]
    rfl
  · obtain ⟨a', j'⟩ := e
    obtain ⟨rfl, -, -, -⟩ | he := h.eq_or he
    · exact hdir i' hi
    · exact hdir i' (hw.inDir i' k' _ he)
  · by_cases hne : i' = j
    · rw [hne] at hd ⊢
      exact (hnew (h.kind_self.symm.trans hd)).2.1
    · rw [(h.dots i' hne).1]
      exact hw.self i' (by rwa [h.kind_of_ne i' hne] at hd)
  · by_cases hne : i' = j
    · rw [hne] at hd ⊢
      rw [(hnew (h.kind_self.symm.trans hd)).2.2]
      rfl
    · rw [(h.dots i' hne).2]
      exact hw.hasUp i' (by rwa [h.kind_of_ne i' hne] at hd)
  · obtain ⟨rfl, -, -, rfl⟩ | he := h.eq_or he
    · exact (hnew (h.kind_self.symm.trans hd)).2.2
    · obtain ⟨hne, hd'⟩ := hold he hd
      rw [(h.dots j' hne).2]
      exact hw.up i' k' a' j' he hd'
  · -- A new directory has no other name.
    obtain ⟨rfl, rfl, -, rfl⟩ | h₁ := h.eq_or h₁
    · obtain ⟨rfl, rfl, -, -⟩ | h₂ := h.eq_or h₂
      · exact ⟨rfl, rfl⟩
      · exact absurd rfl (hold h₂ hd).1
    · obtain ⟨hne, hd'⟩ := hold h₁ hd
      obtain ⟨-, -, -, rfl⟩ | h₂ := h.eq_or h₂
      · exact absurd rfl hne
      · exact hw.once i₁ k₁ a₁ i₂ k₂ a₂ j' h₁ h₂ hd'
  · -- The name was not in the directory before.
    obtain ⟨rfl, rfl, rfl, rfl⟩ | h₁ := h.eq_or h₁
    · obtain ⟨-, rfl, -, -⟩ | h₂ := h.eq_or h₂
      · rfl
      · exact absurd h₂ (ha k₂ j₂)
    · obtain ⟨rfl, -, rfl, -⟩ | h₂ := h.eq_or h₂
      · exact absurd h₁ (ha k₁ j₁)
      · exact hw.distinct i' k₁ k₂ a' j₁ j₂ h₁ h₂
  · obtain ⟨hd, hn⟩ := hw.root i' hr
    refine ⟨hdir i' hd, fun x hx => ?_⟩
    rw [h.named_eq] at hx
    by_cases hxe : x = (i, k)
    · rw [hxe, Function.update_self] at hx
      cases hx
      exact hj hd
    · rw [Function.update_of_ne hxe] at hx
      exact hn x hx
  · -- The new node comes after its parent, and nothing is below it.
    obtain ⟨rank, hrank⟩ := hw.ranked
    refine ⟨Function.update rank j (rank i + 1), fun i' k' a' j' he hd => ?_⟩
    obtain ⟨rfl, -, -, rfl⟩ | he := h.eq_or he
    · rw [Function.update_self, Function.update_of_ne hij]
      exact Nat.lt_succ_self _
    · obtain ⟨hne, hd'⟩ := hold he hd
      have hne' : i' ≠ j := by
        rintro rfl
        exact hj (hw.inDir i' k' _ he)
      rw [Function.update_of_ne hne, Function.update_of_ne hne']
      exact hrank i' k' a' j' he hd'

/-- A name is taken away, of a file or of an empty directory. -/
theorem Entered.wf_unlink (h : Entered i k a j kind u t) (hw : Wf r t) (hj : (u j).kind = kind)
    (hdots : (u j).self = (t j).self ∧ (u j).up = (t j).up) : Wf r u := by
  have hkind : ∀ i', (u i').kind = (t i').kind := fun i' => by
    by_cases hne : i' = j
    · rw [hne, hj, h.kind_self]
    · exact (h.kind_of_ne i' hne).symm
  have hdot : ∀ i', (u i').self = (t i').self ∧ (u i').up = (t i').up := fun i' => by
    by_cases hne : i' = j
    · rw [hne]
      exact hdots
    · exact ⟨(h.dots i' hne).1.symm, (h.dots i' hne).2.symm⟩
  have hsub : ∀ {i' k' e}, (u i').entry k' = some e → (t i').entry k' = some e :=
    fun {i' k' e} he => by
      by_cases hx : (i', k') = (i, k)
      · obtain ⟨rfl, rfl⟩ := Prod.mk.inj hx
        rw [h.vacant] at he
        cases he
      · rwa [h.entry i' k' hx]
  refine ⟨fun i' => ?_, fun i' hf => ?_, fun i' k' e he => ?_, fun i' hd => ?_, fun i' hd => ?_,
    fun i' k' a' j' he hd => ?_, fun i₁ k₁ a₁ i₂ k₂ a₂ j' h₁ h₂ hd => ?_,
    fun i' k₁ k₂ a' j₁ j₂ h₁ h₂ => ?_, fun i' hr => ?_, ?_⟩
  · have := hw.counted i'
    rw [h.uses_eq, h.links] at this
    omega
  · rw [hkind] at hf
    have hlinks := hw.unused i' hf
    have hnj : i' ≠ j := by
      rintro rfl
      exact hw.not_free h.slot hf
    have hni : i' ≠ i := by
      rintro rfl
      rw [hw.inDir i' k _ h.slot] at hf
      cases hf
    rw [h.links, holds_of_ne hnj.symm, holds_of_ne hni.symm, mul_zero] at hlinks
    omega
  · rw [hkind]
    exact hw.inDir i' k' e (hsub he)
  · rw [(hdot i').1]
    exact hw.self i' (by rwa [hkind] at hd)
  · rw [(hdot i').2]
    exact hw.hasUp i' (by rwa [hkind] at hd)
  · rw [(hdot j').2]
    exact hw.up i' k' a' j' (hsub he) (by rwa [hkind] at hd)
  · exact hw.once i₁ k₁ a₁ i₂ k₂ a₂ j' (hsub h₁) (hsub h₂) (by rwa [hkind] at hd)
  · exact hw.distinct i' k₁ k₂ a' j₁ j₂ (hsub h₁) (hsub h₂)
  · obtain ⟨hd, hn⟩ := hw.root i' hr
    refine ⟨(hkind i').trans hd, fun x hx => hn x ?_⟩
    obtain ⟨a', he⟩ := named_eq_some.1 hx
    exact named_eq_some.2 ⟨a', hsub he⟩
  · obtain ⟨rank, hrank⟩ := hw.ranked
    exact ⟨rank, fun i' k' a' j' he hd => hrank i' k' a' j' (hsub he) (by rwa [hkind] at hd)⟩

/-- What a step can do. -/
theorem Step.cases (h : Step strict t u) (hw : Wf r t) :
    (∃ i k a j kind, Entered i k a j kind t u ∧ (t i).kind = .dir ∧
      (∀ k' j', (t i).entry k' ≠ some (a, j')) ∧ (t j).kind ≠ .dir ∧ kind ≠ .free ∧
      (kind = .dir → (t j).kind = .free ∧ (u j).self = some j ∧ (u j).up = some i) ∧
      (strict → (t i).links ≠ 0)) ∨
    (∃ i k a j kind, Entered i k a j kind u t ∧ (u j).kind = kind ∧
      ((u j).self = (t j).self ∧ (u j).up = (t j).up) ∧ ∀ k', (t j).entry k' = none) ∨
    ∃ j, (t j).links = 0 ∧ u = Function.update t j .unused := by
  cases h with
  | @link i j k a hi hv ha hj hs =>
    have hnd : (t j).kind ≠ .dir := by rw [hj]; decide
    have hij : i ≠ j := by
      rintro rfl
      exact hnd hi
    exact .inl ⟨i, k, a, j, .file, entered_of_update hij hv hj (fun _ => rfl) rfl fun _ => hj, hi,
      ha, hnd, by decide, (fun h => by cases h), hs⟩
  | @make i j k a kind hi hv ha hj hkind hs =>
    have hnd : (t j).kind ≠ .dir := by rw [hj]; decide
    have hij : i ≠ j := by
      rintro rfl
      exact hnd hi
    refine .inl ⟨i, k, a, j, kind, entered_of_update hij hv rfl (fun k' => ?_) ?_ fun ⟨x, hx⟩ => ?_,
      hi, ha, hnd, hkind, fun h => ?_, hs⟩
    · cases hk : (t j).entry k' with
      | none => rfl
      | some e => exact absurd (hw.inDir j k' e hk) hnd
    · rw [hw.unused j hj]
      rfl
    · obtain ⟨a', he⟩ := named_eq_some.1 hx
      exact absurd hj (hw.not_free he)
    · rw [Function.update_self]
      exact ⟨hj, if_pos h, if_pos h⟩
  | @unlink i j k a he hij hempty =>
    refine .inr (.inl ⟨i, k, a, j, _, entered_of_unlink hij he, ?_, ?_, hempty⟩)
    · rw [Function.update_self]
      rfl
    · rw [Function.update_self]
      exact ⟨rfl, rfl⟩
  | drop hj => exact .inr (.inr ⟨_, hj, rfl⟩)

/-- A name is taken away, where the directory may be dropped before the link is taken back. -/
theorem Wf.unlink_put (hw : Wf r t) (he : (t i).entry k = some (a, j))
    (hempty : ∀ k', (t j).entry k' = none) {v : NameTree N M A}
    (hv : v = Function.update t i ((t i).edit k none (-(t j).kind.upLinks)) ∨
      ((t i).edit k none (-(t j).kind.upLinks)).links = 0 ∧ v = Function.update t i .unused)
    (hu : u = Function.update v j ((t j).addLinks (-1))) :
    Relation.ReflTransGen (Step strict) t u ∧ ∀ x, (t x).kind = .free → (u x).kind = .free := by
  have hij := hw.ne he
  have hstep : Step strict t (Function.update (Function.update t i
      ((t i).edit k none (-(t j).kind.upLinks))) j ((t j).addLinks (-1))) := .unlink he hij hempty
  have hne : ∀ x, (t x).kind = .free → x ≠ i ∧ x ≠ j := fun x hx => by
    constructor
    · rintro rfl
      rw [hw.inDir _ _ _ he] at hx
      cases hx
    · rintro rfl
      exact hw.not_free he hx
  obtain rfl | ⟨hl, rfl⟩ := hv
  · rw [hu]
    refine ⟨.single hstep, fun x hx => ?_⟩
    rwa [update_of_ne_pair (hne x hx).1 (hne x hx).2]
  · have hcomm : u = Function.update (Function.update (Function.update t i
        ((t i).edit k none (-(t j).kind.upLinks))) j ((t j).addLinks (-1))) i .unused := by
      rw [hu, Function.update_comm hij, Function.update_comm hij, Function.update_idem]
    rw [hcomm]
    refine ⟨.tail (.single hstep) (.drop ?_), fun x hx => ?_⟩
    · rw [Function.update_of_ne hij, Function.update_self]
      exact hl
    · rw [Function.update_of_ne (hne x hx).1, update_of_ne_pair (hne x hx).1 (hne x hx).2]
      exact hx

/-- Every step keeps the invariant. -/
theorem Step.wf (h : Step strict t u) (hw : Wf r t) : Wf r u := by
  obtain ⟨i, k, a, j, kind, he, hi, ha, hj, hkind, hnew, -⟩ |
    ⟨i, k, a, j, kind, he, hkind, hdots, -⟩ | ⟨j, hj, rfl⟩ := h.cases hw
  · exact he.wf hw hi ha hj hkind hnew
  · exact he.wf_unlink hw hkind hdots
  · exact hw.drop hj

theorem Wf.steps (hw : Wf r t) (h : Relation.ReflTransGen (Step strict) t u) : Wf r u := by
  induction h with
  | refl => exact hw
  | tail _ hstep ih => exact hstep.wf ih

/-! ## All links -/

omit [DecidableEq M] in
/-- A directory that has lost its name has no links. -/
theorem Exact.links_eq_zero (h : Exact r t) (hn : ∀ x, t.named x ≠ some i) (hr : r ≠ some i) :
    (t i).links = 0 := by
  have habove : ∀ x, t.above x ≠ some i := fun x hx => by
    obtain ⟨j', hj, hx⟩ := Option.bind_eq_some_iff.1 hx
    split at hx
    · cases hx
      rw [named, h.quiet x.1 hn hr] at hj
      cases hj
    · cases hx
  have hroot : holds r i = 0 := if_neg hr
  rw [← h.exact i, uses, refs_eq_zero hn, refs_eq_zero habove, hroot]
  rfl

/-- A name is entered in a directory with links. -/
theorem Entered.exact (h : Entered i k a j kind t u) (hx : Exact r t) (hw : Wf r u)
    (hi : (t i).links ≠ 0) : Exact r u := by
  refine ⟨hw, fun i' => ?_, fun i' hn hr k' => ?_⟩
  · rw [h.uses_eq, h.links, ← hx.exact i']
    omega
  · have hn' : ∀ x, t.named x ≠ some i' := fun x hx' => by
      by_cases hxe : x = (i, k)
      · rw [hxe, named, h.vacant] at hx'
        cases hx'
      · refine hn x ?_
        rw [h.named_eq, Function.update_of_ne hxe, hx']
    have hne : i' ≠ i := by
      rintro rfl
      exact hi (hx.links_eq_zero hn' hr)
    rw [h.entry i' k' fun he => hne (Prod.mk.inj he).1]
    exact hx.quiet i' hn' hr k'

/-- A name is taken away; if it is that of a directory, this is empty. -/
theorem Entered.exact_unlink (h : Entered i k a j kind u t) (hx : Exact r t) (hw : Wf r u)
    (hempty : ∀ k', (t j).entry k' = none) : Exact r u := by
  have hsub : ∀ i' k', (t i').entry k' = none → (u i').entry k' = none := fun i' k' he => by
    by_cases hxe : (i', k') = (i, k)
    · obtain ⟨rfl, rfl⟩ := Prod.mk.inj hxe
      exact h.vacant
    · rw [← h.entry i' k' hxe, he]
  refine ⟨hw, fun i' => ?_, fun i' hn hr k' => hsub i' k' ?_⟩
  · have := hx.exact i'
    rw [h.uses_eq, h.links] at this
    omega
  · by_cases hj : i' = j
    · rw [hj]
      exact hempty k'
    · refine hx.quiet i' (fun x hx' => ?_) hr k'
      rw [h.named_eq] at hx'
      by_cases hxe : x = (i, k)
      · rw [hxe, Function.update_self] at hx'
        cases hx'
        exact hj rfl
      · rw [Function.update_of_ne hxe] at hx'
        exact hn x hx'

omit [DecidableEq M] in
/-- A node without links has nothing that would be lost. -/
theorem Exact.drop (hx : Exact r t) (hj : (t j).links = 0) :
    Exact r (Function.update t j .unused) := by
  obtain ⟨hn, hr⟩ := hx.not_named hj.le
  have hempty := hx.quiet j hn hr
  have hnamed : named (Function.update t j .unused) = t.named := by
    funext x
    by_cases hxj : x.1 = j
    · rw [named, named, hxj, Function.update_self, hempty]
      rfl
    · rw [named, Function.update_of_ne hxj, named]
  have habove : above (Function.update t j .unused) = t.above := by
    funext x
    rw [above, hnamed, above]
    cases hx' : t.named x with
    | none => rfl
    | some j' =>
      have hne : j' ≠ j := by
        rintro rfl
        exact hn x hx'
      rw [Option.bind_some, Option.bind_some, Function.update_of_ne hne]
  refine ⟨hx.toWf.drop hj, fun i' => ?_, fun i' hn' hr' k' => ?_⟩
  · rw [uses, hnamed, habove]
    by_cases hne : i' = j
    · rw [hne, Function.update_self, ← uses, hx.exact, hj]
      rfl
    · rw [Function.update_of_ne hne]
      exact hx.exact i'
  · rw [hnamed] at hn'
    by_cases hne : i' = j
    · rw [hne, Function.update_self]
      rfl
    · rw [Function.update_of_ne hne]
      exact hx.quiet i' hn' hr' k'

/-- The strict steps account for all links. -/
theorem Step.exact (h : Step strict t u) (hs : strict) (hx : Exact r t) : Exact r u := by
  have hw := h.wf hx.toWf
  obtain ⟨i, k, a, j, kind, he, -, -, -, -, -, hlinks⟩ | ⟨i, k, a, j, kind, he, -, -, hempty⟩ |
    ⟨j, hj, rfl⟩ := h.cases hx.toWf
  · exact he.exact hx hw (hlinks hs)
  · exact he.exact_unlink hx hw hempty
  · exact hx.drop hj

theorem Exact.steps (hx : Exact r t) (h : Relation.ReflTransGen (Step strict) t u) (hs : strict) :
    Exact r u := by
  induction h with
  | refl => exact hx
  | tail _ hstep ih => exact hstep.exact hs ih

omit [DecidableEq M] in
/-- Every node with links can be reached from the root. -/
theorem Exact.below (hx : Exact r t) (hi : (t i).links ≠ 0) : Below r t i := by
  have hstep : ∀ j, (t j).links ≠ 0 → r = some j ∨ ∃ d k a, (t d).entry k = some (a, j) ∧
      (t d).kind = .dir ∧ (t d).links ≠ 0 := fun j hj => by
    by_contra hno
    rw [not_or] at hno
    refine hj (hx.links_eq_zero (fun x hx' => hno.2 ?_) hno.1)
    obtain ⟨d, k⟩ := x
    obtain ⟨a, he⟩ := named_eq_some.1 hx'
    refine ⟨d, k, a, he, hx.inDir d k _ he, fun hd => ?_⟩
    obtain ⟨hn, hr⟩ := hx.not_named hd.le
    rw [hx.quiet d hn hr k] at he
    cases he
  obtain ⟨rank, hrank⟩ := hx.ranked
  have hdir : ∀ n d, rank d < n → (t d).kind = .dir → (t d).links ≠ 0 → Below r t d := by
    intro n
    induction n with
    | zero => exact fun d h => absurd h (Nat.not_lt_zero _)
    | succ n ih =>
      intro d hlt hd hl
      obtain hr | ⟨d', k, a, he, hd', hl'⟩ := hstep d hl
      · exact .root hr
      · have hlt' := hrank d' k a d he hd
        exact .entry (ih d' (by omega) hd' hl') he
  obtain hr | ⟨d, k, a, he, hd, hl⟩ := hstep i hi
  · exact .root hr
  · exact .entry (hdir _ d (Nat.lt_succ_self _) hd hl) he

/-! ## The root only -/

/-- The tree with the root `i` only. -/
def single (i : N) : NameTree N M A := Function.update (fun _ => .unused) i (.fresh .dir i i)

omit [DecidableEq M] in
theorem exact_single (i : N) : Exact (some i) (single i : NameTree N M A) := by
  have hself : (single i : NameTree N M A) i = .fresh .dir i i := Function.update_self _ _ _
  have hne : ∀ {j}, j ≠ i → (single i : NameTree N M A) j = .unused := fun h =>
    Function.update_of_ne h _ _
  have hentry : ∀ j k, ((single i : NameTree N M A) j).entry k = none := fun j k => by
    by_cases hj : j = i
    · rw [hj, hself]
      rfl
    · rw [hne hj]
      rfl
  have hnamed : ∀ x, (single i : NameTree N M A).named x = none := fun x => by
    rw [named, hentry]
    rfl
  have hdir : ∀ {j}, ((single i : NameTree N M A) j).kind = .dir → j = i := fun {j} h => by
    by_contra hj
    rw [hne hj] at h
    cases h
  have huses : ∀ j, (single i : NameTree N M A).uses j + holds (some i) j =
      ((single i : NameTree N M A) j).links := fun j => by
    have hn : refs (single i : NameTree N M A).named j = 0 :=
      refs_eq_zero fun x h => by rw [hnamed] at h; cases h
    have ha : refs (single i : NameTree N M A).above j = 0 :=
      refs_eq_zero fun x h => by rw [above, hnamed] at h; cases h
    rw [uses, hn, ha]
    by_cases hj : j = i
    · rw [hj, hself, holds_self]
      rfl
    · rw [hne hj, holds_of_ne fun h => hj h.symm]
      rfl
  refine ⟨⟨fun j => (huses j).le, fun j hj => ?_, fun j k e he => ?_, fun j hj => ?_, fun j hj => ?_,
    fun j k a j' he => ?_, fun j k a j' k' a' l he => ?_, fun j k k' a l l' he => ?_, fun j hj => ?_,
    ⟨fun _ => 0, fun j k a j' he => ?_⟩⟩, huses, fun j _ _ k => hentry j k⟩
  case refine_2 | refine_5 | refine_6 | refine_7 | refine_9 =>
    rw [hentry] at he
    cases he
  · by_cases h : j = i
    · rw [h, hself] at hj
      cases hj
    · rw [hne h]
      rfl
  · obtain rfl := hdir hj
    rw [hself]
    rfl
  · obtain rfl := hdir hj
    rw [hself]
    rfl
  · obtain rfl := Option.some.inj hj
    refine ⟨by rw [hself]; rfl, fun x h => ?_⟩
    rw [hnamed] at h
    cases h

end NameTree

end Xv6
