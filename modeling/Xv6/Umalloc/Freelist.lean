import Mathlib
import Xv6.Lib.Linked
import Xv6.Umalloc.Basic

/-!
# The list of free blocks

`FreeList base h bs` states that the free blocks are `bs`, in the order of their addresses, linked
in a circle through `base`, with room between any two of them. `free` adds a block to the list
(`free_spec`): the loop finds the place where it belongs from wherever `freep` is
(`search_spec`), and the block is joined with what it touches. The search of `malloc` goes once
around (`mallocLoop_round`).
-/

namespace Xv6.Umalloc

/-- A block: the address of its header, and its size in units. -/
structure Blk where
  addr : ℕ
  size : ℕ
  deriving DecidableEq

/-- The address behind a block. -/
def Blk.top (b : Blk) : ℕ := b.addr + hdrSize * b.size

/-- The byte at `x` is in the block. -/
def Blk.Has (b : Blk) (x : ℕ) : Prop := b.addr ≤ x ∧ x < b.top

/-- Two blocks that do not overlap. -/
def Apart (b c : Blk) : Prop := b.top ≤ c.addr ∨ c.top ≤ b.addr

/-- The units of a list of blocks. -/
def units (bs : List Blk) : ℕ := (bs.map Blk.size).sum

/-- The blocks `bs'` are in the memory of the blocks `bs`, all of it. -/
structure Recut (bs bs' : List Blk) : Prop where
  units : units bs' = units bs
  apart : ∀ c : Blk, 0 < c.size → (∀ b ∈ bs, Apart c b) → ∀ b ∈ bs', Apart c b
  top : ∀ k, (∀ b ∈ bs, b.top ≤ k) → ∀ b ∈ bs', b.top ≤ k
  inside : ∀ b' ∈ bs', ∀ x, b'.Has x → ∃ b ∈ bs, b.Has x

/-- The blocks `bs'` are `bs` with some that touch joined. -/
structure Joined (bs bs' : List Blk) : Prop extends Recut bs bs' where
  grows : ∀ b ∈ bs, ∃ b' ∈ bs', b.size ≤ b'.size
  length : bs'.length ≤ bs.length

/-- The free blocks, in the list through `base`. -/
structure FreeList (base : ℕ) (h : Heap) (bs : List Blk) : Prop where
  linked : Linked h.ptr base (bs.map Blk.addr) base
  base_size : h.size base = 0
  size : ∀ b ∈ bs, h.size b.addr = b.size
  pos : ∀ b ∈ bs, 0 < b.size
  above : ∀ b ∈ bs, base + hdrSize ≤ b.addr
  /-- The addresses increase, and no two blocks touch. -/
  sorted : bs.Pairwise fun b c => b.top < c.addr
  freep : h.freep ∈ base :: bs.map Blk.addr

/-! ### The search of `free` -/

section Search

variable {base bp p n : ℕ} {h : Heap} {xs : List ℕ}

/-- From a node below `bp`, the loop goes up to the last one below it. -/
theorem search_up (hl : Linked h.ptr p xs base) (hs : (p :: xs).Pairwise (· < ·)) (hb : base ≤ p)
    (hp : p < bp) (hne : bp ∉ xs) (hn : xs.length < n) :
    ∃ ys zs, xs = ys ++ zs ∧ (∀ y ∈ ys, y < bp) ∧ (∀ z ∈ zs, bp < z) ∧
      h.search bp n p = some (ys.getLastD p) := by
  induction xs generalizing p n with
  | nil =>
    obtain ⟨n, rfl⟩ := Nat.exists_eq_succ_of_ne_zero (Nat.ne_zero_of_lt hn)
    have hnext : h.ptr p = base := hl
    refine ⟨[], [], rfl, by simp, by simp, ?_⟩
    rw [Nat.succ_eq_add_one, Heap.search, hnext, if_neg (by omega), if_pos ⟨hb, .inl hp⟩]
    rfl
  | cons x xs ih =>
    obtain ⟨n, rfl⟩ := Nat.exists_eq_succ_of_ne_zero (Nat.ne_zero_of_lt hn)
    rw [List.pairwise_cons] at hs
    rw [List.mem_cons, not_or] at hne
    have hpx : p < x := hs.1 x (by simp)
    rw [Nat.succ_eq_add_one, Heap.search, hl.1]
    by_cases hx : bp < x
    · refine ⟨[], x :: xs, rfl, by simp, ?_, by rw [if_pos ⟨hp, hx⟩]; rfl⟩
      rintro z hz
      rcases List.mem_cons.mp hz with rfl | hz
      · exact hx
      · exact hx.trans ((List.pairwise_cons.mp hs.2).1 z hz)
    · obtain ⟨ys, zs, rfl, hys, hzs, heq⟩ := ih (n := n) hl.2 hs.2 (by omega) (by omega) hne.2
        (by simp at hn; omega)
      refine ⟨x :: ys, zs, rfl, ?_, hzs, ?_⟩
      · rintro y hy
        rcases List.mem_cons.mp hy with rfl | hy
        · omega
        · exact hys y hy
      · rw [if_neg (by omega), if_neg (by omega), heq, List.getLastD_cons]

/-- From a node above `bp`, the loop goes around to `base`. -/
theorem search_over (hl : Linked h.ptr p xs base) (hs : (p :: xs).Pairwise (· < ·))
    (hb : base < bp) (hp : bp < p) :
    h.search bp (n + xs.length + 1) p = h.search bp n base := by
  induction xs generalizing p with
  | nil =>
    have hnext : h.ptr p = base := hl
    rw [List.length_nil, Heap.search, hnext, if_neg (by omega), if_neg (by omega)]
  | cons x xs ih =>
    rw [List.pairwise_cons] at hs
    have hpx : p < x := hs.1 x (by simp)
    rw [Heap.search, hl.1, if_neg (by omega), if_neg (by omega), List.length_cons, ← Nat.add_assoc]
    exact ih hl.2 hs.2 (by omega)

/-- From any node of the circle, the loop finds the last one below `bp`. -/
theorem search_circle (hl : Linked h.ptr base xs base) (hs : (base :: xs).Pairwise (· < ·))
    (hb : base < bp) (hne : bp ∉ xs) (hp : p ∈ base :: xs) (hn : 2 * xs.length + 2 ≤ n) :
    ∃ ys zs, xs = ys ++ zs ∧ (∀ y ∈ ys, y < bp) ∧ (∀ z ∈ zs, bp < z) ∧
      h.search bp n p = some (ys.getLastD base) := by
  rcases List.mem_cons.mp hp with rfl | hp
  · exact search_up hl hs le_rfl hb hne (by omega)
  obtain ⟨ds, cs, rfl⟩ := List.append_of_mem hp
  have hl' := (linked_append.mp hl).2
  have hs' : (p :: cs).Pairwise (· < ·) := (List.pairwise_append.mp (List.pairwise_cons.mp hs).2).2.1
  have hbp : base < p := (List.pairwise_cons.mp hs).1 p (by simp)
  rw [List.length_append, List.length_cons] at hn
  by_cases hlt : p < bp
  · obtain ⟨ys, zs, rfl, hys, hzs, heq⟩ := search_up (n := n) hl' hs' hbp.le hlt
      (fun hmem => hne (by simp [hmem])) (by omega)
    refine ⟨ds ++ p :: ys, zs, by simp, ?_, hzs, ?_⟩
    · intro y hy
      rcases List.mem_append.mp hy with hy | hy
      · have hyp := (List.pairwise_append.mp (List.pairwise_cons.mp hs).2).2.2 y hy p (by simp)
        exact hyp.trans hlt
      · rcases List.mem_cons.mp hy with rfl | hy
        · exact hlt
        · exact hys y hy
    · rw [heq, getLastD_append_cons]
  · have hgt : bp < p := lt_of_le_of_ne (not_lt.mp hlt) fun heq => hne (by simp [heq])
    obtain ⟨k, rfl⟩ : ∃ k, n = k + cs.length + 1 := ⟨n - cs.length - 1, by omega⟩
    rw [search_over hl' hs' hb hgt]
    refine search_up hl hs le_rfl hb hne ?_
    rw [List.length_append, List.length_cons]
    omega

end Search

variable {base fuel : ℕ} {h h' : Heap} {b c : Blk} {bs : List Blk}

theorem Blk.addr_lt_top (hb : 0 < b.size) : b.addr < b.top := by
  rw [Blk.top, hdrSize]
  omega

theorem FreeList.nodes_sorted (hf : FreeList base h bs) :
    (base :: bs.map Blk.addr).Pairwise (· < ·) := by
  rw [List.pairwise_cons]
  constructor
  · intro x hx
    obtain ⟨b, hb, rfl⟩ := List.mem_map.mp hx
    have := hf.above b hb
    rw [hdrSize] at this
    omega
  · rw [List.pairwise_map]
    refine hf.sorted.imp_of_mem fun hb _ hlt => ?_
    exact (Blk.addr_lt_top (hf.pos _ hb)).trans hlt

theorem FreeList.nodes_nodup (hf : FreeList base h bs) : (base :: bs.map Blk.addr).Nodup :=
  hf.nodes_sorted.imp Nat.ne_of_lt

theorem last_mem (base : ℕ) (pre bs : List Blk) :
    (pre.map Blk.addr).getLastD base ∈ base :: (pre ++ bs).map Blk.addr := by
  rw [List.map_append]
  exact List.mem_append_left (bs.map Blk.addr) List.getLastD_mem_cons

/-- A block that does not overlap the free blocks has another address. -/
theorem FreeList.addr_not_mem (hf : FreeList base h bs) (hb : 0 < b.size)
    (hap : ∀ c ∈ bs, Apart b c) : b.addr ∉ bs.map Blk.addr := by
  intro hmem
  obtain ⟨c, hc, heq⟩ := List.mem_map.mp hmem
  have hb' := Blk.addr_lt_top hb
  have hc' := Blk.addr_lt_top (hf.pos c hc)
  rcases hap c hc with h | h <;> omega

/-- The loop of `free` finds the block behind which `b` belongs. -/
theorem FreeList.search_spec (hf : FreeList base h bs) (hb : 0 < b.size) (hbase : base < b.addr)
    (hap : ∀ c ∈ bs, Apart b c) (hn : 2 * bs.length + 2 ≤ fuel) :
    ∃ pre post, bs = pre ++ post ∧ (∀ c ∈ pre, c.top ≤ b.addr) ∧ (∀ c ∈ post, b.top ≤ c.addr) ∧
      h.search b.addr fuel h.freep = some ((pre.map Blk.addr).getLastD base) := by
  obtain ⟨ys, zs, heq, hys, hzs, hsearch⟩ := search_circle (n := fuel) hf.linked hf.nodes_sorted
    hbase (hf.addr_not_mem hb hap) hf.freep (by rwa [List.length_map])
  obtain ⟨pre, post, rfl, rfl, rfl⟩ := List.map_eq_append_iff.mp heq
  have htop := Blk.addr_lt_top hb
  refine ⟨pre, post, rfl, ?_, ?_, hsearch⟩
  · intro c hc
    have hlt := hys c.addr (List.mem_map_of_mem hc)
    rcases hap c (by simp [hc]) with h | h
    · omega
    · exact h
  · intro c hc
    have hlt := hzs c.addr (List.mem_map_of_mem hc)
    have hctop := Blk.addr_lt_top (hf.pos c (by simp [hc]))
    rcases hap c (by simp [hc]) with h | h
    · exact h
    · omega

/-! ### Joining blocks -/

theorem Joined.of_perm {bs' : List Blk} (hp : bs.Perm bs') : Joined bs bs' where
  units := (hp.map Blk.size).sum_eq.symm
  apart _ _ h b hb := h b (hp.mem_iff.mpr hb)
  top _ h b hb := h b (hp.mem_iff.mpr hb)
  inside b hb _ hx := ⟨b, hp.mem_iff.mpr hb, hx⟩
  grows b hb := ⟨b, hp.mem_iff.mp hb, le_rfl⟩
  length := hp.length_eq.ge

theorem Joined.trans {bs' bs'' : List Blk} (h : Joined bs bs') (h' : Joined bs' bs'') :
    Joined bs bs'' where
  units := h'.units.trans h.units
  apart c hc hap := h'.apart c hc (h.apart c hc hap)
  top k hk := h'.top k (h.top k hk)
  inside b hb x hx := by
    obtain ⟨b', hb', hx'⟩ := h'.inside b hb x hx
    exact h.inside b' hb' x hx'
  grows b hb := by
    obtain ⟨b', hb', hle⟩ := h.grows b hb
    obtain ⟨b'', hb'', hle'⟩ := h'.grows b' hb'
    exact ⟨b'', hb'', hle.trans hle'⟩
  length := h'.length.trans h.length

theorem Joined.append_left {bs' : List Blk} (h : Joined bs bs') (cs : List Blk) :
    Joined (cs ++ bs) (cs ++ bs') where
  units := by
    have := h.units
    simp only [Umalloc.units, List.map_append, List.sum_append] at this ⊢
    omega
  apart c hc hap b hb := by
    rcases List.mem_append.mp hb with hb | hb
    · exact hap b (by simp [hb])
    · exact h.apart c hc (fun b hb => hap b (by simp [hb])) b hb
  top k hk b hb := by
    rcases List.mem_append.mp hb with hb | hb
    · exact hk b (by simp [hb])
    · exact h.top k (fun b hb => hk b (by simp [hb])) b hb
  inside b hb x hx := by
    rcases List.mem_append.mp hb with hb | hb
    · exact ⟨b, by simp [hb], hx⟩
    · obtain ⟨b', hb', hx'⟩ := h.inside b hb x hx
      exact ⟨b', by simp [hb'], hx'⟩
  grows b hb := by
    rcases List.mem_append.mp hb with hb | hb
    · exact ⟨b, by simp [hb], le_rfl⟩
    · obtain ⟨b', hb', hle⟩ := h.grows b hb
      exact ⟨b', by simp [hb'], hle⟩
  length := by
    have := h.length
    simp only [List.length_append]
    omega

/-- Two blocks that touch, joined. -/
def Blk.join (b c : Blk) : Blk := ⟨b.addr, b.size + c.size⟩

theorem Blk.top_join (h : b.top = c.addr) : (b.join c).top = c.top := by
  simp only [Blk.top, Blk.join, hdrSize] at h ⊢
  omega

theorem joined_join (h : b.top = c.addr) (hc : 0 < c.size) :
    Joined (b :: c :: bs) (b.join c :: bs) where
  units := by
    simp only [Umalloc.units, Blk.join, List.map_cons, List.sum_cons]
    omega
  apart d hd hap e he := by
    rcases List.mem_cons.mp he with rfl | he
    · have htop := Blk.addr_lt_top hd
      have hctop := Blk.addr_lt_top hc
      rw [Apart, Blk.top_join h]
      have h₁ := hap b (by simp)
      have h₂ := hap c (by simp)
      simp only [Apart, Blk.join] at h₁ h₂ ⊢
      omega
    · exact hap e (by simp [he])
  top k hk e he := by
    rcases List.mem_cons.mp he with rfl | he
    · rw [Blk.top_join h]
      exact hk c (by simp)
    · exact hk e (by simp [he])
  inside e he x hx := by
    rcases List.mem_cons.mp he with rfl | he
    · rw [Blk.Has, Blk.top_join h] at hx
      by_cases hlt : x < b.top
      · exact ⟨b, by simp, hx.1, hlt⟩
      · exact ⟨c, by simp, h ▸ not_lt.mp hlt, hx.2⟩
    · exact ⟨e, by simp [he], hx⟩
  grows d hd := by
    simp only [List.mem_cons] at hd
    rcases hd with rfl | rfl | hd
    · exact ⟨_, List.mem_cons_self, by simp [Blk.join]⟩
    · exact ⟨_, List.mem_cons_self, by simp [Blk.join]⟩
    · exact ⟨d, by simp [hd], le_rfl⟩
  length := by simp

/-- The heap `h'` is `h` but for the header at `x`. -/
def SameBut (x : ℕ) (h h' : Heap) : Prop := ∀ y, y ≠ x → h'.ptr y = h.ptr y ∧ h'.size y = h.size y

theorem sameBut_setPtr (x q : ℕ) : SameBut x h (h.setPtr x q) :=
  fun _ hy => ⟨Function.update_of_ne hy _ _, rfl⟩

theorem sameBut_setSize (x n : ℕ) : SameBut x h (h.setSize x n) :=
  fun _ hy => ⟨rfl, Function.update_of_ne hy _ _⟩

theorem SameBut.trans {x : ℕ} {h'' : Heap} (h₁ : SameBut x h h') (h₂ : SameBut x h' h'') :
    SameBut x h h'' :=
  fun y hy => ⟨(h₂ y hy).1.trans (h₁ y hy).1, (h₂ y hy).2.trans (h₁ y hy).2⟩

variable {p : ℕ} {pre post : List Blk}

/-- The block `b` with what follows it in the list, after `free` has joined it with the block above
    it. -/
theorem joinUp_spec (hl : Linked h.ptr p (post.map Blk.addr) base)
    (hsize : h.size b.addr = b.size) (hsizes : ∀ c ∈ post, h.size c.addr = c.size)
    (hpos : ∀ c ∈ post, 0 < c.size) (hsorted : post.Pairwise fun b c => b.top < c.addr)
    (hb : 0 < b.size) (hbase : base < b.addr) (habove : ∀ c ∈ post, b.top ≤ c.addr)
    (hsum : units (b :: post) < 2 ^ 32) :
    ∃ b' post', b'.addr = b.addr ∧ (h.joinUp b.addr p).size b.addr = b'.size ∧
      Linked (h.joinUp b.addr p).ptr b.addr (post'.map Blk.addr) base ∧
      SameBut b.addr h (h.joinUp b.addr p) ∧ (b' :: post').Pairwise (fun b c => b.top < c.addr) ∧
      Joined (b :: post) (b' :: post') ∧ post' ⊆ post ∧ 0 < b'.size := by
  have htop : h.top b.addr = b.top := by rw [Heap.top, hsize, Blk.top]
  have hbtop := Blk.addr_lt_top hb
  cases post with
  | nil =>
    have hnext : h.ptr p = base := hl
    rw [Heap.joinUp, htop, hnext, if_neg (by omega)]
    refine ⟨b, [], rfl, hsize, Function.update_self _ _ _, sameBut_setPtr _ _, by simp, ?_, by simp,
      hb⟩
    exact .of_perm (.refl _)
  | cons c post =>
    have hnext : h.ptr p = c.addr := hl.1
    have hctop := Blk.addr_lt_top (hpos c (by simp))
    have hne : ∀ x ∈ c.addr :: post.map Blk.addr, x ≠ b.addr := by
      rintro x hx rfl
      obtain ⟨d, hd, heq⟩ := List.mem_map.mp (show b.addr ∈ (c :: post).map Blk.addr from hx)
      have := habove d hd
      omega
    rw [List.pairwise_cons] at hsorted
    by_cases htouch : b.top = c.addr
    · -- `b` takes in `c`.
      have hmod : (b.size + c.size) % 2 ^ 32 = b.size + c.size := by
        refine Nat.mod_eq_of_lt (lt_of_le_of_lt ?_ hsum)
        simp only [units, List.map_cons, List.sum_cons]
        omega
      rw [Heap.joinUp, htop, hnext, if_pos htouch, hsize, hsizes c (by simp)]
      refine ⟨b.join c, post, rfl, ?_, ?_, ?_, ?_, joined_join htouch (hpos c (by simp)), ?_, ?_⟩
      · exact (Function.update_self _ _ _).trans hmod
      · refine hl.2.enter (Function.update_self _ _ _) fun x hx => ?_
        exact Function.update_of_ne (hne x (by simp [hx])) _ _
      · exact (sameBut_setSize _ _).trans (sameBut_setPtr _ _)
      · rw [List.pairwise_cons, Blk.top_join htouch]
        exact hsorted
      · exact List.subset_cons_self c post
      · exact Nat.add_pos_left hb _
    · rw [Heap.joinUp, htop, hnext, if_neg htouch]
      refine ⟨b, c :: post, rfl, hsize, ?_, sameBut_setPtr _ _, ?_, .of_perm (.refl _), by simp, hb⟩
      · refine ⟨Function.update_self _ _ _, hl.2.congr fun x hx => ?_⟩
        exact Function.update_of_ne (hne x hx) _ _
      · rw [List.pairwise_cons, List.pairwise_cons]
        have hlt : b.top < c.addr := lt_of_le_of_ne (habove c (by simp)) htouch
        refine ⟨fun d hd => ?_, hsorted⟩
        rcases List.mem_cons.mp hd with rfl | hd
        · exact hlt
        · have := hsorted.1 d hd
          omega

/-- The blocks on both sides of a block that `free` is about to link. The links of the blocks below
    it lead somewhere else than to `b` yet. -/
structure Split (base : ℕ) (h : Heap) (pre : List Blk) (b : Blk) (post : List Blk) : Prop where
  linked_pre : ∃ x, Linked h.ptr base (pre.map Blk.addr) x
  linked_post : Linked h.ptr b.addr (post.map Blk.addr) base
  base_size : h.size base = 0
  size : ∀ c ∈ pre ++ b :: post, h.size c.addr = c.size
  pos : ∀ c ∈ pre ++ b :: post, 0 < c.size
  above : ∀ c ∈ pre ++ b :: post, base + hdrSize ≤ c.addr
  sorted_pre : pre.Pairwise fun b c => b.top < c.addr
  sorted_post : (b :: post).Pairwise fun b c => b.top < c.addr
  below : ∀ c ∈ pre, c.top ≤ b.addr

theorem Split.nodes_sorted (hs : Split base h pre b post) :
    (base :: (pre ++ b :: post).map Blk.addr).Pairwise (· < ·) := by
  rw [List.pairwise_cons]
  constructor
  · intro x hx
    obtain ⟨c, hc, rfl⟩ := List.mem_map.mp hx
    have := hs.above c hc
    rw [hdrSize] at this
    omega
  · rw [List.pairwise_map, List.pairwise_append]
    refine ⟨hs.sorted_pre.imp_of_mem fun hc _ hlt => ?_, hs.sorted_post.imp_of_mem fun hc _ hlt => ?_,
      fun c hc d hd => ?_⟩
    · exact (Blk.addr_lt_top (hs.pos _ (by simp [hc]))).trans hlt
    · exact (Blk.addr_lt_top (hs.pos _ (List.mem_append_right _ hc))).trans hlt
    · have hctop := Blk.addr_lt_top (hs.pos c (by simp [hc]))
      have hle := hs.below c hc
      have hle' : b.addr ≤ d.addr := by
        rcases List.mem_cons.mp hd with rfl | hd
        · exact le_rfl
        · have := (List.pairwise_cons.mp hs.sorted_post).1 d hd
          have := Blk.addr_lt_top (hs.pos b (by simp))
          omega
      omega

theorem Split.not_mem {q : Blk} (hs : Split base h (pre ++ [q]) b post) :
    q.addr ∉ base :: pre.map Blk.addr ∧ q.addr ∉ b.addr :: post.map Blk.addr := by
  have hnodup : (base :: (pre ++ [q] ++ b :: post).map Blk.addr).Nodup :=
    hs.nodes_sorted.imp Nat.ne_of_lt
  have heq : base :: (pre ++ [q] ++ b :: post).map Blk.addr =
      (base :: pre.map Blk.addr) ++ q.addr :: (b.addr :: post.map Blk.addr) := by simp
  rw [heq, List.nodup_middle, List.nodup_cons, List.mem_append, not_or] at hnodup
  exact hnodup.1

/-- Without a block below it, `b` is linked behind `base`. -/
theorem Split.link_base (hs : Split base h [] b post) :
    FreeList base { h.setPtr base b.addr with freep := base } (b :: post) := by
  have hnodup : (base :: (b :: post).map Blk.addr).Nodup := hs.nodes_sorted.imp Nat.ne_of_lt
  refine ⟨⟨Function.update_self _ _ _, hs.linked_post.update_of_not_mem ?_⟩, hs.base_size, hs.size,
    hs.pos, hs.above, hs.sorted_post, by simp⟩
  exact (List.nodup_cons.mp hnodup).1

/-- A block below `b` that does not touch it is linked with it. -/
theorem Split.link {q : Blk} (hs : Split base h (pre ++ [q]) b post) (hq : q.top ≠ b.addr) :
    FreeList base { h.setPtr q.addr b.addr with freep := q.addr } (pre ++ q :: b :: post) := by
  obtain ⟨hne, hne'⟩ := hs.not_mem
  obtain ⟨x, hpre⟩ := hs.linked_pre
  rw [List.map_append, List.map_singleton, linked_append] at hpre
  have hlt : q.top < b.addr := lt_of_le_of_ne (hs.below q (by simp)) hq
  have happ : pre ++ [q] ++ b :: post = pre ++ q :: b :: post := by simp
  refine ⟨?_, hs.base_size, happ ▸ hs.size, happ ▸ hs.pos, happ ▸ hs.above, ?_, by simp⟩
  · rw [List.map_append, List.map_cons, linked_append]
    exact ⟨hpre.1.update_of_not_mem hne, Function.update_self _ _ _,
      hs.linked_post.update_of_not_mem hne'⟩
  · rw [← happ, List.pairwise_append]
    refine ⟨hs.sorted_pre, hs.sorted_post, fun c hc d hd => ?_⟩
    have hcb : c.top < b.addr := by
      rcases List.mem_append.mp hc with hc' | hc'
      · have hcq := (List.pairwise_append.mp hs.sorted_pre).2.2 c hc' q (by simp)
        have := Blk.addr_lt_top (hs.pos q (by simp))
        omega
      · rw [List.mem_singleton.mp hc']
        exact hlt
    rcases List.mem_cons.mp hd with rfl | hd
    · exact hcb
    · have := (List.pairwise_cons.mp hs.sorted_post).1 d hd
      have := Blk.addr_lt_top (hs.pos b (by simp))
      omega

/-- A block below `b` that touches it takes it in. -/
theorem Split.takeIn {q : Blk} (hs : Split base h (pre ++ [q]) b post) (hq : q.top = b.addr)
    (hsum : q.size + b.size < 2 ^ 32) :
    FreeList base { (h.setSize q.addr (q.size + b.size)).setPtr q.addr (h.ptr b.addr) with
      freep := q.addr } (pre ++ q.join b :: post) := by
  obtain ⟨hne, hne'⟩ := hs.not_mem
  obtain ⟨x, hpre⟩ := hs.linked_pre
  rw [List.map_append, List.map_singleton, linked_append] at hpre
  have hpw := List.pairwise_append.mp hs.sorted_pre
  have hpw' := List.pairwise_cons.mp hs.sorted_post
  have hqtop := Blk.addr_lt_top (hs.pos q (by simp))
  have hbtop := Blk.addr_lt_top (hs.pos b (by simp))
  have hsize : ∀ c ∈ pre ++ [q] ++ b :: post, c.addr ≠ q.addr →
      ((h.setSize q.addr (q.size + b.size)).setPtr q.addr (h.ptr b.addr)).size c.addr = c.size :=
    fun c hc hcq => (Function.update_of_ne hcq _ _).trans (hs.size c hc)
  have hcases : ∀ c ∈ pre ++ q.join b :: post,
      c = q.join b ∨ (c ∈ pre ++ [q] ++ b :: post ∧ c.addr ≠ q.addr) := by
    intro c hc
    rcases List.mem_append.mp hc with hc | hc
    · refine .inr ⟨by simp [hc], fun heq => hne (List.mem_cons_of_mem _ ?_)⟩
      exact heq ▸ List.mem_map_of_mem hc
    · rcases List.mem_cons.mp hc with rfl | hc
      · exact .inl rfl
      · refine .inr ⟨by simp [hc], fun heq => hne' (List.mem_cons_of_mem _ ?_)⟩
        exact heq ▸ List.mem_map_of_mem hc
  refine ⟨?_, ?_, ?_, ?_, ?_, ?_, by simp [Blk.join]⟩
  · rw [List.map_append, List.map_cons, linked_append]
    refine ⟨hpre.1.update_of_not_mem hne, ?_⟩
    refine hs.linked_post.enter (Function.update_self _ _ _) fun x hx => ?_
    refine Function.update_of_ne ?_ _ _
    rintro rfl
    exact hne' (List.mem_cons_of_mem _ hx)
  · refine (Function.update_of_ne (fun heq => hne ?_) _ _).trans hs.base_size
    rw [← heq]
    exact List.mem_cons_self
  · intro c hc
    rcases hcases c hc with rfl | ⟨hc, hcq⟩
    · exact (Function.update_self _ _ _).trans (Nat.mod_eq_of_lt hsum)
    · exact hsize c hc hcq
  · intro c hc
    rcases hcases c hc with rfl | ⟨hc, -⟩
    · exact Nat.add_pos_left (hs.pos q (by simp)) _
    · exact hs.pos c hc
  · intro c hc
    rcases hcases c hc with rfl | ⟨hc, -⟩
    · exact hs.above q (by simp)
    · exact hs.above c hc
  · rw [List.pairwise_append, List.pairwise_cons, Blk.top_join hq]
    refine ⟨hpw.1, hpw', fun c hc d hd => ?_⟩
    have hcq := hpw.2.2 c hc q (by simp)
    rcases List.mem_cons.mp hd with rfl | hd
    · exact hcq
    · have := hpw'.1 d hd
      omega

/-- The block below touches `b`, or `b` is linked behind it. -/
theorem Split.joinDown (hs : Split base h pre b post) (hsum : units (pre ++ b :: post) < 2 ^ 32) :
    ∃ bs', FreeList base { h.joinDown b.addr ((pre.map Blk.addr).getLastD base) with
        freep := (pre.map Blk.addr).getLastD base } bs' ∧
      SameBut ((pre.map Blk.addr).getLastD base) h
        (h.joinDown b.addr ((pre.map Blk.addr).getLastD base)) ∧
      Joined (pre ++ b :: post) bs' := by
  rcases List.eq_nil_or_concat' pre with rfl | ⟨pre, q, rfl⟩
  · have hbase : base < b.addr := (List.pairwise_cons.mp hs.nodes_sorted).1 _ (by simp)
    have htop : h.top base = base := by rw [Heap.top, hs.base_size, Nat.mul_zero, Nat.add_zero]
    rw [List.map_nil, List.getLastD_nil, Heap.joinDown, htop, if_neg (by omega)]
    exact ⟨_, hs.link_base, sameBut_setPtr _ _, .of_perm (.refl _)⟩
  · have hlast : ((pre ++ [q]).map Blk.addr).getLastD base = q.addr := by
      rw [List.map_append, List.map_singleton, List.getLastD_concat]
    have htop : h.top q.addr = q.top := by rw [Heap.top, hs.size q (by simp), Blk.top]
    have happ : pre ++ [q] ++ b :: post = pre ++ q :: b :: post := by simp
    rw [hlast, Heap.joinDown, htop, hs.size q (by simp), hs.size b (by simp), happ]
    by_cases hq : q.top = b.addr
    · have hsum' : q.size + b.size < 2 ^ 32 := by
        simp [units] at hsum
        omega
      rw [if_pos hq]
      exact ⟨_, hs.takeIn hq hsum', (sameBut_setSize _ _).trans (sameBut_setPtr _ _),
        (joined_join hq (hs.pos b (by simp))).append_left pre⟩
    · rw [if_neg hq]
      exact ⟨_, hs.link hq, sameBut_setPtr _ _, .of_perm (.refl _)⟩

/-- `free` adds a block to the free list. -/
theorem FreeList.free_spec (hf : FreeList base h bs) (hsize : h.size b.addr = b.size)
    (hb : 0 < b.size) (hbase : base + hdrSize ≤ b.addr) (hap : ∀ c ∈ bs, Apart b c)
    (hsum : units (b :: bs) < 2 ^ 32) (hn : 2 * bs.length + 2 ≤ fuel) :
    ∃ h' bs', h.free fuel (b.addr + hdrSize) = some h' ∧ FreeList base h' bs' ∧
      Joined (b :: bs) bs' ∧ ∀ x ∉ (b :: bs).map Blk.addr, h'.size x = h.size x := by
  have hbase' : base < b.addr := by
    rw [hdrSize] at hbase
    omega
  -- The search ends where the block belongs, between `pre` and `post`.
  obtain ⟨pre, post, rfl, hpre, hpost, hsearch⟩ := hf.search_spec hb hbase' hap hn
  have hap' : b.addr ∉ (pre ++ post).map Blk.addr := hf.addr_not_mem hb hap
  have hne : ∀ c ∈ pre ++ post, c.addr ≠ b.addr :=
    fun c hc heq => hap' (heq ▸ List.mem_map_of_mem hc)
  obtain ⟨hsorted, hsorted', -⟩ := List.pairwise_append.mp hf.sorted
  have hlinked := hf.linked
  rw [List.map_append] at hlinked
  obtain ⟨⟨x, hlpre⟩, hlpost⟩ := hlinked.split
  -- It is joined with the block above, if this begins where it ends.
  obtain ⟨b', post', haddr, hsize', hlpost', hsame, hsorted'', hjoin, hsub, hb'⟩ :=
    joinUp_spec hlpost hsize (fun c hc => hf.size c (by simp [hc]))
      (fun c hc => hf.pos c (by simp [hc])) hsorted' hb hbase' hpost (by
        refine lt_of_le_of_lt ?_ hsum
        simp only [units, List.map_cons, List.sum_cons, List.map_append, List.sum_append]
        omega)
  have hmem : ∀ c ∈ pre ++ b' :: post', c = b' ∨ c ∈ pre ++ post := by
    intro c hc
    rcases List.mem_append.mp hc with hc | hc
    · exact .inr (by simp [hc])
    · rcases List.mem_cons.mp hc with rfl | hc
      · exact .inl rfl
      · exact .inr (by simp [hsub hc])
  have hs : Split base (h.joinUp b.addr ((pre.map Blk.addr).getLastD base)) pre b' post' := by
    refine ⟨⟨x, hlpre.congr fun y hy => (hsame y ?_).1⟩, haddr ▸ hlpost', ?_, ?_, ?_, ?_, hsorted,
      hsorted'', fun c hc => haddr ▸ hpre c hc⟩
    · rcases List.mem_cons.mp hy with rfl | hy
      · omega
      · obtain ⟨c, hc, rfl⟩ := List.mem_map.mp hy
        exact hne c (by simp [hc])
    · rw [(hsame base (by omega)).2, hf.base_size]
    · intro c hc
      rcases hmem c hc with rfl | hc
      · rw [haddr, hsize']
      · rw [(hsame _ (hne c hc)).2, hf.size c hc]
    · intro c hc
      rcases hmem c hc with rfl | hc
      · exact hb'
      · exact hf.pos c hc
    · intro c hc
      rcases hmem c hc with rfl | hc
      · rwa [haddr]
      · exact hf.above c hc
  have hjoined : Joined (b :: (pre ++ post)) (pre ++ b' :: post') :=
    (Joined.of_perm List.perm_middle.symm).trans (hjoin.append_left pre)
  -- Then the block below is joined, if it ends where this begins.
  obtain ⟨bs', hf', hsame', hjoin'⟩ := hs.joinDown (hjoined.units ▸ hsum)
  rw [haddr] at hf' hsame'
  refine ⟨_, bs', ?_, hf', hjoined.trans hjoin', ?_⟩
  · simp [Heap.free, hsearch]
  · intro y hy
    by_cases hyb : y = base
    · rw [hyb, hf'.base_size, hf.base_size]
    · rw [List.map_cons, List.mem_cons, not_or] at hy
      rw [← (hsame y hy.1).2]
      refine (hsame' y ?_).2
      rintro rfl
      exact (List.mem_cons.mp (last_mem base pre post)).elim hyb hy.2

end Xv6.Umalloc
