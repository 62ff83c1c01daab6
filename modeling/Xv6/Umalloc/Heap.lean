import Mathlib
import Xv6.Umalloc.Freelist

/-!
# The allocator is sound

`ArenaOk base a bs ls` states that the blocks of memory are the free blocks `bs`, in the list through
`base`, and the live blocks `ls`, that no two of them overlap, that they lie in memory obtained from
`sbrk`, and that together they are all of it. `malloc` moves a block or the tail of one from `bs` to `ls`, after a
search that goes around the list at most twice, with new memory added in between (`ArenaOk.malloc`);
`free` moves it back (`ArenaOk.free`).

A size is a `uint`, and the sizes of blocks that are joined are added: all this holds as long as
less than 2^32 units are obtained from `sbrk`.
-/

namespace Xv6.Umalloc

/-- The free and the live blocks of a memory. -/
structure ArenaOk (base : ℕ) (a : Arena) (bs ls : List Blk) : Prop where
  list : FreeList base a.heap bs
  size : ∀ b ∈ ls, a.heap.size b.addr = b.size
  pos : ∀ b ∈ ls, 0 < b.size
  above : ∀ b ∈ ls, base + hdrSize ≤ b.addr
  apart : (bs ++ ls).Pairwise Apart
  top : ∀ b ∈ bs ++ ls, b.top ≤ a.brk
  base_le : base + hdrSize ≤ a.brk
  inside : ∀ b ∈ bs ++ ls, ∀ x, b.Has x → a.Obtained x
  units : units (bs ++ ls) = a.units

variable {base k : ℕ} {a : Arena} {b c : Blk} {bs ls pre post : List Blk}

theorem Apart.symm (h : Apart b c) : Apart c b := Or.symm h

instance symm_apart : Std.Symm Apart := ⟨fun _ _ => Apart.symm⟩

/-- The rest of a memory in which some of the blocks were cut anew. -/
theorem Recut.pairwise {bs' : List Blk} (h : Recut bs bs') (hbs' : bs'.Pairwise Apart)
    (hls : ls.Pairwise Apart) (hpos : ∀ b ∈ ls, 0 < b.size)
    (hap : ∀ b ∈ bs, ∀ c ∈ ls, Apart b c) : (bs' ++ ls).Pairwise Apart := by
  rw [List.pairwise_append]
  refine ⟨hbs', hls, fun b hb c hc => ?_⟩
  exact (h.apart c (hpos c hc) (fun b hb => (hap b hb c hc).symm) b hb).symm

theorem FreeList.pairwise_apart {h : Heap} (hf : FreeList base h bs) : bs.Pairwise Apart :=
  hf.sorted.imp fun hlt => Or.inl hlt.le

theorem FreeList.length_le {h : Heap} (hf : FreeList base h bs) : bs.length ≤ units bs := by
  have hpos := hf.pos
  clear hf
  induction bs with
  | nil => simp
  | cons b bs ih =>
    have h₁ := hpos b (by simp)
    have h₂ := ih fun c hc => hpos c (by simp [hc])
    simp only [Umalloc.units, List.length_cons, List.map_cons, List.sum_cons] at h₂ ⊢
    omega

theorem units_append (bs ls : List Blk) : units (bs ++ ls) = units bs + units ls := by
  simp [units]

/-- Blocks that do not overlap have different addresses. -/
theorem Apart.addr_ne (h : Apart b c) (hb : 0 < b.size) (hc : 0 < c.size) : b.addr ≠ c.addr := by
  have hb' := Blk.addr_lt_top hb
  have hc' := Blk.addr_lt_top hc
  rcases h with h | h <;> omega

/-- `free` moves a block to the free list. -/
theorem ArenaOk.free (h : ArenaOk base a bs (b :: ls)) (hu : a.units < 2 ^ 32) :
    ∃ h' bs', a.heap.free (2 * a.units + 4) (b.addr + hdrSize) = some h' ∧
      ArenaOk base { a with heap := h' } bs' ls ∧ Joined (b :: bs) bs' := by
  have hap := List.pairwise_append.mp h.apart
  have hunits := h.units
  rw [units_append] at hunits
  have hlen := h.list.length_le
  have hsum : Umalloc.units (b :: bs) + Umalloc.units ls = a.units := by
    simp only [Umalloc.units, List.map_cons, List.sum_cons] at hunits ⊢
    omega
  obtain ⟨h', bs', hfree, hf', hjoin, hsize⟩ := h.list.free_spec (h.size b (by simp))
    (h.pos b (by simp)) (h.above b (by simp)) (fun c hc => (hap.2.2 c hc b (by simp)).symm)
    (by omega) (show 2 * bs.length + 2 ≤ 2 * a.units + 4 by omega)
  have hls := List.pairwise_cons.mp hap.2.1
  have hap' : ∀ d ∈ b :: bs, ∀ c ∈ ls, Apart d c := by
    intro d hd c hc
    rcases List.mem_cons.mp hd with rfl | hd
    · exact hls.1 c hc
    · exact hap.2.2 d hd c (by simp [hc])
  have hpos : ∀ d ∈ b :: bs, 0 < d.size := by
    intro d hd
    rcases List.mem_cons.mp hd with rfl | hd
    · exact h.pos d (by simp)
    · exact h.list.pos d hd
  refine ⟨h', bs', hfree, ⟨hf', ?_, ?_, ?_, ?_, ?_, h.base_le, ?_, ?_⟩, hjoin⟩
  · intro c hc
    rw [← h.size c (by simp [hc])]
    refine hsize c.addr fun hmem => ?_
    obtain ⟨d, hd, heq⟩ := List.mem_map.mp hmem
    exact (hap' d hd c hc).addr_ne (hpos d hd) (h.pos c (by simp [hc])) heq
  · exact fun c hc => h.pos c (by simp [hc])
  · exact fun c hc => h.above c (by simp [hc])
  · exact hjoin.toRecut.pairwise hf'.pairwise_apart hls.2 (fun c hc => h.pos c (by simp [hc])) hap'
  · intro c hc
    rcases List.mem_append.mp hc with hc | hc
    · refine hjoin.top a.brk (fun d hd => h.top d ?_) c hc
      rcases List.mem_cons.mp hd with rfl | hd
      · simp
      · simp [hd]
    · exact h.top c (by simp [hc])
  · intro c hc x hx
    rcases List.mem_append.mp hc with hc | hc
    · obtain ⟨d, hd, hx'⟩ := hjoin.inside c hc x hx
      refine h.inside d ?_ x hx'
      rcases List.mem_cons.mp hd with rfl | hd
      · simp
      · simp [hd]
    · exact h.inside c (by simp [hc]) x hx
  · rw [units_append, hjoin.units]
    exact hsum

/-! ### Taking a block -/

/-- What a successful search of `malloc` does: the block `q` is taken out of the free blocks. -/
structure Taken (base nunits : ℕ) (h h' : Heap) (bs bs' : List Blk) (q : Blk) : Prop where
  list : FreeList base h' bs'
  size : h'.size q.addr = nunits
  size_eq : q.size = nunits
  recut : Recut bs (q :: bs')
  apart : ∀ b ∈ bs', Apart q b
  above : base + hdrSize ≤ q.addr
  frame : ∀ x ∉ q.addr :: bs.map Blk.addr, h'.size x = h.size x

variable {nunits : ℕ}

/-- A block of just the right size is taken as a whole. -/
theorem FreeList.taken_whole (hf : FreeList base a.heap (pre ++ c :: post)) (hc : c.size = nunits) :
    Taken base nunits a.heap
      { a.heap.setPtr ((pre.map Blk.addr).getLastD base) (a.heap.ptr c.addr) with
        freep := (pre.map Blk.addr).getLastD base } (pre ++ c :: post) (pre ++ post) c := by
  have hlinked := hf.linked
  have hnodup := hf.nodes_nodup
  rw [List.map_append, List.map_cons] at hlinked hnodup
  have hsub : ∀ b ∈ pre ++ post, b ∈ pre ++ c :: post := by
    intro b hb
    rcases List.mem_append.mp hb with hb | hb <;> simp [hb]
  have hsublist : (pre ++ post).Sublist (pre ++ c :: post) :=
    (List.Sublist.refl pre).append (List.sublist_cons_self c post)
  have hperm : (pre ++ c :: post).Perm (c :: (pre ++ post)) := List.perm_middle
  refine ⟨⟨?_, hf.base_size, fun b hb => hf.size b (hsub b hb), fun b hb => hf.pos b (hsub b hb),
    fun b hb => hf.above b (hsub b hb), hf.sorted.sublist hsublist, ?_⟩,
    (hf.size c (by simp)).trans hc, hc, (Joined.of_perm hperm).toRecut, ?_, hf.above c (by simp),
    fun _ _ => rfl⟩
  · rw [List.map_append]
    exact hlinked.skip hnodup
  · exact last_mem base pre post
  · have hpw := hf.pairwise_apart
    rw [hperm.pairwise_iff fun h => Apart.symm h, List.pairwise_cons] at hpw
    exact hpw.1

/-- A block of the list is made smaller, at its end. -/
theorem FreeList.shrink {h h' : Heap} {c' : Blk} (hf : FreeList base h (pre ++ c :: post))
    (hptr : h'.ptr = h.ptr) (haddr : c'.addr = c.addr) (htop : c'.top ≤ c.top) (hpos : 0 < c'.size)
    (hsize : h'.size c.addr = c'.size) (hrest : ∀ b ∈ pre ++ post, h'.size b.addr = h.size b.addr)
    (hbase : h'.size base = h.size base)
    (hfreep : h'.freep ∈ base :: (pre ++ c :: post).map Blk.addr) :
    FreeList base h' (pre ++ c' :: post) := by
  have hmap : (pre ++ c' :: post).map Blk.addr = (pre ++ c :: post).map Blk.addr := by simp [haddr]
  have hmem : ∀ b ∈ pre ++ c' :: post, b = c' ∨ (b ∈ pre ++ post ∧ b ∈ pre ++ c :: post) := by
    intro b hb
    rcases List.mem_append.mp hb with hb | hb
    · simp [hb]
    · rcases List.mem_cons.mp hb with rfl | hb
      · exact .inl rfl
      · simp [hb]
  have hpw := List.pairwise_append.mp hf.sorted
  have hpw' := List.pairwise_cons.mp hpw.2.1
  refine ⟨?_, hbase.trans hf.base_size, ?_, ?_, ?_, ?_, by rwa [hmap]⟩
  · rw [hptr, hmap]
    exact hf.linked
  · intro b hb
    rcases hmem b hb with rfl | ⟨hb', hb''⟩
    · rwa [haddr]
    · rw [hrest b hb', hf.size b hb'']
  · intro b hb
    rcases hmem b hb with rfl | ⟨-, hb⟩
    · exact hpos
    · exact hf.pos b hb
  · intro b hb
    rcases hmem b hb with rfl | ⟨-, hb⟩
    · exact haddr ▸ hf.above c (by simp)
    · exact hf.above b hb
  · rw [List.pairwise_append, List.pairwise_cons]
    refine ⟨hpw.1, ⟨fun d hd => lt_of_le_of_lt htop (hpw'.1 d hd), hpw'.2⟩, fun b hb d hd => ?_⟩
    rcases List.mem_cons.mp hd with rfl | hd
    · rw [haddr]
      exact hpw.2.2 b hb c (by simp)
    · exact hpw.2.2 b hb d (by simp [hd])

/-- A block is cut in two. -/
theorem recut_cut {q c' : Blk} (haddr : c'.addr = c.addr) (hcq : c'.top = q.addr)
    (hq : q.top = c.top) : Recut (pre ++ c :: post) (q :: (pre ++ c' :: post)) := by
  have hsize : c'.size + q.size = c.size := by
    simp only [Blk.top, hdrSize] at hcq hq
    omega
  have hmem : ∀ b ∈ q :: (pre ++ c' :: post), b = q ∨ b = c' ∨ b ∈ pre ++ c :: post := by
    intro b hb
    simp only [List.mem_cons, List.mem_append] at hb ⊢
    tauto
  refine ⟨?_, fun d hd hap b hb => ?_, fun k hk b hb => ?_, fun b hb x hx => ?_⟩
  · simp only [units, List.map_cons, List.map_append, List.sum_cons, List.sum_append]
    omega
  · have hcd := hap c (by simp)
    simp only [Apart, Blk.top, hdrSize] at hcd hcq hq
    rcases hmem b hb with rfl | rfl | hb
    · simp only [Apart, Blk.top, hdrSize]
      omega
    · simp only [Apart, Blk.top, hdrSize]
      omega
    · exact hap b hb
  · have hc := hk c (by simp)
    simp only [Blk.top, hdrSize] at hc hcq hq
    rcases hmem b hb with rfl | rfl | hb
    · simp only [Blk.top, hdrSize]
      omega
    · simp only [Blk.top, hdrSize]
      omega
    · exact hk b hb
  · rcases hmem b hb with rfl | rfl | hb
    · refine ⟨c, by simp, ?_⟩
      simp only [Blk.Has, Blk.top, hdrSize] at hx hcq hq ⊢
      omega
    · refine ⟨c, by simp, ?_⟩
      simp only [Blk.Has, Blk.top, hdrSize] at hx hcq hq ⊢
      omega
    · exact ⟨b, hb, hx⟩

/-- Of a larger block, the tail is taken. -/
theorem FreeList.taken_tail (hf : FreeList base a.heap (pre ++ c :: post)) (hn : 0 < nunits)
    (hc : nunits < c.size) (hlt : c.size < 2 ^ 32) :
    Taken base nunits a.heap
      { (a.heap.setSize c.addr (c.size - nunits)).setSize (c.addr + hdrSize * (c.size - nunits))
        nunits with freep := (pre.map Blk.addr).getLastD base } (pre ++ c :: post)
      (pre ++ ⟨c.addr, c.size - nunits⟩ :: post) ⟨c.addr + hdrSize * (c.size - nunits), nunits⟩ := by
  have hperm : (pre ++ c :: post).Perm (c :: (pre ++ post)) := List.perm_middle
  have hpw := hf.pairwise_apart
  rw [hperm.pairwise_iff fun h => Apart.symm h, List.pairwise_cons] at hpw
  have hbase := hf.above c (by simp)
  have hctop : c.top = c.addr + hdrSize * (c.size - nunits) + hdrSize * nunits := by
    rw [Blk.top, Nat.add_assoc, ← Nat.mul_add, Nat.sub_add_cancel hc.le]
  have hcq : c.addr < c.addr + hdrSize * (c.size - nunits) := by
    rw [hdrSize]
    omega
  generalize hqe : c.addr + hdrSize * (c.size - nunits) = q at hctop hcq ⊢
  have hne : ∀ b ∈ pre ++ post, b.addr ≠ c.addr ∧ b.addr ≠ q := by
    intro b hb
    have hpos := hf.pos b (by rcases List.mem_append.mp hb with hb | hb <;> simp [hb])
    have hap := hpw.1 b hb
    rw [Apart, hctop, Blk.top] at hap
    rw [hdrSize] at hap
    omega
  have hsize : ∀ x, x ≠ c.addr → x ≠ q →
      ((a.heap.setSize c.addr (c.size - nunits)).setSize q nunits).size x = a.heap.size x :=
    fun x hx hx' => (Function.update_of_ne hx' _ _).trans (Function.update_of_ne hx _ _)
  rw [hdrSize] at hbase
  refine ⟨hf.shrink rfl rfl ?_ (by simpa using hc) ?_ ?_ ?_ ?_, ?_, rfl, ?_, ?_, ?_, ?_⟩
  · rw [hctop, ← hqe, Blk.top]
    exact Nat.le_add_right _ _
  · refine (Function.update_of_ne hcq.ne _ _).trans ((Function.update_self _ _ _).trans ?_)
    exact Nat.mod_eq_of_lt (by omega)
  · exact fun b hb => hsize _ (hne b hb).1 (hne b hb).2
  · exact hsize base (by omega) (by omega)
  · exact last_mem base pre (c :: post)
  · exact (Function.update_self _ _ _).trans (Nat.mod_eq_of_lt (by omega))
  · exact recut_cut rfl hqe (by rw [hctop, Blk.top])
  · intro b hb
    have hb' : b = ⟨c.addr, c.size - nunits⟩ ∨ b ∈ pre ++ post := by
      simp only [List.mem_append, List.mem_cons] at hb ⊢
      tauto
    rcases hb' with rfl | hb'
    · exact .inr hqe.le
    · have hap := hpw.1 b hb'
      rw [Apart, hctop] at hap
      simp only [Apart, Blk.top] at hap ⊢
      omega
  · show base + hdrSize ≤ q
    rw [hdrSize]
    omega
  · intro x hx
    rw [List.mem_cons, not_or] at hx
    refine hsize x ?_ hx.1
    rintro rfl
    exact hx.2 (List.mem_map_of_mem (by simp))

/-- The end of a successful search of `malloc`. -/
theorem ArenaOk.take (h : ArenaOk base a (pre ++ c :: post) ls) (hu : a.units < 2 ^ 32)
    (hn : 0 < nunits) (hc : nunits ≤ c.size) :
    ∃ q h' bs', a.take nunits ((pre.map Blk.addr).getLastD base) c.addr =
        (q.addr + hdrSize, { a with heap := h' }) ∧ q.size = nunits ∧
      ArenaOk base { a with heap := h' } bs' (q :: ls) := by
  have hsize := h.list.size c (by simp)
  have hunits := h.units
  have hlt : c.size < 2 ^ 32 := by
    simp only [Umalloc.units, List.map_append, List.map_cons, List.sum_append, List.sum_cons]
      at hunits
    omega
  -- The block is taken as a whole, or its tail is cut off.
  obtain ⟨q, h', bs', htake, ht⟩ : ∃ q h' bs',
      a.take nunits ((pre.map Blk.addr).getLastD base) c.addr =
        (q.addr + hdrSize, { a with heap := h' }) ∧
      Taken base nunits a.heap h' (pre ++ c :: post) bs' q := by
    by_cases heq : c.size = nunits
    · exact ⟨_, _, _, by rw [Arena.take, hsize, if_pos heq], h.list.taken_whole heq⟩
    · refine ⟨_, _, _, ?_, h.list.taken_tail hn (lt_of_le_of_ne hc (Ne.symm heq)) hlt⟩
      have hmod : (c.size - nunits) % 2 ^ 32 = c.size - nunits := Nat.mod_eq_of_lt (by omega)
      have htop : (a.heap.setSize c.addr (c.size - nunits)).top c.addr =
          c.addr + hdrSize * (c.size - nunits) := by
        simp only [Heap.top, Heap.setSize, Function.update_self, hmod]
      rw [Arena.take, hsize, if_neg heq]
      simp only [htop]
  have hap := List.pairwise_append.mp h.apart
  -- The pieces lie where `c` lay, and so apart from the live blocks.
  have hls : ∀ l ∈ ls, ∀ b ∈ q :: bs', Apart l b := fun l hl =>
    ht.recut.apart l (h.pos l hl) fun b hb => (hap.2.2 b hb l hl).symm
  have hqpos : 0 < q.size := ht.size_eq.symm ▸ hn
  have htop := ht.recut.top a.brk fun b hb => h.top b (List.mem_append_left _ hb)
  refine ⟨q, h', bs', htake, ht.size_eq, ⟨ht.list, ?_, ?_, ?_, ?_, ?_, h.base_le, ?_, ?_⟩⟩
  · intro l hl
    rcases List.mem_cons.mp hl with rfl | hl
    · rw [ht.size, ht.size_eq]
    · refine (ht.frame l.addr ?_).trans (h.size l hl)
      intro hmem
      rcases List.mem_cons.mp hmem with hq | hmem
      · exact (hls l hl q (by simp)).addr_ne (h.pos l hl) hqpos hq
      · obtain ⟨b, hb, heq⟩ := List.mem_map.mp hmem
        exact (hap.2.2 b hb l hl).addr_ne (h.list.pos b hb) (h.pos l hl) heq
  · intro l hl
    rcases List.mem_cons.mp hl with rfl | hl
    · exact hqpos
    · exact h.pos l hl
  · intro l hl
    rcases List.mem_cons.mp hl with rfl | hl
    · exact ht.above
    · exact h.above l hl
  · rw [List.pairwise_append, List.pairwise_cons]
    refine ⟨ht.list.pairwise_apart, ⟨fun l hl => (hls l hl q (by simp)).symm, hap.2.1⟩, ?_⟩
    intro b hb l hl
    rcases List.mem_cons.mp hl with rfl | hl
    · exact (ht.apart b hb).symm
    · exact (hls l hl b (by simp [hb])).symm
  · intro b hb
    rcases List.mem_append.mp hb with hb | hb
    · exact htop b (by simp [hb])
    · rcases List.mem_cons.mp hb with rfl | hb
      · exact htop b (by simp)
      · exact h.top b (by simp [hb])
  · -- All their bytes are bytes of `c`.
    intro b hb x hx
    have hcase : b ∈ q :: bs' ∨ b ∈ ls := by
      simp only [List.mem_append, List.mem_cons] at hb ⊢
      tauto
    rcases hcase with hb | hb
    · obtain ⟨d, hd, hx'⟩ := ht.recut.inside b hb x hx
      exact h.inside d (by simp only [List.mem_append] at hd ⊢; tauto) x hx'
    · exact h.inside b (by simp [hb]) x hx
  · have hrecut := ht.recut.units
    rw [units_append] at hunits
    refine Eq.trans ?_ hunits
    rw [units_append, ← hrecut]
    simp only [Umalloc.units, List.map_cons, List.sum_cons]
    omega

/-! ### The search of `malloc` -/

/-- How a search ends: a block is found, behind another one, or the search comes to `freep`, with
    some of the fuel left. -/
inductive Found
  | block (prevp p : ℕ)
  | round (fuel : ℕ)

/-- The search of `malloc`, up to a call of `morecore`. -/
def Heap.find (h : Heap) (nunits : ℕ) : ℕ → ℕ → ℕ → Option Found
  | 0, _, _ => none
  | fuel + 1, prevp, p =>
    if h.size p ≥ nunits then some (.block prevp p)
    else if p = h.freep then some (.round fuel)
    else h.find nunits fuel p (h.ptr p)

/-- The search behind its first round, when no block was large enough. -/
def Arena.grow (nunits fuel : ℕ) (a : Arena) : Option (ℕ × Arena) := do
  let (p, a) ← a.morecore nunits
  if p = 0 then some (0, a) else Arena.mallocLoop nunits fuel p (a.heap.ptr p) a

/-- What `malloc` does where its search ends. -/
def Arena.finish (nunits : ℕ) (a : Arena) : Found → Option (ℕ × Arena)
  | .block prevp p => some (a.take nunits prevp p)
  | .round k => a.grow nunits k

/-- The loop of `malloc` is a search, and what is done where it ends. -/
theorem mallocLoop_eq_find (nunits n x p : ℕ) : Arena.mallocLoop nunits n x p a =
    (a.heap.find nunits n x p).bind (a.finish nunits) := by
  induction n generalizing x p with
  | zero => rfl
  | succ n ih =>
    rw [Arena.mallocLoop, Heap.find]
    split_ifs with hfit hend
    · rfl
    · rfl
    · exact ih p _

/-- A part of the list: a block that is large enough is found there, or all are too small and the
    search goes on behind it. -/
theorem Heap.find_part {h : Heap} (nunits n : ℕ) {x y : ℕ} {cs : List Blk}
    (hl : Linked h.ptr x (cs.map Blk.addr) y) (hsize : ∀ c ∈ cs, h.size c.addr = c.size)
    (hne : ∀ c ∈ cs, c.addr ≠ h.freep) :
    (∃ pre c post, cs = pre ++ c :: post ∧ nunits ≤ c.size ∧
      h.find nunits (n + cs.length) x (h.ptr x) =
        some (.block ((pre.map Blk.addr).getLastD x) c.addr)) ∨
    ((∀ c ∈ cs, c.size < nunits) ∧ h.find nunits (n + cs.length) x (h.ptr x) =
      h.find nunits n ((cs.map Blk.addr).getLastD x) y) := by
  induction cs generalizing x with
  | nil =>
    have hnext : h.ptr x = y := hl
    exact .inr ⟨by simp, by rw [hnext]; rfl⟩
  | cons c cs ih =>
    have hnext : h.ptr x = c.addr := hl.1
    rw [hnext, List.length_cons, ← Nat.add_assoc, Heap.find, hsize c (by simp)]
    by_cases hc : nunits ≤ c.size
    · exact .inl ⟨[], c, cs, rfl, hc, by rw [if_pos hc]; rfl⟩
    · rw [if_neg hc, if_neg (hne c (by simp))]
      rcases ih hl.2 (fun d hd => hsize d (by simp [hd])) fun d hd => hne d (by simp [hd]) with
        ⟨pre, d, post, rfl, hd, heq⟩ | ⟨hsmall, heq⟩
      · refine .inl ⟨c :: pre, d, post, rfl, hd, ?_⟩
        rw [heq, List.map_cons, List.getLastD_cons]
      · refine .inr ⟨?_, ?_⟩
        · intro d hd
          rcases List.mem_cons.mp hd with rfl | hd
          · omega
          · exact hsmall d hd
        · rw [heq, List.map_cons, List.getLastD_cons]

/-- One round of the search, from `freep` to `freep`. -/
theorem FreeList.find_round {h : Heap} (hf : FreeList base h bs) (hn : 0 < nunits) (k : ℕ) :
    (∃ pre c post, bs = pre ++ c :: post ∧ nunits ≤ c.size ∧
      h.find nunits (k + bs.length + 1) h.freep (h.ptr h.freep) =
        some (.block ((pre.map Blk.addr).getLastD base) c.addr)) ∨
    ((∀ c ∈ bs, c.size < nunits) ∧
      h.find nunits (k + bs.length + 1) h.freep (h.ptr h.freep) = some (.round k)) := by
  have hbase : ∀ c ∈ bs, c.addr ≠ base := by
    intro c hc
    have := hf.above c hc
    rw [hdrSize] at this
    omega
  -- At `freep`, the round ends if its block is too small.
  have hend : ∀ x, h.size h.freep < nunits →
      h.find nunits (k + 1) x h.freep = some (.round k) := by
    intro x hx
    rw [Heap.find, if_neg (by omega), if_pos rfl]
  rcases List.mem_cons.mp hf.freep with hfp | hfp
  · rcases Heap.find_part nunits (k + 1) hf.linked hf.size (hfp ▸ hbase) with
      ⟨pre, c, post, rfl, hc, heq⟩ | ⟨hsmall, heq⟩
    · refine .inl ⟨pre, c, post, rfl, hc, ?_⟩
      rw [hfp, Nat.add_right_comm, heq]
    · refine .inr ⟨hsmall, ?_⟩
      rw [← hend _ (by rw [hfp, hf.base_size]; exact hn), hfp, Nat.add_right_comm, heq]
  · obtain ⟨f, hmem, hf'⟩ := List.mem_map.mp hfp
    obtain ⟨ds, cs, rfl⟩ := List.append_of_mem hmem
    have hlinked := hf.linked
    rw [List.map_append, List.map_cons, linked_append] at hlinked
    have hne : ∀ c ∈ ds ++ cs, c.addr ≠ h.freep := by
      intro c hc heq
      have hnodup := (List.nodup_cons.mp hf.nodes_nodup).2
      rw [List.map_append, List.map_cons, List.nodup_middle, List.nodup_cons, ← List.map_append,
        hf'] at hnodup
      exact hnodup.1 (heq ▸ List.mem_map_of_mem hc)
    have hlen : k + (ds ++ f :: cs).length + 1 = k + 1 + ds.length + 1 + cs.length := by
      simp only [List.length_append, List.length_cons]
      omega
    rw [hlen]
    have hcs := Heap.find_part nunits (k + 1 + ds.length + 1) hlinked.2
      (fun c hc => hf.size c (by simp [hc])) fun c hc => hne c (by simp [hc])
    rw [hf'] at hcs
    rcases hcs with ⟨pre, c, post, rfl, hc, heq⟩ | ⟨hsmall, heq⟩
    · refine .inl ⟨ds ++ f :: pre, c, post, by simp, hc, ?_⟩
      rw [heq, List.map_append, List.map_cons, getLastD_append_cons, hf']
    · rw [heq, Heap.find, hf.base_size, if_neg (by omega),
        if_neg (by rw [← hf']; exact (hbase f (by simp)).symm)]
      rcases Heap.find_part nunits (k + 1) hlinked.1 (fun c hc => hf.size c (by simp [hc]))
          fun c hc => hne c (by simp [hc]) with ⟨pre, c, post, rfl, hc, heq'⟩ | ⟨hsmall', heq'⟩
      · exact .inl ⟨pre, c, post ++ f :: cs, by simp, hc, heq'⟩
      · rw [heq', hf']
        by_cases hfit : nunits ≤ f.size
        · refine .inl ⟨ds, f, cs, rfl, hfit, ?_⟩
          rw [Heap.find, ← hf', hf.size f (by simp), if_pos hfit]
        · refine .inr ⟨?_, hend _ (by rw [← hf', hf.size f (by simp)]; omega)⟩
          intro c hc
          simp only [List.mem_append, List.mem_cons] at hc
          rcases hc with hc | rfl | hc
          · exact hsmall' c hc
          · omega
          · exact hsmall c hc

/-! ### New memory -/

theorem FreeList.setSize {h : Heap} {x : ℕ} (hf : FreeList base h bs)
    (hx : x ∉ base :: bs.map Blk.addr) (n : ℕ) : FreeList base (h.setSize x n) bs := by
  rw [List.mem_cons, not_or] at hx
  refine ⟨hf.linked, ?_, fun b hb => ?_, hf.pos, hf.above, hf.sorted, hf.freep⟩
  · exact (Function.update_of_ne (Ne.symm hx.1) _ _).trans hf.base_size
  · refine (Function.update_of_ne ?_ _ _).trans (hf.size b hb)
    rintro rfl
    exact hx.2 (List.mem_map_of_mem hb)

theorem ArenaOk.addr_lt (h : ArenaOk base a bs ls) {b : Blk} (hb : b ∈ bs ++ ls) :
    b.addr < a.brk := by
  have hpos : 0 < b.size := by
    rcases List.mem_append.mp hb with hb | hb
    · exact h.list.pos b hb
    · exact h.pos b hb
  exact (Blk.addr_lt_top hpos).trans_le (h.top b hb)

theorem units_got (h : Heap) (brk x n : ℕ) (got : List (ℕ × ℕ)) (answers : List (Option ℕ)) :
    Arena.units ⟨h, brk, (x, n) :: got, answers⟩ = (got.map Prod.snd).sum + n := by
  rw [Arena.units, List.map_cons, List.sum_cons, Nat.add_comm]

/-- New memory from `sbrk`, with its header filled in, is one more live block. -/
theorem ArenaOk.sbrk (h : ArenaOk base a bs ls) (d n : ℕ) (answers : List (Option ℕ)) (hn : 0 < n)
    (hlt : n < 2 ^ 32) :
    ArenaOk base ⟨a.heap.setSize (a.brk + d) n, a.brk + d + n * hdrSize, (a.brk + d, n) :: a.got,
      answers⟩ bs (⟨a.brk + d, n⟩ :: ls) := by
  have hne : ∀ b ∈ bs ++ ls, b.addr ≠ a.brk + d := fun b hb => by
    have := h.addr_lt hb
    omega
  have hbase := h.base_le
  rw [hdrSize] at hbase
  have htop : ∀ b ∈ bs ++ ls, b.top ≤ a.brk + d := fun b hb =>
    (h.top b hb).trans (Nat.le_add_right _ _)
  have hcase : ∀ b ∈ bs ++ (⟨a.brk + d, n⟩ : Blk) :: ls, b = ⟨a.brk + d, n⟩ ∨ b ∈ bs ++ ls := by
    intro b hb
    simp only [List.mem_append, List.mem_cons] at hb ⊢
    tauto
  refine ⟨h.list.setSize ?_ n, ?_, ?_, ?_, ?_, ?_, ?_, ?_, ?_⟩
  · intro hmem
    rcases List.mem_cons.mp hmem with heq | hmem
    · omega
    · obtain ⟨b, hb, heq⟩ := List.mem_map.mp hmem
      exact hne b (by simp [hb]) heq
  · intro b hb
    rcases List.mem_cons.mp hb with rfl | hb
    · exact (Function.update_self _ _ _).trans (Nat.mod_eq_of_lt hlt)
    · exact (Function.update_of_ne (hne b (by simp [hb])) _ _).trans (h.size b hb)
  · intro b hb
    rcases List.mem_cons.mp hb with rfl | hb
    · exact hn
    · exact h.pos b hb
  · intro b hb
    rcases List.mem_cons.mp hb with rfl | hb
    · exact h.base_le.trans (Nat.le_add_right _ _)
    · exact h.above b hb
  · have hap := List.pairwise_append.mp h.apart
    rw [List.pairwise_append, List.pairwise_cons]
    refine ⟨hap.1, ⟨fun b hb => .inr (htop b (by simp [hb])), hap.2.1⟩, fun b hb c hc => ?_⟩
    rcases List.mem_cons.mp hc with rfl | hc
    · exact .inl (htop b (by simp [hb]))
    · exact hap.2.2 b hb c hc
  · intro b hb
    rcases hcase b hb with rfl | hb
    · exact (Nat.add_le_add_left (Nat.mul_comm _ _).le _)
    · exact (htop b hb).trans (Nat.le_add_right _ _)
  · exact h.base_le.trans ((Nat.le_add_right _ _).trans (Nat.le_add_right _ _))
  · intro b hb x hx
    rcases hcase b hb with rfl | hb
    · exact ⟨(a.brk + d, n), List.mem_cons_self, hx⟩
    · obtain ⟨r, hr, hx'⟩ := h.inside b hb x hx
      exact ⟨r, List.mem_cons_of_mem _ hr, hx'⟩
  · have := h.units
    rw [units_append, Arena.units] at this
    rw [units_append, units_got, ← this]
    simp only [Umalloc.units, List.map_cons, List.sum_cons]
    omega

/-- What `malloc` returns: NULL, or a new live block of `nunits` units. -/
def MallocOk (base nunits : ℕ) (ls : List Blk) (r : ℕ × Arena) : Prop :=
  (r.1 = 0 ∧ ∃ bs, ArenaOk base r.2 bs ls) ∨
  ∃ q bs, r.1 = q.addr + hdrSize ∧ q.size = nunits ∧ ArenaOk base r.2 bs (q :: ls)

/-- A search finds a block that is large enough, if there is one, and this block is taken. -/
theorem ArenaOk.find (h : ArenaOk base a bs ls) (hu : a.units < 2 ^ 32) (hn : 0 < nunits)
    (hfit : ∃ b ∈ bs, nunits ≤ b.size) (k : ℕ) :
    ∃ prevp p, a.heap.find nunits (k + bs.length + 1) a.heap.freep (a.heap.ptr a.heap.freep) =
      some (.block prevp p) ∧ MallocOk base nunits ls (a.take nunits prevp p) := by
  rcases h.list.find_round hn k with ⟨pre, c, post, rfl, hc, heq⟩ | ⟨hsmall, -⟩
  · obtain ⟨q, h', bs', htake, hq, hok⟩ := h.take hu hn hc
    exact ⟨_, _, heq, .inr ⟨q, bs', by rw [htake], hq, by rw [htake]; exact hok⟩⟩
  · obtain ⟨b, hb, hle⟩ := hfit
    exact absurd hle (Nat.not_le.mpr (hsmall b hb))

theorem FreeList.freep_ne_zero {h : Heap} (hf : FreeList base h bs) (hb : 0 < base) :
    h.freep ≠ 0 := by
  rcases List.mem_cons.mp hf.freep with hfp | hfp
  · omega
  · obtain ⟨b, hmem, heq⟩ := List.mem_map.mp hfp
    have := hf.above b hmem
    omega

/-- The units that `morecore` asks for. -/
def coreUnits (nu : ℕ) : ℕ := if nu < 4096 then 4096 else nu

theorem ArenaOk.answers (h : ArenaOk base a bs ls) (answers : List (Option ℕ)) :
    ArenaOk base { a with answers := answers } bs ls :=
  ⟨h.list, h.size, h.pos, h.above, h.apart, h.top, h.base_le, h.inside, h.units⟩

/-- `sbrk` has failed. -/
theorem grow_of_fail (hf : (a.sbrk (coreUnits nunits)).1 = none) :
    a.grow nunits k = some (0, (a.sbrk (coreUnits nunits)).2) := by
  rw [Arena.grow, Arena.morecore, ← coreUnits]
  generalize a.sbrk (coreUnits nunits) = r at hf
  obtain ⟨p, a'⟩ := r
  subst hf
  rfl

/-- After a call of `sbrk` that has failed, nothing has changed. -/
theorem ArenaOk.sbrk_fail (h : ArenaOk base a bs ls) {n : ℕ} (hf : (a.sbrk n).1 = none) :
    ArenaOk base (a.sbrk n).2 bs ls := by
  unfold Arena.sbrk at hf ⊢
  split at hf
  · cases hf
  · exact h.answers _
  · exact h

theorem le_coreUnits (nunits : ℕ) : nunits ≤ coreUnits nunits ∧ 4096 ≤ coreUnits nunits := by
  rw [coreUnits]
  split <;> omega

/-- New memory is added to the free blocks, and a second round of the search finds room in it. -/
theorem ArenaOk.core (h : ArenaOk base a bs ls) (hb : 0 < base) (hn : 0 < nunits)
    (hk : bs.length + 2 ≤ k) (hu : a.units + coreUnits nunits < 2 ^ 32) (d : ℕ)
    (answers : List (Option ℕ)) :
    ∃ h' prevp p, (a.heap.setSize (a.brk + d) (coreUnits nunits)).free
        (2 * Arena.units ⟨a.heap, a.brk + d + coreUnits nunits * hdrSize,
          (a.brk + d, coreUnits nunits) :: a.got, answers⟩ + 4) (a.brk + d + hdrSize) = some h' ∧
      h'.freep ≠ 0 ∧ h'.find nunits k h'.freep (h'.ptr h'.freep) = some (.block prevp p) ∧
      MallocOk base nunits ls (Arena.take ⟨h', a.brk + d + coreUnits nunits * hdrSize,
        (a.brk + d, coreUnits nunits) :: a.got, answers⟩ nunits prevp p) := by
  obtain ⟨hcore, hmin⟩ := le_coreUnits nunits
  have hnew := h.sbrk d (coreUnits nunits) answers (by omega) (by omega)
  obtain ⟨h', bs', hfree, hok, hjoin⟩ := hnew.free (by rwa [units_got])
  obtain ⟨b, hb', hle⟩ := hjoin.grows ⟨a.brk + d, coreUnits nunits⟩ (by simp)
  obtain ⟨j, rfl⟩ : ∃ j, k = j + bs'.length + 1 := by
    have := hjoin.length
    simp only [List.length_cons] at this
    exact ⟨k - bs'.length - 1, by omega⟩
  obtain ⟨prevp, p, hfind, hrok⟩ :=
    hok.find (lt_of_eq_of_lt (units_got ..) hu) hn ⟨b, hb', hcore.trans hle⟩ j
  exact ⟨h', prevp, p, hfree, hok.list.freep_ne_zero hb, hfind, hrok⟩

/-- New memory, and a second round. -/
theorem ArenaOk.grow (h : ArenaOk base a bs ls) (hb : 0 < base) (hn : 0 < nunits)
    (hk : bs.length + 2 ≤ k) (hu : a.units + coreUnits nunits < 2 ^ 32) :
    ∃ r, a.grow nunits k = some r ∧ MallocOk base nunits ls r := by
  match hans : a.answers with
  | [] =>
    have hf : (a.sbrk (coreUnits nunits)).1 = none := by simp [Arena.sbrk, hans]
    exact ⟨_, grow_of_fail hf, .inl ⟨rfl, bs, h.sbrk_fail hf⟩⟩
  | none :: answers =>
    have hf : (a.sbrk (coreUnits nunits)).1 = none := by simp [Arena.sbrk, hans]
    exact ⟨_, grow_of_fail hf, .inl ⟨rfl, bs, h.sbrk_fail hf⟩⟩
  | some d :: answers =>
    obtain ⟨h', prevp, p, hfree, hne, hfind, hrok⟩ := h.core hb hn hk hu d answers
    refine ⟨_, ?_, hrok⟩
    rw [Arena.grow, Arena.morecore, ← coreUnits]
    simp only [Arena.sbrk, hans, hfree, Option.bind_some, bind, if_neg hne, mallocLoop_eq_find,
      hfind, Arena.finish]

/-! ### The units obtained only grow -/

theorem units_take (a : Arena) (nunits prevp p : ℕ) : (a.take nunits prevp p).2.units = a.units := by
  rw [Arena.take]
  split <;> rfl

theorem units_morecore {r : ℕ × Arena} {nu : ℕ} (hr : a.morecore nu = some r) :
    r.2.units = a.units ∨ r.2.units = a.units + coreUnits nu := by
  rw [Arena.morecore, ← coreUnits] at hr
  unfold Arena.sbrk at hr
  split at hr
  next hs =>
    split at hs
    · cases hs
    all_goals
      cases hs
      cases hr
      exact .inl rfl
  next hs =>
    split at hs
    · cases hs
      obtain ⟨h', -, heq⟩ := Option.bind_eq_some_iff.mp hr
      cases heq
      exact .inr (units_got ..)
    all_goals cases hs

theorem units_mallocLoop {n x p : ℕ} {r : ℕ × Arena}
    (hr : Arena.mallocLoop nunits n x p a = some r) : a.units ≤ r.2.units := by
  induction n generalizing x p a with
  | zero => cases hr
  | succ n ih =>
    rw [Arena.mallocLoop] at hr
    split at hr
    · cases hr
      exact (units_take _ _ _ _).ge
    · split at hr
      · obtain ⟨⟨q, a'⟩, hcore, hr⟩ := Option.bind_eq_some_iff.mp hr
        have hle : a.units ≤ a'.units := by
          rcases units_morecore hcore with h | h <;> simp only at h <;> omega
        dsimp only at hr
        split at hr
        · cases hr
          exact hle
        · exact hle.trans (ih hr)
      · exact ih hr

/-- New memory was obtained. -/
theorem units_grow {r : ℕ × Arena} {d : ℕ} {answers : List (Option ℕ)}
    (hans : a.answers = some d :: answers) (hr : a.grow nunits k = some r) :
    a.units + coreUnits nunits ≤ r.2.units := by
  rw [Arena.grow, Arena.morecore, ← coreUnits] at hr
  simp only [Arena.sbrk, hans] at hr
  obtain ⟨⟨p, a'⟩, hcore, hr⟩ := Option.bind_eq_some_iff.mp hr
  obtain ⟨h', -, heq⟩ := Option.bind_eq_some_iff.mp hcore
  cases heq
  dsimp only at hr
  split at hr
  · cases hr
    exact (units_got ..).ge
  · exact (units_got ..).ge.trans (units_mallocLoop hr)

/-- The search of `malloc` ends, if there is room for what may be added; and as long as there was
    room, its result is as it should be. -/
theorem ArenaOk.mallocLoop (h : ArenaOk base a bs ls) (hb : 0 < base) (hn : 0 < nunits)
    (hu : a.units < 2 ^ 32) :
    (a.units + coreUnits nunits < 2 ^ 32 →
      (Arena.mallocLoop nunits (2 * a.units + 4) a.heap.freep (a.heap.ptr a.heap.freep) a).isSome) ∧
    ∀ r, Arena.mallocLoop nunits (2 * a.units + 4) a.heap.freep (a.heap.ptr a.heap.freep) a =
      some r → r.2.units < 2 ^ 32 → MallocOk base nunits ls r := by
  have hunits := h.units
  rw [units_append] at hunits
  have hlen := h.list.length_le
  obtain ⟨k, hk⟩ : ∃ k, 2 * a.units + 4 = k + bs.length + 1 := ⟨2 * a.units + 3 - bs.length, by omega⟩
  rw [hk, mallocLoop_eq_find]
  rcases h.list.find_round hn k with ⟨pre, c, post, rfl, hc, heq⟩ | ⟨-, heq⟩
  · obtain ⟨q, h', bs', htake, hq, hok⟩ := h.take hu hn hc
    rw [heq, Option.bind_some, Arena.finish]
    refine ⟨fun _ => rfl, fun r hr _ => ?_⟩
    cases hr
    exact .inr ⟨q, bs', by rw [htake], hq, by rw [htake]; exact hok⟩
  · rw [heq, Option.bind_some, Arena.finish]
    by_cases hroom : a.units + coreUnits nunits < 2 ^ 32
    · obtain ⟨r, hr, hrok⟩ := h.grow hb hn (show bs.length + 2 ≤ k by omega) hroom
      rw [hr]
      refine ⟨fun _ => rfl, fun r' hr' _ => ?_⟩
      cases hr'
      exact hrok
    · refine ⟨fun hr => absurd hr hroom, fun r hr hlt => ?_⟩
      match hans : a.answers with
      | some d :: answers =>
        have := units_grow hans hr
        omega
      | none :: answers =>
        have hf : (a.sbrk (coreUnits nunits)).1 = none := by simp [Arena.sbrk, hans]
        rw [grow_of_fail hf] at hr
        cases hr
        exact .inl ⟨rfl, bs, h.sbrk_fail hf⟩
      | [] =>
        have hf : (a.sbrk (coreUnits nunits)).1 = none := by simp [Arena.sbrk, hans]
        rw [grow_of_fail hf] at hr
        cases hr
        exact .inl ⟨rfl, bs, h.sbrk_fail hf⟩

end Xv6.Umalloc
