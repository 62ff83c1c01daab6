import Mathlib
import Xv6.Umalloc.Heap

/-!
# Programs that use the allocator

Whatever a program does with `malloc` and `free`, and wherever `sbrk` finds memory, the blocks of
its memory are as they should be (`malloc_sound`), and no call runs on, as long as less than 2^32
units were obtained from `sbrk`. With more, a size can wrap when blocks are joined, and memory is
lost (`malloc_wraps`).
-/

namespace Xv6.Umalloc

/-- The blocks `ls` are those that the program has: each is at the address that `malloc` has
    returned, and holds the bytes asked for behind its header. -/
def Owns (s : Prog) (ls : List Blk) : Prop :=
  List.Forall₂ (fun l b => l.1 = b.addr + hdrSize ∧ l.2 + hdrSize ≤ hdrSize * b.size) s.live ls

/-- The allocator was not used yet, or its memory is well-formed: a circular list of free blocks
    through `base`, in increasing order, no two of which touch; live blocks that are large enough;
    no overlap; all of them in memory obtained from `sbrk`, and all units accounted for. -/
def HeapSound (base : ℕ) (s : Prog) : Prop :=
  (s.arena.heap.freep = 0 ∧ s.arena.units = 0 ∧ s.live = [] ∧ base + hdrSize ≤ s.arena.brk) ∨
  ∃ bs ls, ArenaOk base s.arena bs ls ∧ Owns s ls

/-- The invariant of the allocator. -/
structure HeapInv (base : ℕ) (s : Prog) : Prop where
  base_pos : 0 < base
  sound : s.arena.units < 2 ^ 32 → HeapSound base s

variable {base : ℕ} {s s' : Prog}

theorem nunits_eq {n : ℕ} (hn : n < 2 ^ 32) : Arena.nunits n = (n + 15) / 16 + 1 := by
  rw [Arena.nunits, hdrSize, Nat.mod_eq_of_lt (by omega)]
  omega

theorem nunits_pos {n : ℕ} (hn : n < 2 ^ 32) : 0 < Arena.nunits n := by
  rw [nunits_eq hn]
  omega

/-- A block of `nunits(n)` units holds `n` bytes behind its header. -/
theorem le_nunits {n : ℕ} (hn : n < 2 ^ 32) : n + hdrSize ≤ hdrSize * Arena.nunits n := by
  rw [nunits_eq hn, hdrSize]
  omega

/-- The list is set up before the first search. -/
theorem HeapSound.start (h : HeapSound base s) (hb : 0 < base) (answers : List (Option ℕ)) :
    ∃ bs ls, ArenaOk base
      { s.arena with heap := Arena.start base s.arena.heap, answers := answers } bs ls ∧
      Owns s ls := by
  rcases h with ⟨hfreep, hunits, hlive, hle⟩ | ⟨bs, ls, hok, hown⟩
  · refine ⟨[], [], ?_, by rw [Owns, hlive]; exact .nil⟩
    have hstart : Arena.start base s.arena.heap =
        (({ s.arena.heap with freep := base }).setPtr base base).setSize base 0 := if_pos hfreep
    rw [hstart]
    refine ⟨⟨Function.update_self _ _ _, Function.update_self _ _ _, by simp, by simp, by simp,
      .nil, List.mem_cons_self⟩, by simp, by simp, by simp, .nil, by simp, hle, by simp, hunits.symm⟩
  · have hstart : Arena.start base s.arena.heap = s.arena.heap :=
      if_neg (hok.list.freep_ne_zero hb)
    rw [hstart]
    exact ⟨bs, ls, hok.answers answers, hown⟩

/-- A call of `malloc`. -/
theorem HeapInv.malloc (h : HeapInv base s) (hu : s.arena.units < 2 ^ 32) {n : ℕ}
    (hn : n < 2 ^ 32) (answers : List (Option ℕ)) :
    (s.arena.units + coreUnits (Arena.nunits n) < 2 ^ 32 →
      (Arena.malloc base { s.arena with answers := answers } n).isSome) ∧
    ∀ r, Arena.malloc base { s.arena with answers := answers } n = some r →
      r.2.units < 2 ^ 32 → ∃ ls, Owns s ls ∧ MallocOk base (Arena.nunits n) ls r := by
  obtain ⟨bs, ls, hok, hown⟩ := (h.sound hu).start h.base_pos answers
  obtain ⟨hsome, hres⟩ := hok.mallocLoop h.base_pos (nunits_pos hn) hu
  exact ⟨hsome, fun r hr hlt => ⟨ls, hown, hres r hr hlt⟩⟩

theorem units_malloc {a : Arena} {n : ℕ} {r : ℕ × Arena} (hr : Arena.malloc base a n = some r) :
    a.units ≤ r.2.units :=
  units_mallocLoop (a := { a with heap := Arena.start base a.heap }) hr

theorem ArenaOk.perm {a : Arena} {bs ls ls' : List Blk} (h : ArenaOk base a bs ls)
    (hp : ls.Perm ls') : ArenaOk base a bs ls' where
  list := h.list
  size b hb := h.size b (hp.mem_iff.mpr hb)
  pos b hb := h.pos b (hp.mem_iff.mpr hb)
  above b hb := h.above b (hp.mem_iff.mpr hb)
  apart := ((hp.append_left bs).pairwise_iff fun h => Apart.symm h).mp h.apart
  top b hb := h.top b ((hp.append_left bs).mem_iff.mpr hb)
  base_le := h.base_le
  inside b hb := h.inside b ((hp.append_left bs).mem_iff.mpr hb)
  units := by
    rw [← h.units]
    exact ((hp.append_left bs).map Blk.size).sum_eq.symm

/-- The block that a call of `free` is about. -/
theorem Owns.split {ls : List Blk} {l : ℕ × ℕ} {live₁ live₂ : List (ℕ × ℕ)} {R : ℕ × ℕ → Blk → Prop}
    (h : List.Forall₂ R (live₁ ++ l :: live₂) ls) :
    ∃ ls₁ b ls₂, ls = ls₁ ++ b :: ls₂ ∧ R l b ∧ List.Forall₂ R (live₁ ++ live₂) (ls₁ ++ ls₂) := by
  induction live₁ generalizing ls with
  | nil =>
    obtain ⟨b, ls₂, hb, h₂, rfl⟩ := List.forall₂_cons_left_iff.mp h
    exact ⟨[], b, ls₂, rfl, hb, h₂⟩
  | cons l' live₁ ih =>
    obtain ⟨b', ls', hb', h', rfl⟩ := List.forall₂_cons_left_iff.mp h
    obtain ⟨ls₁, b, ls₂, rfl, hb, h₂⟩ := ih h'
    exact ⟨b' :: ls₁, b, ls₂, rfl, hb, .cons hb' h₂⟩

/-- A call of `free`, on a live block. -/
theorem HeapInv.free (h : HeapInv base s) (hu : s.arena.units < 2 ^ 32) {ap : ℕ}
    (hap : ap ∈ s.live.map Prod.fst) :
    ∃ h', s.arena.heap.free (2 * s.arena.units + 4) ap = some h' ∧
      HeapSound base ⟨{ s.arena with heap := h' }, s.live.eraseP fun l => l.1 = ap⟩ := by
  rcases h.sound hu with ⟨-, -, hlive, -⟩ | ⟨bs, ls, hok, hown⟩
  · rw [hlive] at hap
    cases hap
  · obtain ⟨l, hl, rfl⟩ := List.mem_map.mp hap
    obtain ⟨l', live₁, live₂, -, hl', heq, herase⟩ :=
      List.exists_of_eraseP (p := fun l' => decide (l'.1 = l.1)) hl (by simp)
    rw [Owns, heq] at hown
    obtain ⟨ls₁, b, ls₂, rfl, ⟨hb, -⟩, hown'⟩ := Owns.split hown
    obtain ⟨h', bs', hfree, hok', -⟩ := (hok.perm List.perm_middle).free hu
    have hl'' : l.1 = b.addr + hdrSize := (of_decide_eq_true hl').symm.trans hb
    refine ⟨h', by rw [hl'', hfree], .inr ⟨bs', ls₁ ++ ls₂, hok', ?_⟩⟩
    rw [Owns, herase]
    exact hown'

/-- A header of a block, or `base`, is not for the program to write. -/
theorem ArenaOk.not_writable {bs ls : List Blk} (h : ArenaOk base s.arena bs ls) (hown : Owns s ls)
    {x : ℕ} (hx : x = base ∨ ∃ b ∈ bs ++ ls, x = b.addr) : ¬ s.Writable x := by
  rintro ⟨l, hl, hlt, hlt'⟩
  obtain ⟨live₁, live₂, heq⟩ := List.append_of_mem hl
  rw [Owns, heq] at hown
  obtain ⟨ls₁, b, ls₂, rfl, ⟨hb, -⟩, -⟩ := Owns.split hown
  have hmem : b ∈ bs ++ (ls₁ ++ b :: ls₂) := by simp
  have htop : s.arena.heap.top (l.1 - hdrSize) = b.top := by
    rw [hb, Nat.add_sub_cancel, Heap.top, h.size b (by simp), Blk.top]
  rw [htop] at hlt'
  rw [hb] at hlt
  rcases hx with rfl | ⟨c, hc, rfl⟩
  · have := h.above b (by simp)
    omega
  · by_cases hbc : b = c
    · subst hbc
      omega
    · have hpos : 0 < c.size := by
        rcases List.mem_append.mp hc with hc | hc
        · exact h.list.pos c hc
        · exact h.pos c hc
      have hapart := h.apart.forall hmem hc hbc
      have hctop := Blk.addr_lt_top hpos
      rcases hapart with hap | hap
      · omega
      · omega

/-- Stores of the program to its own blocks. -/
theorem HeapSound.store (h : HeapSound base s) {ptr size : ℕ → ℕ}
    (hw : ∀ x, ¬ s.Writable x → ptr x = s.arena.heap.ptr x ∧ size x = s.arena.heap.size x) :
    HeapSound base { s with arena.heap.ptr := ptr, arena.heap.size := size } := by
  rcases h with hnew | ⟨bs, ls, hok, hown⟩
  · exact .inl hnew
  · have hframe : ∀ b ∈ bs ++ ls, ptr b.addr = s.arena.heap.ptr b.addr ∧
        size b.addr = s.arena.heap.size b.addr :=
      fun b hb => hw _ (hok.not_writable hown (.inr ⟨b, hb, rfl⟩))
    have hbase := hw _ (hok.not_writable hown (.inl rfl))
    refine .inr ⟨bs, ls, ⟨⟨?_, ?_, ?_, hok.list.pos, hok.list.above, hok.list.sorted,
      hok.list.freep⟩, ?_, hok.pos, hok.above, hok.apart, hok.top, hok.base_le, hok.inside,
      hok.units⟩, hown⟩
    · refine hok.list.linked.congr fun x hx => ?_
      rcases List.mem_cons.mp hx with rfl | hx
      · exact hbase.1
      · obtain ⟨b, hb, rfl⟩ := List.mem_map.mp hx
        exact (hframe b (by simp [hb])).1
    · exact hbase.2.trans hok.list.base_size
    · exact fun b hb => (hframe b (by simp [hb])).2.trans (hok.list.size b hb)
    · exact fun b hb => (hframe b (by simp [hb])).2.trans (hok.size b hb)

/-- Every step keeps the invariant. -/
theorem HeapInv.step (h : HeapInv base s) {a : HeapAct} (hs : (heapSystem base).step s a s') :
    HeapInv base s' := by
  refine ⟨h.base_pos, fun hu => ?_⟩
  cases a with
  | store ptr size =>
    obtain ⟨hw, rfl⟩ := hs
    exact (h.sound hu).store hw
  | free ap =>
    replace hs : s.exec base (.free ap) = some s' := hs
    rw [Prog.exec] at hs
    split at hs
    next hap =>
      obtain ⟨h', hfree, heq⟩ := Option.bind_eq_some_iff.mp hs
      cases heq
      obtain ⟨h'', hfree', hsound⟩ := h.free hu hap
      cases hfree.symm.trans hfree'
      exact hsound
    next => cases hs
  | malloc n answers =>
    replace hs : s.exec base (.malloc n answers) = some s' := hs
    rw [Prog.exec] at hs
    split at hs
    next hn =>
      obtain ⟨⟨ap, a⟩, hmalloc, heq⟩ := Option.bind_eq_some_iff.mp hs
      cases heq
      have hle := units_malloc hmalloc
      obtain ⟨ls, hown, hok⟩ := (h.malloc (lt_of_le_of_lt hle hu) hn.2 answers).2 _ hmalloc hu
      rcases hok with ⟨hap, bs, hok⟩ | ⟨q, bs, hap, hq, hok⟩
      · dsimp only at hap hok
        rw [if_pos hap]
        exact .inr ⟨bs, ls, hok, hown⟩
      · dsimp only at hap hok
        rw [if_neg (by rw [hap, hdrSize]; omega)]
        exact .inr ⟨bs, q :: ls, hok, .cons ⟨hap, hq ▸ le_nunits hn.2⟩ hown⟩
    next => cases hs

/-- The allocator is sound: in every state that a program can reach with less than 2^32 units
    obtained from `sbrk`, the memory is well-formed, a call of `free` on a live block ends, and so
    does a call of `malloc` that leaves room for the memory it may ask for. -/
theorem malloc_sound (base : ℕ) (s : Prog) (hs : (heapSystem base).Reachable s)
    (hu : s.arena.units < 2 ^ 32) :
    HeapSound base s ∧
    (∀ l ∈ s.live, (s.exec base (.free l.1)).isSome) ∧
    ∀ n answers, Arena.nunits n * hdrSize < 2 ^ 31 → n < 2 ^ 32 →
      s.arena.units + coreUnits (Arena.nunits n) < 2 ^ 32 →
      (s.exec base (.malloc n answers)).isSome := by
  have hinv : HeapInv base s := hs.invariant
    (fun s hs => ⟨hs.1, fun _ => .inl ⟨hs.2.2.1, by rw [Arena.units, hs.2.2.2.1]; rfl,
      hs.2.2.2.2, hs.2.1⟩⟩)
    fun s a s' h hstep => h.step hstep
  refine ⟨hinv.sound hu, fun l hl => ?_, fun n answers hint hn hroom => ?_⟩
  · have hap : l.1 ∈ s.live.map Prod.fst := List.mem_map_of_mem hl
    obtain ⟨h', hfree, -⟩ := hinv.free hu hap
    rw [Prog.exec, if_pos hap, hfree]
    rfl
  · have hsome := (hinv.malloc hu hn answers).1 hroom
    obtain ⟨r, hr⟩ := Option.isSome_iff_exists.mp hsome
    rw [Prog.exec, if_pos ⟨hint, hn⟩, hr]
    rfl

theorem exec_step {a : HeapAct} (h : s.exec base a = some s') : (heapSystem base).step s a s' := by
  cases a with
  | store ptr size => cases h
  | malloc n answers => exact h
  | free ap => exact h

/-- A program that has not used the allocator yet, with `base` at 16 and the break at 32. -/
def freshProg : Prog := ⟨⟨⟨fun _ => 0, fun _ => 0, 0⟩, 32, [], []⟩, []⟩

theorem freshProg_mem_init : freshProg ∈ (heapSystem 16).init :=
  ⟨by decide, by decide, rfl, rfl, rfl⟩

/-- Two blocks are allocated and the first is freed. -/
theorem malloc_sound_two : ∃ s, (heapSystem 16).Reachable s ∧ s.live.length = 1 ∧
    s.arena.units = 4096 ∧ HeapSound 16 s := by
  obtain ⟨tr, hrun, hP⟩ := System.exists_run (m := heapSystem 16) (fun _ _ _ hs => exec_step hs)
    freshProg [.malloc 100 [some 0], .malloc 24 [], .free 65456]
    (fun tr => (System.last freshProg tr).live.length = 1 ∧
      (System.last freshProg tr).arena.units = 4096) (by decide)
  obtain ⟨hlive, hunits⟩ := of_decide_eq_true hP
  have hreach := hrun.reachable freshProg_mem_init
  exact ⟨_, hreach, hlive, hunits, (malloc_sound 16 _ hreach (by rw [hunits]; decide)).1⟩

/-- A list with one free block that has lost units. -/
theorem not_heapSound {b : ℕ} (hb : s.arena.heap.ptr base = b) (hne : b ≠ base)
    (hback : s.arena.heap.ptr b = base) (hfreep : s.arena.heap.freep ≠ 0) (hlive : s.live = [])
    (hunits : s.arena.heap.size b ≠ s.arena.units) : ¬ HeapSound base s := by
  rintro (⟨hzero, -⟩ | ⟨bs, ls, hok, hown⟩)
  · exact hfreep hzero
  · rw [Owns, hlive] at hown
    obtain rfl := List.forall₂_nil_left_iff.mp hown
    have hl := hok.list.linked
    match bs with
    | [] => exact hne (hb.symm.trans hl)
    | [c] =>
      have hc : b = c.addr := hb.symm.trans hl.1
      have hsize := hok.list.size c (by simp)
      have hsum := hok.units
      simp only [units, List.append_nil, List.map_cons, List.map_nil, List.sum_cons, List.sum_nil,
        Nat.add_zero] at hsum
      exact hunits (by rw [hc, hsize, hsum])
    | c :: d :: bs =>
      have hc : b = c.addr := hb.symm.trans hl.1
      have hd : base = d.addr := by rw [← hback, hc]; exact hl.2.1
      have := hok.list.above d (by simp)
      rw [hdrSize] at this
      omega

/-- With 33 blocks of almost 2 GiB next to each other, freed one after the other, the size of the
    joined block wraps. -/
theorem malloc_wraps : ∃ s, (heapSystem 16).Reachable s ∧ ¬ HeapSound 16 s := by
  obtain ⟨tr, hrun, hP⟩ := System.exists_run (m := heapSystem 16) (fun _ _ _ hs => exec_step hs)
    freshProg (List.replicate 33 (.malloc (2 ^ 31 - 48) [some 0]) ++
      (List.range 33).map fun i => .free (48 + i * (2 ^ 31 - 32)))
    (fun tr => let s := System.last freshProg tr
      s.arena.heap.ptr 16 = 32 ∧ s.arena.heap.ptr 32 = 16 ∧ s.arena.heap.freep ≠ 0 ∧ s.live = [] ∧
        s.arena.heap.size 32 ≠ s.arena.units) (by decide +kernel)
  obtain ⟨hptr, hback, hfreep, hlive, hunits⟩ := of_decide_eq_true hP
  exact ⟨_, hrun.reachable freshProg_mem_init,
    not_heapSound hptr (by decide) hback hfreep hlive hunits⟩

end Xv6.Umalloc
