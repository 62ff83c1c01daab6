import Xv6.Bio
import Xv6.Lib.Dlist
import Xv6.Lib.System

/-!
# The list of buffers

The buffers of `bio.c` are on a circular list, linked by `next` and `prev` through
`bcache.head`. Here the pointers themselves are modelled (`BufCache`): `binit` and `brelse`
change them, and `bget` follows them.

In every run (`bufCache_list`), the list goes through every buffer once, no two buffers hold
the same block, and `bget` recycles only buffers without references, and of these the one
whose last release was longest ago. The time of the last release of each buffer is recorded
along the run (`Clock`).

`Xv6.Bio` has the list as a list: as long as no count wraps, every run on the pointers is one
on the list, with the same calls (`bufCache_simulated`).
-/

namespace Xv6

/-- What `bget` and `brelse` look at in a buffer. -/
structure BufHeader where
  valid : Bool
  dev : UInt32
  blockno : UInt32
  refcnt : UInt32
  deriving DecidableEq

/-- The buffers, and the pointers of their list; `none` is `bcache.head`. -/
structure BufCache where
  buf : Fin nbuf → BufHeader
  links : Links (Fin nbuf)

namespace BufCache

/-- `binit`. The pointers of a buffer before it is put on the list do not matter. -/
def binit : BufCache where
  buf _ := { valid := false, dev := 0, blockno := 0, refcnt := 0 }
  links := (List.finRange nbuf).foldl Links.pushFront (.empty _)

variable (c : BufCache)

/-- The cache with the buffer `i` changed by `f`. -/
def set (i : Fin nbuf) (f : BufHeader → BufHeader) : BufCache :=
  { c with buf := Function.update c.buf i (f (c.buf i)) }

/-- The first loop of `bget`. -/
def lookup (dev blockno : UInt32) : Option (Fin nbuf) :=
  c.links.findNext (fun i => (c.buf i).dev = dev ∧ (c.buf i).blockno = blockno) (nbuf + 1)

/-- The second loop of `bget`. -/
def victim : Option (Fin nbuf) := c.links.findPrev (fun i => (c.buf i).refcnt = 0) (nbuf + 1)

/-- `bget`; `none` is its panic. -/
def bget (dev blockno : UInt32) : Option (Fin nbuf × BufCache) :=
  match c.lookup dev blockno with
  | some i => some (i, c.set i fun x => { x with refcnt := x.refcnt + 1 })
  | none =>
    match c.victim with
    | some i => some (i, c.set i fun _ => { valid := false, dev, blockno, refcnt := 1 })
    | none => none

/-- `brelse`. -/
def brelse (i : Fin nbuf) : BufCache :=
  let c := c.set i fun x => { x with refcnt := x.refcnt - 1 }
  if (c.buf i).refcnt = 0 then { c with links := (c.links.unlink i).pushFront i } else c

/-- `bpin`. -/
def bpin (i : Fin nbuf) : BufCache := c.set i fun x => { x with refcnt := x.refcnt + 1 }

/-- `bunpin`. -/
def bunpin (i : Fin nbuf) : BufCache := c.set i fun x => { x with refcnt := x.refcnt - 1 }

end BufCache

/-- The calls. -/
inductive BufAct
  | bget (dev blockno : UInt32)
  | brelse (i : Fin nbuf)
  | bpin (i : Fin nbuf)
  | bunpin (i : Fin nbuf)

/-- Make a call; requests are for devices other than `0`. -/
def BufCache.exec (c : BufCache) : BufAct → Option BufCache
  | .bget dev blockno => if dev ≠ 0 then (c.bget dev blockno).map Prod.snd else none
  | .brelse i => some (c.brelse i)
  | .bpin i => some (c.bpin i)
  | .bunpin i => some (c.bunpin i)

/-- The system of the buffer cache. Any process may call at any time, also `brelse` and
    `bunpin` without a reference. -/
def bufSystem : System BufCache BufAct where
  init := {.binit}
  step c a c' := c.exec a = some c'

/-! ## The order of releases -/

/-- When each buffer was last released by `brelse`, with no reference left; `0` for never. -/
structure Clock where
  now : ℕ
  released : Fin nbuf → ℕ

/-- The buffer `i` was released after `j`, or neither was and `i` is the later one of
    `binit`. -/
def Clock.Newer (t : Clock) (i j : Fin nbuf) : Prop :=
  t.released j < t.released i ∨ t.released i = 0 ∧ t.released j = 0 ∧ j < i

/-- Record a call. -/
def Clock.note (c : BufCache) (a : BufAct) (t : Clock) : Clock :=
  match a with
  | .brelse i =>
    if (c.buf i).refcnt - 1 = 0 then
      { now := t.now + 1, released := Function.update t.released i (t.now + 1) }
    else t
  | _ => t

namespace BufCache

variable {c c' : BufCache} {t : Clock} {i j : Fin nbuf} {dev blockno : UInt32}

@[simp] theorem set_buf_self {f : BufHeader → BufHeader} : (c.set i f).buf i = f (c.buf i) :=
  Function.update_self ..

theorem set_buf_of_ne {f : BufHeader → BufHeader} (h : j ≠ i) : (c.set i f).buf j = c.buf j :=
  Function.update_of_ne h ..

@[simp] theorem set_links {f : BufHeader → BufHeader} : (c.set i f).links = c.links := rfl

/-- The pointers hold the list `l` of all buffers, the buffers released last first. -/
structure Ordered (c : BufCache) (t : Clock) (l : List (Fin nbuf)) : Prop where
  perm : l.Perm (List.finRange nbuf)
  chain : c.links.Chain l
  sorted : l.Pairwise t.Newer

/-- The invariant of the cache. -/
structure Inv (c : BufCache) (t : Clock) : Prop where
  ordered : ∃ l, c.Ordered t l
  past : ∀ i, t.released i ≤ t.now
  unique : ∀ i j, (c.buf i).dev ≠ 0 → (c.buf i).dev = (c.buf j).dev →
    (c.buf i).blockno = (c.buf j).blockno → i = j

variable {l : List (Fin nbuf)}

theorem Ordered.nodup (h : c.Ordered t l) : l.Nodup := h.perm.nodup_iff.2 (List.nodup_finRange _)

theorem Ordered.mem (h : c.Ordered t l) (i : Fin nbuf) : i ∈ l :=
  h.perm.mem_iff.2 (List.mem_finRange i)

theorem Ordered.length_lt (h : c.Ordered t l) : l.length < nbuf + 1 := by
  rw [h.perm.length_eq, List.length_finRange]
  exact Nat.lt_succ_self _

theorem Ordered.lookup_eq (h : c.Ordered t l) : c.lookup dev blockno =
    l.find? fun i => (c.buf i).dev = dev ∧ (c.buf i).blockno = blockno :=
  h.chain.findNext_eq h.length_lt

theorem Ordered.victim_eq (h : c.Ordered t l) :
    c.victim = l.reverse.find? fun i => (c.buf i).refcnt = 0 :=
  h.chain.findPrev_eq h.length_lt

/-- The block is not cached. -/
theorem Ordered.lookup_none (h : c.Ordered t l) (hn : c.lookup dev blockno = none) (i : Fin nbuf) :
    ¬((c.buf i).dev = dev ∧ (c.buf i).blockno = blockno) := by
  rw [h.lookup_eq, List.find?_eq_none] at hn
  simpa using hn i (h.mem i)

/-- The victim is the buffer nearest to the tail without references. -/
theorem Ordered.victim_some (h : c.Ordered t l) (hv : c.victim = some i) :
    (c.buf i).refcnt = 0 ∧ ∃ l₁ l₂, l = l₁ ++ i :: l₂ ∧ ∀ j ∈ l₂, (c.buf j).refcnt ≠ 0 := by
  rw [h.victim_eq, List.find?_eq_some_iff_append] at hv
  obtain ⟨hi, l₁, l₂, hl, hno⟩ := hv
  refine ⟨by simpa using hi, l₂.reverse, l₁.reverse, ?_, fun j hj => ?_⟩
  · rw [← List.reverse_reverse l, hl]
    simp
  · simpa using hno j (List.mem_reverse.1 hj)

/-- It was released before all others without references. -/
theorem Ordered.newer_victim (h : c.Ordered t l) {l₁ l₂ : List (Fin nbuf)}
    (hl : l = l₁ ++ i :: l₂) (hno : ∀ j ∈ l₂, (c.buf j).refcnt ≠ 0) (hj : j ≠ i)
    (hj₀ : (c.buf j).refcnt = 0) : t.Newer j i := by
  have hmem := h.mem j
  rw [hl] at hmem
  have hj₁ : j ∈ l₁ := by
    rcases List.mem_append.1 hmem with hm | hm
    · exact hm
    · rcases List.mem_cons.1 hm with hm | hm
      · exact absurd hm hj
      · exact absurd hj₀ (hno j hm)
  have hs := h.sorted
  rw [hl, List.pairwise_append] at hs
  exact hs.2.2 j hj₁ i List.mem_cons_self

/-! ## The calls -/

/-- A change of a buffer that keeps its block. -/
theorem Inv.set (h : c.Inv t) {f : BufHeader → BufHeader} (hd : (f (c.buf i)).dev = (c.buf i).dev)
    (hb : (f (c.buf i)).blockno = (c.buf i).blockno) : (c.set i f).Inv t := by
  have hsame : ∀ j, ((c.set i f).buf j).dev = (c.buf j).dev ∧
      ((c.set i f).buf j).blockno = (c.buf j).blockno := fun j => by
    by_cases hj : j = i
    · rw [hj, set_buf_self]
      exact ⟨hd, hb⟩
    · rw [set_buf_of_ne hj]
      exact ⟨rfl, rfl⟩
  obtain ⟨l, hl⟩ := h.ordered
  refine ⟨⟨l, hl.perm, hl.chain, hl.sorted⟩, h.past, fun j k => ?_⟩
  rw [(hsame j).1, (hsame j).2, (hsame k).1, (hsame k).2]
  exact h.unique j k

theorem Inv.bget (h : c.Inv t) (hb : c.bget dev blockno = some (i, c')) : c'.Inv t := by
  obtain ⟨l, hl⟩ := h.ordered
  unfold BufCache.bget at hb
  split at hb
  · cases hb
    exact h.set rfl rfl
  · rename_i hnone
    split at hb
    · cases hb
      have hno := hl.lookup_none hnone
      refine ⟨⟨l, hl.perm, hl.chain, hl.sorted⟩, h.past, fun j k => ?_⟩
      by_cases hj : j = i <;> by_cases hk : k = i
      · exact fun _ _ _ => hj.trans hk.symm
      · -- The recycled buffer holds a block that was not cached.
        rw [hj, set_buf_self, set_buf_of_ne hk]
        exact fun _ hd hb => absurd ⟨hd.symm, hb.symm⟩ (hno k)
      · rw [hk, set_buf_self, set_buf_of_ne hj]
        exact fun _ hd hb => absurd ⟨hd, hb⟩ (hno j)
      · rw [set_buf_of_ne hj, set_buf_of_ne hk]
        exact h.unique j k
    · cases hb

/-- The list after a buffer is released for the last time. -/
theorem Ordered.release (h : c.Ordered t l) (hpast : ∀ j, t.released j ≤ t.now) (i : Fin nbuf) :
    ∃ l₁ l₂, l = l₁ ++ i :: l₂ ∧ l.erase i = l₁ ++ l₂ ∧
      ((c.links.unlink i).pushFront i).Chain (i :: (l₁ ++ l₂)) ∧
      (i :: (l₁ ++ l₂)).Perm (List.finRange nbuf) ∧
      (i :: (l₁ ++ l₂)).Pairwise
        (Clock.Newer ⟨t.now + 1, Function.update t.released i (t.now + 1)⟩) := by
  obtain ⟨l₁, l₂, rfl⟩ := List.append_of_mem (h.mem i)
  have hnd := h.nodup
  have hperm : (i :: (l₁ ++ l₂)).Perm (l₁ ++ i :: l₂) := List.perm_middle.symm
  have hnd' : (i :: (l₁ ++ l₂)).Nodup := hperm.nodup_iff.2 hnd
  have hi : i ∉ l₁ ++ l₂ := (List.nodup_cons.1 hnd').1
  have herase : (l₁ ++ i :: l₂).erase i = l₁ ++ l₂ := by
    rw [List.erase_append_right _ fun hc => hi (List.mem_append_left l₂ hc), List.erase_cons_head]
  refine ⟨l₁, l₂, rfl, herase, (h.chain.unlink hnd).pushFront hnd', hperm.trans h.perm, ?_⟩
  have hne : ∀ j ∈ l₁ ++ l₂, j ≠ i := fun j hj hc => hi (hc ▸ hj)
  refine List.pairwise_cons.2 ⟨fun j hj => .inl ?_, ?_⟩
  · have := hpast j
    dsimp only
    rw [Function.update_self, Function.update_of_ne (hne j hj)]
    omega
  · -- The times of the others are the same.
    have hsub : (l₁ ++ l₂).Sublist (l₁ ++ i :: l₂) := (List.sublist_cons_self i l₂).append_left l₁
    refine (h.sorted.sublist hsub).imp_of_mem fun {j k} hj hk hjk => ?_
    simpa only [Clock.Newer, Function.update_of_ne (hne j hj), Function.update_of_ne (hne k hk)]
      using hjk

theorem Inv.brelse (h : c.Inv t) (i : Fin nbuf) :
    (c.brelse i).Inv (t.note c (.brelse i)) := by
  have hset := h.set (i := i) (f := fun x => { x with refcnt := x.refcnt - 1 }) rfl rfl
  obtain ⟨l, hl⟩ := hset.ordered
  obtain ⟨l₁, l₂, -, -, hchain, hperm, hsorted⟩ := hl.release h.past i
  simp only [BufCache.brelse, Clock.note, set_buf_self]
  split
  · refine ⟨⟨_, hperm, hchain, hsorted⟩, fun j => ?_, hset.unique⟩
    dsimp only
    by_cases hj : j = i
    · rw [hj, Function.update_self]
    · rw [Function.update_of_ne hj]
      exact Nat.le_succ_of_le (h.past j)
  · exact hset

theorem Inv.step (h : c.Inv t) {a : BufAct} (hs : c.exec a = some c') : c'.Inv (t.note c a) := by
  cases a with
  | bget dev blockno =>
    obtain ⟨-, hs⟩ := Option.ite_none_right_eq_some.1 hs
    obtain ⟨⟨i, d⟩, hb, rfl⟩ := Option.map_eq_some_iff.1 hs
    exact h.bget hb
  | brelse i =>
    cases hs
    exact h.brelse i
  | bpin i =>
    cases hs
    exact h.set rfl rfl
  | bunpin i =>
    cases hs
    exact h.set rfl rfl

/-- The pointers after `binit` has put the first buffers on the list. -/
theorem chain_foldl (l m : List (Fin nbuf)) (k : Links (Fin nbuf)) (h : k.Chain m)
    (hd : (l.reverse ++ m).Nodup) : (l.foldl Links.pushFront k).Chain (l.reverse ++ m) := by
  induction l generalizing m k with
  | nil => exact h
  | cons i l ih =>
    rw [List.reverse_cons, List.append_assoc] at hd ⊢
    have hi : (i :: m).Nodup := (List.nodup_append'.1 hd).2.1
    exact ih (i :: m) (k.pushFront i) (h.pushFront hi) hd

theorem chain_binit : binit.links.Chain (List.finRange nbuf).reverse := by
  have hnd : ((List.finRange nbuf).reverse ++ []).Nodup := by
    simpa using List.nodup_finRange nbuf
  have hchain := chain_foldl (List.finRange nbuf) [] (.empty _) Links.chain_empty hnd
  rwa [List.append_nil] at hchain

theorem inv_binit : binit.Inv ⟨0, fun _ => 0⟩ := by
  refine ⟨⟨_, List.reverse_perm _, chain_binit, ?_⟩, fun _ => le_rfl, fun i j hi => absurd rfl hi⟩
  rw [List.pairwise_reverse]
  exact (List.pairwise_lt_finRange nbuf).imp fun hij => .inr ⟨rfl, rfl, hij⟩

/-! ## Whole runs -/

/-- How the list stands. -/
structure ListOk (c : BufCache) : Prop where
  /-- The pointers form one circle through the head, with every buffer on it once. -/
  ring : ∃ l : List (Fin nbuf), l.Perm (List.finRange nbuf) ∧ c.links.Chain l
  /-- They are inverse to each other. -/
  inverse : ∀ x, c.links.prev (c.links.next x) = x ∧ c.links.next (c.links.prev x) = x
  unique : ∀ i j, (c.buf i).dev ≠ 0 → (c.buf i).dev = (c.buf j).dev →
    (c.buf i).blockno = (c.buf j).blockno → i = j

/-- The buffer `i` is the next one to be recycled: of the buffers without references it is
    nearest to the tail, and its last release was before those of the others. -/
structure Oldest (t : Clock) (c : BufCache) (i : Fin nbuf) : Prop where
  free : (c.buf i).refcnt = 0
  tail : ∃ l₁ l₂, c.links.Chain (l₁ ++ i :: l₂) ∧ (l₁ ++ i :: l₂).Perm (List.finRange nbuf) ∧
    ∀ j ∈ l₂, (c.buf j).refcnt ≠ 0
  first : ∀ j, j ≠ i → (c.buf j).refcnt = 0 → t.Newer j i

/-- `bget` has given the buffer `i` for a block, and left the cache `c'`. -/
structure GotOk (t : Clock) (c : BufCache) (dev blockno : UInt32) (i : Fin nbuf) (c' : BufCache) :
    Prop where
  others : ∀ j, j ≠ i → c'.buf j = c.buf j
  links : c'.links = c.links
  /-- A buffer that holds the block is the one given, with one more reference. -/
  cached : ∀ j, (c.buf j).dev = dev → (c.buf j).blockno = blockno →
    i = j ∧ c'.buf i = { c.buf i with refcnt := (c.buf i).refcnt + 1 }
  /-- Without one, the oldest buffer without references is recycled. -/
  recycled : (∀ j, ¬((c.buf j).dev = dev ∧ (c.buf j).blockno = blockno)) →
    Oldest t c i ∧ c'.buf i = { valid := false, dev, blockno, refcnt := 1 }

/-- A call leaves the blocks of buffers in use alone; only `bget` changes the block of a
    buffer at all, and then of the oldest one without references. -/
def RecycleOk (t : Clock) (c : BufCache) (a : BufAct) (c' : BufCache) : Prop :=
  (∀ i, (c.buf i).refcnt ≠ 0 → (c'.buf i).dev = (c.buf i).dev ∧
    (c'.buf i).blockno = (c.buf i).blockno) ∧
  match a with
  | .bget dev blockno => ∃ i, c.bget dev blockno = some (i, c') ∧ GotOk t c dev blockno i c'
  | _ => ∀ i, (c'.buf i).dev = (c.buf i).dev ∧ (c'.buf i).blockno = (c.buf i).blockno

theorem Inv.listOk (h : c.Inv t) : c.ListOk := by
  obtain ⟨l, hl⟩ := h.ordered
  exact ⟨⟨l, hl.perm, hl.chain⟩, fun x => ⟨hl.chain.prev_next fun i _ => hl.mem i,
    hl.chain.next_prev fun i _ => hl.mem i⟩, h.unique⟩

theorem set_blocks {f : BufHeader → BufHeader} (hd : (f (c.buf i)).dev = (c.buf i).dev)
    (hb : (f (c.buf i)).blockno = (c.buf i).blockno) (j : Fin nbuf) :
    ((c.set i f).buf j).dev = (c.buf j).dev ∧ ((c.set i f).buf j).blockno = (c.buf j).blockno := by
  by_cases hj : j = i
  · rw [hj, set_buf_self]
    exact ⟨hd, hb⟩
  · rw [set_buf_of_ne hj]
    exact ⟨rfl, rfl⟩

/-- What the pointers lead `bget` to. -/
theorem Inv.gotOk (h : c.Inv t) (hd : dev ≠ 0) (hb : c.bget dev blockno = some (i, c')) :
    GotOk t c dev blockno i c' := by
  obtain ⟨l, hl⟩ := h.ordered
  unfold BufCache.bget at hb
  split at hb
  · rename_i hsome
    cases hb
    have hi : (c.buf i).dev = dev ∧ (c.buf i).blockno = blockno := by
      rw [hl.lookup_eq] at hsome
      simpa using List.find?_some hsome
    refine ⟨fun j hj => set_buf_of_ne hj, rfl, fun j hjd hjb => ⟨?_, set_buf_self⟩,
      fun hno => absurd hi (hno i)⟩
    exact h.unique i j (hi.1 ▸ hd) (hi.1.trans hjd.symm) (hi.2.trans hjb.symm)
  · rename_i hnone
    split at hb
    · rename_i hv
      cases hb
      obtain ⟨hi₀, l₁, l₂, hl', hno⟩ := hl.victim_some hv
      refine ⟨fun j hj => set_buf_of_ne hj, rfl,
        fun j hjd hjb => absurd ⟨hjd, hjb⟩ (hl.lookup_none hnone j), fun _ => ⟨⟨hi₀, ?_, ?_⟩,
        set_buf_self⟩⟩
      · exact ⟨l₁, l₂, hl' ▸ hl.chain, hl' ▸ hl.perm, hno⟩
      · exact fun j hj hj₀ => hl.newer_victim hl' hno hj hj₀
    · cases hb

/-- A recycled buffer had no references. -/
theorem GotOk.blocks (h : GotOk t c dev blockno i c') (hj : (c.buf j).refcnt ≠ 0) :
    (c'.buf j).dev = (c.buf j).dev ∧ (c'.buf j).blockno = (c.buf j).blockno := by
  by_cases hji : j = i
  · subst hji
    by_cases hc : ∃ k, (c.buf k).dev = dev ∧ (c.buf k).blockno = blockno
    · obtain ⟨k, hkd, hkb⟩ := hc
      rw [(h.cached k hkd hkb).2]
      exact ⟨rfl, rfl⟩
    · exact absurd (h.recycled fun k hk => hc ⟨k, hk⟩).1.free hj
  · rw [h.others j hji]
    exact ⟨rfl, rfl⟩

theorem Inv.recycleOk (h : c.Inv t) {a : BufAct} (hs : c.exec a = some c') :
    RecycleOk t c a c' := by
  cases a with
  | bget dev blockno =>
    obtain ⟨hd, hs⟩ := Option.ite_none_right_eq_some.1 hs
    obtain ⟨⟨i, d⟩, hb, rfl⟩ := Option.map_eq_some_iff.1 hs
    have hgot := h.gotOk hd hb
    exact ⟨fun j hj => hgot.blocks hj, i, hb, hgot⟩
  | brelse i =>
    cases hs
    have hsame : ∀ j, ((c.brelse i).buf j).dev = (c.buf j).dev ∧
        ((c.brelse i).buf j).blockno = (c.buf j).blockno := fun j => by
      have hset := set_blocks (c := c) (i := i) (f := fun x => { x with refcnt := x.refcnt - 1 })
        rfl rfl j
      unfold BufCache.brelse
      dsimp only
      split <;> exact hset
    exact ⟨fun j _ => hsame j, hsame⟩
  | bpin i =>
    cases hs
    exact ⟨fun j _ => set_blocks rfl rfl j, fun j => set_blocks rfl rfl j⟩
  | bunpin i =>
    cases hs
    exact ⟨fun j _ => set_blocks rfl rfl j, fun j => set_blocks rfl rfl j⟩

end BufCache

/-- **The list of buffers.** In every run after `binit`. -/
theorem bufCache_list {c₀ : BufCache} {tr : List (BufAct × BufCache)} (h₀ : c₀ ∈ bufSystem.init)
    (h : bufSystem.Run c₀ tr) :
    System.Throughout BufCache.ListOk c₀ tr ∧
      System.StepsWith Clock.note ⟨0, fun _ => 0⟩ BufCache.RecycleOk c₀ tr := by
  obtain rfl : c₀ = .binit := h₀
  have hC : System.Along (fun _ _ => True) .binit tr := System.along_of_forall (fun _ _ => trivial) _ _
  have hkeep : ∀ c a c' t, c.Inv t → bufSystem.step c a c' → True → c'.Inv (t.note c a) :=
    fun c a c' t hc hs _ => hc.step hs
  refine ⟨?_, (h.stepsWith_iff (R := BufCache.Inv) BufCache.inv_binit hkeep
    (fun c a c' t hc hs _ => hc.recycleOk hs) fun c a c' t _ _ hn => absurd trivial hn).2 hC⟩
  induction h with
  | nil => exact BufCache.inv_binit.listOk
  | cons hrun hstep ih =>
    have hinv := (hrun.cons hstep).invariant_history (R := BufCache.Inv) BufCache.inv_binit hkeep hC
    exact ⟨hinv.listOk, ih hC.2⟩

/-- All buffers are in use; two are released, and the one released first is got and released
    again. The next block then goes to the other one. -/
theorem bufCache_list_recycle : ∃ tr, bufSystem.Run .binit tr ∧
    ((System.last .binit tr).bget 1 77).map Prod.fst = some 4 ∧
    System.Throughout BufCache.ListOk .binit tr ∧
      System.StepsWith Clock.note ⟨0, fun _ => 0⟩ BufCache.RecycleOk .binit tr := by
  obtain ⟨tr, hrun, hP⟩ := System.exists_run (m := bufSystem) (fun _ _ _ hs => hs) .binit
    ((List.range nbuf).map (fun k => .bget 1 (.ofNat k)) ++
      [.brelse 9, .brelse 4, .bget 1 9, .brelse 9])
    (fun tr => ((System.last .binit tr).bget 1 77).map Prod.fst = some 4)
    (by decide +kernel)
  exact ⟨tr, hrun, of_decide_eq_true hP, bufCache_list rfl hrun⟩

/-! ## The list as a list -/

namespace BufCache

/-- The cache of `Xv6.Bio` that the buffers and their pointers stand for. -/
structure Abstracts (c : BufCache) (b : Bcache) : Prop where
  ring : ∃ l : List (Fin nbuf), l.Perm (List.finRange nbuf) ∧ c.links.Chain l ∧
    b.lru = l.map Fin.val
  valid : ∀ i, (b.buf i.val).valid = (c.buf i).valid
  dev : ∀ i, (b.buf i.val).dev = (c.buf i).dev.toNat
  blockno : ∀ i, (b.buf i.val).blockno = (c.buf i).blockno.toNat
  refcnt : ∀ i, (b.buf i.val).refcnt = (c.buf i).refcnt.toNat

variable {c c' : BufCache} {b : Bcache} {i : Fin nbuf} {dev blockno : UInt32}

/-- A search of the list, in either cache. -/
theorem find?_map_val {l : List (Fin nbuf)} {p : ℕ → Bool} {q : Fin nbuf → Bool}
    (h : ∀ i : Fin nbuf, p i.val = q i) : (l.map Fin.val).find? p = (l.find? q).map Fin.val := by
  rw [List.find?_map]
  congr 1
  exact congrArg (List.find? · l) (funext h)

theorem Abstracts.lookup (h : Abstracts c b) :
    b.lookup dev.toNat blockno.toNat = (c.lookup dev blockno).map Fin.val := by
  obtain ⟨l, hperm, hchain, hl⟩ := h.ring
  have hlen : l.length < nbuf + 1 := by
    rw [hperm.length_eq, List.length_finRange]
    exact Nat.lt_succ_self _
  rw [Bcache.lookup, hl, BufCache.lookup, hchain.findNext_eq hlen]
  refine find?_map_val fun i => ?_
  simp only [Bcache.Holds, h.dev, h.blockno, UInt32.toNat_inj]

theorem Abstracts.victim (h : Abstracts c b) : b.victim = c.victim.map Fin.val := by
  obtain ⟨l, hperm, hchain, hl⟩ := h.ring
  have hlen : l.length < nbuf + 1 := by
    rw [hperm.length_eq, List.length_finRange]
    exact Nat.lt_succ_self _
  rw [Bcache.victim, hl, BufCache.victim, hchain.findPrev_eq hlen, ← List.map_reverse]
  refine find?_map_val fun i => ?_
  simp only [h.refcnt, ← UInt32.toNat_inj, UInt32.toNat_zero]

/-- A buffer changes in the same way in both. -/
theorem Abstracts.set (h : Abstracts c b) {f : BufHeader → BufHeader} {g : Buf → Buf}
    (hv : (g (b.buf i.val)).valid = (f (c.buf i)).valid)
    (hd : (g (b.buf i.val)).dev = (f (c.buf i)).dev.toNat)
    (hb : (g (b.buf i.val)).blockno = (f (c.buf i)).blockno.toNat)
    (hr : (g (b.buf i.val)).refcnt = (f (c.buf i)).refcnt.toNat) :
    Abstracts (c.set i f) (b.set i.val g) := by
  have hne : ∀ {j : Fin nbuf}, j ≠ i → j.val ≠ i.val := fun hj hc => hj (Fin.ext hc)
  refine ⟨h.ring, fun j => ?_, fun j => ?_, fun j => ?_, fun j => ?_⟩ <;> by_cases hj : j = i
  · rwa [hj, set_buf_self, Bcache.set_buf_self]
  · rw [set_buf_of_ne hj, Bcache.set_buf_of_ne _ _ (hne hj), h.valid]
  · rwa [hj, set_buf_self, Bcache.set_buf_self]
  · rw [set_buf_of_ne hj, Bcache.set_buf_of_ne _ _ (hne hj), h.dev]
  · rwa [hj, set_buf_self, Bcache.set_buf_self]
  · rw [set_buf_of_ne hj, Bcache.set_buf_of_ne _ _ (hne hj), h.blockno]
  · rwa [hj, set_buf_self, Bcache.set_buf_self]
  · rw [set_buf_of_ne hj, Bcache.set_buf_of_ne _ _ (hne hj), h.refcnt]

theorem toNat_add_one {n : UInt32} (h : n.toNat + 1 < 2 ^ 32) : (n + 1).toNat = n.toNat + 1 := by
  rw [UInt32.toNat_add]
  exact Nat.mod_eq_of_lt h

theorem toNat_sub_one {n : UInt32} (h : 0 < n.toNat) : (n - 1).toNat = n.toNat - 1 :=
  UInt32.toNat_sub_of_le _ _ (UInt32.le_iff_toNat_le.2 h)

/-- As long as its count does not wrap, a buffer is pinned as in `Xv6.Bio`. -/
theorem abstracts_bpin (h : Abstracts c b) (hi : (c.buf i).refcnt.toNat + 1 < 2 ^ 32) :
    Abstracts (c.bpin i) (b.bpin i.val) := by
  refine h.set (h.valid i) (h.dev i) (h.blockno i) ?_
  rw [toNat_add_one hi, h.refcnt]

theorem abstracts_bunpin (h : Abstracts c b) (hi : 0 < (c.buf i).refcnt.toNat) :
    Abstracts (c.bunpin i) (b.bunpin i.val) := by
  refine h.set (h.valid i) (h.dev i) (h.blockno i) ?_
  rw [toNat_sub_one hi, h.refcnt]

/-- `bget` follows the pointers to the buffer that the list gives. -/
theorem abstracts_bget (h : Abstracts c b) (hc : ∀ i, (c.buf i).refcnt.toNat + 1 < 2 ^ 32)
    (hb : c.bget dev blockno = some (i, c')) :
    ∃ b', b.bget dev.toNat blockno.toNat = some (i.val, b') ∧ Abstracts c' b' := by
  unfold BufCache.bget at hb
  unfold Bcache.bget
  rw [h.lookup, h.victim]
  split at hb
  · rename_i j hj
    cases hb
    rw [hj]
    exact ⟨_, rfl, abstracts_bpin h (hc i)⟩
  · rename_i hnone
    split at hb
    · rename_i v hv
      cases hb
      rw [hnone, hv]
      exact ⟨_, rfl, h.set rfl rfl rfl rfl⟩
    · cases hb

/-- `brelse` moves the buffer to the front of the list. -/
theorem abstracts_brelse (h : Abstracts c b) (hi : 0 < (c.buf i).refcnt.toNat) :
    Abstracts (c.brelse i) (b.brelse i.val) := by
  have hset := abstracts_bunpin h hi
  have href : ((c.buf i).refcnt - 1 = 0) ↔ (b.buf i.val).refcnt - 1 = 0 := by
    rw [← UInt32.toNat_inj, toNat_sub_one hi, h.refcnt]
    rfl
  simp only [BufCache.brelse, Bcache.brelse, set_buf_self, Bcache.set_buf_self]
  by_cases h₀ : (c.buf i).refcnt - 1 = 0
  · rw [if_pos h₀, if_pos (href.1 h₀)]
    obtain ⟨l, hperm, hchain, hl⟩ := h.ring
    have hnd : l.Nodup := hperm.nodup_iff.2 (List.nodup_finRange _)
    obtain ⟨l₁, l₂, rfl⟩ := List.append_of_mem (hperm.mem_iff.2 (List.mem_finRange i))
    have hmid : (i :: (l₁ ++ l₂)).Perm (l₁ ++ i :: l₂) := List.perm_middle.symm
    have hnd' := hmid.nodup_iff.2 hnd
    have hi₁ : i.val ∉ l₁.map Fin.val := fun hm => by
      obtain ⟨j, hj, hji⟩ := List.mem_map.1 hm
      exact (List.nodup_cons.1 hnd').1 (List.mem_append_left l₂ (Fin.ext hji ▸ hj))
    refine ⟨⟨_, hmid.trans hperm, (hchain.unlink hnd).pushFront hnd', ?_⟩, hset.valid, hset.dev,
      hset.blockno, hset.refcnt⟩
    rw [Bcache.set_lru, hl]
    simp [List.erase_append_right _ hi₁]
  · rw [if_neg h₀, if_neg fun hc => h₀ (href.2 hc)]
    exact hset

theorem abstracts_binit : Abstracts binit .binit := by
  refine ⟨⟨_, List.reverse_perm _, chain_binit, ?_⟩, fun _ => rfl, fun _ => rfl, fun _ => rfl, fun _ => rfl⟩
  rw [List.map_reverse, List.map_coe_finRange_eq_range]
  rfl

end BufCache

/-- The calls on the cache of `Xv6.Bio`. -/
def Bcache.exec (b : Bcache) : BufAct → Option Bcache
  | .bget dev blockno =>
    if dev ≠ 0 then (b.bget dev.toNat blockno.toNat).map Prod.snd else none
  | .brelse i => some (b.brelse i)
  | .bpin i => some (b.bpin i)
  | .bunpin i => some (b.bunpin i)

/-- The system of the cache with the list as a list. -/
def bcacheSystem : System Bcache BufAct where
  init := {.binit}
  step b a b' := b.exec a = some b'

/-- No count wraps: a reference that is dropped was taken, and there are less than `2 ^ 32`. -/
def BufCache.Counted (c : BufCache) : BufAct → Prop
  | .bget _ _ => ∀ i, (c.buf i).refcnt.toNat + 1 < 2 ^ 32
  | .brelse i => 0 < (c.buf i).refcnt.toNat
  | .bpin i => (c.buf i).refcnt.toNat + 1 < 2 ^ 32
  | .bunpin i => 0 < (c.buf i).refcnt.toNat

theorem BufCache.Abstracts.step {c c' : BufCache} {b : Bcache} {a : BufAct} (h : c.Abstracts b)
    (hs : c.exec a = some c') (hc : c.Counted a) : ∃ b', b.exec a = some b' ∧ c'.Abstracts b' := by
  cases a with
  | bget dev blockno =>
    obtain ⟨hd, hs⟩ := Option.ite_none_right_eq_some.1 hs
    obtain ⟨⟨i, d⟩, hb, rfl⟩ := Option.map_eq_some_iff.1 hs
    obtain ⟨b', hb', hA⟩ := abstracts_bget h hc hb
    exact ⟨b', by rw [Bcache.exec, if_pos hd, hb', Option.map_some], hA⟩
  | brelse i =>
    cases hs
    exact ⟨_, rfl, abstracts_brelse h hc⟩
  | bpin i =>
    cases hs
    exact ⟨_, rfl, abstracts_bpin h hc⟩
  | bunpin i =>
    cases hs
    exact ⟨_, rfl, abstracts_bunpin h hc⟩

/-- Every run on the pointers is a run on the list, as long as no count wraps. -/
theorem bufCache_simulated {tr : List (BufAct × BufCache)} (h : bufSystem.Run .binit tr)
    (hc : System.Along BufCache.Counted .binit tr) :
    ∃ tr', bcacheSystem.Run .binit tr' ∧ tr'.map Prod.fst = tr.map Prod.fst ∧
      (System.last .binit tr).Abstracts (System.last .binit tr') :=
  h.simulates BufCache.abstracts_binit (fun _ _ _ _ hA hs hC => hA.step hs hC) hc

end Xv6
