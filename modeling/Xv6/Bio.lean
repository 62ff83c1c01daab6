import Mathlib
import Xv6.Param

/-!
# The buffer cache

`bio.c` keeps `nbuf` buffers on a list ordered by recent use. Here the buffers
are numbered, and the list (`Bcache.lru`, from `head.next` to `head.prev`) is a
list of their numbers. The functions below are the critical sections of the
code under `bcache.lock`:

* `Bcache.bget`: find the buffer of a block, or recycle the least recently used
  buffer that nobody references;
* `Bcache.brelse`: drop a reference, moving the buffer to the front of the list
  when it was the last one;
* `Bcache.bpin` and `Bcache.bunpin`: take and drop a reference without locking
  the buffer.

A cache is well formed (`Bcache.Wf`) when the list holds every buffer once and
no two buffers hold the same block.
-/

namespace Xv6

/-- A buffer (`struct buf`): a copy of a disk block, with its sleep lock. -/
structure Buf where
  /-- Has the data been read from the disk? -/
  valid : Bool
  dev : ℕ
  blockno : ℕ
  /-- The state of the sleep lock. -/
  locked : Bool
  refcnt : ℕ
  data : Block

/-- The buffer cache (`bcache`): the buffers, and their list. -/
structure Bcache where
  buf : ℕ → Buf
  /-- The buffers from the most to the least recently used. -/
  lru : List ℕ

namespace Bcache

/-- The cache as `binit` leaves it: each buffer in turn was put at the front of
    the list. -/
def binit : Bcache where
  buf _ := { valid := false, dev := 0, blockno := 0, locked := false, refcnt := 0, data := .fill 0 }
  lru := (List.range nbuf).reverse

variable (c : Bcache)

/-- The buffer `i` is that of the block `b` of `dev`. -/
def Holds (dev b i : ℕ) : Prop := (c.buf i).dev = dev ∧ (c.buf i).blockno = b

instance (dev b i : ℕ) : Decidable (c.Holds dev b i) := inferInstanceAs (Decidable (_ ∧ _))

/-- The cache with the buffer `i` changed by `f`. -/
def set (i : ℕ) (f : Buf → Buf) : Bcache :=
  { c with buf := Function.update c.buf i (f (c.buf i)) }

/-- The first loop of `bget`: the buffer of a block, if it is cached. -/
def lookup (dev b : ℕ) : Option ℕ := c.lru.find? fun i => c.Holds dev b i

/-- The second loop of `bget`: the least recently used buffer not in use. -/
def victim : Option ℕ := c.lru.reverse.find? fun i => (c.buf i).refcnt = 0

/-- A reference to the buffer of a block: cached, or recycled for it; `none`
    when `bget` panics. -/
def bget (dev b : ℕ) : Option (ℕ × Bcache) :=
  match c.lookup dev b with
  | some i => some (i, c.set i fun x => { x with refcnt := x.refcnt + 1 })
  | none =>
    match c.victim with
    | some i =>
      some (i, c.set i fun x => { x with dev := dev, blockno := b, valid := false, refcnt := 1 })
    | none => none

/-- Dropping a reference, as `brelse` does. -/
def brelse (i : ℕ) : Bcache :=
  let c' := c.set i fun x => { x with refcnt := x.refcnt - 1 }
  if (c'.buf i).refcnt = 0 then { c' with lru := i :: c'.lru.erase i } else c'

/-- Pinning a buffer in the cache. -/
def bpin (i : ℕ) : Bcache := c.set i fun x => { x with refcnt := x.refcnt + 1 }

/-- Unpinning a buffer. -/
def bunpin (i : ℕ) : Bcache := c.set i fun x => { x with refcnt := x.refcnt - 1 }

@[simp] theorem set_lru (i : ℕ) (f : Buf → Buf) : (c.set i f).lru = c.lru := rfl

@[simp] theorem set_buf_self (i : ℕ) (f : Buf → Buf) : (c.set i f).buf i = f (c.buf i) := by
  simp [set]

theorem set_buf_of_ne {i j : ℕ} (f : Buf → Buf) (h : j ≠ i) : (c.set i f).buf j = c.buf j := by
  simp [set, h]

@[simp] theorem set_id (i : ℕ) : c.set i id = c := by
  simp [set]

@[simp] theorem brelse_buf (i : ℕ) :
    (c.brelse i).buf = (c.set i fun x => { x with refcnt := x.refcnt - 1 }).buf := by
  unfold brelse
  dsimp only
  split <;> rfl

/-- What `bget` returns: the buffer of the block, or if there is none, a buffer
    without references, recycled. -/
theorem bget_cases {dev b i : ℕ} {c' : Bcache} (h : c.bget dev b = some (i, c')) :
    i ∈ c.lru ∧
      ((c.Holds dev b i ∧ c' = c.set i fun x => { x with refcnt := x.refcnt + 1 }) ∨
        ((∀ j ∈ c.lru, ¬c.Holds dev b j) ∧ (c.buf i).refcnt = 0 ∧
          c' = c.set i fun x =>
            { x with dev := dev, blockno := b, valid := false, refcnt := 1 })) := by
  unfold bget at h
  split at h
  · rename_i j hj
    obtain ⟨rfl, rfl⟩ : j = i ∧ _ = c' := by simpa using h
    exact ⟨List.mem_of_find?_eq_some hj, .inl ⟨by simpa using List.find?_some hj, rfl⟩⟩
  · rename_i hnone
    split at h
    · rename_i j hj
      obtain ⟨rfl, rfl⟩ : j = i ∧ _ = c' := by simpa using h
      refine ⟨by simpa using List.mem_of_find?_eq_some hj, .inr ⟨?_, ?_, rfl⟩⟩
      · simpa [lookup, List.find?_eq_none] using hnone
      · simpa using List.find?_some hj
    · cases h

/-- `bget` panics only when every buffer is in use. -/
theorem bget_eq_none {dev b : ℕ} (h : c.bget dev b = none) :
    (∀ j ∈ c.lru, ¬c.Holds dev b j) ∧ ∀ j ∈ c.lru, (c.buf j).refcnt ≠ 0 := by
  unfold bget at h
  split at h
  · cases h
  · rename_i hnone
    split at h
    · cases h
    · rename_i hv
      exact ⟨by simpa [lookup, List.find?_eq_none] using hnone,
        by simpa [victim, List.find?_eq_none] using hv⟩

/-- A well-formed cache: the list holds every buffer once, and no two buffers
    hold the same block (device `0` marks a buffer never used). -/
structure Wf : Prop where
  perm : c.lru.Perm (List.range nbuf)
  unique : ∀ i ∈ c.lru, ∀ j ∈ c.lru, (c.buf i).dev ≠ 0 → (c.buf i).dev = (c.buf j).dev →
    (c.buf i).blockno = (c.buf j).blockno → i = j

theorem wf_binit : binit.Wf where
  perm := List.reverse_perm _
  unique _ _ _ _ h := absurd rfl h

variable {c}

theorem Wf.mem_lru (h : c.Wf) {i : ℕ} : i ∈ c.lru ↔ i < nbuf := by
  rw [h.perm.mem_iff, List.mem_range]

theorem Wf.eq_of_holds (h : c.Wf) {dev b i j : ℕ} (hd : dev ≠ 0) (hi : i ∈ c.lru) (hj : j ∈ c.lru)
    (hib : c.Holds dev b i) (hjb : c.Holds dev b j) : i = j :=
  h.unique i hi j hj (hib.1 ▸ hd) (hib.1.trans hjb.1.symm) (hib.2.trans hjb.2.symm)

/-- A change that keeps the block of a buffer keeps the cache well formed. -/
theorem Wf.set (h : c.Wf) (i : ℕ) {f : Buf → Buf} (hd : (f (c.buf i)).dev = (c.buf i).dev)
    (hb : (f (c.buf i)).blockno = (c.buf i).blockno) : (c.set i f).Wf := by
  have key : ∀ j, ((c.set i f).buf j).dev = (c.buf j).dev ∧
      ((c.set i f).buf j).blockno = (c.buf j).blockno := fun j => by
    by_cases hj : j = i
    · subst hj; simp [hd, hb]
    · simp [set_buf_of_ne _ _ hj]
  refine ⟨h.perm, fun j hj k hk => ?_⟩
  rw [(key j).1, (key j).2, (key k).1, (key k).2]
  exact h.unique j hj k hk

theorem lru_brelse_perm {i : ℕ} (hi : i ∈ c.lru) : (c.brelse i).lru.Perm c.lru := by
  unfold brelse
  dsimp only
  split
  · exact (List.perm_cons_erase hi).symm
  · exact .refl _

theorem Wf.brelse (h : c.Wf) {i : ℕ} (hi : i ∈ c.lru) : (c.brelse i).Wf := by
  have hset := h.set i (f := fun x => { x with refcnt := x.refcnt - 1 }) rfl rfl
  have hperm := lru_brelse_perm hi
  refine ⟨hperm.trans h.perm, fun j hj k hk => ?_⟩
  rw [brelse_buf]
  exact hset.unique j (hperm.mem_iff.1 hj) k (hperm.mem_iff.1 hk)

/-- Unlocking a buffer and dropping the reference to it, as all of `brelse`. -/
theorem release_buf_self (i : ℕ) :
    ((c.set i fun x => { x with locked := false }).brelse i).buf i =
      { c.buf i with locked := false, refcnt := (c.buf i).refcnt - 1 } := by
  simp

theorem release_buf_of_ne {i j : ℕ} (h : j ≠ i) :
    ((c.set i fun x => { x with locked := false }).brelse i).buf j = c.buf j := by
  simp [set_buf_of_ne _ _ h]

theorem Wf.release (h : c.Wf) {i : ℕ} (hi : i ∈ c.lru) :
    ((c.set i fun x => { x with locked := false }).brelse i).Wf :=
  (h.set i (f := fun x => { x with locked := false }) rfl rfl).brelse hi

theorem Wf.bget (h : c.Wf) {dev b i : ℕ} {c' : Bcache} (hc : c.bget dev b = some (i, c')) :
    c'.Wf := by
  obtain ⟨hi, ⟨_, rfl⟩ | ⟨hnone, _, rfl⟩⟩ := c.bget_cases hc
  · exact h.set i rfl rfl
  · refine ⟨h.perm, fun j hj k hk => ?_⟩
    by_cases hji : j = i <;> by_cases hki : k = i
    · exact fun _ _ _ => hji.trans hki.symm
    · -- The recycled buffer holds a block that was not cached.
      subst hji
      rw [set_buf_self, set_buf_of_ne _ _ hki]
      exact fun _ hd hb => absurd ⟨hd.symm, hb.symm⟩ (hnone k hk)
    · subst hki
      rw [set_buf_self, set_buf_of_ne _ _ hji]
      exact fun _ hd hb => absurd ⟨hd, hb⟩ (hnone j hj)
    · rw [set_buf_of_ne _ _ hji, set_buf_of_ne _ _ hki]
      exact h.unique j hj k hk

end Bcache

end Xv6
