import Mathlib
import Xv6.Lib.Writes
import Xv6.Param

/-!
# The log on the disk

The log is a header block, naming the home blocks of a transaction, followed by
the contents logged for them. The header block overlays a `struct logheader`:
the number `n` of logged blocks, and their numbers `block[0..n)`; the rest of
the block is whatever earlier, larger transactions left there.

A header is read back as it was stored (`LogHeader.load_store`). The disk as a
recovery leaves it, `recovered`, is what a disk *means*: the home blocks of the
transaction in the log have their logged contents.
-/

namespace Xv6

/-- The value of 32 bits read as an `int`. -/
def toInt32 (v : ℕ) : ℤ := if v < 2 ^ 31 then v else v - 2 ^ 32

/-- The header of the log (`struct logheader`). A negative count on the disk
    runs no iteration of any loop: it counts as `0`. -/
structure LogHeader where
  n : ℕ
  block : ℕ → ℕ

namespace LogHeader

/-- The count stored in a header block. -/
def countOf (blk : Block) : ℕ := (toInt32 (blk.getLE 4 0)).toNat

/-- The block number stored at index `i` of a header block. -/
def blockOf (blk : Block) (i : ℕ) : ℕ := blk.getLE 4 (4 + 4 * i)

/-- The header `lh` overwritten with what a header block holds. -/
def load (lh : LogHeader) (blk : Block) : LogHeader where
  n := countOf blk
  block i := if i < countOf blk then blockOf blk i else lh.block i

/-- A header block overwritten with `lh`. -/
def store (lh : LogHeader) (blk : Block) : Block :=
  (List.range lh.n).foldl (fun b i => b.putLE 4 (4 + 4 * i) (lh.block i)) (blk.putLE 4 0 lh.n)

/-- Storing block numbers leaves the fields before them alone, and at every
    index stores the number, for as long as they fit in the block. -/
theorem getLE_foldl_putLE (f : ℕ → ℕ) (blk : Block) (k : ℕ) (hk : 4 + 4 * k ≤ bsize) :
    ((List.range k).foldl (fun b i => b.putLE 4 (4 + 4 * i) (f i)) blk).getLE 4 0 =
        blk.getLE 4 0 ∧
      ∀ j < k, ((List.range k).foldl (fun b i => b.putLE 4 (4 + 4 * i) (f i)) blk).getLE 4
        (4 + 4 * j) = f j % 256 ^ 4 := by
  induction k with
  | zero => exact ⟨rfl, fun j hj => absurd hj (Nat.not_lt_zero j)⟩
  | succ k ih =>
    obtain ⟨ih₀, ih₁⟩ := ih (by omega)
    rw [List.range_succ, List.foldl_append, List.foldl_cons, List.foldl_nil]
    refine ⟨by rw [Bytes.getLE_putLE_disjoint _ _ (by omega), ih₀], fun j hj => ?_⟩
    rcases Nat.lt_succ_iff_lt_or_eq.1 hj with hj' | rfl
    · rw [Bytes.getLE_putLE_disjoint _ _ (by omega), ih₁ j hj']
    · exact Bytes.getLE_putLE_self _ _ (by omega)

variable {lh : LogHeader}

/-- The count of a stored header. -/
theorem countOf_store (hn : lh.n ≤ logBlocks) (blk : Block) : countOf (lh.store blk) = lh.n := by
  have hn' : lh.n ≤ 30 := hn
  have h : (lh.store blk).getLE 4 0 = lh.n := by
    rw [store, (getLE_foldl_putLE lh.block _ lh.n (by simp only [bsize]; omega)).1,
      Bytes.getLE_putLE_self _ _ (by simp only [bsize]; omega), Nat.mod_eq_of_lt (by omega)]
  rw [countOf, h, toInt32, if_pos (by omega), Int.toNat_natCast]

/-- The block numbers of a stored header. -/
theorem blockOf_store (hn : lh.n ≤ logBlocks) (blk : Block) {i : ℕ} (hi : i < lh.n)
    (hb : lh.block i < 2 ^ 32) : blockOf (lh.store blk) i = lh.block i := by
  have hn' : lh.n ≤ 30 := hn
  rw [blockOf, store,
    (getLE_foldl_putLE lh.block _ lh.n (by simp only [bsize]; omega)).2 i hi,
    Nat.mod_eq_of_lt (by omega)]

/-- A header is read back as it was stored. -/
theorem load_store (hn : lh.n ≤ logBlocks) (hb : ∀ i < lh.n, lh.block i < 2 ^ 32)
    (lh' : LogHeader) (blk : Block) :
    (lh'.load (lh.store blk)).n = lh.n ∧
      ∀ i < lh.n, (lh'.load (lh.store blk)).block i = lh.block i := by
  refine ⟨countOf_store hn blk, fun i hi => ?_⟩
  simp only [load]
  rw [if_pos (by rwa [countOf_store hn]), blockOf_store hn blk hi (hb i hi)]

end LogHeader

/-- The block `b` is in the log area that starts at block `start`: the header
    and the `logBlocks` blocks after it. -/
def InLog (start b : ℕ) : Prop := start ≤ b ∧ b ≤ start + logBlocks

instance (start b : ℕ) : Decidable (InLog start b) := inferInstanceAs (Decidable (_ ∧ _))

/-- The writes that install the transaction in the log of the disk `d`: the
    logged contents, to their home blocks. -/
def logWrites (start : ℕ) (d : Disk) : List (ℕ × Block) :=
  (List.range (LogHeader.countOf (d start))).map fun i =>
    (LogHeader.blockOf (d start) i, d (start + i + 1))

/-- The disk with the transaction in its log installed. -/
def recovered (start : ℕ) (d : Disk) : Disk := applyWrites (logWrites start d) d

/-- The log of the disk `d` is well formed: it fits its area, and its home
    blocks lie outside it. -/
structure LogWf (start : ℕ) (d : Disk) : Prop where
  count_le : LogHeader.countOf (d start) ≤ logBlocks
  home : ∀ i < LogHeader.countOf (d start), ¬InLog start (LogHeader.blockOf (d start) i)

variable {start : ℕ} {d : Disk}

theorem not_mem_logWrites (h : LogWf start d) {b : ℕ} (hb : InLog start b) :
    ∀ w ∈ logWrites start d, w.1 ≠ b := by
  rintro w hw rfl
  obtain ⟨i, hi, rfl⟩ := List.mem_map.1 hw
  exact h.home i (List.mem_range.1 hi) hb

/-- The transaction in the log only depends on the log. -/
theorem logWrites_congr {d' : Disk} (h : ∀ b, InLog start b → d' b = d b)
    (hc : LogHeader.countOf (d start) ≤ logBlocks) :
    logWrites start d' = logWrites start d := by
  have h₀ : d' start = d start := h start ⟨Nat.le_refl _, Nat.le_add_right _ _⟩
  rw [logWrites, logWrites, h₀]
  refine List.map_congr_left fun i hi => ?_
  rw [List.mem_range] at hi
  rw [h (start + i + 1) ⟨by omega, by omega⟩]

/-- A log whose header says `0` holds no transaction. -/
theorem recovered_of_count_eq_zero (h : LogHeader.countOf (d start) = 0) :
    recovered start d = d := by
  rw [recovered, logWrites, h]
  rfl

/-- Installing some of the transaction does not change what the disk means. -/
theorem recovered_applyWrites_take (h : LogWf start d) (k : ℕ) :
    recovered start (applyWrites ((logWrites start d).take k) d) = recovered start d := by
  have hlog : ∀ b, InLog start b → applyWrites ((logWrites start d).take k) d b = d b :=
    fun b hb => applyWrites_of_not_mem fun w hw =>
      not_mem_logWrites h hb w (List.mem_of_mem_take hw)
  rw [recovered, logWrites_congr hlog h.count_le, applyWrites_take, recovered]

end Xv6
