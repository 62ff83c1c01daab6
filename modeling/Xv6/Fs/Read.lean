import Xv6.Fs.Table

/-!
# Reading from an inode

`readi` finds the blocks with `bmap`, which would allocate those that are missing. If the file
has no holes none is missing, and `readi` changes nothing.
-/

namespace Xv6

namespace Fs

variable {sb : Superblock} {s t : Fs} {ip : Fin ninode} {bn off n : ℕ} {dst : ℕ → Bool}
  {E : FsPanic → Fs → Prop}

/-- A block below the size is missing in no file. -/
def Full (sb : Superblock) (s : Fs) (ip : Fin ninode) : Prop :=
  ∀ bn, bn * bsize < (s.inode ip).d.size → s.places sb ip ((s.inode ip).inum, slotOf bn) ≠ 0

/-- The bytes of the file of the inode `ip`, from `off` on. -/
def slice (sb : Superblock) (s : Fs) (ip : Fin ninode) (off n : ℕ) : List UInt8 :=
  (List.range n).map fun k => s.byte sb ip (s.inode ip).inum (off + k)

theorem slice_add (sb : Superblock) (s : Fs) (ip : Fin ninode) (off m n : ℕ) :
    s.slice sb ip off (m + n) = s.slice sb ip off m ++ s.slice sb ip (off + m) n := by
  simp only [slice, List.range_add, List.map_append, List.map_map]
  congr 1
  apply List.map_congr_left
  intro k _
  rw [Function.comp, Nat.add_assoc]

/-- An inode with a block is allocated. -/
theorem alloced_of_places {sl : FileSlot} (h : s.places sb ip ((s.inode ip).inum, sl) ≠ 0) :
    Alloced sb (s.view sb ip) (s.inode ip).inum := by
  by_contra ha
  exact h (stored_of_not_alloced ha sl)

/-- `bmap` returns a block that is there. -/
theorem wp_bmap_of_ne {Q : ℕ → Fs → Prop}
    (hne : s.places sb ip ((s.inode ip).inum, slotOf bn) ≠ 0)
    (hQ : Q (s.places sb ip ((s.inode ip).inum, slotOf bn)) s) : wp (bmap sb ip bn) Q E s := by
  have ha := alloced_of_places hne
  unfold bmap
  split
  next hd =>
    have hslot : slotOf bn = .addr ⟨bn, by omega⟩ := dif_pos hd
    rw [hslot] at hne hQ
    rw [places, stored_addr ha, view_self] at hne hQ
    simp only [bmapAddr, wp_bind, wp_get]
    rw [if_neg hne]
    exact hQ
  next hd =>
    have hslot : slotOf bn = .entry (bn - ndirect) := dif_neg hd
    rw [hslot] at hne hQ
    have hcond : (s.view sb ip (s.inode ip).inum).addrs (Fin.last ndirect) ≠ 0 ∧
        bn - ndirect < nindirect := by
      by_contra hc
      exact hne (if_neg fun h => hc h.2)
    rw [places, stored_entry ha hcond.1 hcond.2, view_self] at hne hQ
    rw [view_self] at hcond
    rw [if_pos hcond.2]
    simp only [bmapAddr, wp_bind, wp_get]
    rw [if_neg hcond.1, wp_pure, if_neg hcond.1, wp_bind, wp_get, if_neg hne]
    exact hQ

/-- A part of a block is a part of the file. -/
theorem read_eq_slice {m : ℕ} (hm : off % bsize + m ≤ bsize) :
    (s.disk (s.places sb ip ((s.inode ip).inum, slotOf (off / bsize)))).read (off % bsize) m =
      s.slice sb ip off m := by
  apply List.map_congr_left
  intro k hk
  rw [List.mem_range] at hk
  have hmod : (off + k) % bsize = off % bsize + k := by
    rw [Nat.add_mod, Nat.mod_eq_of_lt (a := k) (by omega), Nat.mod_eq_of_lt (by omega)]
  have hdiv : (off + k) / bsize = off / bsize := by
    rw [Nat.add_div_eq_of_add_mod_lt, Nat.div_eq_of_lt (a := k) (by omega), Nat.add_zero]
    rw [Nat.mod_eq_of_lt (a := k) (by omega)]
    omega
  rw [byte, hdiv, hmod]

theorem wp_readiLoop (hfull : s.Full sb ip) {fuel tot : ℕ} {acc : List UInt8}
    (hfuel : n - tot ≤ fuel) (htot : tot ≤ n) (hsize : off + (n - tot) ≤ (s.inode ip).d.size) :
    wp (readiLoop sb ip dst n fuel tot off acc) (fun r t => t = s ∧
      ((∀ k, dst k = true) → r = ((n : ℤ), acc ++ s.slice sb ip off (n - tot)))) E s := by
  have hdone : tot = n → ((tot : ℤ), acc) = ((n : ℤ), acc ++ s.slice sb ip off (n - tot)) := by
    rintro rfl
    simp [slice]
  induction fuel generalizing tot off acc with
  | zero => exact ⟨rfl, fun _ => hdone (by omega)⟩
  | succ fuel ih =>
    unfold readiLoop
    split
    swap
    · exact ⟨rfl, fun _ => hdone (by omega)⟩
    next hlt =>
    have hmod : off % bsize < bsize := Nat.mod_lt _ (by decide)
    have hne := hfull (off / bsize) ((Nat.div_mul_le_self off bsize).trans_lt (by omega))
    rw [wp_bind]
    refine wp_bmap_of_ne hne ?_
    rw [if_neg hne, wp_bind, wp_get]
    dsimp only
    rw [read_eq_slice (m := min (n - tot) (bsize - off % bsize)) (by omega)]
    split
    next hshort =>
      refine ⟨rfl, fun hdst => ?_⟩
      rw [reach_eq fun k _ _ => hdst k] at hshort
      exact absurd hshort (lt_irrefl _)
    next =>
      have hsplit : n - tot = min (n - tot) (bsize - off % bsize) +
          (n - (tot + min (n - tot) (bsize - off % bsize))) := by omega
      refine (ih (by omega) (by omega) (by omega) fun heq => ?_).mono (fun r t ht => ?_)
        fun _ _ he => he
      · simp [heq, slice]
      · refine ⟨ht.1, fun hdst => ?_⟩
        rw [ht.2 hdst, hsplit, slice_add, List.append_assoc, ← hsplit]

/-- `readi` changes nothing, and returns the bytes of the file. -/
theorem wp_readi (hfull : s.Full sb ip) (hoff : off < 2 ^ 32) (hn : n < 2 ^ 32)
    {Q : ℤ × List UInt8 → Fs → Prop}
    (hrej : (s.inode ip).d.size < off ∨ 2 ^ 32 ≤ off + n → Q (0, []) s)
    (hacc : off ≤ (s.inode ip).d.size → off + n < 2 ^ 32 → ∀ r, ((∀ k, dst k = true) →
      r = (((min n ((s.inode ip).d.size - off) : ℕ) : ℤ),
        s.slice sb ip off (min n ((s.inode ip).d.size - off)))) → Q r s) :
    wp (readi sb ip dst off n) Q E s := by
  simp only [readi, wp_bind, wp_get]
  have hwrap := add_wraps hoff hn
  split
  next hbad => exact hrej (hbad.imp_right hwrap.1)
  next hok =>
  rw [hwrap, not_or, not_lt, not_le] at hok
  rw [Nat.mod_eq_of_lt hok.2]
  have hmin : (if off + n > (s.inode ip).d.size then (s.inode ip).d.size - off else n) =
      min n ((s.inode ip).d.size - off) := by
    split <;> omega
  rw [hmin]
  refine (wp_readiLoop hfull (by omega) (Nat.zero_le _) (by omega)).mono (fun r t ht => ?_)
    fun _ _ he => he
  rw [ht.1]
  refine hacc hok.1 hok.2 r fun hdst => ?_
  simpa using ht.2 hdst

end Fs

end Xv6
