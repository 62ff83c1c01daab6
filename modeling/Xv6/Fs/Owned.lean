import Xv6.Fs.Inode
import Xv6.Lib.Owner

/-!
# Ownership of blocks

A block number is stored in a place: in a slot of an inode, or in an entry of its indirect
block. In a consistent file system (`BlocksOwned`) every block that is stored is a data block,
is stored in one place, and the bitmap marks the blocks that are stored, and those before the
data.

The inodes are given by a function, as an inode in memory may be ahead of the disk while an
operation changes it (`Fs.view`). The first part is about the disk alone: what storing a free
block in a place and releasing it do to ownership. The second part is about the code.
-/

namespace Xv6

/-- A slot of an inode, or an entry of its indirect block. -/
inductive FileSlot
  | addr (k : Fin (ndirect + 1))
  | entry (j : ℕ)
  deriving DecidableEq

/-- The slot of the block `bn` of a file. -/
def slotOf (bn : ℕ) : FileSlot :=
  if h : bn < ndirect then .addr ⟨bn, Nat.lt_succ_of_lt h⟩ else .entry (bn - ndirect)

theorem slotOf_ne_last (bn : ℕ) : slotOf bn ≠ .addr (Fin.last ndirect) := by
  unfold slotOf
  split
  next h =>
    intro heq
    have := congrArg Fin.val (FileSlot.addr.inj heq)
    dsimp only [Fin.val_last] at this
    omega
  next => exact FileSlot.noConfusion

theorem slotOf_inj {bn bn' : ℕ} (h : slotOf bn = slotOf bn') : bn = bn' := by
  unfold slotOf at h
  split at h <;> split at h
  · exact congrArg Fin.val (FileSlot.addr.inj h)
  · cases h
  · cases h
  · have := FileSlot.entry.inj h
    omega

section

variable (sb : Superblock) (I : ℕ → Dinode) (d : Disk)

/-- The inode is allocated. -/
def Alloced (i : ℕ) : Prop := i < sb.ninodes ∧ (I i).type ≠ 0

instance decidableAlloced (i : ℕ) : Decidable (Alloced sb I i) := inferInstanceAs (Decidable (_ ∧ _))

/-- The block number in a place, or `0`. -/
def stored : ℕ × FileSlot → ℕ
  | (i, .addr k) => if Alloced sb I i then (I i).addrs k else 0
  | (i, .entry j) =>
    if Alloced sb I i ∧ (I i).addrs (Fin.last ndirect) ≠ 0 ∧ j < nindirect then
      Disk.entry d ((I i).addrs (Fin.last ndirect)) j
    else 0

/-- The blocks that are stored are marked in the bitmap, and stored once; besides these and the
    blocks before the data, only those of `lost` are marked. -/
def BlocksOwned (lost : Set ℕ) : Prop :=
  Owned sb.nmeta sb.size lost (Disk.marked sb d) (stored sb I d)

end

section

variable {sb : Superblock} {I I' : ℕ → Dinode} {d d' : Disk} {i j b c : ℕ}
  {k : Fin (ndirect + 1)} {x : ℕ × FileSlot} {lost : Set ℕ}

theorem stored_entry_def : stored sb I d (i, .entry j) =
    if Alloced sb I i ∧ (I i).addrs (Fin.last ndirect) ≠ 0 ∧ j < nindirect then
      Disk.entry d ((I i).addrs (Fin.last ndirect)) j
    else 0 := rfl

theorem stored_addr (hi : Alloced sb I i) : stored sb I d (i, .addr k) = (I i).addrs k := if_pos hi

theorem stored_entry (hi : Alloced sb I i) (hne : (I i).addrs (Fin.last ndirect) ≠ 0)
    (hj : j < nindirect) :
    stored sb I d (i, .entry j) = Disk.entry d ((I i).addrs (Fin.last ndirect)) j :=
  if_pos ⟨hi, hne, hj⟩

theorem stored_entry_of_eq_zero (hz : (I i).addrs (Fin.last ndirect) = 0) :
    stored sb I d (i, .entry j) = 0 := if_neg fun h => h.2.1 hz

theorem stored_of_not_alloced (hi : ¬Alloced sb I i) (sl : FileSlot) : stored sb I d (i, sl) = 0 := by
  cases sl with
  | addr k => exact if_neg hi
  | entry j => exact if_neg fun h => hi h.1

/-- The places only depend on which inodes are allocated, on their slots and on the indirect
    blocks. -/
theorem stored_congr_addrs (htype : ∀ i < sb.ninodes, (I' i).type = 0 ↔ (I i).type = 0)
    (haddrs : ∀ i < sb.ninodes, (I' i).addrs = (I i).addrs)
    (hd : ∀ i, Alloced sb I i → (I i).addrs (Fin.last ndirect) ≠ 0 →
      d' ((I i).addrs (Fin.last ndirect)) = d ((I i).addrs (Fin.last ndirect))) :
    stored sb I' d' = stored sb I d := by
  funext ⟨i, sl⟩
  have halloc : Alloced sb I' i ↔ Alloced sb I i :=
    and_congr_right fun hi => not_congr (htype i hi)
  by_cases hi : Alloced sb I i
  swap
  · rw [stored_of_not_alloced hi, stored_of_not_alloced (mt halloc.1 hi)]
  cases sl with
  | addr k => rw [stored_addr hi, stored_addr (halloc.2 hi), haddrs i hi.1]
  | entry j =>
    rw [stored_entry_def, stored_entry_def]
    simp only [halloc, haddrs i hi.1]
    split
    next h => rw [Disk.entry, Disk.entry, hd i hi h.2.1]
    next => rfl

theorem stored_congr (hI : ∀ i < sb.ninodes, I' i = I i)
    (hd : ∀ i, Alloced sb I i → (I i).addrs (Fin.last ndirect) ≠ 0 →
      d' ((I i).addrs (Fin.last ndirect)) = d ((I i).addrs (Fin.last ndirect))) :
    stored sb I' d' = stored sb I d :=
  stored_congr_addrs (fun i hi => by rw [hI i hi]) (fun i hi => by rw [hI i hi]) hd

/-- The places of one inode only depend on it and on its indirect block. -/
theorem stored_eq_of_dinode (hI : I' i = I i)
    (hd : Alloced sb I i → (I i).addrs (Fin.last ndirect) ≠ 0 →
      d' ((I i).addrs (Fin.last ndirect)) = d ((I i).addrs (Fin.last ndirect))) {sl : FileSlot} :
    stored sb I' d' (i, sl) = stored sb I d (i, sl) := by
  have halloc : Alloced sb I' i ↔ Alloced sb I i := and_congr_right fun _ => by rw [hI]
  by_cases ha : Alloced sb I i
  swap
  · rw [stored_of_not_alloced ha, stored_of_not_alloced (mt halloc.1 ha)]
  cases sl with
  | addr k => rw [stored_addr ha, stored_addr (halloc.2 ha), hI]
  | entry j =>
    rw [stored_entry_def, stored_entry_def]
    simp only [halloc, hI]
    split
    next h => rw [Disk.entry, Disk.entry, hd ha h.2.1]
    next => rfl

theorem BlocksOwned.range (h : BlocksOwned sb I d lost) (hx : stored sb I d x ≠ 0) :
    sb.nmeta ≤ stored sb I d x ∧ stored sb I d x < sb.size := Owned.range h x hx

/-- An indirect block is a data block. -/
theorem BlocksOwned.last (h : BlocksOwned sb I d lost) (hi : Alloced sb I i)
    (hne : (I i).addrs (Fin.last ndirect) ≠ 0) : sb.nmeta ≤ (I i).addrs (Fin.last ndirect) := by
  have hst := stored_addr (d := d) (k := Fin.last ndirect) hi
  exact hst ▸ (h.range (x := (i, .addr (Fin.last ndirect))) (by rwa [hst])).1

/-- A free block is not an indirect block. -/
theorem BlocksOwned.last_ne (h : BlocksOwned sb I d lost) (hb : b < sb.size)
    (hf : Disk.marked sb d b = false) (hi : Alloced sb I i) : (I i).addrs (Fin.last ndirect) ≠ b := by
  have := Owned.ne_of_not_used h hb hf (i, .addr (Fin.last ndirect))
  rwa [stored_addr hi] at this

/-- The block `b` is allocated and zeroed. -/
def Disk.take (sb : Superblock) (d : Disk) (b : ℕ) : Disk :=
  Function.update (Disk.mark sb d b) b (Bytes.fill 0)

theorem take_of_ne (hsb : sb.Wf) (hb : b < sb.size) (hc : sb.nmeta ≤ c) (hcb : c ≠ b) :
    Disk.take sb d b c = d c := by
  rw [Disk.take, Function.update_of_ne hcb, Disk.mark, Disk.update_bblock_data hsb hb hc]

theorem dinode_take (hsb : sb.Wf) (hi : i < sb.ninodes) (hb : sb.nmeta ≤ b) :
    Disk.dinode sb (Disk.take sb d b) i = Disk.dinode sb d i := by
  rw [Disk.take, Disk.dinode_update_data hsb hi hb, Disk.mark, Disk.dinode_update_bblock hsb hi]

theorem marked_take (hsb : sb.Wf) (hc : c < sb.size) (hb : sb.nmeta ≤ b) :
    Disk.marked sb (Disk.take sb d b) c = if c = b then true else Disk.marked sb d c := by
  rw [Disk.take, Disk.marked_update_data hsb hc hb, Disk.marked_mark]

/-- The places after a free block is stored in a slot of an inode. -/
theorem stored_setAddr (hsb : sb.Wf) (h : BlocksOwned sb I d lost) (hi : Alloced sb I i)
    (hk : (I i).addrs k = 0) (hb : b < sb.size) (hf : Disk.marked sb d b = false)
    (hI' : ∀ j < sb.ninodes, I' j =
      if j = i then (I i).setAddr k b else I j) :
    stored sb I' (Disk.take sb d b) = Function.update (stored sb I d) (i, .addr k) b := by
  have hI'i : I' i = (I i).setAddr k b := by
    rw [hI' i hi.1, if_pos rfl]
  have halloc : ∀ j, Alloced sb I' j ↔ Alloced sb I j := fun j => and_congr_right fun hj => by
    rw [hI' j hj]
    split
    · rw [‹j = i›, Dinode.setAddr_type]
    · rfl
  -- An indirect block other than `b` is as before.
  have hind : ∀ j, Alloced sb I j → (I j).addrs (Fin.last ndirect) ≠ 0 →
      Disk.take sb d b ((I j).addrs (Fin.last ndirect)) = d ((I j).addrs (Fin.last ndirect)) :=
    fun j hj hne => take_of_ne hsb hb (h.last hj hne) (h.last_ne hb hf hj)
  funext ⟨j, sl⟩
  by_cases hj : Alloced sb I j
  swap
  · rw [stored_of_not_alloced (mt (halloc j).1 hj), Function.update_of_ne, stored_of_not_alloced hj]
    intro heq
    exact hj (by rw [(Prod.mk.inj heq).1]; exact hi)
  have hj' := (halloc j).2 hj
  by_cases hji : j = i
  · subst hji
    cases sl with
    | addr k' =>
      rw [stored_addr hj', hI'i]
      by_cases hkk : k' = k
      · rw [hkk, Dinode.setAddr_self, Function.update_self]
      · rw [Dinode.setAddr_of_ne _ _ hkk, Function.update_of_ne, stored_addr hj]
        exact fun heq => hkk (FileSlot.addr.inj (Prod.mk.inj heq).2)
    | entry e =>
      rw [Function.update_of_ne (by simp)]
      by_cases hkl : k = Fin.last ndirect
      · -- The new indirect block is empty.
        subst hkl
        rw [stored_entry_of_eq_zero hk, stored_entry_def]
        split
        next hc =>
          rw [hI'i, Dinode.setAddr_self]
          exact Disk.entry_fill_zero (Function.update_self ..)
        next => rfl
      · rw [stored_entry_def, stored_entry_def]
        simp only [halloc, hI'i, Dinode.setAddr_of_ne _ _ (Ne.symm hkl)]
        split
        next hc => rw [Disk.entry, Disk.entry, hind j hj hc.2.1]
        next => rfl
  · rw [Function.update_of_ne fun heq => hji (Prod.mk.inj heq).1]
    have hIj : I' j = I j := by rw [hI' j hj.1, if_neg hji]
    cases sl with
    | addr k' => rw [stored_addr hj', stored_addr hj, hIj]
    | entry e =>
      rw [stored_entry_def, stored_entry_def]
      simp only [halloc, hIj]
      split
      next hc => rw [Disk.entry, Disk.entry, hind j hj hc.2.1]
      next => rfl

/-- A free block is stored in a slot of an inode. -/
theorem BlocksOwned.setAddr (hsb : sb.Wf) (h : BlocksOwned sb I d lost) (hi : Alloced sb I i)
    (hk : (I i).addrs k = 0) (hb : b < sb.size) (hf : Disk.marked sb d b = false)
    (hI' : ∀ j < sb.ninodes, I' j =
      if j = i then (I i).setAddr k b else I j) :
    BlocksOwned sb I' (Disk.take sb d b) lost := by
  unfold BlocksOwned
  rw [stored_setAddr hsb h hi hk hb hf hI']
  refine Owned.alloc h (by rw [stored_addr hi, hk]) hb hf fun c hc => ?_
  exact marked_take hsb hc (Owned.le_of_not_used h hb hf)

/-- The places after a free block is stored in an entry of an indirect block. -/
theorem stored_setEntry (hsb : sb.Wf) (h : BlocksOwned sb I d lost) (hi : Alloced sb I i)
    (hne : (I i).addrs (Fin.last ndirect) ≠ 0) (hj : j < nindirect) (hb : b < sb.size)
    (hf : Disk.marked sb d b = false) :
    stored sb I (Disk.putEntry (Disk.take sb d b) ((I i).addrs (Fin.last ndirect)) j b) =
      Function.update (stored sb I d) (i, .entry j) b := by
  have hind : ∀ i', Alloced sb I i' → (I i').addrs (Fin.last ndirect) ≠ 0 →
      Disk.take sb d b ((I i').addrs (Fin.last ndirect)) = d ((I i').addrs (Fin.last ndirect)) :=
    fun i' hi' hne' => take_of_ne hsb hb (h.last hi' hne') (h.last_ne hb hf hi')
  have hb32 : b < 2 ^ 32 := hb.trans hsb.size
  funext ⟨i', sl⟩
  by_cases hi' : Alloced sb I i'
  swap
  · rw [stored_of_not_alloced hi', Function.update_of_ne, stored_of_not_alloced hi']
    intro heq
    exact hi' (by rw [(Prod.mk.inj heq).1]; exact hi)
  cases sl with
  | addr k => rw [Function.update_of_ne (by simp), stored_addr hi', stored_addr hi']
  | entry e =>
    by_cases hc : (I i').addrs (Fin.last ndirect) ≠ 0 ∧ e < nindirect
    swap
    · rw [stored_entry_def, if_neg fun h => hc h.2, Function.update_of_ne, stored_entry_def,
        if_neg fun h => hc h.2]
      intro heq
      obtain ⟨rfl, hsl⟩ := Prod.mk.inj heq
      exact hc ⟨hne, by rw [FileSlot.entry.inj hsl]; exact hj⟩
    rw [stored_entry hi' hc.1 hc.2]
    by_cases hii : i' = i
    · subst hii
      rw [Disk.entry_putEntry hj hb32]
      by_cases hej : e = j
      · rw [if_pos hej, hej, Function.update_self]
      · rw [if_neg hej, Function.update_of_ne, stored_entry hi' hc.1 hc.2, Disk.entry, Disk.entry,
          hind _ hi' hc.1]
        exact fun heq => hej (FileSlot.entry.inj (Prod.mk.inj heq).2)
    · rw [Function.update_of_ne fun heq => hii (Prod.mk.inj heq).1, stored_entry hi' hc.1 hc.2,
        Disk.entry, Disk.entry, Disk.putEntry, Function.update_of_ne, hind _ hi' hc.1]
      -- Two inodes have two indirect blocks.
      intro heq
      have hinj := Owned.inj h (i', .addr (Fin.last ndirect)) (i, .addr (Fin.last ndirect))
        (by rw [stored_addr hi']; exact hc.1) (by rw [stored_addr hi', stored_addr hi, heq])
      exact hii (Prod.mk.inj hinj).1

/-- A free block is stored in an entry of an indirect block. -/
theorem BlocksOwned.setEntry (hsb : sb.Wf) (h : BlocksOwned sb I d lost) (hi : Alloced sb I i)
    (hne : (I i).addrs (Fin.last ndirect) ≠ 0) (hj : j < nindirect)
    (hz : Disk.entry d ((I i).addrs (Fin.last ndirect)) j = 0) (hb : b < sb.size)
    (hf : Disk.marked sb d b = false) :
    BlocksOwned sb I (Disk.putEntry (Disk.take sb d b) ((I i).addrs (Fin.last ndirect)) j b) lost := by
  unfold BlocksOwned
  rw [stored_setEntry hsb h hi hne hj hb hf]
  refine Owned.alloc h (by rw [stored_entry hi hne hj, hz]) hb hf fun c hc => ?_
  rw [Disk.putEntry, Disk.marked_update_data hsb hc (h.last hi hne),
    marked_take hsb hc (Owned.le_of_not_used h hb hf)]

/-- The places do not depend on the blocks before the data. -/
theorem BlocksOwned.stored_eq (h : BlocksOwned sb I d lost) (hd : ∀ c, sb.nmeta ≤ c → d' c = d c) :
    stored sb I d' = stored sb I d :=
  stored_congr (fun _ _ => rfl) fun _ hi hne => hd _ (h.last hi hne)

end

end Xv6
