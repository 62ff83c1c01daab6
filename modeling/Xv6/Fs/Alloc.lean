import Xv6.Fs.Owned

/-!
# The block allocator and `bmap`

What `balloc`, `bfree`, `bmap` and `itrunc` do to the places in which blocks are stored. An
operation works on one inode `ip`, whose copy in memory may be ahead of the disk; `Fs.view` are
the inodes with this copy.

`bmap` only adds blocks (`Grows`): it stores free blocks in places of `ip` that are empty. The
same is true of a write to the blocks of `ip`, except for the bytes that are written.
-/

namespace Xv6

namespace Fs

/-- The inodes of the disk, with the copy in memory of the inode `ip`. -/
def view (sb : Superblock) (s : Fs) (ip : Fin ninode) : ℕ → Dinode :=
  Function.update (Disk.dinode sb s.disk) (s.inode ip).inum (s.inode ip).d

/-- The places, with the copy in memory of the inode `ip`. -/
def places (sb : Superblock) (s : Fs) (ip : Fin ninode) : ℕ × FileSlot → ℕ :=
  stored sb (s.view sb ip) s.disk

/-- The byte at the offset `o` of the file of the inode `j`, with the copy in memory of the
    inode `ip`. -/
def byte (sb : Superblock) (s : Fs) (ip : Fin ninode) (j o : ℕ) : UInt8 :=
  (s.disk (s.places sb ip (j, slotOf (o / bsize)))).get (o % bsize)

/-- The inode `ip` is allocated, and the blocks are owned. -/
structure Held (sb : Superblock) (lost : Set ℕ) (s : Fs) (ip : Fin ninode) : Prop where
  inum : (s.inode ip).inum < sb.ninodes
  type : (s.inode ip).d.type ≠ 0
  owned : BlocksOwned sb (s.view sb ip) s.disk lost

variable {sb : Superblock} {s t : Fs} {ip : Fin ninode} {i b : ℕ} {k : Fin (ndirect + 1)}
  {E : FsPanic → Fs → Prop} {lost W : Set ℕ}

theorem view_self : s.view sb ip (s.inode ip).inum = (s.inode ip).d := Function.update_self ..

theorem view_of_ne (h : i ≠ (s.inode ip).inum) : s.view sb ip i = Disk.dinode sb s.disk i :=
  Function.update_of_ne h _ _

theorem Held.alloced (h : s.Held sb lost ip) : Alloced sb (s.view sb ip) (s.inode ip).inum :=
  ⟨h.inum, by rw [view_self]; exact h.type⟩

theorem Held.stored_addr (h : s.Held sb lost ip) :
    s.places sb ip ((s.inode ip).inum, .addr k) = (s.inode ip).d.addrs k := by
  rw [places, Xv6.stored_addr h.alloced, view_self]

theorem Held.stored_entry (h : s.Held sb lost ip) (hne : (s.inode ip).d.addrs (Fin.last ndirect) ≠ 0)
    {j : ℕ} (hj : j < nindirect) : s.places sb ip ((s.inode ip).inum, .entry j) =
      Disk.entry s.disk ((s.inode ip).d.addrs (Fin.last ndirect)) j := by
  rw [places, Xv6.stored_entry h.alloced (by rwa [view_self]) hj, view_self]

theorem Held.range (h : s.Held sb lost ip) {x : ℕ × FileSlot} (hx : s.places sb ip x ≠ 0) :
    sb.nmeta ≤ s.places sb ip x ∧ s.places sb ip x < sb.size := Owned.range h.owned x hx

theorem Held.inj (h : s.Held sb lost ip) {x y : ℕ × FileSlot} (hx : s.places sb ip x ≠ 0)
    (hxy : s.places sb ip x = s.places sb ip y) : x = y := Owned.inj h.owned x y hx hxy

/-! ## Blocks -/

/-- The bit of the block `b` is the first one of the bitmap that is clear. -/
structure FirstFree (sb : Superblock) (d : Disk) (b : ℕ) : Prop where
  lt : b < sb.size
  free : Disk.marked sb d b = false
  first : ∀ c < b, Disk.marked sb d c = true

/-- Every bit of the bitmap is set, so that `balloc` returns `0`. -/
def DiskFull (sb : Superblock) (s : Fs) : Prop := ∀ b < sb.size, Disk.marked sb s.disk b = true

/-- The bits of the bitmap's block `k`. -/
theorem marked_block (sb : Superblock) (k : ℕ) {bi : ℕ} (hbi : bi < bpb) (d : Disk) :
    sb.bblock (k * bpb + bi) = sb.bmapstart + k ∧
      Disk.marked sb d (k * bpb + bi) = (d (sb.bmapstart + k)).bit bi := by
  have hblock : sb.bblock (k * bpb + bi) = sb.bmapstart + k := by
    rw [Superblock.bblock, Nat.add_comm (k * bpb), Nat.add_mul_div_right _ _ (by decide),
      Nat.div_eq_of_lt hbi, Nat.zero_add, Nat.add_comm]
  have hmod : (k * bpb + bi) % bpb = bi := by
    rw [Nat.add_comm, Nat.add_mul_mod_self_right, Nat.mod_eq_of_lt hbi]
  exact ⟨hblock, by rw [Disk.marked, hblock, hmod]⟩

/-- The loop of `balloc`, from the bitmap's block `k` on, takes the first free block. -/
theorem wp_ballocLoop {Q : ℕ → Fs → Prop} {k n : ℕ} (hn : sb.size ≤ (k + n) * bpb)
    (hfull : ∀ c < k * bpb, c < sb.size → Disk.marked sb s.disk c = true)
    (hnone : s.DiskFull sb →
      Q 0 { s with printed := "balloc: out of blocks\n" :: s.printed })
    (hsome : ∀ b, FirstFree sb s.disk b →
      Q b { s with disk := Disk.take sb s.disk b, logged := b :: sb.bblock b :: s.logged }) :
    wp (ballocLoop sb (List.range' k n)) Q E s := by
  induction n generalizing k with
  | zero => exact hnone fun c hc => hfull c (by rw [Nat.add_zero] at hn; omega) hc
  | succ n ih =>
    rw [List.range'_succ]
    simp only [ballocLoop, wp_bind, wp_get]
    split
    next bi hbi =>
      obtain ⟨hp, hmem, hbefore⟩ := List.find?_range'_eq_some.1 hbi
      simp only [decide_eq_true_eq] at hp
      have hlt : bi < bpb := by simpa using hmem
      obtain ⟨hblock, hmarked⟩ := marked_block sb k hlt s.disk
      have hfirst : FirstFree sb s.disk (k * bpb + bi) := by
        refine ⟨hp.1, hmarked.trans hp.2, fun c hc => ?_⟩
        by_cases hck : c < k * bpb
        · exact hfull c hck (by omega)
        · have hj := hbefore (c - k * bpb) (Nat.zero_le _) (by omega)
          obtain ⟨-, hm⟩ := marked_block sb k (show c - k * bpb < bpb by omega) s.disk
          rw [Nat.add_sub_cancel' (not_lt.1 hck)] at hm hj
          rw [hm]
          simpa [hp.1.trans' hc] using hj
      have hQ := hsome _ hfirst
      have hmod : (k * bpb + bi) % bpb = bi := by
        rw [Nat.add_comm, Nat.add_mul_mod_self_right, Nat.mod_eq_of_lt hlt]
      rw [Disk.take, Disk.mark, hblock, hmod] at hQ
      exact hQ
    next hbi =>
      have hnext := List.find?_range'_eq_none.1 hbi
      refine ih (by rwa [Nat.add_right_comm]) fun c hc hlt => ?_
      by_cases hck : c < k * bpb
      · exact hfull c hck hlt
      · rw [Nat.succ_mul] at hc
        have hj := hnext (c - k * bpb) (Nat.zero_le _) (by omega)
        obtain ⟨-, hm⟩ := marked_block sb k (show c - k * bpb < bpb by omega) s.disk
        rw [Nat.add_sub_cancel' (not_lt.1 hck)] at hm hj
        rw [hm]
        simpa [hlt] using hj

/-- `balloc` takes the first free block, if there is one. -/
theorem wp_balloc_first {Q : ℕ → Fs → Prop}
    (hnone : s.DiskFull sb →
      Q 0 { s with printed := "balloc: out of blocks\n" :: s.printed })
    (hsome : ∀ b, FirstFree sb s.disk b →
      Q b { s with disk := Disk.take sb s.disk b, logged := b :: sb.bblock b :: s.logged }) :
    wp (balloc sb) Q E s := by
  refine wp_ballocLoop ?_ (fun c hc => absurd hc (by omega)) hnone hsome
  have := Nat.div_add_mod (sb.size + (bpb - 1)) bpb
  have := Nat.mod_lt (sb.size + (bpb - 1)) (by decide : 0 < bpb)
  rw [Nat.zero_add, Nat.mul_comm]
  omega

/-- `balloc` takes a free block, and returns `0` only if there is none. -/
theorem wp_balloc {Q : ℕ → Fs → Prop} (hnone : s.DiskFull sb → ∀ p, Q 0 { s with printed := p })
    (hsome : ∀ b l, b < sb.size → Disk.marked sb s.disk b = false →
      Q b { s with disk := Disk.take sb s.disk b, logged := l }) : wp (balloc sb) Q E s :=
  wp_balloc_first (fun hfull => hnone hfull _) fun b hb => hsome b _ hb.lt hb.free

/-- `bfree` releases a block that is in use. -/
theorem wp_bfree {Q : PUnit → Fs → Prop} (hm : Disk.marked sb s.disk b = true)
    (hQ : ∀ l, Q ⟨⟩ { s with disk := Disk.unmark sb s.disk b, logged := l }) :
    wp (bfree sb b) Q E s := by
  simp only [bfree, wp_bind, wp_get]
  rw [if_neg]
  · exact hQ _
  · rw [Disk.marked] at hm
    rw [hm]
    decide

/-! ## `bmap` -/

/-- The blocks of the places of `s` are still there in `t`; other ones may have been added, to
    the inode `ip` in memory. Of the bytes of the files, only those of `ip` at the offsets of `W`
    may have changed. -/
structure Grows (sb : Superblock) (lost : Set ℕ) (ip : Fin ninode) (W : Set ℕ) (s t : Fs) :
    Prop where
  held : t.Held sb lost ip
  frame : ∀ jp, jp ≠ ip → t.inode jp = s.inode jp
  self : t.inode ip = { s.inode ip with d := { (s.inode ip).d with addrs := (t.inode ip).d.addrs } }
  dinode : ∀ i < sb.ninodes, Disk.dinode sb t.disk i = Disk.dinode sb s.disk i
  keep : ∀ x, s.places sb ip x ≠ 0 → t.places sb ip x = s.places sb ip x
  other : ∀ j sl, j ≠ (s.inode ip).inum → t.places sb ip (j, sl) = s.places sb ip (j, sl)
  data : ∀ j o, s.places sb ip (j, slotOf (o / bsize)) ≠ 0 →
    (j = (s.inode ip).inum → o ∉ W) → t.byte sb ip j o = s.byte sb ip j o

theorem Grows.refl (h : s.Held sb lost ip) : Grows sb lost ip ∅ s s :=
  ⟨h, fun _ _ => rfl, rfl, fun _ _ => rfl, fun _ _ => rfl, fun _ _ _ => rfl, fun _ _ _ _ => rfl⟩

/-- Only the messages may have changed. -/
theorem Grows.of_eq (h : s.Held sb lost ip) (hd : t.disk = s.disk) (hi : t.inode = s.inode) :
    Grows sb lost ip ∅ s t := by
  obtain ⟨disk, logged, printed, inode⟩ := t
  obtain ⟨disk', logged', printed', inode'⟩ := s
  obtain rfl : disk = disk' := hd
  obtain rfl : inode = inode' := hi
  exact ⟨⟨h.inum, h.type, h.owned⟩, fun _ _ => rfl, rfl, fun _ _ => rfl, fun _ _ => rfl,
    fun _ _ _ => rfl, fun _ _ _ _ => rfl⟩

theorem Grows.inum (h : Grows sb lost ip W s t) : (t.inode ip).inum = (s.inode ip).inum := by
  rw [h.self]

theorem Grows.mono {W' : Set ℕ} (h : Grows sb lost ip W s t) (hW : W ⊆ W') :
    Grows sb lost ip W' s t :=
  { h with data := fun j o hne ho => h.data j o hne fun hj hm => ho hj (hW hm) }

theorem Grows.trans {W' : Set ℕ} {u : Fs} (h : Grows sb lost ip W s t)
    (h' : Grows sb lost ip W' t u) : Grows sb lost ip (W ∪ W') s u := by
  refine ⟨h'.held, fun jp hjp => (h'.frame jp hjp).trans (h.frame jp hjp), ?_,
    fun i hi => (h'.dinode i hi).trans (h.dinode i hi), fun x hx => ?_, fun j sl hj => ?_,
    fun j o hx ho => ?_⟩
  · rw [h'.self, h.self]
  · rw [h'.keep x (by rwa [h.keep x hx]), h.keep x hx]
  · rw [h'.other j sl (by rwa [h.inum]), h.other j sl hj]
  · rw [h'.data j o (by rwa [h.keep _ hx]) fun hj hm => ho (hj.trans h.inum) (.inr hm)]
    exact h.data j o hx fun hj hm => ho hj (.inl hm)

/-- The bytes of a block that did not change. -/
theorem byte_congr {j o : ℕ} (hkeep : t.places sb ip (j, slotOf (o / bsize)) =
      s.places sb ip (j, slotOf (o / bsize)))
    (hdata : t.disk (s.places sb ip (j, slotOf (o / bsize))) =
      s.disk (s.places sb ip (j, slotOf (o / bsize)))) :
    t.byte sb ip j o = s.byte sb ip j o := by
  rw [byte, hkeep, hdata, byte]

/-- Storing a free block in a slot of the inode. -/
theorem Held.setAddr (hsb : sb.Wf) (h : s.Held sb lost ip) (hk : (s.inode ip).d.addrs k = 0)
    (hb : b < sb.size) (hf : Disk.marked sb s.disk b = false)
    (hdisk : t.disk = Disk.take sb s.disk b)
    (hself : t.inode ip = { s.inode ip with d := (s.inode ip).d.setAddr k b })
    (hframe : ∀ jp, jp ≠ ip → t.inode jp = s.inode jp) :
    Grows sb lost ip ∅ s t ∧
      t.places sb ip = Function.update (s.places sb ip) ((s.inode ip).inum, .addr k) b := by
  have hlo := Owned.le_of_not_used h.owned hb hf
  have hview : ∀ j < sb.ninodes, t.view sb ip j = if j = (s.inode ip).inum then
      (s.view sb ip (s.inode ip).inum).setAddr k b else s.view sb ip j := by
    intro j hj
    split
    next hji =>
      rw [hji, view_self, show (s.inode ip).inum = (t.inode ip).inum by rw [hself], view_self, hself]
    next hji =>
      rw [view_of_ne hji, view_of_ne (by rwa [hself]), hdisk, dinode_take hsb hj hlo]
  have hplaces : t.places sb ip = Function.update (s.places sb ip) ((s.inode ip).inum, .addr k) b := by
    rw [places, hdisk]
    exact stored_setAddr hsb h.owned h.alloced (by rwa [view_self]) hb hf hview
  have howned : BlocksOwned sb (t.view sb ip) t.disk lost := by
    rw [hdisk]
    exact h.owned.setAddr hsb h.alloced (by rwa [view_self]) hb hf hview
  have hkeep : ∀ x, s.places sb ip x ≠ 0 → t.places sb ip x = s.places sb ip x := by
    intro x hx
    rw [hplaces, Function.update_of_ne]
    rintro rfl
    exact hx (by rw [h.stored_addr, hk])
  refine ⟨⟨⟨by rw [hself]; exact h.inum, by rw [hself]; exact h.type, howned⟩, hframe, ?_,
    fun i hi => ?_, hkeep, fun j sl hj => ?_, fun j o hx _ => ?_⟩, hplaces⟩
  · rw [hself]
    rfl
  · rw [hdisk, dinode_take hsb hi hlo]
  · rw [hplaces, Function.update_of_ne]
    exact fun heq => hj (Prod.mk.inj heq).1
  · refine byte_congr (hkeep _ hx) ?_
    rw [hdisk]
    exact take_of_ne hsb hb (h.owned.range hx).1 (Owned.ne_of_not_used h.owned hb hf _)

/-- Storing a free block in an entry of the indirect block. -/
theorem Held.setEntry (hsb : sb.Wf) (h : s.Held sb lost ip) {j : ℕ} (hj : j < nindirect)
    (hne : (s.inode ip).d.addrs (Fin.last ndirect) ≠ 0)
    (hz : Disk.entry s.disk ((s.inode ip).d.addrs (Fin.last ndirect)) j = 0)
    (hb : b < sb.size) (hf : Disk.marked sb s.disk b = false)
    (hdisk : t.disk =
      Disk.putEntry (Disk.take sb s.disk b) ((s.inode ip).d.addrs (Fin.last ndirect)) j b)
    (hinode : t.inode = s.inode) :
    Grows sb lost ip ∅ s t ∧
      t.places sb ip = Function.update (s.places sb ip) ((s.inode ip).inum, .entry j) b := by
  have hlo := Owned.le_of_not_used h.owned hb hf
  have hind := h.owned.last h.alloced (by rwa [view_self])
  rw [view_self] at hind
  have hdinode : ∀ i < sb.ninodes, Disk.dinode sb t.disk i = Disk.dinode sb s.disk i := by
    intro i hi
    rw [hdisk, Disk.putEntry, Disk.dinode_update_data hsb hi hind, dinode_take hsb hi hlo]
  have hview : ∀ i < sb.ninodes, t.view sb ip i = s.view sb ip i := by
    intro i hi
    by_cases hii : i = (s.inode ip).inum
    · rw [hii, view_self, ← hinode, view_self]
    · rw [view_of_ne hii, view_of_ne (by rwa [hinode]), hdinode i hi]
  have hstored : stored sb (t.view sb ip) t.disk = stored sb (s.view sb ip) t.disk :=
    stored_congr hview fun _ _ _ => rfl
  have hset := stored_setEntry hsb h.owned h.alloced (by rwa [view_self]) hj hb hf
  have hown := h.owned.setEntry hsb h.alloced (by rwa [view_self]) hj (by rwa [view_self]) hb hf
  rw [view_self, ← hdisk] at hset hown
  have hplaces : t.places sb ip =
      Function.update (s.places sb ip) ((s.inode ip).inum, .entry j) b := by
    rw [places, hstored, hset]
    rfl
  have howned : BlocksOwned sb (t.view sb ip) t.disk lost := by
    unfold BlocksOwned at hown ⊢
    rwa [hstored]
  have hkeep : ∀ x, s.places sb ip x ≠ 0 → t.places sb ip x = s.places sb ip x := by
    intro x hx
    rw [hplaces, Function.update_of_ne]
    rintro rfl
    exact hx (by rw [h.stored_entry hne hj, hz])
  refine ⟨⟨⟨by rw [hinode]; exact h.inum, by rw [hinode]; exact h.type, howned⟩,
    fun jp _ => by rw [hinode], by rw [hinode], hdinode, hkeep, fun j' sl hj' => ?_,
    fun j' o hx _ => byte_congr (hkeep _ hx) ?_⟩, hplaces⟩
  · rw [hplaces, Function.update_of_ne]
    exact fun heq => hj' (Prod.mk.inj heq).1
  · rw [hdisk, Disk.putEntry, Function.update_of_ne]
    · exact take_of_ne hsb hb (h.owned.range hx).1 (Owned.ne_of_not_used h.owned hb hf _)
    -- A block of a file is not an indirect block.
    intro heq
    have hinj := Owned.inj h.owned _ ((s.inode ip).inum, .addr (Fin.last ndirect)) hx
      (by rw [Xv6.stored_addr h.alloced, view_self]; exact heq)
    exact slotOf_ne_last _ (Prod.mk.inj hinj).2

/-- The first block is in use. -/
theorem Held.marked_zero (h : s.Held sb lost ip) (hsb : sb.Wf) : Disk.marked sb s.disk 0 = true :=
  (Owned.used h.owned 0 (h.owned.pos.trans_le hsb.data)).2 (.inl h.owned.pos)

theorem wp_bmapAddr (hsb : sb.Wf) (h : s.Held sb lost ip) {Q : ℕ → Fs → Prop}
    (hnone : ∀ t, Grows sb lost ip ∅ s t → t.DiskFull sb → Q 0 t)
    (hsome : ∀ t, Grows sb lost ip ∅ s t → (t.inode ip).d.addrs k ≠ 0 → Q ((t.inode ip).d.addrs k) t) :
    wp (bmapAddr sb ip k) Q E s := by
  simp only [bmapAddr, wp_bind, wp_get]
  split
  next hz =>
    rw [wp_bind]
    refine wp_balloc (fun hfull p => by
      simpa using hnone { s with printed := p } (.of_eq h rfl rfl) hfull) fun b l hb hf => ?_
    have hb0 : b ≠ 0 := by
      rintro rfl
      rw [h.marked_zero hsb] at hf
      cases hf
    rw [if_neg hb0, wp_bind]
    have hself : (Function.update s.inode ip { s.inode ip with d := (s.inode ip).d.setAddr k b } ip) =
        { s.inode ip with d := (s.inode ip).d.setAddr k b } := Function.update_self ..
    obtain ⟨hg, -⟩ := h.setAddr (t := ⟨Disk.take sb s.disk b, l, s.printed, Function.update s.inode ip
      { s.inode ip with d := (s.inode ip).d.setAddr k b }⟩) hsb hz hb hf rfl hself
      fun jp hjp => Function.update_of_ne hjp _ _
    have haddr : ((Function.update s.inode ip
        { s.inode ip with d := (s.inode ip).d.setAddr k b }) ip).d.addrs k = b := by
      rw [hself]
      exact Dinode.setAddr_self ..
    have hQ := hsome _ hg (by rw [haddr]; exact hb0)
    dsimp only at hQ
    rw [haddr] at hQ
    exact hQ
  next hz => exact hsome s (.refl h) hz

/-- `bmap` returns the block of the file, and only adds blocks. It returns `0` only if there is no
    free block. -/
theorem wp_bmap (hsb : sb.Wf) (h : s.Held sb lost ip) {bn : ℕ} (hbn : bn < maxfile)
    {Q : ℕ → Fs → Prop} (hnone : ∀ t, Grows sb lost ip ∅ s t → t.DiskFull sb → Q 0 t)
    (hsome : ∀ t, Grows sb lost ip ∅ s t → t.places sb ip ((s.inode ip).inum, slotOf bn) ≠ 0 →
      Q (t.places sb ip ((s.inode ip).inum, slotOf bn)) t) : wp (bmap sb ip bn) Q E s := by
  unfold bmap
  split
  next hd =>
    refine wp_bmapAddr hsb h hnone fun t hg hne => ?_
    have hslot : slotOf bn = .addr ⟨bn, by omega⟩ := dif_pos hd
    have hst := hg.held.stored_addr (k := ⟨bn, by omega⟩)
    rw [hg.inum] at hst
    have hQ := hsome t hg (by rw [hslot, hst]; exact hne)
    rwa [hslot, hst] at hQ
  next hd =>
    have hslot : slotOf bn = .entry (bn - ndirect) := dif_neg hd
    have hj : bn - ndirect < nindirect := by
      have : bn < ndirect + nindirect := hbn
      omega
    rw [if_pos hj, wp_bind]
    refine wp_bmapAddr hsb h (by simpa using hnone) fun t hg hne => ?_
    rw [if_neg hne, wp_bind, wp_get]
    have hst := hg.held.stored_entry hne hj
    rw [hg.inum, ← hslot] at hst
    split
    next hz =>
      rw [wp_bind]
      refine wp_balloc (fun hfull p => ?_) fun b l hb hf => ?_
      · have hp := (hg.trans (.of_eq (t := { t with printed := p }) hg.held rfl rfl)).mono
          (Set.union_empty ∅).subset
        simpa using hnone _ hp hfull
      have hb0 : b ≠ 0 := by
        rintro rfl
        rw [hg.held.marked_zero hsb] at hf
        cases hf
      rw [if_neg hb0, wp_bind, wp_get, wp_bind]
      obtain ⟨hg', hpl⟩ := hg.held.setEntry (t := ⟨Disk.putEntry (Disk.take sb t.disk b)
        ((t.inode ip).d.addrs (Fin.last ndirect)) (bn - ndirect) b,
        (t.inode ip).d.addrs (Fin.last ndirect) :: l, t.printed, t.inode⟩) hsb hj hne hz hb hf rfl rfl
      have hpl' := congrFun hpl ((t.inode ip).inum, .entry (bn - ndirect))
      rw [Function.update_self, hg.inum, ← hslot] at hpl'
      have hQ := hsome _ ((hg.trans hg').mono (Set.union_empty ∅).subset) (by rw [hpl']; exact hb0)
      rw [hpl'] at hQ
      exact hQ
    next hz =>
      have hQ := hsome t hg (by rw [hst]; exact hz)
      rwa [hst] at hQ

end Fs

end Xv6
