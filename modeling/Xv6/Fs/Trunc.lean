import Xv6.Fs.Alloc

/-!
# Emptying an inode

`itrunc` releases all blocks of an inode: those in its slots, those in the entries of the
indirect block, and the indirect block itself. It does not erase the entries, so that in the
meantime the disk still shows blocks that are already released. The places are followed apart
from the disk, each one erased when its block is released (`erased`).
-/

namespace Xv6

namespace Fs

variable {sb : Superblock} {s t u : Fs} {ip : Fin ninode} {i b m : ℕ} {st : ℕ × FileSlot → ℕ}
  {x : ℕ × FileSlot} {E : FsPanic → Fs → Prop} {lost : Set ℕ}

/-- Only the bitmap has changed. -/
structure BitmapOnly (sb : Superblock) (s t : Fs) : Prop where
  data : ∀ c, sb.nmeta ≤ c → t.disk c = s.disk c
  dinode : ∀ i < sb.ninodes, Disk.dinode sb t.disk i = Disk.dinode sb s.disk i

theorem BitmapOnly.refl : BitmapOnly sb s s := ⟨fun _ _ => rfl, fun _ _ => rfl⟩

/-- Release the block of a place. -/
theorem wp_bfree_place (hsb : sb.Wf) (hb : BitmapOnly sb s u)
    (h : Owned sb.nmeta sb.size lost (Disk.marked sb u.disk) st) (hx : st x ≠ 0)
    {Q : PUnit → Fs → Prop}
    (hQ : ∀ v, v.inode = u.inode → BitmapOnly sb s v →
      Owned sb.nmeta sb.size lost (Disk.marked sb v.disk) (Function.update st x 0) → Q ⟨⟩ v) :
    wp (bfree sb (st x)) Q E u := by
  refine wp_bfree (h.used_of_ne_zero hx) fun l => hQ _ rfl ⟨fun c hc => ?_, fun i hi => ?_⟩ ?_
  · rw [← hb.data c hc]
    exact Disk.update_bblock_data hsb (h.range x hx).2 hc
  · rw [← hb.dinode i hi]
    exact Disk.dinode_update_bblock hsb hi
  · exact h.free hx fun c _ => Disk.marked_unmark

/-- The dinode with its first `m` slots erased. -/
def clearTo (m : ℕ) (d : Dinode) : Dinode := { d with addrs := fun k => if k.1 < m then 0 else d.addrs k }

/-- The places with the first `m` slots of the inode `i` erased, and the first `m'` entries of
    its indirect block. -/
def erased (st : ℕ × FileSlot → ℕ) (i m m' : ℕ) : ℕ × FileSlot → ℕ
  | (j, .addr k) => if j = i ∧ k.1 < m then 0 else st (j, .addr k)
  | (j, .entry e) => if j = i ∧ e < m' then 0 else st (j, .entry e)

theorem erased_zero : erased st i 0 0 = st := by
  funext ⟨j, sl⟩
  cases sl <;> simp [erased]

theorem erased_succ_addr (k : Fin (ndirect + 1)) (m' : ℕ) :
    erased st i (k + 1) m' = Function.update (erased st i k m') (i, .addr k) 0 := by
  funext ⟨j, sl⟩
  cases sl with
  | addr k' =>
    rw [Function.update_apply]
    simp only [erased, Prod.mk.injEq, FileSlot.addr.injEq]
    by_cases hj : j = i
    · by_cases hk : k' = k
      · simp [hj, hk]
      · have : (k' : ℕ) ≠ k := fun h => hk (Fin.ext h)
        simp only [hj, hk, true_and, and_false, if_false]
        congr 1
        simp only [eq_iff_iff]
        omega
    · simp [hj]
  | entry e => simp [erased]

theorem erased_succ_entry (m e : ℕ) :
    erased st i m (e + 1) = Function.update (erased st i m e) (i, .entry e) 0 := by
  funext ⟨j, sl⟩
  cases sl with
  | addr k => simp [erased]
  | entry e' =>
    rw [Function.update_apply]
    simp only [erased, Prod.mk.injEq, FileSlot.entry.injEq]
    by_cases hj : j = i
    · by_cases hk : e' = e
      · simp [hj, hk]
      · simp only [hj, hk, true_and, and_false, if_false]
        congr 1
        simp only [eq_iff_iff]
        omega
    · simp [hj]

/-- How far the emptying of an inode is. -/
structure Truncating (sb : Superblock) (lost : Set ℕ) (ip : Fin ninode) (s : Fs) (m m' : ℕ) (u : Fs) : Prop where
  bitmap : BitmapOnly sb s u
  inode : u.inode = Function.update s.inode ip { s.inode ip with d := clearTo m (s.inode ip).d }
  owned : Owned sb.nmeta sb.size lost (Disk.marked sb u.disk)
    (erased (s.places sb ip) (s.inode ip).inum m m')

theorem Truncating.self (h : Truncating sb lost ip s m b u) :
    u.inode ip = { s.inode ip with d := clearTo m (s.inode ip).d } := by
  rw [h.inode]
  exact Function.update_self ..

theorem clearTo_zero (d : Dinode) : clearTo 0 d = d := by
  simp [clearTo]

theorem clearTo_succ (d : Dinode) (k : Fin (ndirect + 1)) :
    clearTo (k + 1) d = (clearTo k d).setAddr k 0 := by
  unfold clearTo Dinode.setAddr
  congr 1
  funext k'
  rw [Function.update_apply]
  by_cases hk : k' = k
  · simp [hk]
  · have : (k' : ℕ) ≠ k := fun h => hk (Fin.ext h)
    rw [if_neg hk]
    congr 1
    simp only [eq_iff_iff]
    omega

theorem Truncating.init (h : s.Held sb lost ip) : Truncating sb lost ip s 0 0 s := by
  refine ⟨.refl, ?_, ?_⟩
  · rw [clearTo_zero]
    exact (Function.update_eq_self ip s.inode).symm
  · rw [erased_zero]
    exact h.owned

/-- One more slot. -/
theorem Truncating.addr (hsb : sb.Wf) (hs : s.Held sb lost ip) (k : Fin (ndirect + 1))
    (h : Truncating sb lost ip s k b u) :
    wp (truncDirect sb ip k) (fun _ => Truncating sb lost ip s (k + 1) b) E u := by
  have hself : (u.inode ip).d.addrs k = (s.inode ip).d.addrs k := by
    rw [h.self]
    simp [clearTo]
  have hst : erased (s.places sb ip) (s.inode ip).inum k b ((s.inode ip).inum, .addr k) =
      (s.inode ip).d.addrs k := by
    simp [erased, hs.stored_addr]
  simp only [truncDirect, wp_bind, wp_get, k.2, dite_true, Fin.eta]
  rw [hself]
  split
  next hne =>
    rw [wp_bind, ← hst]
    refine wp_bfree_place hsb h.bitmap h.owned (by rw [hst]; exact hne) fun v hv hb ho => ?_
    refine ⟨⟨hb.data, hb.dinode⟩, ?_, ?_⟩
    · change Function.update v.inode ip { v.inode ip with d := (v.inode ip).d.setAddr k 0 } = _
      rw [hv, h.inode, Function.update_idem, Function.update_self, clearTo_succ]
    · rw [erased_succ_addr]
      exact ho
  next hz =>
    rw [not_not] at hz
    refine ⟨h.bitmap, ?_, ?_⟩
    · rw [h.inode, clearTo_succ]
      congr 2
      unfold Dinode.setAddr
      rw [Function.update_eq_self_iff.2]
      simp [clearTo, hz]
    · rw [erased_succ_addr, Function.update_eq_self_iff.2 (by rw [hst, hz])]
      exact h.owned

/-- One more entry. -/
theorem Truncating.entry (hsb : sb.Wf) (hs : s.Held sb lost ip)
    (hne : (s.inode ip).d.addrs (Fin.last ndirect) ≠ 0) {e : ℕ} (he : e < nindirect)
    (h : Truncating sb lost ip s m e u) :
    wp (truncEntry sb (s.disk ((s.inode ip).d.addrs (Fin.last ndirect))) e)
      (fun _ => Truncating sb lost ip s m (e + 1)) E u := by
  have hst : erased (s.places sb ip) (s.inode ip).inum m e ((s.inode ip).inum, .entry e) =
      (s.disk ((s.inode ip).d.addrs (Fin.last ndirect))).getLE 4 (4 * e) := by
    have := hs.stored_entry hne he
    simp [erased, this, Disk.entry]
  unfold truncEntry
  split
  next hnz =>
    rw [← hst] at hnz ⊢
    refine wp_bfree_place hsb h.bitmap h.owned hnz fun v hv hb ho => ⟨hb, ?_, ?_⟩
    · rw [hv]
      exact h.inode
    · rw [erased_succ_entry]
      exact ho
  next hz =>
    rw [not_not, ← hst] at hz
    refine ⟨h.bitmap, h.inode, ?_⟩
    rw [erased_succ_entry, Function.update_eq_self_iff.2 hz.symm]
    exact h.owned

/-- The places of the inode are all erased. -/
theorem erased_all (hst : ∀ e, nindirect ≤ e → st (i, .entry e) = 0) :
    erased st i (ndirect + 1) nindirect = fun x => if x.1 = i then 0 else st x := by
  funext ⟨j, sl⟩
  by_cases hj : j = i
  · subst hj
    cases sl with
    | addr k =>
      rw [erased, if_pos ⟨rfl, k.2⟩, if_pos rfl]
    | entry e =>
      by_cases he : e < nindirect
      · simp [erased, he]
      · simp [erased, he, hst e (Nat.not_lt.1 he)]
  · cases sl <;> simp [erased, hj]

theorem places_entry_of_le {e : ℕ} (he : nindirect ≤ e) : s.places sb ip (i, .entry e) = 0 :=
  if_neg fun h => absurd h.2.2 (Nat.not_lt.2 he)

/-- The indirect block and its entries. -/
theorem wp_truncIndirect (hsb : sb.Wf) (hs : s.Held sb lost ip) (h : Truncating sb lost ip s ndirect 0 u) :
    wp (truncIndirect sb ip) (fun _ => Truncating sb lost ip s (ndirect + 1) nindirect) E u := by
  have hself : (u.inode ip).d.addrs (Fin.last ndirect) = (s.inode ip).d.addrs (Fin.last ndirect) := by
    rw [h.self]
    simp [clearTo]
  simp only [truncIndirect, wp_bind, wp_get]
  rw [hself]
  split
  next hne =>
    have hlast : sb.nmeta ≤ (s.inode ip).d.addrs (Fin.last ndirect) := by
      have := hs.owned.last hs.alloced (by rwa [view_self])
      rwa [view_self] at this
    rw [h.bitmap.data _ hlast, wp_bind]
    refine (wp_forRange (Truncating sb lost ip s ndirect) h fun e v _ he hv => ?_).mono
      (fun _ v hv => ?_) fun _ _ he => he
    · exact hv.entry hsb hs hne (by simpa using he)
    -- The indirect block itself.
    have hst : erased (s.places sb ip) (s.inode ip).inum ndirect (0 + nindirect)
        ((s.inode ip).inum, .addr (Fin.last ndirect)) = (s.inode ip).d.addrs (Fin.last ndirect) := by
      simp [erased, hs.stored_addr]
    rw [wp_bind, ← hst]
    refine wp_bfree_place hsb hv.bitmap hv.owned (by rw [hst]; exact hne) fun w hw hb ho => ?_
    refine ⟨⟨hb.data, hb.dinode⟩, ?_, ?_⟩
    · change Function.update w.inode ip
        { w.inode ip with d := (w.inode ip).d.setAddr (Fin.last ndirect) 0 } = _
      rw [hw, hv.inode, Function.update_idem, Function.update_self]
      rw [show ndirect + 1 = (Fin.last ndirect : ℕ) + 1 from rfl, clearTo_succ]
      rfl
    · rw [show ndirect + 1 = (Fin.last ndirect : ℕ) + 1 from rfl, erased_succ_addr]
      simpa using ho
  next hz =>
    rw [not_not] at hz
    refine ⟨h.bitmap, ?_, ?_⟩
    · rw [h.inode, show ndirect + 1 = (Fin.last ndirect : ℕ) + 1 from rfl, clearTo_succ]
      congr 2
      unfold Dinode.setAddr
      rw [Function.update_eq_self_iff.2]
      · rfl
      · simp [clearTo, hz]
    · -- There was nothing to release.
      have heq : erased (s.places sb ip) (s.inode ip).inum (ndirect + 1) nindirect =
          erased (s.places sb ip) (s.inode ip).inum ndirect 0 := by
        funext x
        obtain ⟨j, sl⟩ := x
        by_cases hj : j = (s.inode ip).inum
        · subst hj
          cases sl with
          | addr k =>
            by_cases hk : k = Fin.last ndirect
            · subst hk
              simp [erased, hs.stored_addr, hz]
            · have : (k : ℕ) < ndirect := by
                have := Fin.val_lt_last hk
                exact this
              simp [erased, this, Nat.lt_succ_of_lt this]
          | entry e =>
            have : s.places sb ip ((s.inode ip).inum, .entry e) = 0 :=
              stored_entry_of_eq_zero (by rwa [view_self])
            simp [erased, this]
        · cases sl <;> simp [erased, hj]
      rw [heq]
      exact h.owned

/-- The file system after the inode `ip` is emptied and written. -/
structure Emptied (sb : Superblock) (lost : Set ℕ) (ip : Fin ninode) (s t : Fs) : Prop where
  inode : t.inode = Function.update s.inode ip { s.inode ip with d := (s.inode ip).d.emptied }
  dinode : ∀ i < sb.ninodes, Disk.dinode sb t.disk i =
    if i = (s.inode ip).inum then (s.inode ip).d.emptied else Disk.dinode sb s.disk i
  data : ∀ c, sb.nmeta ≤ c → t.disk c = s.disk c
  owned : Owned sb.nmeta sb.size lost (Disk.marked sb t.disk)
    fun x => if x.1 = (s.inode ip).inum then 0 else s.places sb ip x

theorem clearTo_emptied (d : Dinode) : { clearTo (ndirect + 1) d with size := 0 } = d.emptied := by
  simp only [clearTo, Dinode.emptied, Dinode.mk.injEq, true_and]
  funext k
  exact if_pos k.2

theorem fits_emptied (d : Dinode) : d.emptied.Fits :=
  ⟨by simp [Dinode.emptied], fun k => by simp [Dinode.emptied]⟩

/-- `itrunc` empties the inode. -/
theorem wp_itrunc (hsb : sb.Wf) (hs : s.Held sb lost ip) :
    wp (itrunc sb ip) (fun _ => Emptied sb lost ip s) E s := by
  rw [itrunc, wp_bind]
  refine (wp_forRange (fun m => Truncating sb lost ip s m 0) (.init hs) fun m u _ hm hu => ?_).mono
    (fun _ u hu => ?_) fun _ _ he => he
  · exact Truncating.addr hsb hs ⟨m, by omega⟩ hu
  rw [wp_bind]
  refine (wp_truncIndirect hsb hs (by simpa using hu)).mono (fun _ v hv => ?_) fun _ _ he => he
  have hinode : Function.update v.inode ip { v.inode ip with d := { (v.inode ip).d with size := 0 } } =
      Function.update s.inode ip { s.inode ip with d := (s.inode ip).d.emptied } := by
    rw [hv.inode, Function.update_idem, Function.update_self, ← clearTo_emptied]
  have hself : (Function.update v.inode ip
      { v.inode ip with d := { (v.inode ip).d with size := 0 } }) ip =
      { s.inode ip with d := (s.inode ip).d.emptied } := by
    rw [hinode]
    exact Function.update_self ..
  refine ⟨hinode, fun i hi => ?_, fun c hc => ?_, ?_⟩
  · change Disk.dinode sb (Disk.putDinode sb v.disk (Function.update v.inode ip _ ip).inum
      (Function.update v.inode ip _ ip).d) i = _
    rw [hself, Disk.dinode_putDinode (fits_emptied _), hv.bitmap.dinode i hi]
  · change Disk.putDinode sb v.disk (Function.update v.inode ip _ ip).inum _ c = _
    rw [hself, Disk.putDinode_data hsb hs.inum hc, hv.bitmap.data c hc]
  · rw [← erased_all fun e he => places_entry_of_le he]
    refine hv.owned.congr fun c _ => ?_
    change Disk.marked sb (Disk.putDinode sb v.disk (Function.update v.inode ip _ ip).inum _) c = _
    rw [hself, Disk.marked_putDinode hsb hs.inum]

end Fs

end Xv6
