import Xv6.Fs.Sync

/-!
# The table of inodes

What `iget`, `idup`, `ilock`, `ialloc` and `iput` do to the inodes in memory and on the disk. A
number has one entry in the table at most, as `iget` looks for it first.
-/

namespace Xv6

namespace Fs

variable {sb : Superblock} {s t u : Fs} {ip : Fin ninode} {i inum : ℕ} {lost : Set ℕ}
  {E : FsPanic → Fs → Prop}

/-- Changing an entry of the table. -/
theorem wp_setInode {f : MemInode → MemInode} {Q : PUnit → Fs → Prop}
    (hQ : ∀ v : Fs, v.disk = u.disk → v.logged = u.logged → v.printed = u.printed →
      v.inode ip = f (u.inode ip) → (∀ jp, jp ≠ ip → v.inode jp = u.inode jp) → Q ⟨⟩ v) :
    wp (setInode ip f) Q E u :=
  hQ { u with inode := _ } rfl rfl rfl (Function.update_self ..) fun _ hjp =>
    Function.update_of_ne hjp _ _

/-- Writing a dinode. -/
theorem wp_writeDinode {x : Dinode} {Q : PUnit → Fs → Prop}
    (hQ : ∀ v : Fs, v.disk = Disk.putDinode sb u.disk i x → v.printed = u.printed →
      v.inode = u.inode → Q ⟨⟩ v) : wp (writeDinode sb i x) Q E u :=
  hQ ⟨_, sb.iblock i :: u.logged, u.printed, u.inode⟩ rfl rfl rfl

/-! ## `iget`, `idup` and `ilock` -/

/-- The entry `ip` was returned by `iget`. -/
structure Got (inum : ℕ) (s : Fs) (ip : Fin ninode) (t : Fs) : Prop where
  disk : t.disk = s.disk
  frame : ∀ jp, jp ≠ ip → t.inode jp = s.inode jp
  slot : (0 < (s.inode ip).ref ∧ (s.inode ip).inum = inum ∧
      t.inode ip = { s.inode ip with ref := (s.inode ip).ref + 1 }) ∨
    ((s.inode ip).ref = 0 ∧ (∀ jp, 0 < (s.inode jp).ref → (s.inode jp).inum ≠ inum) ∧
      t.inode ip = { s.inode ip with inum := inum, ref := 1, valid := false })

/-- Every entry of the table is in use. -/
def TableFull (s : Fs) : Prop := ∀ ip, 0 < (s.inode ip).ref

theorem wp_iget {Q : Fin ninode → Fs → Prop} (hQ : ∀ ip t, Got inum s ip t → Q ip t)
    (hE : s.TableFull → E .igetNoInodes s) : wp (iget inum) Q E s := by
  simp only [iget, wp_bind, wp_get]
  split
  next ip hip =>
    have hp := List.find?_some hip
    simp only [decide_eq_true_eq] at hp
    rw [wp_bind]
    refine wp_setInode fun v hdisk _ _ hself hframe => ?_
    exact hQ ip v ⟨hdisk, hframe, .inl ⟨hp.1, hp.2, hself⟩⟩
  next hnone =>
    have hno : ∀ jp, 0 < (s.inode jp).ref → (s.inode jp).inum ≠ inum := by
      intro jp hr heq
      have := List.find?_eq_none.1 hnone jp (List.mem_finRange jp)
      simp only [decide_eq_true_eq] at this
      exact this ⟨hr, heq⟩
    split
    next ip hip =>
      have hp := List.find?_some hip
      simp only [decide_eq_true_eq] at hp
      rw [wp_bind]
      refine wp_setInode fun v hdisk _ _ hself hframe => ?_
      exact hQ ip v ⟨hdisk, hframe, .inr ⟨hp, hno, hself⟩⟩
    next hfull =>
      refine hE fun ip => ?_
      have := List.find?_eq_none.1 hfull ip (List.mem_finRange ip)
      simp only [decide_eq_true_eq] at this
      exact Nat.pos_of_ne_zero this

theorem Got.ref_pos (h : Got inum s ip t) : 0 < (t.inode ip).ref := by
  rcases h.slot with ⟨_, _, hs⟩ | ⟨_, _, hs⟩
  · rw [hs]
    exact Nat.succ_pos _
  · rw [hs]
    exact Nat.one_pos

theorem Got.inum_eq (h : Got inum s ip t) : (t.inode ip).inum = inum := by
  rcases h.slot with ⟨_, hi, hs⟩ | ⟨_, _, hs⟩
  · rw [hs]
    exact hi
  · rw [hs]

theorem Got.table {I : ℕ → Dinode} (h : TableOk sb I s.inode) (hi : inum < sb.ninodes)
    (hg : Got inum s ip t) : TableOk sb I t.inode := by
  have hold : ∀ jp, jp ≠ ip → 0 < (t.inode jp).ref → (t.inode jp).inum ≠ inum := by
    intro jp hjp hr heq
    rw [hg.frame jp hjp] at hr heq
    rcases hg.slot with ⟨hr', hi', _⟩ | ⟨_, hno, _⟩
    · exact hjp (h.distinct jp ip hr hr' (heq.trans hi'.symm))
    · exact hno jp hr heq
  refine ⟨fun jp hr => ?_, fun jp kp hj hk hjk => ?_, fun jp hr hv => ?_, fun jp hr hv => ?_⟩
  · by_cases hjp : jp = ip
    · rw [hjp, hg.inum_eq]
      exact hi
    · rw [hg.frame jp hjp] at hr ⊢
      exact h.inum jp hr
  · by_cases hjp : jp = ip <;> by_cases hkp : kp = ip
    · rw [hjp, hkp]
    · rw [hjp, hg.inum_eq] at hjk
      exact absurd hjk.symm (hold kp hkp hk)
    · rw [hkp, hg.inum_eq] at hjk
      exact absurd hjk (hold jp hjp hj)
    · rw [hg.frame jp hjp] at hj hjk
      rw [hg.frame kp hkp] at hk hjk
      exact h.distinct jp kp hj hk hjk
  · by_cases hjp : jp = ip
    · subst hjp
      rcases hg.slot with ⟨hr', _, hs⟩ | ⟨_, _, hs⟩
      · rw [hs] at hv ⊢
        exact h.copy jp hr' hv
      · rw [hs] at hv
        cases hv
    · rw [hg.frame jp hjp] at hr hv ⊢
      exact h.copy jp hr hv
  · by_cases hjp : jp = ip
    · subst hjp
      rcases hg.slot with ⟨hr', _, hs⟩ | ⟨_, _, hs⟩
      · rw [hs] at hv ⊢
        exact h.type jp hr' hv
      · rw [hs] at hv
        cases hv
    · rw [hg.frame jp hjp] at hr hv ⊢
      exact h.type jp hr hv

/-- The table after the references to entries in use have changed. -/
theorem TableOk.setRef {I : ℕ → Dinode} (h : TableOk sb I s.inode) {r : ℕ}
    (href : 0 < (s.inode ip).ref) (hself : t.inode ip = { s.inode ip with ref := r })
    (hframe : ∀ jp, jp ≠ ip → t.inode jp = s.inode jp) : TableOk sb I t.inode := by
  have hslot : ∀ jp, 0 < (t.inode jp).ref → 0 < (s.inode jp).ref ∧
      (t.inode jp).inum = (s.inode jp).inum ∧ (t.inode jp).valid = (s.inode jp).valid ∧
      (t.inode jp).d = (s.inode jp).d := by
    intro jp hr
    by_cases hjp : jp = ip
    · rw [hjp, hself]
      exact ⟨href, rfl, rfl, rfl⟩
    · rw [hframe jp hjp] at hr ⊢
      exact ⟨hr, rfl, rfl, rfl⟩
  refine ⟨fun jp hr => ?_, fun jp kp hj hk hjk => ?_, fun jp hr hv => ?_, fun jp hr hv => ?_⟩
  · obtain ⟨hr', hi, -⟩ := hslot jp hr
    rw [hi]
    exact h.inum jp hr'
  · obtain ⟨hj', hij, -⟩ := hslot jp hj
    obtain ⟨hk', hik, -⟩ := hslot kp hk
    exact h.distinct jp kp hj' hk' (by rw [← hij, ← hik, hjk])
  · obtain ⟨hr', hi, hval, hd⟩ := hslot jp hr
    rw [hd, hi]
    exact h.copy jp hr' (by rw [← hval]; exact hv)
  · obtain ⟨hr', hi, hval, hd⟩ := hslot jp hr
    rw [hd]
    exact h.type jp hr' (by rw [← hval]; exact hv)

/-- The inode of an entry in use is read from the disk. -/
theorem TableOk.load {I : ℕ → Dinode} (h : TableOk sb I s.inode)
    (hself : t.inode ip = { s.inode ip with d := I (s.inode ip).inum, valid := true })
    (htype : (I (s.inode ip).inum).type ≠ 0)
    (hframe : ∀ jp, jp ≠ ip → t.inode jp = s.inode jp) : TableOk sb I t.inode := by
  have hslot : ∀ jp, (t.inode jp).ref = (s.inode jp).ref ∧
      (t.inode jp).inum = (s.inode jp).inum := by
    intro jp
    by_cases hjp : jp = ip
    · rw [hjp, hself]
      exact ⟨rfl, rfl⟩
    · rw [hframe jp hjp]
      exact ⟨rfl, rfl⟩
  refine ⟨fun jp hr => ?_, fun jp kp hj hk hjk => ?_, fun jp hr hv => ?_, fun jp hr hv => ?_⟩
  · rw [(hslot jp).2]
    exact h.inum jp (by rwa [← (hslot jp).1])
  · rw [(hslot jp).2, (hslot kp).2] at hjk
    exact h.distinct jp kp (by rwa [← (hslot jp).1]) (by rwa [← (hslot kp).1]) hjk
  · by_cases hjp : jp = ip
    · rw [hjp, hself]
    · rw [hframe jp hjp] at hr hv ⊢
      exact h.copy jp hr hv
  · by_cases hjp : jp = ip
    · rw [hjp, hself]
      exact htype
    · rw [hframe jp hjp] at hr hv ⊢
      exact h.type jp hr hv

/-- `ilock` returns with the inode in memory. -/
theorem wp_ilock {Q : PUnit → Fs → Prop} (h : s.Ok sb lost)
    (hQ : ∀ t, t.Ok sb lost → t.disk = s.disk → t.logged = s.logged → t.printed = s.printed →
      t.Cached ip → (∀ jp, jp ≠ ip → t.inode jp = s.inode jp) →
      t.inode ip = { s.inode ip with d := Disk.dinode sb s.disk (s.inode ip).inum, valid := true } →
      Q ⟨⟩ t)
    (hE : ∀ e t, e = .ilock ∧ (s.inode ip).ref = 0 ∨
      e = .ilockNoType ∧ (Disk.dinode sb s.disk (s.inode ip).inum).type = 0 → E e t) :
    wp (ilock sb ip) Q E s := by
  simp only [ilock, wp_bind, wp_get]
  split
  next hr => exact hE _ _ (.inl ⟨rfl, Nat.lt_one_iff.1 hr⟩)
  next hr =>
  have href : 0 < (s.inode ip).ref := Nat.not_lt.1 hr
  split
  next hv =>
    rw [wp_bind]
    refine wp_setInode fun v hdisk hlog hpr hself hframe => ?_
    split
    next htype => exact hE _ _ (.inr ⟨rfl, htype⟩)
    next htype =>
    have htab := h.table.load hself htype hframe
    refine hQ v ⟨by rw [hdisk]; exact h.owned, by rw [hdisk]; exact htab⟩ hdisk hlog hpr ?_ hframe hself
    rw [Cached, hself]
    exact ⟨href, rfl⟩
  next hv =>
    have hval : (s.inode ip).valid = true := by simpa using hv
    refine hQ s h rfl rfl rfl ⟨href, hval⟩ (fun _ _ => rfl) ?_
    rw [← h.table.copy ip href hval, ← hval]

/-! ## `ialloc` -/

/-- A dinode with no blocks is written in the place of one with no blocks. -/
structure Swapped (sb : Superblock) (lost : Set ℕ) (i : ℕ) (x : Dinode) (s u : Fs) : Prop where
  owned : BlocksOwned sb (Disk.dinode sb u.disk) u.disk lost
  dinode : ∀ j < sb.ninodes, Disk.dinode sb u.disk j = if j = i then x else Disk.dinode sb s.disk j
  stores : u.stores sb = s.stores sb
  others : Others sb i s u

theorem BlocksOwned.swapped {x : Dinode} (hsb : sb.Wf)
    (h : BlocksOwned sb (Disk.dinode sb s.disk) s.disk lost) (hi : i < sb.ninodes)
    (hz : ∀ sl, s.stores sb (i, sl) = 0) (hx : x.Fits) (haddrs : ∀ k, x.addrs k = 0)
    (hdisk : u.disk = Disk.putDinode sb s.disk i x) : Swapped sb lost i x s u := by
  have hdinode : ∀ j < sb.ninodes,
      Disk.dinode sb u.disk j = if j = i then x else Disk.dinode sb s.disk j := by
    intro j _
    rw [hdisk, Disk.dinode_putDinode hx]
  have hdata : ∀ c, sb.nmeta ≤ c → u.disk c = s.disk c := by
    intro c hc
    rw [hdisk, Disk.putDinode_data hsb hi hc]
  have hstores : u.stores sb = s.stores sb := by
    funext ⟨j, sl⟩
    by_cases hj : j = i
    · subst hj
      rw [hz sl]
      by_cases ha : Alloced sb (Disk.dinode sb u.disk) j
      swap
      · exact stored_of_not_alloced ha sl
      have hself : Disk.dinode sb u.disk j = x := by rw [hdinode j hi, if_pos rfl]
      cases sl with
      | addr k => rw [Fs.stores, stored_addr ha, hself, haddrs]
      | entry e => exact stored_entry_of_eq_zero (by rw [hself, haddrs])
    · by_cases hlt : j < sb.ninodes
      swap
      · rw [Fs.stores, Fs.stores, stored_of_not_alloced fun ha => hlt ha.1,
          stored_of_not_alloced fun ha => hlt ha.1]
      have hsame : Disk.dinode sb u.disk j = Disk.dinode sb s.disk j := by
        rw [hdinode j hlt, if_neg hj]
      exact stored_eq_of_dinode hsame fun ha hne => hdata _ (h.last ha hne)
  refine ⟨?_, hdinode, hstores, ⟨fun j hj hji => by rw [hdinode j hj, if_neg hji],
    fun j sl _ => by rw [hstores], fun j o _ hne => ?_⟩⟩
  · have hst : stored sb (Disk.dinode sb u.disk) u.disk = s.stores sb := hstores
    unfold BlocksOwned
    rw [hst, hdisk]
    exact Owned.congr h fun b _ => Disk.marked_putDinode hsb hi
  · have hrange : sb.nmeta ≤ s.stores sb (j, slotOf (o / bsize)) := (h.range hne).1
    rw [byteAt, hstores, hdata _ hrange, byteAt]

/-- A free inode was not read, so that it may be written. -/
theorem Swapped.ok {x : Dinode} (h : s.Ok sb lost) (hsw : Swapped sb lost i x s u)
    (hfree : (Disk.dinode sb s.disk i).type = 0) (hinode : u.inode = s.inode) : u.Ok sb lost := by
  refine ⟨hsw.owned, ?_⟩
  rw [hinode]
  refine { h.table with copy := fun jp hr hv => ?_ }
  have hcopy := h.table.copy jp hr hv
  have hne : (s.inode jp).inum ≠ i := by
    rintro rfl
    exact h.table.type jp hr hv (by rw [hcopy]; exact hfree)
  rw [hsw.dinode _ (h.table.inum jp hr), if_neg hne]
  exact hcopy

/-- The inode that was returned by `ialloc`. -/
structure Alloc (sb : Superblock) (lost : Set ℕ) (type : Int16) (s : Fs) (inum : ℕ)
    (ip : Fin ninode) (t : Fs) : Prop where
  ok : t.Ok sb lost
  inum_pos : 1 ≤ inum
  inum_lt : inum < sb.ninodes
  free : (Disk.dinode sb s.disk inum).type = 0
  got : ∃ u, Swapped sb lost inum (Dinode.new type) s u ∧ u.inode = s.inode ∧ Got inum u ip t

theorem wp_iallocLoop (hsb : sb.Wf) (h : s.Ok sb lost) {type : Int16} {l : List ℕ}
    {Q : Option (Fin ninode) → Fs → Prop} (hl : ∀ i ∈ l, 1 ≤ i ∧ i < sb.ninodes)
    (hnone : ∀ p, Q none { s with printed := p })
    (hsome : ∀ inum ip t, Alloc sb lost type s inum ip t → Q (some ip) t)
    (hE : ∀ t, E .igetNoInodes t) : wp (iallocLoop sb type l) Q E s := by
  induction l with
  | nil => exact hnone _
  | cons i l ih =>
    simp only [iallocLoop, wp_bind, wp_get]
    split
    swap
    · exact ih fun j hj => hl j (List.mem_cons_of_mem i hj)
    next hfree =>
    have hi := hl i List.mem_cons_self
    have hz : ∀ sl, s.stores sb (i, sl) = 0 := stored_of_not_alloced fun ha => ha.2 hfree
    rw [wp_bind]
    refine wp_writeDinode fun u hd _ hinode => ?_
    have hsw := BlocksOwned.swapped hsb h.owned hi.2 hz (Dinode.fits_new type) (fun _ => rfl) hd
    have hok := hsw.ok h hfree hinode
    rw [wp_bind]
    refine wp_iget (fun ip t hg => ?_) fun _ => hE _
    refine hsome i ip t ⟨⟨?_, ?_⟩, hi.1, hi.2, hfree, u, hsw, hinode, hg⟩
    · rw [hg.disk]
      exact hsw.owned
    · rw [hg.disk]
      exact hg.table hok.table hi.2

theorem wp_ialloc (hsb : sb.Wf) (h : s.Ok sb lost) {type : Int16}
    {Q : Option (Fin ninode) → Fs → Prop} (hnone : ∀ p, Q none { s with printed := p })
    (hsome : ∀ inum ip t, Alloc sb lost type s inum ip t → Q (some ip) t)
    (hE : ∀ t, E .igetNoInodes t) : wp (ialloc sb type) Q E s := by
  refine wp_iallocLoop hsb h (fun i hi => ?_) hnone hsome hE
  rw [List.mem_range'_1] at hi
  omega

/-! ## `iput` -/

/-- The inode `ip` was freed with its last reference. -/
structure Freed (sb : Superblock) (lost : Set ℕ) (ip : Fin ninode) (s t : Fs) : Prop where
  ok : t.Ok sb lost
  others : Others sb (s.inode ip).inum s t
  dinode : Disk.dinode sb t.disk (s.inode ip).inum = { (s.inode ip).d.emptied with type := 0 }
  stores : ∀ sl, t.stores sb ((s.inode ip).inum, sl) = 0
  self : t.inode ip = { s.inode ip with
    ref := 0, valid := false, d := { (s.inode ip).d.emptied with type := 0 } }
  frame : ∀ jp, jp ≠ ip → t.inode jp = s.inode jp

/-- A reference to the inode `ip` was dropped. -/
structure Dropped (sb : Superblock) (lost : Set ℕ) (ip : Fin ninode) (s t : Fs) : Prop where
  ok : t.Ok sb lost
  disk : t.disk = s.disk
  logged : t.logged = s.logged
  self : t.inode ip = { s.inode ip with ref := (s.inode ip).ref - 1 }
  frame : ∀ jp, jp ≠ ip → t.inode jp = s.inode jp

/-- An entry that is no longer in use. -/
theorem TableOk.drop {I I' : ℕ → Dinode} (h : TableOk sb I s.inode)
    (hself : (t.inode ip).ref = 0) (hframe : ∀ jp, jp ≠ ip → t.inode jp = s.inode jp)
    (hI : ∀ jp, jp ≠ ip → 0 < (s.inode jp).ref → I' (s.inode jp).inum = I (s.inode jp).inum) :
    TableOk sb I' t.inode := by
  have hslot : ∀ jp, 0 < (t.inode jp).ref → jp ≠ ip := by
    rintro jp hr rfl
    omega
  refine ⟨fun jp hr => ?_, fun jp kp hj hk hjk => ?_, fun jp hr hv => ?_, fun jp hr hv => ?_⟩
  · have hjp := hslot jp hr
    rw [hframe jp hjp] at hr ⊢
    exact h.inum jp hr
  · have hjp := hslot jp hj
    have hkp := hslot kp hk
    rw [hframe jp hjp] at hj hjk
    rw [hframe kp hkp] at hk hjk
    exact h.distinct jp kp hj hk hjk
  · have hjp := hslot jp hr
    rw [hframe jp hjp] at hr hv ⊢
    rw [hI jp hjp hr]
    exact h.copy jp hr hv
  · have hjp := hslot jp hr
    rw [hframe jp hjp] at hr hv ⊢
    exact h.type jp hr hv

theorem wp_iput (hsb : sb.Wf) (h : s.Ok sb lost) (href : 0 < (s.inode ip).ref)
    {Q : PUnit → Fs → Prop}
    (hfree : (s.inode ip).ref = 1 → (s.inode ip).valid = true → (s.inode ip).d.nlink = 0 →
      ∀ t, Freed sb lost ip s t → Q ⟨⟩ t)
    (hdrop : ¬((s.inode ip).ref = 1 ∧ (s.inode ip).valid = true ∧ (s.inode ip).d.nlink = 0) →
      ∀ t, Dropped sb lost ip s t → Q ⟨⟩ t) :
    wp (iput sb ip) Q E s := by
  simp only [iput, wp_bind, wp_get]
  split
  next hcond =>
    obtain ⟨hr, hv, hn⟩ := hcond
    have hc : s.Cached ip := ⟨href, hv⟩
    have hi := h.table.inum ip href
    rw [ifree, wp_bind]
    refine (wp_itrunc_ok hsb h hc).mono (fun _ t₁ ht => ?_) fun _ _ he => he
    rw [wp_bind]
    refine wp_setDinode fun t₂ hd₂ _ _ hself₂ hframe₂ => ?_
    rw [ht.inode.self] at hself₂
    simp only [iupdate, wp_bind, wp_get]
    refine wp_writeDinode fun v hdv _ hv' => ?_
    refine wp_setInode fun t₃ hd₃ _ _ hself₃ hframe₃ => ?_
    rw [hv', hself₂] at hself₃
    rw [hdv, hself₂] at hd₃
    rw [hv'] at hframe₃
    refine wp_setInode fun t₄ hd₄ _ _ hself₄ hframe₄ => ?_
    rw [hself₃] at hself₄
    have hsw := BlocksOwned.swapped (u := t₄) (i := (s.inode ip).inum)
      (x := { (s.inode ip).d.emptied with type := 0 }) hsb ht.ok.owned hi ht.stores
      ⟨by simp [Dinode.emptied], fun k => by simp [Dinode.emptied]⟩ (fun _ => rfl)
      (by rw [hd₄, hd₃, hd₂])
    have hframe : ∀ jp, jp ≠ ip → t₄.inode jp = s.inode jp := by
      intro jp hjp
      rw [hframe₄ jp hjp, hframe₃ jp hjp, hframe₂ jp hjp, ht.inode.frame jp hjp]
    have hself : t₄.inode ip = { s.inode ip with
        ref := 0, valid := false, d := { (s.inode ip).d.emptied with type := 0 } } := by
      rw [hself₄]
      simp [hr]
    refine hfree hr hv hn t₄ ⟨⟨hsw.owned, ?_⟩, ht.others.trans hsw.others, ?_, ?_, hself, hframe⟩
    · refine h.table.drop (by rw [hself]) hframe fun jp hjp hrj => ?_
      exact (ht.others.trans hsw.others).dinode _ (h.table.inum jp hrj)
        fun heq => hjp (h.table.distinct jp ip hrj href heq)
    · rw [hsw.dinode _ hi, if_pos rfl]
    · intro sl
      rw [hsw.stores]
      exact ht.stores sl
  next hcond =>
    rw [wp_pure]
    refine wp_setInode fun v hdisk hlog _ hself hframe => ?_
    have htab := h.table.setRef href hself hframe
    exact hdrop hcond v ⟨⟨by rw [hdisk]; exact h.owned, by rw [hdisk]; exact htab⟩, hdisk, hlog,
      hself, hframe⟩

end Fs

end Xv6
