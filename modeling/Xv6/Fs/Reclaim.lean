import Xv6.Fs.Tree
import Xv6.Lib.Lockstep

/-!
# Orphans

If the system crashes while a file that has no links is open, its inode stays allocated: it is an
*orphan*. At boot, `ireclaim` goes through the inodes, and frees each orphan by getting, locking and
dropping it, in an operation of its own.

From a file system with orphans (`Recovered`), `ireclaim` frees all of them, with their blocks, and
changes no other file (`orphans_reclaimed`). As an operation takes effect as a whole or not at all,
a crash leaves the disk as it is between two inodes; however often this happens, the next boot ends
with the same disk (`reclaim_restarts`), as what `ireclaim` does depends only on the disk and on
the inodes in use (`SameUse`).
-/

namespace Xv6

namespace Fs

/-! ## The code -/

section

variable (sb : Superblock)

/-- `ireclaim`, for one inode. -/
def reclaim (inum : ℕ) : FsM PUnit := do
  let s ← get
  if (Disk.dinode sb s.disk inum).type ≠ 0 ∧ (Disk.dinode sb s.disk inum).nlink = 0 then do
    printf ("ireclaim: orphaned inode " ++ toString inum ++ "\n")
    let ip ← iget inum
    ilock sb ip
    iput sb ip
  else pure ⟨⟩

/-- `ireclaim`. -/
def ireclaim : FsM PUnit := forRange (reclaim sb) 1 (sb.ninodes - 1)

/-- The inodes in memory when `ireclaim` is called: the first process has the root directory. -/
def boot (d : Disk) : Fs where
  disk := d
  logged := []
  printed := []
  inode ip := { inum := rootIno, ref := if ip = 0 then 1 else 0, valid := false, d := Dinode.new 0 }

end

/-! ## What is freed -/

/-- The inode is allocated, and has no links. -/
def Orphan (sb : Superblock) (s : Fs) (i : ℕ) : Prop :=
  (Disk.dinode sb s.disk i).type ≠ 0 ∧ (Disk.dinode sb s.disk i).nlink = 0

instance decidableOrphan (sb : Superblock) (s : Fs) (i : ℕ) : Decidable (Orphan sb s i) :=
  inferInstanceAs (Decidable (_ ∧ _))

/-- A file system with orphans. The inodes in use have links, and there is room for one more. -/
structure Recovered (sb : Superblock) (lost : Set ℕ) (s : Fs) : Prop where
  ok : s.Ok sb lost
  noHoles : s.NoHoles sb
  root : rootIno < sb.ninodes
  room : ¬s.TableFull
  held : ∀ ip, 0 < (s.inode ip).ref → (Disk.dinode sb s.disk (s.inode ip).inum).type ≠ 0 ∧
    (Disk.dinode sb s.disk (s.inode ip).inum).nlink ≠ 0
  unused : (Disk.dinode sb s.disk 0).type = 0
  free : ∀ i < sb.ninodes, (Disk.dinode sb s.disk i).type = 0 → (Disk.dinode sb s.disk i).nlink = 0
  range : ∀ i < sb.ninodes, (Disk.dinode sb s.disk i).type = tDir →
    ∀ k, 16 * k + 16 ≤ (Disk.dinode sb s.disk i).size → (s.entry sb i k).inum < sb.ninodes

/-- The inode `i`, its blocks and its data are as they were. -/
structure Untouched (sb : Superblock) (i : ℕ) (s t : Fs) : Prop where
  dinode : i < sb.ninodes → Disk.dinode sb t.disk i = Disk.dinode sb s.disk i
  stores : ∀ sl, t.stores sb (i, sl) = s.stores sb (i, sl)
  data : ∀ o, s.stores sb (i, slotOf (o / bsize)) ≠ 0 → t.byteAt sb i o = s.byteAt sb i o

/-- The orphans below `i` were freed, and nothing else has changed; the inodes in use are the
    same. -/
structure Swept (sb : Superblock) (lost : Set ℕ) (s : Fs) (i : ℕ) (t : Fs) : Prop where
  ok : t.Ok sb lost
  noHoles : t.NoHoles sb
  ref : ∀ ip, (t.inode ip).ref = (s.inode ip).ref
  inode : ∀ ip, 0 < (s.inode ip).ref → t.inode ip = s.inode ip
  kept : ∀ j, (1 ≤ j → j < i → ¬Orphan sb s j) → Untouched sb j s t
  freed : ∀ j, 1 ≤ j → j < i → j < sb.ninodes → Orphan sb s j →
    (Disk.dinode sb t.disk j).type = 0 ∧ (Disk.dinode sb t.disk j).nlink = 0 ∧
      ∀ sl, t.stores sb (j, sl) = 0

variable {sb : Superblock} {s t u : Fs} {ip : Fin ninode} {i j k : ℕ} {lost : Set ℕ} {d d' : Disk}

theorem Untouched.refl (sb : Superblock) (i : ℕ) (s : Fs) : Untouched sb i s s :=
  ⟨fun _ => rfl, fun _ => rfl, fun _ _ => rfl⟩

theorem Untouched.trans (h : Untouched sb i s t) (h' : Untouched sb i t u) :
    Untouched sb i s u where
  dinode hi := (h'.dinode hi).trans (h.dinode hi)
  stores sl := (h'.stores sl).trans (h.stores sl)
  data o ho := (h'.data o (by rwa [h.stores])).trans (h.data o ho)

theorem Others.untouched (ho : Others sb i s t) (hj : j ≠ i) : Untouched sb j s t where
  dinode hjn := ho.dinode j hjn hj
  stores sl := ho.stores j sl hj
  data o := ho.data j o hj

theorem Untouched.orphan (h : Untouched sb i s t) (hi : i < sb.ninodes) :
    Orphan sb t i ↔ Orphan sb s i := by
  rw [Orphan, Orphan, h.dinode hi]

theorem Untouched.of_disk (hd : t.disk = s.disk) : Untouched sb i s t where
  dinode _ := by rw [hd]
  stores _ := by rw [stores_congr hd]
  data o _ := by rw [byteAt, stores_congr hd, hd, byteAt]

/-- An orphan is got, locked and dropped. -/
theorem wp_orphan (hsb : sb.Wf) (hok : t.Ok sb lost) (hi : i < sb.ninodes) (ho : Orphan sb t i)
    (hroom : ¬t.TableFull) (hout : ∀ ip, 0 < (t.inode ip).ref → (t.inode ip).inum ≠ i) :
    wp (do
      let ip ← iget i
      ilock sb ip
      iput sb ip) (fun _ u => u.Ok sb lost ∧ (t.NoHoles sb → u.NoHoles sb) ∧
        (∀ ip, (u.inode ip).ref = (t.inode ip).ref) ∧
        (∀ ip, 0 < (t.inode ip).ref → u.inode ip = t.inode ip) ∧ Others sb i t u ∧
        (Disk.dinode sb u.disk i).type = 0 ∧ (Disk.dinode sb u.disk i).nlink = 0 ∧
        ∀ sl, u.stores sb (i, sl) = 0) (fun _ _ => False) t := by
  rw [wp_bind]
  refine wp_iget (fun ip u hg => ?_) fun hfull => hroom hfull
  -- The orphan is in no entry of the table, so that `iget` takes a free one.
  obtain ⟨hr, hinum, -⟩ | ⟨href, -, hslot⟩ := hg.slot
  · exact (hout ip hr hinum).elim
  have huok : u.Ok sb lost := by
    refine ⟨by rw [hg.disk]; exact hok.owned, ?_⟩
    rw [hg.disk]
    exact hg.table hok.table hi
  have hui : (u.inode ip).inum = i := hg.inum_eq
  have hud : Disk.dinode sb u.disk (u.inode ip).inum = Disk.dinode sb t.disk i := by
    rw [hui, hg.disk]
  rw [wp_bind]
  refine wp_ilock huok (fun v hvok hvd _ _ _ hvframe hvself => ?_) fun e v he => ?_
  swap
  · obtain ⟨-, hr⟩ | ⟨-, htype⟩ := he
    · exact hg.ref_pos.ne' hr
    · exact ho.1 (hud ▸ htype)
  have hvi : (v.inode ip).inum = i := by rw [hvself, hui]
  have hdisk : v.disk = t.disk := hvd.trans hg.disk
  -- Its only reference is this one, and it has no links: `iput` frees it.
  refine wp_iput hsb hvok (by rw [hvself]; exact hg.ref_pos) (fun _ _ _ w hf => ?_) fun hnot => ?_
  swap
  · refine (hnot ⟨?_, ?_, ?_⟩).elim
    · rw [hvself, hslot]
    · rw [hvself]
    · rw [hvself, hud]
      exact ho.2
  have hothers := hf.others
  rw [hvi] at hothers
  have hdinode := hf.dinode
  rw [hvi] at hdinode
  have hstores := hf.stores
  rw [hvi] at hstores
  have hentry : ∀ jp, jp ≠ ip → w.inode jp = t.inode jp := fun jp hjp => by
    rw [hf.frame jp hjp, hvframe jp hjp, hg.frame jp hjp]
  refine ⟨hf.ok, fun hno => hf.noHoles (hno.of_disk hdisk), fun jp => ?_, fun jp hjp => ?_,
    ?_, ?_, ?_, hstores⟩
  · by_cases hjp : jp = ip
    · rw [hjp, hf.self, href]
    · rw [hentry jp hjp]
  · refine hentry jp ?_
    rintro rfl
    exact hjp.ne' href
  · exact ⟨fun j hj hji => by rw [hothers.dinode j hj hji, hdisk],
      fun j sl hji => by rw [hothers.stores j sl hji, stores_congr hdisk],
      fun j o hji hne => by
        rw [← stores_congr hdisk] at hne
        rw [hothers.data j o hji hne, byteAt, stores_congr hdisk, hdisk, byteAt]⟩
  · rw [hdinode]
  · rw [hdinode, hvself, hud]
    exact ho.2

/-- One step of the loop. -/
theorem Swept.wp_reclaim (hsb : sb.Wf) (hs : s.Recovered sb lost) (h : Swept sb lost s i t)
    (hpos : 1 ≤ i) (hi : i < sb.ninodes) :
    wp (reclaim sb i) (fun _ u => Swept sb lost s (i + 1) u) (fun _ _ => False) t := by
  have hsame := h.kept i fun _ hlt => (lt_irrefl i hlt).elim
  rw [reclaim, wp_bind, wp_get]
  split
  swap
  next hno =>
    have hnot : ¬Orphan sb s i := fun ho => hno ((hsame.orphan hi).2 ho)
    refine ⟨h.ok, h.noHoles, h.ref, h.inode, fun j hj => h.kept j fun hj₁ hji => ?_,
      fun j hj₁ hji hjn ho => ?_⟩
    · exact hj hj₁ (Nat.lt_succ_of_lt hji)
    · obtain hji | rfl := Nat.lt_succ_iff_lt_or_eq.1 hji
      · exact h.freed j hj₁ hji hjn ho
      · exact (hnot ho).elim
  next ho =>
    have hso : Orphan sb s i := (hsame.orphan hi).1 ho
    rw [wp_bind, printf, wp_modify]
    have hroom : ¬t.TableFull := fun hfull => hs.room fun ip => h.ref ip ▸ hfull ip
    have hout : ∀ ip, 0 < (t.inode ip).ref → (t.inode ip).inum ≠ i := fun ip hip heq => by
      rw [h.ref] at hip
      rw [h.inode ip hip] at heq
      exact (hs.held ip hip).2 (heq ▸ hso.2)
    generalize ("ireclaim: orphaned inode " ++ toString i ++ "\n") :: t.printed = p
    have hok : Ok sb lost { t with printed := p } := ⟨h.ok.owned, h.ok.table⟩
    refine (wp_orphan hsb hok hi ho hroom hout).mono (fun _ u hu => ?_) fun _ _ he => he
    obtain ⟨huok, huno, huref, huinode, hothers, htype, hnlink, hstores⟩ := hu
    have hothers' : Others sb i t u := ⟨hothers.dinode, hothers.stores, hothers.data⟩
    refine ⟨huok, huno h.noHoles, fun ip => (huref ip).trans (h.ref ip), fun ip hip => ?_,
      fun j hj => ?_, fun j hj₁ hji hjn hjo => ?_⟩
    · exact (huinode ip (by rw [← h.ref ip] at hip; exact hip)).trans (h.inode ip hip)
    · have hji : j ≠ i := by
        rintro rfl
        exact hj hpos (Nat.lt_succ_self j) hso
      exact (h.kept j fun hj₁ hlt => hj hj₁ (Nat.lt_succ_of_lt hlt)).trans (hothers'.untouched hji)
    · obtain hji | rfl := Nat.lt_succ_iff_lt_or_eq.1 hji
      · obtain ⟨ht, hn, hst⟩ := h.freed j hj₁ hji hjn hjo
        have hun := hothers'.untouched hji.ne
        rw [hun.dinode hjn]
        exact ⟨ht, hn, fun sl => (hun.stores sl).trans (hst sl)⟩
      · exact ⟨htype, hnlink, hstores⟩

/-- The loop, from any inode on. -/
theorem Swept.wp_loop (hsb : sb.Wf) (hs : s.Recovered sb lost) (h : Swept sb lost s i t)
    (hpos : 1 ≤ i) (hk : i + k ≤ sb.ninodes) :
    wp (forRange (reclaim sb) i k) (fun _ u => Swept sb lost s (i + k) u) (fun _ _ => False) t :=
  wp_forRange (fun j u => Swept sb lost s j u) h fun _ _ hij hjk hu =>
    hu.wp_reclaim hsb hs (hpos.trans hij) (hjk.trans_le hk)

theorem Swept.start (hs : s.Recovered sb lost) : Swept sb lost s 1 s :=
  ⟨hs.ok, hs.noHoles, fun _ => rfl, fun _ _ => rfl, fun j _ => .refl sb j s,
    fun _ hj₁ hj => absurd hj (Nat.not_lt.2 hj₁)⟩

/-! ## Starting again -/

/-- The disks are the same, and so are the inodes in use, but for what was not read. -/
structure SameUse (s s' : Fs) : Prop where
  disk : s'.disk = s.disk
  ref : ∀ ip, (s'.inode ip).ref = (s.inode ip).ref
  inum : ∀ ip, 0 < (s.inode ip).ref → (s'.inode ip).inum = (s.inode ip).inum
  valid : ∀ ip, 0 < (s.inode ip).ref → (s'.inode ip).valid = (s.inode ip).valid
  d : ∀ ip, 0 < (s.inode ip).ref → (s.inode ip).valid = true → (s'.inode ip).d = (s.inode ip).d

/-- The same, and the inode `ip` is in use, and was read. -/
structure SameHeld (ip : Fin ninode) (s s' : Fs) : Prop extends SameUse s s' where
  cached : s.Cached ip

variable {s' t' : Fs}

theorem SameHeld.inum_eq (h : SameHeld ip s s') : (s'.inode ip).inum = (s.inode ip).inum :=
  h.inum ip h.cached.1

theorem SameHeld.d_eq (h : SameHeld ip s s') : (s'.inode ip).d = (s.inode ip).d :=
  h.d ip h.cached.1 h.cached.2

/-- The entry `ip` is changed in both. -/
theorem SameUse.set (h : SameUse s s') {f : MemInode → MemInode}
    (href : (f (s'.inode ip)).ref = (f (s.inode ip)).ref)
    (hentry : 0 < (f (s.inode ip)).ref → (f (s'.inode ip)).inum = (f (s.inode ip)).inum ∧
      (f (s'.inode ip)).valid = (f (s.inode ip)).valid ∧
      ((f (s.inode ip)).valid = true → (f (s'.inode ip)).d = (f (s.inode ip)).d)) :
    SameUse { s with inode := Function.update s.inode ip (f (s.inode ip)) }
      { s' with inode := Function.update s'.inode ip (f (s'.inode ip)) } := by
  have hcases : ∀ {p : MemInode → MemInode → Prop},
      p (f (s.inode ip)) (f (s'.inode ip)) → (∀ jp, jp ≠ ip → p (s.inode jp) (s'.inode jp)) →
      ∀ jp, p (Function.update s.inode ip (f (s.inode ip)) jp)
        (Function.update s'.inode ip (f (s'.inode ip)) jp) := fun {p} hself hother jp => by
    by_cases hjp : jp = ip
    · rw [hjp, Function.update_self, Function.update_self]
      exact hself
    · rw [Function.update_of_ne hjp, Function.update_of_ne hjp]
      exact hother jp hjp
  exact ⟨h.disk, hcases (p := fun x y => y.ref = x.ref) href fun jp _ => h.ref jp,
    hcases (p := fun x y => 0 < x.ref → y.inum = x.inum) (fun hr => (hentry hr).1)
      fun jp _ => h.inum jp,
    hcases (p := fun x y => 0 < x.ref → y.valid = x.valid) (fun hr => (hentry hr).2.1)
      fun jp _ => h.valid jp,
    hcases (p := fun x y => 0 < x.ref → x.valid = true → y.d = x.d) (fun hr => (hentry hr).2.2)
      fun jp _ => h.d jp⟩

theorem SameUse.write (h : SameUse s s') (b : ℕ) (blk : Block) (l l' : List ℕ) :
    SameUse { s with disk := Function.update s.disk b blk, logged := l }
      { s' with disk := Function.update s'.disk b blk, logged := l' } :=
  ⟨by rw [h.disk], h.ref, h.inum, h.valid, h.d⟩

theorem SameUse.print (h : SameUse s s') (l l' : List String) :
    SameUse { s with printed := l } { s' with printed := l' } :=
  ⟨h.disk, h.ref, h.inum, h.valid, h.d⟩

theorem SameHeld.set (h : SameHeld ip s s') {f : MemInode → MemInode}
    (href : (f (s'.inode ip)).ref = (f (s.inode ip)).ref)
    (hentry : 0 < (f (s.inode ip)).ref → (f (s'.inode ip)).inum = (f (s.inode ip)).inum ∧
      (f (s'.inode ip)).valid = (f (s.inode ip)).valid ∧
      ((f (s.inode ip)).valid = true → (f (s'.inode ip)).d = (f (s.inode ip)).d))
    (hpos : 0 < (f (s.inode ip)).ref) (hvalid : (f (s.inode ip)).valid = true) :
    SameHeld ip { s with inode := Function.update s.inode ip (f (s.inode ip)) }
      { s' with inode := Function.update s'.inode ip (f (s'.inode ip)) } := by
  refine ⟨h.toSameUse.set href hentry, ?_, ?_⟩
  · change 0 < (Function.update s.inode ip (f (s.inode ip)) ip).ref
    rwa [Function.update_self]
  · change (Function.update s.inode ip (f (s.inode ip)) ip).valid = true
    rwa [Function.update_self]

theorem inStep_logWrite (h : SameHeld ip s s') (b : ℕ) (blk : Block) :
    InStep (SameHeld ip) (logWrite b blk) s s' :=
  inStep_modify ⟨h.write b blk _ _, h.cached⟩

theorem inStep_setDinode (h : SameHeld ip s s') (f : Dinode → Dinode) :
    InStep (SameHeld ip) (setDinode ip f) s s' := by
  refine inStep_modify (h.set (f := fun x => { x with d := f x.d }) (h.ref ip) (fun _ => ⟨h.inum_eq,
    h.valid ip h.cached.1, fun _ => ?_⟩) h.cached.1 h.cached.2)
  dsimp only
  rw [h.d_eq]

theorem inStep_bfree (h : SameHeld ip s s') (b : ℕ) : InStep (SameHeld ip) (bfree sb b) s s' := by
  refine InStep.get (by simp only [h.disk]) ?_
  dsimp only
  split
  · exact inStep_throw _ h
  · exact inStep_logWrite h _ _

theorem inStep_iupdate (h : SameHeld ip s s') : InStep (SameHeld ip) (iupdate sb ip) s s' := by
  refine InStep.get (by simp only [h.inum_eq, h.d_eq]) ?_
  refine InStep.get (by simp only [h.disk]) ?_
  exact inStep_logWrite h _ _

theorem inStep_truncDirect (h : SameHeld ip s s') (k : ℕ) :
    InStep (SameHeld ip) (truncDirect sb ip k) s s' := by
  refine InStep.get (by simp only [h.d_eq]) ?_
  split
  · split
    · exact (inStep_bfree h _).bind (fun _ _ _ _ _ ht => inStep_setDinode ht _) fun _ _ ht => ht
    · exact inStep_pure _ h
  · exact inStep_pure _ h

theorem inStep_truncEntry (h : SameHeld ip s s') (blk : Block) (k : ℕ) :
    InStep (SameHeld ip) (truncEntry sb blk k) s s' := by
  rw [truncEntry]
  split
  · exact inStep_bfree h _
  · exact inStep_pure _ h

theorem inStep_truncIndirect (h : SameHeld ip s s') :
    InStep (SameHeld ip) (truncIndirect sb ip) s s' := by
  refine InStep.get (by simp only [h.d_eq, h.disk]) ?_
  dsimp only
  split
  · refine (inStep_forRange (fun k _ _ ht => inStep_truncEntry ht _ k) 0 nindirect h).bind
      (fun _ _ _ _ _ ht => ?_) fun _ _ ht => ht
    exact (inStep_bfree ht _).bind (fun _ _ _ _ _ hu => inStep_setDinode hu _) fun _ _ hu => hu
  · exact inStep_pure _ h

theorem inStep_itrunc (h : SameHeld ip s s') : InStep (SameHeld ip) (itrunc sb ip) s s' := by
  refine (inStep_forRange (fun k _ _ ht => inStep_truncDirect ht k) 0 ndirect h).bind
    (fun _ _ _ _ _ ht => ?_) fun _ _ ht => ht
  refine (inStep_truncIndirect ht).bind (fun _ _ _ _ _ hu => ?_) fun _ _ hu => hu
  exact (inStep_setDinode hu _).bind (fun _ _ _ _ _ hv => inStep_iupdate hv) fun _ _ hv => hv

/-- The inode may be freed: what was read of it is then of no importance. -/
theorem inStep_ifree (h : SameHeld ip s s') : InStep SameUse (ifree sb ip) s s' := by
  refine (inStep_itrunc h).bind (fun _ _ _ _ _ ht => ?_) fun _ _ ht => ht.toSameUse
  refine (inStep_setDinode ht _).bind (fun _ _ _ _ _ hu => ?_) fun _ _ hu => hu.toSameUse
  refine (inStep_iupdate hu).bind (fun _ v v' _ _ hv => ?_) fun _ _ hv => hv.toSameUse
  exact inStep_modify (hv.toSameUse.set (f := fun x => { x with valid := false }) (hv.ref ip)
    fun _ => ⟨hv.inum_eq, rfl, fun hc => Bool.noConfusion hc⟩)

theorem inStep_iput (h : SameUse s s') (hpos : 0 < (s.inode ip).ref) :
    InStep SameUse (iput sb ip) s s' := by
  have hcond : ((s'.inode ip).ref = 1 ∧ (s'.inode ip).valid = true ∧ (s'.inode ip).d.nlink = 0) ↔
      ((s.inode ip).ref = 1 ∧ (s.inode ip).valid = true ∧ (s.inode ip).d.nlink = 0) := by
    rw [h.ref, h.valid ip hpos]
    refine and_congr_right fun _ => and_congr_right fun hv => ?_
    rw [h.d ip hpos hv]
  have hdrop : ∀ t t', SameUse t t' →
      InStep SameUse (setInode ip fun x => { x with ref := x.ref - 1 }) t t' := fun t t' ht =>
    inStep_modify (ht.set (f := fun x => { x with ref := x.ref - 1 })
      (by dsimp only; rw [ht.ref]) fun hr => by
        have hr' : 0 < (t.inode ip).ref := Nat.lt_of_lt_of_le hr (Nat.sub_le _ 1)
        exact ⟨ht.inum ip hr', ht.valid ip hr', ht.d ip hr'⟩)
  refine InStep.get (by simp only [hcond]) ?_
  refine InStep.bind ?_ (fun _ t t' _ _ ht => hdrop t t' ht) fun _ _ ht => ht
  split
  next hc => exact inStep_ifree ⟨h, hpos, hc.2.1⟩
  next => exact inStep_pure _ h

theorem inStep_iget (h : SameUse s s') (inum : ℕ) : InStep SameUse (iget inum) s s' := by
  have hfind : ∀ ip, (0 < (s'.inode ip).ref ∧ (s'.inode ip).inum = inum) ↔
      (0 < (s.inode ip).ref ∧ (s.inode ip).inum = inum) := fun ip => by
    rw [h.ref]
    refine and_congr_right fun hr => ?_
    rw [h.inum ip hr]
  have hused : (fun ip => decide (0 < (s'.inode ip).ref ∧ (s'.inode ip).inum = inum)) =
      fun ip => decide (0 < (s.inode ip).ref ∧ (s.inode ip).inum = inum) :=
    funext fun ip => decide_eq_decide.2 (hfind ip)
  have hunused : (fun ip => decide ((s'.inode ip).ref = 0)) =
      fun ip => decide ((s.inode ip).ref = 0) := funext fun ip => by rw [h.ref]
  refine InStep.get (by rw [hused, hunused]) ?_
  split
  next ip hip =>
    have hp := List.find?_some hip
    have hr := (of_decide_eq_true hp).1
    refine InStep.bind (inStep_modify (h.set (f := fun x => { x with ref := x.ref + 1 }) ?_
      fun _ => ⟨h.inum ip hr, h.valid ip hr, h.d ip hr⟩)) (fun _ _ _ _ _ ht => inStep_pure _ ht)
      fun _ _ ht => ht
    dsimp only
    rw [h.ref]
  next =>
    split
    next ip _ =>
      exact InStep.bind (inStep_modify (h.set
        (f := fun x => { x with inum := inum, ref := 1, valid := false }) rfl
        fun _ => ⟨rfl, rfl, fun hc => Bool.noConfusion hc⟩)) (fun _ _ _ _ _ ht => inStep_pure _ ht)
        fun _ _ ht => ht
    next => exact inStep_throw _ h

theorem inStep_ilock (h : SameUse s s') : InStep SameUse (ilock sb ip) s s' := by
  by_cases hr : (s.inode ip).ref < 1
  · refine InStep.get (by simp only [h.ref, if_pos hr]) ?_
    rw [if_pos hr]
    exact inStep_throw _ h
  have hpos : 0 < (s.inode ip).ref := Nat.not_lt.1 hr
  refine InStep.get (by simp only [h.ref, h.valid ip hpos, h.disk, h.inum ip hpos]) ?_
  rw [if_neg hr]
  split
  · refine InStep.bind (inStep_modify (h.set
      (f := fun x => { x with d := Disk.dinode sb s.disk x.inum, valid := true }) (h.ref ip)
      fun _ => ⟨h.inum ip hpos, rfl, fun _ => ?_⟩)) (fun _ _ _ _ _ ht => ?_) fun _ _ ht => ht
    · dsimp only
      rw [h.inum ip hpos]
    · split
      · exact inStep_throw _ ht
      · exact inStep_pure _ ht
  · exact inStep_pure _ h

/-- An inode that is locked is in use. -/
theorem wp_ilock_ref (u : Fs) :
    wp (ilock sb ip) (fun _ v => 0 < (v.inode ip).ref) (fun _ _ => True) u := by
  rw [ilock, wp_bind, wp_get]
  split
  next => trivial
  next hr =>
    have hpos : 0 < (u.inode ip).ref := Nat.not_lt.1 hr
    split
    · rw [wp_bind, setInode, wp_modify]
      have hself : 0 < (Function.update u.inode ip { u.inode ip with
          d := Disk.dinode sb u.disk (u.inode ip).inum, valid := true } ip).ref := by
        rwa [Function.update_self]
      split
      · trivial
      · exact hself
    · exact hpos

/-- What `ireclaim` does to an inode depends on the disk and on the inodes in use. -/
theorem inStep_reclaim (h : SameUse s s') (i : ℕ) : InStep SameUse (reclaim sb i) s s' := by
  refine InStep.get (by simp only [h.disk]) ?_
  split
  · refine InStep.bind (inStep_modify (h.print _ _)) (fun _ _ _ _ _ ht => ?_) fun _ _ ht => ht
    refine (inStep_iget ht i).bind (fun ip u u' hu _ hsu => ?_) fun _ _ hu => hu
    refine (inStep_ilock hsu).bind (fun _ v v' hv _ hsv => ?_) fun _ _ hv => hv
    exact inStep_iput hsv ((wp_ilock_ref u).of_ok hv)
  · exact inStep_pure _ h

/-! ## The results -/

/-- After `ireclaim`: the orphans and their blocks are free, and nothing else has changed. -/
structure Reclaimed (sb : Superblock) (lost : Set ℕ) (s t : Fs) : Prop where
  wellFormed : t.WellFormed sb lost
  linked : ∀ i < sb.ninodes, ¬Orphan sb t i
  orphan : ∀ i < sb.ninodes, Orphan sb s i → (Disk.dinode sb t.disk i).type = 0
  blocks : ∀ i sl, Orphan sb s i → s.stores sb (i, sl) ≠ 0 →
    Disk.marked sb t.disk (s.stores sb (i, sl)) = false
  others : ∀ i < sb.ninodes, ¬Orphan sb s i → Untouched sb i s t
  inode : ∀ ip, (t.inode ip).ref = (s.inode ip).ref ∧
    (0 < (s.inode ip).ref → t.inode ip = s.inode ip)

theorem Swept.pos (hs : s.Recovered sb lost) (ho : Orphan sb s i) : 1 ≤ i := by
  refine Nat.one_le_iff_ne_zero.2 ?_
  rintro rfl
  exact ho.1 hs.unused

/-- An orphan below the loop's counter is free, and any other inode is as it was. -/
theorem Swept.cases (hs : s.Recovered sb lost) (h : Swept sb lost s i t) (j : ℕ)
    (hj : j < sb.ninodes) :
    (Orphan sb s j ∧ j < i ∧ (Disk.dinode sb t.disk j).type = 0 ∧
      (Disk.dinode sb t.disk j).nlink = 0 ∧ ∀ sl, t.stores sb (j, sl) = 0) ∨
    ((j < i → ¬Orphan sb s j) ∧ Untouched sb j s t) := by
  by_cases ho : Orphan sb s j ∧ j < i
  · exact .inl ⟨ho.1, ho.2, h.freed j (Swept.pos hs ho.1) ho.2 hj ho.1⟩
  · exact .inr ⟨fun hji ho' => ho ⟨ho', hji⟩, h.kept j fun _ hji ho' => ho ⟨ho', hji⟩⟩

/-- An inode that is used in memory has links, so that it is none of the orphans. -/
theorem Swept.held (hs : s.Recovered sb lost) (h : Swept sb lost s i t) (ip : Fin ninode)
    (hip : 0 < (s.inode ip).ref) : Disk.dinode sb t.disk (s.inode ip).inum =
      Disk.dinode sb s.disk (s.inode ip).inum :=
  (h.kept _ fun _ _ ho => (hs.held ip hip).2 ho.2).dinode (hs.ok.table.inum ip hip)

theorem Swept.free (hs : s.Recovered sb lost) (h : Swept sb lost s i t) (hj : j < sb.ninodes)
    (ht : (Disk.dinode sb t.disk j).type = 0) : (Disk.dinode sb t.disk j).nlink = 0 := by
  obtain ⟨-, -, -, hn, -⟩ | ⟨-, hun⟩ := h.cases hs j hj
  · exact hn
  · rw [hun.dinode hj] at ht ⊢
    exact hs.free j hj ht

theorem Swept.range (hs : s.Recovered sb lost) (h : Swept sb lost s i t) (hj : j < sb.ninodes)
    (ht : (Disk.dinode sb t.disk j).type = tDir)
    (hk : 16 * k + 16 ≤ (Disk.dinode sb t.disk j).size) :
    (t.entry sb j k).inum < sb.ninodes := by
  obtain ⟨-, -, hz, -⟩ | ⟨-, hun⟩ := h.cases hs j hj
  · rw [ht] at hz
    exact absurd hz (by decide)
  · rw [hun.dinode hj] at ht hk
    have hentry : t.entry sb j k = s.entry sb j k := entry_eq fun o _ hlt =>
      hun.data o (hs.noHoles.stores_ne hj (by rw [ht]; decide) (by omega))
    rw [hentry]
    exact hs.range j hj ht k hk

theorem Swept.reclaimed (hs : s.Recovered sb lost) (h : Swept sb lost s sb.ninodes t) :
    Reclaimed sb lost s t := by
  have hkept : ∀ i, ¬Orphan sb s i → Untouched sb i s t := fun i ho => h.kept i fun _ _ => ho
  have hfreed : ∀ i < sb.ninodes, Orphan sb s i → _ := fun i hi ho =>
    h.freed i (Swept.pos hs ho) hi hi ho
  have hnone : ∀ i < sb.ninodes, ¬Orphan sb t i := fun i hi hot => by
    obtain ⟨-, -, hz, -⟩ | ⟨hno, hun⟩ := h.cases hs i hi
    · exact hot.1 hz
    · exact hno hi ((hun.orphan hi).1 hot)
  refine ⟨⟨h.ok, h.noHoles, hs.root, fun ip hip => ?_, fun i hi ht hn => (hnone i hi ⟨ht, hn⟩).elim,
    fun i hi => h.free hs hi, fun i hi ht k => h.range hs hi ht⟩, hnone,
    fun i hi ho => (hfreed i hi ho).1, fun i sl ho hne => ?_, fun i _ ho => hkept i ho,
    fun ip => ⟨h.ref ip, h.inode ip⟩⟩
  · rw [h.ref] at hip
    rw [h.inode ip hip, h.held hs ip hip]
    exact (hs.held ip hip).1
  · -- A block of an orphan is stored nowhere else.
    have hr := hs.ok.owned.range hne
    have hi : i < sb.ninodes := by
      by_contra hi
      exact hne (stored_of_not_alloced (fun ha => hi ha.1) sl)
    refine Bool.eq_false_iff.2 fun hm => ?_
    obtain hlo | hlost | ⟨⟨j, sl'⟩, hx⟩ := (Owned.used h.ok.owned _ hr.2).1 hm
    · exact hlo.not_ge hr.1
    · exact Owned.kept hs.ok.owned (i, sl) hne hlost
    · change t.stores sb (j, sl') = _ at hx
      by_cases hj : Orphan sb s j
      · by_cases hjn : j < sb.ninodes
        · exact hne (hx.symm.trans ((hfreed j hjn hj).2.2 sl'))
        · exact hne (hx.symm.trans (stored_of_not_alloced (fun ha => hjn ha.1) sl'))
      · rw [(hkept j hj).stores] at hx
        have hinj := Owned.inj hs.ok.owned (i, sl) (j, sl') hne hx.symm
        exact hj ((Prod.mk.inj hinj).1 ▸ ho)

theorem Reclaimed.exists (hsb : sb.Wf) (hs : s.Recovered sb lost) :
    ∃ t, ireclaim sb s = .ok ⟨⟩ t ∧ Reclaimed sb lost s t := by
  have hroot := hs.root
  have hn : 1 + (sb.ninodes - 1) = sb.ninodes := by
    unfold rootIno at hroot
    omega
  have hloop := (Swept.start hs).wp_loop hsb hs le_rfl hn.le
  rw [hn] at hloop
  obtain ⟨⟨⟩, t, ht, hsw⟩ := wp.exists_ok hloop
  exact ⟨t, ht, hsw.reclaimed hs⟩

/-- The file system that is found at boot, with orphans. -/
abbrev Recoverable (sb : Superblock) (lost : Set ℕ) (d : Disk) : Prop := (boot d).Recovered sb lost

/-- From the disk `d`, the system was booted and has crashed when `ireclaim` had gone through some
    of the inodes. -/
def Crashed (sb : Superblock) (d d' : Disk) : Prop :=
  ∃ k ≤ sb.ninodes - 1, ∃ t, forRange (reclaim sb) 1 k (boot d) = .ok ⟨⟩ t ∧ d' = t.disk

/-- The loop in two parts. -/
theorem forRange_add {ε σ : Type} (f : ℕ → EStateM ε σ PUnit) (a m n : ℕ) {x y : σ}
    (h : forRange f a m x = .ok ⟨⟩ y) : forRange f a (m + n) x = forRange f (a + m) n y := by
  induction m generalizing a x with
  | zero =>
    rw [Nat.zero_add]
    cases h
    rfl
  | succ m ih =>
    rw [Nat.succ_add]
    change (f a >>= fun _ => forRange f (a + 1) m) x = .ok ⟨⟩ y at h
    change (f a >>= fun _ => forRange f (a + 1) (m + n)) x = _
    simp only [Bind.bind, EStateM.bind] at h ⊢
    cases hx : f a x with
    | ok _ z =>
      rw [hx] at h
      dsimp only at h ⊢
      rw [ih (a + 1) h, Nat.add_right_comm, Nat.add_assoc]
    | error e z =>
      rw [hx] at h
      cases h

/-- Inodes that are no orphans are passed over. -/
theorem forRange_reclaim_eq (k : ℕ) (h : ∀ j, i ≤ j → j < i + k → ¬Orphan sb s j) :
    forRange (reclaim sb) i k s = .ok ⟨⟩ s := by
  induction k generalizing i with
  | zero => rfl
  | succ k ih =>
    have hstep : reclaim sb i s = .ok ⟨⟩ s := by
      change (if Orphan sb s i then _ else pure ⟨⟩ : FsM PUnit) s = _
      rw [if_neg (h i le_rfl (Nat.lt_add_of_pos_right (Nat.succ_pos k)))]
      rfl
    have hone : forRange (reclaim sb) i 1 s = .ok ⟨⟩ s := by
      rw [forRange, forRange]
      simp only [Bind.bind, EStateM.bind, hstep]
      rfl
    rw [Nat.add_comm k 1, forRange_add _ _ _ _ hone]
    exact ih fun j hj hjk => h j (Nat.le_of_succ_le hj) (by omega)

/-- At boot, after a crash, the inodes in use are those of `ireclaim`. -/
theorem Swept.sameUse (h : Swept sb lost (boot d) i t) : SameUse t (boot t.disk) := by
  have heq : ∀ ip, 0 < (t.inode ip).ref → (boot t.disk).inode ip = t.inode ip := fun ip hip => by
    rw [h.ref] at hip
    rw [h.inode ip hip]
    rfl
  exact ⟨rfl, fun ip => (h.ref ip).symm, fun ip hip => by rw [heq ip hip],
    fun ip hip => by rw [heq ip hip], fun ip hip _ => by rw [heq ip hip]⟩

/-- One crash: the next boot ends with the same disk. -/
theorem Crashed.ireclaim (hsb : sb.Wf) (hd : Recoverable sb lost d) (hc : Crashed sb d d')
    (hu : ireclaim sb (boot d) = .ok ⟨⟩ u) :
    ∃ v, Fs.ireclaim sb (boot d') = .ok ⟨⟩ v ∧ v.disk = u.disk := by
  obtain ⟨k, hk, t, ht, rfl⟩ := hc
  have hroot := hd.root
  have hle : 1 + k ≤ sb.ninodes := by
    unfold rootIno at hroot
    omega
  have hsw : Swept sb lost (boot d) (1 + k) t :=
    ((Swept.start hd).wp_loop hsb hd le_rfl hle).of_ok ht
  obtain ⟨m, hm⟩ := Nat.exists_eq_add_of_le hk
  have hrest : forRange (reclaim sb) (1 + k) m t = .ok ⟨⟩ u := by
    rw [← forRange_add _ _ _ _ ht, ← hm]
    exact hu
  -- The orphans below are gone.
  have hskip : forRange (reclaim sb) 1 k (boot t.disk) = .ok ⟨⟩ (boot t.disk) :=
    forRange_reclaim_eq k fun j hj hjk ho => by
      have hjn : j < sb.ninodes := by omega
      have hot : Orphan sb t j := ho
      by_cases hs : Orphan sb (boot d) j
      · exact hot.1 (hsw.freed j hj hjk hjn hs).1
      · exact hs (((hsw.kept j fun _ _ => hs).orphan hjn).1 hot)
  obtain ⟨v, hv, hsv⟩ := (inStep_forRange (fun i _ _ h => inStep_reclaim h i) (1 + k) m
    hsw.sameUse).exists_ok hrest
  refine ⟨v, ?_, hsv.disk⟩
  rw [Fs.ireclaim, hm, forRange_add _ _ _ _ hskip]
  exact hv

/-- After a crash, the file system is again one with orphans. -/
theorem Crashed.recoverable (hsb : sb.Wf) (hd : Recoverable sb lost d) (hc : Crashed sb d d') :
    Recoverable sb lost d' := by
  obtain ⟨k, hk, t, ht, rfl⟩ := hc
  have hroot := hd.root
  have hle : 1 + k ≤ sb.ninodes := by
    unfold rootIno at hroot
    omega
  have hsw : Swept sb lost (boot d) (1 + k) t :=
    ((Swept.start hd).wp_loop hsb hd le_rfl hle).of_ok ht
  have hused : ∀ ip, 0 < ((boot t.disk).inode ip).ref → 0 < ((boot d).inode ip).ref := fun _ h => h
  refine ⟨⟨hsw.ok.owned, fun ip hip => hd.ok.table.inum ip hip, fun ip jp hip hjp =>
    hd.ok.table.distinct ip jp hip hjp, fun _ _ hv => Bool.noConfusion hv, fun _ _ hv =>
      Bool.noConfusion hv⟩, hsw.noHoles.of_disk rfl, hroot, fun hfull => ?_, fun ip hip => ?_, ?_,
    fun i hi ht => ?_, fun i hi ht k hk => ?_⟩
  · exact hd.room hfull
  · have hdin := hsw.held hd ip (hused ip hip)
    change (Disk.dinode sb t.disk rootIno).type ≠ 0 ∧ (Disk.dinode sb t.disk rootIno).nlink ≠ 0
    rw [show Disk.dinode sb t.disk rootIno = Disk.dinode sb (boot d).disk rootIno from hdin]
    exact hd.held ip (hused ip hip)
  · change (Disk.dinode sb t.disk 0).type = 0
    have hzero := hsw.kept 0 fun hlt => absurd hlt (by decide)
    rw [hzero.dinode (by omega)]
    exact hd.unused
  · exact Swept.free hd hsw (t := t) hi ht
  · change (t.entry sb i k).inum < sb.ninodes
    exact hsw.range hd hi ht hk

/-! ## A disk with an orphan -/

/-- A file with one block, that has no links. -/
def unlinked : Dinode := { Dinode.new 2 with size := 5, addrs := fun k => if k = 0 then 4 else 0 }

/-- The root directory, without entries. -/
def bareRoot : Dinode := { Dinode.new 1 with nlink := 1 }

/-- A disk without files, where the block 4 is marked. -/
def marked4 : Disk := fun b =>
  if b = 3 then Bytes.write (Bytes.fill 0) 0 [31] else Bytes.fill 0

/-- The disk with these two. -/
def orphaned : Disk := Disk.putDinode smallSb (Disk.putDinode smallSb marked4 1 bareRoot) 2 unlinked

theorem fits_bareRoot : bareRoot.Fits := ⟨by decide, by decide⟩

theorem fits_unlinked : unlinked.Fits := ⟨by decide, by decide⟩

theorem dinode_orphaned : Disk.dinode smallSb orphaned i =
    if i = 2 then unlinked else if i = 1 then bareRoot else Disk.dinode smallSb marked4 i := by
  rw [orphaned, Disk.dinode_putDinode fits_unlinked, Disk.dinode_putDinode fits_bareRoot]

theorem stores_orphaned (x : ℕ × FileSlot) :
    (boot orphaned).stores smallSb x = if x = (2, .addr 0) then 4 else 0 := by
  have hfile : Disk.dinode smallSb orphaned 2 = unlinked := dinode_orphaned
  have hnone : ∀ j < 3, j ≠ 2 → (Disk.dinode smallSb orphaned j).type ≠ 0 →
      ∀ k, (Disk.dinode smallSb orphaned j).addrs k = 0 := by decide
  refine stores_single (by decide) ?_ (fun k => ?_) hnone x
  · change (Disk.dinode smallSb orphaned 2).type ≠ 0
    rw [hfile]
    decide
  · change (Disk.dinode smallSb orphaned 2).addrs k = _
    rw [hfile]
    rfl

theorem blocksOwned_orphaned : BlocksOwned smallSb
    (Disk.dinode smallSb (boot orphaned).disk) (boot orphaned).disk ∅ := by
  have hmarked : ∀ b < 10, Disk.marked smallSb (boot orphaned).disk b = true ↔ b < 5 := by
    decide
  exact blocksOwned_single wf_smallSb (by decide) stores_orphaned (Set.notMem_empty _) fun b hb =>
    (hmarked b hb).trans (or_iff_left (Set.notMem_empty b)).symm

theorem recoverable_orphaned : Recoverable smallSb ∅ orphaned := by
  have howned := blocksOwned_orphaned
  have h0 : (Disk.dinode smallSb orphaned 0).type = 0 ∧
      (Disk.dinode smallSb orphaned 0).nlink = 0 := by decide
  have h1 : Disk.dinode smallSb orphaned 1 = bareRoot := dinode_orphaned
  have h2 : Disk.dinode smallSb orphaned 2 = unlinked := dinode_orphaned
  -- One statement about all inodes from one about each.
  have hall : ∀ {p : ℕ → Dinode → Prop}, (∀ d : Dinode, d.type = 0 → d.nlink = 0 → p 0 d) →
      p 1 bareRoot → p 2 unlinked →
      ∀ i < smallSb.ninodes, p i (Disk.dinode smallSb (boot orphaned).disk i) := by
    intro p hp0 hp1 hp2 i hi
    obtain _ | _ | _ | i := i
    · exact hp0 _ h0.1 h0.2
    · exact h1.symm ▸ hp1
    · exact h2.symm ▸ hp2
    · exact absurd hi (Nat.not_lt.2 (Nat.le_add_left 3 i))
  refine ⟨⟨howned, fun _ _ => (by decide : rootIno < 3), fun ip jp hip hjp _ => ?_,
    fun _ _ hv => Bool.noConfusion hv, fun _ _ hv => Bool.noConfusion hv⟩, ?_, by decide,
    fun hfull => absurd (hfull 1) (by decide), fun _ _ => ?_, ?_, ?_, ?_⟩
  · have honly : ∀ kp : Fin ninode, 0 < ((boot orphaned).inode kp).ref → kp = 0 := fun kp hkp => by
      by_contra hne
      exact Nat.ne_of_gt hkp (if_neg hne)
    rw [honly ip hip, honly jp hjp]
  · refine hall (p := fun i d => d.type ≠ 0 → ∀ bn < (d.size + (bsize - 1)) / bsize,
      (boot orphaned).stores smallSb (i, slotOf bn) ≠ 0) ?_ ?_ ?_
    · exact fun _ ht _ hne => absurd ht hne
    · exact fun _ bn hbn => absurd hbn (Nat.not_lt_zero bn)
    · intro _ bn hbn
      obtain rfl : bn = 0 := Nat.lt_one_iff.1 hbn
      rw [stores_orphaned, if_pos (by decide)]
      decide
  · change (Disk.dinode smallSb orphaned 1).type ≠ 0 ∧ (Disk.dinode smallSb orphaned 1).nlink ≠ 0
    rw [h1]
    decide
  · exact h0.1
  · exact hall (p := fun _ d => d.type = 0 → d.nlink = 0) (fun _ _ hn _ => hn)
      (fun ht => absurd ht (by decide)) fun _ => rfl
  · refine hall (p := fun i d => d.type = tDir → ∀ k, 16 * k + 16 ≤ d.size →
      ((boot orphaned).entry smallSb i k).inum < 3) (fun _ ht _ hd => ?_) ?_
      fun ht => absurd ht (by decide)
    · rw [ht] at hd
      exact absurd hd (by decide)
    · exact fun _ k hk => absurd hk (Nat.not_le.2 (Nat.succ_pos _))

end Fs

section

open Fs

variable {sb : Superblock} {lost : Set ℕ}

/-- `ireclaim` frees the orphans and their blocks, and leaves every other inode, its blocks and its
    data as they were; the file system is then one without orphans. -/
theorem orphans_reclaimed (hsb : sb.Wf) {s : Fs} (hs : s.Recovered sb lost) :
    ∃ t, Fs.ireclaim sb s = .ok ⟨⟩ t ∧ Reclaimed sb lost s t :=
  Reclaimed.exists hsb hs

/-- The file is an orphan, and is freed. -/
theorem orphans_reclaimed_one : Orphan smallSb (boot orphaned) 2 ∧
    ∃ t, Fs.ireclaim smallSb (boot orphaned) = .ok ⟨⟩ t ∧
      Reclaimed smallSb ∅ (boot orphaned) t := by
  refine ⟨?_, orphans_reclaimed wf_smallSb recoverable_orphaned⟩
  have h2 : Disk.dinode smallSb orphaned 2 = unlinked := dinode_orphaned
  change (Disk.dinode smallSb orphaned 2).type ≠ 0 ∧ (Disk.dinode smallSb orphaned 2).nlink = 0
  rw [h2]
  decide

/-- After any number of crashes during `ireclaim`, the next boot reclaims the orphans, and ends with
    the disk of a boot without a crash. -/
theorem reclaim_restarts (hsb : sb.Wf) {d : Disk} (hd : Recoverable sb lost d) :
    ∃ u, Fs.ireclaim sb (boot d) = .ok ⟨⟩ u ∧ Reclaimed sb lost (boot d) u ∧
      ∀ e, Relation.ReflTransGen (Crashed sb) d e →
        ∃ v, Fs.ireclaim sb (boot e) = .ok ⟨⟩ v ∧ v.disk = u.disk := by
  obtain ⟨u, hu, hrec⟩ := Reclaimed.exists hsb hd
  refine ⟨u, hu, hrec, fun e hchain => ?_⟩
  have hboth : Recoverable sb lost e ∧
      ∃ v, Fs.ireclaim sb (boot e) = .ok ⟨⟩ v ∧ v.disk = u.disk := by
    induction hchain with
    | refl => exact ⟨hd, u, hu, rfl⟩
    | tail _ hc ih =>
      obtain ⟨hrec', v, hv, hvd⟩ := ih
      obtain ⟨w, hw, hwd⟩ := hc.ireclaim hsb hrec' hv
      exact ⟨hc.recoverable hsb hrec', w, hw, hwd.trans hvd⟩
  exact hboth.2

/-- The disk with one orphan. -/
theorem reclaim_restarts_one : ∃ u, Fs.ireclaim smallSb (boot orphaned) = .ok ⟨⟩ u ∧
    Reclaimed smallSb ∅ (boot orphaned) u ∧
      ∀ e, Relation.ReflTransGen (Crashed smallSb) orphaned e →
        ∃ v, Fs.ireclaim smallSb (boot e) = .ok ⟨⟩ v ∧ v.disk = u.disk :=
  reclaim_restarts wf_smallSb recoverable_orphaned

end

end Xv6
