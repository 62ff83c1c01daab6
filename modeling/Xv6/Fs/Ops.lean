import Xv6.Fs.Holes
import Xv6.Lib.System

/-!
# Sequences of operations on inodes

The operations of `fs.c` on inodes, in any order and on any inodes. As in the code, an operation
on the fields or on the contents of an inode locks it first, and a reference is given up by
someone who has it.

From an image in which the blocks are owned, they are owned after every sequence of operations,
and no block is freed that is free (`blocks_owned`). If, besides, there are no holes, none is made,
and files and directories may be read as well (`no_holes`).
-/

namespace Xv6

/-- An operation on an inode. -/
inductive InodeOp
  | ialloc (type : Int16)
  | iget (inum : ℕ)
  | idup (ip : Fin ninode)
  | ilock (ip : Fin ninode)
  | writei (ip : Fin ninode) (src : ℕ → Option UInt8) (off n : UInt32)
  | itrunc (ip : Fin ninode)
  | iupdate (ip : Fin ninode) (major minor nlink : Int16)
  | createFail (ip : Fin ninode)
  | iput (ip : Fin ninode)

namespace Fs

/-- The end of `create` when it fails. -/
def createFail (sb : Superblock) (ip : Fin ninode) : FsM PUnit := do
  setDinode ip fun d => { d with nlink := 0 }
  iupdate sb ip
  iunlockput sb ip

/-- Set the fields that system calls set. -/
def setFields (sb : Superblock) (ip : Fin ninode) (major minor nlink : Int16) : FsM PUnit := do
  setDinode ip fun d => { d with major := major, minor := minor, nlink := nlink }
  iupdate sb ip

end Fs

namespace InodeOp

/-- The code of an operation. -/
def run (sb : Superblock) : InodeOp → FsM PUnit
  | ialloc type => do
    let _ ← Fs.ialloc sb type
    pure ⟨⟩
  | iget inum => do
    let _ ← Fs.iget inum
    pure ⟨⟩
  | idup ip => do
    let _ ← Fs.idup ip
    pure ⟨⟩
  | ilock ip => Fs.ilock sb ip
  | writei ip src off n => do
    Fs.ilock sb ip
    let _ ← Fs.writei sb ip src off.toNat n.toNat
    pure ⟨⟩
  | itrunc ip => do
    Fs.ilock sb ip
    Fs.itrunc sb ip
  | iupdate ip major minor nlink => do
    Fs.ilock sb ip
    Fs.setFields sb ip major minor nlink
  | createFail ip => do
    Fs.ilock sb ip
    Fs.createFail sb ip
  | iput ip => Fs.iput sb ip

/-- The inode exists, or the caller has a reference to it. -/
def Enabled (sb : Superblock) (s : Fs) : InodeOp → Prop
  | iget inum => inum < sb.ninodes
  | idup ip | iput ip => 0 < (s.inode ip).ref
  | _ => True

instance decidableEnabled (sb : Superblock) (s : Fs) : (op : InodeOp) → Decidable (op.Enabled sb s)
  | iget inum => inferInstanceAs (Decidable (inum < sb.ninodes))
  | idup ip | iput ip => inferInstanceAs (Decidable (0 < (s.inode ip).ref))
  | ialloc _ | ilock _ | writei _ _ _ _ | itrunc _ | iupdate _ _ _ _ | createFail _ => isTrue trivial

/-- Execute an operation. -/
def exec (sb : Superblock) (s : Fs) (op : InodeOp) : Option Fs :=
  if op.Enabled sb s then
    match op.run sb s with
    | .ok _ t => some t
    | .error _ _ => none
  else none

end InodeOp

/-- The operations that return, from an image with no inode in memory. -/
def inodeSystem (sb : Superblock) : System Fs InodeOp where
  init := { s | ∀ ip, (s.inode ip).ref = 0 }
  step s op t := op.Enabled sb s ∧ ∃ r, op.run sb s = .ok r t

namespace Fs

variable {sb : Superblock} {s t : Fs} {ip : Fin ninode} {lost : Set ℕ}
  {E : FsPanic → Fs → Prop}

theorem TableOk.of_empty {I : ℕ → Dinode} {tab : Fin ninode → MemInode}
    (h : ∀ ip, (tab ip).ref = 0) : TableOk sb I tab := by
  have hno : ∀ ip, ¬0 < (tab ip).ref := fun ip hr => absurd (h ip) hr.ne'
  exact ⟨fun ip hr => absurd hr (hno ip), fun ip _ hr => absurd hr (hno ip),
    fun ip hr => absurd hr (hno ip), fun ip hr => absurd hr (hno ip)⟩

/-- The file system stays consistent, and stays without holes if it had none. -/
def Keeps (sb : Superblock) (lost : Set ℕ) (s t : Fs) : Prop :=
  t.Ok sb lost ∧ (s.NoHoles sb → t.NoHoles sb)

theorem Keeps.of_disk (h : t.Ok sb lost) (hd : t.disk = s.disk) : Keeps sb lost s t :=
  ⟨h, fun hno => hno.of_disk hd⟩

/-- The last reference to an inode with no links is given up, or another one. -/
theorem wp_iput_keeps (hsb : sb.Wf) (h : s.Ok sb lost) (href : 0 < (s.inode ip).ref) :
    wp (iput sb ip) (fun _ => Keeps sb lost s) E s :=
  wp_iput hsb h href (fun _ _ _ _ ht => ⟨ht.ok, fun hno => ht.noHoles hno⟩) fun _ _ ht =>
    .of_disk ht.ok ht.disk

/-- An operation after `ilock`. -/
theorem wp_locked (h : s.Ok sb lost) {f : FsM PUnit}
    (hf : ∀ t, t.Ok sb lost → t.Cached ip → t.disk = s.disk →
      wp f (fun _ => Keeps sb lost t) (fun e _ => e ≠ .freeingFreeBlock) t) :
    wp (do Fs.ilock sb ip
           f) (fun _ => Keeps sb lost s) (fun e _ => e ≠ .freeingFreeBlock) s := by
  rw [wp_bind]
  refine wp_ilock h (fun t ht hd _ _ hc _ _ => ?_) fun e _ he => ?_
  · refine (hf t ht hc hd).mono (fun _ u hu => ⟨hu.1, fun hno => hu.2 (hno.of_disk hd)⟩)
      fun _ _ he => he
  · rcases he with ⟨rfl, -⟩ | ⟨rfl, -⟩ <;> decide

/-- An operation keeps the file system consistent, and does not free a free block. -/
theorem wp_run (hsb : sb.Wf) (h : s.Ok sb lost) {op : InodeOp} (hop : op.Enabled sb s) :
    wp (op.run sb) (fun _ => Keeps sb lost s) (fun e _ => e ≠ .freeingFreeBlock) s := by
  cases op with
  | ialloc type =>
    rw [InodeOp.run, wp_bind]
    exact wp_ialloc hsb h (fun p => .of_disk ⟨h.owned, h.table⟩ rfl)
      (fun _ _ t ht => ⟨ht.ok, fun hno => ht.noHoles hno⟩) fun _ => by decide
  | iget inum =>
    rw [InodeOp.run, wp_bind]
    refine wp_iget (fun ip t hg => .of_disk ⟨?_, ?_⟩ hg.disk) fun _ => by decide
    · rw [hg.disk]
      exact h.owned
    · rw [hg.disk]
      exact hg.table h.table hop
  | idup ip =>
    rw [InodeOp.run, wp_bind, idup, wp_bind]
    refine wp_setInode fun v hdisk _ _ hself hframe => .of_disk ⟨?_, ?_⟩ hdisk
    · rw [hdisk]
      exact h.owned
    · rw [hdisk]
      exact h.table.setRef hop hself hframe
  | ilock ip =>
    refine wp_ilock h (fun t ht hd _ _ _ _ _ => .of_disk ht hd) fun e _ he => ?_
    rcases he with ⟨rfl, -⟩ | ⟨rfl, -⟩ <;> decide
  | writei ip src off n =>
    refine wp_locked h fun t ht hc _ => ?_
    rw [wp_bind]
    exact wp_writei hsb ht hc off.toNat_lt n.toNat_lt (fun _ => .of_disk ht rfl) fun ha _ _ hv =>
      ⟨hv.written.ok, fun hno => hv.noHoles hno ht hc ha.1⟩
  | itrunc ip =>
    refine wp_locked h fun t ht hc _ => ?_
    exact (wp_itrunc_ok hsb ht hc).mono (fun _ _ hv => ⟨hv.ok, fun hno => hv.noHoles hno hc⟩)
      fun _ _ he => he
  | iupdate ip major minor nlink =>
    refine wp_locked h fun t ht hc _ => ?_
    exact (wp_setFields hsb ht hc rfl rfl rfl).mono
      (fun _ _ hv => ⟨hv.ok, fun hno => hv.noHoles hno ht hc rfl⟩) fun _ _ he => he
  | createFail ip =>
    refine wp_locked h fun t ht hc _ => ?_
    have hset := wp_setFields (E := fun e _ => e ≠ .freeingFreeBlock) hsb ht hc
      (f := fun d => { d with nlink := 0 }) rfl rfl rfl
    rw [wp_bind] at hset
    rw [createFail, wp_bind]
    refine hset.mono (fun _ u hu => ?_) fun _ _ he => he
    rw [wp_bind]
    refine hu.mono (fun _ v hv => ?_) fun _ _ he => he
    refine (wp_iput_keeps hsb hv.ok ?_).mono (fun _ w hw => ⟨hw.1, fun hno => ?_⟩) fun _ _ he => he
    · rw [hv.inode.self]
      exact hc.1
    · exact hw.2 (hv.noHoles hno ht hc rfl)
  | iput ip => exact wp_iput_keeps hsb h hop

/-- Every block number that is stored is the number of a data block and is stored in one place,
    and the bitmap marks these blocks and the blocks before the data. -/
structure OwnsBlocks (sb : Superblock) (s : Fs) : Prop where
  range : ∀ x, s.stores sb x ≠ 0 → sb.nmeta ≤ s.stores sb x ∧ s.stores sb x < sb.size
  once : ∀ x y, s.stores sb x ≠ 0 → s.stores sb x = s.stores sb y → x = y
  bitmap : ∀ b < sb.size, Disk.marked sb s.disk b = true ↔ b < sb.nmeta ∨ ∃! x, s.stores sb x = b

theorem ownsBlocks_iff (hsb : sb.Wf) :
    s.OwnsBlocks sb ↔ BlocksOwned sb (Disk.dinode sb s.disk) s.disk ∅ := by
  have hpos : 0 < sb.nmeta := (Nat.zero_le _).trans_lt hsb.bmapstart_lt
  constructor
  · intro h
    refine ⟨hpos, h.range, h.once, fun _ _ => Set.notMem_empty _, fun b hb => ?_⟩
    rw [h.bitmap b hb]
    refine or_congr_right' fun hlo => ⟨fun ⟨x, hx, _⟩ => .inr ⟨x, hx⟩, ?_⟩
    rintro (hl | ⟨x, hx⟩)
    · exact absurd hl (Set.notMem_empty _)
    · have hne : s.stores sb x ≠ 0 := by
        rw [show s.stores sb x = b from hx]
        omega
      exact ⟨x, hx, fun y hy => (h.once x y hne (hx.trans hy.symm)).symm⟩
  · intro h
    refine ⟨Owned.range h, Owned.inj h, fun b hb => ?_⟩
    rw [Owned.used h b hb]
    refine or_congr_right' fun hlo => ⟨?_, fun ⟨x, hx, _⟩ => .inr ⟨x, hx⟩⟩
    rintro (hl | ⟨x, hx⟩)
    · exact absurd hl (Set.notMem_empty _)
    · have hne : s.stores sb x ≠ 0 := by
        rw [show s.stores sb x = b from hx]
        omega
      exact ⟨x, hx, fun y hy => (Owned.inj h x y hne (hx.trans hy.symm)).symm⟩

/-- The inode `i` has one block, and the other ones have none. -/
theorem stores_single {i b : ℕ} (hi : i < sb.ninodes)
    (htype : (Disk.dinode sb s.disk i).type ≠ 0)
    (haddrs : ∀ k, (Disk.dinode sb s.disk i).addrs k = if k = 0 then b else 0)
    (hnone : ∀ j < sb.ninodes, j ≠ i → (Disk.dinode sb s.disk j).type ≠ 0 →
      ∀ k, (Disk.dinode sb s.disk j).addrs k = 0) (x : ℕ × FileSlot) :
    s.stores sb x = if x = (i, .addr 0) then b else 0 := by
  obtain ⟨j, sl⟩ := x
  by_cases ha : Alloced sb (Disk.dinode sb s.disk) j
  swap
  · refine (stored_of_not_alloced ha sl).trans (if_neg fun h => ha ?_).symm
    obtain ⟨rfl, -⟩ := Prod.mk.inj h
    exact ⟨hi, htype⟩
  have hdir : ∀ k, (Disk.dinode sb s.disk j).addrs k =
      if j = i ∧ k = 0 then b else 0 := fun k => by
    by_cases hj : j = i
    · rw [hj, haddrs]
      simp
    · rw [hnone j ha.1 hj ha.2, if_neg fun h => hj h.1]
  cases sl with
  | addr k =>
    refine (stored_addr ha).trans ((hdir k).trans ?_)
    simp
  | entry l =>
    refine (stored_entry_of_eq_zero ?_).trans (if_neg fun h => by cases (Prod.mk.inj h).2).symm
    rw [hdir, if_neg fun h => absurd h.2 (by decide)]

/-- The first block of data is stored there, and it is marked, with those of `lost`. -/
theorem blocksOwned_single {i : ℕ} {lost : Set ℕ} (hsb : sb.Wf) (hsize : sb.nmeta < sb.size)
    (hstores : ∀ x, s.stores sb x = if x = (i, .addr 0) then sb.nmeta else 0)
    (hlost : sb.nmeta ∉ lost)
    (hmarked : ∀ b < sb.size, Disk.marked sb s.disk b = true ↔ b < sb.nmeta + 1 ∨ b ∈ lost) :
    BlocksOwned sb (Disk.dinode sb s.disk) s.disk lost := by
  have hpos : 0 < sb.nmeta := (Nat.zero_le _).trans_lt hsb.bmapstart_lt
  have hx : ∀ x, s.stores sb x ≠ 0 → x = (i, .addr 0) := fun x hx => by
    rw [hstores] at hx
    by_contra hne
    exact hx (if_neg hne)
  have hone : s.stores sb (i, .addr 0) = sb.nmeta := by rw [hstores, if_pos rfl]
  refine ⟨hpos, fun x hne => ?_, fun x y hne hxy => ?_, fun x hne => ?_, fun b hb => ?_⟩
  · have he : s.stores sb x = sb.nmeta := by rw [hx x hne, hone]
    exact ⟨he.ge, he.trans_lt hsize⟩
  · have hy : s.stores sb y ≠ 0 := fun h => hne (hxy.trans h)
    rw [hx x hne, hx y hy]
  · have he : s.stores sb x = sb.nmeta := by rw [hx x hne, hone]
    exact fun hl => hlost (he ▸ hl)
  · rw [hmarked b hb]
    constructor
    · rintro (hlt | hl)
      · obtain hlt | rfl := Nat.lt_succ_iff_lt_or_eq.1 hlt
        · exact .inl hlt
        · exact .inr (.inr ⟨_, hone⟩)
      · exact .inr (.inl hl)
    · rintro (hlt | hl | ⟨x, rfl⟩)
      · exact .inl (Nat.lt_succ_of_lt hlt)
      · exact .inr hl
      · refine .inl (Nat.lt_succ_of_le ?_)
        change s.stores sb x ≤ _
        rw [hstores]
        split
        · exact le_rfl
        · exact Nat.zero_le _

end Fs

theorem InodeOp.exec_sound {sb : Superblock} (s : Fs) (op : InodeOp) (t : Fs)
    (h : op.exec sb s = some t) : (inodeSystem sb).step s op t := by
  unfold InodeOp.exec at h
  split at h
  next he =>
    split at h
    next r u hr =>
      cases h
      exact ⟨he, r, hr⟩
    next => cases h
  next => cases h

/-- From every image in which blocks are owned, every sequence of operations keeps them owned,
    with the inodes in memory as on the disk, and cannot free a block that is free. -/
theorem blocks_owned {sb : Superblock} (hsb : sb.Wf) {s₀ : Fs} {tr : List (InodeOp × Fs)}
    (hinit : s₀ ∈ (inodeSystem sb).init) (himage : s₀.OwnsBlocks sb)
    (hrun : (inodeSystem sb).Run s₀ tr) :
    System.Throughout (fun s => s.OwnsBlocks sb ∧
      (∀ ip, s.Cached ip → (s.inode ip).d = Disk.dinode sb s.disk (s.inode ip).inum) ∧
      ∀ (op : InodeOp) (t : Fs), op.Enabled sb s →
        op.run sb s ≠ .error .freeingFreeBlock t) s₀ tr := by
  refine System.Run.throughout (Q := fun s => s.Ok sb ∅) (C := fun _ _ => True) ?_ ?_ ?_ hrun
    (System.along_of_forall (fun _ _ => trivial) s₀ tr)
  · exact ⟨(Fs.ownsBlocks_iff hsb).1 himage, .of_empty hinit⟩
  · rintro s op t h ⟨he, r, hr⟩ -
    exact ((Fs.wp_run hsb h he).of_ok hr).1
  · refine fun s h => ⟨(Fs.ownsBlocks_iff hsb).2 h.owned, fun ip hc => h.table.copy ip hc.1 hc.2,
      fun op t he herr => ?_⟩
    have hwp := Fs.wp_run hsb h he
    rw [wp, herr] at hwp
    exact hwp rfl

/-- A disk of ten blocks, with two inodes. -/
def smallSb : Superblock where
  magic := 0x10203040
  size := 10
  nblocks := 6
  ninodes := 3
  nlog := 0
  logstart := 2
  inodestart := 2
  bmapstart := 3

/-- The disk with no file. -/
def blank : Fs where
  disk b := if b = 3 then Bytes.write (Bytes.fill 0) 0 [15] else Bytes.fill 0
  logged := []
  printed := []
  inode _ := ⟨0, 0, false, Dinode.new 0⟩

theorem wf_smallSb : smallSb.Wf := ⟨by decide, by decide, by decide, by decide⟩

theorem stores_blank (x : ℕ × FileSlot) : blank.stores smallSb x = 0 := by
  obtain ⟨i, sl⟩ := x
  refine stored_of_not_alloced (fun ha => ?_) sl
  have hfree : ∀ i < 3, (Disk.dinode smallSb blank.disk i).type = 0 := by decide
  exact ha.2 (hfree i ha.1)

theorem ownsBlocks_blank : blank.OwnsBlocks smallSb := by
  have hmarked : ∀ b < 10, Disk.marked smallSb blank.disk b = true ↔ b < 4 := by decide
  refine ⟨fun x hx => absurd (stores_blank x) hx, fun x _ hx => absurd (stores_blank x) hx, ?_⟩
  intro b hb
  rw [hmarked b hb]
  refine ⟨.inl, ?_⟩
  rintro (hlt | ⟨x, hx, _⟩)
  · exact hlt
  · have hx' : blank.stores smallSb x = b := hx
    rw [stores_blank] at hx'
    omega

/-- A file is made, written and freed. -/
theorem blocks_owned_freed : ∃ tr, (inodeSystem smallSb).Run blank tr ∧ tr.length = 3 ∧
    System.Throughout (fun s => s.OwnsBlocks smallSb ∧
      (∀ ip, s.Cached ip → (s.inode ip).d = Disk.dinode smallSb s.disk (s.inode ip).inum) ∧
      ∀ (op : InodeOp) (t : Fs), op.Enabled smallSb s →
        op.run smallSb s ≠ .error .freeingFreeBlock t) blank tr := by
  obtain ⟨tr, hrun, hlen⟩ := System.exists_run (@InodeOp.exec_sound smallSb) blank
    [.ialloc 2, .writei 0 (fun k => some (UInt8.ofNat k)) 0 1030, .iput 0]
    (fun tr => decide (tr.length = 3)) (by decide +kernel)
  exact ⟨tr, hrun, of_decide_eq_true hlen,
    blocks_owned wf_smallSb (fun _ => rfl) ownsBlocks_blank hrun⟩

/-! ## Reading as well -/

/-- An operation on an inode, or one that reads files as well. -/
inductive FileOp
  | inode (op : InodeOp)
  | readi (ip : Fin ninode) (dst : ℕ → Bool) (off n : UInt32)
  | dirlink (dp : Fin ninode) (name : List UInt8) (inum : ℕ)

namespace FileOp

/-- The code of an operation. -/
def run (sb : Superblock) : FileOp → FsM PUnit
  | inode op => op.run sb
  | readi ip dst off n => do
    Fs.ilock sb ip
    let _ ← Fs.readi sb ip dst off.toNat n.toNat
    pure ⟨⟩
  | dirlink dp name inum => do
    Fs.ilock sb dp
    let _ ← Fs.dirlink sb dp name inum
    pure ⟨⟩

/-- As for the operations on inodes. -/
def Enabled (sb : Superblock) (s : Fs) : FileOp → Prop
  | inode op => op.Enabled sb s
  | _ => True

instance decidableEnabled (sb : Superblock) (s : Fs) : (op : FileOp) → Decidable (op.Enabled sb s)
  | inode op => inferInstanceAs (Decidable (op.Enabled sb s))
  | readi _ _ _ _ | dirlink _ _ _ => isTrue trivial

/-- Execute an operation. -/
def exec (sb : Superblock) (s : Fs) (op : FileOp) : Option Fs :=
  if op.Enabled sb s then
    match op.run sb s with
    | .ok _ t => some t
    | .error _ _ => none
  else none

end FileOp

/-- The operations that return, from a file system with no inode in memory. -/
def fileOpSystem (sb : Superblock) : System Fs FileOp where
  init := { s | ∀ ip, (s.inode ip).ref = 0 }
  step s op t := op.Enabled sb s ∧ ∃ r, op.run sb s = .ok r t

theorem FileOp.exec_sound {sb : Superblock} (s : Fs) (op : FileOp) (t : Fs)
    (h : op.exec sb s = some t) : (fileOpSystem sb).step s op t := by
  unfold FileOp.exec at h
  split at h
  next he =>
    split at h
    next r u hr =>
      cases h
      exact ⟨he, r, hr⟩
    next => cases h
  next => cases h

namespace Fs

variable {sb : Superblock} {s : Fs} {lost : Set ℕ}

theorem wp_fileOp (hsb : sb.Wf) (h : s.Ok sb lost) (hno : s.NoHoles sb) {op : FileOp}
    (hop : op.Enabled sb s) :
    wp (op.run sb) (fun _ => Keeps sb lost s) (fun e _ => e ≠ .freeingFreeBlock) s := by
  cases op with
  | inode op => exact wp_run hsb h hop
  | readi ip dst off n =>
    refine wp_locked h fun t ht hc hd => ?_
    rw [wp_bind]
    exact wp_readi ((hno.of_disk hd).full ht hc) off.toNat_lt n.toNat_lt (fun _ => .of_disk ht rfl)
      fun _ _ _ _ => .of_disk ht rfl
  | dirlink dp name inum =>
    refine wp_locked h fun t ht hc hd => ?_
    have hno' := hno.of_disk (t := t) hd
    rw [wp_bind]
    refine wp_dirlink hsb ht hno' hc (fun u hu hd' _ _ => .of_disk hu hd') (.of_disk ht rfl)
      (fun _ _ k hk _ _ tot v _ hv => ⟨hv.written.ok, fun _ => hv.noHoles hno' ht hc hk⟩)
      (fun _ => by decide) (fun _ => ⟨by decide, by decide⟩) fun _ _ _ _ => by decide

end Fs

/-- From every file system in which there are no holes and blocks are owned, every sequence of
    operations keeps it so. And where there are no holes, `readi` of an inode that was read
    changes nothing: no inode, no block, no log, and no message, as `balloc` would leave if it was
    reached. -/
theorem no_holes {sb : Superblock} (hsb : sb.Wf) {s₀ : Fs} {tr : List (FileOp × Fs)}
    (hinit : s₀ ∈ (fileOpSystem sb).init) (himage : s₀.OwnsBlocks sb) (hno : s₀.NoHoles sb)
    (hrun : (fileOpSystem sb).Run s₀ tr) :
    System.Throughout (fun s => s.NoHoles sb ∧ s.OwnsBlocks sb ∧
      ∀ ip, s.Cached ip → s.Loaded sb ip) s₀ tr ∧
    ∀ (s : Fs) (ip : Fin ninode), s.NoHoles sb → s.Loaded sb ip →
      ∀ (dst : ℕ → Bool) (off n : UInt32),
        ∃ r, Fs.readi sb ip dst off.toNat n.toNat s = .ok r s := by
  refine ⟨?_, fun s ip hs hl => Fs.readi_eq (hs.full_of_loaded hl)⟩
  refine System.Run.throughout (Q := fun s => s.Ok sb ∅ ∧ s.NoHoles sb) (C := fun _ _ => True)
    ?_ ?_ ?_ hrun (System.along_of_forall (fun _ _ => trivial) s₀ tr)
  · exact ⟨⟨(Fs.ownsBlocks_iff hsb).1 himage, .of_empty hinit⟩, hno⟩
  · rintro s op t h ⟨he, r, hr⟩ -
    have hk := (Fs.wp_fileOp hsb h.1 h.2 he).of_ok hr
    exact ⟨hk.1, hk.2 h.2⟩
  · exact fun s h => ⟨h.2, (Fs.ownsBlocks_iff hsb).2 h.1.owned, fun ip hc => h.1.loaded hc⟩

/-- A directory is made, written and read. -/
theorem no_holes_dir : ∃ tr, (fileOpSystem smallSb).Run blank tr ∧ tr.length = 3 ∧
    (System.Throughout (fun s => s.NoHoles smallSb ∧ s.OwnsBlocks smallSb ∧
      ∀ ip, s.Cached ip → s.Loaded smallSb ip) blank tr ∧
    ∀ (s : Fs) (ip : Fin ninode), s.NoHoles smallSb → s.Loaded smallSb ip →
      ∀ (dst : ℕ → Bool) (off n : UInt32),
        ∃ r, Fs.readi smallSb ip dst off.toNat n.toNat s = .ok r s) := by
  obtain ⟨tr, hrun, hlen⟩ := System.exists_run (@FileOp.exec_sound smallSb) blank
    [.inode (.ialloc 1), .dirlink 0 [46] 1, .readi 0 (fun _ => true) 0 16]
    (fun tr => decide (tr.length = 3)) (by decide)
  exact ⟨tr, hrun, of_decide_eq_true hlen,
    no_holes wf_smallSb (fun _ => rfl) ownsBlocks_blank (by decide) hrun⟩

/-- Two files, where the block of the first one is the indirect block of the second one. -/
def shared : Fs :=
  let d₁ := Disk.putDinode smallSb blank.disk 1
    ⟨2, 0, 0, 1, 1, fun k => if k = 0 then 6 else 0⟩
  let d₂ := Disk.putDinode smallSb d₁ 2
    ⟨2, 0, 0, 1, 13 * bsize, fun k => if k = Fin.last ndirect then 6 else 5⟩
  { blank with disk := Disk.putEntry d₂ 6 0 5 }

/-- Writing zeroes to the first one makes a hole in the second one. -/
theorem shared_hole : shared ∈ (fileOpSystem smallSb).init ∧ shared.NoHoles smallSb ∧
    ∃ tr, (fileOpSystem smallSb).Run shared tr ∧ ¬(System.last shared tr).NoHoles smallSb := by
  obtain ⟨tr, hrun, hP⟩ := System.exists_run (@FileOp.exec_sound smallSb) shared
    [.inode (.iget 1), .inode (.writei 0 (fun _ => some 0) 0 4)]
    (fun tr => decide (¬(System.last shared tr).NoHoles smallSb)) (by decide)
  exact ⟨fun _ => rfl, by decide, tr, hrun, of_decide_eq_true hP⟩

end Xv6
