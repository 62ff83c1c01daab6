import Xv6.Fs.Tree

/-!
# Making a file system

`mkfs` writes an image on the host: the superblock, the root directory, and a file for every
argument, whatever the pieces in which the files are read. It has its own allocation of inodes and
blocks, which are taken in order, and its own way of appending to a file; the bitmap is written at
the end.

While the image is written, it is as `mkfs` means it to be (`Built`): the blocks below `freeblock`
are stored, each in one place, and the inodes hold the data that was appended to them. This is said
of the image with the bitmap that `balloc` would write at this moment (`marks`), so that what is
known of the kernel's blocks applies.
-/

namespace Xv6

/-- `struct superblock`, byte by byte. -/
def Superblock.bytes (sb : Superblock) : List UInt8 :=
  le 4 sb.magic ++ (le 4 sb.size ++ (le 4 sb.nblocks ++ (le 4 sb.ninodes ++ (le 4 sb.nlog ++
    (le 4 sb.logstart ++ (le 4 sb.inodestart ++ le 4 sb.bmapstart))))))

namespace Mkfs

open Fs (tDir tFile rootIno)

/-! ## The program -/

/-- `FSSIZE`, the size of the image in blocks. -/
abbrev fssize : ℕ := 2000

/-- `NINODES`. -/
abbrev ninodes : ℕ := 200

/-- The blocks of the bitmap. -/
def nbitmap : ℕ := fssize / bpb + 1

/-- The blocks of the inodes. -/
def ninodeblocks : ℕ := ninodes / ipb + 1

/-- The blocks of the log. -/
def nlog : ℕ := logBlocks + 1

/-- The blocks before the data. -/
def nmeta : ℕ := 2 + nlog + ninodeblocks + nbitmap

/-- The superblock. -/
def sb : Superblock where
  magic := 0x10203040
  size := fssize
  nblocks := fssize - nmeta
  ninodes := ninodes
  nlog := nlog
  logstart := 2
  inodestart := 2 + nlog
  bmapstart := 2 + nlog + ninodeblocks

/-- `die`, and a failed assertion. -/
inductive Failure
  | die
  | assertion
  deriving DecidableEq

/-- The image, its length in blocks, and the next inode and block to be taken. -/
structure Image where
  disk : Disk
  sectors : ℕ
  freeinode : ℕ
  freeblock : ℕ

/-- The file of the image when it is opened, and the counters. -/
def Image.opened : Image := ⟨fun _ => Bytes.fill 0, 0, 1, nmeta⟩

/-- Computations that write the image. -/
abbrev MkfsM := EStateM Failure Image

/-- `assert`. -/
def assert (p : Prop) [Decidable p] : MkfsM PUnit := if p then pure ⟨⟩ else throw .assertion

/-- `wsect`; a write behind the end makes the image longer. -/
def wsect (sec : ℕ) (buf : Block) : MkfsM PUnit :=
  modify fun s =>
    { s with disk := Function.update s.disk sec buf, sectors := max s.sectors (sec + 1) }

/-- `rsect`; a read behind the end fails. -/
def rsect (sec : ℕ) : MkfsM Block := do
  let s ← get
  if sec < s.sectors then pure (s.disk sec) else throw .die

/-- `winode`. -/
def winode (inum : ℕ) (ip : Dinode) : MkfsM PUnit := do
  let buf ← rsect (sb.iblock inum)
  wsect (sb.iblock inum) (buf.write (64 * (inum % ipb)) ip.bytes)

/-- `rinode`. -/
def rinode (inum : ℕ) : MkfsM Dinode := do
  let buf ← rsect (sb.iblock inum)
  pure (.ofBytes (buf.read (64 * (inum % ipb)) 64))

/-- `ialloc`. -/
def ialloc (type : Int16) : MkfsM ℕ := do
  let s ← get
  set { s with freeinode := s.freeinode + 1 }
  winode s.freeinode { Dinode.new type with nlink := 1 }
  pure s.freeinode

/-- The bitmap with the first `used` bits set. -/
def usedBits (used : ℕ) : Block := (List.range used).foldl Bytes.setBit (Bytes.fill 0)

/-- `balloc`. -/
def balloc (used : ℕ) : MkfsM PUnit := do
  assert (used < bpb)
  wsect sb.bmapstart (usedBits used)

/-- `freeblock++`. -/
def nextBlock : MkfsM ℕ := do
  let s ← get
  set { s with freeblock := s.freeblock + 1 }
  pure s.freeblock

/-- The inode with an indirect block, which `iappend` adds if there is none. -/
def indirectOf (din : Dinode) : MkfsM Dinode :=
  if din.addrs (Fin.last ndirect) = 0 then do
    let b ← nextBlock
    pure (din.setAddr (Fin.last ndirect) b)
  else pure din

/-- The entry `j` of the indirect block `a`, for which `iappend` adds a block if there is none. -/
def entryOf (a j : ℕ) : MkfsM ℕ := do
  let indirect ← rsect a
  if indirect.getLE 4 (4 * j) = 0 then do
    let b ← nextBlock
    wsect a (indirect.putLE 4 (4 * j) b)
    pure b
  else pure (indirect.getLE 4 (4 * j))

/-- What `iappend` does to find the block `fbn` of the file, which it adds if there is none. -/
def blockOf (din : Dinode) (fbn : ℕ) : MkfsM (Dinode × ℕ) :=
  if h : fbn < ndirect then
    if din.addrs ⟨fbn, Nat.lt_succ_of_lt h⟩ = 0 then do
      let b ← nextBlock
      pure (din.setAddr ⟨fbn, Nat.lt_succ_of_lt h⟩ b, b)
    else pure (din, din.addrs ⟨fbn, Nat.lt_succ_of_lt h⟩)
  else do
    let din ← indirectOf din
    let x ← entryOf (din.addrs (Fin.last ndirect)) (fbn - ndirect)
    pure (din, x)

/-- The loop of `iappend`, with `fuel` more iterations at most: `p` is to be written at `off`. -/
def iappendLoop : ℕ → Dinode → ℕ → List UInt8 → MkfsM (Dinode × ℕ)
  | 0, din, off, _ => pure (din, off)
  | fuel + 1, din, off, p =>
    if p = [] then pure (din, off)
    else do
      let fbn := off / bsize
      assert (fbn < maxfile)
      let (din, x) ← blockOf din fbn
      let n1 := min p.length ((fbn + 1) * bsize - off)
      let buf ← rsect x
      wsect x (buf.write (off - fbn * bsize) (p.take n1))
      iappendLoop fuel din (off + n1) (p.drop n1)

/-- `iappend`. -/
def iappend (inum : ℕ) (p : List UInt8) : MkfsM PUnit := do
  let din ← rinode inum
  let (din, off) ← iappendLoop p.length din din.size p
  winode inum { din with size := off }

/-- A file that is to be in the image: the argument, and what is read from it, piece by piece. -/
structure Arg where
  path : List UInt8
  reads : List (List UInt8)

namespace Arg

/-- The argument without `user/`. -/
def shortname (a : Arg) : List UInt8 :=
  if strncmp a.path [117, 115, 101, 114, 47] 5 = 0 then a.path.drop 5 else a.path

/-- The name of the file in the image, without a leading underscore. -/
def name (a : Arg) : List UInt8 :=
  if a.shortname.headD 0 = 95 then a.shortname.tail else a.shortname

/-- The data of the file. -/
def data (a : Arg) : List UInt8 := a.reads.flatten

end Arg

/-- The entry for the file with the number `inum`. -/
def dirent (inum : ℕ) (name : List UInt8) : List UInt8 := Dirent.bytes ⟨inum, strncpy name dirsiz⟩

/-- What `main` does for an argument. -/
def addFile (a : Arg) : MkfsM PUnit := do
  assert (47 ∉ a.shortname)
  assert (a.name.length ≤ dirsiz)
  let inum ← ialloc tFile
  iappend rootIno (dirent inum a.name)
  a.reads.forM (iappend inum)

/-- What `main` does to the size of the root directory at the end. -/
def fixSize (inum : ℕ) : MkfsM PUnit := do
  let din ← rinode inum
  winode inum { din with size := (din.size / bsize + 1) * bsize }

/-- `main`. -/
def mkfs (args : List Arg) : MkfsM PUnit := do
  forRange (fun i => wsect i (Bytes.fill 0)) 0 fssize
  wsect 1 ((Bytes.fill 0 : Block).write 0 sb.bytes)
  let rootino ← ialloc tDir
  assert (rootino = rootIno)
  iappend rootino (dirent rootino [46])
  iappend rootino (dirent rootino [46, 46])
  args.forM addFile
  fixSize rootino
  let s ← get
  balloc s.freeblock

/-! ## The bitmap -/

theorem wf_sb : sb.Wf where
  inodes := by decide
  bitmap := by decide
  data := by decide
  size := by decide

@[simp] theorem size_sb : sb.size = fssize := rfl

@[simp] theorem ninodes_sb : sb.ninodes = ninodes := rfl

/-- The image with the bitmap that `balloc` would write. -/
def marks (next : ℕ) (d : Disk) : Disk := Function.update d sb.bmapstart (usedBits next)

variable {I I' : ℕ → Dinode} {d d' : Disk} {next i j k b : ℕ} {l : List UInt8}

theorem usedBits_succ (k : ℕ) : usedBits (k + 1) = (usedBits k).setBit k := by
  rw [usedBits, List.range_succ, List.foldl_append]
  rfl

theorem bit_usedBits (hk : k ≤ bpb) : (usedBits k).bit j = decide (j < k) := by
  induction k with
  | zero => exact Bytes.bit_fill_zero
  | succ k ih =>
    have hlt : k < bsize * 8 := hk
    rw [usedBits_succ, Bytes.bit_setBit _ (by omega), ih (Nat.le_of_succ_le hk)]
    split
    next h => exact (decide_eq_true (h ▸ Nat.lt_succ_self j)).symm
    next h =>
      exact decide_eq_decide.2
        ⟨Nat.lt_succ_of_lt, fun hj => lt_of_le_of_ne (Nat.le_of_lt_succ hj) h⟩

/-- There is one block of the bitmap. -/
theorem bblock_eq (hb : b < fssize) : sb.bblock b = sb.bmapstart := by
  have hlt : b < bpb := hb.trans (by decide)
  rw [Superblock.bblock, Nat.div_eq_of_lt hlt, Nat.zero_add]

theorem marks_eq (hb : b < fssize) (next : ℕ) (d : Disk) :
    marks next d = Function.update d (sb.bblock b) (usedBits next) := by
  rw [bblock_eq hb, marks]

theorem marked_marks (hb : b < fssize) (hn : next ≤ fssize) :
    Disk.marked sb (marks next d) b = decide (b < next) := by
  have hlt : b < bpb := hb.trans (by decide)
  rw [Disk.marked, bblock_eq hb, marks, Function.update_self, Nat.mod_eq_of_lt hlt,
    bit_usedBits (hn.trans (by decide))]

theorem marks_data (hb : nmeta ≤ b) : marks next d b = d b :=
  Function.update_of_ne (wf_sb.bmapstart_lt.trans_le hb).ne' _ _

theorem dinode_marks (hi : i < ninodes) : Disk.dinode sb (marks next d) i = Disk.dinode sb d i := by
  rw [marks_eq (b := 0) (by decide), Disk.dinode_update_bblock wf_sb hi]

/-- The next block is taken as the kernel takes a free one: it holds zeroes already. -/
theorem take_marks (hlo : nmeta ≤ next) (hn : next < fssize) (hz : d next = Bytes.fill 0) :
    Disk.take sb (marks next d) next = marks (next + 1) d := by
  have hlt : next < bpb := hn.trans (by decide)
  have hne : next ≠ sb.bmapstart := (wf_sb.bmapstart_lt.trans_le hlo).ne'
  rw [Disk.take, Disk.mark, bblock_eq hn, marks, Function.update_self, Nat.mod_eq_of_lt hlt,
    ← usedBits_succ, Function.update_idem, marks]
  refine Function.update_eq_self_iff.2 ?_
  rw [Function.update_of_ne hne, hz]

/-- The bitmap of a longer image. -/
theorem marks_comm (ha : b ≠ sb.bmapstart) (blk : Block) :
    marks next (Function.update d b blk) = Function.update (marks next d) b blk :=
  Function.update_comm ha _ _ _

/-! ## The image while it is written -/

/-- What a file is to be: its type and its data. -/
structure FileSpec where
  type : Int16
  data : List UInt8

/-- The inodes `I` and the blocks of `d` hold the files `F`, in the blocks below `next`: the blocks
    are stored once, there is a block for every part of the data and for nothing else, but for the
    next block of the file `e`, and what lies behind the data is zero. -/
structure Built (I : ℕ → Dinode) (d : Disk) (next : ℕ) (F : ℕ → Option FileSpec) (e : Option ℕ) :
    Prop where
  owned : BlocksOwned sb I (marks next d) ∅
  lo : nmeta ≤ next
  hi : next ≤ fssize
  fresh : ∀ b, next ≤ b → d b = Bytes.fill 0
  boot : ∀ b < sb.inodestart, d b = if b = 1 then (Bytes.fill 0 : Block).write 0 sb.bytes else
    Bytes.fill 0
  range : ∀ i f, F i = some f → i < ninodes ∧ f.type ≠ 0
  absent : ∀ i < ninodes, F i = none → I i = Dinode.new 0
  inode : ∀ i f, F i = some f →
    I i = { Dinode.new f.type with nlink := 1, size := f.data.length, addrs := (I i).addrs }
  full : ∀ i f, F i = some f → ∀ bn, bn * bsize < f.data.length → stored sb I d (i, slotOf bn) ≠ 0
  tight : ∀ i f, F i = some f → ∀ bn, stored sb I d (i, slotOf bn) ≠ 0 →
    bn * bsize < f.data.length ∨ e = some i ∧ bn * bsize = f.data.length
  bytes : ∀ i f, F i = some f → ∀ o, stored sb I d (i, slotOf (o / bsize)) ≠ 0 →
    (d (stored sb I d (i, slotOf (o / bsize)))).get (o % bsize) = f.data.getD o 0

namespace Built

variable {F : ℕ → Option FileSpec} {f : FileSpec} {x : ℕ × FileSlot} {kk : Fin (ndirect + 1)}
  {e : Option ℕ}

/-- The places do not depend on the bitmap. -/
theorem stored_marks (h : Built I d next F e) : stored sb I (marks next d) = stored sb I d :=
  (h.owned.stored_eq fun _ hc => (marks_data hc).symm).symm

theorem alloced (h : Built I d next F e) (hf : F i = some f) : Alloced sb I i := by
  refine ⟨(h.range i f hf).1, ?_⟩
  rw [h.inode i f hf]
  exact (h.range i f hf).2

theorem size_eq (h : Built I d next F e) (hf : F i = some f) : (I i).size = f.data.length := by
  rw [h.inode i f hf]

/-- An inode that is allocated holds a file. -/
theorem exists_file (h : Built I d next F e) (hi : Alloced sb I i) : ∃ f, F i = some f := by
  cases hF : F i with
  | none => exact (hi.2 (by rw [h.absent i hi.1 hF]; rfl)).elim
  | some f => exact ⟨f, rfl⟩

theorem not_marked (h : Built I d next F e) (hn : next < fssize) :
    Disk.marked sb (marks next d) next = false := by
  rw [marked_marks hn h.hi]
  exact decide_eq_false (lt_irrefl next)

/-- A block that is stored is a data block that was taken. -/
theorem stored_range (h : Built I d next F e) (hx : stored sb I d x ≠ 0) :
    nmeta ≤ stored sb I d x ∧ stored sb I d x < next := by
  rw [← h.stored_marks] at hx ⊢
  have hr := h.owned.range hx
  have hu := Owned.used_of_ne_zero h.owned hx
  rw [marked_marks hr.2 h.hi] at hu
  exact ⟨hr.1, of_decide_eq_true hu⟩

theorem stored_inj (h : Built I d next F e) {y : ℕ × FileSlot} (hx : stored sb I d x ≠ 0)
    (hxy : stored sb I d x = stored sb I d y) : x = y := by
  rw [← h.stored_marks] at hx hxy
  exact Owned.inj h.owned x y hx hxy

/-- The numbers in an inode fit their fields. -/
theorem fits (h : Built I d next F e) (hf : F i = some f) (hlen : f.data.length < 2 ^ 32) :
    (I i).Fits := by
  refine ⟨by rwa [h.size_eq hf], fun k => ?_⟩
  have hst : stored sb I d (i, .addr k) = (I i).addrs k := stored_addr (h.alloced hf)
  by_cases hz : (I i).addrs k = 0
  · rw [hz]
    exact Nat.two_pow_pos 32
  · have hr := h.stored_range (x := (i, .addr k)) (by rwa [hst])
    rw [hst] at hr
    exact (hr.2.trans_le h.hi).trans (by decide)

/-- The blocks of a file end with its data, as far as they are empty. -/
theorem getD_eq_zero (h : Built I d next F e) (hf : F i = some f) {o : ℕ}
    (hz : stored sb I d (i, slotOf (o / bsize)) = 0) : f.data.getD o 0 = 0 := by
  by_contra hne
  have hlt : o < f.data.length := by
    by_contra hge
    exact hne (List.getD_eq_default _ _ (not_lt.1 hge))
  exact h.full i f hf (o / bsize) ((Nat.div_mul_le_self o bsize).trans_lt hlt) hz

theorem slotOf_entry (j : ℕ) : slotOf (ndirect + j) = .entry j := by
  rw [slotOf, dif_neg (Nat.not_lt.2 (Nat.le_add_right ndirect j)), Nat.add_sub_cancel_left]

/-- After a block was taken for the place `x`. -/
theorem of_alloc (h : Built I d next F none) (hn : next < fssize)
    (howned : BlocksOwned sb I' (marks (next + 1) d') ∅)
    (hst : stored sb I' d' = Function.update (stored sb I d) x next)
    (hx : stored sb I d x = 0)
    (hI : ∀ i < ninodes, F i = none → I' i = I i)
    (hinode : ∀ i f, F i = some f →
      I' i = { Dinode.new f.type with nlink := 1, size := f.data.length, addrs := (I' i).addrs })
    (hd : ∀ b, b < nmeta ∨ next ≤ b → d' b = d b)
    (hdata : ∀ i bn, stored sb I d (i, slotOf bn) ≠ 0 →
      d' (stored sb I d (i, slotOf bn)) = d (stored sb I d (i, slotOf bn)))
    (hnew : ∀ i f bn, F i = some f → (i, slotOf bn) = x →
      e = some i ∧ bn * bsize = f.data.length) :
    Built I' d' (next + 1) F e where
  owned := howned
  lo := h.lo.trans (Nat.le_succ next)
  hi := hn
  fresh b hb := by rw [hd b (.inr (Nat.le_of_succ_le hb)), h.fresh b (Nat.le_of_succ_le hb)]
  boot b hb := by rw [hd b (.inl (hb.trans (by decide))), h.boot b hb]
  range := h.range
  absent i hi hF := by rw [hI i hi hF, h.absent i hi hF]
  inode := hinode
  full i f hf bn hbn := by
    have hne := h.full i f hf bn hbn
    have hbx : (i, slotOf bn) ≠ x := by
      rintro rfl
      exact hne hx
    rwa [hst, Function.update_of_ne hbx]
  tight i f hf bn hbn := by
    by_cases hbx : (i, slotOf bn) = x
    · exact .inr (hnew i f bn hf hbx)
    · rw [hst, Function.update_of_ne hbx] at hbn
      exact .inl ((h.tight i f hf bn hbn).resolve_right fun hc => Option.some_ne_none i hc.1.symm)
  bytes i f hf o ho := by
    rw [hst] at ho ⊢
    by_cases hxo : (i, slotOf (o / bsize)) = x
    · rw [hxo, Function.update_self, hd next (.inr le_rfl), h.fresh next le_rfl,
        h.getD_eq_zero hf (by rw [hxo, hx])]
      exact Bytes.get_of_lt _ (Nat.mod_lt o (by decide))
    · rw [Function.update_of_ne hxo] at ho ⊢
      rw [hdata i _ ho, h.bytes i f hf o ho]

/-- A block is taken for a slot of an inode. -/
theorem setAddr (h : Built I d next F none) (hf : F i = some f) (hk : (I i).addrs kk = 0)
    (hn : next < fssize)
    (he : ∀ bn, slotOf bn = .addr kk → e = some i ∧ bn * bsize = f.data.length) :
    Built (Function.update I i ((I i).setAddr kk next)) d (next + 1) F e := by
  have hi := h.alloced hf
  have hfresh := h.fresh next le_rfl
  have hI' : ∀ j < sb.ninodes, Function.update I i ((I i).setAddr kk next) j =
      if j = i then (I i).setAddr kk next else I j := fun j _ => Function.update_apply ..
  have howned := h.owned.setAddr wf_sb hi hk hn (h.not_marked hn) hI'
  have hst := stored_setAddr wf_sb h.owned hi hk hn (h.not_marked hn) hI'
  rw [take_marks h.lo hn hfresh] at howned hst
  have hmarks : ∀ c, nmeta ≤ c → d c = marks (next + 1) d c := fun c hc => (marks_data hc).symm
  rw [← howned.stored_eq hmarks, h.stored_marks] at hst
  refine h.of_alloc hn howned hst ((stored_addr hi).trans hk) (fun j _ hF => ?_) (fun j g hg => ?_)
    (fun _ _ => rfl) (fun _ _ _ => rfl) fun j g bn hg hbn => ?_
  · refine Function.update_of_ne ?_ _ _
    rintro rfl
    exact Option.some_ne_none f (hf.symm.trans hF)
  · by_cases hji : j = i
    · subst hji
      rw [Function.update_self]
      have heq := h.inode j g hg
      generalize I j = D at heq
      rw [heq]
      rfl
    · rw [Function.update_of_ne hji]
      exact h.inode j g hg
  · obtain ⟨rfl, hsl⟩ := Prod.mk.inj hbn
    obtain rfl := Option.some.inj (hf.symm.trans hg)
    exact he bn hsl

/-- A block is taken for an entry of an indirect block. -/
theorem setEntry (h : Built I d next F none) (hf : F i = some f)
    (ha : (I i).addrs (Fin.last ndirect) ≠ 0) (hj : j < nindirect)
    (hz : Disk.entry d ((I i).addrs (Fin.last ndirect)) j = 0) (hn : next < fssize)
    (hlen : (ndirect + j) * bsize = f.data.length) :
    Built I (Disk.putEntry d ((I i).addrs (Fin.last ndirect)) j next) (next + 1) F (some i) := by
  have hi := h.alloced hf
  have hlast : stored sb I d (i, .addr (Fin.last ndirect)) = (I i).addrs (Fin.last ndirect) :=
    stored_addr hi
  have hr := h.stored_range (x := (i, .addr (Fin.last ndirect))) (by rwa [hlast])
  rw [hlast] at hr
  have hz' : Disk.entry (marks next d) ((I i).addrs (Fin.last ndirect)) j = 0 := by
    rwa [Disk.entry, marks_data hr.1]
  have hput : Disk.putEntry (marks (next + 1) d) ((I i).addrs (Fin.last ndirect)) j next =
      marks (next + 1) (Disk.putEntry d ((I i).addrs (Fin.last ndirect)) j next) := by
    rw [Disk.putEntry, Disk.putEntry, marks_data hr.1,
      marks_comm (wf_sb.bmapstart_lt.trans_le hr.1).ne']
  have howned := h.owned.setEntry wf_sb hi ha hj hz' hn (h.not_marked hn)
  have hst := stored_setEntry wf_sb h.owned hi ha hj hn (h.not_marked hn)
  rw [take_marks h.lo hn (h.fresh next le_rfl), hput] at howned hst
  have hmarks : ∀ c, nmeta ≤ c → Disk.putEntry d ((I i).addrs (Fin.last ndirect)) j next c =
      marks (next + 1) (Disk.putEntry d ((I i).addrs (Fin.last ndirect)) j next) c :=
    fun c hc => (marks_data hc).symm
  rw [← howned.stored_eq hmarks, h.stored_marks] at hst
  refine h.of_alloc hn howned hst ?_ (fun _ _ _ => rfl) h.inode (fun b hb => ?_)
    (fun j' bn hne => ?_) fun j' g bn hg hbn => ?_
  · rw [stored_entry hi ha hj, hz]
  · refine Function.update_of_ne ?_ _ _
    rintro rfl
    exact hb.elim (fun hb => hb.not_ge hr.1) fun hb => hb.not_gt hr.2
  · refine Function.update_of_ne (fun heq => ?_) _ _
    have hxy := h.stored_inj hne (heq.trans hlast.symm)
    exact slotOf_ne_last bn (Prod.mk.inj hxy).2
  · obtain ⟨rfl, hsl⟩ := Prod.mk.inj hbn
    obtain rfl := Option.some.inj (hf.symm.trans hg)
    rw [slotOf_inj (hsl.trans (slotOf_entry j).symm)]
    exact ⟨rfl, hlen⟩

/-- The files after a change of one of them. -/
theorem update_some {F : ℕ → Option FileSpec} {f g : FileSpec} {i j : ℕ}
    (h : Function.update F i (some f) j = some g) : j = i ∧ f = g ∨ j ≠ i ∧ F j = some g := by
  by_cases hji : j = i
  · subst hji
    rw [Function.update_self] at h
    exact .inl ⟨rfl, Option.some.inj h⟩
  · rw [Function.update_of_ne hji] at h
    exact .inr ⟨hji, h⟩

theorem update_none {F : ℕ → Option FileSpec} {f : FileSpec} {i j : ℕ}
    (h : Function.update F i (some f) j = none) : j ≠ i ∧ F j = none := by
  by_cases hji : j = i
  · subst hji
    rw [Function.update_self] at h
    exact (Option.some_ne_none f h).elim
  · rw [Function.update_of_ne hji] at h
    exact ⟨hji, h⟩

/-- The blocks before the end of the data, when data was appended in the last block. -/
theorem mul_lt_of_ne_div {bn m n : ℕ} (h : bn * bsize < n + m) (hm : n % bsize + m ≤ bsize)
    (hne : bn ≠ n / bsize) : bn * bsize < n := by
  unfold bsize at *
  omega

/-- A byte of the block to which the data is appended. -/
theorem getD_append_of_div_eq {data : List UInt8} {o : ℕ} (h : o / bsize = data.length / bsize) :
    (if data.length % bsize ≤ o % bsize ∧ o % bsize < data.length % bsize + l.length then
      l.getD (o % bsize - data.length % bsize) 0 else data.getD o 0) = (data ++ l).getD o 0 := by
  have hlen := Nat.div_add_mod data.length bsize
  have ho := Nat.div_add_mod o bsize
  rw [h] at ho
  split
  next hin =>
    rw [List.getD_append_right _ _ _ _ (by omega)]
    congr 1
    omega
  next hout =>
    by_cases hlt : o < data.length
    · rw [List.getD_append _ _ _ _ hlt]
    · rw [List.getD_eq_default _ _ (not_lt.1 hlt), List.getD_eq_default]
      rw [List.length_append]
      omega

/-- A byte of another block. -/
theorem getD_append_of_div_ne {data : List UInt8} {o : ℕ}
    (hl : data.length % bsize + l.length ≤ bsize) (h : o / bsize ≠ data.length / bsize) :
    (data ++ l).getD o 0 = data.getD o 0 := by
  by_cases hlt : o < data.length
  · rw [List.getD_append _ _ _ _ hlt]
  · have hge : data.length + l.length ≤ o := by
      unfold bsize at *
      omega
    rw [List.getD_eq_default _ _ (not_lt.1 hlt), List.getD_eq_default]
    rwa [List.length_append]

/-- Data is appended to the last block of a file. -/
theorem append (h : Built I d next F (some i)) (hf : F i = some f) (hne : l ≠ [])
    (hx : stored sb I d (i, slotOf (f.data.length / bsize)) = b) (hb : b ≠ 0)
    (hl : f.data.length % bsize + l.length ≤ bsize) :
    Built (Function.update I i { I i with size := f.data.length + l.length })
      (Function.update d b ((d b).write (f.data.length % bsize) l)) next
      (Function.update F i (some ⟨f.type, f.data ++ l⟩)) none := by
  have hi := h.alloced hf
  have hpos := List.length_pos_of_ne_nil hne
  have hbr := h.stored_range (x := (i, slotOf (f.data.length / bsize))) (by rwa [hx])
  rw [hx] at hbr
  -- No other place stores the block `b`, in which the file ends.
  have hother : ∀ y, stored sb I d y ≠ 0 → y ≠ (i, slotOf (f.data.length / bsize)) →
      stored sb I d y ≠ b := fun y hy hne heq => hne (h.stored_inj hy (heq.trans hx.symm))
  -- The inodes keep their addresses, and `b` is no block of addresses, so that all blocks stay in
  -- their places.
  have hst : stored sb (Function.update I i { I i with size := f.data.length + l.length })
      (Function.update d b ((d b).write (f.data.length % bsize) l)) = stored sb I d := by
    refine stored_congr_addrs (fun j _ => ?_) (fun j _ => ?_) fun j hj hne => ?_
    · by_cases hji : j = i
      · rw [hji, Function.update_self]
      · rw [Function.update_of_ne hji]
    · by_cases hji : j = i
      · rw [hji, Function.update_self]
      · rw [Function.update_of_ne hji]
    · have hlast := stored_addr (d := d) (k := Fin.last ndirect) hj
      refine Function.update_of_ne ?_ _ _
      rw [← hlast] at hne ⊢
      exact hother _ hne fun heq => slotOf_ne_last _ (Prod.mk.inj heq).2.symm
  have hmarks : ∀ I' d', stored sb I' d' = stored sb I d →
      stored sb I' (marks next d') = stored sb I' d' := fun I' d' hst =>
    stored_congr (fun _ _ => rfl) fun j hj hne => by
      have hlast := stored_addr (d := d') (k := Fin.last ndirect) hj
      rw [← hlast, hst] at hne ⊢
      exact marks_data (h.stored_range hne).1
  refine ⟨?_, h.lo, h.hi, fun c hc => ?_, fun c hc => ?_, fun j g hg => ?_, fun j hj hF => ?_,
    fun j g hg => ?_, fun j g hg bn hbn => ?_, fun j g hg bn hbn => ?_, fun j g hg o ho => ?_⟩
  · -- The blocks are owned as before.
    unfold BlocksOwned
    rw [hmarks _ _ hst, hst, ← h.stored_marks]
    refine Owned.congr h.owned fun c hc => ?_
    rw [marks_comm (wf_sb.bmapstart_lt.trans_le hbr.1).ne', Disk.marked_update_data wf_sb hc hbr.1]
  · rw [Function.update_of_ne (hbr.2.trans_le hc).ne', h.fresh c hc]
  · have hlt : c < nmeta := hc.trans (by decide)
    rw [Function.update_of_ne (hlt.trans_le hbr.1).ne, h.boot c hc]
  · obtain ⟨rfl, rfl⟩ | ⟨-, hg⟩ := update_some hg
    · exact h.range j f hf
    · exact h.range j g hg
  · obtain ⟨hji, hF⟩ := update_none hF
    rw [Function.update_of_ne hji, h.absent j hj hF]
  · obtain ⟨rfl, rfl⟩ | ⟨hji, hg⟩ := update_some hg
    · have heq := h.inode j f hf
      rw [Function.update_self]
      generalize I j = D at heq
      rw [heq, List.length_append]
    · rw [Function.update_of_ne hji]
      exact h.inode j g hg
  · -- The bytes up to the new size have a block.
    rw [hst]
    obtain ⟨rfl, rfl⟩ | ⟨-, hg⟩ := update_some hg
    · rw [List.length_append] at hbn
      by_cases hlast : bn = f.data.length / bsize
      · rwa [hlast, hx]
      · exact h.full j f hf bn (mul_lt_of_ne_div hbn hl hlast)
    · exact h.full j g hg bn hbn
  · -- There is no block beyond.
    rw [hst] at hbn
    obtain ⟨rfl, rfl⟩ | ⟨hji, hg⟩ := update_some hg
    · refine .inl ?_
      rw [List.length_append]
      obtain ht | ⟨-, ht⟩ := h.tight j f hf bn hbn
      · exact ht.trans_le (Nat.le_add_right _ _)
      · rw [ht]
        exact Nat.lt_add_of_pos_right hpos
    · exact .inl ((h.tight j g hg bn hbn).resolve_right fun hc => hji (Option.some.inj hc.1).symm)
  · -- In the last block, the bytes of `l` are behind the old ones.
    rw [hst] at ho ⊢
    obtain ⟨rfl, rfl⟩ | ⟨hji, hg⟩ := update_some hg
    · by_cases hlast : o / bsize = f.data.length / bsize
      · have hold := h.bytes j f hf o ho
        rw [hlast, hx] at hold ⊢
        rw [Function.update_self, Bytes.get_write _ _ _ (Nat.mod_lt o (by decide)), hold]
        exact getD_append_of_div_eq hlast
      · have hne := hother _ ho fun heq => hlast (slotOf_inj (Prod.mk.inj heq).2)
        rw [Function.update_of_ne hne, h.bytes j f hf o ho]
        exact (getD_append_of_div_ne hl hlast).symm
    · rw [Function.update_of_ne]
      · exact h.bytes j g hg o ho
      · exact hother _ ho fun heq => hji (Prod.mk.inj heq).1

/-- Only the inodes that there are count. -/
theorem congr (h : Built I d next F e) (hI : ∀ i < ninodes, I' i = I i) : Built I' d next F e := by
  have hst : ∀ D, stored sb I' D = stored sb I D := fun D => stored_congr hI fun _ _ _ => rfl
  refine ⟨?_, h.lo, h.hi, h.fresh, h.boot, h.range,
    fun i hi hF => by rw [hI i hi, h.absent i hi hF],
    fun i f hf => by rw [hI i (h.range i f hf).1]; exact h.inode i f hf, ?_, ?_, ?_⟩
  · unfold BlocksOwned
    rw [hst]
    exact h.owned
  · rw [hst]
    exact h.full
  · rw [hst]
    exact h.tight
  · rw [hst]
    exact h.bytes

/-- The file `i` may have one more block. -/
theorem pending (h : Built I d next F none) (i : ℕ) : Built I d next F (some i) :=
  { h with
    tight := fun j f hf bn hbn =>
      .inl ((h.tight j f hf bn hbn).resolve_right fun hc => Option.some_ne_none j hc.1.symm) }

/-- The image may change before the data, but for the first blocks. -/
theorem congr_disk (h : Built I d next F e) (hd : ∀ c, c < sb.inodestart ∨ nmeta ≤ c → d' c = d c) :
    Built I d' next F e := by
  have hst : stored sb I d' = stored sb I d :=
    stored_congr (fun _ _ => rfl) fun j hj hne => by
      have hlast := stored_addr (d := d) (k := Fin.last ndirect) hj
      rw [← hlast] at hne ⊢
      exact hd _ (.inr (h.stored_range hne).1)
  have hmarks : stored sb I (marks next d') = stored sb I (marks next d) :=
    h.owned.stored_eq fun c hc => by rw [marks_data hc, marks_data hc, hd c (.inr hc)]
  refine { h with
    owned := ?_
    fresh := fun c hc => by rw [hd c (.inr (h.lo.trans hc)), h.fresh c hc]
    boot := fun c hc => by rw [hd c (.inl hc), h.boot c hc]
    full := fun i f hf bn hbn => by rw [hst]; exact h.full i f hf bn hbn
    tight := fun i f hf bn hbn => by rw [hst] at hbn; exact h.tight i f hf bn hbn
    bytes := fun i f hf o ho => ?_ }
  · unfold BlocksOwned
    rw [hmarks]
    exact Owned.congr h.owned fun c hc => by rw [marked_marks hc h.hi, marked_marks hc h.hi]
  · rw [hst] at ho ⊢
    rw [hd _ (.inr (h.stored_range ho).1), h.bytes i f hf o ho]

/-- An inode is taken. -/
theorem take (h : Built I d next F e) (hi : i < ninodes) (hF : F i = none) {type : Int16}
    (htype : type ≠ 0) :
    Built (Function.update I i { Dinode.new type with nlink := 1 }) d next
      (Function.update F i (some ⟨type, []⟩)) e := by
  have hnot : ∀ j g, F j = some g → j ≠ i := fun j g hg hji =>
    Option.some_ne_none g (hg.symm.trans (hji ▸ hF))
  have hold : ∀ D sl, stored sb I D (i, sl) = 0 := fun D sl =>
    stored_of_not_alloced (fun ha => ha.2 (by rw [h.absent i hi hF]; rfl)) sl
  have hst : ∀ D, stored sb (Function.update I i { Dinode.new type with nlink := 1 }) D =
      stored sb I D := fun D => by
    funext ⟨j, sl⟩
    by_cases hji : j = i
    · subst hji
      rw [hold]
      have hself := Function.update_self j ({ Dinode.new type with nlink := 1 } : Dinode) I
      cases sl with
      | addr k =>
        rw [stored, hself]
        exact ite_self _
      | entry e => exact stored_entry_of_eq_zero (by rw [hself]; rfl)
    · exact stored_eq_of_dinode (Function.update_of_ne hji _ _) fun _ _ => rfl
  refine ⟨?_, h.lo, h.hi, h.fresh, h.boot, fun j g hg => ?_, fun j hj hF' => ?_, fun j g hg => ?_,
    fun j g hg bn hbn => ?_, fun j g hg bn hbn => ?_, fun j g hg o ho => ?_⟩
  · unfold BlocksOwned
    rw [hst]
    exact h.owned
  · obtain ⟨rfl, rfl⟩ | ⟨-, hg⟩ := update_some hg
    · exact ⟨hi, htype⟩
    · exact h.range j g hg
  · obtain ⟨hji, hF'⟩ := update_none hF'
    rw [Function.update_of_ne hji, h.absent j hj hF']
  · obtain ⟨rfl, rfl⟩ | ⟨hji, hg⟩ := update_some hg
    · rw [Function.update_self]
      rfl
    · rw [Function.update_of_ne hji]
      exact h.inode j g hg
  · rw [hst]
    obtain ⟨rfl, rfl⟩ | ⟨-, hg⟩ := update_some hg
    · exact absurd hbn (Nat.not_lt_zero _)
    · exact h.full j g hg bn hbn
  · rw [hst] at hbn
    obtain ⟨rfl, rfl⟩ | ⟨-, hg⟩ := update_some hg
    · exact absurd (hold d _) hbn
    · exact h.tight j g hg bn hbn
  · rw [hst] at ho ⊢
    obtain ⟨rfl, rfl⟩ | ⟨-, hg⟩ := update_some hg
    · exact absurd (hold d _) ho
    · exact h.bytes j g hg o ho

end Built

end Mkfs

end Xv6
