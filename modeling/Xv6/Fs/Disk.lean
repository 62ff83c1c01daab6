import Xv6.Fs.Layout
import Xv6.Lib.Bits

/-!
# The file system on the disk

The format of `fs.h`: the superblock, and the inodes, the bitmap of the blocks in use, the
indirect blocks and the directory entries, as they lie in the blocks of the disk.

The superblock lays out the disk. If the regions that it gives to the inodes, to the bitmap and
to the data do not overlap (`Superblock.Wf`), a write to one of them leaves the others alone:
the lemmas below say what each of them holds after a write.
-/

namespace Xv6

/-! ## The superblock -/

/-- `struct superblock`. -/
structure Superblock where
  magic : ℕ
  size : ℕ
  nblocks : ℕ
  ninodes : ℕ
  nlog : ℕ
  logstart : ℕ
  inodestart : ℕ
  bmapstart : ℕ
  deriving DecidableEq

/-- `IPB`, the number of inodes in a block. -/
abbrev ipb : ℕ := bsize / 64

/-- `BPB`, the number of bits in a block. -/
abbrev bpb : ℕ := bsize * 8

namespace Superblock

/-- `readsb`: the superblock that is stored in a block. -/
def ofBlock (b : Block) : Superblock where
  magic := b.getLE 4 0
  size := b.getLE 4 4
  nblocks := b.getLE 4 8
  ninodes := b.getLE 4 12
  nlog := b.getLE 4 16
  logstart := b.getLE 4 20
  inodestart := b.getLE 4 24
  bmapstart := b.getLE 4 28

variable (sb : Superblock)

/-- `IBLOCK`, the block of an inode. -/
def iblock (i : ℕ) : ℕ := i / ipb + sb.inodestart

/-- `BBLOCK`, the block of the bitmap that has the bit of a block. -/
def bblock (b : ℕ) : ℕ := b / bpb + sb.bmapstart

/-- The number of blocks before the data. -/
def nmeta : ℕ := sb.size - sb.nblocks

/-- The regions of the disk are in order. -/
structure Wf : Prop where
  inodes : sb.inodestart + sb.ninodes / ipb + 1 ≤ sb.bmapstart
  bitmap : sb.bmapstart + sb.size / bpb + 1 ≤ sb.nmeta
  data : sb.nmeta ≤ sb.size
  size : sb.size < 2 ^ 32

variable {sb} {i j b c : ℕ}

theorem Wf.iblock_lt (h : sb.Wf) (hi : i < sb.ninodes) : sb.iblock i < sb.bmapstart := by
  have hdiv := Nat.div_le_div_right (c := ipb) hi.le
  have := h.inodes
  unfold iblock
  omega

theorem bmapstart_le_bblock : sb.bmapstart ≤ sb.bblock b := Nat.le_add_left ..

theorem Wf.bblock_lt (h : sb.Wf) (hb : b < sb.size) : sb.bblock b < sb.nmeta := by
  have hdiv := Nat.div_le_div_right (c := bpb) hb.le
  have := h.bitmap
  unfold bblock
  omega

theorem Wf.bmapstart_lt (h : sb.Wf) : sb.bmapstart < sb.nmeta :=
  (Nat.le_add_right _ (sb.size / bpb)).trans_lt h.bitmap

theorem Wf.iblock_ne_bblock (h : sb.Wf) (hi : i < sb.ninodes) : sb.iblock i ≠ sb.bblock b :=
  ((h.iblock_lt hi).trans_le bmapstart_le_bblock).ne

theorem Wf.iblock_ne (h : sb.Wf) (hi : i < sb.ninodes) (hb : sb.nmeta ≤ b) : sb.iblock i ≠ b :=
  ((h.iblock_lt hi).trans (h.bmapstart_lt.trans_le hb)).ne

theorem Wf.bblock_ne (h : sb.Wf) (hc : c < sb.size) (hb : sb.nmeta ≤ b) : sb.bblock c ≠ b :=
  ((h.bblock_lt hc).trans_le hb).ne

end Superblock

/-! ## Inodes -/

/-- The bits of a `short`. -/
def shortBits (x : Int16) : ℕ := x.toUInt16.toNat

/-- A `short`, from its bits. -/
def ofShortBits (v : ℕ) : Int16 := (UInt16.ofNat v).toInt16

@[simp] theorem ofShortBits_shortBits (x : Int16) : ofShortBits (shortBits x) = x := by
  simp [ofShortBits, shortBits]

theorem shortBits_lt (x : Int16) : shortBits x < 2 ^ 16 := x.toUInt16.toNat_lt

namespace Dinode

/-- `struct dinode`, byte by byte. -/
def bytes (d : Dinode) : List UInt8 :=
  le 2 (shortBits d.type) ++ (le 2 (shortBits d.major) ++ (le 2 (shortBits d.minor) ++
    (le 2 (shortBits d.nlink) ++ (le 4 d.size ++
      (List.finRange (ndirect + 1)).flatMap fun k => le 4 (d.addrs k)))))

/-- The dinode that the bytes hold. -/
def ofBytes (l : List UInt8) : Dinode where
  type := ofShortBits (ofLe (l.take 2))
  major := ofShortBits (ofLe ((l.drop 2).take 2))
  minor := ofShortBits (ofLe ((l.drop 4).take 2))
  nlink := ofShortBits (ofLe ((l.drop 6).take 2))
  size := ofLe ((l.drop 8).take 4)
  addrs k := ofLe ((l.drop (12 + 4 * k)).take 4)

/-- The fields of the dinode are 32-bit numbers. -/
structure Fits (d : Dinode) : Prop where
  size : d.size < 2 ^ 32
  addrs : ∀ k, d.addrs k < 2 ^ 32

@[simp] theorem length_bytes (d : Dinode) : d.bytes.length = 64 := by
  simp only [bytes, List.length_append, length_le, List.length_flatMap, List.map_const',
    List.sum_replicate, List.length_finRange]
  rfl

theorem ofLe_le_short (x : Int16) : ofShortBits (ofLe (le 2 (shortBits x))) = x := by
  have hmod : shortBits x % 256 ^ 2 = shortBits x := Nat.mod_eq_of_lt (shortBits_lt x)
  rw [ofLe_le, hmod, ofShortBits_shortBits]

theorem take_drop_bytes (d : Dinode) (k : Fin (ndirect + 1)) :
    (d.bytes.drop (12 + 4 * k)).take 4 = le 4 (d.addrs k) := by
  fin_cases k <;> rfl

/-- A dinode is read back as it was written. -/
theorem ofBytes_bytes {d : Dinode} (h : d.Fits) : ofBytes d.bytes = d := by
  have hshort : ∀ x, ofShortBits (ofLe (le 2 (shortBits x))) = x := ofLe_le_short
  have hword : ∀ v < 2 ^ 32, ofLe (le 4 v) = v := fun v hv => by
    rw [ofLe_le]
    exact Nat.mod_eq_of_lt hv
  obtain ⟨type, major, minor, nlink, size, addrs⟩ := d
  simp only [ofBytes, mk.injEq]
  refine ⟨hshort type, hshort major, hshort minor, hshort nlink, hword size h.size, ?_⟩
  funext k
  rw [take_drop_bytes]
  exact hword _ (h.addrs k)

/-- The dinode with the block `b` in the slot `k`. -/
def setAddr (d : Dinode) (k : Fin (ndirect + 1)) (b : ℕ) : Dinode :=
  { d with addrs := Function.update d.addrs k b }

@[simp] theorem setAddr_type (d : Dinode) (k : Fin (ndirect + 1)) (b : ℕ) :
    (d.setAddr k b).type = d.type := rfl

@[simp] theorem setAddr_size (d : Dinode) (k : Fin (ndirect + 1)) (b : ℕ) :
    (d.setAddr k b).size = d.size := rfl

@[simp] theorem setAddr_self (d : Dinode) (k : Fin (ndirect + 1)) (b : ℕ) :
    (d.setAddr k b).addrs k = b := Function.update_self ..

theorem setAddr_of_ne (d : Dinode) {k k' : Fin (ndirect + 1)} (b : ℕ) (h : k' ≠ k) :
    (d.setAddr k b).addrs k' = d.addrs k' := Function.update_of_ne h _ _

theorem fits_new (type : Int16) : (new type).Fits := ⟨by norm_num [new], fun k => by norm_num [new]⟩

end Dinode

/-! ## Writes to the disk -/

namespace Disk

variable (sb : Superblock) (d : Disk)

/-- The inode `i`. -/
def dinode (i : ℕ) : Dinode := Dinode.ofBytes ((d (sb.iblock i)).read (64 * (i % ipb)) 64)

/-- The disk with the inode `i` written. -/
def putDinode (i : ℕ) (x : Dinode) : Disk :=
  Function.update d (sb.iblock i) ((d (sb.iblock i)).write (64 * (i % ipb)) x.bytes)

/-- The bit of the block `b`. -/
def marked (b : ℕ) : Bool := (d (sb.bblock b)).bit (b % bpb)

/-- The disk with the block `b` marked as used. -/
def mark (b : ℕ) : Disk := Function.update d (sb.bblock b) ((d (sb.bblock b)).setBit (b % bpb))

/-- The disk with the block `b` marked as free. -/
def unmark (b : ℕ) : Disk := Function.update d (sb.bblock b) ((d (sb.bblock b)).clearBit (b % bpb))

/-- The entry `j` of the indirect block `a`. -/
def entry (a j : ℕ) : ℕ := (d a).getLE 4 (4 * j)

/-- The disk with the entry `j` of the indirect block `a` written. -/
def putEntry (a j b : ℕ) : Disk := Function.update d a ((d a).putLE 4 (4 * j) b)

variable {sb d} {i j b c a k : ℕ} {x : Dinode} {blk : Block}

theorem dinode_putDinode (hx : x.Fits) :
    dinode sb (putDinode sb d i x) j = if j = i then x else dinode sb d j := by
  have hi : i % ipb < 16 := Nat.mod_lt _ (by decide)
  have hj : j % ipb < 16 := Nat.mod_lt _ (by decide)
  unfold dinode putDinode
  by_cases hblock : sb.iblock j = sb.iblock i
  · rw [hblock, Function.update_self]
    have hdiv : j / ipb = i / ipb := by
      unfold Superblock.iblock at hblock
      omega
    split
    next hji =>
      have hfit : 64 * (i % ipb) + x.bytes.length ≤ bsize := by
        rw [Dinode.length_bytes]
        change _ ≤ 1024
        omega
      have hself := Bytes.read_write_self (d (sb.iblock i)) hfit
      rw [Dinode.length_bytes] at hself
      rw [hji, hself, Dinode.ofBytes_bytes hx]
    next hji =>
      have hmod : j % ipb ≠ i % ipb := by
        intro h
        exact hji (by rw [← Nat.div_add_mod j ipb, ← Nat.div_add_mod i ipb, h, hdiv])
      rw [Bytes.read_write_disjoint]
      rw [Dinode.length_bytes]
      omega
  · rw [Function.update_of_ne hblock, if_neg]
    rintro rfl
    exact hblock rfl

theorem putDinode_of_ne (h : sb.iblock i ≠ b) : putDinode sb d i x b = d b :=
  Function.update_of_ne h.symm _ _

theorem marked_putDinode (hsb : sb.Wf) (hi : i < sb.ninodes) :
    marked sb (putDinode sb d i x) b = marked sb d b := by
  rw [marked, putDinode_of_ne (hsb.iblock_ne_bblock hi), marked]

theorem putDinode_data (hsb : sb.Wf) (hi : i < sb.ninodes) (hb : sb.nmeta ≤ b) :
    putDinode sb d i x b = d b :=
  putDinode_of_ne (hsb.iblock_ne hi hb)

theorem bit_lt (b : ℕ) : b % bpb / 8 < bsize := by
  have : b % bpb < bsize * 8 := Nat.mod_lt _ (by decide)
  omega

theorem bblock_mod_inj (hblock : sb.bblock c = sb.bblock b) (hmod : c % bpb = b % bpb) : c = b := by
  have hdiv : c / bpb = b / bpb := by
    unfold Superblock.bblock at hblock
    omega
  rw [← Nat.div_add_mod c bpb, ← Nat.div_add_mod b bpb, hmod, hdiv]

theorem marked_mark : marked sb (mark sb d b) c = if c = b then true else marked sb d c := by
  unfold marked mark
  by_cases hblock : sb.bblock c = sb.bblock b
  · rw [hblock, Function.update_self, Bytes.bit_setBit _ (bit_lt b)]
    by_cases hcb : c = b
    · simp [hcb]
    · rw [if_neg hcb, if_neg fun hmod => hcb (bblock_mod_inj hblock hmod)]
  · rw [Function.update_of_ne hblock, if_neg]
    rintro rfl
    exact hblock rfl

theorem marked_unmark : marked sb (unmark sb d b) c = if c = b then false else marked sb d c := by
  unfold marked unmark
  by_cases hblock : sb.bblock c = sb.bblock b
  · rw [hblock, Function.update_self, Bytes.bit_clearBit _ (bit_lt b)]
    by_cases hcb : c = b
    · simp [hcb]
    · rw [if_neg hcb, if_neg fun hmod => hcb (bblock_mod_inj hblock hmod)]
  · rw [Function.update_of_ne hblock, if_neg]
    rintro rfl
    exact hblock rfl

/-- A write to the bitmap leaves the inodes and the data alone. -/
theorem dinode_update_bblock (hsb : sb.Wf) (hi : i < sb.ninodes) :
    dinode sb (Function.update d (sb.bblock b) blk) i = dinode sb d i := by
  rw [dinode, Function.update_of_ne (hsb.iblock_ne_bblock hi), dinode]

theorem update_bblock_data (hsb : sb.Wf) (hc : c < sb.size) (hb : sb.nmeta ≤ b) :
    Function.update d (sb.bblock c) blk b = d b :=
  Function.update_of_ne (hsb.bblock_ne hc hb).symm _ _

/-- A write to the data leaves the inodes and the bitmap alone. -/
theorem dinode_update_data (hsb : sb.Wf) (hi : i < sb.ninodes) (hb : sb.nmeta ≤ b) :
    dinode sb (Function.update d b blk) i = dinode sb d i := by
  rw [dinode, Function.update_of_ne (hsb.iblock_ne hi hb), dinode]

theorem marked_update_data (hsb : sb.Wf) (hc : c < sb.size) (hb : sb.nmeta ≤ b) :
    marked sb (Function.update d b blk) c = marked sb d c := by
  rw [marked, Function.update_of_ne (hsb.bblock_ne hc hb), marked]

theorem entry_putEntry (hj : j < nindirect) (hb : b < 2 ^ 32) :
    entry (putEntry d a j b) a k = if k = j then b else entry d a k := by
  have hj' : j < 256 := hj
  rw [entry, putEntry, Function.update_self]
  split
  next hkj =>
    rw [hkj, Bytes.getLE_putLE_self _ _ (by change _ ≤ 1024; omega)]
    exact Nat.mod_eq_of_lt hb
  next hkj =>
    rw [Bytes.getLE_putLE_disjoint _ _ (by omega)]
    rfl

theorem entry_fill_zero (h : d a = Bytes.fill 0) : entry d a j = 0 := by
  have hzero : ∀ w off, (Bytes.fill 0 : Block).read off w = List.replicate w 0 := by
    intro w off
    apply List.ext_getElem (by simp)
    intro i h1 h2
    simp [Bytes.read, Bytes.get, Bytes.fill]
  rw [entry, h, Bytes.getLE, hzero]
  rfl

end Disk

end Xv6
