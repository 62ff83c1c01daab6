import Xv6.Fs.Disk
import Xv6.Lib.Wp

/-!
# Blocks and inodes

The block allocator, the inodes and their contents (`fs.c`), for one operation at a time: the
locks are left out, and so is the device, as there is only one. *The disk* is what the block
cache returns, and `logged` the blocks that were passed to `log_write`, the latest one first, as
`printed` are the messages.

An inode in memory is an entry of the table. `readi` and `writei` copy to and from user memory,
or to and from the kernel; here the memory they are given says at which bytes it can be
accessed, as `either_copyin` copies what comes before the first byte that cannot.
-/

namespace Xv6

/-- The panics of the code. -/
inductive FsPanic
  | freeingFreeBlock
  | igetNoInodes
  | ilock
  | ilockNoType
  | bmapOutOfRange
  | dirlookupNotDir
  | dirlookupRead
  | dirlinkRead
  | isdirempty
  | unlinkNlink
  | unlinkWritei
  deriving DecidableEq

/-- An inode in memory; `d` is the copy of the dinode. -/
structure MemInode where
  inum : ℕ
  ref : ℕ
  valid : Bool
  d : Dinode
  deriving DecidableEq

/-- The disk, the blocks that are logged, what was printed, and the inodes in memory. -/
structure Fs where
  disk : Disk
  logged : List ℕ
  printed : List String
  inode : Fin ninode → MemInode

/-- Computations on the file system. -/
abbrev FsM := EStateM FsPanic Fs

namespace Fs

/-! ## Blocks -/

/-- Change a block in the cache, without logging it. -/
def setBlock (b : ℕ) (blk : Block) : FsM PUnit :=
  modify fun s => { s with disk := Function.update s.disk b blk }

/-- Change a block, and `log_write` it. -/
def logWrite (b : ℕ) (blk : Block) : FsM PUnit :=
  modify fun s => { s with disk := Function.update s.disk b blk, logged := b :: s.logged }

/-- Print a message. -/
def printf (msg : String) : FsM PUnit :=
  modify fun s => { s with printed := msg :: s.printed }

/-- Zero a block. -/
def bzero (b : ℕ) : FsM PUnit := logWrite b (Bytes.fill 0)

section

variable (sb : Superblock)

/-- The loop of `balloc` over the blocks of the bitmap. -/
def ballocLoop : List ℕ → FsM ℕ
  | [] => do
    printf "balloc: out of blocks\n"
    pure 0
  | k :: ks => do
    let s ← get
    let blk := s.disk (sb.bmapstart + k)
    match (List.range' 0 bpb).find? fun bi => k * bpb + bi < sb.size ∧ blk.bit bi = false with
    | some bi => do
      logWrite (sb.bmapstart + k) (blk.setBit bi)
      bzero (k * bpb + bi)
      pure (k * bpb + bi)
    | none => ballocLoop ks

/-- Allocate a block and zero it; `0` if there is none. -/
def balloc : FsM ℕ := ballocLoop sb (List.range' 0 ((sb.size + (bpb - 1)) / bpb))

/-- Free a block. -/
def bfree (b : ℕ) : FsM PUnit := do
  let s ← get
  let blk := s.disk (sb.bblock b)
  if blk.bit (b % bpb) = false then throw .freeingFreeBlock
  else logWrite (sb.bblock b) (blk.clearBit (b % bpb))

/-! ## Inodes -/

/-- Change an inode in memory. -/
def setInode (ip : Fin ninode) (f : MemInode → MemInode) : FsM PUnit :=
  modify fun s => { s with inode := Function.update s.inode ip (f (s.inode ip)) }

/-- Change the copy of the dinode in memory. -/
def setDinode (ip : Fin ninode) (f : Dinode → Dinode) : FsM PUnit :=
  setInode ip fun x => { x with d := f x.d }

/-- Write a dinode to the disk. -/
def writeDinode (i : ℕ) (x : Dinode) : FsM PUnit := do
  let s ← get
  logWrite (sb.iblock i) ((s.disk (sb.iblock i)).write (64 * (i % ipb)) x.bytes)

/-- Write an inode to the disk. -/
def iupdate (ip : Fin ninode) : FsM PUnit := do
  let s ← get
  writeDinode sb (s.inode ip).inum (s.inode ip).d

/-- The entry of an inode in the table. -/
def iget (inum : ℕ) : FsM (Fin ninode) := do
  let s ← get
  match (List.finRange ninode).find? fun ip => 0 < (s.inode ip).ref ∧ (s.inode ip).inum = inum with
  | some ip => do
    setInode ip fun x => { x with ref := x.ref + 1 }
    pure ip
  | none =>
    match (List.finRange ninode).find? fun ip => (s.inode ip).ref = 0 with
    | some ip => do
      setInode ip fun x => { x with inum := inum, ref := 1, valid := false }
      pure ip
    | none => throw .igetNoInodes

/-- The loop of `ialloc`. -/
def iallocLoop (type : Int16) : List ℕ → FsM (Option (Fin ninode))
  | [] => do
    printf "ialloc: no inodes\n"
    pure none
  | inum :: inums => do
    let s ← get
    if (Disk.dinode sb s.disk inum).type = 0 then do
      writeDinode sb inum (Dinode.new type)
      let ip ← iget inum
      pure (some ip)
    else iallocLoop type inums

/-- Allocate an inode. -/
def ialloc (type : Int16) : FsM (Option (Fin ninode)) :=
  iallocLoop sb type (List.range' 1 (sb.ninodes - 1))

/-- Another reference to an inode. -/
def idup (ip : Fin ninode) : FsM (Fin ninode) := do
  setInode ip fun x => { x with ref := x.ref + 1 }
  pure ip

/-- Read the inode from the disk if this was not done before. -/
def ilock (ip : Fin ninode) : FsM PUnit := do
  let s ← get
  if (s.inode ip).ref < 1 then throw .ilock
  else if (s.inode ip).valid = false then do
    setInode ip fun x => { x with d := Disk.dinode sb s.disk x.inum, valid := true }
    if (Disk.dinode sb s.disk (s.inode ip).inum).type = 0 then throw .ilockNoType else pure ⟨⟩
  else pure ⟨⟩

/-! ## Contents -/

/-- The block that is stored in a slot of the inode, allocated if there is none. -/
def bmapAddr (ip : Fin ninode) (k : Fin (ndirect + 1)) : FsM ℕ := do
  let s ← get
  if (s.inode ip).d.addrs k = 0 then do
    let addr ← balloc sb
    if addr = 0 then pure 0
    else do
      setDinode ip fun d => d.setAddr k addr
      pure addr
  else pure ((s.inode ip).d.addrs k)

/-- The block `bn` of an inode, allocated if there is none; `0` if there is no free block. -/
def bmap (ip : Fin ninode) (bn : ℕ) : FsM ℕ := do
  if h : bn < ndirect then bmapAddr sb ip ⟨bn, by omega⟩
  else if bn - ndirect < nindirect then do
    let ind ← bmapAddr sb ip (Fin.last ndirect)
    if ind = 0 then pure 0
    else do
      let s ← get
      if Disk.entry s.disk ind (bn - ndirect) = 0 then do
        let addr ← balloc sb
        if addr = 0 then pure 0
        else do
          let s ← get
          logWrite ind ((s.disk ind).putLE 4 (4 * (bn - ndirect)) addr)
          pure addr
      else pure (Disk.entry s.disk ind (bn - ndirect))
  else throw .bmapOutOfRange

/-- The loop of `itrunc` over the direct blocks. -/
def truncDirect (ip : Fin ninode) (i : ℕ) : FsM PUnit := do
  let s ← get
  if h : i < ndirect + 1 then
    if (s.inode ip).d.addrs ⟨i, h⟩ ≠ 0 then do
      bfree sb ((s.inode ip).d.addrs ⟨i, h⟩)
      setDinode ip fun d => d.setAddr ⟨i, h⟩ 0
    else pure ⟨⟩
  else pure ⟨⟩

/-- The loop of `itrunc` over the entries of the indirect block. -/
def truncEntry (blk : Block) (j : ℕ) : FsM PUnit :=
  if blk.getLE 4 (4 * j) ≠ 0 then bfree sb (blk.getLE 4 (4 * j)) else pure ⟨⟩

/-- The part of `itrunc` that concerns the indirect block. -/
def truncIndirect (ip : Fin ninode) : FsM PUnit := do
  let s ← get
  let ind := (s.inode ip).d.addrs (Fin.last ndirect)
  if ind ≠ 0 then do
    forRange (truncEntry sb (s.disk ind)) 0 nindirect
    bfree sb ind
    setDinode ip fun d => d.setAddr (Fin.last ndirect) 0
  else pure ⟨⟩

/-- Empty an inode. -/
def itrunc (ip : Fin ninode) : FsM PUnit := do
  forRange (truncDirect sb ip) 0 ndirect
  truncIndirect sb ip
  setDinode ip fun d => { d with size := 0 }
  iupdate sb ip

/-- The part of `iput` that frees an inode. -/
def ifree (ip : Fin ninode) : FsM PUnit := do
  itrunc sb ip
  setDinode ip fun d => { d with type := 0 }
  iupdate sb ip
  setInode ip fun x => { x with valid := false }

/-- Drop a reference to an inode, and free it if this was the last one and there are no
    links. -/
def iput (ip : Fin ninode) : FsM PUnit := do
  let s ← get
  (if (s.inode ip).ref = 1 ∧ (s.inode ip).valid = true ∧ (s.inode ip).d.nlink = 0 then ifree sb ip
  else pure ⟨⟩)
  setInode ip fun x => { x with ref := x.ref - 1 }

/-- How many of the `m` bytes from `tot` on come before the first one that is not `ok`. -/
def reach (ok : ℕ → Bool) (tot m : ℕ) : ℕ := ((List.range' tot m).takeWhile ok).length

/-- The loop of `readi`, with `fuel` more iterations at most; `acc` is what was copied. -/
def readiLoop (ip : Fin ninode) (dst : ℕ → Bool) (n : ℕ) :
    ℕ → ℕ → ℕ → List UInt8 → FsM (ℤ × List UInt8)
  | 0, tot, _, acc => pure (tot, acc)
  | fuel + 1, tot, off, acc =>
    if tot < n then do
      let addr ← bmap sb ip (off / bsize)
      if addr = 0 then pure (tot, acc)
      else do
        let s ← get
        let m := min (n - tot) (bsize - off % bsize)
        let data := (s.disk addr).read (off % bsize) m
        if reach dst tot m < m then pure (-1, acc ++ data.take (reach dst tot m))
        else readiLoop ip dst n fuel (tot + m) (off + m) (acc ++ data)
    else pure (tot, acc)

/-- Read from an inode: the number of bytes or `-1`, and the bytes that were copied. The bytes
    of the destination that can be written are those with `dst`. -/
def readi (ip : Fin ninode) (dst : ℕ → Bool) (off n : ℕ) : FsM (ℤ × List UInt8) := do
  let s ← get
  let size := (s.inode ip).d.size
  if off > size ∨ (off + n) % 2 ^ 32 < off then pure (0, [])
  else
    let n := if (off + n) % 2 ^ 32 > size then size - off else n
    readiLoop sb ip dst n n 0 off []

/-- The bytes of the source before the first one that cannot be read. -/
def copyin (src : ℕ → Option UInt8) (tot m : ℕ) : List UInt8 :=
  (List.range' tot (reach (fun k => (src k).isSome) tot m)).map fun k => (src k).getD 0

/-- The loop of `writei`, with `fuel` more iterations at most: the number of bytes written, and
    the offset after them. -/
def writeiLoop (ip : Fin ninode) (src : ℕ → Option UInt8) (n : ℕ) : ℕ → ℕ → ℕ → FsM (ℕ × ℕ)
  | 0, tot, off => pure (tot, off)
  | fuel + 1, tot, off =>
    if tot < n then do
      let addr ← bmap sb ip (off / bsize)
      if addr = 0 then pure (tot, off)
      else do
        let s ← get
        let m := min (n - tot) (bsize - off % bsize)
        let data := copyin src tot m
        if data.length < m then do
          -- The buffer has changed, but is not logged.
          setBlock addr ((s.disk addr).write (off % bsize) data)
          pure (tot, off)
        else do
          logWrite addr ((s.disk addr).write (off % bsize) data)
          writeiLoop ip src n fuel (tot + m) (off + m)
    else pure (tot, off)

/-- Write to an inode: the number of bytes or `-1`. The bytes of the source are those of `src`,
    where they can be read. -/
def writei (ip : Fin ninode) (src : ℕ → Option UInt8) (off n : ℕ) : FsM ℤ := do
  let s ← get
  if off > (s.inode ip).d.size ∨ (off + n) % 2 ^ 32 < off then pure (-1)
  else if (off + n) % 2 ^ 32 > maxfile * bsize then pure (-1)
  else do
    let (tot, off) ← writeiLoop sb ip src n n 0 off
    setDinode ip fun d => { d with size := if off > d.size then off else d.size }
    iupdate sb ip
    pure tot

end

end Fs

end Xv6
