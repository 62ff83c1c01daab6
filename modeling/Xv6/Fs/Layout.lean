import Xv6.Param

/-!
# The layout of the file system

The on-disk inodes of `fs.h`. The kernel works on them through the block cache and the log,
so that here *the disk* is what the block cache would return.
-/

namespace Xv6

/-- The number of direct blocks of an inode. -/
abbrev ndirect : ℕ := 12

/-- The number of blocks listed in an indirect block. -/
abbrev nindirect : ℕ := bsize / 4

/-- The maximum number of blocks of a file. -/
abbrev maxfile : ℕ := ndirect + nindirect

/-- The number of entries of the table of inodes in memory. -/
abbrev ninode : ℕ := 50

instance neZero_ninode : NeZero ninode := ⟨Nat.succ_ne_zero 49⟩

instance (priority := high) neZero_addrs : NeZero (ndirect + 1) := ⟨Nat.succ_ne_zero 12⟩

/-- An on-disk inode; a `type` of `0` marks a free one. -/
structure Dinode where
  type : Int16
  major : Int16
  minor : Int16
  nlink : Int16
  size : ℕ
  addrs : Fin (ndirect + 1) → ℕ
  deriving DecidableEq

/-- A dinode that `ialloc` has written. -/
def Dinode.new (type : Int16) : Dinode where
  type := type
  major := 0
  minor := 0
  nlink := 0
  size := 0
  addrs _ := 0

/-- What `itrunc` does to the fields of an inode. -/
def Dinode.emptied (d : Dinode) : Dinode := { d with size := 0, addrs := fun _ => 0 }

end Xv6
