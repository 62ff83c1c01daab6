import Xv6.Lib.Bytes

/-!
# Parameters

The constants of `param.h` and `fs.h` that the models below use.
-/

namespace Xv6

/-- The maximum number of blocks a file system operation writes. -/
abbrev maxOpBlocks : ℕ := 10

/-- The number of data blocks in the on-disk log. -/
abbrev logBlocks : ℕ := maxOpBlocks * 3

/-- The number of buffers of the block cache. -/
abbrev nbuf : ℕ := maxOpBlocks * 3

/-- The device of the root file system. -/
abbrev rootDev : ℕ := 1

/-- The number of device drivers. -/
abbrev ndev : ℤ := 10

/-- The size of a block in bytes. -/
abbrev bsize : ℕ := 1024

/-- The contents of a disk block. -/
abbrev Block := Bytes bsize

/-- The contents of the disk, block by block. -/
abbrev Disk := ℕ → Block

end Xv6
