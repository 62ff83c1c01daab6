import Xv6.Fs.Ops

/-!
# Names

The operations of `sysfile.c` on names: `create`, which `sys_open`, `sys_mkdir` and `sys_mknod` use,
`sys_link` and `sys_unlink`, for one call at a time. Neither the locks nor the brackets of the
transactions are part of the model, nor the device numbers, as there is only one device. The
current directory is given by its entry in the table of inodes, and a path is `none` if `argstr`
fails to fetch it.
-/

namespace Xv6

namespace Fs

section

variable (sb : Superblock) (cwd : Fin ninode)

/-- The end of `sys_link` when it fails. -/
def linkBad (ip : Fin ninode) : FsM ℤ := do
  ilock sb ip
  setDinode ip fun d => { d with nlink := d.nlink - 1 }
  iupdate sb ip
  iunlockput sb ip
  pure (-1)

/-- `sys_link`. -/
def sysLink (old new : Option (List UInt8)) : FsM ℤ :=
  match old, new with
  | some old, some new => do
    match ← namei sb cwd old with
    | none => pure (-1)
    | some ip => do
      ilock sb ip
      let s ← get
      if (s.inode ip).d.type = tDir then do
        iunlockput sb ip
        pure (-1)
      else do
        setDinode ip fun d => { d with nlink := d.nlink + 1 }
        iupdate sb ip
        match ← nameiparent sb cwd new with
        | none => linkBad sb ip
        | some (dp, name) => do
          ilock sb dp
          let s ← get
          let r ← dirlink sb dp name (s.inode ip).inum
          if r < 0 then do
            iunlockput sb dp
            linkBad sb ip
          else do
            iunlockput sb dp
            iput sb ip
            pure 0
  | _, _ => pure (-1)

/-- The loop of `isdirempty`, with `fuel` more iterations at most. -/
def isdiremptyLoop (dp : Fin ninode) : ℕ → ℕ → FsM Bool
  | 0, _ => pure true
  | fuel + 1, off => do
    let s ← get
    if off < (s.inode dp).d.size then do
      let de ← readDirent sb dp off .isdirempty
      if de.inum ≠ 0 then pure false else isdiremptyLoop dp fuel (off + 16)
    else pure true

/-- Whether a directory has no entries but the first two. -/
def isdirempty (dp : Fin ninode) : FsM Bool := do
  let s ← get
  isdiremptyLoop sb dp (s.inode dp).d.size (2 * 16)

/-- The names `.` and `..`. -/
def dot : List UInt8 := [46]

@[inherit_doc dot]
def dotdot : List UInt8 := [46, 46]

/-- The end of `sys_unlink` when it fails. -/
def unlinkBad (dp : Fin ninode) : FsM ℤ := do
  iunlockput sb dp
  pure (-1)

/-- `sys_unlink` from where the entry at `off` is erased. -/
def unlinkEntry (dp ip : Fin ninode) (off : ℕ) : FsM ℤ := do
  let r ← writei sb dp (fun _ => some 0) off 16
  if r ≠ 16 then throw .unlinkWritei
  else do
    let s ← get
    (if (s.inode ip).d.type = tDir then do
      setDinode dp fun d => { d with nlink := d.nlink - 1 }
      iupdate sb dp
    else pure ⟨⟩)
    iunlockput sb dp
    setDinode ip fun d => { d with nlink := d.nlink - 1 }
    iupdate sb ip
    iunlockput sb ip
    pure 0

/-- `sys_unlink`. -/
def sysUnlink (path : Option (List UInt8)) : FsM ℤ :=
  match path with
  | none => pure (-1)
  | some path => do
    match ← nameiparent sb cwd path with
    | none => pure (-1)
    | some (dp, name) => do
      ilock sb dp
      if namecmp name dot = 0 ∨ namecmp name dotdot = 0 then unlinkBad sb dp
      else do
        match ← dirlookup sb dp name with
        | none => unlinkBad sb dp
        | some (ip, off) => do
          ilock sb ip
          let s ← get
          if (s.inode ip).d.nlink < 1 then throw .unlinkNlink
          else do
            let empty ← (if (s.inode ip).d.type = tDir then isdirempty sb ip else pure true)
            if empty = false then do
              iunlockput sb ip
              unlinkBad sb dp
            else unlinkEntry sb dp ip off

/-- The end of `create` when it fails, with the parent. -/
def createUndo (dp ip : Fin ninode) : FsM (Option (Fin ninode)) := do
  createFail sb ip
  iunlockput sb dp
  pure none

/-- The entries `.` and `..` of a new directory: whether they were made. -/
def dirlinkDots (dp ip : Fin ninode) : FsM Bool := do
  let s ← get
  let r ← dirlink sb ip dot (s.inode ip).inum
  if r < 0 then pure false
  else do
    let s ← get
    let r ← dirlink sb ip dotdot (s.inode dp).inum
    if r < 0 then pure false else pure true

/-- `create` from where the name is known not to be in the directory. -/
def createNew (dp : Fin ninode) (name : List UInt8) (type major minor : Int16) :
    FsM (Option (Fin ninode)) := do
  match ← ialloc sb type with
  | none => do
    iunlockput sb dp
    pure none
  | some ip => do
    ilock sb ip
    setDinode ip fun d => { d with major, minor, nlink := 1 }
    iupdate sb ip
    let dots ← (if type = tDir then dirlinkDots sb dp ip else pure true)
    if dots = false then createUndo sb dp ip
    else do
      let s ← get
      let r ← dirlink sb dp name (s.inode ip).inum
      if r < 0 then createUndo sb dp ip
      else do
        (if type = tDir then do
          setDinode dp fun d => { d with nlink := d.nlink + 1 }
          iupdate sb dp
        else pure ⟨⟩)
        iunlockput sb dp
        pure (some ip)

/-- `create`: the inode with the name. -/
def create (path : List UInt8) (type major minor : Int16) : FsM (Option (Fin ninode)) := do
  match ← nameiparent sb cwd path with
  | none => pure none
  | some (dp, name) => do
    ilock sb dp
    match ← dirlookup sb dp name with
    | some (ip, _) => do
      iunlockput sb dp
      ilock sb ip
      let s ← get
      if type = tFile ∧ ((s.inode ip).d.type = tFile ∨ (s.inode ip).d.type = tDevice) then
        pure (some ip)
      else do
        iunlockput sb ip
        pure none
    | none => createNew sb dp name type major minor

end

end Fs

end Xv6
