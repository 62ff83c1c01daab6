import Xv6.Fs.Use
import Xv6.File.Node

/-!
# System calls on files

The file system and the open files together: the system calls of `sysfile.c`, and the parts of
`kfork`, `kexit` and `kexec` that concern inodes. A call runs as a whole, in the way of
`Xv6.Fs.Name`. What a pipe or a device returns to `read` and `write`, and whether user memory can be
accessed, is part of the call.

An inode in memory is held by open files and as the current directory of processes. In the middle
of a call, the call itself may hold some; the invariant `SysInv` says which.
-/

namespace Xv6

/-- The file system, the open files and the current directories of all processes. -/
structure Sys where
  fs : Fs
  files : Files
  cwd : Fin nproc → Option (Fin ninode)

/-- The panics of the code. -/
inductive SysPanic
  | fs (e : FsPanic)
  | file (e : FilePanic)
  /-- The process has no current directory. -/
  | cwd
  | fileread
  | filewrite
  deriving DecidableEq

/-- Computations on both. -/
abbrev SysM := EStateM SysPanic Sys

namespace Sys

/-- A computation on the file system. -/
def liftFs {α : Type} (m : FsM α) : SysM α := fun s =>
  match m s.fs with
  | .ok a fs => .ok a { s with fs }
  | .error e fs => .error (.fs e) { s with fs }

/-- A computation on the open files. -/
def liftFiles {α : Type} (m : FilesM α) : SysM α := fun s =>
  match m s.files with
  | .ok a files => .ok a { s with files }
  | .error e files => .error (.file e) { s with files }

/-- The entry of the inode table that a file has. -/
def entryOf (ip : ℕ) : Fin ninode := Fin.ofNat ninode ip

/-- The current directory of a process. -/
def cwdOf (p : Fin nproc) : SysM (Fin ninode) := do
  let s ← get
  match s.cwd p with
  | some ip => pure ip
  | none => throw .cwd

/-- Change the current directory of a process. -/
def setCwd (p : Fin nproc) (o : Option (Fin ninode)) : SysM PUnit :=
  modify fun s => { s with cwd := Function.update s.cwd p o }

section

variable (sb : Superblock)

/-- `fileclose`: with the last reference to a file, its inode is put. -/
def fileclose (f : Fin nfile) : SysM PUnit := do
  match ← liftFiles (Xv6.fileclose f) with
  | some ip => liftFs (Fs.iput sb (entryOf ip))
  | none => pure ⟨⟩

/-- `fileread`; `other` is what a pipe or a device returns. -/
def fileread (f : Fin nfile) (dst : ℕ → Bool) (n : UInt32) (other : ℤ) : SysM ℤ := do
  let s ← get
  if (s.files.file f).readable = false then pure (-1)
  else
    match (s.files.file f).type with
    | .pipe | .device => pure other
    | .inode => do
      let off := UInt32.ofNat (s.files.file f).off
      let r ← liftFs (Fs.readInode sb (entryOf (s.files.file f).ip) dst off n)
      (if 0 < r then
        liftFiles (setFile f fun x => { x with off := (off.toNat + r.toNat) % 2 ^ 32 })
      else pure ⟨⟩)
      pure r
    | .none => throw .fileread

/-- `filewrite`. -/
def filewrite (f : Fin nfile) (src : ℕ → Option UInt8) (n : Int32) (other : ℤ) : SysM ℤ := do
  let s ← get
  if (s.files.file f).writable = false then pure (-1)
  else
    match (s.files.file f).type with
    | .pipe | .device => pure other
    | .inode => do
      let off := UInt32.ofNat (s.files.file f).off
      let r ← liftFs (Fs.filewrite sb (entryOf (s.files.file f).ip) src off.toNat n.toInt)
      liftFiles (setFile f fun x => { x with off := r.2 })
      pure r.1
    | .none => throw .filewrite

/-- `filestat`; `ok` says whether copying to user memory succeeds. -/
def filestat (f : Fin nfile) (ok : Bool) : SysM (Option Fs.Stat) := do
  let s ← get
  match (s.files.file f).type with
  | .inode | .device => do
    let st ← liftFs (Fs.statInode sb (entryOf (s.files.file f).ip))
    pure (if ok then some st else none)
  | .none | .pipe => pure none

/-! ## Calls with a descriptor -/

/-- `sys_read`. -/
def sysRead (p : Fin nproc) (fd : ℤ) (dst : ℕ → Bool) (n : UInt32) (other : ℤ) : SysM ℤ := do
  let s ← get
  match argfd s.files p fd with
  | none => pure (-1)
  | some (_, f) => fileread sb f dst n other

/-- `sys_write`. -/
def sysWrite (p : Fin nproc) (fd : ℤ) (src : ℕ → Option UInt8) (n : Int32) (other : ℤ) :
    SysM ℤ := do
  let s ← get
  match argfd s.files p fd with
  | none => pure (-1)
  | some (_, f) => filewrite sb f src n other

/-- `sys_fstat`. -/
def sysFstat (p : Fin nproc) (fd : ℤ) (ok : Bool) : SysM (Option Fs.Stat) := do
  let s ← get
  match argfd s.files p fd with
  | none => pure none
  | some (_, f) => filestat sb f ok

/-- `sys_close`. -/
def sysClose (p : Fin nproc) (fd : ℤ) : SysM Bool := do
  let s ← get
  match argfd s.files p fd with
  | none => pure false
  | some (fd, f) => do
    liftFiles (setOfile p fd none)
    fileclose sb f
    pure true

/-! ## Calls with a path -/

/-- A call on names, from the current directory of the process. -/
def withCwd {α : Type} (p : Fin nproc) (f : Fin ninode → FsM α) : SysM α := do
  let cwd ← cwdOf p
  liftFs (f cwd)

/-- `sys_open` from where the inode is known: the file and the descriptor. -/
def openFile (p : Fin nproc) (ip : Fin ninode) (omode : ℕ) : SysM (Option (Fin nofile)) := do
  let s ← get
  let d := (s.fs.inode ip).d
  if d.type = Fs.tDevice ∧ (d.major.toInt < 0 ∨ ndev ≤ d.major.toInt) then do
    liftFs (Fs.iunlockput sb ip)
    pure none
  else do
    let node : OpenNode := ⟨ip.val, if d.type = Fs.tDevice then some d.major.toInt else none⟩
    match ← liftFiles (Xv6.sysOpen p (some node) omode) with
    | none => do
      liftFs (Fs.iunlockput sb ip)
      pure none
    | some fd => do
      (if omode.testBit 10 ∧ d.type = Fs.tFile then liftFs (Fs.itrunc sb ip) else pure ⟨⟩)
      pure (some fd)

/-- `sys_open`. The bits 0, 1, 9 and 10 of `omode` are `O_WRONLY`, `O_RDWR`, `O_CREATE` and
    `O_TRUNC`. -/
def sysOpen (p : Fin nproc) (path : Option (List UInt8)) (omode : ℕ) :
    SysM (Option (Fin nofile)) :=
  match path with
  | none => pure none
  | some path => do
    match ← withCwd p fun cwd => Fs.openInode sb cwd path omode with
    | none => pure none
    | some ip => openFile sb p ip omode

/-- `sys_chdir`. -/
def sysChdir (p : Fin nproc) (path : Option (List UInt8)) : SysM Bool := do
  match ← withCwd p fun cwd => Fs.chdirInode sb cwd path with
  | none => pure false
  | some ip => do
    setCwd p (some ip)
    pure true

/-! ## Processes -/

/-- The part of `kfork` that concerns files, for the child `np` of `p`. -/
def fork (p np : Fin nproc) : SysM PUnit := do
  liftFiles (forkFiles p np)
  let ip ← withCwd p Fs.idup
  setCwd np (some ip)

/-- The loop of `kexit`, for one descriptor. -/
def exitFd (p : Fin nproc) (fd : Fin nofile) : SysM PUnit := do
  let s ← get
  match s.files.ofile p fd with
  | some f => do
    fileclose sb f
    liftFiles (setOfile p fd none)
  | none => pure ⟨⟩

/-- The part of `kexit` that concerns files. -/
def exit (p : Fin nproc) : SysM PUnit := do
  (List.finRange nofile).forM (exitFd sb p)
  withCwd p (Fs.iput sb)
  modify fun s => { s with
    cwd := Function.update s.cwd p none
    files := { s.files with live := Function.update s.files.live p false } }

end

end Sys

/-- What happens. -/
inductive SysCall
  | openFile (p : Fin nproc) (path : Option (List UInt8)) (omode : ℕ)
  | close (p : Fin nproc) (fd : ℤ)
  | read (p : Fin nproc) (fd : ℤ) (dst : ℕ → Bool) (n : UInt32) (other : ℤ)
  | write (p : Fin nproc) (fd : ℤ) (src : ℕ → Option UInt8) (n : Int32) (other : ℤ)
  | fstat (p : Fin nproc) (fd : ℤ) (ok : Bool)
  | dup (p : Fin nproc) (fd : ℤ)
  | pipe (p : Fin nproc) (ok₀ ok₁ : Bool)
  /-- `mkdir`, `mknod`, `link` and `unlink`. -/
  | name (p : Fin nproc) (op : Fs.NameOp)
  | chdir (p : Fin nproc) (path : Option (List UInt8))
  | exec (p : Fin nproc) (path : List UInt8) (reads : List (UInt32 × UInt32))
  | fork (p np : Fin nproc)
  | exit (p : Fin nproc)

namespace SysCall

/-- The code of a call. -/
def run (sb : Superblock) : SysCall → SysM PUnit
  | openFile p path omode => do
    let _ ← Sys.sysOpen sb p path omode
  | close p fd => do
    let _ ← Sys.sysClose sb p fd
  | read p fd dst n other => do
    let _ ← Sys.sysRead sb p fd dst n other
  | write p fd src n other => do
    let _ ← Sys.sysWrite sb p fd src n other
  | fstat p fd ok => do
    let _ ← Sys.sysFstat sb p fd ok
  | dup p fd => do
    let _ ← Sys.liftFiles (sysDup p fd)
  | pipe p ok₀ ok₁ => do
    let _ ← Sys.liftFiles (sysPipe p ok₀ ok₁)
  | name p op => do
    let _ ← Sys.withCwd p fun cwd => op.run sb cwd
  | chdir p path => do
    let _ ← Sys.sysChdir sb p path
  | exec p path reads => do
    let _ ← Sys.withCwd p fun cwd => Fs.execInode sb cwd path reads
  | fork p np => Sys.fork p np
  | exit p => Sys.exit sb p

/-- The process that makes a call. -/
def proc : SysCall → Fin nproc
  | openFile p _ _ | close p _ | read p _ _ _ _ | write p _ _ _ _ | fstat p _ _ | dup p _
  | pipe p _ _ | name p _ | chdir p _ | exec p _ _ | fork p _ | exit p => p

/-- When a call can be made. A fork finds a slot for the child, and `create` is a part of `open`. -/
def Enabled (s : Sys) (a : SysCall) : Prop :=
  s.files.live a.proc = true ∧
    match a with
    | fork _ np => s.files.live np = false
    | name _ (.creat _) => False
    | _ => True

instance decidableEnabled (s : Sys) : (a : SysCall) → Decidable (a.Enabled s)
  | fork _ _ => inferInstanceAs (Decidable (_ ∧ _ = false))
  | name _ (.creat _) => inferInstanceAs (Decidable (_ ∧ False))
  | name _ (.mkdir _) | name _ (.mknod _ _ _) | name _ (.link _ _) | name _ (.unlink _)
  | openFile _ _ _ | close _ _ | read _ _ _ _ _ | write _ _ _ _ _ | fstat _ _ _ | dup _ _
  | pipe _ _ _ | chdir _ _ | exec _ _ _ | exit _ => inferInstanceAs (Decidable (_ ∧ True))

/-- Make a call. -/
def perform (sb : Superblock) (s : Sys) (a : SysCall) : Option Sys :=
  if a.Enabled s then
    match a.run sb s with
    | .ok _ t => some t
    | .error _ _ => none
  else none

end SysCall

end Xv6
