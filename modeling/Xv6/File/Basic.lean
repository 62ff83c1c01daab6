import Xv6.Lib.Count
import Xv6.Lib.System
import Xv6.Lib.Wp
import Xv6.Proc.Basic

/-!
# Open files

The file table (`file.c`), the descriptors of the processes, the ends of pipes (`pipe.c`),
and the system calls that open, duplicate and close files (`sysfile.c`), with the parts of
`kfork` and `kexit` that concern files.

The file system is not part of the model. Whether `sys_open` finds or makes an inode is part
of its argument (`OpenNode`), and the reference to an inode that `fileclose` gives back with
`iput` is what it returns. Of a pipe only the ends are modelled here; see `Xv6.Pipe` for the
bytes.
-/

namespace Xv6

/-- `NFILE`. -/
abbrev nfile : ℕ := 100

/-- `NOFILE`. -/
abbrev nofile : ℕ := 16

/-- The type of a file. -/
inductive FdType
  | none
  | pipe
  | inode
  | device
  deriving DecidableEq

/-- `struct file`. -/
structure File where
  type : FdType
  ref : ℤ
  readable : Bool
  writable : Bool
  /-- The page of the pipe. -/
  pipe : ℕ
  /-- The entry of the inode table. -/
  ip : ℕ
  off : ℕ
  major : ℤ
  deriving DecidableEq

/-- The ends of a pipe. -/
structure PipeEnds where
  readopen : Bool
  writeopen : Bool
  deriving DecidableEq

/-- The end of a pipe is open: the one for writing, or the one for reading. -/
def PipeEnds.open (e : PipeEnds) (writable : Bool) : Bool :=
  if writable then e.writeopen else e.readopen

/-- The files, the descriptors of all processes, and the pages for pipes. -/
structure Files where
  file : Fin nfile → File
  ofile : Fin nproc → Fin nofile → Option (Fin nfile)
  /-- The processes that can make calls. -/
  live : Fin nproc → Bool
  /-- The pipe in a page. -/
  pipe : ℕ → PipeEnds
  /-- The free pages. -/
  freelist : List ℕ
  /-- The pages that `pipealloc` took and that were not given back yet. -/
  pipes : List ℕ
  /-- The pages that other parts of the kernel hold. -/
  others : List ℕ
  /-- A page was given back that no pipe held. -/
  refreed : Bool

/-- The panics of the code. -/
inductive FilePanic
  | filedup
  | fileclose
  deriving DecidableEq

/-- Computations on files. -/
abbrev FilesM := EStateM FilePanic Files

/-- Change a file. -/
def setFile (f : Fin nfile) (g : File → File) : FilesM PUnit :=
  modify fun s => { s with file := Function.update s.file f (g (s.file f)) }

/-- Change a descriptor of a process. -/
def setOfile (p : Fin nproc) (fd : Fin nofile) (o : Option (Fin nfile)) : FilesM PUnit :=
  modify fun s => { s with ofile := Function.update s.ofile p (Function.update (s.ofile p) fd o) }

/-! ## The file table -/

/-- Allocate a file. -/
def filealloc : FilesM (Option (Fin nfile)) := do
  let s ← get
  match (List.finRange nfile).find? fun f => (s.file f).ref = 0 with
  | some f => do
    setFile f fun x => { x with ref := 1 }
    pure (some f)
  | none => pure none

/-- Another reference to a file. -/
def filedup (f : Fin nfile) : FilesM (Fin nfile) := do
  let s ← get
  if (s.file f).ref < 1 then throw .filedup
  else do
    setFile f fun x => { x with ref := x.ref + 1 }
    pure f

/-- Give the page of a pipe back. -/
def kfreePipe (pi : ℕ) : FilesM PUnit :=
  modify fun s => { s with
    freelist := pi :: s.freelist
    pipes := s.pipes.erase pi
    refreed := s.refreed || !decide (pi ∈ s.pipes) }

/-- Close an end of a pipe. -/
def pipeclose (pi : ℕ) (writable : Bool) : FilesM PUnit := do
  modify fun s => { s with
    pipe := Function.update s.pipe pi
      (if writable then { s.pipe pi with writeopen := false }
      else { s.pipe pi with readopen := false }) }
  let s ← get
  if (s.pipe pi).readopen = false ∧ (s.pipe pi).writeopen = false then kfreePipe pi else pure ⟨⟩

/-- Drop a reference to a file; the inode that is put, if it was the last one. -/
def fileclose (f : Fin nfile) : FilesM (Option ℕ) := do
  let s ← get
  if (s.file f).ref < 1 then throw .fileclose
  else do
    setFile f fun x => { x with ref := x.ref - 1 }
    if 0 < (s.file f).ref - 1 then pure none
    else do
      let ff := s.file f
      setFile f fun x => { x with ref := 0, type := .none }
      match ff.type with
      | .pipe => do
        pipeclose ff.pipe ff.writable
        pure none
      | .inode | .device => pure (some ff.ip)
      | .none => pure none

/-- Two files for the ends of a new pipe. -/
def pipealloc : FilesM (Option (Fin nfile × Fin nfile)) := do
  match ← filealloc with
  | none => pure none
  | some f0 =>
    match ← filealloc with
    | none => do
      let _ ← fileclose f0
      pure none
    | some f1 => do
      let s ← get
      match s.freelist with
      | [] => do
        let _ ← fileclose f0
        let _ ← fileclose f1
        pure none
      | pi :: freelist => do
        set { s with
          freelist
          pipes := pi :: s.pipes
          pipe := Function.update s.pipe pi { readopen := true, writeopen := true } }
        setFile f0 fun x => { x with type := .pipe, readable := true, writable := false, pipe := pi }
        setFile f1 fun x => { x with type := .pipe, readable := false, writable := true, pipe := pi }
        pure (some (f0, f1))

/-! ## Descriptors -/

/-- The descriptor of the process `p` that the argument names, and its file. -/
def argfd (s : Files) (p : Fin nproc) (fd : ℤ) : Option (Fin nofile × Fin nfile) :=
  if h : 0 ≤ fd ∧ fd < nofile then
    let i : Fin nofile := ⟨fd.toNat, by omega⟩
    (s.ofile p i).map fun f => (i, f)
  else none

/-- The first free descriptor. -/
def fdalloc (p : Fin nproc) (f : Fin nfile) : FilesM (Option (Fin nofile)) := do
  let s ← get
  match (List.finRange nofile).find? fun fd => s.ofile p fd = none with
  | some fd => do
    setOfile p fd (some f)
    pure (some fd)
  | none => pure none

/-! ## System calls -/

/-- The new descriptor. -/
def sysDup (p : Fin nproc) (fd : ℤ) : FilesM (Option (Fin nofile)) := do
  let s ← get
  match argfd s p fd with
  | none => pure none
  | some (_, f) =>
    match ← fdalloc p f with
    | none => pure none
    | some fd => do
      let _ ← filedup f
      pure (some fd)

/-- Whether the descriptor was open, and the inode that is put. -/
def sysClose (p : Fin nproc) (fd : ℤ) : FilesM (Bool × Option ℕ) := do
  let s ← get
  match argfd s p fd with
  | none => pure (false, none)
  | some (fd, f) => do
    setOfile p fd none
    let ip ← fileclose f
    pure (true, ip)

/-- The two descriptors; `ok₀` and `ok₁` say whether copying them to user memory succeeds. -/
def sysPipe (p : Fin nproc) (ok₀ ok₁ : Bool) : FilesM (Option (Fin nofile × Fin nofile)) := do
  match ← pipealloc with
  | none => pure none
  | some (rf, wf) =>
    match ← fdalloc p rf with
    | none => do
      let _ ← fileclose rf
      let _ ← fileclose wf
      pure none
    | some fd0 =>
      match ← fdalloc p wf with
      | none => do
        setOfile p fd0 none
        let _ ← fileclose rf
        let _ ← fileclose wf
        pure none
      | some fd1 =>
        if ok₀ = false ∨ ok₁ = false then do
          setOfile p fd0 none
          setOfile p fd1 none
          let _ ← fileclose rf
          let _ ← fileclose wf
          pure none
        else pure (some (fd0, fd1))

/-- The inode that `sys_open` has found or made: its entry in the inode table, and its major
    number if it is a device. -/
structure OpenNode where
  ip : ℕ
  major : Option ℤ

/-- `sys_open` from the allocation of the file on; `node` is `none` if it has failed before.
    The bits `0` and `1` of `omode` are `O_WRONLY` and `O_RDWR`. -/
def sysOpen (p : Fin nproc) (node : Option OpenNode) (omode : ℕ) : FilesM (Option (Fin nofile)) := do
  match node with
  | none => pure none
  | some node =>
    match ← filealloc with
    | none => pure none
    | some f =>
      match ← fdalloc p f with
      | none => do
        let _ ← fileclose f
        pure none
      | some fd => do
        (match node.major with
        | some major => setFile f fun x => { x with type := .device, major }
        | none => setFile f fun x => { x with type := .inode, off := 0 })
        setFile f fun x => { x with
          ip := node.ip
          readable := !omode.testBit 0
          writable := omode.testBit 0 || omode.testBit 1 }
        pure (some fd)

/-- The part of `kfork` that concerns files: the child `np` gets the files of `p`. -/
def forkFiles (p np : Fin nproc) : FilesM PUnit := do
  (List.finRange nofile).forM fun i => do
    let s ← get
    match s.ofile p i with
    | some f => do
      let f ← filedup f
      setOfile np i (some f)
    | none => pure ⟨⟩
  modify fun s => { s with live := Function.update s.live np true }

/-- The part of `kexit` that concerns files. -/
def exitFiles (p : Fin nproc) : FilesM PUnit := do
  (List.finRange nofile).forM fun fd => do
    let s ← get
    match s.ofile p fd with
    | some f => do
      let _ ← fileclose f
      setOfile p fd none
    | none => pure ⟨⟩
  modify fun s => { s with live := Function.update s.live p false }

end Xv6
