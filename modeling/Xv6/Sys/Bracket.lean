import Xv6.File.Failure
import Xv6.Fs.Dir

/-!
# The brackets of transactions

The system calls on files (`sysfile.c`, `file.c`, `exec.c`), with what they do to the log: a
call brackets its operations on the file system with `begin_op` and `end_op`. What the
operations find on the disk, in user memory or in the free list is not modelled here: every
lookup, allocation, copy and type check takes its outcome from an arbitrary sequence. The file
table is modelled, as whether `fileclose` begins a transaction depends on the type of the file.

Of a path, the calls only need the number of its elements.

In every reachable state (`tx_brackets`), whatever the call, its arguments and the outcomes, the
brackets of a call alternate and are closed when it returns, and the operations that write to
the log lie inside them. When `sys_open` finds no descriptor it closes the file it has just
allocated, inside its transaction; this is harmless as a file that is not in use has the type
`FD_NONE`.
-/

namespace Xv6

/-- The operations that have to be in a transaction. -/
inductive FsOp
  | iput
  | itrunc
  | iupdate
  | ialloc
  | dirlink
  | writei
  deriving DecidableEq

/-- What a call does to the log. -/
inductive TxEvent
  | beginOp
  | endOp
  | op (o : FsOp)
  deriving DecidableEq

/-- Whether the caller is in a transaction after the event; `none` if it must not happen. -/
def TxEvent.next : Bool → TxEvent → Option Bool
  | false, .beginOp => some true
  | true, .endOp => some false
  | true, .op _ => some true
  | _, _ => none

/-- Whether the caller is in a transaction after the events; `none` if the brackets are not
    alternating, or an operation is outside of them. -/
def brackets (l : List TxEvent) : Option Bool := l.foldlM TxEvent.next false

/-- The state of a call: the events so far, and the outcomes to come. -/
structure Tx where
  files : Files
  events : List TxEvent
  outcomes : ℕ → ℤ

/-- The panics of the calls. -/
inductive TxPanic
  | file (e : FilePanic)
  | fileread
  | filewrite
  | unlinkNlink
  | unlinkWritei
  | initExiting
  deriving DecidableEq

/-- Computations of a call. -/
abbrev TxM := EStateM TxPanic Tx

namespace Tx

open Fs (tDir tFile tDevice)

/-- The code of `file.c` that does not use the log. -/
def lift {α : Type} (m : FilesM α) : TxM α := fun s =>
  match m s.files with
  | .ok a t => .ok a { s with files := t }
  | .error e t => .error (.file e) { s with files := t }

/-- Something happens to the log. -/
def event (e : TxEvent) : TxM PUnit := modify fun s => { s with events := s.events ++ [e] }

/-- An outcome. -/
def outcome : TxM ℤ := do
  let s ← get
  set { s with outcomes := fun k => s.outcomes (k + 1) }
  pure (s.outcomes 0)

/-- Whether something succeeds. -/
def succeeds : TxM Bool := do
  let r ← outcome
  pure (decide (0 ≤ r))

/-- Begin a transaction. -/
def beginOp : TxM PUnit := event .beginOp

/-- End it. -/
def endOp : TxM PUnit := event .endOp

/-! ## Inodes -/

/-- What a call sees of an inode. -/
structure Node where
  type : Int16
  major : Int16

/-- Lock an inode, and read it if that was not done. -/
def ilock : TxM Node := do
  let type ← outcome
  let major ← outcome
  pure ⟨Int16.ofInt type, Int16.ofInt major⟩

/-- Write an inode to the disk. -/
def iupdate : TxM PUnit := event (.op .iupdate)

/-- Free the blocks of an inode. -/
def itrunc : TxM PUnit := do
  event (.op .itrunc)
  iupdate

/-- `iput` frees the inode if this is the last reference and there are no links. -/
def iput : TxM PUnit := do
  event (.op .iput)
  if ← succeeds then do
    itrunc
    iupdate
  else pure ⟨⟩

/-- Unlock an inode and put it. -/
def iunlockput : TxM PUnit := iput

/-- Whether there is a free inode. -/
def ialloc : TxM Bool := do
  event (.op .ialloc)
  succeeds

/-- The number of bytes read, or `-1`. -/
def readi : TxM ℤ := outcome

/-- The number of bytes written, or `-1` if the range is not valid. -/
def writei : TxM ℤ := do
  event (.op .writei)
  if ← succeeds then do
    let tot ← outcome
    iupdate
    pure tot
  else pure (-1)

/-- Whether there is an entry. -/
def dirlookup : TxM Bool := succeeds

/-- Whether the entry was made. -/
def dirlink : TxM Bool := do
  event (.op .dirlink)
  if ← dirlookup then do
    iput
    pure false
  else do
    let tot ← writei
    pure (decide (tot = 16))

/-- The loop of `namex`, over the elements of the path. -/
def namexLoop (nameiparent : Bool) : ℕ → TxM Bool
  | 0 =>
    if nameiparent then do
      iput
      pure false
    else pure true
  | path + 1 => do
    let ip ← ilock
    if ip.type ≠ tDir then do
      iunlockput
      pure false
    else if nameiparent = true ∧ path = 0 then pure true
    else if ← dirlookup then do
      iunlockput
      namexLoop nameiparent path
    else do
      iunlockput
      pure false

/-- Whether the path names an inode. -/
def namei (path : ℕ) : TxM Bool := namexLoop false path

/-- Whether the path has a parent directory. -/
def nameiparent (path : ℕ) : TxM Bool := namexLoop true path

/-- A path from user memory. -/
def argstr : TxM (Option ℕ) := do
  let r ← outcome
  pure (if 0 ≤ r then some r.toNat else none)

/-! ## Files -/

/-- Close a file; if this was the last reference, and the file has an inode, that is put. -/
def fileclose (f : Fin nfile) : TxM PUnit := do
  match ← lift (Xv6.fileclose f) with
  | some _ => do
    beginOp
    iput
    endOp
  | none => pure ⟨⟩

/-- The two ends of a new pipe, if there are two files and a page. -/
def pipealloc : TxM (Option (Fin nfile × Fin nfile)) := do
  match ← lift filealloc with
  | none => pure none
  | some f0 =>
    match ← lift filealloc with
    | none => do
      fileclose f0
      pure none
    | some f1 =>
      if ← succeeds then do
        let pi ← outcome
        lift (setFile f0 fun x =>
          { x with type := .pipe, readable := true, writable := false, pipe := pi.toNat })
        lift (setFile f1 fun x =>
          { x with type := .pipe, readable := false, writable := true, pipe := pi.toNat })
        pure (some (f0, f1))
      else do
        fileclose f0
        fileclose f1
        pure none

/-- A call of a device, if it has the function. -/
def device (major : ℤ) : TxM ℤ := do
  if major < 0 ∨ ndev ≤ major then pure (-1)
  else if ← succeeds then outcome
  else pure (-1)

/-- Read from a file. -/
def fileread (f : Fin nfile) : TxM ℤ := do
  let s ← get
  if (s.files.file f).readable = false then pure (-1)
  else
    match (s.files.file f).type with
    | .pipe => outcome
    | .device => device (s.files.file f).major
    | .inode => do
      let _ ← ilock
      let r ← readi
      if 0 < r then do
        lift (setFile f fun x => { x with off := x.off + r.toNat })
        pure r
      else pure r
    | .none => throw .fileread

/-- The most bytes that are written in a transaction. -/
def maxWrite : ℤ := ((10 - 1 - 1 - 2) / 2) * 1024

/-- The loop of `filewrite`, with `fuel` more iterations at most. -/
def filewriteLoop (f : Fin nfile) (n : ℤ) : ℕ → ℤ → TxM ℤ
  | 0, i => pure (if i = n then n else -1)
  | fuel + 1, i =>
    if i < n then do
      let n1 := if n - i > maxWrite then maxWrite else n - i
      beginOp
      let _ ← ilock
      let r ← writei
      (if 0 < r then lift (setFile f fun x => { x with off := x.off + r.toNat }) else pure ⟨⟩)
      endOp
      if r ≠ n1 then pure (if i = n then n else -1)
      else filewriteLoop f n fuel (i + r)
    else pure (if i = n then n else -1)

/-- Write to a file, a few blocks in a transaction. -/
def filewrite (f : Fin nfile) (n : ℤ) : TxM ℤ := do
  let s ← get
  if (s.files.file f).writable = false then pure (-1)
  else
    match (s.files.file f).type with
    | .pipe => outcome
    | .device => device (s.files.file f).major
    | .inode => filewriteLoop f n n.toNat 0
    | .none => throw .filewrite

/-! ## System calls -/

section

variable (p : Fin nproc)

/-- `sys_read`. -/
def sysRead (fd : ℤ) : TxM ℤ := do
  let s ← get
  match argfd s.files p fd with
  | none => pure (-1)
  | some (_, f) => fileread f

/-- `sys_write`. -/
def sysWrite (fd n : ℤ) : TxM ℤ := do
  let s ← get
  match argfd s.files p fd with
  | none => pure (-1)
  | some (_, f) => filewrite f n

/-- `sys_close`. -/
def sysClose (fd : ℤ) : TxM ℤ := do
  let s ← get
  match argfd s.files p fd with
  | none => pure (-1)
  | some (fd, f) => do
    lift (setOfile p fd none)
    fileclose f
    pure 0

end

/-- The end of `sys_link` when it fails. -/
def linkBad : TxM ℤ := do
  let _ ← ilock
  iupdate
  iunlockput
  endOp
  pure (-1)

/-- `sys_link`. -/
def sysLink : TxM ℤ := do
  match ← argstr with
  | none => pure (-1)
  | some old =>
    match ← argstr with
    | none => pure (-1)
    | some new => do
      beginOp
      if ← namei old then do
        let ip ← ilock
        if ip.type = tDir then do
          iunlockput
          endOp
          pure (-1)
        else do
          iupdate
          if ← nameiparent new then do
            let _ ← ilock
            -- The directory and the inode are on the same device.
            let same ← succeeds
            let linked ← (if same then dirlink else pure false)
            if linked then do
              iunlockput
              iput
              endOp
              pure 0
            else do
              iunlockput
              linkBad
          else linkBad
      else do
        endOp
        pure (-1)

/-- Whether a directory is empty. -/
def isdirempty : TxM Bool := succeeds

/-- The end of `sys_unlink` when it fails. -/
def unlinkBad : TxM ℤ := do
  iunlockput
  endOp
  pure (-1)

/-- `sys_unlink`. -/
def sysUnlink : TxM ℤ := do
  match ← argstr with
  | none => pure (-1)
  | some path => do
    beginOp
    if ← nameiparent path then do
      let _ ← ilock
      -- Neither "." nor "..".
      if ← succeeds then
        if ← dirlookup then do
          let ip ← ilock
          let nlink ← outcome
          if nlink < 1 then throw .unlinkNlink
          else do
            let empty ← (if ip.type = tDir then isdirempty else pure true)
            if empty = false then do
              iunlockput
              unlinkBad
            else do
              let tot ← writei
              if tot ≠ 16 then throw .unlinkWritei
              else do
                (if ip.type = tDir then iupdate else pure ⟨⟩)
                iunlockput
                iupdate
                iunlockput
                endOp
                pure 0
        else unlinkBad
      else unlinkBad
    else do
      endOp
      pure (-1)

/-- The end of `create` when it fails. -/
def createFail : TxM (Option Node) := do
  iupdate
  iunlockput
  iunlockput
  pure none

/-- The entries of a new directory. -/
def dirlinkDots : TxM Bool := do
  if ← dirlink then dirlink else pure false

/-- An inode of the type, with the last name of the path: a new one, or an existing file. -/
def create (path : ℕ) (type : Int16) : TxM (Option Node) := do
  if ← nameiparent path then do
    let _ ← ilock
    if ← dirlookup then do
      iunlockput
      let ip ← ilock
      if type = tFile ∧ (ip.type = tFile ∨ ip.type = tDevice) then pure (some ip)
      else do
        iunlockput
        pure none
    else if ← ialloc then do
      let ip ← ilock
      iupdate
      let dots ← (if type = tDir then dirlinkDots else pure true)
      if dots = false then createFail
      else if ← dirlink then do
        (if type = tDir then iupdate else pure ⟨⟩)
        iunlockput
        pure (some ip)
      else createFail
    else do
      iunlockput
      pure none
  else pure none

/-- Give up an inode, and the transaction. -/
def openBad : TxM ℤ := do
  iunlockput
  endOp
  pure (-1)

/-- The end of `sys_open` when it succeeds. -/
def openDone (f : Fin nfile) (omode : UInt32) (ip : Node) : TxM PUnit := do
  lift (setFile f fun x => { x with
    readable := decide (omode &&& 1 = 0)
    writable := decide (omode &&& 1 ≠ 0 ∨ omode &&& 2 ≠ 0) })
  (if omode &&& 0x400 ≠ 0 ∧ ip.type = tFile then itrunc else pure ⟨⟩)
  endOp

/-- `sys_open` from the inode on. -/
def openNode (p : Fin nproc) (omode : UInt32) (ip : Node) : TxM ℤ := do
  if ip.type = tDevice ∧ (ip.major.toInt < 0 ∨ ndev ≤ ip.major.toInt) then openBad
  else
    match ← lift filealloc with
    | none => openBad
    | some f =>
      match ← lift (fdalloc p f) with
      | none => do
        fileclose f
        openBad
      | some fd => do
        lift (if ip.type = tDevice then
            setFile f fun x => { x with type := .device, major := ip.major.toInt }
          else setFile f fun x => { x with type := .inode, off := 0 })
        openDone f omode ip
        pure fd

/-- `sys_open`. -/
def sysOpen (p : Fin nproc) (omode : UInt32) : TxM ℤ := do
  match ← argstr with
  | none => pure (-1)
  | some path => do
    beginOp
    if omode &&& 0x200 ≠ 0 then
      match ← create path tFile with
      | none => do
        endOp
        pure (-1)
      | some ip => openNode p omode ip
    else if ← namei path then do
      let ip ← ilock
      if ip.type = tDir ∧ omode ≠ 0 then openBad
      else openNode p omode ip
    else do
      endOp
      pure (-1)

/-- `sys_mkdir` and `sys_mknod`. -/
def sysMake (type : Int16) : TxM ℤ := do
  beginOp
  match ← argstr with
  | none => do
    endOp
    pure (-1)
  | some path =>
    match ← create path type with
    | none => do
      endOp
      pure (-1)
    | some _ => do
      iunlockput
      endOp
      pure 0

/-- `sys_mkdir`. -/
def sysMkdir : TxM ℤ := sysMake tDir

/-- `sys_mknod`. -/
def sysMknod : TxM ℤ := sysMake tDevice

/-- `sys_chdir`. -/
def sysChdir : TxM ℤ := do
  beginOp
  match ← argstr with
  | none => do
    endOp
    pure (-1)
  | some path =>
    if ← namei path then do
      let ip ← ilock
      if ip.type ≠ tDir then openBad
      else do
        iput
        endOp
        pure 0
    else do
      endOp
      pure (-1)

/-- Close both files of a pipe. -/
def closeBoth (rf wf : Fin nfile) : TxM ℤ := do
  fileclose rf
  fileclose wf
  pure (-1)

/-- `sys_pipe`. -/
def sysPipe (p : Fin nproc) : TxM ℤ := do
  match ← pipealloc with
  | none => pure (-1)
  | some (rf, wf) =>
    match ← lift (fdalloc p rf) with
    | none => closeBoth rf wf
    | some fd0 =>
      match ← lift (fdalloc p wf) with
      | none => do
        lift (setOfile p fd0 none)
        closeBoth rf wf
      | some fd1 =>
        if ← succeeds then pure 0
        else do
          lift (setOfile p fd0 none)
          lift (setOfile p fd1 none)
          closeBoth rf wf

/-- The label `bad` of `kexec`; `ip` says whether the inode is still held. -/
def execBad (ip : Bool) : TxM ℤ := do
  if ip then do
    iunlockput
    endOp
    pure (-1)
  else pure (-1)

/-- The loop of `kexec` over the program headers: whether all of them are loaded. -/
def loadSegments : ℕ → TxM Bool
  | 0 => pure true
  | phnum + 1 => do
    let r ← readi
    if r ≠ 56 then pure false
    -- Not `ELF_PROG_LOAD`.
    else if ← succeeds then loadSegments phnum
    -- `memsz`, `vaddr`, `uvmalloc` and `loadseg`.
    else if ← succeeds then loadSegments phnum
    else pure false

/-- `kexec`. After the inode is put, `uvmalloc`, the room on the stack and `copyout` may still
    fail. -/
def kexec (path : ℕ) : TxM ℤ := do
  beginOp
  if ← namei path then do
    let _ ← ilock
    let r ← readi
    if r ≠ 64 then execBad true
    -- The magic number and `proc_pagetable`.
    else if ← succeeds then do
      let phnum ← outcome
      if ← loadSegments phnum.toNat then do
        iunlockput
        endOp
        if ← succeeds then outcome else execBad false
      else execBad true
    else execBad true
  else do
    endOp
    pure (-1)

/-- `sys_exec`. -/
def sysExec : TxM ℤ := do
  match ← argstr with
  | none => pure (-1)
  | some path =>
    -- The arguments.
    if ← succeeds then kexec path else pure (-1)

/-- `kexit` up to the transaction that puts the current directory. -/
def kexit (p initproc : Fin nproc) : TxM PUnit := do
  if p = initproc then throw .initExiting
  else do
    (List.finRange nofile).forM fun fd => do
      let s ← get
      match s.files.ofile p fd with
      | some f => do
        fileclose f
        lift (setOfile p fd none)
      | none => pure ⟨⟩
    beginOp
    iput
    endOp

/-! ## Specifications -/

/-- The calls so far are fine, and the caller is in a transaction, or is not. -/
def At (b : Bool) (s : Tx) : Prop := brackets s.events = some b ∧ s.files.FreeUntyped

/-- The calls so far are fine. -/
def Fine (s : Tx) : Prop := ∃ b, s.At b

/-- The computation takes a caller from `b` to `b'`, and the calls are fine if it panics. -/
def Triple {α : Type} (b : Bool) (m : TxM α) (b' : Bool) : Prop :=
  ∀ s : Tx, s.At b → wp m (fun _ t => t.At b') (fun _ t => t.Fine) s

section

variable {α β : Type} {b b' b'' : Bool} {m : TxM α} {f : α → TxM β} {s : Tx}
  {p : Fin nproc}

theorem Triple.pure (a : α) : Triple b (pure a) b := fun _ hs => hs

theorem Triple.throw (e : TxPanic) : Triple b (throw e : TxM α) b' := fun _ hs => ⟨b, hs⟩

theorem Triple.bind (hm : Triple b m b') (hf : ∀ a, Triple b' (f a) b'') :
    Triple b (m >>= f) b'' := by
  intro s hs
  rw [wp_bind]
  exact (hm s hs).mono (fun a t ht => hf a t ht) fun _ _ he => he

theorem Triple.ite {c : Prop} [Decidable c] {m' : TxM α} (hm : Triple b m b')
    (hm' : Triple b m' b') : Triple b (if c then m else m') b' := by
  split
  · exact hm
  · exact hm'

theorem Triple.event {e : TxEvent} (h : e.next b = some b') : Triple b (event e) b' := by
  intro s hs
  refine ⟨?_, hs.2⟩
  change (s.events ++ [e]).foldlM TxEvent.next false = some b'
  rw [List.foldlM_append]
  rw [show s.events.foldlM TxEvent.next false = some b from hs.1]
  simp [h]

/-- Any outcome may come. -/
theorem wp_outcome {Q : ℤ → Tx → Prop} {E : TxPanic → Tx → Prop}
    (h : ∀ r o, Q r { s with outcomes := o }) : wp outcome Q E s := h _ _

theorem wp_succeeds {Q : Bool → Tx → Prop} {E : TxPanic → Tx → Prop}
    (h : ∀ r o, Q r { s with outcomes := o }) : wp succeeds Q E s := h _ _

theorem triple_outcome : Triple b outcome b := fun _ hs => hs

theorem triple_succeeds : Triple b succeeds b := fun _ hs => hs

theorem triple_ilock : Triple b ilock b := fun _ hs => hs

theorem triple_argstr : Triple b argstr b := fun _ hs => hs

theorem triple_beginOp : Triple false beginOp true := .event rfl

theorem triple_endOp : Triple true endOp false := .event rfl

theorem triple_iupdate : Triple true iupdate true := .event rfl

theorem triple_itrunc : Triple true itrunc true := .bind (.event rfl) fun _ => triple_iupdate

theorem triple_iput : Triple true iput true := by
  refine .bind (.event rfl) fun _ => .bind triple_succeeds fun r => ?_
  split
  · exact .bind triple_itrunc fun _ => triple_iupdate
  · exact .pure _

theorem triple_iunlockput : Triple true iunlockput true := triple_iput

theorem triple_ialloc : Triple true ialloc true := .bind (.event rfl) fun _ => triple_succeeds

theorem triple_writei : Triple true writei true := by
  refine .bind (.event rfl) fun _ => .bind triple_succeeds fun _ => .ite ?_ (.pure _)
  exact .bind triple_outcome fun _ => .bind triple_iupdate fun _ => .pure _

theorem triple_dirlink : Triple true dirlink true := by
  refine .bind (.event rfl) fun _ => .bind triple_succeeds fun _ => .ite ?_ ?_
  · exact .bind triple_iput fun _ => .pure _
  · exact .bind triple_writei fun _ => .pure _

theorem triple_namexLoop (parent : Bool) (path : ℕ) : Triple true (namexLoop parent path) true := by
  induction path with
  | zero => exact .ite (.bind triple_iput fun _ => .pure _) (.pure _)
  | succ path ih =>
    refine .bind triple_ilock fun _ => .ite (.bind triple_iunlockput fun _ => .pure _) ?_
    refine .ite (.pure _) (.bind triple_succeeds fun _ => .ite ?_ ?_)
    · exact .bind triple_iunlockput fun _ => ih
    · exact .bind triple_iunlockput fun _ => .pure _

theorem triple_namei (path : ℕ) : Triple true (namei path) true := triple_namexLoop false path

theorem triple_nameiparent (path : ℕ) : Triple true (nameiparent path) true :=
  triple_namexLoop true path

/-! ## The file table -/

theorem Triple.lift {m : FilesM α}
    (h : ∀ s : Files, s.FreeUntyped → wp m (fun _ t => t.FreeUntyped) (fun _ t => t.FreeUntyped) s) :
    Triple b (lift m) b := by
  intro s hs
  have hm := h s.files hs.2
  unfold wp at hm ⊢
  unfold Tx.lift
  cases hr : m s.files with
  | ok a t =>
    rw [hr] at hm
    exact ⟨hs.1, hm⟩
  | error e t =>
    rw [hr] at hm
    exact ⟨b, hs.1, hm⟩

theorem wp_lift {Q : α → Tx → Prop} {E : TxPanic → Tx → Prop} {m : FilesM α} :
    wp (Tx.lift m) Q E s ↔ wp m (fun a t => Q a { s with files := t })
      (fun e t => E (.file e) { s with files := t }) s.files := by
  unfold wp Tx.lift
  cases m s.files <;> rfl

theorem triple_setOfile {fd : Fin nofile} {o : Option (Fin nfile)} :
    Triple b (Tx.lift (setOfile p fd o)) b := .lift fun _ hs => hs

theorem triple_fdalloc {f : Fin nfile} : Triple b (Tx.lift (fdalloc p f)) b :=
  .lift fun s hs => wp_fdalloc_file fun r t ht f hf => by
    rw [ht] at hf ⊢
    exact hs f hf

theorem triple_fileclose {f : Fin nfile} : Triple false (fileclose f) false := by
  refine .bind (.lift fun s hs => ?_) fun r => ?_
  · exact wp_fileclose_freeUntyped hs
  · cases r with
    | some ip => exact .bind triple_beginOp fun _ => .bind triple_iput fun _ => triple_endOp
    | none => exact .pure _

/-- Closing a file without a type begins no transaction. -/
theorem wp_fileclose_none {f : Fin nfile} (hs : s.At b) (href : (s.files.file f).ref = 1)
    (hf : (s.files.file f).type = .none) {Q : PUnit → Tx → Prop} {E : TxPanic → Tx → Prop}
    (hQ : ∀ t, t.At b → Q ⟨⟩ t) : wp (fileclose f) Q E s := by
  rw [fileclose, wp_bind, wp_lift]
  refine wp_fileclose_untyped href hf (hQ _ ⟨hs.1, ?_⟩)
  exact hs.2.setFile (g := fun x => { x with ref := 0, type := .none }) fun _ => rfl

theorem triple_setFile {f : Fin nfile} {g : File → File}
    (hg : ∀ x, (g x).ref = x.ref ∧ (g x).type = x.type) : Triple b (Tx.lift (setFile f g)) b := by
  refine .lift fun s hs => hs.setFile fun h => ?_
  rw [(hg _).1] at h
  rw [(hg _).2]
  exact hs f h

/-- A change of a file in use. -/
theorem wp_setFile_used {f : Fin nfile} {g : File → File} (hs : s.At b)
    (hf : (s.files.file f).ref = 1) (hg : ∀ x, (g x).ref = x.ref) {Q : PUnit → Tx → Prop}
    {E : TxPanic → Tx → Prop} (hQ : ∀ t : Tx, t.At b → (t.files.file f = g (s.files.file f)) →
      (∀ f', f' ≠ f → t.files.file f' = s.files.file f') → Q ⟨⟩ t) :
    wp (Tx.lift (setFile f g)) Q E s := by
  rw [wp_lift]
  refine hQ _ ⟨hs.1, hs.2.setFile fun h => ?_⟩ (Function.update_self ..)
    fun f' hf' => Function.update_of_ne hf' _ _
  rw [hg, hf] at h
  cases h

theorem triple_pipealloc : Triple false pipealloc false := by
  intro s hs
  rw [pipealloc, wp_bind, wp_lift]
  refine wp_filealloc_freeUntyped hs.2 hs fun f0 t ht href0 _ _ _ => ?_
  have ht : At false { s with files := t } := ⟨hs.1, ht⟩
  dsimp only
  rw [wp_bind, wp_lift]
  refine wp_filealloc_freeUntyped ht.2 ?_ fun f1 u hu href1 _ hne hfree => ?_
  · exact Triple.bind triple_fileclose (fun _ => .pure none) _ ht
  have hu : At false { s with files := u } := ⟨hs.1, hu⟩
  have h01 : f0 ≠ f1 := by
    rintro rfl
    rw [href0] at hfree
    cases hfree
  have href0 : (u.file f0).ref = 1 := by rw [hne f0 h01, href0]
  dsimp only
  rw [wp_bind]
  refine wp_succeeds fun r o => ?_
  have hu : At false { s with files := u, outcomes := o } := hu
  split
  · rw [wp_bind]
    refine wp_outcome fun pi o' => ?_
    rw [wp_bind]
    refine wp_setFile_used (s := { s with files := u, outcomes := o' }) hu href0 ?_ fun v hv _ hne' => ?_
    · exact fun _ => rfl
    rw [wp_bind]
    have href1 : (v.files.file f1).ref = 1 := by rw [hne' f1 h01.symm, href1]
    refine wp_setFile_used hv href1 ?_ fun w hw _ _ => hw
    exact fun _ => rfl
  · refine Triple.bind triple_fileclose (fun _ => ?_) _ hu
    exact .bind triple_fileclose fun _ => .pure none

theorem triple_device {major : ℤ} : Triple b (device major) b :=
  .ite (.pure _) (.bind triple_succeeds fun _ => .ite triple_outcome (.pure _))

theorem triple_get {f : Tx → TxM α} (h : ∀ u, Triple b (f u) b') : Triple b (get >>= f) b' :=
  fun s hs => h s s hs

theorem triple_fileread {f : Fin nfile} : Triple false (fileread f) false := by
  refine triple_get fun u => .ite (.pure _) ?_
  split
  · exact triple_outcome
  · exact triple_device
  · refine .bind triple_ilock fun _ => .bind triple_outcome fun r => .ite ?_ (.pure _)
    exact .bind (triple_setFile fun x => ⟨rfl, rfl⟩) fun _ => .pure _
  · exact .throw _

theorem triple_filewriteLoop {f : Fin nfile} {n : ℤ} (fuel : ℕ) (i : ℤ) :
    Triple false (filewriteLoop f n fuel i) false := by
  induction fuel generalizing i with
  | zero => exact .pure _
  | succ fuel ih =>
    refine .ite ?_ (.pure _)
    refine .bind triple_beginOp fun _ => .bind triple_ilock fun _ => .bind triple_writei fun r => ?_
    refine .bind (.ite (triple_setFile fun x => ⟨rfl, rfl⟩) (.pure _)) fun _ => ?_
    exact .bind triple_endOp fun _ => .ite (.pure _) (ih _)

theorem triple_filewrite {f : Fin nfile} {n : ℤ} : Triple false (filewrite f n) false := by
  refine triple_get fun u => .ite (.pure _) ?_
  split
  · exact triple_outcome
  · exact triple_device
  · exact triple_filewriteLoop _ _
  · exact .throw _

/-! ## The calls -/

theorem triple_sysRead {fd : ℤ} : Triple false (sysRead p fd) false := by
  refine triple_get fun u => ?_
  split
  · exact .pure _
  · exact triple_fileread

theorem triple_sysWrite {fd n : ℤ} : Triple false (sysWrite p fd n) false := by
  refine triple_get fun u => ?_
  split
  · exact .pure _
  · exact triple_filewrite

theorem triple_sysClose {fd : ℤ} : Triple false (sysClose p fd) false := by
  refine triple_get fun u => ?_
  split
  · exact .pure _
  · exact .bind triple_setOfile fun _ => .bind triple_fileclose fun _ => .pure _

theorem triple_endOp_pure (a : α) : Triple true (endOp >>= fun _ => Pure.pure a) false :=
  .bind triple_endOp fun _ => .pure a

theorem triple_linkBad : Triple true linkBad false :=
  .bind triple_ilock fun _ => .bind triple_iupdate fun _ => .bind triple_iunlockput fun _ =>
    triple_endOp_pure _

theorem triple_sysLink : Triple false sysLink false := by
  refine .bind triple_argstr fun r => ?_
  rcases r with _ | old
  · exact .pure _
  refine .bind triple_argstr fun r => ?_
  rcases r with _ | new
  · exact .pure _
  refine .bind triple_beginOp fun _ => .bind (triple_namei old) fun _ => .ite ?_ (triple_endOp_pure _)
  refine .bind triple_ilock fun ip => .ite (.bind triple_iunlockput fun _ => triple_endOp_pure _) ?_
  refine .bind triple_iupdate fun _ => .bind (triple_nameiparent new) fun _ => .ite ?_ triple_linkBad
  refine .bind triple_ilock fun _ => .bind triple_succeeds fun _ => ?_
  refine .bind (.ite triple_dirlink (.pure _)) fun _ => .ite ?_ ?_
  · exact .bind triple_iunlockput fun _ => .bind triple_iput fun _ => triple_endOp_pure _
  · exact .bind triple_iunlockput fun _ => triple_linkBad

theorem triple_openBad : Triple true openBad false :=
  .bind triple_iunlockput fun _ => triple_endOp_pure _

theorem triple_sysUnlink : Triple false sysUnlink false := by
  refine .bind triple_argstr fun r => ?_
  rcases r with _ | path
  · exact .pure _
  refine .bind triple_beginOp fun _ => .bind (triple_nameiparent path) fun _ =>
    .ite ?_ (triple_endOp_pure _)
  refine .bind triple_ilock fun _ => .bind triple_succeeds fun _ => .ite ?_ triple_openBad
  refine .bind triple_succeeds fun _ => .ite ?_ triple_openBad
  refine .bind triple_ilock fun ip => .bind triple_outcome fun nlink => .ite (.throw _) ?_
  refine .bind (.ite triple_succeeds (.pure _)) fun empty => .ite ?_ ?_
  · exact .bind triple_iunlockput fun _ => triple_openBad
  · refine .bind triple_writei fun tot => .ite (.throw _) ?_
    refine .bind (.ite triple_iupdate (.pure _)) fun _ => .bind triple_iunlockput fun _ => ?_
    exact .bind triple_iupdate fun _ => .bind triple_iunlockput fun _ => triple_endOp_pure _

theorem triple_createFail : Triple true createFail true :=
  .bind triple_iupdate fun _ => .bind triple_iunlockput fun _ => .bind triple_iunlockput fun _ =>
    .pure _

theorem triple_create (path : ℕ) (type : Int16) : Triple true (create path type) true := by
  refine .bind (triple_nameiparent path) fun _ => .ite ?_ (.pure _)
  refine .bind triple_ilock fun _ => .bind triple_succeeds fun _ => .ite ?_ ?_
  · refine .bind triple_iunlockput fun _ => .bind triple_ilock fun ip => .ite (.pure _) ?_
    exact .bind triple_iunlockput fun _ => .pure _
  refine .bind triple_ialloc fun _ => .ite ?_ (.bind triple_iunlockput fun _ => .pure _)
  refine .bind triple_ilock fun ip => .bind triple_iupdate fun _ => ?_
  refine .bind (.ite ?_ (.pure _)) fun dots => .ite triple_createFail ?_
  · exact .bind triple_dirlink fun _ => .ite triple_dirlink (.pure _)
  refine .bind triple_dirlink fun _ => .ite ?_ triple_createFail
  exact .bind (.ite triple_iupdate (.pure _)) fun _ => .bind triple_iunlockput fun _ => .pure _

theorem triple_openDone {f : Fin nfile} {omode : UInt32} {ip : Node} :
    Triple true (openDone f omode ip) false := by
  refine .bind (triple_setFile ?_) fun _ => .bind (.ite triple_itrunc (.pure _)) fun _ => triple_endOp
  exact fun x => ⟨rfl, rfl⟩

/-- The file that `sys_open` gives up inside its transaction has no type. -/
theorem triple_openNode (omode : UInt32) (ip : Node) : Triple true (openNode p omode ip) false := by
  refine .ite triple_openBad fun s hs => ?_
  rw [wp_bind, wp_lift]
  refine wp_filealloc_freeUntyped hs.2 (triple_openBad s hs) fun f t ht href htype _ _ => ?_
  have ht : At true { s with files := t } := ⟨hs.1, ht⟩
  dsimp only
  rw [wp_bind, wp_lift]
  refine wp_fdalloc_file fun r u hu => ?_
  change u.file = t.file at hu
  have huf : u.file f = t.file f := by rw [hu]
  have hat : At true { s with files := u } := ⟨hs.1, fun g => by rw [hu]; exact ht.2 g⟩
  cases r with
  | none =>
    dsimp only
    rw [wp_bind]
    exact wp_fileclose_none hat (by rw [huf, href]) (by rw [huf, htype]) fun v hv =>
      triple_openBad v hv
  | some fd =>
    have href : (u.file f).ref = 1 := by rw [huf, href]
    have hdone : Triple true (openDone f omode ip >>= fun _ => Pure.pure (fd : ℤ)) false :=
      .bind triple_openDone fun _ => .pure _
    dsimp only
    rw [wp_bind]
    split
    · refine wp_setFile_used hat href ?_ fun v hv _ _ => hdone v hv
      exact fun _ => rfl
    · refine wp_setFile_used hat href ?_ fun v hv _ _ => hdone v hv
      exact fun _ => rfl

theorem triple_sysOpen {omode : UInt32} : Triple false (sysOpen p omode) false := by
  refine .bind triple_argstr fun r => ?_
  rcases r with _ | path
  · exact .pure _
  refine .bind triple_beginOp fun _ => .ite ?_ ?_
  · refine .bind (triple_create path tFile) fun r => ?_
    rcases r with _ | ip
    · exact triple_endOp_pure _
    · exact triple_openNode omode ip
  · refine .bind (triple_namei path) fun _ => .ite ?_ (triple_endOp_pure _)
    exact .bind triple_ilock fun ip => .ite triple_openBad (triple_openNode omode ip)

theorem triple_sysMake {type : Int16} : Triple false (sysMake type) false := by
  refine .bind triple_beginOp fun _ => .bind triple_argstr fun r => ?_
  rcases r with _ | path
  · exact triple_endOp_pure _
  refine .bind (triple_create path type) fun r => ?_
  rcases r with _ | ip
  · exact triple_endOp_pure _
  · exact .bind triple_iunlockput fun _ => triple_endOp_pure _

theorem triple_sysChdir : Triple false sysChdir false := by
  refine .bind triple_beginOp fun _ => .bind triple_argstr fun r => ?_
  rcases r with _ | path
  · exact triple_endOp_pure _
  refine .bind (triple_namei path) fun _ => .ite ?_ (triple_endOp_pure _)
  refine .bind triple_ilock fun ip => .ite triple_openBad ?_
  exact .bind triple_iput fun _ => triple_endOp_pure _

theorem triple_closeBoth {rf wf : Fin nfile} : Triple false (closeBoth rf wf) false :=
  .bind triple_fileclose fun _ => .bind triple_fileclose fun _ => .pure _

theorem triple_sysPipe : Triple false (sysPipe p) false := by
  refine .bind triple_pipealloc fun r => ?_
  rcases r with _ | ⟨rf, wf⟩
  · exact .pure _
  refine .bind triple_fdalloc fun r => ?_
  rcases r with _ | fd0
  · exact triple_closeBoth
  refine .bind triple_fdalloc fun r => ?_
  rcases r with _ | fd1
  · exact .bind triple_setOfile fun _ => triple_closeBoth
  refine .bind triple_succeeds fun _ => .ite (.pure _) ?_
  exact .bind triple_setOfile fun _ => .bind triple_setOfile fun _ => triple_closeBoth

theorem triple_loadSegments (phnum : ℕ) : Triple true (loadSegments phnum) true := by
  induction phnum with
  | zero => exact .pure _
  | succ phnum ih =>
    refine .bind triple_outcome fun r => .ite (.pure _) (.bind triple_succeeds fun _ => .ite ih ?_)
    exact .bind triple_succeeds fun _ => .ite ih (.pure _)

theorem triple_execBad : Triple true (execBad true) false := triple_openBad

theorem triple_kexec (path : ℕ) : Triple false (kexec path) false := by
  refine .bind triple_beginOp fun _ => .bind (triple_namei path) fun _ =>
    .ite ?_ (triple_endOp_pure _)
  refine .bind triple_ilock fun _ => .bind triple_outcome fun r => .ite triple_execBad ?_
  refine .bind triple_succeeds fun _ => .ite ?_ triple_execBad
  refine .bind triple_outcome fun phnum => .bind (triple_loadSegments _) fun _ =>
    .ite ?_ triple_execBad
  refine .bind triple_iunlockput fun _ => .bind triple_endOp fun _ => ?_
  exact .bind triple_succeeds fun _ => .ite triple_outcome (.pure _)

theorem triple_sysExec : Triple false sysExec false := by
  refine .bind triple_argstr fun r => ?_
  rcases r with _ | path
  · exact .pure _
  · exact .bind triple_succeeds fun _ => .ite (triple_kexec path) (.pure _)

theorem triple_forM {γ : Type} {g : γ → TxM PUnit} (h : ∀ x, Triple b (g x) b) (l : List γ) :
    Triple b (l.forM g) b := fun _ hs =>
  wp_forM (fun _ t => t.At b) hs fun x _ t _ ht => h x t ht

theorem triple_kexit {initproc : Fin nproc} : Triple false (kexit p initproc) false := by
  refine .ite (.throw _) (.bind (triple_forM (fun fd => triple_get fun u => ?_) _) fun _ => ?_)
  · split
    · exact .bind triple_fileclose fun _ => triple_setOfile
    · exact .pure _
  · exact .bind triple_beginOp fun _ => .bind triple_iput fun _ => triple_endOp

theorem triple_sysDup {fd : ℤ} : Triple b (Tx.lift (sysDup p fd)) b := by
  refine .lift fun s hs => ?_
  simp only [sysDup, wp_bind, wp_get]
  split
  · exact hs
  rw [wp_bind]
  refine wp_fdalloc_file fun r t ht => ?_
  have htu : t.FreeUntyped := fun g => by rw [ht]; exact hs g
  cases r with
  | none => exact htu
  | some fd =>
    dsimp only
    rw [wp_bind]
    exact wp_filedup_freeUntyped htu

theorem triple_forkFiles {np : Fin nproc} : Triple b (Tx.lift (forkFiles p np)) b := by
  refine .lift fun s hs => ?_
  rw [forkFiles, wp_bind]
  refine (wp_forM (fun _ t => t.FreeUntyped) hs fun i _ t _ ht => ?_).mono (fun _ t ht => ht)
    fun _ _ h => h
  simp only [wp_bind, wp_get]
  split
  · rw [wp_bind]
    exact (wp_filedup_freeUntyped ht).mono (fun _ u hu => hu) fun _ _ he => he
  · exact ht

end

/-- The calls. `fork` and `dup` are not calls on the file system, but change the file table. -/
inductive Call
  | open (omode : UInt32)
  | close (fd : ℤ)
  | read (fd : ℤ)
  | write (fd n : ℤ)
  | link
  | unlink
  | mkdir
  | mknod
  | chdir
  | pipe
  | exec
  | exit (initproc : Fin nproc)
  | dup (fd : ℤ)
  | fork (np : Fin nproc)

/-- A call of the process `p`, with the outcomes of its operations. -/
structure Act where
  p : Fin nproc
  call : Call
  outcomes : ℕ → ℤ

/-- What a call computes. -/
def Call.run (p : Fin nproc) : Call → TxM PUnit
  | .open omode => do let _ ← sysOpen p omode
  | .close fd => do let _ ← sysClose p fd
  | .read fd => do let _ ← sysRead p fd
  | .write fd n => do let _ ← sysWrite p fd n
  | .link => do let _ ← sysLink
  | .unlink => do let _ ← sysUnlink
  | .mkdir => do let _ ← sysMkdir
  | .mknod => do let _ ← sysMknod
  | .chdir => do let _ ← sysChdir
  | .pipe => do let _ ← sysPipe p
  | .exec => do let _ ← sysExec
  | .exit initproc => kexit p initproc
  | .dup fd => do let _ ← lift (sysDup p fd)
  | .fork np => lift (forkFiles p np)

/-- The outcome of a call. -/
def Act.run (a : Act) (s : Files) : EStateM.Result TxPanic Tx PUnit :=
  a.call.run a.p ⟨s, [], a.outcomes⟩

/-- Whatever the call, its arguments and its outcomes, its brackets are alternating and closed
    when it returns, and the operations are inside them; also up to a panic. -/
def Bracketed (s : Files) : Prop :=
  ∀ a : Act, match a.run s with
    | .ok _ t => brackets t.events = some false
    | .error _ t => brackets t.events ≠ none

theorem triple_run (p : Fin nproc) (c : Call) : Triple false (c.run p) false := by
  cases c with
  | «open» omode => exact .bind triple_sysOpen fun _ => .pure _
  | close fd => exact .bind triple_sysClose fun _ => .pure _
  | read fd => exact .bind triple_sysRead fun _ => .pure _
  | write fd n => exact .bind triple_sysWrite fun _ => .pure _
  | link => exact .bind triple_sysLink fun _ => .pure _
  | unlink => exact .bind triple_sysUnlink fun _ => .pure _
  | mkdir => exact .bind triple_sysMake fun _ => .pure _
  | mknod => exact .bind triple_sysMake fun _ => .pure _
  | chdir => exact .bind triple_sysChdir fun _ => .pure _
  | pipe => exact .bind triple_sysPipe fun _ => .pure _
  | exec => exact .bind triple_sysExec fun _ => .pure _
  | exit initproc => exact triple_kexit
  | dup fd => exact .bind triple_sysDup fun _ => .pure _
  | fork np => exact triple_forkFiles

end Tx

/-- The calls of any processes, one after the other. -/
def txSystem : System Files Tx.Act where
  init := {s | ∀ f, (s.file f).ref = 0 ∧ (s.file f).type = .none}
  step s a t := ∃ u, a.run s = .ok ⟨⟩ u ∧ u.files = t

theorem Files.FreeUntyped.bracketed {s : Files} (hs : s.FreeUntyped) : Tx.Bracketed s := by
  intro a
  have h := Tx.triple_run a.p a.call ⟨s, [], a.outcomes⟩ ⟨rfl, hs⟩
  unfold wp at h
  unfold Tx.Act.run
  split at h
  next hr =>
    rw [hr]
    exact h.1
  next hr =>
    rw [hr]
    obtain ⟨b, hb, -⟩ := h
    dsimp only
    rw [hb]
    exact Option.some_ne_none b

/-- **The brackets are balanced.** In every state that calls of any processes lead to, whatever
    the next call, its arguments and the outcomes of its operations. -/
theorem tx_brackets {s₀ : Files} {tr : List (Tx.Act × Files)} (h₀ : s₀ ∈ txSystem.init)
    (h : txSystem.Run s₀ tr) : System.Throughout Tx.Bracketed s₀ tr := by
  refine h.throughout (Q := Files.FreeUntyped) (C := fun _ _ => True) (fun f _ => (h₀ f).2)
    (fun s a t hs hstep _ => ?_) (fun s hs => hs.bracketed)
    (System.along_of_forall (fun _ _ => trivial) _ _)
  obtain ⟨u, hu, rfl⟩ := hstep
  have ht := (Tx.triple_run a.p a.call ⟨s, [], a.outcomes⟩ ⟨rfl, hs⟩).of_ok hu
  exact ht.2

/-- Run a call. -/
def Tx.exec (s : Files) (a : Tx.Act) : Option Files :=
  match a.run s with
  | .ok _ u => some u.files
  | .error _ _ => none

theorem Tx.exec_sound (s : Files) (a : Tx.Act) (t : Files) (h : Tx.exec s a = some t) :
    txSystem.step s a t := by
  unfold Tx.exec at h
  split at h
  next u hu => exact ⟨u, hu, Option.some.inj h⟩
  next => cases h

/-- No file is open. -/
def noFiles : Files where
  file := fun _ => ⟨.none, 0, false, false, 0, 0, 0, 0⟩
  ofile := fun _ _ => none
  live := fun p => p = 0
  pipe := fun _ => ⟨false, false⟩
  freelist := []
  pipes := []
  others := []
  refreed := false

/-- A process opens a directory sixteen times: the next `sys_open` gives up the file that it
    allocates. -/
theorem tx_brackets_full : ∃ tr, txSystem.Run noFiles tr ∧
    (∀ fd, (System.last noFiles tr).ofile 0 fd ≠ none) ∧
    System.Throughout Tx.Bracketed noFiles tr := by
  obtain ⟨tr, hrun, hP⟩ := System.exists_run Tx.exec_sound noFiles
    (List.replicate 16 ⟨0, .open 0, fun _ => 1⟩)
    (fun tr => (List.finRange nofile).all fun fd => (System.last noFiles tr).ofile 0 fd ≠ none)
    (by decide +kernel)
  refine ⟨tr, hrun, fun fd => ?_, tx_brackets (fun _ => ⟨rfl, rfl⟩) hrun⟩
  simpa using List.all_eq_true.1 hP fd (List.mem_finRange fd)

end Xv6
