import Xv6.Lib.System
import Xv6.Log.Commit

/-!
# Operations, interleaved

The log as any number of processes use it at the same time. A step is a critical
section of the code, or a single access to a buffer or to the disk:

* `bread` is three steps: taking a reference under `bcache.lock` (`bget`),
  acquiring the sleep lock of the buffer (`acquire`), and reading the disk if the
  buffer is not valid (`fill`); `brelse` is two, `unlock` and `drop`;
* `begin_op`, `log_write` and the first part of `end_op` are the critical sections
  under `log.lock`;
* the operation that ends last commits: `commit` holds no lock while it runs, and
  each of its writes to the disk is a step. The blocks it reads and releases for
  that are read and released as by any other process.

The references of the processes to buffers, and the operations in progress, are
kept as lists. A process that waits (for a sleep lock, or in `begin_op`) takes no
step; a panic stops the whole system.
-/

namespace Xv6

/-- How far a process is with a buffer: it has a reference and waits for the lock,
    it has the lock, `bread` has returned, or it has given up the lock. -/
inductive Phase
  | waiting
  | locked
  | ready
  | released
  deriving DecidableEq

/-- The process has the lock of the buffer. -/
def Phase.holding : Phase → Bool
  | .locked | .ready => true
  | .waiting | .released => false

/-- A reference of a process to the buffer it got for a block. -/
structure Ref where
  pid : ℕ
  blockno : ℕ
  idx : ℕ
  phase : Phase
  /-- Modified since the last `log_write` of it? -/
  dirty : Bool
  deriving DecidableEq

/-- An operation between its `begin_op` and its `end_op`, with the distinct blocks
    it has passed to `log_write`. -/
structure Op where
  pid : ℕ
  logged : List ℕ
  deriving DecidableEq

/-- Where the commit in progress is. -/
inductive CommitPc
  /-- No commit is in progress. -/
  | idle
  /-- In `write_log`, before the iteration `tail`. -/
  | writeLog (tail : ℕ)
  /-- In `install_trans`, before the iteration `tail`. -/
  | install (tail : ℕ)
  /-- `log.lh.n` is `0`, before the second `write_head`. -/
  | clear
  /-- `commit` has returned. -/
  | finish
  deriving DecidableEq

/-- The state of the log system. -/
structure LogState where
  cache : Bcache
  disk : Disk
  log : Log
  refs : List Ref
  ops : List Op
  pc : CommitPc
  /-- The process that runs the commit. -/
  committer : ℕ

/-- Why an action is not taken: it is not the process's next step or has to wait,
    or it panics. -/
inductive Halt
  | disabled
  | panicBget
  | panicTooBig
  | panicOutside
  | panicCommitting
  deriving DecidableEq

namespace LogState

variable (s : LogState)

/-- The block of the buffer of a reference. -/
def blockOf (r : Ref) : ℕ := (s.cache.buf r.idx).blockno

/-- The number of blocks of the transaction that are installed and unpinned. -/
def installed : ℕ :=
  match s.pc with
  | .install tail => tail
  | _ => 0

/-- The blocks of the transaction that are pinned. -/
def pins : List ℕ := ((List.range s.log.lh.n).drop s.installed).map s.log.lh.block

/-- Replacing a reference. -/
def setRef (r r' : Ref) : List Ref := r' :: s.refs.erase r

/-! ## Buffers -/

/-- The critical section of `bget`, for any process. The blocks of the log area are
    read by the process that commits only. -/
def bget (p b : ℕ) : Except Halt LogState :=
  if b < 2 ^ 32 ∧ (¬InLog s.log.start b ∨ (s.pc ≠ .idle ∧ p = s.committer)) then
    match s.cache.bget s.log.dev b with
    | none => .error .panicBget
    | some (i, c) => .ok { s with cache := c, refs := ⟨p, b, i, .waiting, false⟩ :: s.refs }
  else .error .disabled

/-- `acquiresleep`, when the lock is free. -/
def acquire (r : Ref) : Except Halt LogState :=
  if r ∈ s.refs ∧ r.phase = .waiting ∧ (s.cache.buf r.idx).locked = false then
    .ok { s with
      cache := s.cache.set r.idx fun x => { x with locked := true }
      refs := s.setRef r { r with phase := .locked } }
  else .error .disabled

/-- The rest of `bread`: read the disk if the buffer is not valid, and return. -/
def fill (r : Ref) : Except Halt LogState :=
  if r ∈ s.refs ∧ r.phase = .locked then
    .ok { s with
      cache := s.cache.set r.idx fun x =>
        if x.valid then x else { x with data := s.disk x.blockno, valid := true }
      refs := s.setRef r { r with phase := .ready } }
  else .error .disabled

/-- An operation modifies a block it has read, outside the log area. -/
def modify (r : Ref) (d : Block) : Except Halt LogState :=
  if r ∈ s.refs ∧ r.phase = .ready ∧ (∃ o ∈ s.ops, o.pid = r.pid) ∧
      ¬InLog s.log.start (s.blockOf r) then
    .ok { s with
      cache := s.cache.set r.idx fun x => { x with data := d }
      refs := s.setRef r { r with dirty := true } }
  else .error .disabled

/-- `releasesleep` in `brelse`: what was modified has been passed to `log_write`. -/
def unlock (r : Ref) : Except Halt LogState :=
  if r ∈ s.refs ∧ r.phase = .ready ∧ r.dirty = false then
    .ok { s with
      cache := s.cache.set r.idx fun x => { x with locked := false }
      refs := s.setRef r { r with phase := .released } }
  else .error .disabled

/-- The critical section of `brelse`. -/
def drop (r : Ref) : Except Halt LogState :=
  if r ∈ s.refs ∧ r.phase = .released then
    .ok { s with cache := s.cache.brelse r.idx, refs := s.refs.erase r }
  else .error .disabled

/-! ## Operations -/

/-- `begin_op`, when it does not have to sleep. -/
def beginOp (p : ℕ) : Except Halt LogState :=
  if (∃ o ∈ s.ops, o.pid = p) ∨ s.log.committing ∨
      logBlocks < s.log.lh.n + (s.log.outstanding + 1) * maxOpBlocks then .error .disabled
  else .ok { s with
    log := { s.log with outstanding := s.log.outstanding + 1 }
    ops := ⟨p, []⟩ :: s.ops }

/-- The index at which the loop of `log_write` stops: that of the block if it is in
    the log, else `log.lh.n`. -/
def logIndex (b : ℕ) : ℕ :=
  ((List.range s.log.lh.n).find? fun i => s.log.lh.block i = b).getD s.log.lh.n

/-- The operations after the process `p` has logged the block `b`. -/
def noteLogged (p b : ℕ) : List Op :=
  s.ops.map fun o => if o.pid = p then { o with logged := o.logged.insert b } else o

/-- `log_write`, by an operation that holds the buffer. -/
def logWrite (r : Ref) : Except Halt LogState :=
  if r ∈ s.refs ∧ r.phase = .ready ∧ (∃ o ∈ s.ops, o.pid = r.pid) ∧
      ¬InLog s.log.start (s.blockOf r) then
    if logBlocks ≤ s.log.lh.n then .error .panicTooBig
    else if s.log.outstanding < 1 then .error .panicOutside
    else
      let i := s.logIndex (s.blockOf r)
      let block := Function.update s.log.lh.block i (s.blockOf r)
      .ok { s with
        cache := if i = s.log.lh.n then s.cache.bpin r.idx else s.cache
        log := { s.log with lh :=
          { n := if i = s.log.lh.n then s.log.lh.n + 1 else s.log.lh.n, block := block } }
        refs := s.setRef r { r with dirty := false }
        ops := s.noteLogged r.pid (s.blockOf r) }
  else .error .disabled

/-- The first critical section of `end_op`: the operation that ends last commits. -/
def endOp (p : ℕ) : Except Halt LogState :=
  match s.ops.find? fun o => o.pid = p with
  | none => .error .disabled
  | some o =>
    if ∃ r ∈ s.refs, r.pid = p ∧ r.dirty then .error .disabled
    else if s.log.committing then .error .panicCommitting
    else if s.log.outstanding - 1 = 0 then
      .ok { s with
        log := { s.log with outstanding := s.log.outstanding - 1, committing := true }
        ops := s.ops.erase o
        pc := if 0 < s.log.lh.n then .writeLog 0 else .finish
        committer := p }
    else .ok { s with
      log := { s.log with outstanding := s.log.outstanding - 1 }
      ops := s.ops.erase o }

/-! ## Committing -/

/-- The committing process has read the block `b`. -/
def Reads (r : Ref) (b : ℕ) : Prop :=
  r ∈ s.refs ∧ r.phase = .ready ∧ r.pid = s.committer ∧ s.cache.Holds s.log.dev b r.idx

instance (r : Ref) (b : ℕ) : Decidable (s.Reads r b) := inferInstanceAs (Decidable (_ ∧ _))

/-- The data of the buffer `dst` overwritten with `d` and written to the disk. -/
def put (dst : ℕ) (d : Block) : LogState :=
  { s with
    cache := s.cache.set dst fun x => { x with data := d }
    disk := Function.update s.disk (s.cache.buf dst).blockno d }

/-- An iteration of `write_log`. -/
def writeLog (dst src : Ref) : Except Halt LogState :=
  match s.pc with
  | .writeLog tail =>
    if tail < s.log.lh.n ∧ s.Reads dst (s.log.start + tail + 1) ∧
        s.Reads src (s.log.lh.block tail) then
      .ok { s.put dst.idx (s.cache.buf src.idx).data with pc := .writeLog (tail + 1) }
    else .error .disabled
  | _ => .error .disabled

/-- `write_head`: the first one commits the transaction, the second one clears the
    log. -/
def writeHead (r : Ref) : Except Halt LogState :=
  if s.Reads r s.log.start then
    match s.pc with
    | .writeLog tail =>
      if tail < s.log.lh.n then .error .disabled
      else .ok { s.put r.idx (s.log.lh.store (s.cache.buf r.idx).data) with pc := .install 0 }
    | .clear => .ok { s.put r.idx (s.log.lh.store (s.cache.buf r.idx).data) with pc := .finish }
    | _ => .error .disabled
  else .error .disabled

/-- An iteration of `install_trans`. -/
def install (src dst : Ref) : Except Halt LogState :=
  match s.pc with
  | .install tail =>
    if tail < s.log.lh.n ∧ s.Reads src (s.log.start + tail + 1) ∧
        s.Reads dst (s.log.lh.block tail) then
      let s' := s.put dst.idx (s.cache.buf src.idx).data
      .ok { s' with cache := s'.cache.bunpin dst.idx, pc := .install (tail + 1) }
    else .error .disabled
  | _ => .error .disabled

/-- `log.lh.n = 0` in `commit`. -/
def clear : Except Halt LogState :=
  match s.pc with
  | .install tail =>
    if tail < s.log.lh.n then .error .disabled
    else .ok { s with log := { s.log with lh := { s.log.lh with n := 0 } }, pc := .clear }
  | _ => .error .disabled

/-- The last critical section of `end_op`. -/
def finish : Except Halt LogState :=
  if s.pc = .finish then .ok { s with log := { s.log with committing := false }, pc := .idle }
  else .error .disabled

end LogState

/-- The actions of the log system. -/
inductive LogAct
  | bget (p b : ℕ)
  | acquire (r : Ref)
  | fill (r : Ref)
  | modify (r : Ref) (d : Block)
  | unlock (r : Ref)
  | drop (r : Ref)
  | beginOp (p : ℕ)
  | logWrite (r : Ref)
  | endOp (p : ℕ)
  | writeLog (dst src : Ref)
  | writeHead (r : Ref)
  | install (src dst : Ref)
  | clear
  | finish

/-- Taking an action. -/
def LogState.exec (s : LogState) : LogAct → Except Halt LogState
  | .bget p b => s.bget p b
  | .acquire r => s.acquire r
  | .fill r => s.fill r
  | .modify r d => s.modify r d
  | .unlock r => s.unlock r
  | .drop r => s.drop r
  | .beginOp p => s.beginOp p
  | .logWrite r => s.logWrite r
  | .endOp p => s.endOp p
  | .writeLog dst src => s.writeLog dst src
  | .writeHead r => s.writeHead r
  | .install src dst => s.install src dst
  | .clear => s.clear
  | .finish => s.finish

/-- The log system after `initlog`: no process has begun anything, the log is empty,
    and the valid buffers are as on the disk. -/
structure LogState.Initial (s : LogState) : Prop where
  wf : s.cache.Wf
  dev : s.log.dev ≠ 0
  unused : ∀ i ∈ s.cache.lru, (s.cache.buf i).refcnt = 0 ∧ (s.cache.buf i).locked = false
  coherent : ∀ i ∈ s.cache.lru, (s.cache.buf i).dev = s.log.dev → (s.cache.buf i).valid = true →
    (s.cache.buf i).data = s.disk (s.cache.buf i).blockno
  outstanding : s.log.outstanding = 0
  committing : s.log.committing = false
  count : s.log.lh.n = 0
  empty : LogHeader.countOf (s.disk s.log.start) = 0
  refs : s.refs = []
  ops : s.ops = []
  pc : s.pc = .idle

/-- The log system. -/
def logSystem : System LogState LogAct where
  init := {s | s.Initial}
  step s a s' := s.exec a = .ok s'

end Xv6
