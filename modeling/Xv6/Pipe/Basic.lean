import Mathlib
import Xv6.Lib.System

/-!
# Pipes

A pipe (`pipe.c`) and the processes that use it. A step is what a process does
under `pi->lock` in one iteration of a loop of `pipewrite` or of `piperead`, all of
`pipeclose`, or a `kkill`, which takes another lock and so may come between any two
of the others:

* a process calls (`startWrite`, `startRead`), and gets the lock (`enter`), also
  when it is woken up;
* `write`: an iteration of the loop of `pipewrite`, or what follows the loop;
* `read`: an iteration of the waiting loop of `piperead`; `copy`: one of its copying
  loop, or what follows it.

`sleep` releases the lock as it puts the process to sleep, and `wakeup` makes every
process asleep on a channel runnable again. The counters `nread` and `nwrite` are
`uint`s, and wrap.
-/

namespace Xv6

/-- `PIPESIZE`. -/
def pipeSize : UInt32 := 512

/-- A pipe (`struct pipe`), its lock aside. -/
structure Pipe where
  /-- The bytes, at the counters modulo `pipeSize`. -/
  data : UInt32 → UInt8
  nread : UInt32
  nwrite : UInt32
  readopen : Bool
  writeopen : Bool

/-- What a process may sleep on: `&pi->nread` or `&pi->nwrite`. -/
inductive PipeChan
  | nread
  | nwrite
  deriving DecidableEq

/-- Where a process is in the code of pipes. -/
inductive PipePc
  /-- In no call. -/
  | idle
  /-- In `pipewrite`, with `i` of `n` bytes written, before it gets the lock. -/
  | enterWrite (i : ℕ) (n : ℤ)
  /-- At an iteration of the loop of `pipewrite`, with `stored` bytes written since
      it got the lock. -/
  | write (i : ℕ) (n : ℤ) (stored : ℕ)
  /-- In `piperead`, before it gets the lock. -/
  | enterRead (n : ℤ)
  /-- At an iteration of the waiting loop of `piperead`. -/
  | read (n : ℤ)
  /-- At an iteration of the copying loop of `piperead`. -/
  | copy (i : ℕ) (n : ℤ)
  deriving DecidableEq

/-- The process has the lock of the pipe. -/
def PipePc.holding : PipePc → Bool
  | .write .. | .read _ | .copy .. => true
  | .idle | .enterWrite .. | .enterRead _ => false

/-- A process, as far as pipes are concerned. -/
structure PipeProc where
  pc : PipePc
  /-- What the process sleeps on, if it is `SLEEPING`. -/
  chan : Option PipeChan
  killed : Bool
  /-- What its last call returned. -/
  ret : ℤ

/-- A pipe and the processes. -/
structure PipeState where
  pipe : Pipe
  /-- The process that has the lock. -/
  lock : Option ℕ
  proc : ℕ → PipeProc

namespace PipeState

variable (s : PipeState) (p : ℕ)

/-- `wakeup`. -/
def wakeup (c : PipeChan) : PipeState :=
  { s with proc := fun q =>
      if (s.proc q).chan = some c then { s.proc q with chan := none } else s.proc q }

/-- A process goes on to `pc`. -/
def goto (pc : PipePc) : PipeState :=
  { s with proc := Function.update s.proc p { s.proc p with pc := pc } }

/-- `sleep`: the process will get the lock again, at `pc`, when it is woken up. -/
def sleep (c : PipeChan) (pc : PipePc) : PipeState :=
  { s with
    lock := none
    proc := Function.update s.proc p { s.proc p with pc := pc, chan := some c } }

/-- Releasing the lock and returning `r`. -/
def finish (r : ℤ) : PipeState :=
  { s with
    lock := none
    proc := Function.update s.proc p { s.proc p with pc := .idle, ret := r } }

/-- An iteration of the loop of `pipewrite`, or what follows the loop; `ch` is the
    byte that `copyin` gets, or `none` if it fails. -/
def pipewrite (i : ℕ) (n : ℤ) (stored : ℕ) (ch : Option UInt8) : PipeState :=
  if i < n then
    if s.pipe.readopen = false ∨ (s.proc p).killed = true then s.finish p (-1)
    else if s.pipe.nwrite = s.pipe.nread + pipeSize then
      (s.wakeup .nread).sleep p .nwrite (.enterWrite i n)
    else
      match ch with
      | none => (s.wakeup .nread).finish p i
      | some ch =>
        { s with pipe :=
            { s.pipe with
              data := Function.update s.pipe.data (s.pipe.nwrite % pipeSize) ch
              nwrite := s.pipe.nwrite + 1 } }.goto p (.write (i + 1) n (stored + 1))
  else (s.wakeup .nread).finish p i

/-- An iteration of the waiting loop of `piperead`. -/
def piperead (n : ℤ) : PipeState :=
  if s.pipe.nread = s.pipe.nwrite ∧ s.pipe.writeopen = true then
    if (s.proc p).killed then s.finish p (-1)
    else s.sleep p .nread (.enterRead n)
  else s.goto p (.copy 0 n)

/-- An iteration of the copying loop of `piperead`, or what follows it; `ok` says
    whether `copyout` succeeds. -/
def pipecopy (i : ℕ) (n : ℤ) (ok : Bool) : PipeState :=
  if i < n ∧ s.pipe.nread ≠ s.pipe.nwrite then
    let s' := { s with pipe := { s.pipe with nread := s.pipe.nread + 1 } }
    if ok then s'.goto p (.copy (i + 1) n) else (s'.wakeup .nwrite).finish p i
  else (s.wakeup .nwrite).finish p i

/-- `pipeclose`. -/
def pipeclose (writable : Bool) : PipeState :=
  if writable then
    { s with pipe := { s.pipe with writeopen := false } }.wakeup .nread
  else { s with pipe := { s.pipe with readopen := false } }.wakeup .nwrite

/-- `kkill`. -/
def kkill : PipeState :=
  { s with proc := Function.update s.proc p { s.proc p with killed := true, chan := none } }

end PipeState

/-- The actions on a pipe. -/
inductive PipeAct
  | startWrite (p : ℕ) (n : ℤ)
  | startRead (p : ℕ) (n : ℤ)
  | enter (p : ℕ)
  | write (p : ℕ) (ch : Option UInt8)
  | read (p : ℕ)
  | copy (p : ℕ) (ok : Bool)
  | close (writable : Bool)
  | kill (p : ℕ)

/-- Taking an action, if it is the next one of the process. -/
def PipeState.exec (s : PipeState) : PipeAct → Option PipeState
  | .startWrite p n =>
    match (s.proc p).pc with
    | .idle => if s.pipe.writeopen then some (s.goto p (.enterWrite 0 n)) else none
    | _ => none
  | .startRead p n =>
    match (s.proc p).pc with
    | .idle => if s.pipe.readopen then some (s.goto p (.enterRead n)) else none
    | _ => none
  | .enter p =>
    if (s.proc p).chan = none ∧ s.lock = none then
      match (s.proc p).pc with
      | .enterWrite i n => some { s.goto p (.write i n 0) with lock := some p }
      | .enterRead n => some { s.goto p (.read n) with lock := some p }
      | _ => none
    else none
  | .write p ch =>
    match (s.proc p).pc with
    | .write i n stored => some (s.pipewrite p i n stored ch)
    | _ => none
  | .read p =>
    match (s.proc p).pc with
    | .read n => some (s.piperead p n)
    | _ => none
  | .copy p ok =>
    match (s.proc p).pc with
    | .copy i n => some (s.pipecopy p i n ok)
    | _ => none
  | .close writable =>
    if s.lock = none ∧ (if writable then s.pipe.writeopen else s.pipe.readopen) = true then
      some (s.pipeclose writable)
    else none
  | .kill p => some (s.kkill p)

/-- A pipe as `pipealloc` leaves it, that no process uses yet. -/
structure PipeState.Initial (s : PipeState) : Prop where
  readopen : s.pipe.readopen = true
  writeopen : s.pipe.writeopen = true
  nread : s.pipe.nread = 0
  nwrite : s.pipe.nwrite = 0
  lock : s.lock = none
  idle : ∀ p, (s.proc p).pc = .idle ∧ (s.proc p).chan = none

/-- The system of a pipe. -/
def pipeSystem : System PipeState PipeAct where
  init := {s | s.Initial}
  step s a s' := s.exec a = some s'

/-- A pipe as `pipealloc` leaves it. -/
def freshPipe : PipeState where
  pipe := { data := fun _ => 0, nread := 0, nwrite := 0, readopen := true, writeopen := true }
  lock := none
  proc _ := { pc := .idle, chan := none, killed := false, ret := 0 }

theorem freshPipe_mem_init : freshPipe ∈ pipeSystem.init where
  readopen := rfl
  writeopen := rfl
  nread := rfl
  nwrite := rfl
  lock := rfl
  idle _ := ⟨rfl, rfl⟩

end Xv6
