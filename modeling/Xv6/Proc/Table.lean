import Xv6.Lib.System
import Xv6.Proc.Basic

/-!
# The process table

The process table as many processes share it (`proc.c`). A step is what one process does
under the locks: the three parts of `kfork` (a new slot under the lock of the slot, the
link to the parent under `wait_lock`, the slot made runnable), the section of `kexit` under
`wait_lock`, and a scan of `kwait`, which reaps a child, fails, or goes to sleep and gives
up `wait_lock` as it does. Processes are scheduled, are interrupted, sleep elsewhere in the
kernel and are woken up at any time, and `kkill` may come between any two steps.

The memory of the processes and their files are left out (see `Xv6.Proc.Basic` for the
memory): whether an allocation or a copy succeeds is part of the action.
-/

namespace Xv6

/-- What a process sleeps on. -/
inductive Chan
  /-- A process, where `kwait` sleeps. -/
  | proc (p : Fin nproc)
  /-- Anything else. -/
  | other (n : ℕ)
  deriving DecidableEq

/-- Where a process is. -/
inductive ProcPc
  /-- In user code, or in another call. -/
  | run
  /-- In `kfork`, with the new slot `np`. -/
  | fork (np : Fin nproc)
  /-- In `kfork`, with the parent of the slot `np` set. -/
  | linked (np : Fin nproc)
  /-- In `kexit`. -/
  | exit (status : ℤ)
  /-- In `kwait`. -/
  | wait (addr : ℕ)
  deriving DecidableEq

/-- A slot of the process table (`struct proc`), and where its process is. -/
structure Slot where
  state : ProcState
  chan : Option Chan
  killed : Bool
  xstate : ℤ
  pid : ℤ
  parent : Option (Fin nproc)
  pc : ProcPc
  deriving DecidableEq

/-- A free slot. -/
def Slot.free : Slot where
  state := .unused
  chan := none
  killed := false
  xstate := 0
  pid := 0
  parent := none
  pc := .run

/-- The process table. -/
structure ProcTable where
  slot : Fin nproc → Slot
  nextpid : ℤ
  initproc : Fin nproc

/-- What a scan of `kwait` comes to. -/
inductive Scan
  /-- It frees the slot `q`, and returns the pid and the exit status of its process. -/
  | reaped (q : Fin nproc) (pid xstate : ℤ)
  /-- It returns `-1`. -/
  | failed
  /-- It sleeps. -/
  | sleeps
  deriving DecidableEq

namespace ProcTable

variable (s : ProcTable) (p : Fin nproc)

/-- Change a slot. -/
def set (x : Slot) : ProcTable := { s with slot := Function.update s.slot p x }

/-- A process goes on to `pc`. -/
def goto (pc : ProcPc) : ProcTable := s.set p { s.slot p with pc }

/-- `wakeup`, by the process `me`. -/
def wakeup (me : Option (Fin nproc)) (c : Option Chan) : ProcTable :=
  { s with slot := fun q =>
      if some q ≠ me ∧ (s.slot q).state = .sleeping ∧ (s.slot q).chan = c then
        { s.slot q with state := .runnable }
      else s.slot q }

/-- `sleep`. -/
def sleep (c : Chan) : ProcTable :=
  s.set p { s.slot p with state := .sleeping, chan := some c }

/-- The first part of `kfork`: `allocproc` has found the free slot `np`, and `ok` says whether
    the memory for the child is allocated. -/
def forkAlloc (np : Fin nproc) (ok : Bool) : ProcTable :=
  let t := { s.set np { s.slot np with pid := s.nextpid, state := .used } with
    nextpid := Int.bmod (s.nextpid + 1) (2 ^ 32) }
  if ok then t.goto p (.fork np) else t.set np .free

/-- The second part of `kfork`. -/
def forkLink (np : Fin nproc) : ProcTable :=
  (s.set np { s.slot np with parent := some p }).goto p (.linked np)

/-- The third part of `kfork`. -/
def forkRun (np : Fin nproc) : ProcTable :=
  (s.set np { s.slot np with state := .runnable }).goto p .run

/-- An iteration of the loop of `reparent`. -/
def reparentSlot (pp : Fin nproc) : ProcTable :=
  if (s.slot pp).parent = some p then
    (s.set pp { s.slot pp with parent := some s.initproc }).wakeup (some p)
      (some (.proc s.initproc))
  else s

/-- `reparent`. -/
def reparent : ProcTable :=
  (List.finRange nproc).foldl (fun s pp => s.reparentSlot p pp) s

/-- The section of `kexit` under `wait_lock`. -/
def kexit (status : ℤ) : ProcTable :=
  let s := s.reparent p
  let s := s.wakeup (some p) ((s.slot p).parent.map .proc)
  s.set p { s.slot p with xstate := status, state := .zombie }

/-- The first child of the process that has exited. -/
def zombieChild : Option (Fin nproc) :=
  (List.finRange nproc).find? fun q =>
    (s.slot q).parent = some p ∧ (s.slot q).state = .zombie

/-- What a scan of `kwait` comes to; `ok` says whether `copyout` succeeds. -/
def scan (addr : ℕ) (ok : Bool) : Scan :=
  match s.zombieChild p with
  | some q => if addr ≠ 0 ∧ ok = false then .failed else .reaped q (s.slot q).pid (s.slot q).xstate
  | none =>
    if (∀ q, (s.slot q).parent ≠ some p) ∨ (s.slot p).killed = true then .failed else .sleeps

/-- A scan of `kwait`. -/
def kwait (addr : ℕ) (ok : Bool) : ProcTable :=
  match s.scan p addr ok with
  | .reaped q _ _ => (s.set q .free).goto p .run
  | .failed => s.goto p .run
  | .sleeps => s.sleep p (.proc p)

/-- The slot that `kkill` finds. -/
def killTarget (pid : ℤ) : Option (Fin nproc) :=
  (List.finRange nproc).find? fun q => (s.slot q).pid = pid

/-- `kkill`: the state after it and what it returns. -/
def kkill (pid : ℤ) : ProcTable × ℤ :=
  match s.killTarget pid with
  | some q =>
    (s.set q { s.slot q with
      killed := true
      state := if (s.slot q).state = .sleeping then .runnable else (s.slot q).state }, 0)
  | none => (s, -1)

/-- After `userinit`. -/
def boot (p : Fin nproc) : ProcTable where
  slot := Function.update (fun _ => .free) p { Slot.free with state := .runnable, pid := 1 }
  nextpid := 2
  initproc := p

end ProcTable

/-- What happens. -/
inductive TableAct
  /-- The scheduler runs the process; if it slept, it goes on. -/
  | schedule (p : Fin nproc)
  /-- The process gives up the CPU. -/
  | yield (p : Fin nproc)
  /-- The process sleeps elsewhere in the kernel. -/
  | sleep (p : Fin nproc) (n : ℕ)
  /-- Processes that sleep elsewhere are woken up. -/
  | wakeup (n : ℕ)
  | fork (p np : Fin nproc) (ok : Bool)
  | forkLink (p : Fin nproc)
  | forkRun (p : Fin nproc)
  | exit (p : Fin nproc) (status : ℤ)
  /-- The section of `kexit` under `wait_lock`. -/
  | exitZombie (p : Fin nproc)
  | wait (p : Fin nproc) (addr : ℕ)
  /-- A scan of `kwait`. -/
  | scan (p : Fin nproc) (ok : Bool)
  | kill (pid : ℤ)
  | setkilled (p : Fin nproc)

/-- Take an action, if it is possible. -/
def ProcTable.exec (s : ProcTable) : TableAct → Option ProcTable
  | .schedule p =>
    if (s.slot p).state = .runnable then
      some (s.set p { s.slot p with state := .running, chan := none })
    else none
  | .yield p =>
    if (s.slot p).state = .running then some (s.set p { s.slot p with state := .runnable })
    else none
  | .sleep p n =>
    if (s.slot p).state = .running then
      match (s.slot p).pc with
      | .run | .exit _ => some (s.sleep p (.other n))
      | _ => none
    else none
  | .wakeup n => some (s.wakeup none (some (.other n)))
  | .fork p np ok =>
    if (s.slot p).state = .running ∧ (s.slot p).pc = .run ∧ (s.slot np).state = .unused then
      some (s.forkAlloc p np ok)
    else none
  | .forkLink p =>
    if (s.slot p).state = .running then
      match (s.slot p).pc with
      | .fork np => some (s.forkLink p np)
      | _ => none
    else none
  | .forkRun p =>
    if (s.slot p).state = .running then
      match (s.slot p).pc with
      | .linked np => some (s.forkRun p np)
      | _ => none
    else none
  | .exit p status =>
    if (s.slot p).state = .running ∧ (s.slot p).pc = .run ∧ p ≠ s.initproc then
      some (s.goto p (.exit status))
    else none
  | .exitZombie p =>
    if (s.slot p).state = .running then
      match (s.slot p).pc with
      | .exit status => some (s.kexit p status)
      | _ => none
    else none
  | .wait p addr =>
    if (s.slot p).state = .running ∧ (s.slot p).pc = .run then some (s.goto p (.wait addr))
    else none
  | .scan p ok =>
    if (s.slot p).state = .running then
      match (s.slot p).pc with
      | .wait addr => some (s.kwait p addr ok)
      | _ => none
    else none
  | .kill pid => some (s.kkill pid).1
  | .setkilled p =>
    if (s.slot p).state = .running then some (s.set p { s.slot p with killed := true })
    else none

/-- The system of all processes that share the table. -/
def tableSystem : System ProcTable TableAct where
  init := {s | ∃ p, s = .boot p}
  step s a s' := s.exec a = some s'

end Xv6
