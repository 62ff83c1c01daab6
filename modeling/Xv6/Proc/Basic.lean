import Xv6.Vm.Basic

/-!
# Processes and their memory

The process table (`proc.c`), as far as the memory of the processes is concerned, and the
system calls that change it: `kfork`, `kexit`, `kwait`, `growproc` and `sys_sbrk`. A
process is named by its slot in the table. Open files, the scheduler and the locks are
left out; what a process does between two system calls is not modelled, except that it
may fault on a page.

The pages of the allocator that other parts of the kernel hold (pipes, stacks, the page
table of the kernel) are recorded in `Procs.others`.
-/

namespace Xv6

/-- `NPROC`. -/
abbrev nproc : ℕ := 64

instance neZero_nproc : NeZero nproc := ⟨by decide⟩

/-- `enum procstate`. -/
inductive ProcState
  | unused
  | used
  | sleeping
  | runnable
  | running
  | zombie
  deriving DecidableEq

/-- A process that is not being forked any more, and has not exited, can make a call. -/
def ProcState.Live (x : ProcState) : Prop := x = .sleeping ∨ x = .runnable ∨ x = .running

instance : DecidablePred ProcState.Live := fun x =>
  inferInstanceAs (Decidable (x = .sleeping ∨ x = .runnable ∨ x = .running))

theorem ProcState.Live.ne_zombie {x : ProcState} (h : x.Live) : x ≠ .zombie := by
  rcases h with h | h | h <;> rw [h] <;> exact ProcState.noConfusion

theorem ProcState.Live.ne_unused {x : ProcState} (h : x.Live) : x ≠ .unused := by
  rcases h with h | h | h <;> rw [h] <;> exact ProcState.noConfusion

theorem ProcState.Live.ne_used {x : ProcState} (h : x.Live) : x ≠ .used := by
  rcases h with h | h | h <;> rw [h] <;> exact ProcState.noConfusion

/-- `struct proc`. -/
structure Proc where
  state : ProcState
  killed : Bool
  xstate : ℤ
  pid : ℤ
  parent : Option (Fin nproc)
  sz : ℕ
  pagetable : ℕ
  trapframe : ℕ
  deriving DecidableEq

/-- A slot of the process table that is not in use. -/
def Proc.free : Proc where
  state := .unused
  killed := false
  xstate := 0
  pid := 0
  parent := none
  sz := 0
  pagetable := 0
  trapframe := 0

/-- The memory and the process table. -/
structure Procs where
  vm : Vm
  proc : Fin nproc → Proc
  initproc : Option (Fin nproc)
  nextpid : ℤ
  /-- The pages that other parts of the kernel hold. -/
  others : List ℕ

/-- Computations on the memory and the process table. -/
abbrev ProcM := EStateM VmPanic Procs

/-- A computation on the memory. -/
def liftVm {α : Type} (m : VmM α) : ProcM α := fun s =>
  match m s.vm with
  | .ok a vm => .ok a { s with vm }
  | .error e vm => .error e { s with vm }

/-- Change a slot of the process table. -/
def setProc (p : Fin nproc) (f : Proc → Proc) : ProcM PUnit :=
  modify fun s => { s with proc := Function.update s.proc p (f (s.proc p)) }

/-! ## Page tables of processes -/

/-- An empty page table with the pages of the trampoline and the trapframe, or `0`. -/
def procPagetable (k : Kernel) (trapframe : ℕ) : VmM ℕ := do
  let pagetable ← uvmcreate
  if pagetable = 0 then pure 0
  else if ← mappages pagetable trampolineVa pgsize k.trampoline (permR ||| permX) then
    if ← mappages pagetable trapframeVa pgsize trapframe (permR ||| permW) then pure pagetable
    else do
      uvmunmap k pagetable trampolineVa 1 false
      uvmfree k pagetable 0
      pure 0
  else do
    uvmfree k pagetable 0
    pure 0

/-- Free a page table and the user pages below `sz`. -/
def procFreepagetable (k : Kernel) (pagetable sz : ℕ) : VmM PUnit := do
  uvmunmap k pagetable trampolineVa 1 false
  uvmunmap k pagetable trapframeVa 1 false
  uvmfree k pagetable sz

/-! ## Slots -/

/-- The next pid. -/
def allocpid : ProcM ℤ := do
  let s ← get
  set { s with nextpid := Int.bmod (s.nextpid + 1) (2 ^ 32) }
  pure s.nextpid

/-- Free a slot and what the process holds. -/
def freeproc (k : Kernel) (p : Fin nproc) : ProcM PUnit := do
  let s ← get
  (if (s.proc p).trapframe ≠ 0 then liftVm (kfree k (s.proc p).trapframe) else pure ⟨⟩)
  setProc p fun pr => { pr with trapframe := 0 }
  (if (s.proc p).pagetable ≠ 0 then
    liftVm (procFreepagetable k (s.proc p).pagetable (s.proc p).sz)
  else pure ⟨⟩)
  setProc p fun _ => .free

/-- A new process in a free slot, with an empty address space. -/
def allocproc (k : Kernel) : ProcM (Option (Fin nproc)) := do
  let s ← get
  match (List.finRange nproc).find? fun p => (s.proc p).state = .unused with
  | none => pure none
  | some p => do
    let pid ← allocpid
    setProc p fun pr => { pr with pid, state := .used }
    let trapframe ← liftVm kalloc
    setProc p fun pr => { pr with trapframe }
    if trapframe = 0 then do
      freeproc k p
      pure none
    else do
      let pagetable ← liftVm (procPagetable k trapframe)
      setProc p fun pr => { pr with pagetable }
      if pagetable = 0 then do
        freeproc k p
        pure none
      else pure (some p)

/-- The first process. -/
def userinit (k : Kernel) : ProcM PUnit := do
  match ← allocproc k with
  | none => throw .null
  | some p => do
    modify fun s => { s with initproc := some p }
    setProc p fun pr => { pr with state := .runnable }

/-! ## Growing and shrinking -/

/-- Grow or shrink the memory of the process by `n` bytes; `false` on failure. -/
def growproc (k : Kernel) (p : Fin nproc) (n : ℤ) : ProcM Bool := do
  let s ← get
  let sz := (s.proc p).sz
  if 0 < n then do
    let sz ← liftVm (uvmalloc k (s.proc p).pagetable sz (addInt sz n) permW)
    if sz = 0 then pure false
    else do
      setProc p fun pr => { pr with sz }
      pure true
  else do
    let sz ← (if n < 0 then liftVm (uvmdealloc k (s.proc p).pagetable sz (addInt sz n))
      else pure sz)
    setProc p fun pr => { pr with sz }
    pure true

/-- `SBRK_EAGER`. -/
abbrev sbrkEager : ℤ := 1

/-- The old size, or `none` for `-1`. -/
def sysSbrk (k : Kernel) (p : Fin nproc) (n t : ℤ) : ProcM (Option ℕ) := do
  let s ← get
  let addr := (s.proc p).sz
  if t = sbrkEager ∨ n < 0 then
    if ← growproc k p n then pure (some addr) else pure none
  else if addInt addr n < addr then pure none
  else do
    setProc p fun pr => { pr with sz := addInt pr.sz n }
    pure (some addr)

/-! ## fork, exit and wait -/

/-- The size of `struct trapframe`, and the places of some registers in it. -/
abbrev trapframeSize : ℕ := 288
@[inherit_doc trapframeSize] abbrev tfEpc : ℕ := 24
@[inherit_doc trapframeSize] abbrev tfSp : ℕ := 48
@[inherit_doc trapframeSize] abbrev tfA0 : ℕ := 112
@[inherit_doc trapframeSize] abbrev tfA1 : ℕ := 120

/-- A child process with a copy of the memory; its pid, or `none` for `-1`. -/
def kfork (k : Kernel) (p : Fin nproc) : ProcM (Option ℤ) := do
  match ← allocproc k with
  | none => pure none
  | some np => do
    let s ← get
    if ← liftVm (uvmcopy k (s.proc p).pagetable (s.proc np).pagetable (s.proc p).sz) then do
      setProc np fun pr => { pr with sz := (s.proc p).sz }
      let s' ← get
      liftVm do
        storePage (s.proc np).trapframe 0 ((s'.vm.mem (s.proc p).trapframe).read 0 trapframeSize)
        storePage (s.proc np).trapframe tfA0 (le 8 0)
      setProc np fun pr => { pr with parent := some p }
      setProc np fun pr => { pr with state := .runnable }
      pure (some (s.proc np).pid)
    else do
      freeproc k np
      pure none

/-- Pass the children of `p` to the first process. -/
def reparent (p : Fin nproc) : ProcM PUnit :=
  modify fun s => { s with
    proc := fun q => if (s.proc q).parent = some p then { s.proc q with parent := s.initproc }
      else s.proc q }

/-- The process exits, and waits for its parent to free its slot. -/
def kexit (p : Fin nproc) (status : ℤ) : ProcM PUnit := do
  let s ← get
  if s.initproc = some p then throw .initExiting
  else do
    reparent p
    setProc p fun pr => { pr with xstate := status, state := .zombie }

/-- What a scan of `kwait` comes to. -/
inductive Waited
  /-- It returns a pid. -/
  | found (pid : ℤ)
  /-- It returns `-1`. -/
  | failed
  /-- It sleeps. -/
  | sleeps
  deriving DecidableEq

/-- A scan of `kwait` for a child that has exited. -/
def kwait (k : Kernel) (p : Fin nproc) (addr : ℕ) : ProcM Waited := do
  let s ← get
  match (List.finRange nproc).find? fun q =>
      (s.proc q).parent = some p ∧ (s.proc q).state = .zombie with
  | some pp => do
    let ok ← (if addr ≠ 0 then
        liftVm (copyout k (s.proc p).sz (s.proc p).pagetable (s.proc p).pagetable addr
          (le 4 ((s.proc pp).xstate % 2 ^ 32).toNat))
      else pure true)
    if ok then do
      freeproc k pp
      pure (.found (s.proc pp).pid)
    else pure .failed
  | none =>
    if (∀ q, (s.proc q).parent ≠ some p) ∨ (s.proc p).killed then pure .failed
    else pure .sleeps

end Xv6
