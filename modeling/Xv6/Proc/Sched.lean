import Xv6.Lib.System
import Xv6.Proc.Basic

/-!
# The scheduler

Any number of CPUs run `scheduler()` and the threads of the processes. The steps are the
acquisitions and releases of `p->lock`, the switches between threads, and the assignments to
`p->state` and `c->proc` in between. A thread holds at most one `p->lock` at a time; the lock
that it holds when it calls `sched` is released by the scheduler of the CPU, and the lock that
the scheduler holds when it switches to a process is released by the thread of the process.
So a lock belongs to a CPU, as in `holding`.

In every run (`one_process_one_cpu`), a process is the `c->proc` of at most one CPU, and of none
when it is not running and its lock is free; only the process itself leaves `RUNNING`; and
`freeproc` is never applied to the process of a CPU.

Pids, channels and parents are left out (see `Xv6.Proc.Table`): `wakeup` and `kkill` may wake
any process that sleeps, and `kwait` may free any zombie.
-/

namespace Xv6

/-- Where a CPU is. -/
inductive CpuPc
  /-- In the loop of the scheduler, -/
  | scan
  /-- holding the lock of `p`, -/
  | chosen (p : Fin nproc)
  /-- and about to switch to `p`. -/
  | switch (p : Fin nproc)
  /-- In the scheduler, in an interrupt: `wakeup` holds the lock of `q`. -/
  | intr (q : Fin nproc)
  /-- In the thread of `p`, which still holds the lock that the scheduler has acquired, -/
  | resumed (p : Fin nproc)
  /-- or holds no lock of a process, -/
  | run (p : Fin nproc)
  /-- or holds the lock of `q`, in `wakeup`, `kkill`, `kwait` or `allocproc`, -/
  | held (p q : Fin nproc)
  /-- or has allocated `q` in `kfork`, and holds its lock, -/
  | alloced (p q : Fin nproc)
  /-- or has acquired it again, to make `q` runnable, -/
  | forking (p q : Fin nproc)
  /-- or has acquired its own lock, in `yield`, `sleep` or `kexit`, -/
  | own (p : Fin nproc)
  /-- and is about to switch to the scheduler. -/
  | leaving (p : Fin nproc)
  /-- In the scheduler, after the switch, -/
  | back (p : Fin nproc)
  /-- and with `c->proc` reset. -/
  | unset (p : Fin nproc)
  deriving DecidableEq

/-- The processes and the CPUs. `np` is the child that a process is forking, between the two
    critical sections of `kfork`. -/
structure Smp (C : Type) where
  state : Fin nproc → ProcState
  lock : Fin nproc → Option C
  np : Fin nproc → Option (Fin nproc)
  cproc : C → Option (Fin nproc)
  pc : C → CpuPc

/-- Why a thread calls `sched`. -/
inductive Leave
  | yield
  | sleep
  | exit

/-- The state in which a process leaves the CPU. -/
def Leave.state : Leave → ProcState
  | .yield => .runnable
  | .sleep => .sleeping
  | .exit => .zombie

/-- The steps of a CPU. -/
inductive SmpAct (C : Type)
  /-- The scheduler acquires the lock of `p`, -/
  | schedAcquire (c : C) (p : Fin nproc)
  /-- and tests its state. -/
  | schedTest (c : C)
  /-- `swtch`, in either direction. -/
  | swtch (c : C)
  /-- `c->proc = 0`. -/
  | unset (c : C)
  /-- `release`, of the lock of a process. -/
  | release (c : C)
  /-- An interrupt in the scheduler calls `wakeup`, which acquires the lock of `q`. -/
  | intr (c : C) (q : Fin nproc)
  /-- A thread acquires the lock of `q`. -/
  | acquire (c : C) (q : Fin nproc)
  /-- `wakeup` or `kkill` finds that the process sleeps. -/
  | wake (c : C)
  /-- `kwait` finds a zombie, and calls `freeproc`. -/
  | reap (c : C)
  /-- `allocproc` finds a free slot. -/
  | alloc (c : C)
  /-- `allocproc` or `kfork` fails, and calls `freeproc`. -/
  | allocFail (c : C)
  /-- `kfork` acquires the lock of the child again, -/
  | forkAcquire (c : C)
  /-- and makes it runnable. -/
  | forkRun (c : C)
  /-- A thread acquires its own lock, -/
  | ownAcquire (c : C)
  /-- and sets its state. -/
  | leave (c : C) (how : Leave)

/-- The CPU that takes the step. -/
def SmpAct.cpu {C : Type} : SmpAct C → C
  | .schedAcquire c _ | .schedTest c | .swtch c | .unset c | .release c | .intr c _ | .acquire c _
  | .wake c | .reap c | .alloc c | .allocFail c | .forkAcquire c | .forkRun c | .ownAcquire c
  | .leave c _ => c

namespace Smp

variable {C : Type} [DecidableEq C] (s : Smp C) (c : C)

/-- The CPU goes on to `k`. -/
def goto (k : CpuPc) : Smp C := { s with pc := Function.update s.pc c k }

/-- The lock of `q` is acquired by the CPU, or released. -/
def acquire (q : Fin nproc) : Smp C := { s with lock := Function.update s.lock q (some c) }
def release (q : Fin nproc) : Smp C := { s with lock := Function.update s.lock q none }

/-- `p->state = x`. -/
def setState (p : Fin nproc) (x : ProcState) : Smp C :=
  { s with state := Function.update s.state p x }

/-- `c->proc = o`. -/
def setProc (o : Option (Fin nproc)) : Smp C := { s with cproc := Function.update s.cproc c o }

/-- The child that `p` is forking. -/
def setNp (p : Fin nproc) (o : Option (Fin nproc)) : Smp C :=
  { s with np := Function.update s.np p o }

/-- Acquire the lock of `q` when it is free, and go on to `k`. -/
def tryAcquire (q : Fin nproc) (k : CpuPc) : Option (Smp C) :=
  if s.lock q = none then some ((s.acquire c q).goto c k) else none

/-- Take a step. -/
def exec : SmpAct C → Option (Smp C)
  | .schedAcquire c p =>
    match s.pc c with
    | .scan => s.tryAcquire c p (.chosen p)
    | _ => none
  | .schedTest c =>
    match s.pc c with
    | .chosen p =>
      if s.state p = .runnable then
        some (((s.setState p .running).setProc c (some p)).goto c (.switch p))
      else some ((s.release p).goto c .scan)
    | _ => none
  | .swtch c =>
    match s.pc c with
    | .switch p => some (s.goto c (.resumed p))
    | .leaving p => some (s.goto c (.back p))
    | _ => none
  | .unset c =>
    match s.pc c with
    | .back p => some ((s.setProc c none).goto c (.unset p))
    | _ => none
  | .release c =>
    match s.pc c with
    | .unset p => some ((s.release p).goto c .scan)
    | .intr q => some ((s.release q).goto c .scan)
    | .resumed p => some ((s.release p).goto c (.run p))
    | .held p q => some ((s.release q).goto c (.run p))
    | .alloced p q => some (((s.release q).setNp p (some q)).goto c (.run p))
    | _ => none
  | .intr c q =>
    match s.pc c with
    | .scan => s.tryAcquire c q (.intr q)
    | _ => none
  | .acquire c q =>
    match s.pc c with
    | .run p => s.tryAcquire c q (.held p q)
    | _ => none
  | .wake c =>
    match s.pc c with
    | .held _ q | .intr q =>
      if s.state q = .sleeping then some (s.setState q .runnable) else none
    | _ => none
  | .reap c =>
    match s.pc c with
    | .held _ q => if s.state q = .zombie then some (s.setState q .unused) else none
    | _ => none
  | .alloc c =>
    match s.pc c with
    | .held p q =>
      if s.state q = .unused ∧ s.np p = none then
        some ((s.setState q .used).goto c (.alloced p q))
      else none
    | _ => none
  | .allocFail c =>
    match s.pc c with
    | .alloced p q => some ((s.setState q .unused).goto c (.held p q))
    | _ => none
  | .forkAcquire c =>
    match s.pc c with
    | .run p =>
      match s.np p with
      | some q => s.tryAcquire c q (.forking p q)
      | none => none
    | _ => none
  | .forkRun c =>
    match s.pc c with
    | .forking p q => some (((s.setState q .runnable).setNp p none).goto c (.held p q))
    | _ => none
  | .ownAcquire c =>
    match s.pc c with
    | .run p => s.tryAcquire c p (.own p)
    | _ => none
  | .leave c how =>
    match s.pc c with
    | .own p =>
      match how, s.np p with
      | .exit, some _ => none
      | how, _ => some ((s.setState p how.state).goto c (.leaving p))
    | _ => none

/-- The state after `userinit`, when every CPU has called `scheduler()`. -/
structure Initial : Prop where
  state : ∃ init, s.state = Function.update (fun _ => ProcState.unused) init .runnable
  lock : ∀ p, s.lock p = none
  np : ∀ p, s.np p = none
  cproc : ∀ c, s.cproc c = none
  pc : ∀ c, s.pc c = .scan

end Smp

/-- The system of the CPUs of `C`. -/
def smpSystem (C : Type) [DecidableEq C] : System (Smp C) (SmpAct C) where
  init := {s | s.Initial}
  step s a s' := s.exec a = some s'

/-- The process whose thread the CPU runs, or is switching to or from. -/
@[grind] def CpuPc.thread : CpuPc → Option (Fin nproc)
  | .scan | .chosen _ | .intr _ | .unset _ => none
  | .switch p | .resumed p | .run p | .held p _ | .alloced p _ | .forking p _ | .own p | .leaving p
  | .back p => some p

/-- The process whose lock the CPU holds. -/
@[grind] def CpuPc.lock : CpuPc → Option (Fin nproc)
  | .scan | .run _ => none
  | .chosen p | .switch p | .resumed p | .own p | .leaving p | .back p | .unset p => some p
  | .intr q | .held _ q | .alloced _ q | .forking _ q => some q

/-- The process has set its state, and is still the process of the CPU. -/
@[grind] def CpuPc.leaves : CpuPc → Bool
  | .leaving _ | .back _ => true
  | _ => false

/-- The states of a process that has left a CPU, and can be scheduled or freed. -/
def ProcState.off : ProcState → Prop
  | .runnable | .sleeping | .zombie => True
  | _ => False

namespace Smp

variable {C : Type}

/-- A process is the process of at most one CPU, and of none when it does not run and its lock
    is free. -/
def OneCpu (s : Smp C) : Prop :=
  (∀ c c' p, s.cproc c = some p → s.cproc c' = some p → c = c') ∧
    ∀ p, (s.state p).off → s.lock p = none → ∀ c, s.cproc c ≠ some p

/-- Only the thread of a process makes it leave `RUNNING`; and the process that `freeproc` is
    applied to, in `kwait`, `allocproc` or `kfork`, is not the process of a CPU. -/
def StepOk (s : Smp C) (a : SmpAct C) (t : Smp C) : Prop :=
  (∀ p, s.state p = .running → t.state p ≠ .running →
    s.cproc a.cpu = some p ∧ (s.pc a.cpu).thread = some p) ∧
    match a with
    | .reap c => ∀ p q, s.pc c = .held p q → ∀ c', s.cproc c' ≠ some q
    | .allocFail c => ∀ p q, s.pc c = .alloced p q → ∀ c', s.cproc c' ≠ some q
    | _ => True

/-- The invariant: what `c->proc` and the locks are follows from where the CPUs are, and the
    process of a CPU runs unless it is leaving. -/
structure Inv (s : Smp C) : Prop where
  cproc : ∀ c, s.cproc c = (s.pc c).thread
  lock : ∀ c q, s.lock q = some c ↔ (s.pc c).lock = some q
  run : ∀ c p, (s.pc c).thread = some p → (s.pc c).leaves = false → s.state p = .running
  leave : ∀ c p, (s.pc c).thread = some p → (s.pc c).leaves = true → (s.state p).off
  unique : ∀ c c' p, (s.pc c).thread = some p → (s.pc c').thread = some p → c = c'
  alloced : ∀ c p q, s.pc c = .alloced p q → s.state q = .used ∧ ∀ p', s.np p' ≠ some q
  forking : ∀ c p q, s.pc c = .forking p q → s.np p = some q
  np : ∀ p q, s.np p = some q → s.state q = .used
  fork : ∀ p p' q, s.np p = some q → s.np p' = some q → p = p'

variable {s t : Smp C} {c : C} {p q : Fin nproc} {a : SmpAct C}

theorem off_of_ne {x : ProcState} (h : x.off) : x ≠ .running ∧ x ≠ .unused ∧ x ≠ .used := by
  cases x <;> first | exact h.elim | exact ⟨by decide, by decide, by decide⟩

/-- A process that is not running, and whose lock is held elsewhere, is that of no CPU. -/
theorem Inv.off_cpu (h : s.Inv) (hl : (s.pc c).lock = some q) (hc : (s.pc c).leaves = false)
    (hq : s.state q ≠ .running) (c' : C) : (s.pc c').thread ≠ some q := by
  intro ht
  cases hlv : (s.pc c').leaves with
  | false => exact hq (h.run c' q ht hlv)
  | true =>
    have hl' : (s.pc c').lock = some q := by
      cases hpc : s.pc c' <;> rw [hpc] at ht hlv <;> cases hlv <;> exact ht
    have heq := ((h.lock c q).2 hl).symm.trans ((h.lock c' q).2 hl')
    rw [Option.some.inj heq, hlv] at hc
    cases hc

theorem Inv.oneCpu (h : s.Inv) : s.OneCpu := by
  refine ⟨fun c c' p hc hc' => ?_, fun p hp hl c hc => ?_⟩
  · rw [h.cproc] at hc hc'
    exact h.unique c c' p hc hc'
  · rw [h.cproc] at hc
    cases hlv : (s.pc c).leaves with
    | false => exact (off_of_ne hp).1 (h.run c p hc hlv)
    | true =>
      have hl' : (s.pc c).lock = some p := by
        cases hpc : s.pc c <;> rw [hpc] at hc hlv <;> cases hlv <;> exact hc
      rw [(h.lock c p).2 hl'] at hl
      cases hl

theorem Initial.inv (h : s.Initial) : s.Inv where
  cproc c := by rw [h.cproc, h.pc]; rfl
  lock c q := by simp [h.lock, h.pc, CpuPc.lock]
  run c p hc := by rw [h.pc] at hc; cases hc
  leave c p hc := by rw [h.pc] at hc; cases hc
  unique c c' p hc := by rw [h.pc] at hc; cases hc
  alloced c p q hc := by rw [h.pc] at hc; cases hc
  forking c p q hc := by rw [h.pc] at hc; cases hc
  np p q hp := by rw [h.np] at hp; cases hp
  fork p p' q hp := by rw [h.np] at hp; cases hp

section

variable [DecidableEq C]

@[grind =] theorem goto_pc {k : CpuPc} {c' : C} :
    (s.goto c k).pc c' = if c' = c then k else s.pc c' := Function.update_apply ..

@[grind =] theorem goto_state {k : CpuPc} : (s.goto c k).state p = s.state p := rfl
@[grind =] theorem goto_lock {k : CpuPc} : (s.goto c k).lock p = s.lock p := rfl
@[grind =] theorem goto_np {k : CpuPc} : (s.goto c k).np p = s.np p := rfl
@[grind =] theorem goto_cproc {k : CpuPc} {c' : C} : (s.goto c k).cproc c' = s.cproc c' := rfl

end

@[grind =] theorem acquire_lock : (s.acquire c q).lock p = if p = q then some c else s.lock p :=
  Function.update_apply ..

@[grind =] theorem acquire_state : (s.acquire c q).state p = s.state p := rfl

@[grind =] theorem release_lock : (s.release q).lock p = if p = q then none else s.lock p :=
  Function.update_apply ..

@[grind =] theorem release_state : (s.release q).state p = s.state p := rfl

@[grind =] theorem setState_state {x : ProcState} :
    (s.setState q x).state p = if p = q then x else s.state p := Function.update_apply ..

@[grind =] theorem setState_pc {x : ProcState} : (s.setState q x).pc c = s.pc c := rfl
@[grind =] theorem setState_cproc {x : ProcState} : (s.setState q x).cproc c = s.cproc c := rfl

@[grind =] theorem setNp_np {o : Option (Fin nproc)} {r : Fin nproc} :
    (s.setNp p o).np r = if r = p then o else s.np r := Function.update_apply ..

@[grind =] theorem setNp_state {o : Option (Fin nproc)} : (s.setNp p o).state q = s.state q := rfl

@[grind =] theorem setProc_state [DecidableEq C] {o : Option (Fin nproc)} :
    (s.setProc c o).state q = s.state q := rfl

/-! ## What a step leaves unchanged -/

/-- A step of the CPU `c`, of which the child of `p`, the state and the lock of `q`, and no other
    CPU can depend. -/
structure Frame (c : C) (p q : Fin nproc) (s t : Smp C) : Prop where
  pc : ∀ c', c' ≠ c → t.pc c' = s.pc c'
  cproc : ∀ c', c' ≠ c → t.cproc c' = s.cproc c'
  lock : ∀ r, r ≠ q → t.lock r = s.lock r
  state : ∀ r, r ≠ q → t.state r = s.state r
  np : ∀ r, r ≠ p → t.np r = s.np r
  child : ∀ r r', r' ≠ q → t.np r = some r' → s.np r = some r'

theorem Frame.trans {u : Smp C} (h : Frame c p q s t) (h' : Frame c p q t u) : Frame c p q s u where
  pc c' hc := (h'.pc c' hc).trans (h.pc c' hc)
  cproc c' hc := (h'.cproc c' hc).trans (h.cproc c' hc)
  lock r hr := (h'.lock r hr).trans (h.lock r hr)
  state r hr := (h'.state r hr).trans (h.state r hr)
  np r hr := (h'.np r hr).trans (h.np r hr)
  child r r' hr hnp := h.child r r' hr (h'.child r r' hr hnp)

theorem frame_acquire : Frame c p q s (s.acquire c q) :=
  ⟨fun _ _ => rfl, fun _ _ => rfl, fun _ hr => Function.update_of_ne hr _ _, fun _ _ => rfl,
    fun _ _ => rfl, fun _ _ _ h => h⟩

theorem frame_release : Frame c p q s (s.release q) :=
  ⟨fun _ _ => rfl, fun _ _ => rfl, fun _ hr => Function.update_of_ne hr _ _, fun _ _ => rfl,
    fun _ _ => rfl, fun _ _ _ h => h⟩

theorem frame_setState {x : ProcState} : Frame c p q s (s.setState q x) :=
  ⟨fun _ _ => rfl, fun _ _ => rfl, fun _ _ => rfl, fun _ hr => Function.update_of_ne hr _ _,
    fun _ _ => rfl, fun _ _ _ h => h⟩

/-- The child is `q`, or there is none. -/
theorem frame_setNp {o : Option (Fin nproc)} (ho : ∀ r, o = some r → r = q) :
    Frame c p q s (s.setNp p o) := by
  refine ⟨fun _ _ => rfl, fun _ _ => rfl, fun _ _ => rfl, fun _ _ => rfl,
    fun _ hr => Function.update_of_ne hr _ _, fun r r' hr hnp => ?_⟩
  rw [setNp_np] at hnp
  split at hnp
  · exact absurd (ho r' hnp) hr
  · exact hnp

theorem frame_setProc [DecidableEq C] {o : Option (Fin nproc)} : Frame c p q s (s.setProc c o) :=
  ⟨fun _ _ => rfl, fun _ hc => Function.update_of_ne hc _ _, fun _ _ => rfl, fun _ _ => rfl,
    fun _ _ => rfl, fun _ _ _ h => h⟩

theorem frame_goto [DecidableEq C] {k : CpuPc} : Frame c p q s (s.goto c k) :=
  ⟨fun _ hc => Function.update_of_ne hc _ _, fun _ _ => rfl, fun _ _ => rfl, fun _ _ => rfl,
    fun _ _ => rfl, fun _ _ _ h => h⟩

/-- What the CPU has to see to for itself and for `q`, for the invariant to hold after its step. -/
structure Local (c : C) (p q : Fin nproc) (s t : Smp C) : Prop where
  /-- It has the lock of `q`, or no lock; then nobody has that of `q`. -/
  before : (s.pc c).lock = some q ∧ s.lock q = some c ∨ (s.pc c).lock = none ∧ s.lock q = none
  after : (t.pc c).lock = some q ∧ t.lock q = some c ∨ (t.pc c).lock = none ∧ t.lock q = none
  cproc : t.cproc c = (t.pc c).thread
  /-- A process that it begins to run is that of no CPU. -/
  thread : ∀ r, (t.pc c).thread = some r →
    (s.pc c).thread = some r ∨ ∀ c', (s.pc c').thread ≠ some r
  /-- The state of a process that another CPU runs does not change, -/
  state : t.state q = s.state q ∨ ∀ c', c' ≠ c → (s.pc c').thread ≠ some q
  run : ∀ r, (t.pc c).thread = some r → (t.pc c).leaves = false → t.state r = .running
  leave : ∀ r, (t.pc c).thread = some r → (t.pc c).leaves = true → (t.state r).off
  /-- nor does the child of a process. -/
  own : (s.pc c).thread = some p ∨ t.np = s.np
  alloced : ∀ r r', t.pc c = .alloced r r' → t.state r' = .used ∧ ∀ p', t.np p' ≠ some r'
  forking : ∀ r r', t.pc c = .forking r r' → t.np r = some r'
  np : ∀ r, t.np r = some q → t.state q = .used
  fork : ∀ r r', t.np r = some q → t.np r' = some q → r = r'

/-- The CPUs but `c` do not hold the lock of `q`. -/
theorem Inv.lock_ne (h : s.Inv) (hl : Local c p q s t) {c' : C} (hc : c' ≠ c) :
    (s.pc c').lock ≠ some q := fun hlock => by
  have hq := (h.lock c' q).2 hlock
  rcases hl.before with ⟨-, hb⟩ | ⟨-, hb⟩
  · exact hc (Option.some.inj (hq.symm.trans hb))
  · cases hq.symm.trans hb

/-- So it is enough to look at the CPU that takes the step, and at the process that it is about. -/
theorem Inv.of_frame (h : s.Inv) (hf : Frame c p q s t) (hl : Local c p q s t) : t.Inv where
  cproc c' := by
    by_cases hc : c' = c
    · exact hc ▸ hl.cproc
    · rw [hf.cproc c' hc, hf.pc c' hc]
      exact h.cproc c'
  lock c' r := by
    by_cases hr : r = q <;> by_cases hc : c' = c
    · subst hr hc
      rcases hl.after with ⟨hk, ht⟩ | ⟨hk, ht⟩ <;> simp [hk, ht]
    · subst hr
      rw [hf.pc c' hc]
      refine iff_of_false (fun ht => ?_) (h.lock_ne hl hc)
      rcases hl.after with ⟨-, ha⟩ | ⟨-, ha⟩
      · exact hc (Option.some.inj (ht.symm.trans ha))
      · cases ht.symm.trans ha
    · subst hc
      rw [hf.lock r hr, h.lock]
      rcases hl.before with ⟨hb, -⟩ | ⟨hb, -⟩ <;> rcases hl.after with ⟨ha, -⟩ | ⟨ha, -⟩ <;>
        simp [hb, ha, Ne.symm hr]
    · rw [hf.lock r hr, hf.pc c' hc]
      exact h.lock c' r
  run c' r ht hlv := by
    by_cases hc : c' = c
    · subst hc
      exact hl.run r ht hlv
    rw [hf.pc c' hc] at ht hlv
    by_cases hr : r = q
    · subst hr
      rcases hl.state with e | e
      · exact e.trans (h.run c' r ht hlv)
      · exact absurd ht (e c' hc)
    · exact (hf.state r hr).trans (h.run c' r ht hlv)
  leave c' r ht hlv := by
    by_cases hc : c' = c
    · subst hc
      exact hl.leave r ht hlv
    rw [hf.pc c' hc] at ht hlv
    have hoff := h.leave c' r ht hlv
    by_cases hr : r = q
    · subst hr
      rcases hl.state with e | e
      · rwa [e]
      · exact absurd ht (e c' hc)
    · rwa [hf.state r hr]
  unique c₁ c₂ r h₁ h₂ := by
    -- Two CPUs but `c` are as before, and `c` runs a new process only if no other CPU does.
    have hne : ∀ c', c' ≠ c → (t.pc c').thread = some r → (t.pc c).thread ≠ some r :=
      fun c' hc ht hcr => by
        rw [hf.pc c' hc] at ht
        rcases hl.thread r hcr with e | e
        · exact hc (h.unique c' c r ht e)
        · exact e c' ht
    by_cases hc₁ : c₁ = c <;> by_cases hc₂ : c₂ = c
    · rw [hc₁, hc₂]
    · exact absurd (hc₁ ▸ h₁) (hne c₂ hc₂ h₂)
    · exact absurd (hc₂ ▸ h₂) (hne c₁ hc₁ h₁)
    · rw [hf.pc c₁ hc₁] at h₁
      rw [hf.pc c₂ hc₂] at h₂
      exact h.unique c₁ c₂ r h₁ h₂
  alloced c' r r' hpc := by
    by_cases hc : c' = c
    · subst hc
      exact hl.alloced r r' hpc
    rw [hf.pc c' hc] at hpc
    have hr : r' ≠ q := by
      rintro rfl
      exact h.lock_ne hl hc (by rw [hpc]; rfl)
    obtain ⟨hst, hnp⟩ := h.alloced c' r r' hpc
    exact ⟨(hf.state r' hr).trans hst, fun p' hp' => hnp p' (hf.child p' r' hr hp')⟩
  forking c' r r' hpc := by
    by_cases hc : c' = c
    · subst hc
      exact hl.forking r r' hpc
    rw [hf.pc c' hc] at hpc
    have hnp := h.forking c' r r' hpc
    rcases hl.own with hp | hp
    · refine (hf.np r ?_).trans hnp
      rintro rfl
      exact hc (h.unique c' c r (by rw [hpc]; rfl) hp)
    · rwa [hp]
  np r r' hnp := by
    by_cases hr : r' = q
    · subst hr
      exact hl.np r hnp
    · exact (hf.state r' hr).trans (h.np r r' (hf.child r r' hr hnp))
  fork r₁ r₂ r' h₁ h₂ := by
    by_cases hr : r' = q
    · subst hr
      exact hl.fork r₁ r₂ h₁ h₂
    · exact h.fork r₁ r₂ r' (hf.child r₁ r' hr h₁) (hf.child r₂ r' hr h₂)

/-! ## The changes of a step -/

/-- The holder of the lock of a process that does not run, and is not being forked, sets its
    state. -/
theorem Inv.setState {x : ProcState} (h : s.Inv) (hl : (s.pc c).lock = some q)
    (hlv : (s.pc c).leaves = false) (hq : s.state q ≠ .running) (hu : s.state q ≠ .used) :
    (s.setState q x).Inv := by
  have hlock := (h.lock c q).2 hl
  refine h.of_frame (frame_setState (p := q))
    { before := .inl ⟨hl, hlock⟩
      after := .inl ⟨hl, hlock⟩
      cproc := h.cproc c
      thread := fun r hr => .inl hr
      state := .inr fun c' _ => h.off_cpu hl hlv hq c'
      run := fun r hr hlr => ?_
      leave := fun r _ hlr => by cases hlv.symm.trans hlr
      own := .inr rfl
      alloced := fun r r' hpc => ?_
      forking := h.forking c
      np := fun r hr => absurd (h.np r q hr) hu
      fork := fun r r' => h.fork r r' q }
  · have hrun := h.run c r hr hlr
    rw [setState_state, if_neg, hrun]
    rintro rfl
    exact hq hrun
  · rw [setState_pc] at hpc
    rw [hpc] at hl
    obtain rfl := Option.some.inj hl
    exact absurd (h.alloced c r r' hpc).1 hu

/-- A CPU goes on in the same thread, and no process changes. -/
theorem Inv.move (h : s.Inv) (hf : Frame c q q s t) (hstate : t.state = s.state)
    (hnp : t.np = s.np) (hcproc : t.cproc = s.cproc)
    (hbefore : (s.pc c).lock = some q ∧ s.lock q = some c ∨ (s.pc c).lock = none ∧ s.lock q = none)
    (hafter : (t.pc c).lock = some q ∧ t.lock q = some c ∨ (t.pc c).lock = none ∧ t.lock q = none)
    (ht : (t.pc c).thread = (s.pc c).thread) (hlv : (t.pc c).leaves = (s.pc c).leaves)
    (ha : ∀ r r', t.pc c ≠ .alloced r r')
    (hk : ∀ r r', t.pc c = .forking r r' → s.np r = some r') : t.Inv :=
  h.of_frame hf
    { before := hbefore
      after := hafter
      cproc := by rw [hcproc, ht, h.cproc]
      thread := fun r hr => .inl (ht ▸ hr)
      state := .inl (by rw [hstate])
      run := fun r hr hlr => by rw [hstate]; exact h.run c r (ht ▸ hr) (hlv ▸ hlr)
      leave := fun r hr hlr => by rw [hstate]; exact h.leave c r (ht ▸ hr) (hlv ▸ hlr)
      own := .inr hnp
      alloced := fun r r' hpc => absurd hpc (ha r r')
      forking := fun r r' hpc => by rw [hnp]; exact hk r r' hpc
      np := fun r hr => by rw [hstate]; exact h.np r q (hnp ▸ hr)
      fork := fun r r' hr hr' => h.fork r r' q (hnp ▸ hr) (hnp ▸ hr') }

/-- The CPU goes on in its thread `p`, which holds the lock of another process `q` that no CPU runs,
    and does not fork it again. -/
theorem Inv.local_held {k : CpuPc} (h : s.Inv) (hl : (s.pc c).lock = some q)
    (hp : (s.pc c).thread = some p) (hlv : (s.pc c).leaves = false)
    (hq : s.state q ≠ .running) (hk : k.thread = some p) (hkl : k.leaves = false)
    (hpc : t.pc c = k) (hcproc : t.cproc = s.cproc)
    (hstate : ∀ r, r ≠ q → t.state r = s.state r)
    (hafter : k.lock = some q ∧ t.lock q = some c ∨ k.lock = none ∧ t.lock q = none)
    (ha : ∀ r r', k = .alloced r r' → t.state r' = .used ∧ ∀ p', t.np p' ≠ some r')
    (hf : ∀ r r', k ≠ .forking r r') (hnp : ∀ r, t.np r = some q → t.state q = .used)
    (hfork : ∀ r r', t.np r = some q → t.np r' = some q → r = r') : Local c p q s t where
  before := .inl ⟨hl, (h.lock c q).2 hl⟩
  after := by rwa [hpc]
  cproc := by rw [hcproc, hpc, hk, h.cproc, hp]
  thread r hr := .inl (by rw [hp]; rwa [hpc, hk] at hr)
  state := .inr fun c' _ => h.off_cpu hl hlv hq c'
  run r hr _ := by
    rw [hpc, hk] at hr
    obtain rfl := Option.some.inj hr
    have hrun := h.run c p hp hlv
    rw [hstate p, hrun]
    rintro rfl
    exact hq hrun
  leave r _ hlr := by
    rw [hpc, hkl] at hlr
    cases hlr
  own := .inl hp
  alloced := by rwa [hpc]
  forking r r' hr := absurd (hpc ▸ hr) (hf r r')
  np := hnp
  fork := hfork

section

variable [DecidableEq C]

theorem goto_pc_self {k : CpuPc} : (s.goto c k).pc c = k := Function.update_self ..

/-- A CPU acquires a lock that is free. -/
theorem Inv.tryAcquire {k : CpuPc} (h : s.Inv) (hs : s.tryAcquire c q k = some t)
    (hl : (s.pc c).lock = none) (hk : k.lock = some q) (ht : k.thread = (s.pc c).thread)
    (hlv : k.leaves = (s.pc c).leaves) (ha : ∀ p q, k ≠ .alloced p q)
    (hf : ∀ p q, k = .forking p q → s.np p = some q) : t.Inv := by
  obtain ⟨hfree, hs⟩ := Option.ite_none_right_eq_some.1 hs
  cases hs
  have hpc : ((s.acquire c q).goto c k).pc c = k := goto_pc_self
  refine h.move (frame_acquire.trans frame_goto) rfl rfl rfl (.inr ⟨hl, hfree⟩)
    (.inl ⟨by rw [hpc, hk], ?_⟩) (by rw [hpc, ht]) (by rw [hpc, hlv]) (by rwa [hpc]) (by rwa [hpc])
  rw [goto_lock, acquire_lock, if_pos rfl]

/-- A CPU goes on with the same lock. -/
theorem Inv.goto {k : CpuPc} (h : s.Inv) (hl : (s.pc c).lock = some q) (hk : k.lock = some q)
    (ht : k.thread = (s.pc c).thread) (hlv : k.leaves = (s.pc c).leaves)
    (ha : ∀ p q, k ≠ .alloced p q) (hf : ∀ p q, k ≠ .forking p q) : (s.goto c k).Inv := by
  have hlock := (h.lock c q).2 hl
  have hpc : (s.goto c k).pc c = k := goto_pc_self
  exact h.move frame_goto rfl rfl rfl (.inl ⟨hl, hlock⟩) (.inl ⟨by rw [hpc, hk], hlock⟩)
    (by rw [hpc, ht]) (by rw [hpc, hlv]) (by rwa [hpc]) fun r r' hr => absurd (hpc ▸ hr) (hf r r')

/-- A CPU releases the lock that it holds. -/
theorem Inv.release {k : CpuPc} (h : s.Inv) (hl : (s.pc c).lock = some q) (hk : k.lock = none)
    (ht : k.thread = (s.pc c).thread) (hlv : k.leaves = (s.pc c).leaves) :
    ((s.release q).goto c k).Inv := by
  have hpc : ((s.release q).goto c k).pc c = k := goto_pc_self
  refine h.move (frame_release.trans frame_goto) rfl rfl rfl (.inl ⟨hl, (h.lock c q).2 hl⟩)
    (.inr ⟨by rw [hpc, hk], ?_⟩) (by rw [hpc, ht]) (by rw [hpc, hlv]) (fun r r' hr => ?_)
    fun r r' hr => ?_
  · rw [goto_lock, release_lock, if_pos rfl]
  · rw [hpc] at hr
    subst hr
    cases hk
  · rw [hpc] at hr
    subst hr
    cases hk

/-- The scheduler chooses a process: nobody runs it, as its lock was free. -/
theorem Inv.choose (h : s.Inv) (hpc : s.pc c = .chosen p) (hrun : s.state p = .runnable) :
    (((s.setState p .running).setProc c (some p)).goto c (.switch p)).Inv := by
  have hl : (s.pc c).lock = some p := by rw [hpc]; rfl
  have hlock := (h.lock c p).2 hl
  have hoff := h.off_cpu hl (by rw [hpc]; rfl) (by rw [hrun]; decide)
  have hu : s.state p ≠ .used := by rw [hrun]; decide
  refine h.of_frame (p := p) ((frame_setState.trans frame_setProc).trans frame_goto)
    { before := .inl ⟨hl, hlock⟩
      after := .inl ⟨by rw [goto_pc_self]; rfl, hlock⟩
      cproc := by rw [goto_pc_self]; exact Function.update_self ..
      thread := fun r hr => .inr ?_
      state := .inr fun c' _ => hoff c'
      run := fun r hr _ => ?_
      leave := fun r _ hlv => by rw [goto_pc_self] at hlv; cases hlv
      own := .inr rfl
      alloced := fun r r' hk => by rw [goto_pc_self] at hk; cases hk
      forking := fun r r' hk => by rw [goto_pc_self] at hk; cases hk
      np := fun r hr => absurd (h.np r p hr) hu
      fork := fun r r' => h.fork r r' p }
  all_goals
    rw [goto_pc_self] at hr
    obtain rfl : p = r := Option.some.inj hr
  · exact hoff
  · exact Function.update_self ..

/-- The scheduler resets `c->proc`. -/
theorem Inv.unset (h : s.Inv) (hpc : s.pc c = .back p) :
    ((s.setProc c none).goto c (.unset p)).Inv := by
  have hl : (s.pc c).lock = some p := by rw [hpc]; rfl
  have hlock := (h.lock c p).2 hl
  exact h.of_frame (p := p) (frame_setProc.trans frame_goto)
    { before := .inl ⟨hl, hlock⟩
      after := .inl ⟨by rw [goto_pc_self]; rfl, hlock⟩
      cproc := by rw [goto_pc_self]; exact Function.update_self ..
      thread := fun r hr => by rw [goto_pc_self] at hr; cases hr
      state := .inl rfl
      run := fun r hr => by rw [goto_pc_self] at hr; cases hr
      leave := fun r hr => by rw [goto_pc_self] at hr; cases hr
      own := .inr rfl
      alloced := fun r r' hk => by rw [goto_pc_self] at hk; cases hk
      forking := fun r r' hk => by rw [goto_pc_self] at hk; cases hk
      np := fun r hr => h.np r p hr
      fork := fun r r' => h.fork r r' p }

/-- `allocproc` finds a free slot. -/
theorem Inv.alloc (h : s.Inv) (hpc : s.pc c = .held p q) (hu : s.state q = .unused) :
    ((s.setState q .used).goto c (.alloced p q)).Inv := by
  have hl : (s.pc c).lock = some q := by rw [hpc]; rfl
  -- Nobody forks the slot yet.
  have hnp : ∀ r, s.np r ≠ some q := fun r hr => by
    rw [h.np r q hr] at hu
    cases hu
  have hused : ((s.setState q .used).goto c (.alloced p q)).state q = .used :=
    Function.update_self ..
  refine h.of_frame (frame_setState.trans frame_goto) (h.local_held hl (by rw [hpc]; rfl)
    (by rw [hpc]; rfl) (by rw [hu]; decide) rfl rfl goto_pc_self rfl
    (fun r hr => Function.update_of_ne hr _ _) (.inl ⟨rfl, (h.lock c q).2 hl⟩) ?_
    (fun _ _ => CpuPc.noConfusion) (fun r hr => absurd hr (hnp r)) fun r _ hr => absurd hr (hnp r))
  rintro r r' ⟨⟩
  exact ⟨hused, hnp⟩

/-- `kfork` releases the lock of the child. -/
theorem Inv.releaseChild (h : s.Inv) (hpc : s.pc c = .alloced p q) :
    (((s.release q).setNp p (some q)).goto c (.run p)).Inv := by
  obtain ⟨hused, hnp⟩ := h.alloced c p q hpc
  -- Only `p` forks `q`.
  have honly : ∀ r, (((s.release q).setNp p (some q)).goto c (.run p)).np r = some q → r = p := by
    intro r hr
    rw [goto_np, setNp_np] at hr
    by_contra hne
    rw [if_neg hne] at hr
    exact hnp r hr
  refine h.of_frame
    ((frame_release.trans (frame_setNp fun r hr => (Option.some.inj hr).symm)).trans frame_goto)
    (h.local_held (by rw [hpc]; rfl) (by rw [hpc]; rfl) (by rw [hpc]; rfl) (by rw [hused]; decide)
      rfl rfl goto_pc_self rfl (fun _ _ => rfl) (.inr ⟨rfl, ?_⟩) (fun _ _ hk => by cases hk)
      (fun _ _ => CpuPc.noConfusion) (fun _ _ => hused)
      fun r r' hr hr' => (honly r hr).trans (honly r' hr').symm)
  exact Function.update_self ..

/-- `freeproc` undoes `allocproc`. -/
theorem Inv.allocFail (h : s.Inv) (hpc : s.pc c = .alloced p q) :
    ((s.setState q .unused).goto c (.held p q)).Inv := by
  have hl : (s.pc c).lock = some q := by rw [hpc]; rfl
  obtain ⟨hused, hnp⟩ := h.alloced c p q hpc
  exact h.of_frame (frame_setState.trans frame_goto) (h.local_held hl (by rw [hpc]; rfl)
    (by rw [hpc]; rfl) (by rw [hused]; decide) rfl rfl goto_pc_self rfl
    (fun r hr => Function.update_of_ne hr _ _) (.inl ⟨rfl, (h.lock c q).2 hl⟩)
    (fun _ _ hk => by cases hk) (fun _ _ => CpuPc.noConfusion) (fun r hr => absurd hr (hnp r))
    fun r _ hr => absurd hr (hnp r))

/-- `kfork` makes the child runnable. -/
theorem Inv.forkRun (h : s.Inv) (hpc : s.pc c = .forking p q) :
    (((s.setState q .runnable).setNp p none).goto c (.held p q)).Inv := by
  have hl : (s.pc c).lock = some q := by rw [hpc]; rfl
  have hchild := h.forking c p q hpc
  -- `p` was the only one that forks `q`.
  have hnp : ∀ r, (((s.setState q .runnable).setNp p none).goto c (.held p q)).np r ≠ some q := by
    intro r hr
    rw [goto_np, setNp_np] at hr
    split at hr
    · cases hr
    · rename_i hne
      exact hne (h.fork r p q hr hchild)
  exact h.of_frame ((frame_setState.trans (frame_setNp fun r hr => by cases hr)).trans frame_goto)
    (h.local_held hl (by rw [hpc]; rfl) (by rw [hpc]; rfl) (by rw [h.np p q hchild]; decide)
      rfl rfl goto_pc_self rfl (fun r hr => Function.update_of_ne hr _ _)
      (.inl ⟨rfl, (h.lock c q).2 hl⟩) (fun _ _ hk => by cases hk) (fun _ _ => CpuPc.noConfusion)
      (fun r hr => absurd hr (hnp r)) fun r _ hr => absurd hr (hnp r))

/-- A process leaves its CPU, and no other CPU runs it. -/
theorem Inv.leaveCpu (h : s.Inv) (how : Leave) (hpc : s.pc c = .own p) :
    ((s.setState p how.state).goto c (.leaving p)).Inv := by
  have hl : (s.pc c).lock = some p := by rw [hpc]; rfl
  have hp : (s.pc c).thread = some p := by rw [hpc]; rfl
  have hlock := (h.lock c p).2 hl
  have hu : s.state p ≠ .used := by
    rw [h.run c p hp (by rw [hpc]; rfl)]
    decide
  refine h.of_frame (frame_setState.trans frame_goto)
    { before := .inl ⟨hl, hlock⟩
      after := .inl ⟨by rw [goto_pc_self]; rfl, hlock⟩
      cproc := by rw [goto_pc_self, goto_cproc, setState_cproc, h.cproc, hp]; rfl
      thread := fun r hr => .inl (by rw [hp]; rwa [goto_pc_self] at hr)
      state := .inr fun c' hc hc' => hc (h.unique c' c p hc' hp)
      run := fun r _ hlv => by rw [goto_pc_self] at hlv; cases hlv
      leave := fun r hr _ => ?_
      own := .inl hp
      alloced := fun r r' hk => by rw [goto_pc_self] at hk; cases hk
      forking := fun r r' hk => by rw [goto_pc_self] at hk; cases hk
      np := fun r hr => absurd (h.np r p hr) hu
      fork := fun r r' => h.fork r r' p }
  rw [goto_pc_self] at hr
  obtain rfl := Option.some.inj hr
  rw [goto_state, setState_state, if_pos rfl]
  cases how <;> trivial

end

variable [DecidableEq C]

/-- Every step preserves the invariant. -/
theorem Inv.step (h : s.Inv) (hs : s.exec a = some t) : t.Inv := by
  cases a with
  | schedAcquire c p =>
    simp only [exec] at hs
    split at hs
    next hpc =>
      exact h.tryAcquire hs (by rw [hpc]; rfl) rfl (by rw [hpc]; rfl) (by rw [hpc]; rfl)
        (fun _ _ => CpuPc.noConfusion) fun _ _ hk => by cases hk
    next => cases hs
  | schedTest c =>
    simp only [exec] at hs
    split at hs
    next p hpc =>
      split at hs
      next hrun =>
        cases hs
        exact h.choose hpc hrun
      next =>
        -- Not runnable: on to the next slot.
        cases hs
        exact h.release (by rw [hpc]; rfl) rfl (by rw [hpc]; rfl) (by rw [hpc]; rfl)
    next => cases hs
  | swtch c =>
    -- In either direction the lock of the process is handed over with the CPU.
    simp only [exec] at hs
    split at hs
    next p hpc =>
      cases hs
      exact h.goto (q := p) (by rw [hpc]; rfl) rfl (by rw [hpc]; rfl) (by rw [hpc]; rfl)
        (fun _ _ => CpuPc.noConfusion) fun _ _ => CpuPc.noConfusion
    next p hpc =>
      cases hs
      exact h.goto (q := p) (by rw [hpc]; rfl) rfl (by rw [hpc]; rfl) (by rw [hpc]; rfl)
        (fun _ _ => CpuPc.noConfusion) fun _ _ => CpuPc.noConfusion
    next => cases hs
  | unset c =>
    simp only [exec] at hs
    split at hs
    next p hpc =>
      cases hs
      exact h.unset hpc
    next => cases hs
  | release c =>
    -- Only `kfork` keeps a claim on the slot whose lock it releases.
    simp only [exec] at hs
    split at hs
    next p hpc =>
      cases hs
      exact h.release (by rw [hpc]; rfl) rfl (by rw [hpc]; rfl) (by rw [hpc]; rfl)
    next q hpc =>
      cases hs
      exact h.release (by rw [hpc]; rfl) rfl (by rw [hpc]; rfl) (by rw [hpc]; rfl)
    next p hpc =>
      cases hs
      exact h.release (by rw [hpc]; rfl) rfl (by rw [hpc]; rfl) (by rw [hpc]; rfl)
    next p q hpc =>
      cases hs
      exact h.release (by rw [hpc]; rfl) rfl (by rw [hpc]; rfl) (by rw [hpc]; rfl)
    next p q hpc =>
      cases hs
      exact h.releaseChild hpc
    next => cases hs
  | intr c q =>
    simp only [exec] at hs
    split at hs
    next hpc =>
      exact h.tryAcquire hs (by rw [hpc]; rfl) rfl (by rw [hpc]; rfl) (by rw [hpc]; rfl)
        (fun _ _ => CpuPc.noConfusion) fun _ _ hk => by cases hk
    next => cases hs
  | acquire c q =>
    simp only [exec] at hs
    split at hs
    next p hpc =>
      exact h.tryAcquire hs (by rw [hpc]; rfl) rfl (by rw [hpc]; rfl) (by rw [hpc]; rfl)
        (fun _ _ => CpuPc.noConfusion) fun _ _ hk => by cases hk
    next => cases hs
  | wake c =>
    -- By a thread, or in an interrupt of the scheduler.
    simp only [exec] at hs
    split at hs
    next p q hpc =>
      obtain ⟨hsl, hs⟩ := Option.ite_none_right_eq_some.1 hs
      cases hs
      exact h.setState (by rw [hpc]; rfl) (by rw [hpc]; rfl) (by rw [hsl]; decide)
        (by rw [hsl]; decide)
    next q hpc =>
      obtain ⟨hsl, hs⟩ := Option.ite_none_right_eq_some.1 hs
      cases hs
      exact h.setState (by rw [hpc]; rfl) (by rw [hpc]; rfl) (by rw [hsl]; decide)
        (by rw [hsl]; decide)
    next => cases hs
  | reap c =>
    simp only [exec] at hs
    split at hs
    next p q hpc =>
      obtain ⟨hz, hs⟩ := Option.ite_none_right_eq_some.1 hs
      cases hs
      exact h.setState (by rw [hpc]; rfl) (by rw [hpc]; rfl) (by rw [hz]; decide)
        (by rw [hz]; decide)
    next => cases hs
  | alloc c =>
    simp only [exec] at hs
    split at hs
    next p q hpc =>
      obtain ⟨⟨hu, -⟩, hs⟩ := Option.ite_none_right_eq_some.1 hs
      cases hs
      exact h.alloc hpc hu
    next => cases hs
  | allocFail c =>
    simp only [exec] at hs
    split at hs
    next p q hpc =>
      cases hs
      exact h.allocFail hpc
    next => cases hs
  | forkAcquire c =>
    simp only [exec] at hs
    split at hs
    next p hpc =>
      split at hs
      next q hq =>
        -- The child of the process is still the one that it allocated.
        refine h.tryAcquire hs (by rw [hpc]; rfl) rfl (by rw [hpc]; rfl) (by rw [hpc]; rfl)
          (fun _ _ => CpuPc.noConfusion) ?_
        rintro _ _ ⟨⟩
        exact hq
      next => cases hs
    next => cases hs
  | forkRun c =>
    simp only [exec] at hs
    split at hs
    next p q hpc =>
      cases hs
      exact h.forkRun hpc
    next => cases hs
  | ownAcquire c =>
    simp only [exec] at hs
    split at hs
    next p hpc =>
      exact h.tryAcquire hs (by rw [hpc]; rfl) rfl (by rw [hpc]; rfl) (by rw [hpc]; rfl)
        (fun _ _ => CpuPc.noConfusion) fun _ _ hk => by cases hk
    next => cases hs
  | leave c how =>
    simp only [exec] at hs
    split at hs
    next p hpc =>
      split at hs
      next => cases hs -- no exit in the middle of `kfork`
      next =>
        cases hs
        exact h.leaveCpu _ hpc
    next => cases hs

/-- Only its own thread makes a process leave `RUNNING`. -/
theorem Inv.running (h : s.Inv) (hs : s.exec a = some t) (hp : s.state p = .running)
    (hp' : t.state p ≠ .running) : s.pc a.cpu = .own p := by
  have hal : ∀ c p q, s.pc c = .alloced p q → s.state q = .used :=
    fun c p q hpc => (h.alloced c p q hpc).1
  have hfk : ∀ c p q, s.pc c = .forking p q → s.state q = .used :=
    fun c p q hpc => h.np p q (h.forking c p q hpc)
  -- The others set the state of a process that sleeps, is a zombie, or is being forked.
  cases a <;> simp only [exec, Smp.tryAcquire, SmpAct.cpu] at hs ⊢ <;> grind

/-- Every step does what it may. -/
theorem Inv.stepOk (h : s.Inv) (hs : s.exec a = some t) : StepOk s a t := by
  refine ⟨fun p hp hp' => ?_, ?_⟩
  · have hown := h.running hs hp hp'
    rw [h.cproc, hown]
    exact ⟨rfl, rfl⟩
  · cases a with
    | reap c =>
      intro p q hpc c'
      rw [h.cproc]
      refine h.off_cpu (c := c) (by rw [hpc]; rfl) (by rw [hpc]; rfl) ?_ c'
      simp only [exec, hpc] at hs
      rw [(Option.ite_none_right_eq_some.1 hs).1]
      decide
    | allocFail c =>
      intro p q hpc c'
      rw [h.cproc]
      refine h.off_cpu (c := c) (by rw [hpc]; rfl) (by rw [hpc]; rfl) ?_ c'
      rw [(h.alloced c p q hpc).1]
      decide
    | _ => trivial

end Smp

/-- **One process, one CPU.** In every run of any number of CPUs, a process is the process of at
    most one CPU, and of none when it is runnable, asleep or a zombie and its lock is free; only
    its own thread makes a process leave `RUNNING`; and `freeproc` is never applied to the
    process of a CPU. -/
theorem one_process_one_cpu {C : Type} [DecidableEq C] {s₀ : Smp C}
    {tr : List (SmpAct C × Smp C)} (h₀ : s₀ ∈ (smpSystem C).init)
    (h : (smpSystem C).Run s₀ tr) :
    System.Throughout Smp.OneCpu s₀ tr ∧ System.Steps Smp.StepOk s₀ tr := by
  have hinv : s₀.Inv := Smp.Initial.inv h₀
  have hall : System.Along (fun _ _ => True) s₀ tr := System.along_of_forall (fun _ _ => trivial) _ _
  exact ⟨h.throughout hinv (fun s a t hi hs _ => hi.step hs) (fun s hi => hi.oneCpu) hall,
    h.steps hinv (fun s a t hi hs _ => hi.step hs) (fun s a t hi hs _ => hi.stepOk hs) hall⟩

/-- Two CPUs, and the first process. -/
def twoCpus : Smp (Fin 2) where
  state := Function.update (fun _ => .unused) 0 .runnable
  lock := fun _ => none
  np := fun _ => none
  cproc := fun _ => none
  pc := fun _ => .scan

theorem twoCpus_mem_init : twoCpus ∈ (smpSystem (Fin 2)).init :=
  ⟨⟨0, rfl⟩, fun _ => rfl, fun _ => rfl, fun _ => rfl, fun _ => rfl⟩

/-- The process yields on one CPU, and goes on on the other one. -/
theorem one_process_one_cpu_yield : ∃ tr, (smpSystem (Fin 2)).Run twoCpus tr ∧
    (System.last twoCpus tr).cproc 1 = some 0 ∧
    System.Throughout Smp.OneCpu twoCpus tr ∧ System.Steps Smp.StepOk twoCpus tr := by
  obtain ⟨tr, hrun, hP⟩ := System.exists_run (m := smpSystem (Fin 2)) (fun _ _ _ hs => hs)
    twoCpus [.schedAcquire 0 0, .schedTest 0, .swtch 0, .release 0, .ownAcquire 0, .leave 0 .yield,
      .swtch 0, .unset 0, .release 0, .schedAcquire 1 0, .schedTest 1, .swtch 1, .release 1]
    (fun tr => decide ((System.last twoCpus tr).cproc 1 = some 0)) (by decide)
  exact ⟨tr, hrun, of_decide_eq_true hP, one_process_one_cpu twoCpus_mem_init hrun⟩

end Xv6
