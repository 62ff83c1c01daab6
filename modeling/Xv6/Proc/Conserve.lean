import Xv6.Lib.System
import Xv6.Proc.Launch

/-!
# Conservation of pages

The system of all processes: each step is a call of one of them, or another part of the
kernel taking or giving back a page (`machine`). Calls are steps as a whole, and `kalloc`
may fail at any time.

As long as the sizes of the processes are up to `TRAPFRAME`, every page that `kalloc`
manages is in one place (`pages_conserved`). The sizes stay so if every growth by
`sys_sbrk` does; then no call panics in `walk` or in `mappages` (`sizes_legal`). The code
does not check this: a process can grow lazily beyond `TRAPFRAME`, and a page fault beyond
`MAXVA` then panics (`grown_beyond_trapframe`).
-/

namespace Xv6

/-! ## The system -/

/-- What happens. -/
inductive ProcAct
  | userinit
  | fork (p : Fin nproc)
  | exec (p : Fin nproc) (file : Option (List UInt8)) (argv : List (List UInt8))
  | sbrk (p : Fin nproc) (n t : ℤ)
  /-- A page fault at an address. -/
  | fault (p : Fin nproc) (va : ℕ)
  | copyout (p : Fin nproc) (va : ℕ) (src : List UInt8)
  | copyin (p : Fin nproc) (va len : ℕ)
  | exit (p : Fin nproc) (status : ℤ)
  | wait (p : Fin nproc) (addr : ℕ)
  /-- Another part of the kernel takes a page. -/
  | take
  /-- Another part of the kernel gives a page back. -/
  | give (pa : ℕ)

/-- The computation of a step. -/
def ProcAct.run (k : Kernel) : ProcAct → ProcM PUnit
  | .userinit => Xv6.userinit k
  | .fork p => do
    let _ ← kfork k p
  | .exec p file argv => do
    let _ ← kexec k p file argv
  | .sbrk p n t => do
    let _ ← sysSbrk k p n t
  | .fault p va => do
    let s ← get
    let r ← liftVm (vmfault k (s.proc p).sz (s.proc p).pagetable (s.proc p).pagetable va)
    if r = 0 then setProc p fun pr => { pr with killed := true } else pure ⟨⟩
  | .copyout p va src => do
    let s ← get
    let _ ← liftVm (Xv6.copyout k (s.proc p).sz (s.proc p).pagetable (s.proc p).pagetable va src)
  | .copyin p va len => do
    let s ← get
    let _ ← liftVm (Xv6.copyin k (s.proc p).sz (s.proc p).pagetable (s.proc p).pagetable va len)
  | .exit p status => kexit p status
  | .wait p addr => do
    let _ ← kwait k p addr
  | .take => do
    let r ← liftVm kalloc
    if r = 0 then pure ⟨⟩ else modify fun s => { s with others := r :: s.others }
  | .give pa => do
    liftVm (kfree k pa)
    modify fun s => { s with others := s.others.erase pa }

/-- When a step can be taken. The arguments of exec are strings of less than a page, as
    `sys_exec` fetches them. -/
def ProcAct.Enabled (s : Procs) : ProcAct → Prop
  | .userinit => True
  | .fork p => (s.proc p).state.Live
  | .exec p _ argv => (s.proc p).state.Live ∧ ∀ a ∈ argv, a.length < pgsize
  | .sbrk p n t => (s.proc p).state.Live ∧ IsInt n ∧ IsInt t
  | .fault p _ => (s.proc p).state.Live
  | .copyout p _ _ => (s.proc p).state.Live
  | .copyin p _ _ => (s.proc p).state.Live
  | .exit p _ => (s.proc p).state.Live
  | .wait p _ => (s.proc p).state.Live
  | .take => True
  | .give pa => pa ∈ s.others

instance (s : Procs) (a : ProcAct) : Decidable (a.Enabled s) := by
  cases a <;> unfold ProcAct.Enabled <;> infer_instance

/-- The processes, and the panic that has stopped them. -/
structure Machine where
  procs : Procs
  panic : Option VmPanic

/-- The state after a step. -/
def Machine.next (k : Kernel) (m : Machine) (a : ProcAct) : Machine :=
  match a.run k m.procs with
  | .ok _ t => ⟨t, none⟩
  | .error e t => ⟨t, some e⟩

/-- The state after the boot, from the state of the memory before it. -/
def Machine.boot (k : Kernel) (vm : Vm) : Machine :=
  match kinit k { vm with freelist := [], refreed := false } with
  | .ok _ vm => ⟨⟨vm, fun _ => .free, none, 1, []⟩, none⟩
  | .error e vm => ⟨⟨vm, fun _ => .free, none, 1, []⟩, some e⟩

/-- The system of all processes. -/
def machine (k : Kernel) : System Machine ProcAct where
  init := {m | ∃ vm, m = .boot k vm}
  step m a m' := m.panic = none ∧ a.Enabled m.procs ∧ m' = m.next k a

/-- Take a step, if it can be taken. -/
def Machine.exec (k : Kernel) (m : Machine) (a : ProcAct) : Option Machine :=
  if m.panic = none ∧ a.Enabled m.procs then some (m.next k a) else none

theorem Machine.exec_sound (k : Kernel) (m : Machine) (a : ProcAct) (m' : Machine)
    (h : m.exec k a = some m') : (machine k).step m a m' := by
  rw [Machine.exec, Option.ite_none_right_eq_some] at h
  exact ⟨h.1.1, h.1.2, (Option.some.inj h.2).symm⟩

/-! ## The pages that the allocator manages -/

/-- The pages from the end of the kernel to `PHYSTOP`. -/
def managed (k : Kernel) : Multiset ℕ :=
  (((List.range ((physTop - pgRoundUp k.kend) / pgsize)).map fun i =>
    pgRoundUp k.kend + i * pgsize : List ℕ) : Multiset ℕ)

theorem managed_managed (k : Kernel) : Managed k (managed k) := by
  have hk := k.kend_le
  have hr : pgRoundUp k.kend % pgsize = 0 ∧ k.kend ≤ pgRoundUp k.kend := by
    rw [pgRoundUp]
    simp only [physTop, pgsize] at *
    omega
  refine ⟨?_, fun a ha => ?_⟩
  · rw [managed, Multiset.coe_nodup]
    refine List.nodup_range.map fun i j hij => ?_
    simp only [pgsize] at hij
    omega
  · rw [managed, Multiset.mem_coe, List.mem_map] at ha
    obtain ⟨i, hi, rfl⟩ := ha
    rw [List.mem_range] at hi
    simp only [physTop, pgsize] at *
    omega

/-- After the boot all pages are free. -/
theorem wp_kinit {k : Kernel} {E : VmPanic → Vm → Prop} {s : Vm} (hf : s.freelist = [])
    (hr : s.refreed = false) : wp (kinit k) (fun _ t =>
      (t.freelist : Multiset ℕ) = managed k ∧ t.refreed = false) E s := by
  have hM := managed_managed k
  rw [managed] at hM ⊢
  rw [kinit]
  generalize (physTop - pgRoundUp k.kend) / pgsize = n at *
  have hloop := wp_forRange (E := E) (a := 0) (k := n) (s := s)
    (f := fun i => kfree k (pgRoundUp k.kend + i * pgsize))
    (fun i t => (t.freelist : Multiset ℕ) =
      ((List.range i).map fun i => pgRoundUp k.kend + i * pgsize : List ℕ) ∧ t.refreed = false)
    ⟨by rw [hf]; rfl, hr⟩ fun i t _ hi ht => ?_
  · rw [zero_add] at hloop
    exact hloop
  · obtain ⟨h₁, h₂, h₃⟩ := hM.page (pgRoundUp k.kend + i * pgsize)
      (Multiset.mem_coe.2 (List.mem_map.2 ⟨i, List.mem_range.2 (by omega), rfl⟩))
    refine wp_kfree h₁ h₂ h₃ ?_ fun u huf _ hur => ⟨?_, hur.trans ht.2⟩
    · rw [← Multiset.mem_coe, ht.1, Multiset.mem_coe, List.mem_map]
      rintro ⟨j, hj, he⟩
      rw [List.mem_range] at hj
      simp only [pgsize] at he
      omega
    · rw [huf, ← Multiset.cons_coe, ht.1, List.range_succ, List.map_append, List.map_singleton,
        ← Multiset.coe_add, Multiset.coe_singleton, ← Multiset.singleton_add]
      exact add_comm _ _

theorem boot_inv (k : Kernel) (vm : Vm) :
    (Machine.boot k vm).panic = none ∧ ProcInv k (managed k) (Machine.boot k vm).procs ∧
      Legal (Machine.boot k vm).procs := by
  obtain ⟨a, t, he, hf, hr⟩ := (wp_kinit (k := k)
    (s := { vm with freelist := [], refreed := false }) rfl rfl).exists_ok
  rw [Machine.boot, he]
  refine ⟨rfl, ⟨?_, fun p => slotWf_free k _, hr⟩, fun p => Nat.zero_le _⟩
  simp only [owned_free, Finset.sum_const_zero, add_zero, Multiset.coe_nil]
  exact hf

/-! ## One step -/

section

variable {k : Kernel} {U : Multiset ℕ} {s : Procs} {E : VmPanic → Procs → Prop}

/-- A growth up to `TRAPFRAME`. -/
def ProcAct.GrowsLegally (s : Procs) : ProcAct → Prop
  | .sbrk p n _ => (s.proc p).sz + n.toNat ≤ trapframeVa
  | _ => True

instance (s : Procs) (a : ProcAct) : Decidable (a.GrowsLegally s) := by
  cases a <;> unfold ProcAct.GrowsLegally <;> infer_instance

/-- The first process, or none: the code does not check that there is memory for it. -/
theorem wp_userinit (h : ProcInv k U s) (hU : Managed k U) (hs : Legal s)
    (hE : ∀ t : Procs, t.vm.refreed = false → E .null t) :
    wp (userinit k) (fun _ t => Kept k U s t ∧ Legal t) E s := by
  rw [userinit, wp_bind]
  refine wp_allocproc h hU (fun p t hnew => ?_) fun t hno => hE t hno.inv.refreed
  simp only [wp_bind, wp_modify, wp_setProc]
  have hused : (t.proc p).state ≠ .unused := by rw [hnew.used]; decide
  have hinv : ProcInv k U { t with
      initproc := some p
      proc := Function.update t.proc p { t.proc p with state := .runnable } } := by
    refine hnew.inv.of_eq rfl rfl (fun q => ?_) (fun q => ?_) (fun q => ?_) fun q => ?_ <;>
      (by_cases hq : q = p
       · subst hq
         simp [hused]
       · simp only [Function.update_of_ne hq])
  refine ⟨.of_state hinv fun q hq => ?_, fun q => ?_⟩
  · by_cases hqp : q = p
    · rw [hqp]
      simp
    · simp only [Function.update_of_ne hqp, hnew.same q hqp]
      exact hq
  · by_cases hqp : q = p
    · rw [hqp]
      simp [hnew.sz]
    · simp only [Function.update_of_ne hqp, hnew.same q hqp]
      exact hs q

/-- When only the pages of the other parts of the kernel have changed. -/
theorem ProcInv.of_others {t : Procs} (h : ProcInv k U s) (hproc : t.proc = s.proc)
    (hpool : Pool U ((t.others : Multiset ℕ) + ∑ p, owned s.vm.mem (s.proc p)) t.vm)
    (hk : Keep (∑ p, owned s.vm.mem (s.proc p)) s.vm t.vm) : ProcInv k U t := by
  have hstay : ∀ p, ∀ b ∈ owned s.vm.mem (s.proc p), t.vm.mem b = s.vm.mem b := fun p b hb =>
    hk b (Multiset.mem_sum.2 ⟨p, Finset.mem_univ p, hb⟩)
  refine ⟨?_, fun p => ?_, hpool.refreed⟩
  · rw [hproc, Finset.sum_congr rfl fun p _ => owned_congr (hstay p), add_assoc]
    exact hpool.own
  · rw [hproc]
    exact (h.slot p).congr (hstay p)

theorem wp_take (h : ProcInv k U s) (hU : Managed k U) :
    wp (ProcAct.take.run k) (fun _ t => ProcInv k U t ∧ t.proc = s.proc) E s := by
  have hpool : Pool U ((s.others : Multiset ℕ) + ∑ p, owned s.vm.mem (s.proc p)) s.vm :=
    ⟨by rw [← add_assoc]; exact h.own, h.refreed⟩
  rw [ProcAct.run, wp_bind, wp_liftVm]
  refine wp_kalloc_pool hpool hU (fun vm hvm hm => ?_) fun r vm hr hrR hvm hm => ?_
  · rw [if_pos rfl, wp_pure]
    exact ⟨h.of_others rfl hvm fun b _ => by rw [hm], rfl⟩
  · rw [if_neg hr.pos.ne', wp_modify]
    refine ⟨h.of_others rfl ?_ fun b hb => hm b ?_, rfl⟩
    · refine ⟨?_, hvm.refreed⟩
      rw [← hvm.own, ← Multiset.cons_coe, Multiset.cons_add]
    · rintro rfl
      exact hrR (Multiset.mem_add.2 (.inr hb))

theorem wp_give {pa : ℕ} (h : ProcInv k U s) (hU : Managed k U) (hpa : pa ∈ s.others) :
    wp ((ProcAct.give pa).run k) (fun _ t => ProcInv k U t ∧ t.proc = s.proc) E s := by
  have hoth : (s.others : Multiset ℕ) = pa ::ₘ (s.others.erase pa : List ℕ) :=
    (Multiset.coe_eq_coe.2 (List.perm_cons_erase hpa))
  have hpool : Pool U (pa ::ₘ (((s.others.erase pa : List ℕ) : Multiset ℕ) +
      ∑ p, owned s.vm.mem (s.proc p))) s.vm := by
    refine ⟨?_, h.refreed⟩
    rw [← Multiset.cons_add, ← hoth, ← add_assoc]
    exact h.own
  rw [ProcAct.run, wp_bind, wp_liftVm]
  refine wp_kfree_pool hpool hU fun vm hvm hk => ?_
  rw [wp_modify]
  exact ⟨h.of_others rfl hvm (hk.of_le (Multiset.le_add_left _ _)), rfl⟩

/-- A step keeps the invariant; it panics only where it grows beyond `TRAPFRAME`, where
    there is no memory for the first process, and where that process exits. -/
theorem wp_run {a : ProcAct} (h : ProcInv k U s) (hU : Managed k U) (hs : Legal s)
    (ha : a.Enabled s) (hE : ∀ e (t : Procs), t.vm.refreed = false →
      e = .null ∨ e = .initExiting ∨ e = .remap ∧ ¬a.GrowsLegally s → E e t) :
    wp (a.run k) (fun _ t => Kept k U s t ∧ (a.GrowsLegally s → Legal t)) E s := by
  have hself : Kept k U s s := .of_state h fun _ h => h
  cases a with
  | userinit =>
    exact (wp_userinit h hU hs fun t ht => hE _ t ht (.inl rfl)).mono (fun _ t ht => ⟨ht.1, fun _ => ht.2⟩)
      fun _ _ he => he
  | fork p =>
    rw [ProcAct.run, wp_bind]
    exact wp_kfork h hU hs ha.ne_unused fun _ t ht hl => ⟨ht, fun _ => hl⟩
  | exec p file argv =>
    rw [ProcAct.run, wp_bind]
    refine wp_kexec h hU (hs p) ha.1.ne_unused ha.2 (fun _ _ t _ ht hsame hx => ⟨ht, fun _ q => ?_⟩)
      fun t ht hundo => ⟨ht, fun _ q => ?_⟩
    · by_cases hq : q = p
      · rw [hq]
        exact hx.le
      · rw [hsame q hq]
        exact hs q
    · rw [hundo.proc]
      exact hs q
  | sbrk p n m =>
    rw [ProcAct.run, wp_bind]
    refine wp_sysSbrk h hU (hs p) ha.1.ne_unused ha.2.1 (fun _ t ht hd => ⟨ht, hd.legal hs⟩)
      fun _ hbad t ht => ?_
    exact hE _ t ht (.inr (.inr ⟨rfl, by rw [ProcAct.GrowsLegally]; omega⟩))
  | fault p va =>
    rw [ProcAct.run]
    simp only [wp_bind, wp_get]
    refine wp_vmfault_proc h hU (hs p) ha.ne_unused fun r t ht hproc _ => ?_
    have hlt : Legal t := fun q => by rw [hproc]; exact hs q
    split
    · rw [wp_setProc]
      -- Only a flag changes.
      have hq : ∀ q, (Function.update t.proc p { t.proc p with killed := true } q).pagetable =
          (t.proc q).pagetable ∧
          (Function.update t.proc p { t.proc p with killed := true } q).trapframe =
          (t.proc q).trapframe ∧
          (Function.update t.proc p { t.proc p with killed := true } q).sz = (t.proc q).sz ∧
          (Function.update t.proc p { t.proc p with killed := true } q).state =
          (t.proc q).state := by
        intro q
        by_cases hqp : q = p
        · subst hqp
          simp
        · simp only [Function.update_of_ne hqp, and_self]
      refine ⟨.of_state (ht.inv.of_eq rfl rfl (fun q => (hq q).1) (fun q => (hq q).2.1)
        (fun q => (hq q).2.2.1) fun q => by rw [(hq q).2.2.2]) fun q hs => ?_, fun _ q => ?_⟩
      · rw [(hq q).2.2.2, hproc]
        exact hs
      · rw [(hq q).2.2.1]
        exact hlt q
    · exact ⟨ht, fun _ => hlt⟩
  | copyout p va src =>
    rw [ProcAct.run]
    simp only [wp_bind, wp_get]
    refine wp_copyout_proc h hU hs ha.ne_unused fun _ t ht hproc _ => ⟨ht, fun _ q => ?_⟩
    rw [hproc]
    exact hs q
  | copyin p va len =>
    rw [ProcAct.run]
    simp only [wp_bind, wp_get]
    refine wp_copyin_proc h hU hs ha.ne_unused fun _ t ht hproc => ⟨ht, fun _ q => ?_⟩
    rw [hproc]
    exact hs q
  | exit p status =>
    exact wp_kexit h hs ha.ne_unused (fun t ht hl => ⟨ht, fun _ => hl⟩) fun _ =>
      hE _ s h.refreed (.inr (.inl rfl))
  | wait p addr =>
    rw [ProcAct.run, wp_bind]
    exact wp_kwait h hU hs ha.ne_unused ha.ne_zombie fun _ t ht hl =>
      ⟨ht, fun _ => hl⟩
  | take =>
    refine (wp_take h hU).mono (fun _ t ht => ?_) fun _ _ he => he
    exact ⟨.of_state ht.1 fun q hq => by rwa [ht.2], fun _ q => by rw [ht.2]; exact hs q⟩
  | give pa =>
    refine (wp_give h hU ha).mono (fun _ t ht => ?_) fun _ _ he => he
    exact ⟨.of_state ht.1 fun q hq => by rwa [ht.2], fun _ q => by rw [ht.2]; exact hs q⟩

end

/-! ## Whole runs -/

instance (s : Procs) : Decidable (Legal s) :=
  inferInstanceAs (Decidable (∀ p, (s.proc p).sz ≤ trapframeVa))

/-- A machine with 24 pages. -/
def smallKernel : Kernel where
  kend := physTop - 24 * pgsize
  trampoline := 0x80008000
  kend_pos := by decide
  kend_le := by decide
  trampoline_page := ⟨by decide, by decide, by decide⟩

/-- Its memory before the boot. -/
def smallVm : Vm := ⟨fun _ => .fill 0, [], fun _ => false, 0, false⟩

/-- Every page is in one place: the free list, the pages of the page table, the user pages
    or the trapframe of one process, or the pages of the other parts of the kernel; and user
    pages are readable and below the size of their process. -/
structure Conserved (k : Kernel) (s : Procs) : Prop where
  nodup : (managed k).Nodup
  own : (s.vm.freelist : Multiset ℕ) + s.others +
    ∑ p, (spacePages s.vm.mem (s.proc p).pagetable + trapframePages (s.proc p).trapframe) =
      managed k
  leaf : ∀ p v, (s.proc p).pagetable ≠ 0 → v < userVpn →
    pteV (mapping s.vm.mem (s.proc p).pagetable v) = true →
    pteR (mapping s.vm.mem (s.proc p).pagetable v) = true ∧
      v * pgsize < pgRoundUp (s.proc p).sz

/-- A slot that became free gave the pages of its process back. -/
def GivesBack (m : Machine) (_ : ProcAct) (m' : Machine) : Prop :=
  m'.panic = none → ∀ p, (m.procs.proc p).state ≠ .unused → (m'.procs.proc p).state = .unused →
    ∀ b ∈ owned m.procs.vm.mem (m.procs.proc p), b ∈ m'.procs.vm.freelist

/-- The invariant of the system: that of the processes, unless they have panicked. -/
structure MachineInv (k : Kernel) (m : Machine) : Prop where
  refreed : m.procs.vm.refreed = false
  panic : m.panic ≠ some .freewalk
  inv : m.panic = none → ProcInv k (managed k) m.procs

/-- What a step does. -/
theorem machine_step {k : Kernel} {m m' : Machine} {a : ProcAct} (h : MachineInv k m)
    (hs : Legal m.procs) (hstep : (machine k).step m a m') :
    MachineInv k m' ∧ GivesBack m a m' ∧
      (a.GrowsLegally m.procs → (m'.panic = none → Legal m'.procs) ∧
        (∀ e, m'.panic = some e → e = .null ∨ e = .initExiting)) := by
  obtain ⟨hn, hen, rfl⟩ := hstep
  have hwp := wp_run (E := fun e (t : Procs) => t.vm.refreed = false ∧
      (e = .null ∨ e = .initExiting ∨ e = .remap ∧ ¬a.GrowsLegally m.procs)) (h.inv hn)
    (managed_managed k) hs hen fun _ _ h₁ h₂ => ⟨h₁, h₂⟩
  rw [Machine.next]
  cases hr : a.run k m.procs with
  | ok r t =>
    obtain ⟨hk, hl⟩ := hwp.of_ok hr
    exact ⟨⟨hk.inv.refreed, by simp, fun _ => hk.inv⟩, fun _ => hk.released,
      fun hg => ⟨fun _ => hl hg, fun e he => by cases he⟩⟩
  | error e t =>
    rw [wp, hr] at hwp
    obtain ⟨hf, he⟩ := hwp
    refine ⟨⟨hf, ?_, fun hc => by cases hc⟩, (fun hc => by cases hc), fun hg =>
      ⟨(fun hc => by cases hc), fun e' he' => ?_⟩⟩
    · rcases he with rfl | rfl | ⟨rfl, -⟩ <;> simp
    · obtain rfl : e = e' := Option.some.inj he'
      rcases he with h | h | h
      · exact .inl h
      · exact .inr h
      · exact absurd hg h.2

theorem MachineInv.conserved {k : Kernel} {m : Machine} (h : MachineInv k m)
    (hs : Legal m.procs) : m.panic = none → Conserved k m.procs := by
  intro hn
  have hinv := h.inv hn
  refine ⟨(managed_managed k).nodup, hinv.own, fun p v hpt hv hV => ?_⟩
  have hun : (m.procs.proc p).state ≠ .unused := fun hc => hpt ((hinv.slot p).free hc).1
  have hl := (hinv.slot p).live hun
  have hsz := hs p
  refine ⟨hl.user.readable v hv hV, ?_⟩
  rw [pgRoundUp_eq (by simp only [trapframeVa, trampolineVa, maxVa, pgsize] at hsz ⊢; omega)]
  exact Nat.mul_lt_mul_of_pos_right (hl.user.below v hv hV) pgsize_pos

theorem machineInv_boot (k : Kernel) (vm : Vm) : MachineInv k (.boot k vm) := by
  obtain ⟨hn, hinv, -⟩ := boot_inv k vm
  exact ⟨hinv.refreed, by rw [hn]; simp, fun _ => hinv⟩

/-- As long as the sizes of all processes are up to `TRAPFRAME`: every page is in one place,
    no page is freed that is free, `freewalk` does not panic, and when a slot becomes free
    the pages of its process are on the free list. -/
theorem pages_conserved {k : Kernel} {m₀ : Machine} {tr : List (ProcAct × Machine)}
    (h₀ : m₀ ∈ (machine k).init) (h : (machine k).Run m₀ tr)
    (hs : System.Throughout (fun m => Legal m.procs) m₀ tr) :
    System.Throughout (fun m => m.procs.vm.refreed = false ∧ m.panic ≠ some .freewalk ∧
      (m.panic = none → Conserved k m.procs)) m₀ tr ∧ System.Steps GivesBack m₀ tr := by
  obtain ⟨vm, rfl⟩ := h₀
  have hinv := machineInv_boot k vm
  have hkeep : ∀ m a m', MachineInv k m → (machine k).step m a m' → Legal m.procs →
      MachineInv k m' := fun m a m' hm hstep hl => (machine_step hm hl hstep).1
  refine ⟨?_, h.steps hinv hkeep (fun m a m' hm hstep hl => (machine_step hm hl hstep).2.1)
    hs.along⟩
  -- The state is legal, so that the invariant says where the user pages are.
  induction h with
  | nil => exact ⟨hinv.refreed, hinv.panic, hinv.conserved hs⟩
  | cons hrun hstep ih =>
    have hm := hkeep _ _ _ (hrun.invariant hinv hkeep hs.2.along) hstep
      (System.Throughout.along hs).1
    exact ⟨⟨hm.refreed, hm.panic, hm.conserved hs.1⟩, ih hs.2⟩

set_option maxRecDepth 100000 in
theorem run_lazy_child : ∃ tr, (machine smallKernel).Run (.boot smallKernel smallVm) tr ∧
    tr.length = 6 ∧
    System.Throughout (fun m => Legal m.procs) (.boot smallKernel smallVm) tr ∧
    System.Along (fun m a => a.GrowsLegally m.procs) (.boot smallKernel smallVm) tr := by
  obtain ⟨tr, hrun, hP⟩ := System.exists_run (Machine.exec_sound smallKernel)
    (.boot smallKernel smallVm)
    [.userinit, .sbrk 0 4096 1, .fork 0, .sbrk 1 4096 2, .fault 1 4096, .exit 1 0]
    (fun tr => tr.length = 6 ∧
      System.Throughout (fun m => Legal m.procs) (.boot smallKernel smallVm) tr ∧
      System.Along (fun m a => a.GrowsLegally m.procs) (.boot smallKernel smallVm) tr)
    (by decide +kernel)
  exact ⟨tr, hrun, of_decide_eq_true hP⟩

/-- A process grows, forks, and the child grows lazily, touches the new page and exits. -/
theorem pages_conserved_lazy_child : ∃ m₀ ∈ (machine smallKernel).init, ∃ tr,
    (machine smallKernel).Run m₀ tr ∧ tr.length = 6 ∧
    System.Throughout (fun m => m.procs.vm.refreed = false ∧ m.panic ≠ some .freewalk ∧
      (m.panic = none → Conserved smallKernel m.procs)) m₀ tr ∧ System.Steps GivesBack m₀ tr := by
  obtain ⟨tr, hrun, hlen, hs, -⟩ := run_lazy_child
  exact ⟨_, ⟨smallVm, rfl⟩, tr, hrun, hlen, pages_conserved ⟨smallVm, rfl⟩ hrun hs⟩

/-- In every run of steps that grow up to `TRAPFRAME` at most, the sizes of all processes
    stay up to `TRAPFRAME`, and no step panics in `walk` or `mappages`. -/
theorem sizes_legal {k : Kernel} {m₀ : Machine} {tr : List (ProcAct × Machine)}
    (h₀ : m₀ ∈ (machine k).init) (h : (machine k).Run m₀ tr)
    (hg : System.Along (fun m a => a.GrowsLegally m.procs) m₀ tr) :
    System.Throughout (fun m => (m.panic = none → Legal m.procs) ∧ m.panic ≠ some .walk ∧
      m.panic ≠ some .remap) m₀ tr := by
  obtain ⟨vm, rfl⟩ := h₀
  obtain ⟨hn, -, hl⟩ := boot_inv k vm
  refine h.throughout (Q := fun m => MachineInv k m ∧ (m.panic = none → Legal m.procs) ∧
    ∀ e, m.panic = some e → e = .null ∨ e = .initExiting)
    ⟨machineInv_boot k vm, fun _ => hl, fun e he => by rw [hn] at he; cases he⟩
    (fun m a m' hm hstep ha => ?_) (fun m hm => ?_) hg
  · obtain ⟨h₁, -, h₂⟩ := machine_step hm.1 (hm.2.1 hstep.1) hstep
    exact ⟨h₁, h₂ ha⟩
  · refine ⟨hm.2.1, fun hc => ?_, fun hc => ?_⟩
    · rcases hm.2.2 _ hc with h | h <;> cases h
    · rcases hm.2.2 _ hc with h | h <;> cases h

/-- A child grows lazily and touches the page. -/
theorem sizes_legal_lazy_child : ∃ m₀ ∈ (machine smallKernel).init, ∃ tr,
    (machine smallKernel).Run m₀ tr ∧ tr.length = 6 ∧
    System.Throughout (fun m => (m.panic = none → Legal m.procs) ∧ m.panic ≠ some .walk ∧
      m.panic ≠ some .remap) m₀ tr := by
  obtain ⟨tr, hrun, hlen, -, hg⟩ := run_lazy_child
  exact ⟨_, ⟨smallVm, rfl⟩, tr, hrun, hlen, sizes_legal ⟨smallVm, rfl⟩ hrun hg⟩

set_option maxRecDepth 100000 in
/-- A process grows lazily by `2^31 - 1` bytes, 129 times, and touches an address beyond
    `MAXVA` that is below its size: the fault handler panics in `walk`. -/
theorem grown_beyond_trapframe : ∃ m₀ ∈ (machine smallKernel).init, ∃ tr,
    (machine smallKernel).Run m₀ tr ∧
    ¬System.Throughout (fun m => (m.panic = none → Legal m.procs) ∧ m.panic ≠ some .walk ∧
      m.panic ≠ some .remap) m₀ tr := by
  obtain ⟨tr, hrun, hP⟩ := System.exists_run (Machine.exec_sound smallKernel)
    (.boot smallKernel smallVm)
    ([.userinit] ++ List.replicate 129 (.sbrk 0 (2 ^ 31 - 1) 2) ++ [.fault 0 (2 ^ 38)])
    (fun tr => (System.last (.boot smallKernel smallVm) tr).panic = some .walk)
    (by decide +kernel)
  have hwalk := of_decide_eq_true hP
  refine ⟨_, ⟨smallVm, rfl⟩, tr, hrun, fun ht => ?_⟩
  cases tr with
  | nil => exact ht.2.1 hwalk
  | cons x tr => exact ht.1.2.1 hwalk

end Xv6
