import Xv6.Proc.Image

/-!
# The pages of processes

The invariant of the process table (`ProcInv`): the pages of the allocator, of the
processes (`owned`) and of the other parts of the kernel are exactly the pages `U`, each
of them once, and every process has an address space. A function that works on one
process is specified by what it does to the pages of that process; the others have not
changed (`ProcInv.focus`, `ProcInv.close`).
-/

namespace Xv6

/-- The pages of an address space: those of the page table, and the user pages. -/
def spacePages (m : Mem) (pt : ℕ) : Multiset ℕ :=
  if pt = 0 then 0 else tables m 2 pt + frames (mapping m pt)

/-- The address space of a process. -/
abbrev space (s : Procs) (p : Fin nproc) : ℕ → ℕ := mapping s.vm.mem (s.proc p).pagetable

/-- The page of a trapframe. -/
def trapframePages (tf : ℕ) : Multiset ℕ := if tf = 0 then 0 else {tf}

/-- The pages of a process. -/
def owned (m : Mem) (pr : Proc) : Multiset ℕ :=
  spacePages m pr.pagetable + trapframePages pr.trapframe

/-- The page table `pt` is that of a process. -/
structure HasSpace (k : Kernel) (m : Mem) (pr : Proc) : Prop where
  pagetable : pr.pagetable ≠ 0
  trapframe : pr.trapframe ≠ 0
  wf : PtWf m 2 pr.pagetable
  user : UserMap k pr.trapframe pr.sz (mapping m pr.pagetable)

/-- A slot of the process table: it is free and holds nothing, or it has an address
    space. -/
structure SlotWf (k : Kernel) (m : Mem) (pr : Proc) : Prop where
  free : pr.state = .unused → pr.pagetable = 0 ∧ pr.trapframe = 0 ∧ pr.sz = 0
  live : pr.state ≠ .unused → HasSpace k m pr

/-- The pages of the other parts of the kernel and of the other processes. -/
def rest (s : Procs) (p : Fin nproc) : Multiset ℕ :=
  (s.others : Multiset ℕ) + ∑ q ∈ Finset.univ.erase p, owned s.vm.mem (s.proc q)

/-- Every page is in one place, and every process has an address space. -/
structure ProcInv (k : Kernel) (U : Multiset ℕ) (s : Procs) : Prop where
  own : (s.vm.freelist : Multiset ℕ) + s.others + ∑ p, owned s.vm.mem (s.proc p) = U
  slot : ∀ p, SlotWf k s.vm.mem (s.proc p)
  refreed : s.vm.refreed = false

variable {k : Kernel} {U R : Multiset ℕ} {m m' : Mem} {pr : Proc} {s t : Procs}
  {p q : Fin nproc} {E : VmPanic → Procs → Prop}

@[simp] theorem owned_free (m : Mem) : owned m .free = 0 := rfl

theorem spacePages_congr {pt : ℕ} (h : ∀ b ∈ spacePages m pt, m' b = m b) :
    spacePages m' pt = spacePages m pt := by
  rw [spacePages, spacePages]
  split
  · rfl
  · rename_i hpt
    rw [spacePages, if_neg hpt] at h
    have htab : ∀ b ∈ tables m 2 pt, m' b = m b := fun b hb =>
      h b (Multiset.mem_add.2 (.inl hb))
    rw [tables_congr htab, frames_congr fun v _ => mapping_congr (leaf_congr htab)]

theorem owned_congr (h : ∀ b ∈ owned m pr, m' b = m b) : owned m' pr = owned m pr := by
  rw [owned, owned, spacePages_congr fun b hb => h b (Multiset.mem_add.2 (.inl hb))]

theorem HasSpace.tables_le (h : HasSpace k m pr) : tables m 2 pr.pagetable ≤ owned m pr := by
  rw [owned, spacePages, if_neg h.pagetable, add_assoc]
  exact Multiset.le_add_right _ _

theorem HasSpace.congr (h : HasSpace k m pr) (hm : ∀ b ∈ owned m pr, m' b = m b) :
    HasSpace k m' pr := by
  have htab : ∀ b ∈ tables m 2 pr.pagetable, m' b = m b := fun b hb =>
    hm b (Multiset.mem_of_le h.tables_le hb)
  exact ⟨h.pagetable, h.trapframe, ptWf_congr htab h.wf,
    h.user.congr fun v _ => mapping_congr (leaf_congr htab)⟩

theorem SlotWf.congr (h : SlotWf k m pr) (hm : ∀ b ∈ owned m pr, m' b = m b) : SlotWf k m' pr :=
  ⟨h.free, fun hs => (h.live hs).congr hm⟩

theorem slotWf_free (k : Kernel) (m : Mem) : SlotWf k m .free :=
  ⟨fun _ => ⟨rfl, rfl, rfl⟩, fun h => absurd rfl h⟩

/-! ## One process -/

theorem owned_le_rest (h : q ≠ p) : owned s.vm.mem (s.proc q) ≤ rest s p := by
  refine le_trans ?_ (Multiset.le_add_left _ _)
  exact Finset.single_le_sum (f := fun q => owned s.vm.mem (s.proc q)) (fun _ _ => zero_le)
    (Finset.mem_erase.2 ⟨h, Finset.mem_univ q⟩)

theorem sum_owned (s : Procs) (p : Fin nproc) :
    (s.others : Multiset ℕ) + ∑ q, owned s.vm.mem (s.proc q) =
      owned s.vm.mem (s.proc p) + rest s p := by
  rw [rest, ← Finset.add_sum_erase _ _ (Finset.mem_univ p)]
  abel

/-- The pages, with those of one process apart. -/
theorem ProcInv.pool (h : ProcInv k U s) (p : Fin nproc) :
    Pool U (owned s.vm.mem (s.proc p) + rest s p) s.vm :=
  ⟨by rw [← sum_owned, ← add_assoc]; exact h.own, h.refreed⟩

/-- The address space of one process. -/
theorem ProcInv.focus (h : ProcInv k U s) (hp : (s.proc p).state ≠ .unused) :
    Space U ((s.proc p).trapframe ::ₘ rest s p) (s.proc p).pagetable
      (mapping s.vm.mem (s.proc p).pagetable) s.vm := by
  have hl := (h.slot p).live hp
  have hown := (h.pool p).own
  rw [owned, spacePages, if_neg hl.pagetable, trapframePages, if_neg hl.trapframe] at hown
  refine ⟨?_, fun _ _ => rfl, hl.wf, h.refreed⟩
  rw [← hown, ← Multiset.singleton_add]
  abel

/-- When only the process `p` has changed. -/
theorem ProcInv.close (h : ProcInv k U s) (hproc : ∀ q, q ≠ p → t.proc q = s.proc q)
    (hoth : t.others = s.others) (hown : Pool U (owned t.vm.mem (t.proc p) + rest s p) t.vm)
    (hkeep : Keep (rest s p) s.vm t.vm) (hp : SlotWf k t.vm.mem (t.proc p)) : ProcInv k U t := by
  have hstay : ∀ q, q ≠ p → ∀ b ∈ owned s.vm.mem (s.proc q), t.vm.mem b = s.vm.mem b :=
    fun q hq b hb => hkeep b (Multiset.mem_of_le (owned_le_rest hq) hb)
  have hrest : rest t p = rest s p := by
    rw [rest, rest, hoth]
    congr 1
    refine Finset.sum_congr rfl fun q hq => ?_
    have hq := Finset.ne_of_mem_erase hq
    rw [hproc q hq, owned_congr (hstay q hq)]
  refine ⟨?_, fun q => ?_, hown.refreed⟩
  · rw [add_assoc, sum_owned t p, hrest]
    exact hown.own
  · by_cases hq : q = p
    · rw [hq]
      exact hp
    · rw [hproc q hq]
      exact (h.slot q).congr (hstay q hq)

/-! ## Computations -/

@[simp] theorem wp_liftVm {α : Type} {m : VmM α} {Q : α → Procs → Prop} :
    wp (liftVm m) Q E s ↔
      wp m (fun a vm => Q a { s with vm }) (fun e vm => E e { s with vm }) s.vm := by
  simp only [wp, liftVm]
  cases m s.vm <;> rfl

@[simp] theorem wp_setProc {f : Proc → Proc} {Q : PUnit → Procs → Prop} :
    wp (setProc p f) Q E s ↔
      Q ⟨⟩ { s with proc := Function.update s.proc p (f (s.proc p)) } := Iff.rfl

/-- An address space and the trapframe, as the pages of a process. -/
theorem Space.owned {f : ℕ → ℕ} {vm : Vm} (h : Space U (pr.trapframe ::ₘ R) pr.pagetable f vm)
    (hpt : pr.pagetable ≠ 0) (htf : pr.trapframe ≠ 0) :
    Pool U (Xv6.owned vm.mem pr + R) vm := by
  have hf : frames f = frames (mapping vm.mem pr.pagetable) :=
    frames_congr fun v hv => (h.map v (lt_leafVpn (lt_maxVpn_of_user hv))).symm
  refine ⟨?_, h.refreed⟩
  rw [Xv6.owned, spacePages, if_neg hpt, trapframePages, if_neg htf, ← h.own, hf,
    ← Multiset.singleton_add]
  abel

theorem Space.hasSpace {f : ℕ → ℕ} {vm : Vm} (h : Space U R pr.pagetable f vm)
    (hpt : pr.pagetable ≠ 0) (htf : pr.trapframe ≠ 0) (hf : UserMap k pr.trapframe pr.sz f) :
    HasSpace k vm.mem pr :=
  ⟨hpt, htf, h.wf, hf.congr h.map⟩

/-- When only the address space of the process `p` has changed. -/
theorem ProcInv.closeSpace (h : ProcInv k U s) {f : ℕ → ℕ}
    (hproc : ∀ q, q ≠ p → t.proc q = s.proc q) (hoth : t.others = s.others)
    (hpt : (t.proc p).pagetable ≠ 0) (htf : (t.proc p).trapframe ≠ 0)
    (hstate : (t.proc p).state ≠ .unused)
    (hsp : Space U ((t.proc p).trapframe ::ₘ rest s p) (t.proc p).pagetable f t.vm)
    (hf : UserMap k (t.proc p).trapframe (t.proc p).sz f) (hkeep : Keep (rest s p) s.vm t.vm) :
    ProcInv k U t :=
  h.close hproc hoth (hsp.owned hpt htf) hkeep
    ⟨fun hs => absurd hs hstate, fun _ => hsp.hasSpace hpt htf hf⟩

/-- Storing in a page that is not of the address space. -/
theorem wp_storePage {E : VmPanic → Vm → Prop} {Q : PUnit → Vm → Prop} {vm : Vm} {B : Multiset ℕ}
    {pt r off : ℕ} {f : ℕ → ℕ} {bs : List UInt8} (h : Space U R pt f vm) (hU : Managed k U)
    (hr : r ∈ R) (hB : r ∉ B) (hok : ∀ vm', Space U R pt f vm' → Keep B vm vm' →
      vm'.mem r = (vm.mem r).write off bs → Q ⟨⟩ vm') :
    wp (storePage r off bs) Q E vm := by
  rw [storePage, wp_modify]
  refine hok _ (h.update hU (Multiset.mem_add.2 (.inr hr)) _) (fun b hb => ?_)
    (Function.update_self _ _ _)
  refine Function.update_of_ne ?_ _ _
  rintro rfl
  exact hB hb

/-- Freeing a slot: its pages go to the allocator. -/
theorem wp_freeproc {Q : PUnit → Procs → Prop} (hU : Managed k U)
    (h : Pool U (owned s.vm.mem (s.proc p) + R) s.vm)
    (hlive : (s.proc p).pagetable ≠ 0 → ∃ tf, PtWf s.vm.mem 2 (s.proc p).pagetable ∧
      UserMap k tf (s.proc p).sz (mapping s.vm.mem (s.proc p).pagetable) ∧
      (s.proc p).sz ≤ trapframeVa)
    (hok : ∀ t, t.others = s.others → t.proc p = .free → (∀ q, q ≠ p → t.proc q = s.proc q) →
      Pool U R t.vm → Keep R s.vm t.vm → Q ⟨⟩ t) :
    wp (freeproc k p) Q E s := by
  have hok' : ∀ vm, Pool U R vm → Keep R s.vm vm →
      Q ⟨⟩ { s with vm, proc := Function.update s.proc p .free } := fun vm hvm hk =>
    hok _ rfl (Function.update_self _ _ _) (fun q hq => Function.update_of_ne hq _ _) hvm hk
  -- The page table, when the trapframe has been freed.
  have hspace : ∀ vm, Pool U (spacePages s.vm.mem (s.proc p).pagetable + R) vm →
      Keep (spacePages s.vm.mem (s.proc p).pagetable + R) s.vm vm →
      wp (if (s.proc p).pagetable ≠ 0 then
          liftVm (procFreepagetable k (s.proc p).pagetable (s.proc p).sz)
        else pure ⟨⟩)
        (fun _ t => wp (setProc p fun _ => .free) Q E t) E
        { s with vm, proc := Function.update s.proc p { s.proc p with trapframe := 0 } } := by
    intro vm hpool hkeep
    simp only [wp_setProc]
    split
    · rename_i hpt
      obtain ⟨tf, hwf, huser, hsz⟩ := hlive hpt
      rw [spacePages, if_neg hpt] at hpool hkeep
      have htab : ∀ b ∈ tables s.vm.mem 2 (s.proc p).pagetable, vm.mem b = s.vm.mem b := fun b hb =>
        hkeep b (Multiset.mem_add.2 (.inl (Multiset.mem_add.2 (.inl hb))))
      have hsp : Space U R (s.proc p).pagetable (mapping s.vm.mem (s.proc p).pagetable) vm := by
        refine ⟨?_, fun v _ => mapping_congr (leaf_congr htab), ptWf_congr htab hwf, hpool.refreed⟩
        rw [tables_congr htab, ← hpool.own]
        abel
      rw [wp_liftVm]
      refine wp_procFreepagetable hsp hU huser hsz fun vm' hpool' hk' => ?_
      have := hok' vm' hpool' ((hkeep.of_le (Multiset.le_add_left R _)).trans hk' le_rfl)
      rwa [Function.update_idem]
    · rename_i hpt
      rw [spacePages, if_pos (not_not.1 hpt), zero_add] at hpool hkeep
      rw [wp_pure, Function.update_idem]
      exact hok' vm hpool hkeep
  simp only [freeproc, wp_bind, wp_get]
  rw [owned, trapframePages] at h
  split
  · rename_i htf
    rw [if_neg htf, add_assoc, Multiset.singleton_add, Multiset.add_cons] at h
    rw [wp_liftVm]
    exact wp_kfree_pool h hU fun vm hpool hkeep => hspace vm hpool hkeep
  · rename_i htf
    rw [if_pos (not_not.1 htf), add_zero] at h
    rw [wp_pure, wp_setProc]
    exact hspace s.vm h (.refl _ _)

end Xv6
