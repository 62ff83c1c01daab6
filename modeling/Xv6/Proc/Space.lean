import Xv6.Proc.Exec
import Xv6.Vm.Copy

/-!
# Address spaces of processes

The map of a process (`UserMap`): the pages of the trampoline and of the trapframe, and
user pages below its size, readable all of them. `proc_pagetable` makes one without user
pages and `proc_freepagetable` takes one apart (`wp_procPagetable`,
`wp_procFreepagetable`); the functions that change the user pages keep it one.
-/

namespace Xv6

variable {k : Kernel} {E : VmPanic → Vm → Prop} {s t u : Vm} {U R : Multiset ℕ}
  {pt v w n sz pa perm tf : ℕ} {f g : ℕ → ℕ}

/-- The number of the page of the trampoline. -/
abbrev trampolineVpn : ℕ := trampolineVa / pgsize

theorem trampolineVpn_eq : trampolineVpn = userVpn + 1 := by
  norm_num [trampolineVpn, userVpn, trapframeVa, trampolineVa, maxVa, pgsize]

theorem maxVpn_eq : maxVpn = userVpn + 2 := by
  norm_num [maxVpn, userVpn, trapframeVa, trampolineVa, maxVa, pgsize]

/-- The map of a process with the size `sz` and the trapframe `tf`. -/
structure UserMap (k : Kernel) (tf sz : ℕ) (f : ℕ → ℕ) : Prop where
  trapframe : f userVpn = mkPte tf (permR ||| permW)
  trampoline : f trampolineVpn = mkPte k.trampoline (permR ||| permX)
  above : ∀ v, maxVpn ≤ v → v < leafVpn → f v = 0
  readable : ∀ v < userVpn, pteV (f v) = true → pteR (f v) = true
  below : ∀ v < userVpn, pteV (f v) = true → v < npages sz

theorem UserMap.userOnly (h : UserMap k tf sz f) : UserOnly f := by
  intro w hw hwm
  rw [maxVpn_eq] at hwm
  obtain rfl | rfl : w = userVpn ∨ w = trampolineVpn := by
    rw [trampolineVpn_eq]
    omega
  · rw [h.trapframe, pteU_mkPte, pteU]
    decide
  · rw [h.trampoline, pteU_mkPte, pteU]
    decide

theorem UserMap.trapframe_valid (h : UserMap k tf sz f) : pteV (f userVpn) = true := by
  rw [h.trapframe, pteV_mkPte]

theorem UserMap.congr (h : UserMap k tf sz f) (hfg : ∀ v < leafVpn, g v = f v) :
    UserMap k tf sz g := by
  have hm := maxVpn_eq
  have hlt : ∀ v, v < maxVpn → v < leafVpn := fun v => lt_leafVpn
  refine ⟨?_, ?_, fun v h₁ h₂ => by rw [hfg v h₂, h.above v h₁ h₂], fun v hv => ?_, fun v hv => ?_⟩
  · rw [hfg _ (hlt _ (by omega)), h.trapframe]
  · rw [hfg _ (hlt _ (by rw [trampolineVpn_eq]; omega)), h.trampoline]
  · rw [hfg v (hlt v (by omega))]
    exact h.readable v hv
  · rw [hfg v (hlt v (by omega))]
    exact h.below v hv

/-- Page faults keep the map of a process one. -/
theorem UserMap.faulted (h : UserMap k tf sz f) (hsz : sz ≤ trapframeVa) (hg : Faulted sz f g) :
    UserMap k tf sz g := by
  have hb := npages_le_user hsz
  have hsame : ∀ v, npages sz ≤ v → g v = f v := by
    intro v hv
    rcases hg v with e | ⟨-, hlt, -⟩
    · exact e
    · omega
  refine ⟨?_, ?_, fun v h₁ h₂ => ?_, fun v hv hV => ?_, fun v hv hV => ?_⟩
  · rw [hsame _ hb, h.trapframe]
  · rw [hsame _ (by rw [trampolineVpn_eq]; omega), h.trampoline]
  · rw [hsame _ (by rw [maxVpn_eq] at h₁; omega), h.above v h₁ h₂]
  · rcases hg v with e | ⟨-, -, r, -, e⟩
    · rw [e] at hV ⊢
      exact h.readable v hv hV
    · rw [e, pteR_mkPte, pteR]
      decide
  · rcases hg v with e | ⟨-, hlt, -⟩
    · rw [e] at hV
      exact h.below v hv hV
    · exact hlt

/-! ## Making and freeing page tables -/

/-- The pages `U` are those of the allocator, and `R`. -/
structure Pool (U R : Multiset ℕ) (s : Vm) : Prop where
  own : (s.freelist : Multiset ℕ) + R = U
  refreed : s.refreed = false

/-- `kalloc` fails, or hands out a page. -/
theorem wp_kalloc_pool {Q : ℕ → Vm → Prop} (h : Pool U R s) (hU : Managed k U)
    (hnone : ∀ t, Pool U R t → t.mem = s.mem → Q 0 t)
    (hsome : ∀ r t, PageAddr r → r ∉ R → Pool U (r ::ₘ R) t → (∀ b, b ≠ r → t.mem b = s.mem b) →
      Q r t) : wp kalloc Q E s := by
  refine wp_kalloc (fun t hm hf hr => ?_) fun r t hf hm hr => ?_
  · exact hnone t ⟨by rw [hf]; exact h.own, hr.trans h.refreed⟩ hm
  · have hown := h.own
    rw [hf, ← Multiset.cons_coe, Multiset.cons_add, ← Multiset.add_cons] at hown
    have hrU : r ∈ U := hown ▸ Multiset.mem_add.2 (.inr (Multiset.mem_cons_self r R))
    have hnd := hU.nodup
    rw [← hown, Multiset.nodup_add, Multiset.nodup_cons] at hnd
    exact hsome r t (hU.pageAddr hrU) hnd.2.1.1 ⟨hown, hr.trans h.refreed⟩ hm

/-- `kfree` takes a page back. -/
theorem wp_kfree_pool {Q : PUnit → Vm → Prop} (h : Pool U (pa ::ₘ R) s) (hU : Managed k U)
    (hok : ∀ t, Pool U R t → Keep R s t → Q ⟨⟩ t) : wp (kfree k pa) Q E s := by
  have hown := h.own
  have hpa : pa ∈ U := hown ▸ Multiset.mem_add.2 (.inr (Multiset.mem_cons_self pa R))
  obtain ⟨h₁, h₂, h₃⟩ := hU.page pa hpa
  have hnd := hU.nodup
  rw [← hown, Multiset.nodup_add, Multiset.nodup_cons] at hnd
  have hfl : pa ∉ s.freelist := fun hf =>
    Multiset.disjoint_left.1 hnd.2.2 (Multiset.mem_coe.2 hf) (Multiset.mem_cons_self pa R)
  refine wp_kfree h₁ h₂ h₃ hfl fun t hf hm hr =>
    hok t ⟨?_, hr.trans h.refreed⟩ fun b hb => hm b ?_
  · rw [hf, ← Multiset.cons_coe, Multiset.cons_add, ← Multiset.add_cons]
    exact hown
  · rintro rfl
    exact hnd.2.1.1 hb

/-- An empty page table, or nothing. -/
theorem wp_uvmcreate {Q : ℕ → Vm → Prop} (h : Pool U R s) (hU : Managed k U)
    (hok : ∀ pt t, pt ≠ 0 → Space U R pt (fun _ => 0) t → Keep R s t → Q pt t)
    (hfail : ∀ t, Pool U R t → Keep R s t → Q 0 t) : wp uvmcreate Q E s := by
  rw [uvmcreate, wp_bind]
  refine wp_kalloc_pool h hU (fun t ht hm => ?_) fun r t hr hrR ht hm => ?_
  · rw [if_pos rfl, wp_pure]
    exact hfail t ht fun b _ => by rw [hm]
  · simp only [if_neg hr.pos.ne', memset, wp_bind, wp_modify, wp_pure]
    have hz : Function.update t.mem r (.fill 0) r = .fill 0 := Function.update_self _ _ _
    refine hok r _ hr.pos.ne' ⟨?_, fun v _ => ?_, ptWf_of_zero hz, ht.refreed⟩ fun b hb => ?_
    · show (t.freelist : Multiset ℕ) + tables (Function.update t.mem r (.fill 0)) 2 r + _ + _ = _
      rw [tables_of_zero hz, frames_zero, add_zero, add_assoc, Multiset.singleton_add]
      exact ht.own
    · show mapping (Function.update t.mem r (.fill 0)) r v = 0
      rw [mapping, leaf_of_zero hz, pteV_zero]
      rfl
    · have hbr : b ≠ r := by
        rintro rfl
        exact hrR hb
      exact (Function.update_of_ne hbr _ _).trans (hm b hbr)

/-- Mapping a page above the user pages. -/
theorem wp_mappages_keep {Q : Bool → Vm → Prop} (h : Space U R pt f s) (hU : Managed k U)
    (hv : userVpn ≤ v) (hvm : v < maxVpn) (hpa : PageAddr pa) (hperm : perm < 1024) (h0 : f v = 0)
    (hok : ∀ t, Space U R pt (Function.update f v (mkPte pa perm)) t → Keep R s t → Q true t)
    (hfail : ∀ t, Space U R pt f t → Keep R s t → Q false t) :
    wp (mappages pt (v * pgsize) pgsize pa perm) Q E s := by
  refine wp_mappages (h.apart hU) hvm hpa.lt hperm (fun t ht _ => ?_) (fun t ht => ?_)
    fun t _ hval => ?_
  · have ht' := ht.congr (g := Function.update f v (mkPte pa perm)) fun w hw => by
      by_cases hwv : w = v
      · rw [hwv, Function.update_self, Function.update_self]
      · rw [Function.update_of_ne hwv, Function.update_of_ne hwv, h.map w hw]
    have hfr := frames_update_of_le (f := f) hv (mkPte pa perm)
    obtain ⟨hsp, hkeep⟩ := h.remaps R hU ht' (by rw [add_zero, hfr])
    exact hok t hsp (hkeep.of_le (Multiset.le_add_left R _))
  · obtain ⟨hsp, hkeep⟩ := h.remaps R hU (ht.congr h.map) (add_zero _)
    exact hfail t hsp (hkeep.of_le (Multiset.le_add_left R _))
  · rw [h.map v (lt_leafVpn hvm), h0, pteV_zero] at hval
    cases hval

/-- The trampoline and the trapframe, and no user page. -/
def emptyMap (k : Kernel) (tf : ℕ) : ℕ → ℕ :=
  Function.update (Function.update (fun _ => 0) trampolineVpn (mkPte k.trampoline (permR ||| permX)))
    userVpn (mkPte tf (permR ||| permW))

theorem emptyMap_user (hv : v < userVpn) : emptyMap k tf v = 0 := by
  rw [emptyMap, Function.update_of_ne (by omega),
    Function.update_of_ne (by rw [trampolineVpn_eq]; omega)]

theorem userMap_emptyMap (k : Kernel) (tf : ℕ) : UserMap k tf 0 (emptyMap k tf) := by
  have ht := trampolineVpn_eq
  have hzero : ∀ v, v ≠ userVpn → v ≠ trampolineVpn → emptyMap k tf v = 0 := fun v h₁ h₂ => by
    rw [emptyMap, Function.update_of_ne h₁, Function.update_of_ne h₂]
  have hval : ∀ v < userVpn, pteV (emptyMap k tf v) = true → False := by
    intro v hv hV
    rw [emptyMap_user hv, pteV_zero] at hV
    cases hV
  refine ⟨Function.update_self _ _ _, ?_, fun v hv _ => ?_, fun v hv hV => ?_, fun v hv hV => ?_⟩
  · rw [emptyMap, Function.update_of_ne (by omega), Function.update_self]
  · rw [maxVpn_eq] at hv
    exact hzero v (by omega) (by omega)
  · exact (hval v hv hV).elim
  · exact (hval v hv hV).elim

/-- `proc_pagetable` makes an address space without user pages, or gives back what it
    took. -/
theorem wp_procPagetable {Q : ℕ → Vm → Prop} (h : Pool U R s) (hU : Managed k U)
    (htf : PageAddr tf)
    (hok : ∀ pt t, pt ≠ 0 → Space U R pt (emptyMap k tf) t → Keep R s t → Q pt t)
    (hfail : ∀ t, Pool U R t → Keep R s t → Q 0 t) : wp (procPagetable k tf) Q E s := by
  have ht := trampolineVpn_eq
  have hm := maxVpn_eq
  have hva : trampolineVa = trampolineVpn * pgsize := by
    norm_num [trampolineVpn, trampolineVa, maxVa, pgsize]
  have hva' : trapframeVa = userVpn * pgsize := by
    norm_num [userVpn, trapframeVa, trampolineVa, maxVa, pgsize]
  rw [procPagetable, wp_bind]
  refine wp_uvmcreate h hU (fun pt t hpt ht₀ hk => ?_) fun t ht hk => ?_
  · -- Freeing the page table when a page cannot be mapped.
    have hback : ∀ t, Space U R pt (fun _ => 0) t → Keep R s t →
        wp (uvmfree k pt 0) (fun _ => Q 0) E t := fun t ht hk =>
      wp_uvmfree ht hU (by omega) (fun _ _ _ => rfl) fun u hu hr hku =>
        hfail u ⟨hu, hr⟩ (hk.trans hku le_rfl)
    rw [if_neg hpt, hva, hva', wp_bind]
    refine wp_mappages_keep ht₀ hU (by omega) (by omega) k.trampoline_page (by decide) rfl
      (fun t₁ ht₁ hk₁ => ?_) fun t₁ ht₁ hk₁ => ?_
    · rw [if_pos rfl, wp_bind]
      refine wp_mappages_keep ht₁ hU le_rfl (by omega) htf (by decide)
        (by rw [Function.update_of_ne (by omega)]) (fun t₂ ht₂ hk₂ => ?_) fun t₂ ht₂ hk₂ => ?_
      · rw [if_pos rfl, wp_pure]
        exact hok pt t₂ hpt ht₂ ((hk.trans hk₁ le_rfl).trans hk₂ le_rfl)
      · simp only [Bool.false_eq_true, if_false, wp_bind, wp_pure]
        refine wp_uvmunmap_keep ht₂ hU (by omega) (by omega) fun t₃ ht₃ hk₃ => ?_
        have hz : Function.update (Function.update (fun _ => 0) trampolineVpn
            (mkPte k.trampoline (permR ||| permX))) trampolineVpn 0 = fun _ => (0 : ℕ) := by
          rw [Function.update_idem]
          exact Function.update_eq_self _ _
        rw [hz] at ht₃
        exact hback t₃ ht₃ (((hk.trans hk₁ le_rfl).trans hk₂ le_rfl).trans hk₃
          (Multiset.le_add_left R _))
    · simp only [Bool.false_eq_true, if_false, wp_bind, wp_pure]
      exact hback t₁ ht₁ (hk.trans hk₁ le_rfl)
  · rw [if_pos rfl, wp_pure]
    exact hfail t ht hk

/-- `proc_freepagetable` frees all pages of an address space. -/
theorem wp_procFreepagetable {Q : PUnit → Vm → Prop} (h : Space U R pt f s) (hU : Managed k U)
    (hf : UserMap k tf sz f) (hsz : sz ≤ trapframeVa)
    (hok : ∀ t, Pool U R t → Keep R s t → Q ⟨⟩ t) : wp (procFreepagetable k pt sz) Q E s := by
  have ht := trampolineVpn_eq
  have hm := maxVpn_eq
  have hva : trampolineVa = trampolineVpn * pgsize := by
    norm_num [trampolineVpn, trampolineVa, maxVa, pgsize]
  have hva' : trapframeVa = userVpn * pgsize := by
    norm_num [userVpn, trapframeVa, trampolineVa, maxVa, pgsize]
  have hle := Multiset.le_add_left R (frames f)
  simp only [procFreepagetable, wp_bind]
  rw [hva, hva']
  refine wp_uvmunmap_keep h hU (by omega) (by omega) fun t₁ ht₁ hk₁ => ?_
  refine wp_uvmunmap_keep ht₁ hU le_rfl (by omega) fun t₂ ht₂ hk₂ => ?_
  refine wp_uvmfree ht₂ hU hsz (fun v hv hge => ?_) fun t₃ ht₃ hr hk₃ =>
    hok t₃ ⟨ht₃, hr⟩ (((hk₁.of_le hle).trans hk₂ (Multiset.le_add_left R _)).trans hk₃ le_rfl)
  -- Nothing is mapped from the size on.
  by_cases h₁ : v = userVpn
  · rw [h₁, Function.update_self]
  · rw [Function.update_of_ne h₁]
    by_cases h₂ : v = trampolineVpn
    · rw [h₂, Function.update_self]
    · rw [Function.update_of_ne h₂]
      by_cases hu : v < userVpn
      · cases hV : pteV (f v) with
        | false =>
          rw [← h.map v hv] at hV ⊢
          exact mapping_of_invalid hV
        | true =>
          have := hf.below v hu hV
          omega
      · exact hf.above v (by omega) hv

end Xv6
