import Xv6.Proc.Slot

/-!
# The specifications of the system calls on memory

Every call keeps the invariant of the process table, with sizes up to `TRAPFRAME`, and
when a slot becomes free, the pages of its process are on the free list (`Kept`). None of
them panics, but for `growproc` beyond `TRAPFRAME`.
-/

namespace Xv6

/-- The sizes of all processes are up to `TRAPFRAME`. -/
def Legal (s : Procs) : Prop := ∀ p, (s.proc p).sz ≤ trapframeVa

/-- From `s` to `t` the invariant is kept, and slots that became free gave back the pages of
    their processes. -/
structure Kept (k : Kernel) (U : Multiset ℕ) (s t : Procs) : Prop where
  inv : ProcInv k U t
  released : ∀ q, (s.proc q).state ≠ .unused → (t.proc q).state = .unused →
    ∀ b ∈ owned s.vm.mem (s.proc q), b ∈ t.vm.freelist

variable {k : Kernel} {U R : Multiset ℕ} {s t : Procs} {p q : Fin nproc}
  {E : VmPanic → Procs → Prop}

/-- No slot in use has become free. -/
theorem Kept.of_state (h : ProcInv k U t)
    (hs : ∀ q, (s.proc q).state ≠ .unused → (t.proc q).state ≠ .unused) : Kept k U s t :=
  ⟨h, fun q h₁ h₂ => absurd h₂ (hs q h₁)⟩

/-! ## Processes come and go -/

/-- A new process, in a slot that was free. -/
structure NewProc (k : Kernel) (U : Multiset ℕ) (s t : Procs) (p : Fin nproc) : Prop where
  inv : ProcInv k U t
  others : t.others = s.others
  unused : (s.proc p).state = .unused
  same : ∀ q, q ≠ p → t.proc q = s.proc q
  used : (t.proc p).state = .used
  sz : (t.proc p).sz = 0
  empty : ∀ v < userVpn, mapping t.vm.mem (t.proc p).pagetable v = 0

/-- No process is new: a slot that was free may have been reset. -/
structure NoProc (k : Kernel) (U : Multiset ℕ) (s t : Procs) : Prop where
  inv : ProcInv k U t
  same : ∀ q, t.proc q = s.proc q ∨ (s.proc q).state = .unused ∧ t.proc q = .free

theorem NoProc.kept (h : NoProc k U s t) : Kept k U s t := by
  refine .of_state h.inv fun q hq => ?_
  rcases h.same q with e | ⟨e, -⟩
  · rwa [e]
  · exact absurd e hq

theorem NoProc.legal (h : NoProc k U s t) (hs : Legal s) : Legal t := by
  intro q
  rcases h.same q with e | ⟨-, e⟩
  · rw [e]
    exact hs q
  · rw [e]
    exact Nat.zero_le _

theorem wp_allocproc {Q : Option (Fin nproc) → Procs → Prop} (h : ProcInv k U s)
    (hU : Managed k U) (hok : ∀ p t, NewProc k U s t p → Q (some p) t)
    (hnone : ∀ t, NoProc k U s t → Q none t) : wp (allocproc k) Q E s := by
  simp only [allocproc, wp_bind, wp_get]
  split
  · exact hnone s ⟨h, fun _ => .inl rfl⟩
  · rename_i p hfind
    have hun : (s.proc p).state = .unused := by
      have := List.find?_some hfind
      simpa using this
    obtain ⟨hpt, htf, hsz⟩ := (h.slot p).free hun
    -- The slot holds no pages.
    have hpool : Pool U (rest s p) s.vm := by
      have := h.pool p
      rwa [owned, spacePages, if_pos hpt, trapframePages, if_pos htf, zero_add, zero_add] at this
    -- The slot is reset when the memory runs out.
    have hreset : ∀ t : Procs, t.others = s.others → (∀ q, q ≠ p → t.proc q = s.proc q) →
        (t.proc p).pagetable = 0 → Pool U (trapframePages (t.proc p).trapframe + rest s p) t.vm →
        Keep (rest s p) s.vm t.vm → wp (freeproc k p) (fun _ => Q none) E t := by
      intro t hoth hsame hpt' hpool' hk
      refine wp_freeproc (R := rest s p) hU ?_ (fun hne => absurd hpt' hne)
        fun u huo hup hus hvm hk' => ?_
      · rwa [owned, spacePages, if_pos hpt', zero_add]
      · refine hnone u ⟨?_, fun q => ?_⟩
        · refine h.close (p := p) (fun q hq => (hus q hq).trans (hsame q hq)) (huo.trans hoth) ?_
            (hk.trans hk' le_rfl) ?_
          · rw [hup, owned_free, zero_add]
            exact hvm
          · rw [hup]
            exact slotWf_free k _
        · by_cases hq : q = p
          · rw [hq, hup]
            exact .inr ⟨hun, rfl⟩
          · exact .inl ((hus q hq).trans (hsame q hq))
    simp only [wp_bind, allocpid, wp_get, wp_set, wp_pure, wp_setProc, wp_liftVm]
    refine wp_kalloc_pool hpool hU (fun vm hvm hm => ?_) fun r vm hr hrR hvm hm => ?_
    · rw [if_pos rfl, wp_bind]
      refine hreset _ rfl (fun q hq => ?_) ?_ ?_ fun b _ => by rw [hm]
      · simp only [Function.update_of_ne hq]
      · simp only [Function.update_self, hpt]
      · simp only [Function.update_self, trapframePages, if_true, zero_add]
        exact hvm
    · have hk : Keep (rest s p) s.vm vm := fun b hb => hm b fun hbr => hrR (hbr ▸ hb)
      simp only [if_neg hr.pos.ne', wp_bind, wp_liftVm, wp_setProc]
      refine wp_procPagetable hvm hU hr (fun pt vm' hpt' hsp hk' => ?_) fun vm' hvm' hk' => ?_
      · have hk₂ := hk.trans hk' (Multiset.le_cons_self _ _)
        rw [if_neg hpt', wp_pure]
        refine hok p _ ⟨?_, rfl, hun, fun q hq => ?_, ?_, ?_, fun v hv => ?_⟩
        · refine h.close (p := p) (fun q hq => ?_) rfl ?_ hk₂ ?_
          · simp only [Function.update_of_ne hq]
          · exact Space.owned (f := emptyMap k r) (by simpa using hsp) (by simpa using hpt')
              (by simpa using hr.pos.ne')
          · refine ⟨fun hs => ?_, fun _ => ?_⟩
            · simp at hs
            · refine Space.hasSpace (f := emptyMap k r) (U := U) (R := r ::ₘ rest s p)
                (by simpa using hsp) (by simpa using hpt') (by simpa using hr.pos.ne') ?_
              simp only [Function.update_self, hsz]
              exact userMap_emptyMap k r
        · simp only [Function.update_of_ne hq]
        · simp only [Function.update_self]
        · simp only [Function.update_self, hsz]
        · simp only [Function.update_self]
          rw [hsp.map v (lt_leafVpn (lt_maxVpn_of_user hv)), emptyMap_user hv]
      · have hk₂ := hk.trans hk' (Multiset.le_cons_self _ _)
        rw [if_pos rfl, wp_bind]
        refine hreset _ rfl (fun q hq => ?_) ?_ ?_ hk₂
        · simp only [Function.update_of_ne hq]
        · simp only [Function.update_self]
        · simp only [Function.update_self, trapframePages, if_neg hr.pos.ne', Multiset.singleton_add]
          exact hvm'

/-- What is needed to free the process in a slot. -/
theorem ProcInv.freeable (h : ProcInv k U s) (hs : Legal s) (p : Fin nproc) :
    (s.proc p).pagetable ≠ 0 → ∃ tf, PtWf s.vm.mem 2 (s.proc p).pagetable ∧
      UserMap k tf (s.proc p).sz (mapping s.vm.mem (s.proc p).pagetable) ∧
      (s.proc p).sz ≤ trapframeVa := by
  intro hpt
  by_cases hun : (s.proc p).state = .unused
  · exact absurd ((h.slot p).free hun).1 hpt
  · have hl := (h.slot p).live hun
    exact ⟨_, hl.wf, hl.user, hs p⟩

/-- Freeing the process in a slot. -/
theorem wp_freeproc_slot {Q : PUnit → Procs → Prop} (h : ProcInv k U s) (hU : Managed k U)
    (hs : Legal s)
    (hok : ∀ t, t.proc p = .free → (∀ q, q ≠ p → t.proc q = s.proc q) → ProcInv k U t →
      (∀ b ∈ owned s.vm.mem (s.proc p), b ∈ t.vm.freelist) → Q ⟨⟩ t) :
    wp (freeproc k p) Q E s := by
  refine wp_freeproc hU (h.pool p) (h.freeable hs p) fun t hto htp hts hvm hk => ?_
  have hinv : ProcInv k U t := by
    refine h.close hts hto ?_ hk ?_
    · rw [htp, owned_free, zero_add]
      exact hvm
    · rw [htp]
      exact slotWf_free k _
  refine hok t htp hts hinv fun b hb => ?_
  -- A page of the process is on the free list, since it is not among the others.
  have hb' : b ∈ owned s.vm.mem (s.proc p) + rest s p := Multiset.mem_add.2 (.inl hb)
  have hbU : b ∈ U := by
    rw [← (h.pool p).own]
    exact Multiset.mem_add.2 (.inr hb')
  have hnd := hU.nodup
  rw [← (h.pool p).own] at hnd
  have hdis := (Multiset.nodup_add.1 (Multiset.nodup_add.1 hnd).2.1).2.2
  rw [← hvm.own] at hbU
  rcases Multiset.mem_add.1 hbU with hfl | hr
  · exact Multiset.mem_coe.1 hfl
  · exact absurd hr (Multiset.disjoint_left.1 hdis hb)

/-- The map of a copy is that of a process. -/
theorem UserMap.copied {tf tf' sz : ℕ} {fo g : ℕ → ℕ} {a b : Vm} (h : UserMap k tf sz fo)
    (hsz : sz ≤ trapframeVa) {f : ℕ → ℕ} (hf : UserMap k tf' 0 f) (h0 : ∀ v < userVpn, f v = 0)
    (hc : Copied fo f g 0 (npages sz) a b) : UserMap k tf' sz g := by
  have ht := trampolineVpn_eq
  have hm := maxVpn_eq
  have hb := npages_le_user hsz
  have hv : ∀ v < userVpn, pteV (g v) = true → v < npages sz ∧ pteV (fo v) = true := by
    intro v hv hV
    by_cases hlt : v < npages sz
    · cases hfo : pteV (fo v) with
      | true => exact ⟨hlt, rfl⟩
      | false =>
        rw [hc.hole v (Nat.zero_le v) hlt hfo, pteV_zero] at hV
        cases hV
    · rw [hc.same v (by omega), h0 v hv, pteV_zero] at hV
      cases hV
  refine ⟨?_, ?_, fun v h₁ h₂ => ?_, fun v hvu hV => ?_, fun v hvu hV => (hv v hvu hV).1⟩
  · rw [hc.same _ (by omega), hf.trapframe]
  · rw [hc.same _ (by omega), hf.trampoline]
  · rw [hc.same _ (by omega), hf.above v h₁ h₂]
  · obtain ⟨hlt, hfo⟩ := hv v hvu hV
    obtain ⟨pa, -, e, -⟩ := hc.copy v (Nat.zero_le v) hlt hfo
    rw [e, pteR_mkPte, pteR_pteFlags]
    exact h.readable v hvu hfo

/-- `kfork` makes a process of the size of its parent, or none. -/
theorem wp_kfork {Q : Option ℤ → Procs → Prop} (h : ProcInv k U s) (hU : Managed k U)
    (hs : Legal s) (hp : (s.proc p).state ≠ .unused)
    (hok : ∀ r t, Kept k U s t → Legal t → Q r t) : wp (kfork k p) Q E s := by
  rw [kfork, wp_bind]
  refine wp_allocproc h hU (fun np t hnew => ?_) fun t hno => hok none t hno.kept (hno.legal hs)
  simp only [wp_bind, wp_get, wp_liftVm]
  have hne : p ≠ np := by
    rintro rfl
    exact hp hnew.unused
  have htp := hnew.same p hne
  have hnp : (t.proc np).state ≠ .unused := by rw [hnew.used]; decide
  have hlive := (hnew.inv.slot np).live hnp
  have hpar := (hnew.inv.slot p).live (by rw [htp]; exact hp)
  have hspace := hnew.inv.focus hnp
  have hlet : Legal t := by
    intro q
    by_cases hq : q = np
    · rw [hq, hnew.sz]
      exact Nat.zero_le _
    · rw [hnew.same q hq]
      exact hs q
  -- What belongs to the parent is not touched.
  have hle : owned t.vm.mem (t.proc p) ≤ (t.proc np).trapframe ::ₘ rest t np :=
    le_trans (owned_le_rest hne) (Multiset.le_cons_self _ _)
  have hframes : ∀ w < userVpn, pageOf (mapping t.vm.mem (t.proc p).pagetable w) ≤
      (t.proc np).trapframe ::ₘ rest t np := by
    intro w hw
    refine le_trans (le_trans (pageOf_le_frames hw) ?_) hle
    rw [owned, spacePages, if_neg hpar.pagetable, add_assoc]
    exact le_trans (Multiset.le_add_right _ _) (Multiset.le_add_left _ _)
  have hkept : ∀ u, ProcInv k U u → (∀ q, q ≠ np → u.proc q = t.proc q) → Kept k U s u := by
    intro u hu hsame
    refine .of_state hu fun q hq => ?_
    have hqn : q ≠ np := by
      rintro rfl
      exact hq hnew.unused
    rw [hsame q hqn, hnew.same q hqn]
    exact hq
  refine wp_uvmcopy hspace hU (hlet p) hnew.empty (le_trans hpar.tables_le hle) hframes
    (fun g vm hg hc hk => ?_) fun vm hvm hk => ?_
  · have hk' : Keep (rest t np) t.vm vm :=
      hk.of_le (le_trans (Multiset.le_cons_self _ _) (Multiset.le_add_left _ _))
    have htfn : (t.proc np).trapframe ∉ rest t np := by
      have hnd := hU.nodup
      rw [← hspace.own, Multiset.nodup_add, Multiset.nodup_cons] at hnd
      exact hnd.2.1.1
    have huser : UserMap k (t.proc np).trapframe (t.proc p).sz g :=
      hpar.user.copied (hlet p) (by rw [← hnew.sz]; exact hlive.user) hnew.empty hc
    rw [if_pos rfl]
    simp only [wp_bind, wp_setProc, wp_get, wp_liftVm, wp_pure]
    -- The registers go to the page of the trapframe.
    have htf := Multiset.mem_cons_self (t.proc np).trapframe (rest t np)
    refine wp_storePage hg hU htf htfn fun vm₁ hg₁ hk₁ _ => ?_
    refine wp_storePage hg₁ hU htf htfn fun vm₂ hg₂ hk₂ _ => ?_
    have hk₂ := (hk'.trans hk₁ le_rfl).trans hk₂ le_rfl
    refine hok _ _ (hkept _ ?_ fun q hq => ?_) fun q => ?_
    · refine hnew.inv.closeSpace (p := np) (f := g) (fun q hq => ?_) rfl ?_ ?_ ?_ ?_ ?_ hk₂
      · simp only [Function.update_of_ne hq]
      · simpa using hlive.pagetable
      · simpa using hlive.trapframe
      · simp
      · simpa using hg₂
      · simpa using huser
    · simp only [Function.update_of_ne hq]
    · by_cases hq : q = np
      · subst hq
        simpa using hlet p
      · simpa only [Function.update_of_ne hq] using hlet q
  · -- No memory: the process is freed.
    simp only [Bool.false_eq_true, if_false, wp_bind]
    have hk' : Keep (rest t np) t.vm vm := hk.of_le (Multiset.le_cons_self _ _)
    have hinv : ProcInv k U { t with vm } :=
      hnew.inv.closeSpace (p := np) (fun _ _ => rfl) rfl hlive.pagetable hlive.trapframe hnp hvm
        hlive.user hk'
    refine wp_freeproc_slot hinv hU hlet fun u hup hus hu _ => ?_
    rw [wp_pure]
    refine hok none u (hkept u hu hus) fun q => ?_
    by_cases hq : q = np
    · rw [hq, hup]
      exact Nat.zero_le _
    · rw [hus q hq]
      exact hlet q

/-! ## The size of a process -/

/-- A change of the address space and the size of a process. -/
theorem ProcInv.resize {f : ℕ → ℕ} {vm : Vm} {sz : ℕ} (h : ProcInv k U s)
    (hp : (s.proc p).state ≠ .unused)
    (hsp : Space U ((s.proc p).trapframe ::ₘ rest s p) (s.proc p).pagetable f vm)
    (hf : UserMap k (s.proc p).trapframe sz f)
    (hk : Keep ((s.proc p).trapframe ::ₘ rest s p) s.vm vm) :
    Kept k U s { s with vm, proc := Function.update s.proc p { s.proc p with sz } } := by
  have hl := (h.slot p).live hp
  refine .of_state (h.closeSpace (p := p) (f := f) (fun q hq => Function.update_of_ne hq _ _) rfl
    ?_ ?_ ?_ ?_ ?_ (hk.of_le (Multiset.le_cons_self _ _))) fun q hq => ?_
  · simpa using hl.pagetable
  · simpa using hl.trapframe
  · simpa using hp
  · simpa using hsp
  · simpa using hf
  · by_cases hqp : q = p
    · rw [hqp]
      simpa using hp
    · simpa only [Function.update_of_ne hqp] using hq

theorem Legal.resize {sz : ℕ} (h : Legal s) (vm : Vm) (hsz : sz ≤ trapframeVa) :
    Legal { s with vm, proc := Function.update s.proc p { s.proc p with sz } } := by
  intro q
  by_cases hq : q = p
  · rw [hq]
    simpa using hsz
  · simpa only [Function.update_of_ne hq] using h q

theorem update_sz (s : Procs) (p : Fin nproc) (vm : Vm) :
    { s with vm, proc := Function.update s.proc p { s.proc p with sz := (s.proc p).sz } } =
      { s with vm } := by
  have : ({ s.proc p with sz := (s.proc p).sz } : Proc) = s.proc p := rfl
  rw [this, Function.update_eq_self]

/-! ## exit and wait -/

/-- The invariant depends on the pages, the sizes and the states of the processes. -/
theorem ProcInv.of_eq (h : ProcInv k U s) (hvm : t.vm = s.vm) (hoth : t.others = s.others)
    (hpt : ∀ q, (t.proc q).pagetable = (s.proc q).pagetable)
    (htf : ∀ q, (t.proc q).trapframe = (s.proc q).trapframe)
    (hsz : ∀ q, (t.proc q).sz = (s.proc q).sz)
    (hst : ∀ q, (t.proc q).state = .unused ↔ (s.proc q).state = .unused) : ProcInv k U t := by
  have hown : ∀ q, owned t.vm.mem (t.proc q) = owned s.vm.mem (s.proc q) := fun q => by
    rw [owned, owned, hvm, hpt q, htf q]
  refine ⟨?_, fun q => ⟨fun hun => ?_, fun hun => ?_⟩, by rw [hvm]; exact h.refreed⟩
  · rw [Finset.sum_congr rfl fun q _ => hown q, hvm, hoth]
    exact h.own
  · rw [hpt, htf, hsz]
    exact (h.slot q).free ((hst q).1 hun)
  · have hl := (h.slot q).live fun h => hun ((hst q).2 h)
    refine ⟨?_, ?_, ?_, ?_⟩
    · rw [hpt]
      exact hl.pagetable
    · rw [htf]
      exact hl.trapframe
    · rw [hvm, hpt]
      exact hl.wf
    · rw [hvm, hpt, htf, hsz]
      exact hl.user

theorem wp_kexit {status : ℤ} {Q : PUnit → Procs → Prop} (h : ProcInv k U s) (hs : Legal s)
    (hp : (s.proc p).state ≠ .unused) (hok : ∀ t, Kept k U s t → Legal t → Q ⟨⟩ t)
    (hE : s.initproc = some p → E .initExiting s) : wp (kexit p status) Q E s := by
  simp only [kexit, wp_bind, wp_get]
  split
  · rename_i hi
    exact hE hi
  · simp only [reparent, wp_bind, wp_modify, wp_setProc]
    -- Nothing but the parents and the state of `p` changes.
    set f : Fin nproc → Proc := fun q =>
      if (s.proc q).parent = some p then { s.proc q with parent := s.initproc } else s.proc q with hf
    have hfq : ∀ q, (f q).pagetable = (s.proc q).pagetable ∧
        (f q).trapframe = (s.proc q).trapframe ∧ (f q).sz = (s.proc q).sz ∧
        (f q).state = (s.proc q).state := by
      intro q
      simp only [hf]
      split
      · exact ⟨rfl, rfl, rfl, rfl⟩
      · exact ⟨rfl, rfl, rfl, rfl⟩
    have hg : ∀ q, (Function.update f p { f p with xstate := status, state := .zombie } q).pagetable =
        (s.proc q).pagetable ∧
        (Function.update f p { f p with xstate := status, state := .zombie } q).trapframe =
        (s.proc q).trapframe ∧
        (Function.update f p { f p with xstate := status, state := .zombie } q).sz = (s.proc q).sz ∧
        ((Function.update f p { f p with xstate := status, state := .zombie } q).state = .unused ↔
          (s.proc q).state = .unused) := by
      intro q
      obtain ⟨h₁, h₂, h₃, h₄⟩ := hfq q
      by_cases hq : q = p
      · subst hq
        rw [Function.update_self]
        exact ⟨h₁, h₂, h₃, (fun hc => by cases hc), fun hc => absurd hc hp⟩
      · rw [Function.update_of_ne hq]
        exact ⟨h₁, h₂, h₃, by rw [h₄]⟩
    refine hok _ (.of_state (h.of_eq rfl rfl (fun q => (hg q).1) (fun q => (hg q).2.1)
      (fun q => (hg q).2.2.1) fun q => (hg q).2.2.2) fun q hq hc => hq ((hg q).2.2.2.1 hc)) fun q => ?_
    show (Function.update f p { f p with xstate := status, state := .zombie } q).sz ≤ trapframeVa
    rw [(hg q).2.2.1]
    exact hs q

/-! ## Page faults -/

/-- Page faults and copies of a process change its address space only. -/
theorem ProcInv.faulted {g : ℕ → ℕ} {vm : Vm} (h : ProcInv k U s)
    (hs : (s.proc p).sz ≤ trapframeVa) (hp : (s.proc p).state ≠ .unused)
    (hsp : Space U ((s.proc p).trapframe ::ₘ rest s p) (s.proc p).pagetable g vm)
    (hg : Faulted (s.proc p).sz (mapping s.vm.mem (s.proc p).pagetable) g)
    (hk : Keep ((s.proc p).trapframe ::ₘ rest s p) s.vm vm) : Kept k U s { s with vm } := by
  have h' := h.resize hp hsp (((h.slot p).live hp).user.faulted hs hg) hk
  rwa [update_sz] at h'

theorem wp_vmfault_proc {va : ℕ} {Q : ℕ → Procs → Prop} (h : ProcInv k U s) (hU : Managed k U)
    (hs : (s.proc p).sz ≤ trapframeVa) (hp : (s.proc p).state ≠ .unused)
    (hok : ∀ r t, Kept k U s t → t.proc = s.proc →
      (∀ x, Sees (space s p) x s.vm → Sees (space t p) x t.vm) → Q r t) :
    wp (liftVm (vmfault k (s.proc p).sz (s.proc p).pagetable (s.proc p).pagetable va)) Q E s := by
  have hle := Multiset.le_add_left ((s.proc p).trapframe ::ₘ rest s p)
    (frames (mapping s.vm.mem (s.proc p).pagetable))
  rw [wp_liftVm]
  refine wp_vmfault (h.focus hp) hU hs (fun r vm hva h0 hr hvm hz hk => ?_) fun vm hvm hk => ?_
  · refine hok r _ (h.faulted hs hp hvm (.of_update hva h0 hr) (hk.of_le hle)) rfl fun x hx => ?_
    exact (hx.fault hk h0 hr hz (by decide)).of_space hvm
  · exact hok 0 _ (h.faulted hs hp hvm (.refl _ _) (hk.of_le hle)) rfl fun x hx =>
      (hx.keep hk).of_space hvm

theorem wp_copyout_proc {va : ℕ} {src : List UInt8} {Q : Bool → Procs → Prop}
    (h : ProcInv k U s) (hU : Managed k U) (hs : Legal s) (hp : (s.proc p).state ≠ .unused)
    (hok : ∀ r t, Kept k U s t → t.proc = s.proc →
      (∀ q, q ≠ p → owned t.vm.mem (s.proc q) = owned s.vm.mem (s.proc q)) → Q r t) :
    wp (liftVm (copyout k (s.proc p).sz (s.proc p).pagetable (s.proc p).pagetable va src))
      Q E s := by
  have hl := (h.slot p).live hp
  rw [wp_liftVm]
  refine (wp_copyoutLoop (h.focus hp) hU (hs p) hl.user.userOnly le_rfl).mono
    (fun r vm hvm => ?_) fun _ _ he => he
  obtain ⟨n, g, hc⟩ := hvm
  refine hok r _ (h.faulted (hs p) hp hc.space hc.faulted hc.keep) rfl fun q hq =>
    owned_congr fun b hb => hc.keep b ?_
  exact Multiset.mem_cons_of_mem (Multiset.mem_of_le (owned_le_rest hq) hb)

theorem wp_copyin_proc {va len : ℕ} {Q : Bool × List UInt8 → Procs → Prop}
    (h : ProcInv k U s) (hU : Managed k U) (hs : Legal s) (hp : (s.proc p).state ≠ .unused)
    (hok : ∀ r t, Kept k U s t → t.proc = s.proc → Q r t) :
    wp (liftVm (copyin k (s.proc p).sz (s.proc p).pagetable (s.proc p).pagetable va len))
      Q E s := by
  have hl := (h.slot p).live hp
  rw [wp_liftVm]
  refine (wp_copyinLoop (h.focus hp) hU (hs p) hl.user.userOnly le_rfl).mono
    (fun r vm hvm => ?_) fun _ _ he => he
  obtain ⟨n, g, hc⟩ := hvm
  exact hok r _ (h.faulted (hs p) hp hc.space hc.faulted
    (hc.keep.of_le (Multiset.le_add_left _ _))) rfl

theorem wp_kwait {addr : ℕ} {Q : Waited → Procs → Prop} (h : ProcInv k U s) (hU : Managed k U)
    (hs : Legal s) (hp : (s.proc p).state ≠ .unused) (hpz : (s.proc p).state ≠ .zombie)
    (hok : ∀ r t, Kept k U s t → Legal t → Q r t) : wp (kwait k p addr) Q E s := by
  simp only [kwait, wp_bind, wp_get]
  split
  · rename_i pp hfind
    have hz : (s.proc pp).state = .zombie := by
      have := List.find?_some hfind
      simp only [decide_eq_true_eq] at this
      exact this.2
    have hne : pp ≠ p := by
      rintro rfl
      exact hpz hz
    -- Freeing the child.
    have hfree : ∀ t : Procs, Kept k U s t → t.proc = s.proc →
        (owned t.vm.mem (s.proc pp) = owned s.vm.mem (s.proc pp)) →
        wp (freeproc k pp) (fun _ t => Q (.found (s.proc pp).pid) t) E t := by
      intro t ht hproc hown
      have hlt : Legal t := by
        intro q
        rw [hproc]
        exact hs q
      refine wp_freeproc_slot ht.inv hU hlt fun u hup hus hu hfl => ?_
      refine hok _ u ⟨hu, fun q h₁ h₂ => ?_⟩ fun q => ?_
      · by_cases hq : q = pp
        · rw [hq, ← hown, ← hproc]
          exact hfl
        · rw [hus q hq, hproc] at h₂
          exact absurd h₂ h₁
      · by_cases hq : q = pp
        · rw [hq, hup]
          exact Nat.zero_le _
        · rw [hus q hq, hproc]
          exact hs q
    simp only [wp_bind]
    split
    · refine wp_copyout_proc h hU hs hp fun r t ht hproc hown => ?_
      have hlt : Legal t := by
        intro q
        rw [hproc]
        exact hs q
      split
      · rw [wp_bind]
        exact hfree t ht hproc (hown pp hne)
      · exact hok _ t ht hlt
    · rw [wp_pure, if_pos rfl, wp_bind]
      exact hfree s (.of_state h fun _ h => h) rfl rfl
  · split
    · exact hok _ s (.of_state h fun _ h => h) hs
    · exact hok _ s (.of_state h fun _ h => h) hs

end Xv6
