import Xv6.Proc.Sbrk

/-!
# The program that exec runs

When `kexec` returns the number of arguments, the process has the address space that was
built, and its registers `a1` and `sp` point to the array of the arguments (`Executed`). When
it fails, the process has what it had before (`Undone`, `wp_kexec`).
-/

namespace Xv6

/-- A register, as it is in the trapframe of a process. -/
def register (s : Procs) (p : Fin nproc) (off : ℕ) : ℕ :=
  (s.vm.mem (s.proc p).trapframe).getLE 8 off

/-- The process runs the program in a file now, with the arguments `argv`. -/
structure Executed (file : List UInt8) (argv : List (List UInt8)) (p : Fin nproc) (argc : ℕ)
    (t : Procs) : Prop where
  argc_eq : argc = argv.length
  le : (t.proc p).sz ≤ trapframeVa
  built : ∃ entry, Built file argv
    ⟨(t.proc p).pagetable, (t.proc p).sz, register t p tfSp, entry⟩ (space t p) t.vm
  a1 : register t p tfA1 = register t p tfSp

/-- No process has changed, and neither has a page of one. -/
structure Undone (s t : Procs) (p : Fin nproc) : Prop where
  proc : t.proc = s.proc
  others : t.others = s.others
  keep : Keep (owned s.vm.mem (s.proc p) + rest s p) s.vm t.vm

variable {k : Kernel} {U R : Multiset ℕ} {s t : Procs} {p q : Fin nproc}
  {E : VmPanic → Procs → Prop} {file : List UInt8} {argv : List (List UInt8)} {img : Image}
  {f g : ℕ → ℕ} {a b : Vm}

/-- What was built is seen in another state with the same user pages. -/
theorem Built.congr (h : Built file argv img f a) (hsz : img.sz ≤ trapframeVa)
    (hfg : ∀ v < userVpn, g v = f v)
    (hab : ∀ x < trapframeVa, userByte b.mem g x = userByte a.mem f x) :
    Built file argv img g b := by
  have hle : guardPage file + 1 + 1 ≤ userVpn := by
    have := h.size
    simp only [userVpn, trapframeVa, trampolineVa, maxVa, pgsize] at *
    omega
  have htop : (guardPage file + 1) * pgsize ≤ trapframeVa := by
    have := h.size
    simp only [trapframeVa, trampolineVa, maxVa, pgsize] at *
    omega
  obtain ⟨ptrs, hargs⟩ := h.args
  refine ⟨h.size, h.aligned, fun hasc ph hph v h₁ h₂ => ?_, fun v hv => ?_, ?_, ?_,
    ⟨ptrs, hargs.congr fun x hx => hab x (by omega)⟩, fun hin x hx => ?_⟩
  · have hstop := npages_mono (stop_le_segsSize hph 0)
    rw [hfg v (lt_of_lt_of_le h₂ (le_trans hstop (by rw [guardPage] at hle; omega)))]
    exact h.flags hasc ph hph v h₁ h₂
  · rw [hfg v (by omega)]
    exact h.full v hv
  · rw [hfg _ (by omega)]
    exact h.guard
  · rw [hfg _ (by omega)]
    exact h.stack
  · rw [hab x (by omega)]
    exact h.bytes hin x hx

/-- `kexec` runs the program, or leaves all as it was. -/
theorem wp_kexec {file : Option (List UInt8)} {argv : List (List UInt8)}
    {Q : Option ℕ → Procs → Prop} (h : ProcInv k U s) (hU : Managed k U)
    (hs : (s.proc p).sz ≤ trapframeVa) (hp : (s.proc p).state ≠ .unused)
    (hargv : ∀ a ∈ argv, a.length < pgsize)
    (hok : ∀ argc file' t, file = some file' → Kept k U s t →
      (∀ q, q ≠ p → t.proc q = s.proc q) → Executed file' argv p argc t → Q (some argc) t)
    (hfail : ∀ t, Kept k U s t → Undone s t p → Q none t) :
    wp (kexec k p file argv) Q E s := by
  have hl := (h.slot p).live hp
  have hpool := h.pool p
  have hself : Kept k U s s := .of_state h fun _ h => h
  rw [kexec.eq_def]
  cases file with
  | none => exact hfail s hself ⟨rfl, rfl, .refl _ _⟩
  | some file =>
    simp only [wp_bind, wp_get, wp_liftVm]
    have htfo : (s.proc p).trapframe ∈ owned s.vm.mem (s.proc p) + rest s p := by
      rw [owned, trapframePages, if_neg hl.trapframe]
      simp
    have htf : PageAddr (s.proc p).trapframe := by
      refine hU.pageAddr ?_
      rw [← hpool.own]
      exact Multiset.mem_add.2 (.inr htfo)
    refine wp_buildImage hpool hU htf hargv (fun img f vm hpt hsp hf hsz hk hbuilt => ?_) fun vm hvm hk => ?_
    · -- The registers go to the page of the trapframe.
      have hB₀ : (s.proc p).trapframe ∉ spacePages s.vm.mem (s.proc p).pagetable + rest s p := by
        intro hc
        have hnd := hU.nodup
        rw [← hpool.own, owned, trapframePages, if_neg hl.trapframe, add_right_comm,
          ← add_assoc, Multiset.nodup_add] at hnd
        refine Multiset.disjoint_left.1 hnd.2.2 ?_ (Multiset.mem_singleton_self _)
        exact Multiset.mem_add.2 (.inr hc)
      have hB : (s.proc p).trapframe ∉
          frames f + (spacePages s.vm.mem (s.proc p).pagetable + rest s p) := by
        rw [Multiset.mem_add, not_or]
        exact ⟨hsp.not_mem_frames hU htfo, hB₀⟩
      have hk₀ : Keep (spacePages s.vm.mem (s.proc p).pagetable + rest s p) s.vm vm := by
        refine hk.of_le ?_
        rw [owned, add_right_comm]
        exact Multiset.le_add_right _ _
      simp only [wp_bind, wp_setProc, wp_liftVm]
      refine wp_storePage hsp hU htfo hB fun vm₁ hs₁ hk₁ hm₁ => ?_
      refine wp_storePage hs₁ hU htfo hB fun vm₂ hs₂ hk₂ hm₂ => ?_
      refine wp_storePage hs₂ hU htfo hB fun vm₃ hs₃ hk₃ hm₃ => ?_
      have hkf := (hk₁.trans hk₂ le_rfl).trans hk₃ le_rfl
      have hk₃ := hk₀.trans (hkf.of_le (Multiset.le_add_left _ _)) le_rfl
      -- The old address space is freed; the new one is among the others then.
      have hold : Space U ((s.proc p).trapframe ::ₘ rest s p + spacePages vm₃.mem img.pagetable)
          (s.proc p).pagetable (mapping s.vm.mem (s.proc p).pagetable) vm₃ := by
        have htab : ∀ b ∈ tables s.vm.mem 2 (s.proc p).pagetable, vm₃.mem b = s.vm.mem b := by
          intro b hb
          refine hk₃ b (Multiset.mem_add.2 (.inl ?_))
          rw [spacePages, if_neg hl.pagetable]
          exact Multiset.mem_add.2 (.inl hb)
        have hfr : frames f = frames (mapping vm₃.mem img.pagetable) :=
          frames_congr fun v hv => (hs₃.map v (lt_leafVpn (lt_maxVpn_of_user hv))).symm
        refine ⟨?_, fun v _ => mapping_congr (leaf_congr htab), ptWf_congr htab hl.wf,
          hs₃.refreed⟩
        rw [tables_congr htab, spacePages, if_neg hpt, ← hs₃.own, hfr, owned, spacePages,
          if_neg hl.pagetable, trapframePages, if_neg hl.trapframe, ← Multiset.singleton_add]
        abel
      refine wp_procFreepagetable hold hU hl.user hs fun vm₄ hvm₄ hk₄ => ?_
      rw [wp_pure]
      have hnew : ∀ b ∈ spacePages vm₃.mem img.pagetable, vm₄.mem b = vm₃.mem b := fun b hb =>
        hk₄ b (Multiset.mem_add.2 (.inr hb))
      have hspace : HasSpace k vm₄.mem
          { s.proc p with pagetable := img.pagetable, sz := img.sz } := by
        have h₃ : HasSpace k vm₃.mem { s.proc p with pagetable := img.pagetable, sz := img.sz } :=
          ⟨hpt, hl.trapframe, hs₃.wf, hf.congr hs₃.map⟩
        refine h₃.congr fun b hb => ?_
        rcases Multiset.mem_add.1 hb with hb | hb
        · exact hnew b hb
        · rw [trapframePages, if_neg hl.trapframe, Multiset.mem_singleton] at hb
          rw [hb]
          exact hk₄ _ (Multiset.mem_add.2 (.inl (Multiset.mem_cons_self _ _)))
      have hinv : ProcInv k U { s with
          vm := vm₄
          proc := Function.update s.proc p
            { s.proc p with pagetable := img.pagetable, sz := img.sz } } := by
        refine h.close (p := p) (fun q hq => Function.update_of_ne hq _ _) rfl ?_
          ((hk₃.of_le (Multiset.le_add_left _ _)).trans hk₄
            (le_trans (Multiset.le_cons_self _ _) (Multiset.le_add_right _ _))) ?_
        · refine ⟨?_, hvm₄.refreed⟩
          simp only [Function.update_self, owned]
          rw [spacePages_congr hnew, trapframePages, if_neg hl.trapframe, ← hvm₄.own,
            ← Multiset.singleton_add]
          abel
        · simp only [Function.update_self]
          exact ⟨fun hc => absurd hc hp, fun _ => hspace⟩
      have hmap : ∀ v < userVpn, mapping vm₄.mem img.pagetable v = f v := fun v hv => by
        have htab : ∀ b ∈ tables vm₃.mem 2 img.pagetable, vm₄.mem b = vm₃.mem b := fun b hb =>
          hnew b (by rw [spacePages, if_neg hpt]; exact Multiset.mem_add.2 (.inl hb))
        rw [mapping_congr (leaf_congr htab), hs₃.map v (lt_leafVpn (lt_maxVpn_of_user hv))]
      have hbyte : ∀ a < trapframeVa,
          userByte vm₄.mem (mapping vm₄.mem img.pagetable) a = userByte vm.mem f a := fun a ha => by
        have hfr : frames f ≤ spacePages vm₃.mem img.pagetable := by
          rw [spacePages, if_neg hpt, ← frames_congr fun v hv =>
            (hs₃.map v (lt_leafVpn (lt_maxVpn_of_user hv))).symm]
          exact Multiset.le_add_left _ _
        have hkeep : Keep (frames f + 0) vm vm₄ :=
          (hkf.of_le (by rw [add_zero]; exact Multiset.le_add_right _ _)).trans
            (fun b hb => hnew b hb) (by rwa [add_zero])
        have hv := vpn_lt_of_user ha
        refine userByte_congr ?_
        rw [← hkeep.content hv, content, content, hmap _ hv]
      have htf₄ : vm₄.mem (s.proc p).trapframe = vm₃.mem (s.proc p).trapframe :=
        hk₄ _ (Multiset.mem_add.2 (.inl (Multiset.mem_cons_self _ _)))
      have hregs : ((vm₄.mem (s.proc p).trapframe).getLE 8 tfA1 = img.sp % 256 ^ 8) ∧
          ((vm₄.mem (s.proc p).trapframe).getLE 8 tfSp = img.sp % 256 ^ 8) := by
        rw [htf₄, hm₃, hm₂, hm₁, ← Bytes.putLE, ← Bytes.putLE, ← Bytes.putLE]
        refine ⟨?_, Bytes.getLE_putLE_self _ _ (by decide)⟩
        -- `a1` is stored first, above the two others.
        rw [Bytes.getLE_putLE_disjoint _ _ (.inr (by decide)),
          Bytes.getLE_putLE_disjoint _ _ (.inr (by decide))]
        exact Bytes.getLE_putLE_self _ _ (by decide)
      have hsp : img.sp % 256 ^ 8 = img.sp := by
        obtain ⟨ptrs, hargs⟩ := hbuilt.args
        have := hargs.array_le
        refine Nat.mod_eq_of_lt ?_
        simp only [trapframeVa, trampolineVa, maxVa, pgsize] at hsz
        omega
      rw [hsp] at hregs
      refine hok _ _ _ rfl (.of_state hinv fun q hq => ?_) (fun q hq => ?_) ?_
      · by_cases hqp : q = p
        · rw [hqp]
          simpa using hp
        · simpa only [Function.update_of_ne hqp] using hq
      · exact Function.update_of_ne hq _ _
      · refine ⟨rfl, ?_, ⟨img.entry, ?_⟩, ?_⟩
        · simpa using hsz
        · simp only [register, space, Function.update_self, hregs.2]
          exact hbuilt.congr hsz hmap hbyte
        · simp only [register, Function.update_self, hregs.1, hregs.2]
    · have hinv : ProcInv k U { s with vm } := by
        refine h.close (p := p) (fun _ _ => rfl) rfl ?_ (hk.of_le (Multiset.le_add_left _ _)) ?_
        · show Pool U (owned vm.mem (s.proc p) + rest s p) vm
          rw [owned_congr fun b hb => hk b (Multiset.mem_add.2 (.inl hb))]
          exact hvm
        · exact (h.slot p).congr fun b hb => hk b (Multiset.mem_add.2 (.inl hb))
      exact hfail _ (.of_state hinv fun _ h => h) ⟨rfl, rfl, hk⟩

end Xv6
