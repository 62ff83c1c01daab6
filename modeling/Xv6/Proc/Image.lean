import Xv6.Proc.Stack

/-!
# The specification of exec

What `kexec` builds before it commits is an address space of a process, and when it fails
everything it took is given back (`wp_buildImage`). The address space holds the segments of
the file, then the guard page of the stack, which the user cannot access, and the stack with
the arguments (`Built`).
-/

namespace Xv6

variable {k : Kernel} {E : VmPanic → Vm → Prop} {s t u : Vm} {U R : Multiset ℕ}
  {pt v w n sz tf : ℕ} {f g : ℕ → ℕ}

/-- The segments to load of a file, as its header says. -/
def segments (file : List UInt8) : List Proghdr :=
  let elf := elfhdr (readi file 0 elfhdrSize)
  segsFrom file elf.phnum (elf.phoff % 2 ^ 32)

/-- The number of the guard page of the stack: the first one after the segments. -/
def guardPage (file : List UInt8) : ℕ := npages (segsSize (segments file) 0)

/-- What `kexec` builds from a file and the arguments. -/
structure Built (file : List UInt8) (argv : List (List UInt8)) (img : Image) (f : ℕ → ℕ)
    (t : Vm) : Prop where
  size : img.sz = (guardPage file + 1 + 1) * pgsize
  aligned : ∀ ph ∈ segments file, ph.vaddr % pgsize = 0 ∧ ph.filesz ≤ ph.memsz
  flags : Ascending 0 (segments file) → ∀ ph ∈ segments file, ∀ v, ph.vaddr / pgsize ≤ v →
    v < npages ph.stop → ∃ pa, PageAddr pa ∧ f v = mkPte pa ph.perm
  full : ∀ v < guardPage file, pteV (f v) = true ∧ pteU (f v) = true
  guard : pteU (f (guardPage file)) = false
  stack : pteV (f (guardPage file + 1)) = true ∧ pteU (f (guardPage file + 1)) = true
  args : ∃ ptrs, ArgStack (userByte t.mem f) ((guardPage file + 1) * pgsize) img.sz img.sp argv
    ptrs
  bytes : InFile file (segments file) → ∀ a < (guardPage file + 1) * pgsize,
    userByte t.mem f a = storeSegs file (segments file) (fun _ => 0) a

/-! ## The guard page -/

theorem UserMap.clearU (h : UserMap k tf sz f) (hv : v < userVpn) :
    UserMap k tf sz (Function.update f v (Xv6.clearU (f v))) := by
  have ht := trampolineVpn_eq
  have hm := maxVpn_eq
  refine ⟨?_, ?_, fun w h₁ h₂ => ?_, fun w hw hV => ?_, fun w hw hV => ?_⟩
  · rw [Function.update_of_ne (by omega), h.trapframe]
  · rw [Function.update_of_ne (by omega), h.trampoline]
  · rw [Function.update_of_ne (by omega), h.above w h₁ h₂]
  · by_cases hwv : w = v
    · subst hwv
      rw [Function.update_self] at hV ⊢
      rw [pteV_clearU] at hV
      rw [pteR_clearU]
      exact h.readable w hw hV
    · rw [Function.update_of_ne hwv] at hV ⊢
      exact h.readable w hw hV
  · by_cases hwv : w = v
    · subst hwv
      rw [Function.update_self, pteV_clearU] at hV
      exact h.below w hw hV
    · rw [Function.update_of_ne hwv] at hV
      exact h.below w hw hV

theorem UserMap.of_npages {sz' : ℕ} (h : UserMap k tf sz f) (he : npages sz' = npages sz) :
    UserMap k tf sz' f := { h with below := by rw [he]; exact h.below }

/-- What `kexec` builds is an address space of a process, and when it fails it gives back
    what it took. -/
theorem wp_buildImage {psz ppt : ℕ} {file : List UInt8} {argv : List (List UInt8)}
    {Q : Option Image → Vm → Prop} (h : Pool U R s) (hU : Managed k U) (htf : PageAddr tf)
    (hargv : ∀ a ∈ argv, a.length < pgsize)
    (hok : ∀ img f t, img.pagetable ≠ 0 → Space U R img.pagetable f t →
      UserMap k tf img.sz f → img.sz ≤ trapframeVa → Keep R s t → Built file argv img f t →
      Q (some img) t)
    (hfail : ∀ t, Pool U R t → Keep R s t → Q none t) :
    wp (buildImage k psz ppt tf file argv) Q E s := by
  have hstop : Q none s := hfail s h (.refl _ _)
  rw [buildImage]
  dsimp only
  split
  · exact hstop
  split
  · exact hstop
  rw [wp_bind]
  refine wp_procPagetable h hU htf (fun pt t hpt ht hk => ?_) fun t ht hk => ?_
  swap
  · rw [if_pos rfl]
    exact hfail t ht hk
  -- Giving the address space back.
  have hback : ∀ {sz f t}, Space U R pt f t → UserMap k tf sz f → npages sz ≤ userVpn →
      Keep R s t → wp (procFreepagetable k pt sz) (fun _ => Q none) E t := fun ht hf hsz hk =>
    wp_procFreepagetable ht hU hf (le_trapframeVa_of_npages hsz) fun u hu hku =>
      hfail u hu (hk.trans hku le_rfl)
  have h0 : Loaded k tf 0 (emptyMap k tf) := by
    refine ⟨userMap_emptyMap k tf, fun v hv => ?_, ?_⟩
    · exact absurd hv (Nat.not_lt_zero v)
    · exact npages_le_user (by omega)
  rw [if_neg hpt, wp_bind]
  refine wp_loadSegs ht hU h0 fun b sz f t₁ ht₁ hf hk₁ hload => ?_
  have hk₁ := hk.trans hk₁ le_rfl
  have hle := le_trapframeVa_of_npages hf.size
  have hround : pgRoundUp sz = npages sz * pgsize := pgRoundUp_eq (by
    simp only [trapframeVa, trampolineVa, maxVa, pgsize] at hle ⊢
    omega)
  have hnp : npages (npages sz * pgsize) = npages sz := npages_mul _
  have hf' : Loaded k tf (npages sz * pgsize) f :=
    ⟨hf.user.of_npages hnp, by rw [hnp]; exact hf.full, by rw [hnp]; exact hf.size⟩
  have hsize := hf.size
  have hnew : (npages sz * pgsize + (userStack + 1) * pgsize) % 2 ^ 64 =
      (npages sz + 1 + 1) * pgsize := by
    simp only [userVpn, userStack, trapframeVa, trampolineVa, maxVa, pgsize] at *
    omega
  split
  · -- A segment could not be loaded.
    rw [wp_bind]
    exact hback ht₁ hf.user hf.size hk₁
  rename_i hb
  simp only [hround, hnew, wp_bind]
  refine wp_uvmalloc_loaded ht₁ hU hf' (by decide) (fun hlt => ?_) (fun g t₂ _ ht₂ hg hfill hk₂' => ?_)
    fun t₂ ht₂ hk₂ => ?_
  · simp only [pgsize] at hlt
    omega
  · have hk₂ := hk₁.trans (hk₂'.of_le (Multiset.le_add_left R _)) le_rfl
    have hgsize := hg.size
    have hgfull := hg.full
    rw [npages_mul] at hgsize hgfull
    have hclear : (npages sz + 1 + 1) * pgsize - (userStack + 1) * pgsize = npages sz * pgsize := by
      simp only [userStack, pgsize]
      omega
    rw [if_neg (by simp only [pgsize]; omega), hclear, wp_bind]
    refine wp_uvmclear ht₂ hU (by omega) (hgfull _ (by omega)).1 fun t₃ ht₃ hk₃ hx₃ => ?_
    have hk₃ := hk₂.trans hk₃ le_rfl
    have hg' := hg.user.clearU (v := npages sz) (by omega)
    have hstack := hgfull (npages sz + 1) (by omega)
    rw [wp_bind]
    refine wp_pushStack ht₃ hU (v := npages sz + 1) (by omega)
      (by rw [Function.update_of_ne (by omega)]; exact hstack.1)
      (by rw [Function.update_of_ne (by omega)]; exact hstack.2) (by omega) hargv
      fun r t₄ ht₄ hk₄ _ hx₄ => ?_
    have hk₄ := hk₃.trans hk₄ le_rfl
    cases r with
    | none =>
      rw [wp_bind]
      exact hback ht₄ hg' hg.size hk₄
    | some sp =>
      refine hok ⟨pt, _, sp, _⟩ _ t₄ hpt ht₄ hg' (le_trapframeVa_of_npages hg.size) hk₄ ?_
      have hseg : SegsLoaded file (segments file) 0 (emptyMap k tf) t sz f t₁ :=
        hload (by simpa using hb)
      have hguard : guardPage file = npages sz := congrArg npages hseg.size.symm
      have hperm : permR ||| permU ||| permW < 1024 := by decide
      have h₃ := fun x hx => hx₃ x (Sees.filled hx hk₂' hfill hperm)
      rw [npages_mul, npages_mul] at hfill
      have hlow : ∀ v < npages sz,
          Function.update g (npages sz) (clearU (g (npages sz))) v = f v := fun v hv => by
        rw [Function.update_of_ne (by omega), hfill.same v (.inl hv)]
      have htop : (npages sz + 1 + 1) * pgsize ≤ trapframeVa := le_trapframeVa_of_npages hg.size
      refine ⟨by rw [hguard], hseg.aligned, fun hasc ph hph v h₁ h₂ => ?_, fun v hv => ?_, ?_,
        ?_, ?_, fun hin a ha => ?_⟩
      · have hstop := npages_mono (stop_le_segsSize hph 0)
        have hsz := congrArg npages hseg.size
        obtain ⟨pa, hpa, he⟩ := hseg.flags hasc ph hph v h₁ h₂
        exact ⟨pa, hpa, by rw [hlow v (by omega), he]⟩
      · rw [hguard] at hv
        rw [Function.update_of_ne (by omega)]
        exact hgfull v (by omega)
      · rw [hguard, Function.update_self, pteU_clearU]
      · rw [hguard, Function.update_of_ne (by omega)]
        exact hstack
      · rw [hguard]
        obtain ⟨y, ptrs, hy, -, hst⟩ := hx₄ sp rfl _ (h₃ _ (.self f t₁))
        exact ⟨ptrs, hst.congr fun a ha => hy a (by omega)⟩
      · have hz : Sees (emptyMap k tf) (fun _ => 0) t := fun a ha => by
          rw [userByte, content_of_invalid (by rw [emptyMap_user (vpn_lt_of_user ha), pteV_zero])]
          simp [Bytes.get, Bytes.fill]
        rw [hguard] at ha
        rw [Nat.succ_mul] at htop
        obtain ⟨y, ptrs, hy, hyx, -⟩ := hx₄ sp rfl _ (h₃ _ (hseg.sees hin _ hz))
        rw [hy a (by omega), hyx a ha]
  · -- No memory for the stack.
    have hk₂ := hk₁.trans (hk₂.of_le (Multiset.le_add_left R _)) le_rfl
    rw [if_pos rfl, wp_bind]
    exact hback ht₂ hf'.user hf'.size hk₂

end Xv6
