import Xv6.Proc.Calls

/-!
# Growing and shrinking

What `sbrk` does to the memory of a process. When it grows eagerly, the new pages are mapped
and filled with zeros (`Grown`), or nothing that the user can see changes (`SameUser`). When it
shrinks, exactly the pages from the new size on are unmapped and given to the allocator
(`Shrunk`). When it grows lazily, only the size changes.

Between two of these steps, pages of the process can be faulted in, and others run. None of
this changes the bytes that the process sees, if it does not store any itself (`Regrown.sees`):
what it gets back is zero.
-/

namespace Xv6

/-- An `int`. -/
def IsInt (n : ℤ) : Prop := -2 ^ 31 ≤ n ∧ n < 2 ^ 31

instance : DecidablePred IsInt := fun n =>
  inferInstanceAs (Decidable (-2 ^ 31 ≤ n ∧ n < 2 ^ 31))

/-- The size of the process `p` is `sz` now. -/
structure Resized (s t : Procs) (p : Fin nproc) (sz : ℕ) : Prop where
  others : t.others = s.others
  proc : t.proc = Function.update s.proc p { s.proc p with sz }

/-- The process has grown by `n` bytes: the new pages are mapped, and filled with zeros. -/
structure Grown (s t : Procs) (p : Fin nproc) (n : ℕ) : Prop where
  resized : Resized s t p ((s.proc p).sz + n)
  fresh : ∀ v, npages (s.proc p).sz ≤ v → v < npages ((s.proc p).sz + n) → space s p v = 0 ∧
    ∃ pa, PageAddr pa ∧ space t p v = mkPte pa (permR ||| permU ||| permW) ∧
      t.vm.mem pa = .fill 0
  same : ∀ v < userVpn, v < npages (s.proc p).sz ∨ npages ((s.proc p).sz + n) ≤ v →
    space t p v = space s p v
  keep : Keep (frames (space s p)) s.vm t.vm

/-- The user pages are those from before, and no process has changed. -/
structure SameUser (s t : Procs) (p : Fin nproc) : Prop where
  proc : t.proc = s.proc
  map : ∀ v < userVpn, space t p v = space s p v
  keep : Keep (frames (space s p)) s.vm t.vm

/-- The process has shrunk to `sz` bytes: the pages from `sz` on are unmapped, and are on the
    free list. -/
structure Shrunk (s t : Procs) (p : Fin nproc) (sz : ℕ) : Prop where
  resized : Resized s t p sz
  map : ∀ v < userVpn, space t p v = if v < npages sz then space s p v else 0
  freed : (t.vm.freelist : Multiset ℕ) =
    s.vm.freelist + ∑ v ∈ userVpns.filter (npages sz ≤ ·), pageOf (space s p v)
  keep : Keep (frames (space t p)) s.vm t.vm

/-- How `sbrk(n)` ends; `lazily` says how a growth is meant. -/
inductive Sbrk (s : Procs) (p : Fin nproc) (n m : ℤ) : Option ℕ → Procs → Prop
  | grown {t : Procs} : m = sbrkEager → 0 ≤ n → Grown s t p n.toNat →
    Sbrk s p n m (some (s.proc p).sz) t
  | failed {t : Procs} : m = sbrkEager → 0 < n → SameUser s t p → Sbrk s p n m none t
  | lazily {t : Procs} : m ≠ sbrkEager → 0 ≤ n → t.vm = s.vm →
    Resized s t p ((s.proc p).sz + n.toNat) → Sbrk s p n m (some (s.proc p).sz) t
  | shrunk {t : Procs} : n < 0 → -n ≤ (s.proc p).sz →
    Shrunk s t p ((s.proc p).sz + n).toNat → Sbrk s p n m (some (s.proc p).sz) t
  | refused : (s.proc p).sz < -n → Sbrk s p n m (some (s.proc p).sz) s

/-- From `s` to `t`, the process `p` has grown, eagerly or lazily, pages of it were faulted in,
    and others ran that leave its pages alone. -/
inductive Regrown (k : Kernel) (U : Multiset ℕ) (p : Fin nproc) (s : Procs) : Procs → Prop
  | refl : Regrown k U p s s
  | sbrk {t u : Procs} {n m : ℤ} {r : Option ℕ} : Regrown k U p s t → IsInt n → 0 ≤ n →
    (t.proc p).sz + n.toNat ≤ trapframeVa → sysSbrk k p n m t = .ok r u → Regrown k U p s u
  | fault {t u : Procs} {va r : ℕ} : Regrown k U p s t →
    liftVm (vmfault k (t.proc p).sz (t.proc p).pagetable (t.proc p).pagetable va) t = .ok r u →
    Regrown k U p s u
  | other {t u : Procs} : Regrown k U p s t → ProcInv k U u → u.proc p = t.proc p →
    Keep (owned t.vm.mem (t.proc p)) t.vm u.vm → Regrown k U p s u

variable {k : Kernel} {U R : Multiset ℕ} {s t u : Procs} {p q : Fin nproc}
  {E : VmPanic → Procs → Prop} {n m : ℤ} {f g : ℕ → ℕ} {vm : Vm} {sz v : ℕ} {x : ℕ → UInt8}

theorem addInt_pos {sz : ℕ} {n : ℤ} (hsz : sz ≤ trapframeVa) (h₀ : 0 ≤ n) (h₁ : n < 2 ^ 31) :
    addInt sz n = sz + n.toNat := by
  rw [addInt]
  simp only [trapframeVa, trampolineVa, maxVa, pgsize] at hsz
  omega

/-- The map of a process that shrinks. -/
theorem UserMap.unmapped {tf sz newsz : ℕ} {f : ℕ → ℕ} (h : UserMap k tf sz f)
    (hsz : sz ≤ trapframeVa) :
    UserMap k tf (min sz newsz) (Xv6.unmapped f (npages newsz) (npages sz)) := by
  have ht := trampolineVpn_eq
  have hm := maxVpn_eq
  have hb := npages_le_user hsz
  have hsame : ∀ v, userVpn ≤ v → Xv6.unmapped f (npages newsz) (npages sz) v = f v := fun v hv => by
    rw [Xv6.unmapped, if_neg (by omega)]
  have hval : ∀ v, pteV (Xv6.unmapped f (npages newsz) (npages sz) v) = true →
      ¬(npages newsz ≤ v ∧ v < npages sz) ∧ Xv6.unmapped f (npages newsz) (npages sz) v = f v := by
    intro v hV
    rw [Xv6.unmapped] at hV ⊢
    split at hV
    · rw [pteV_zero] at hV
      cases hV
    · rename_i hn
      exact ⟨hn, if_neg hn⟩
  refine ⟨?_, ?_, fun v h₁ h₂ => ?_, fun v hv hV => ?_, fun v hv hV => ?_⟩
  · rw [hsame _ le_rfl, h.trapframe]
  · rw [hsame _ (by omega), h.trampoline]
  · rw [hsame _ (by omega), h.above v h₁ h₂]
  · obtain ⟨-, e⟩ := hval v hV
    rw [e] at hV ⊢
    exact h.readable v hv hV
  · obtain ⟨hn, e⟩ := hval v hV
    rw [e] at hV
    have := h.below v hv hV
    rcases Nat.le_total sz newsz with hle | hle
    · rwa [Nat.min_eq_left hle]
    · rw [Nat.min_eq_right hle]
      omega

/-- A size that becomes negative wraps around. -/
theorem le_addInt (hn : IsInt n) (h₀ : (sz : ℤ) < -n) : sz ≤ addInt sz n := by
  obtain ⟨h₁, h₂⟩ := hn
  rw [addInt]
  omega

theorem addInt_neg (hsz : sz ≤ trapframeVa) (h₀ : n < 0) (h₁ : -n ≤ sz) :
    addInt sz n = ((sz : ℤ) + n).toNat := by
  rw [addInt]
  simp only [trapframeVa, trampolineVa, maxVa, pgsize] at hsz
  omega

theorem Resized.legal (h : Resized s t p sz) (hs : Legal s) (hsz : sz ≤ trapframeVa) : Legal t := by
  intro q
  rw [h.proc]
  by_cases hq : q = p
  · rw [hq, Function.update_self]
    exact hsz
  · rw [Function.update_of_ne hq]
    exact hs q

theorem Resized.space (h : Resized s t p sz) :
    space t p = mapping t.vm.mem (s.proc p).pagetable := by
  rw [Xv6.space, h.proc, Function.update_self]

/-- The new pages that `uvmalloc` maps. -/
theorem Grown.of_filled {n : ℕ} (hr : Resized s t p ((s.proc p).sz + n))
    (ht : Space U R (s.proc p).pagetable g t.vm)
    (hnp : npages ((s.proc p).sz + n) ≤ userVpn)
    (hg : Filled (space s p) g (npages (s.proc p).sz) (npages ((s.proc p).sz + n))
      (permR ||| permU ||| permW) t.vm)
    (hk : Keep (frames (space s p) + R) s.vm t.vm) : Grown s t p n := by
  have hmap : ∀ v < userVpn, space t p v = g v := fun v hv => by
    rw [hr.space, ht.map v (lt_leafVpn (lt_maxVpn_of_user hv))]
  refine ⟨hr, fun v h₁ h₂ => ?_, fun v hv h => ?_, hk.of_le (Multiset.le_add_right _ _)⟩
  · obtain ⟨pa, hpa, he, hz⟩ := hg.fresh v h₁ h₂
    exact ⟨hg.unused v h₁ h₂, pa, hpa, by rw [hmap v (by omega), he], hz⟩
  · rw [hmap v hv, hg.same v h]

/-- The pages that `uvmdealloc` unmaps. -/
theorem Shrunk.of_unmapped (hs : Space U R (s.proc p).pagetable (space s p) s.vm)
    (hf : ∀ v < userVpn, pteV (space s p v) = true → v < npages (s.proc p).sz)
    (hr : Resized s t p sz)
    (ht : Space U R (s.proc p).pagetable (unmapped (space s p) (npages sz) (npages (s.proc p).sz))
      t.vm)
    (hk : Keep (frames (unmapped (space s p) (npages sz) (npages (s.proc p).sz)) + R) s.vm t.vm)
    (htab : tables t.vm.mem 2 (s.proc p).pagetable = tables s.vm.mem 2 (s.proc p).pagetable) :
    Shrunk s t p sz := by
  have hmap : ∀ v < userVpn,
      unmapped (space s p) (npages sz) (npages (s.proc p).sz) v =
        if v < npages sz then space s p v else 0 := fun v hv => by
    rw [unmapped]
    split_ifs with h₁ h₂ h₂
    · omega
    · rfl
    · rfl
    · cases hV : pteV (space s p v) with
      | true => exact absurd ⟨by omega, hf v hv hV⟩ h₁
      | false => exact mapping_of_invalid hV
  have hmap' : ∀ v < userVpn, space t p v =
      unmapped (space s p) (npages sz) (npages (s.proc p).sz) v := fun v hv => by
    rw [hr.space, ht.map v (lt_leafVpn (lt_maxVpn_of_user hv))]
  refine ⟨hr, fun v hv => by rw [hmap' v hv, hmap v hv], ?_, ?_⟩
  · -- The pages are the same in both states, and so are those of the page table.
    have hframes : frames (space s p) =
        frames (unmapped (space s p) (npages sz) (npages (s.proc p).sz)) +
          ∑ v ∈ userVpns.filter (npages sz ≤ ·), pageOf (space s p v) := by
      rw [frames, frames, Finset.sum_filter, ← Finset.sum_add_distrib]
      refine Finset.sum_congr rfl fun v hv => ?_
      rw [hmap v (mem_userVpns.1 hv)]
      by_cases hlt : v < npages sz
      · rw [if_pos hlt, if_neg (by omega), add_zero]
      · rw [if_neg hlt, if_pos (by omega), pageOf_zero, zero_add]
    have h₁ := hs.own
    have h₂ := ht.own
    rw [htab] at h₂
    rw [hframes, ← h₂] at h₁
    refine add_right_cancel (b := tables s.vm.mem 2 (s.proc p).pagetable +
      frames (unmapped (space s p) (npages sz) (npages (s.proc p).sz)) + R) ?_
    rw [← add_assoc, ← add_assoc, ← h₁]
    abel
  · rw [frames_congr hmap']
    exact hk.of_le (Multiset.le_add_right _ _)

/-- `growproc` panics beyond `TRAPFRAME` only. -/
theorem wp_growproc {Q : Bool → Procs → Prop} (h : ProcInv k U s) (hU : Managed k U)
    (hs : (s.proc p).sz ≤ trapframeVa) (hp : (s.proc p).state ≠ .unused) (hn : IsInt n)
    (hgrow : 0 ≤ n → ∀ t, Kept k U s t → (s.proc p).sz + n.toNat ≤ trapframeVa →
      Grown s t p n.toNat → Q true t)
    (hfail : 0 < n → ∀ t, Kept k U s t → SameUser s t p → Q false t)
    (hshrink : n < 0 → -n ≤ (s.proc p).sz → ∀ t, Kept k U s t →
      Shrunk s t p ((s.proc p).sz + n).toNat → Q true t)
    (hrefuse : (s.proc p).sz < -n → Q true s)
    (hE : trapframeVa < (s.proc p).sz + n.toNat → ∀ t : Procs, t.vm.refreed = false → E .remap t) :
    wp (growproc k p n) Q E s := by
  have hl := (h.slot p).live hp
  have hsp := h.focus hp
  have hle := Multiset.le_add_left ((s.proc p).trapframe ::ₘ rest s p) (frames (space s p))
  simp only [growproc, wp_bind, wp_get]
  split
  · rename_i hpos
    rw [addInt_pos hs (by omega) hn.2]
    simp only [wp_bind, wp_liftVm]
    refine wp_uvmalloc hsp hU (by decide) hs hl.user.trapframe_valid (fun hlt => by omega)
      (fun g vm hle' hnp hg hfill hk => ?_) (fun vm _ hvm hk => ?_) fun g w vm hle hbad hr => ?_
    · have hle₂ := le_trapframeVa_of_npages hnp
      rw [if_neg (by omega), wp_bind, wp_setProc, wp_pure]
      refine hgrow hpos.le _ (h.resize hp hg ?_ (hk.of_le hle)) hle₂
        (.of_filled ⟨rfl, rfl⟩ hg hnp hfill hk)
      exact hl.user.filled hfill rfl (npages_mono hle') hnp (pteR_userPerm _)
    · rw [if_pos rfl, wp_pure]
      have hkept := h.resize hp hvm hl.user (hk.of_le hle)
      rw [update_sz] at hkept
      exact hfail hpos _ hkept ⟨rfl, fun v hv => hvm.map v (lt_leafVpn (lt_maxVpn_of_user hv)),
        hk.of_le (Multiset.le_add_right _ _)⟩
    · -- A page that is mapped is below the size, or is the trapframe.
      refine hE ?_ _ hr
      by_contra hle'
      have hb : npages ((s.proc p).sz + n.toNat) ≤ userVpn := npages_le_user (by omega)
      have h₁ := hbad.ge
      have h₂ := hbad.lt
      have := hl.user.below w (by omega) hbad.valid
      omega
  · rename_i hpos
    simp only [wp_bind]
    split
    · rename_i hneg
      by_cases hbig : ((s.proc p).sz : ℤ) < -n
      · rw [uvmdealloc, if_pos (le_addInt hn hbig), wp_liftVm, wp_pure, wp_setProc, wp_pure,
          update_sz]
        exact hrefuse hbig
      · rw [addInt_neg hs hneg (by omega), wp_liftVm]
        refine wp_uvmdealloc hsp hU hs fun vm hvm hk htab => ?_
        rw [wp_setProc, wp_pure]
        have hmin : min (s.proc p).sz (((s.proc p).sz : ℤ) + n).toNat =
            (((s.proc p).sz : ℤ) + n).toNat := by omega
        have hun : UserMap k (s.proc p).trapframe
            (min (s.proc p).sz (((s.proc p).sz : ℤ) + n).toNat) _ := hl.user.unmapped hs
        rw [hmin] at hun ⊢
        exact hshrink hneg (by omega) _ (h.resize hp hvm hun (hk.of_le (Multiset.le_add_left _ _)))
          (.of_unmapped hsp hl.user.below ⟨rfl, rfl⟩ hvm hk htab)
    · have hn0 : n = 0 := by omega
      subst hn0
      rw [wp_pure, wp_setProc, wp_pure, update_sz]
      refine hgrow le_rfl _ (.of_state h fun _ h => h) hs ⟨⟨rfl, ?_⟩, fun v h₁ h₂ => ?_,
        fun _ _ _ => rfl, .refl _ _⟩
      · exact (Function.update_eq_self p s.proc).symm
      · exact absurd h₂ (by simpa using h₁)

/-- `sys_sbrk`. A lazy growth is legal if it stays below `TRAPFRAME`. -/
theorem wp_sysSbrk {Q : Option ℕ → Procs → Prop} (h : ProcInv k U s) (hU : Managed k U)
    (hs : (s.proc p).sz ≤ trapframeVa) (hp : (s.proc p).state ≠ .unused) (hn : IsInt n)
    (hok : ∀ r t, Kept k U s t → Sbrk s p n m r t → Q r t)
    (hE : m = sbrkEager → trapframeVa < (s.proc p).sz + n.toNat →
      ∀ t : Procs, t.vm.refreed = false → E .remap t) :
    wp (sysSbrk k p n m) Q E s := by
  simp only [sysSbrk, wp_bind, wp_get]
  split
  · rename_i hm
    rw [wp_bind]
    refine wp_growproc h hU hs hp hn (fun h₀ t ht _ hg => ?_) (fun h₀ t ht hsame => ?_)
      (fun h₀ h₁ t ht hsh => ?_) (fun hbig => ?_) fun hlt => hE ?_ hlt
    · exact hok _ t ht (.grown (hm.resolve_right (by omega)) h₀ hg)
    · exact hok _ t ht (.failed (hm.resolve_right (by omega)) h₀ hsame)
    · exact hok _ t ht (.shrunk h₀ h₁ hsh)
    · exact hok _ s (.of_state h fun _ h => h) (.refused hbig)
    · refine hm.resolve_right fun hneg => ?_
      rw [Int.toNat_of_nonpos hneg.le] at hlt
      omega
  · rename_i hneg
    obtain ⟨hm, h₀⟩ := not_or.1 hneg
    have hl := (h.slot p).live hp
    have hadd := addInt_pos hs (by omega) hn.2
    rw [hadd, if_neg (by omega), wp_bind, wp_setProc, wp_pure, hadd]
    have hf : UserMap k (s.proc p).trapframe ((s.proc p).sz + n.toNat) (space s p) := by
      refine { hl.user with below := fun v hv hV => ?_ }
      have := hl.user.below v hv hV
      have := npages_mono (a := (s.proc p).sz) (b := (s.proc p).sz + n.toNat) (by omega)
      omega
    exact hok _ _ (h.resize hp (h.focus hp) hf (.refl _ _)) (.lazily hm (by omega) rfl ⟨rfl, rfl⟩)

/-- Sizes up to `TRAPFRAME` stay so. -/
theorem Sbrk.legal {r : Option ℕ} (h : Sbrk s p n m r t) (hs : Legal s)
    (hn : (s.proc p).sz + n.toNat ≤ trapframeVa) : Legal t := by
  cases h with
  | grown _ _ hg => exact hg.resized.legal hs hn
  | failed _ _ hsame =>
    intro q
    rw [hsame.proc]
    exact hs q
  | lazily _ _ _ hr => exact hr.legal hs hn
  | shrunk hneg h₁ hsh =>
    have := hs p
    exact hsh.resized.legal hs (by omega)
  | refused => exact hs

/-! ## What the process sees -/

theorem Grown.sees {n : ℕ} (h : Grown s t p n) (hx : Sees (space s p) x s.vm) :
    Sees (space t p) x t.vm := by
  refine hx.of_content fun v hv => ?_
  by_cases hin : npages (s.proc p).sz ≤ v ∧ v < npages ((s.proc p).sz + n)
  · obtain ⟨h₀, pa, hpa, he, hz⟩ := h.fresh v hin.1 hin.2
    rw [content_of_valid (by rw [he, pteV_mkPte]), he, pteAddr_mkPte hpa (by decide), hz,
      content_of_invalid (by rw [h₀, pteV_zero])]
  · have hk : Keep (frames (space s p) + 0) s.vm t.vm := by rw [add_zero]; exact h.keep
    rw [← hk.content hv, content, content, h.same v hv (by omega)]

theorem SameUser.sees (h : SameUser s t p) (hx : Sees (space s p) x s.vm) :
    Sees (space t p) x t.vm := by
  have hk : Keep (frames (space s p) + 0) s.vm t.vm := by rw [add_zero]; exact h.keep
  refine hx.of_content fun v hv => ?_
  rw [← hk.content hv, content, content, h.map v hv]

/-- After shrinking, the bytes of the pages that are left are those from before, and the others
    are zero. -/
theorem Shrunk.sees (h : Shrunk s t p sz) (hx : Sees (space s p) x s.vm) :
    Sees (space t p) (fun a => if a < npages sz * pgsize then x a else 0) t.vm := by
  intro a ha
  have hv := vpn_lt_of_user ha
  have hlt : a < npages sz * pgsize ↔ a / pgsize < npages sz := by
    rw [Nat.div_lt_iff_lt_mul pgsize_pos]
  have hmap := h.map _ hv
  dsimp only
  by_cases hin : a / pgsize < npages sz
  · rw [if_pos hin] at hmap
    have hk : Keep (frames (space t p) + 0) s.vm t.vm := by rw [add_zero]; exact h.keep
    rw [if_pos (hlt.2 hin), ← hx a ha]
    refine userByte_congr ?_
    rw [hk.content hv, content, content, hmap]
  · rw [if_neg hin] at hmap
    rw [if_neg fun hc => hin (hlt.1 hc), userByte,
      content_of_invalid (by rw [hmap, pteV_zero])]
    simp [Bytes.get, Bytes.fill]

/-- The process sees the same bytes, whatever it gets back. -/
theorem Regrown.sees (h : Regrown k U p s t) (hU : Managed k U) (hinv : ProcInv k U s)
    (hp : (s.proc p).state ≠ .unused) (hs : (s.proc p).sz ≤ trapframeVa) :
    (ProcInv k U t ∧ (t.proc p).state ≠ .unused ∧ (t.proc p).sz ≤ trapframeVa) ∧
      ∀ x, Sees (space s p) x s.vm → Sees (space t p) x t.vm := by
  induction h with
  | refl => exact ⟨⟨hinv, hp, hs⟩, fun _ hx => hx⟩
  | @sbrk t u n m r _ hn h₀ hle hrun ih =>
    obtain ⟨⟨hi, ha, hsz⟩, hsees⟩ := ih
    have hwp := wp_sysSbrk (E := fun _ _ => True) (m := m) (Q := fun r u => Kept k U t u ∧
      Sbrk t p n m r u) hi hU hsz ha hn (fun _ _ h₁ h₂ => ⟨h₁, h₂⟩) fun _ _ _ _ => trivial
    obtain ⟨hk, hd⟩ := hwp.of_ok hrun
    have hres : ∀ sz, sz ≤ trapframeVa → Resized t u p sz →
        (u.proc p).state ≠ .unused ∧ (u.proc p).sz ≤ trapframeVa := fun sz hsz hr => by
      rw [hr.proc, Function.update_self]
      exact ⟨ha, hsz⟩
    cases hd with
    | grown _ _ hg =>
      exact ⟨⟨hk.inv, hres _ hle hg.resized⟩, fun x hx => hg.sees (hsees x hx)⟩
    | failed _ _ hsame =>
      exact ⟨⟨hk.inv, by rw [hsame.proc]; exact ⟨ha, hsz⟩⟩, fun x hx => hsame.sees (hsees x hx)⟩
    | lazily _ _ hvm hr =>
      refine ⟨⟨hk.inv, hres _ hle hr⟩, fun x hx => ?_⟩
      rw [hr.space, hvm]
      exact hsees x hx
    | shrunk hneg => omega
    | refused hbig => omega
  | @fault t u va r _ hrun ih =>
    obtain ⟨⟨hi, ha, hsz⟩, hsees⟩ := ih
    have hwp : wp (liftVm (vmfault k (t.proc p).sz (t.proc p).pagetable (t.proc p).pagetable va))
        (fun _ u => Kept k U t u ∧ u.proc = t.proc ∧
          ∀ x, Sees (space t p) x t.vm → Sees (space u p) x u.vm) (fun _ _ => True) t :=
      wp_vmfault_proc hi hU hsz ha fun _ _ h₁ h₂ h₃ => ⟨h₁, h₂, h₃⟩
    obtain ⟨hk, hproc, hx'⟩ := hwp.of_ok hrun
    exact ⟨⟨hk.inv, by rw [hproc]; exact ⟨ha, hsz⟩⟩, fun x hx => hx' x (hsees x hx)⟩
  | @other t u _ hi' hproc hkeep ih =>
    obtain ⟨⟨hi, ha, hsz⟩, hsees⟩ := ih
    refine ⟨⟨hi', by rw [hproc]; exact ⟨ha, hsz⟩⟩, fun x hx => (hsees x hx).of_content fun v hv => ?_⟩
    have hpt := ((hi.slot p).live ha).pagetable
    rw [owned, spacePages, if_neg hpt, add_assoc] at hkeep
    have htab : ∀ b ∈ tables t.vm.mem 2 (t.proc p).pagetable, u.vm.mem b = t.vm.mem b :=
      fun b hb => hkeep b (Multiset.mem_add.2 (.inl hb))
    have hmap : space u p v = space t p v := by
      rw [space, space, hproc, mapping_congr (leaf_congr htab)]
    rw [← (hkeep.of_le (Multiset.le_add_left _ _)).content hv, content, content, hmap]

end Xv6
