import Xv6.Vm.Copy

/-!
# Copying an address space

`uvmcopy` gives the child a page for each page of the parent below the size, with the same
flags and the same contents, and leaves the holes of the parent holes. No page is shared. If
memory runs out, the child keeps no user page (`uvmcopy_copies`).
-/

namespace Xv6

variable {k : Kernel} {s t : Vm} {U R : Multiset ℕ} {old new v w sz : ℕ} {f g : ℕ → ℕ}

/-- The page table `old` and the pages that it maps are as they were. -/
structure Untouched (old : ℕ) (s t : Vm) : Prop where
  table : ∀ b ∈ tables s.mem 2 old, t.mem b = s.mem b
  mapping : ∀ v, mapping t.mem old v = mapping s.mem old v
  pages : ∀ v < userVpn, content t.mem (Xv6.mapping t.mem old) v =
    content s.mem (Xv6.mapping s.mem old) v

theorem Keep.untouched (h : Keep R s t)
    (hold : tables s.mem 2 old + frames (mapping s.mem old) ≤ R) : Untouched old s t := by
  have ht : ∀ b ∈ tables s.mem 2 old, t.mem b = s.mem b := fun b hb =>
    h b (Multiset.mem_of_le hold (Multiset.mem_add.2 (.inl hb)))
  have hm : ∀ v, mapping t.mem old v = mapping s.mem old v := fun v =>
    mapping_congr (leaf_congr ht)
  refine ⟨ht, hm, fun v hv => ?_⟩
  have hk : Keep (frames (mapping s.mem old) + 0) s t := fun b hb =>
    h b (Multiset.mem_of_le hold (Multiset.mem_add.2 (.inr (by rwa [add_zero] at hb))))
  rw [show Xv6.mapping t.mem old = Xv6.mapping s.mem old from funext hm]
  exact hk.content hv

/-- A page that belongs to the user page `v` of the page table `pt`, and to nothing else. -/
structure Private (R : Multiset ℕ) (pt : ℕ) (g : ℕ → ℕ) (v : ℕ) (t : Vm) : Prop where
  free : pteAddr (g v) ∉ t.freelist
  table : pteAddr (g v) ∉ tables t.mem 2 pt
  others : pteAddr (g v) ∉ R
  user : ∀ w < userVpn, w ≠ v → pteV (g w) = true → pteAddr (g w) ≠ pteAddr (g v)

theorem Space.isPrivate (h : Space U R new g t) (hU : Managed k U) (hv : v < userVpn)
    (hV : pteV (g v) = true) : Private R new g v t := by
  have hmem := pteAddr_mem_frames hv hV
  have hd := h.disjoint hU (Multiset.mem_add.2 (.inl hmem))
  exact ⟨hd.1, hd.2, fun hR => h.not_mem_frames hU hR hmem, fun w hw hne hW he =>
    hne (h.frame_inj hU hw hv hW hV he)⟩

theorem pteFlags_copy {pa e : ℕ} (h : pteV e = true) :
    pteFlags (mkPte pa (pteFlags e)) = pteFlags e := by
  rw [pteFlags_mkPte (pteFlags_lt e)]
  refine Nat.eq_of_testBit_eq fun i => ?_
  rw [Nat.testBit_or]
  by_cases hi : i = 0
  · subst hi
    rw [testBit_pteFlags (by omega)]
    rw [pteV] at h
    simp [h]
  · have h₁ : Nat.testBit 1 i = false :=
      Bool.eq_false_iff.2 fun h => hi (Nat.testBit_one_eq_true_iff_self_eq_zero.1 h)
    rw [h₁, Bool.or_false]

/-- `uvmcopy` from the address space of the parent to one without user pages. If it succeeds, a
    page below the size is mapped for the child if and only if it is for the parent, with the
    same flags and contents, and to a page that belongs to no one else. If it fails, the child
    has no user page, and the pages that were taken for copies are free again. The parent is
    left as it was in both cases. -/
theorem uvmcopy_copies {k : Kernel} {U R : Multiset ℕ} {old new sz : ℕ} {f : ℕ → ℕ} {s : Vm}
    (hU : Managed k U) (hs : Space U R new f s) (hsz : sz ≤ trapframeVa)
    (h0 : ∀ v < userVpn, f v = 0)
    (hold : tables s.mem 2 old + frames (mapping s.mem old) ≤ R) :
    wp (uvmcopy k old new sz) (fun r t => Untouched old s t ∧
      (r = true → ∃ g, Space U R new g t ∧ (∀ v, npages sz ≤ v → g v = f v) ∧
        ∀ v < npages sz, pteV (g v) = pteV (mapping s.mem old v) ∧
          (pteV (g v) = true → pteFlags (g v) = pteFlags (mapping s.mem old v) ∧
            t.mem (pteAddr (g v)) = s.mem (pteAddr (mapping s.mem old v)) ∧
            Private R new g v t)) ∧
      (r = false → Space U R new f t ∧
        (t.freelist : Multiset ℕ) + tables t.mem 2 new =
          s.freelist + tables s.mem 2 new)) (fun _ _ => False) s := by
  have htab : tables s.mem 2 old ≤ R := le_trans (Multiset.le_add_right _ _) hold
  have hpages : ∀ v < userVpn, pageOf (mapping s.mem old v) ≤ R := fun v hv =>
    le_trans (pageOf_le_frames hv) (le_trans (Multiset.le_add_left _ _) hold)
  refine wp_uvmcopy hs hU hsz h0 htab hpages (fun g t hg hc hk => ?_) fun t ht hk => ?_
  · refine ⟨(hk.of_le (Multiset.le_add_left R _)).untouched hold, fun _ =>
      ⟨g, hg, fun v hv => hc.same v (.inr hv), fun v hv => ?_⟩, fun h => (by cases h)⟩
    cases hV : pteV (mapping s.mem old v) with
    | false =>
      have hz := hc.hole v (Nat.zero_le v) hv hV
      rw [hz, pteV_zero]
      exact ⟨rfl, fun h => (by cases h)⟩
    | true =>
      obtain ⟨pa, hpa, he, hm⟩ := hc.copy v (Nat.zero_le v) hv hV
      have hgV : pteV (g v) = true := by rw [he, pteV_mkPte]
      refine ⟨hgV, fun _ => ⟨by rw [he, pteFlags_copy hV], ?_,
        hg.isPrivate hU (hv.trans_le (npages_le_user hsz)) hgV⟩⟩
      rw [he, pteAddr_mkPte hpa (pteFlags_lt _), hm]
  · refine ⟨hk.untouched hold, fun h => (by cases h), fun _ => ⟨ht, ?_⟩⟩
    have hown := ht.own.trans hs.own.symm
    rw [add_assoc _ (frames f), add_assoc _ (frames f)] at hown
    exact add_right_cancel hown

/-- The page of others of `filledVm`, as the page table of a child. -/
theorem space_child : Space freePages
    (tables filledVm.mem 2 0x80007000 + frames (mapping filledVm.mem 0x80007000)) 0x80020000
    (fun _ => 0) filledVm := by
  obtain ⟨hs, -, hk⟩ := space_filledVm
  have hzero : filledVm.mem 0x80020000 = .fill 0 := hk _ (Multiset.mem_singleton_self _)
  refine ⟨?_, fun v _ => ?_, ptWf_of_zero hzero, hs.refreed⟩
  · rw [tables_of_zero hzero, frames_zero, ← hs.own]
    abel
  · have hl : leaf filledVm.mem 2 0x80020000 v = 0 := leaf_of_zero hzero
    rw [mapping, hl, pteV_zero]
    rfl

set_option maxRecDepth 100000 in
theorem uvmcopy_filledVm : wp (uvmcopy emptyKernel 0x80007000 0x80020000 (4 * pgsize))
    (fun r _ => r = true) (fun _ _ => True) filledVm := by
  decide +kernel

/-- Three pages are copied, the last of them a guard page, and the hole between them stays a
    hole. -/
theorem uvmcopy_copies_filledVm :
    ∃ g t, uvmcopy emptyKernel 0x80007000 0x80020000 (4 * pgsize) filledVm = .ok true t ∧
      Untouched 0x80007000 filledVm t ∧
      Space freePages
        (tables filledVm.mem 2 0x80007000 + frames (mapping filledVm.mem 0x80007000)) 0x80020000 g
        t ∧
      ∀ v < 4, pteV (g v) = decide (v ≠ 2) ∧ (v ≠ 2 → pteU (g v) = decide (v < 2) ∧
        t.mem (pteAddr (g v)) = filledVm.mem (pteAddr (mapping filledVm.mem 0x80007000 v)) ∧
        Private (tables filledVm.mem 2 0x80007000 + frames (mapping filledVm.mem 0x80007000))
          0x80020000 g v t) := by
  have hsz : 4 * pgsize ≤ trapframeVa := by decide
  have hcopy := uvmcopy_copies managed_freePages space_child hsz (fun _ _ => rfl) le_rfl
  obtain ⟨r, t, ht, hparent, hok, -⟩ := hcopy.exists_ok
  obtain rfl := uvmcopy_filledVm.of_ok ht
  obtain ⟨g, hs, -, hg⟩ := hok rfl
  refine ⟨g, t, ht, hparent, hs, fun v hv => ?_⟩
  obtain ⟨hV, hcopied⟩ := hg v (by rwa [npages_mul])
  obtain ⟨hVm, hUm⟩ := mapping_filledVm v hv
  refine ⟨hV.trans hVm, fun hne => ?_⟩
  obtain ⟨hflags, hmem, hprivate⟩ := hcopied (by rw [hV, hVm, decide_eq_true hne])
  refine ⟨?_, hmem, hprivate⟩
  rw [← pteU_pteFlags, hflags, pteU_pteFlags, hUm]

end Xv6
