import Xv6.Vm.Free

/-!
# The specifications of the `uvm` functions

What `uvmunmap`, `uvmdealloc`, `uvmalloc` and `uvmfree` do to an address space. Each of
them keeps the pages apart, on all its paths: what it took before it failed is given back.
-/

namespace Xv6

variable {k : Kernel} {E : VmPanic → Vm → Prop} {s t u : Vm} {U R R' B B' D : Multiset ℕ}
  {pt v w n sz pa perm : ℕ} {f g : ℕ → ℕ}

/-! ## Sizes -/

/-- The number of pages of `sz` bytes. -/
def npages (sz : ℕ) : ℕ := (sz + (pgsize - 1)) / pgsize

theorem pgRoundUp_eq (h : sz + pgsize ≤ 2 ^ 64) : pgRoundUp sz = npages sz * pgsize := by
  rw [pgRoundUp, npages, Nat.mod_eq_of_lt]
  simp only [pgsize] at *
  omega

theorem npages_le_user (h : sz ≤ trapframeVa) : npages sz ≤ userVpn := by
  simp only [npages, userVpn, trapframeVa, trampolineVa, maxVa, pgsize] at *
  omega

theorem npages_mono {a b : ℕ} (h : a ≤ b) : npages a ≤ npages b :=
  Nat.div_le_div_right (by omega)

theorem npages_mul (v : ℕ) : npages (v * pgsize) = v := by
  simp only [npages, pgsize]
  omega

theorem le_npages_mul (n : ℕ) : n ≤ npages n * pgsize := by
  simp only [npages, pgsize]
  omega

theorem addInt_toInt (h : n < 2 ^ 31) : addInt 0 (toInt n) = n := by
  rw [toInt_of_lt h, addInt]
  omega

/-! ## Unmapping -/

/-- Unmapping and freeing user pages. -/
theorem wp_uvmunmap {Q : PUnit → Vm → Prop} (h : Space U R pt f s) (hU : Managed k U)
    (hn : v + n ≤ userVpn)
    (hok : ∀ t, Space U R pt (unmapped f v (v + n)) t →
      Keep (frames (unmapped f v (v + n)) + R) s t →
      tables t.mem 2 pt = tables s.mem 2 pt → Q ⟨⟩ t) :
    wp (uvmunmap k pt (v * pgsize) n true) Q E s := by
  have hstop : ((v * pgsize + n * pgsize) % 2 ^ 64 - v * pgsize) / pgsize = n := by
    simp only [userVpn, trapframeVa, trampolineVa, maxVa, pgsize] at *
    omega
  rw [uvmunmap, if_neg (by simp)]
  simp only [hstop]
  simp only [← Nat.add_mul]
  have h0 : Space U R pt (unmapped f v (v + 0)) s ∧
      Keep (frames (unmapped f v (v + 0)) + R) s s ∧ tables s.mem 2 pt = tables s.mem 2 pt :=
    ⟨h.congr fun w _ => by rw [unmapped, if_neg (by omega)], .refl _ _, rfl⟩
  refine (wp_forRange (E := E) (a := 0) (k := n) (fun i t => Space U R pt (unmapped f v (v + i)) t ∧
    Keep (frames (unmapped f v (v + i)) + R) s t ∧ tables t.mem 2 pt = tables s.mem 2 pt) h0
      fun i t _ hi ht => ?_).mono
    (fun _ t ht => ?_) fun _ _ he => he
  · refine wp_unmapPage_user ht.1 hU (by omega) fun u hu hkeep htab => ?_
    rw [← unmapped_succ f (by omega : v ≤ v + i), add_assoc] at hu hkeep
    refine ⟨hu, (ht.2.1.of_le ?_).trans hkeep le_rfl, htab.trans ht.2.2⟩
    refine add_le_add_left ?_ R
    rw [← add_assoc, unmapped_succ f (by omega : v ≤ v + i)]
    have hup := frames_update (f := unmapped f v (v + i)) (v := v + i) (by omega) 0
    rw [pageOf_zero, add_zero] at hup
    exact hup ▸ Multiset.le_add_right _ _
  · rw [zero_add] at ht
    exact hok t ht.1 ht.2.1 ht.2.2

/-- Unmapping the page of the trampoline or of the trapframe. -/
theorem wp_uvmunmap_keep {Q : PUnit → Vm → Prop} (h : Space U R pt f s) (hU : Managed k U)
    (hv : userVpn ≤ v) (hvm : v < maxVpn)
    (hok : ∀ t, Space U R pt (Function.update f v 0) t → Keep (frames f + R) s t → Q ⟨⟩ t) :
    wp (uvmunmap k pt (v * pgsize) 1 false) Q E s := by
  have hstop : ((v * pgsize + 1 * pgsize) % 2 ^ 64 - v * pgsize) / pgsize = 1 := by
    simp only [maxVpn, maxVa, pgsize] at *
    omega
  rw [uvmunmap, if_neg (by simp)]
  simp only [hstop, forRange, Nat.zero_mul, Nat.add_zero, wp_bind, wp_pure]
  refine wp_unmapPage_keep (h.apart hU) hvm fun t ht => ?_
  have ht' := ht.congr (g := Function.update f v 0) fun w hw => by
    by_cases hwv : w = v
    · rw [hwv, Function.update_self, Function.update_self]
    · rw [Function.update_of_ne hwv, Function.update_of_ne hwv, h.map w hw]
  have hfr := frames_update_of_le (f := f) hv 0
  obtain ⟨hsp, hkeep⟩ := h.remaps R hU ht' (by rw [add_zero, hfr])
  rw [hfr] at hkeep
  exact hok t hsp hkeep

/-- Freeing the user pages above a size. -/
theorem wp_uvmdealloc {oldsz newsz : ℕ} {Q : ℕ → Vm → Prop} (h : Space U R pt f s)
    (hU : Managed k U) (hold : oldsz ≤ trapframeVa)
    (hok : ∀ t, Space U R pt (unmapped f (npages newsz) (npages oldsz)) t →
      Keep (frames (unmapped f (npages newsz) (npages oldsz)) + R) s t →
      tables t.mem 2 pt = tables s.mem 2 pt → Q (min oldsz newsz) t) :
    wp (uvmdealloc k pt oldsz newsz) Q E s := by
  have hnone : npages oldsz ≤ npages newsz →
      Space U R pt (unmapped f (npages newsz) (npages oldsz)) s := fun hle =>
    h.congr fun w _ => by rw [unmapped, if_neg (by omega)]
  rw [uvmdealloc]
  split
  · rename_i hle
    have := hok s (hnone (npages_mono hle)) (.refl _ _) rfl
    rwa [Nat.min_eq_left hle] at this
  · rename_i hlt
    have hb := npages_le_user hold
    have hr : ∀ x ≤ trapframeVa, pgRoundUp x = npages x * pgsize := fun x hx => pgRoundUp_eq (by
      simp only [trapframeVa, trampolineVa, maxVa, pgsize] at *
      omega)
    simp only [wp_bind, wp_pure, hr oldsz hold, hr newsz (by omega)]
    rw [Nat.min_eq_right (by omega)] at hok
    split
    · rename_i hlt'
      have hlt' : npages newsz < npages oldsz := Nat.lt_of_mul_lt_mul_right hlt'
      have hq : addInt 0 (toInt ((npages oldsz * pgsize - npages newsz * pgsize) / pgsize)) =
          npages oldsz - npages newsz := by
        rw [← Nat.sub_mul, vpn_mul_div, addInt_toInt]
        simp only [userVpn, trapframeVa, trampolineVa, maxVa, pgsize] at hb
        omega
      rw [hq]
      refine wp_uvmunmap h hU (by omega) fun t ht hkeep htab => ?_
      rw [show npages newsz + (npages oldsz - npages newsz) = npages oldsz by omega] at ht hkeep
      exact hok t ht hkeep htab
    · rename_i hge
      refine hok s (hnone ?_) (.refl _ _) rfl
      by_contra hc
      exact hge (Nat.mul_lt_mul_of_pos_right (by omega) pgsize_pos)

/-! ## Allocating -/

/-- The pages from `a` to `b` were not mapped by `f`; `g` maps them to pages of zeros. -/
structure Filled (f g : ℕ → ℕ) (a b perm : ℕ) (t : Vm) : Prop where
  same : ∀ w, w < a ∨ b ≤ w → g w = f w
  unused : ∀ w, a ≤ w → w < b → f w = 0
  fresh : ∀ w, a ≤ w → w < b → ∃ pa, PageAddr pa ∧ g w = mkPte pa perm ∧ t.mem pa = .fill 0

theorem unmapped_update {a : ℕ} (hav : a ≤ v) (h0 : f v = 0) (e : ℕ) :
    unmapped (Function.update f v e) a (v + 1) = unmapped f a v := by
  funext w
  by_cases hwv : w = v
  · subst hwv
    rw [unmapped, unmapped, if_pos ⟨hav, by omega⟩, if_neg (by omega), h0]
  · rw [unmapped, unmapped, Function.update_of_ne hwv]
    congr 1
    exact propext ⟨fun h => ⟨h.1, by omega⟩, fun h => ⟨h.1, by omega⟩⟩

/-- Why mapping the pages from `a` on may panic: the pages up to some `w` have been mapped,
    and `w` was mapped before. -/
structure Remapped (U : Multiset ℕ) (f g : ℕ → ℕ) (a b w : ℕ) : Prop where
  ge : a ≤ w
  lt : w < b
  user : w ≤ userVpn
  valid : pteV (f w) = true
  same : ∀ x, x < a → g x = f x
  full : ∀ x, a ≤ x → x < w → pteV (g x) = true
  card : (frames g).card ≤ U.card

/-- The loop of `uvmalloc`. When it fails, the pages from `a` on are not mapped. -/
theorem wp_allocFrom {a xperm : ℕ} {Q : Bool → Vm → Prop} (h : Space U R pt f s)
    (hU : Managed k U) (hx : xperm < 1024) (hav : a ≤ v) (hv : v ≤ userVpn)
    (htf : pteV (f userVpn) = true)
    (hok : ∀ g t, Space U R pt g t → Filled f g v (v + n) (permR ||| permU ||| xperm) t →
      v + n ≤ userVpn → Keep (frames f + R) s t → Q true t)
    (hfail : ∀ t, Space U R pt (unmapped f a v) t → Keep (frames (unmapped f a v) + R) s t →
      Q false t)
    (hE : ∀ g w t, Remapped U f g v (v + n) w → t.refreed = false → E .remap t) :
    wp (allocFrom k pt (a * pgsize) xperm n (v * pgsize)) Q E s := by
  induction n generalizing v f s with
  | zero =>
    rw [allocFrom, wp_pure]
    refine hok f s h ⟨fun _ _ => rfl, fun w h₁ h₂ => ?_, fun w h₁ h₂ => ?_⟩ hv (.refl _ _) <;> omega
  | succ n ih =>
    have hperm : permR ||| permU ||| xperm < 1024 :=
      Nat.or_lt_two_pow (n := 10) (by decide) hx
    have hvm : v < maxVpn := by
      simp only [userVpn, trapframeVa, trampolineVa, maxVpn, maxVa, pgsize] at *
      omega
    -- Giving back what was allocated from `a` on.
    have hback : ∀ t, Space U R pt f t → Keep (frames f + R) s t →
        wp (uvmdealloc k pt (v * pgsize) (a * pgsize)) (fun _ => Q false) E t := by
      intro t ht hk
      have hle : v * pgsize ≤ trapframeVa := by
        simp only [userVpn, trapframeVa, trampolineVa, maxVa, pgsize] at *
        omega
      refine wp_uvmdealloc ht hU hle fun u hu hku _ => ?_
      rw [npages_mul, npages_mul] at hu hku
      refine hfail u hu ((hk.of_le ?_).trans hku le_rfl)
      exact add_le_add_left (frames_unmapped_le f a v) R
    rw [allocFrom, wp_bind]
    refine wp_kalloc_space h hU (fun t ht hm => ?_) fun r t hr0 ht hm => ?_
    · simp only [if_pos, wp_bind, wp_pure]
      exact hback t ht fun b _ => by rw [hm]
    · simp only [if_neg hr0, memset, wp_bind, wp_modify]
      obtain ⟨hz, hk0, hr, -⟩ := ht.fresh hU hm (.fill 0)
      have hu : f v = 0 → v < userVpn := by
        intro h0
        rcases Nat.lt_or_eq_of_le hv with hlt | rfl
        · exact hlt
        · rw [h0, pteV_zero] at htf
          cases htf
      refine wp_mappages_fresh hz hU hk0 hr hvm hu hperm (fun u h0 hsp hsum hur hku => ?_)
        (fun u hsp hku => ?_) fun hval u hr => hE f v u ?_ hr
      · -- The page is mapped.
        have hvu := hu h0
        rw [if_pos rfl, show v * pgsize + pgsize = (v + 1) * pgsize by ring]
        refine ih hsp (by omega) (by omega) ?_ (fun g w hw hfill hle hkw => ?_)
          (fun w hw hkw => ?_) fun g w u hbad hr => hE g w u ?_ hr
        · rw [Function.update_of_ne (by omega)]
          exact htf
        · rw [hsum] at hkw
          refine hok g w hw ⟨fun x hx => ?_, fun x h₁ h₂ => ?_, fun x h₁ h₂ => ?_⟩ (by omega)
            (hku.trans hkw (add_le_add_right (Multiset.le_cons_self R r) _))
          · rw [hfill.same x (by omega), Function.update_of_ne (by omega)]
          · by_cases hxv : x = v
            · rw [hxv, h0]
            · have := hfill.unused x (by omega) (by omega)
              rwa [Function.update_of_ne hxv] at this
          · by_cases hxv : x = v
            · subst hxv
              refine ⟨r, hr, by rw [hfill.same x (by omega), Function.update_self], ?_⟩
              rw [hkw r (Multiset.mem_add.2 (.inr (Multiset.mem_cons_self r R))), hur]
              exact Function.update_self _ _ _
            · exact hfill.fresh x (by omega) (by omega)
        · rw [unmapped_update hav h0] at hw hkw
          refine hfail w hw ((hku.of_le ?_).trans hkw le_rfl)
          exact add_le_add_left (frames_unmapped_le f a v) R
        · have hge := hbad.ge
          refine ⟨by omega, by have := hbad.lt; omega, hbad.user, ?_, fun x hx => ?_,
            fun x h₁ h₂ => ?_, hbad.card⟩
          · have hval := hbad.valid
            rwa [Function.update_of_ne (by omega)] at hval
          · rw [hbad.same x (by omega), Function.update_of_ne (by omega)]
          · by_cases hxv : x = v
            · rw [hxv, hbad.same v (by omega), Function.update_self, pteV_mkPte]
            · exact hbad.full x (by omega) h₂
      · -- There was no page for the page table.
        simp only [Bool.false_eq_true, if_false, wp_bind, wp_pure]
        exact wp_kfree_space hsp hU fun w hw hkw => hback w hw (hku.trans hkw le_rfl)
      · -- The page was mapped.
        exact ⟨le_rfl, by omega, hv, hval, fun _ _ => rfl, fun x h₁ h₂ => by omega,
          Multiset.card_le_card h.frames_le⟩

/-- Allocating the user pages up to a size. -/
theorem wp_uvmalloc {oldsz newsz xperm : ℕ} {Q : ℕ → Vm → Prop} (h : Space U R pt f s)
    (hU : Managed k U) (hx : xperm < 1024) (hold : oldsz ≤ trapframeVa)
    (htf : pteV (f userVpn) = true)
    (hless : newsz < oldsz → Q oldsz s)
    (hok : ∀ g t, oldsz ≤ newsz → npages newsz ≤ userVpn → Space U R pt g t →
      Filled f g (npages oldsz) (npages newsz) (permR ||| permU ||| xperm) t →
      Keep (frames f + R) s t → Q newsz t)
    (hfail : ∀ t, oldsz ≤ newsz → Space U R pt f t → Keep (frames f + R) s t → Q 0 t)
    (hE : ∀ g w t, oldsz ≤ newsz → Remapped U f g (npages oldsz) (npages newsz) w →
      t.refreed = false → E .remap t) :
    wp (uvmalloc k pt oldsz newsz xperm) Q E s := by
  rw [uvmalloc]
  split
  · rename_i hlt
    exact hless hlt
  · rename_i hge
    have hle : oldsz ≤ newsz := by omega
    have hmono := npages_mono hle
    have hr : pgRoundUp oldsz = npages oldsz * pgsize := pgRoundUp_eq (by
      simp only [trapframeVa, trampolineVa, maxVa, pgsize] at *
      omega)
    have hn : (newsz - npages oldsz * pgsize + (pgsize - 1)) / pgsize =
        npages newsz - npages oldsz := by
      simp only [npages, pgsize] at *
      omega
    have hend : npages oldsz + (npages newsz - npages oldsz) = npages newsz := by omega
    have hnone : unmapped f (npages oldsz) (npages oldsz) = f := by
      funext w
      rw [unmapped, if_neg (by omega)]
    simp only [hr, hn, wp_bind]
    refine wp_allocFrom h hU hx le_rfl (npages_le_user hold) htf (fun g t hg hfill hb hk => ?_)
      (fun t ht hk => ?_) fun g w t hbad => ?_
    · rw [hend] at hfill hb
      rw [if_pos rfl, wp_pure]
      exact hok g t hle hb hg hfill hk
    · rw [hnone] at ht hk
      simp only [Bool.false_eq_true, if_false, wp_pure]
      exact hfail t hle ht hk
    · rw [hend] at hbad
      exact hE g w t hle hbad

/-! ## Freeing -/

/-- The pages of a page table without user pages are freed. -/
theorem wp_uvmfree_zero {Q : PUnit → Vm → Prop} (h : Space U R pt (fun _ => 0) s)
    (hU : Managed k U)
    (hok : ∀ t, (t.freelist : Multiset ℕ) + R = U → t.refreed = false → Keep R s t → Q ⟨⟩ t) :
    wp (freewalk k 3 pt) Q E s := by
  have hle : (s.freelist : Multiset ℕ) + tables s.mem 2 pt ≤ U := by
    rw [← h.own, add_assoc]
    exact Multiset.le_add_right _ _
  have hfree : Freeable k 2 pt s := by
    refine ⟨Multiset.nodup_of_le hle hU.nodup, fun b hb => ?_, h.wf, fun v => ?_⟩
    · exact hU.page b (Multiset.mem_of_le hle (Multiset.mem_add.2 (.inr hb)))
    · -- All virtual pages have the leaf of a page below the last.
      have hm := h.map (v % 512 ^ 3) (Nat.mod_lt v (by omega))
      have hl : leaf s.mem 2 pt (v % 512 ^ 3) = leaf s.mem 2 pt v := by
        rw [leaf, leaf, slot_mod (Nat.mod_mod v (512 ^ 3))]
      rw [← hl, ← pteV_mapping, hm, pteV_zero]
  refine (wp_freewalk hfree).mono (fun _ t ht => ?_) fun _ _ he => he
  refine hok t ?_ (ht.refreed.trans h.refreed) fun b hb => ht.frame b ?_
  · have := h.own
    rwa [frames_zero, add_zero, ← ht.freelist] at this
  · exact (h.disjoint hU (Multiset.mem_add.2 (.inr hb))).2

/-- An address space without trampoline and trapframe, and without pages above the size, is
    freed. -/
theorem wp_uvmfree {Q : PUnit → Vm → Prop} (h : Space U R pt f s) (hU : Managed k U)
    (hsz : sz ≤ trapframeVa) (hf : ∀ v < leafVpn, npages sz ≤ v → f v = 0)
    (hok : ∀ t, (t.freelist : Multiset ℕ) + R = U → t.refreed = false → Keep R s t → Q ⟨⟩ t) :
    wp (uvmfree k pt sz) Q E s := by
  have hr : pgRoundUp sz = npages sz * pgsize := pgRoundUp_eq (by
    simp only [trapframeVa, trampolineVa, maxVa, pgsize] at *
    omega)
  simp only [uvmfree, wp_bind, hr, vpn_mul_div]
  split
  · refine wp_uvmunmap (v := 0) h hU (by have := npages_le_user hsz; omega) fun t ht hk _ => ?_
    rw [zero_add] at ht hk
    have hz : ∀ v < leafVpn, unmapped f 0 (npages sz) v = 0 := by
      intro v hv
      rw [unmapped]
      split
      · rfl
      · exact hf v hv (by omega)
    refine wp_uvmfree_zero (ht.congr hz) hU fun u hu hr hku => hok u hu hr ?_
    exact (hk.of_le (Multiset.le_add_left _ _)).trans hku le_rfl
  · rename_i h0
    have hz : ∀ v < leafVpn, f v = 0 := fun v hv => hf v hv (by
      rw [show sz = 0 by omega, npages]
      simp only [pgsize]
      omega)
    rw [wp_pure]
    exact wp_uvmfree_zero (h.congr hz) hU hok

end Xv6
