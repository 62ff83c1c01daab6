import Xv6.Vm.User

/-!
# The specifications of `uvmcopy`, `vmfault`, `copyout` and `copyin`

`uvmcopy` copies the mapped pages below a size to another page table, or gives back what
it copied (`wp_uvmcopy`). `vmfault` maps a page of zeros below the size of the process, if
none is mapped (`wp_vmfault`); since `copyout` and `copyin` call it, they may map such
pages too, and this is all they do to the map (`Faulted`).
-/

namespace Xv6

variable {k : Kernel} {E : VmPanic → Vm → Prop} {s t u : Vm} {U R R' B B' D : Multiset ℕ}
  {pt v w n sz pa perm old va : ℕ} {f g h : ℕ → ℕ}

/-! ## Copying an address space -/

/-- The pages from `a` to `b` are copies of those of the map `fo`. -/
structure Copied (fo f g : ℕ → ℕ) (a b : ℕ) (s t : Vm) : Prop where
  same : ∀ w, w < a ∨ b ≤ w → g w = f w
  hole : ∀ w, a ≤ w → w < b → pteV (fo w) = false → g w = 0
  copy : ∀ w, a ≤ w → w < b → pteV (fo w) = true →
    ∃ pa, PageAddr pa ∧ g w = mkPte pa (pteFlags (fo w)) ∧ t.mem pa = s.mem (pteAddr (fo w))

/-- Copying one page. -/
theorem wp_copyPage {Q : Bool → Vm → Prop} (hs : Space U R pt f s) (hU : Managed k U)
    (hv : v < userVpn) (h0 : f v = 0) (hold : pageOf (mapping s.mem old v) ≤ R)
    (hskip : pteV (mapping s.mem old v) = false → Q true s)
    (hok : ∀ r t, pteV (mapping s.mem old v) = true → PageAddr r →
      Space U R pt (Function.update f v (mkPte r (pteFlags (mapping s.mem old v)))) t →
      frames (Function.update f v (mkPte r (pteFlags (mapping s.mem old v)))) + R =
        frames f + r ::ₘ R →
      t.mem r = s.mem (pteAddr (mapping s.mem old v)) → Keep (frames f + R) s t → Q true t)
    (hfail : ∀ t, Space U R pt f t → Keep (frames f + R) s t → Q false t) :
    wp (copyPage k old pt (v * pgsize)) Q E s := by
  have hvm := lt_maxVpn_of_user hv
  simp only [copyPage, wp_bind, wp_walk (vpn_mul_lt hvm), vpn_mul_div]
  split
  · rename_i hsl
    exact hskip (by rw [mapping_of_slot_none hsl, pteV_zero])
  · rename_i c j hsl
    simp only [wp_bind, wp_get]
    split
    · rename_i hval
      have hmap : mapping s.mem old v = s.mem.pte c j := by rw [mapping_of_slot hsl, if_pos hval]
      rw [← hmap] at hval ⊢
      rw [wp_bind]
      refine wp_kalloc_space hs hU (fun t ht hm => ?_) fun r t hr0 ht hm => ?_
      · rw [if_pos rfl, wp_pure]
        exact hfail t ht fun b _ => by rw [hm]
      · simp only [if_neg hr0, movePage, wp_bind, wp_modify]
        obtain ⟨hz, hk0, hr, hrn⟩ := ht.fresh hU hm (t.mem (pteAddr (mapping s.mem old v)))
        refine wp_mappages_fresh hz hU hk0 hr hvm (fun _ => hv) (pteFlags_lt _)
          (fun u _ hsp hsum hur hku => ?_) (fun u hsp hku => ?_) fun hbad => ?_
        · rw [if_pos rfl, wp_pure]
          refine hok r u hval hr hsp hsum ?_ hku
          -- The page of the other page table is not the new one.
          have hne : pteAddr (mapping s.mem old v) ≠ r := by
            rintro rfl
            rw [pageOf_of_valid hval] at hold
            exact hrn (Multiset.mem_add.2 (.inr (Multiset.singleton_le.1 hold)))
          exact hur.trans ((Function.update_self _ _ _).trans (hm _ hne))
        · simp only [Bool.false_eq_true, if_false, wp_bind, wp_pure]
          exact wp_kfree_space hsp hU fun w hw hkw => hfail w hw (hku.trans hkw le_rfl)
        · rw [h0, pteV_zero] at hbad
          cases hbad
    · rename_i hval
      exact hskip (by rw [mapping_of_slot hsl, if_neg hval, pteV_zero])

/-- The loop of `uvmcopy`. When it fails, no user page is mapped. -/
theorem wp_copyFrom {Q : Bool → Vm → Prop} (hs : Space U R pt f s) (hU : Managed k U)
    (hn : v + n ≤ userVpn) (h0 : ∀ w, v ≤ w → w < userVpn → f w = 0)
    (htab : tables s.mem 2 old ≤ R) (hold : ∀ w < userVpn, pageOf (mapping s.mem old w) ≤ R)
    (hok : ∀ g t, Space U R pt g t → Copied (mapping s.mem old) f g v (v + n) s t →
      Keep (frames f + R) s t → Q true t)
    (hfail : ∀ t, Space U R pt (unmapped f 0 v) t → Keep R s t → Q false t) :
    wp (copyFrom k old pt n (v * pgsize)) Q E s := by
  induction n generalizing v f s with
  | zero =>
    rw [copyFrom, wp_pure]
    refine hok f s hs ⟨fun _ _ => rfl, fun w h₁ h₂ => ?_, fun w h₁ h₂ => ?_⟩ (.refl _ _) <;> omega
  | succ n ih =>
    have hv : v < userVpn := by omega
    have hnext : v * pgsize + pgsize = (v + 1) * pgsize := by ring
    -- What the loop needs of the other page table stays as it is.
    have hstay : ∀ t, Keep R s t → (∀ w, mapping t.mem old w = mapping s.mem old w) ∧
        tables t.mem 2 old = tables s.mem 2 old := by
      intro t hk
      have hb : ∀ b ∈ tables s.mem 2 old, t.mem b = s.mem b := fun b hb =>
        hk b (Multiset.mem_of_le htab hb)
      exact ⟨fun w => mapping_congr (leaf_congr hb), tables_congr hb⟩
    rw [copyFrom, wp_bind]
    refine wp_copyPage hs hU hv (h0 v le_rfl hv) (hold v hv) (fun hval => ?_)
      (fun r t hval hr ht hsum htr hk => ?_) fun t ht hk => ?_
    · -- A hole.
      rw [if_pos rfl, hnext]
      refine ih hs (by omega) (fun w h₁ h₂ => h0 w (by omega) h₂) htab hold
        (fun g t hg hc hk => ?_) fun t ht hk => ?_
      · refine hok g t hg ⟨fun w hw => hc.same w (by omega), fun w h₁ h₂ h₃ => ?_,
          fun w h₁ h₂ h₃ => ?_⟩ hk
        · by_cases hwv : w = v
          · rw [hwv, hc.same v (by omega), h0 v le_rfl hv]
          · exact hc.hole w (by omega) (by omega) h₃
        · by_cases hwv : w = v
          · rw [hwv, hval] at h₃
            cases h₃
          · exact hc.copy w (by omega) (by omega) h₃
      · refine hfail t (ht.congr fun w _ => ?_) hk
        by_cases hwv : w = v
        · rw [hwv, unmapped, unmapped, if_pos ⟨by omega, by omega⟩, if_neg (by omega),
            h0 v le_rfl hv]
        · rw [unmapped, unmapped]
          congr 1
          exact propext ⟨fun h => ⟨h.1, by omega⟩, fun h => ⟨h.1, by omega⟩⟩
    · rw [if_pos rfl, hnext]
      have hkR := hk.of_le (Multiset.le_add_left R _)
      obtain ⟨hmap, htb⟩ := hstay t hkR
      have hsplit : frames f + R ≤ frames f + r ::ₘ R :=
        add_le_add_right (Multiset.le_cons_self R r) _
      refine ih ht (by omega) (fun w h₁ h₂ => ?_) (by rwa [htb])
        (fun w hw => by rw [hmap w]; exact hold w hw) (fun g u hg hc hku => ?_) fun u hu hku => ?_
      · rw [Function.update_of_ne (by omega)]
        exact h0 w (by omega) h₂
      · rw [hsum] at hku
        refine hok g u hg ⟨fun w hw => ?_, fun w h₁ h₂ h₃ => ?_, fun w h₁ h₂ h₃ => ?_⟩
          (hk.trans hku hsplit)
        · rw [hc.same w (by omega), Function.update_of_ne (by omega)]
        · by_cases hwv : w = v
          · rw [hwv, hval] at h₃
            cases h₃
          · exact hc.hole w (by omega) (by omega) (by rwa [hmap w])
        · by_cases hwv : w = v
          · subst hwv
            refine ⟨r, hr, by rw [hc.same w (by omega), Function.update_self], ?_⟩
            rw [hku r (Multiset.mem_add.2 (.inr (Multiset.mem_cons_self r R))), htr]
          · obtain ⟨pa, hpa, hgw, hmem⟩ := hc.copy w (by omega) (by omega) (by rwa [hmap w])
            rw [hmap w] at hgw hmem
            refine ⟨pa, hpa, hgw, hmem.trans (hkR _ ?_)⟩
            have := hold w (by omega)
            rw [pageOf_of_valid h₃] at this
            exact Multiset.singleton_le.1 this
      · rw [unmapped_update (Nat.zero_le v) (h0 v le_rfl hv)] at hu
        exact hfail u hu (hkR.trans hku le_rfl)
    · -- No memory: what was copied is given back.
      simp only [Bool.false_eq_true, if_false, wp_bind, wp_pure, vpn_mul_div]
      rw [show 0 = 0 * pgsize by ring]
      refine wp_uvmunmap ht hU (by omega) fun u hu hku _ => ?_
      rw [zero_add] at hu hku
      exact hfail u hu ((hk.of_le (Multiset.le_add_left R _)).trans
        (hku.of_le (Multiset.le_add_left R _)) le_rfl)

/-- Copying the user pages below a size. -/
theorem wp_uvmcopy {Q : Bool → Vm → Prop} (hs : Space U R pt f s) (hU : Managed k U)
    (hsz : sz ≤ trapframeVa) (h0 : ∀ w < userVpn, f w = 0)
    (htab : tables s.mem 2 old ≤ R) (hold : ∀ w < userVpn, pageOf (mapping s.mem old w) ≤ R)
    (hok : ∀ g t, Space U R pt g t → Copied (mapping s.mem old) f g 0 (npages sz) s t →
      Keep (frames f + R) s t → Q true t)
    (hfail : ∀ t, Space U R pt f t → Keep R s t → Q false t) :
    wp (uvmcopy k old pt sz) Q E s := by
  have hb := npages_le_user hsz
  rw [uvmcopy]
  refine wp_copyFrom (v := 0) hs hU (by rw [zero_add]; exact hb) (fun w _ hw => h0 w hw) htab hold
    (fun g t hg hc hk => ?_) fun t ht hk => ?_
  · rw [zero_add] at hc
    exact hok g t hg hc hk
  · refine hfail t (ht.congr fun w _ => ?_) hk
    rw [unmapped, if_neg (by omega)]

/-! ## Page faults -/

theorem wp_ismapped {Q : Bool → Vm → Prop} (hv : v < maxVpn) :
    wp (ismapped pt (v * pgsize)) Q E s ↔ Q (pteV (mapping s.mem pt v)) s := by
  simp only [ismapped, wp_bind, wp_walk (vpn_mul_lt hv), vpn_mul_div]
  split
  · rename_i hsl
    rw [mapping_of_slot_none hsl, pteV_zero, wp_pure]
  · rename_i c j hsl
    simp only [wp_bind, wp_get, wp_pure]
    rw [pteV_mapping, leaf_of_slot hsl]

/-- The address of a user page is that of its entry. -/
theorem wp_walkaddr {Q : ℕ → Vm → Prop} :
    wp (walkaddr pt (v * pgsize)) Q E s ↔
      Q (if v < maxVpn ∧ pteV (mapping s.mem pt v) = true ∧ pteU (mapping s.mem pt v) = true then
        pteAddr (mapping s.mem pt v) else 0) s := by
  have hlt : v < maxVpn ↔ ¬maxVa ≤ v * pgsize := by
    simp only [maxVpn, maxVa, pgsize]
    omega
  rw [walkaddr]
  split
  · rename_i hva
    rw [if_neg fun h => hlt.1 h.1 hva, wp_pure]
  · rename_i hva
    have hv := hlt.2 hva
    simp only [wp_bind, wp_walk (vpn_mul_lt hv), vpn_mul_div, hv, true_and]
    split
    · rename_i hsl
      rw [mapping_of_slot_none hsl, pteV_zero, wp_pure, if_neg (by simp)]
    · rename_i c j hsl
      simp only [wp_bind, wp_get, mapping_of_slot hsl]
      cases hval : pteV (s.mem.pte c j) with
      | false => simp
      | true =>
        simp only [if_true, hval, true_and]
        split <;> rfl

/-- The flags of a page mapped by a page fault. -/
abbrev faultPerm : ℕ := permW ||| permU ||| permR

theorem pteU_faultPerm : pteU faultPerm = true := by
  rw [pteU]
  decide

/-- A page fault below the size of the process maps a page of zeros, if it can. -/
theorem wp_vmfault {psz : ℕ} {Q : ℕ → Vm → Prop} (hs : Space U R pt f s) (hU : Managed k U)
    (hsz : psz ≤ trapframeVa)
    (hok : ∀ r t, va < psz → f (va / pgsize) = 0 → PageAddr r →
      Space U R pt (Function.update f (va / pgsize) (mkPte r faultPerm)) t →
      t.mem r = .fill 0 → Keep (frames f + R) s t → Q r t)
    (hnone : ∀ t, Space U R pt f t → Keep (frames f + R) s t → Q 0 t) :
    wp (vmfault k psz pt pt va) Q E s := by
  rw [vmfault]
  split
  · exact hnone s hs (.refl _ _)
  · rename_i hlt
    have hv : va / pgsize < userVpn := by
      simp only [userVpn, trapframeVa, trampolineVa, maxVa, pgsize] at *
      omega
    have hvm := lt_maxVpn_of_user hv
    simp only [pgRoundDown, wp_bind, wp_ismapped hvm, hs.map _ (lt_leafVpn hvm)]
    split
    · exact hnone s hs (.refl _ _)
    · rename_i hval
      have h0 : f (va / pgsize) = 0 := by
        rw [← hs.map _ (lt_leafVpn hvm)] at hval ⊢
        exact mapping_of_invalid (by simpa using hval)
      rw [wp_bind]
      refine wp_kalloc_space hs hU (fun t ht hm => ?_) fun r t hr0 ht hm => ?_
      · rw [if_pos rfl, wp_pure]
        exact hnone t ht fun b _ => by rw [hm]
      · simp only [if_neg hr0, memset, wp_bind, wp_modify]
        obtain ⟨hz, hk0, hr, -⟩ := ht.fresh hU hm (.fill 0)
        refine wp_mappages_fresh hz hU hk0 hr hvm (fun _ => hv) (by decide)
          (fun u _ hsp _ hur hku => ?_) (fun u hsp hku => ?_) fun hbad => absurd hbad hval
        · rw [if_pos rfl, wp_pure]
          exact hok r u (by omega) h0 hr hsp (hur.trans (Function.update_self _ _ _)) hku
        · simp only [Bool.false_eq_true, if_false, wp_bind, wp_pure]
          exact wp_kfree_space hsp hU fun w hw hkw => hnone w hw (hku.trans hkw le_rfl)

/-- Some pages below the size that were not mapped are mapped now, as a page fault maps
    them. -/
def Faulted (sz : ℕ) (f g : ℕ → ℕ) : Prop :=
  ∀ w, g w = f w ∨
    f w = 0 ∧ w < npages sz ∧ ∃ r, PageAddr r ∧ g w = mkPte r faultPerm

theorem Faulted.refl (sz : ℕ) (f : ℕ → ℕ) : Faulted sz f f := fun _ => .inl rfl

theorem Faulted.trans (h₁ : Faulted sz f g) (h₂ : Faulted sz g h) : Faulted sz f h := by
  intro w
  rcases h₂ w with e₂ | ⟨z₂, hw₂, r, hr, e₂⟩
  · rw [e₂]
    exact h₁ w
  · rcases h₁ w with e₁ | ⟨-, -, r', -, e₁⟩
    · exact .inr ⟨e₁ ▸ z₂, hw₂, r, hr, e₂⟩
    · -- A page that was mapped is not mapped again.
      have hv := pteV_mkPte r' faultPerm
      rw [← e₁, z₂, pteV_zero] at hv
      cases hv

theorem Faulted.of_update (hva : va < sz) (h0 : f (va / pgsize) = 0) {r : ℕ} (hr : PageAddr r) :
    Faulted sz f (Function.update f (va / pgsize) (mkPte r faultPerm)) := by
  intro w
  by_cases hw : w = va / pgsize
  · subst hw
    refine .inr ⟨h0, ?_, r, hr, Function.update_self _ _ _⟩
    simp only [npages, pgsize]
    omega
  · exact .inl (Function.update_of_ne hw _ _)

/-! ## Copying to and from user memory -/

/-- Above the user pages, nothing is accessible to the user. -/
def UserOnly (f : ℕ → ℕ) : Prop := ∀ w, userVpn ≤ w → w < maxVpn → pteU (f w) = false

theorem UserOnly.faulted (hf : UserOnly f) (hsz : sz ≤ trapframeVa) (hg : Faulted sz f g) :
    UserOnly g := by
  intro w hw hwm
  rcases hg w with e | ⟨-, h, -⟩
  · rw [e]
    exact hf w hw hwm
  · have := npages_le_user hsz
    omega

/-- A user page that was mapped is mapped as it was. -/
theorem Faulted.of_valid (h : Faulted sz f g) (hV : pteV (f w) = true) : g w = f w := by
  rcases h w with e | ⟨z, -⟩
  · exact e
  · rw [z, pteV_zero] at hV
    cases hV

/-- The page at an address, faulted in if needed. -/
theorem wp_userPage {psz : ℕ} {Q : ℕ → Vm → Prop} (hs : Space U R pt f s) (hU : Managed k U)
    (hsz : psz ≤ trapframeVa) (hf : UserOnly f)
    (hok : ∀ g t, v < userVpn → Space U R pt g t → Faulted psz f g → pteV (g v) = true →
      pteU (g v) = true → Keep (frames f + R) s t → (∀ x, Sees f x s → Sees g x t) →
      Q (pteAddr (g v)) t)
    (hnone : ∀ t, Space U R pt f t → Keep (frames f + R) s t → Q 0 t) :
    wp (userPage k psz pt pt (v * pgsize)) Q E s := by
  have hfault : wp (vmfault k psz pt pt (v * pgsize)) Q E s := by
    refine wp_vmfault hs hU hsz (fun r t hva h0 hr ht hz hk => ?_) hnone
    have hg := Faulted.of_update hva h0 hr
    rw [vpn_mul_div] at ht hg h0
    have hv : v < userVpn := by
      simp only [userVpn, trapframeVa, trampolineVa, maxVa, pgsize] at *
      omega
    have hself : Function.update f v (mkPte r faultPerm) v = mkPte r faultPerm :=
      Function.update_self _ _ _
    have hq := hok _ t hv ht hg (by rw [hself, pteV_mkPte])
      (by rw [hself, pteU_mkPte, pteU_faultPerm]) hk
      fun x hx => hx.fault hk h0 hr hz (by decide)
    rwa [hself, pteAddr_mkPte hr (by decide)] at hq
  rw [userPage, wp_bind, wp_walkaddr]
  split
  · rename_i hm
    obtain ⟨hvm, hV, hU'⟩ := hm
    rw [hs.map v (lt_leafVpn hvm)] at hV hU' ⊢
    split
    · exact hfault
    · rw [wp_pure]
      refine hok f s ?_ hs (.refl _ _) hV hU' (.refl _ _) fun _ hx => hx
      by_contra hge
      rw [hf v (by omega) hvm] at hU'
      cases hU'
  · rw [if_pos rfl]
    exact hfault

/-- The pages of `n` bytes from `a` on are user pages with a flag. -/
def RangeHas (flag : ℕ → Bool) (g : ℕ → ℕ) (a n : ℕ) : Prop :=
  ∀ b, a ≤ b → b < a + n → b < trapframeVa ∧ pteV (g (b / pgsize)) = true ∧
    pteU (g (b / pgsize)) = true ∧ flag (g (b / pgsize)) = true

theorem RangeHas.zero (flag : ℕ → Bool) (g : ℕ → ℕ) (a : ℕ) : RangeHas flag g a 0 :=
  fun b h₁ h₂ => by omega

/-- The bytes of one page, and those after them. -/
theorem RangeHas.step {flag : ℕ → Bool} {a len n' : ℕ} (hv : a / pgsize < userVpn)
    (hg : Faulted sz g h) (hV : pteV (g (a / pgsize)) = true) (hU : pteU (g (a / pgsize)) = true)
    (hflag : flag (g (a / pgsize)) = true)
    (hr : RangeHas flag h ((a / pgsize + 1) * pgsize) n') :
    RangeHas flag h a (min (pgsize - (a - a / pgsize * pgsize)) len + n') := by
  intro b h₁ h₂
  by_cases hb : b / pgsize = a / pgsize
  · rw [hb, hg.of_valid hV]
    exact ⟨lt_trapframeVa_of_vpn (by rwa [hb]), hV, hU, hflag⟩
  · refine hr b ?_ ?_
    · simp only [pgsize] at *
      omega
    · simp only [pgsize] at *
      omega

theorem nextPage_eq {a : ℕ} (h : a / pgsize < userVpn) :
    (a / pgsize * pgsize + pgsize) % 2 ^ 64 = (a / pgsize + 1) * pgsize := by
  simp only [userVpn, trapframeVa, trampolineVa, maxVa, pgsize] at *
  omega

/-- The bytes of a page that an iteration copies are in the page. -/
theorem pageLen_le (a len : ℕ) :
    a - a / pgsize * pgsize + min (pgsize - (a - a / pgsize * pgsize)) len ≤ pgsize := by
  simp only [pgsize]
  omega

theorem page_add_off (a : ℕ) : a / pgsize * pgsize + (a - a / pgsize * pgsize) = a := by
  simp only [pgsize]
  omega

/-- The pages of what is left to copy are among those of what was to be copied. -/
theorem lt_of_nextPage {a len : ℕ} (hv : a / pgsize + 1 ≤ v)
    (h : v * pgsize < (a / pgsize + 1) * pgsize +
      (len - min (pgsize - (a - a / pgsize * pgsize)) len)) : v * pgsize < a + len := by
  simp only [pgsize] at *
  omega

/-- If an iteration leaves something, the next one goes on where it stopped. -/
theorem next_eq_add {a len n' : ℕ} (h0 : n' ≠ 0)
    (hn : n' ≤ len - min (pgsize - (a - a / pgsize * pgsize)) len) :
    (a / pgsize + 1) * pgsize = a + min (pgsize - (a - a / pgsize * pgsize)) len := by
  simp only [pgsize] at *
  omega

/-- `copyout` has stored the first `n` bytes of `src`, in user pages that can be written. -/
structure CopiedOut (U R : Multiset ℕ) (pt psz : ℕ) (f : ℕ → ℕ) (s : Vm) (dstva : ℕ)
    (src : List UInt8) (r : Bool) (n : ℕ) (g : ℕ → ℕ) (t : Vm) : Prop where
  le : n ≤ src.length
  all : r = true ↔ n = src.length
  space : Space U R pt g t
  faulted : Faulted psz f g
  keep : Keep R s t
  range : RangeHas pteW g dstva n
  sees : ∀ x, Sees f x s → Sees g (storeBytes x dstva (src.take n)) t

theorem CopiedOut.zero {psz dstva : ℕ} {src : List UInt8} {r : Bool} (hs : Space U R pt g t)
    (hg : Faulted psz f g) (hk : Keep R s t) (hx : ∀ x, Sees f x s → Sees g x t)
    (hr : r = true ↔ src = []) : CopiedOut U R pt psz f s dstva src r 0 g t where
  le := Nat.zero_le _
  all := by rw [hr, eq_comm (a := 0), List.length_eq_zero_iff]
  space := hs
  faulted := hg
  keep := hk
  range := .zero _ _ _
  sees x h := by
    rw [List.take_zero, storeBytes_nil]
    exact hx x h

/-- What `userPage` does for the page `v`: it finds the page, or makes room for it, or fails. `P`
    is kept about the map. -/
def PageFound (E : VmPanic → Vm → Prop) (k : Kernel) (U R : Multiset ℕ) (psz ppt pt : ℕ)
    (P : (ℕ → ℕ) → Prop) (v : ℕ) : Prop :=
  ∀ f s (Q : ℕ → Vm → Prop), Space U R pt f s → P f →
    (∀ g t, v < userVpn → Space U R pt g t → Faulted psz f g → P g → pteV (g v) = true →
      pteU (g v) = true → Keep (frames f + R) s t → (∀ x, Sees f x s → Sees g x t) →
      Q (pteAddr (g v)) t) →
    (∀ t, Space U R pt f t → Keep (frames f + R) s t → Q 0 t) →
    wp (userPage k psz ppt pt (v * pgsize)) Q E s

/-- The loop of `copyout`, for whatever `userPage` does for its pages. -/
theorem wp_copyoutLoop_of {psz ppt fuel dstva : ℕ} {src : List UInt8} {P : (ℕ → ℕ) → Prop}
    (hU : Managed k U) (hs : Space U R pt f s) (hP : P f) (hfuel : src.length ≤ fuel)
    (hpage : ∀ v, dstva / pgsize ≤ v → v * pgsize < dstva + src.length →
      PageFound E k U R psz ppt pt P v) :
    wp (copyoutLoop k psz ppt pt fuel dstva src)
      (fun r t => ∃ n g, P g ∧ CopiedOut U R pt psz f s dstva src r n g t) E s := by
  -- By induction on the rounds: each stores the part of `src` that lies in one page, and the next
  -- one goes on from the map `g` that the fault may have left.
  induction fuel generalizing dstva src f s with
  | zero =>
    have hsrc : src = [] := List.length_eq_zero_iff.1 (by omega)
    exact ⟨0, f, hP, .zero hs (.refl _ _) (.refl _ _) (fun _ hx => hx) (by simp [hsrc])⟩
  | succ fuel ih =>
    rw [copyoutLoop]
    split
    · rename_i hsrc
      exact ⟨0, f, hP, .zero hs (.refl _ _) (.refl _ _) (fun _ hx => hx) (by simp [hsrc])⟩
    · rename_i hsrc
      have hfalse : false = true ↔ src = [] := by simp [hsrc]
      have hlen := List.length_pos_iff.2 hsrc
      dsimp only
      -- `walk` panics from `MAXVA` on, and the loop returns before it gets there.
      by_cases hva : maxVa ≤ pgRoundDown dstva
      · rw [if_pos hva]
        exact ⟨0, f, hP, .zero hs (.refl _ _) (.refl _ _) (fun _ hx => hx) hfalse⟩
      · rw [if_neg hva]
        simp only [pgRoundDown, wp_bind]
        have hfirst : dstva / pgsize * pgsize < dstva + src.length := by
          simp only [pgsize]
          omega
        refine hpage _ le_rfl hfirst f s _ hs hP (fun g t hv ht hg hPg hV hUs hk hx => ?_)
          fun t ht hk => ?_
        · have hkR : Keep R s t := hk.of_le (Multiset.le_add_left R _)
          have hvm := lt_maxVpn_of_user hv
          split
          · exact ⟨0, g, hPg, .zero ht hg hkR hx hfalse⟩
          · simp only [wp_bind, wp_walk (vpn_mul_lt hvm), vpn_mul_div]
            split
            · -- The page is mapped.
              rename_i hsl
              rw [← ht.map _ (lt_leafVpn hvm), mapping_of_slot_none hsl, pteV_zero] at hV
              cases hV
            · rename_i c j hsl
              simp only [wp_bind, wp_get]
              split
              · -- The page cannot be written.
                exact ⟨0, g, hPg, .zero ht hg hkR hx hfalse⟩
              · rename_i hW
                have hpte : t.mem.pte c j = g (dstva / pgsize) := by
                  rw [← ht.map _ (lt_leafVpn hvm), mapping_of_slot hsl] at hV ⊢
                  split at hV
                  · rename_i h
                    rw [if_pos h]
                  · simp at hV
                rw [hpte, Bool.not_eq_false] at hW
                rw [nextPage_eq hv]
                set n₀ := min (pgsize - (dstva - dstva / pgsize * pgsize)) src.length with hn₀
                have htake : (src.take n₀).length = n₀ := by
                  rw [List.length_take]
                  omega
                rw [wp_bind]
                refine ht.store hU hv hV (by rw [htake]; exact pageLen_le _ _) fun u hu hku hxu => ?_
                have hdrop : (src.drop n₀).length = src.length - n₀ := List.length_drop
                have hpos : 0 < n₀ := by
                  simp only [pgsize] at hn₀
                  omega
                have hnext : ∀ v, (dstva / pgsize + 1) * pgsize / pgsize ≤ v →
                    v * pgsize < (dstva / pgsize + 1) * pgsize + (src.drop n₀).length →
                    PageFound E k U R psz ppt pt P v := by
                  intro v h₁ h₂
                  rw [vpn_mul_div] at h₁
                  rw [hdrop] at h₂
                  exact hpage v (by omega) (lt_of_nextPage h₁ h₂)
                refine (ih hu hPg (by omega) hnext).mono (fun r w hw => ?_) fun _ _ he => he
                obtain ⟨n', h, hPh, hc⟩ := hw
                have hle' := hc.le
                rw [hdrop] at hle'
                refine ⟨n₀ + n', h, hPh, by omega, ?_, hc.space, hg.trans hc.faulted,
                  (hkR.trans hku le_rfl).trans hc.keep le_rfl,
                  .step hv hc.faulted hV hUs hW hc.range, fun x hx₀ => ?_⟩
                · rw [hc.all, hdrop]
                  omega
                · have hlast := hc.sees _ (hxu x (hx x hx₀))
                  rw [page_add_off] at hlast
                  rw [List.take_add, ← storeBytes_append, htake]
                  -- The next round begins at a page, unless this was the last one.
                  by_cases h0 : n' = 0
                  · rw [h0, List.take_zero, storeBytes_nil] at hlast ⊢
                    exact hlast
                  · rwa [next_eq_add h0 hle'] at hlast
        · rw [if_pos rfl, wp_pure]
          exact ⟨0, f, hP, .zero ht (.refl _ _) (hk.of_le (Multiset.le_add_left R _))
            (fun _ hx => hx.keep hk) hfalse⟩

/-- `copyout` to the memory of the process may fault pages in, and stores in user pages
    only. -/
theorem wp_copyoutLoop {psz fuel dstva : ℕ} {src : List UInt8} (hs : Space U R pt f s)
    (hU : Managed k U) (hsz : psz ≤ trapframeVa) (hf : UserOnly f) (hfuel : src.length ≤ fuel) :
    wp (copyoutLoop k psz pt pt fuel dstva src)
      (fun r t => ∃ n g, CopiedOut U R pt psz f s dstva src r n g t) E s := by
  refine (wp_copyoutLoop_of (P := UserOnly) hU hs hf hfuel fun v _ _ f s Q hs hf hok hnone =>
    wp_userPage hs hU hsz hf (fun g t hv ht hg => hok g t hv ht hg (hf.faulted hsz hg)) hnone).mono
      (fun r t ht => ?_) fun _ _ he => he
  obtain ⟨n, g, -, hc⟩ := ht
  exact ⟨n, g, hc⟩

/-- `copyout` to pages that are mapped, whatever the size of the process that runs. -/
theorem wp_copyoutLoop_mapped {psz ppt fuel dstva : ℕ} {src : List UInt8} (hU : Managed k U)
    (hs : Space U R pt f s) (hfuel : src.length ≤ fuel)
    (hf : ∀ v, dstva / pgsize ≤ v → v * pgsize < dstva + src.length →
      v < userVpn ∧ pteV (f v) = true ∧ pteU (f v) = true) :
    wp (copyoutLoop k psz ppt pt fuel dstva src)
      (fun r t => ∃ n, CopiedOut U R pt psz f s dstva src r n f t) E s := by
  have hpage : ∀ v, dstva / pgsize ≤ v → v * pgsize < dstva + src.length →
      PageFound E k U R psz ppt pt (· = f) v := by
    intro v h₁ h₂ g s' Q hs' hg hok _
    rw [show g = f from hg] at hs' hok
    obtain ⟨hv, hV, hUs⟩ := hf v h₁ h₂
    have hvm := lt_maxVpn_of_user hv
    have hne := (hU.pageAddr (hs'.mem_of_mem (Multiset.mem_add.2
      (.inl (pteAddr_mem_frames hv hV))))).pos.ne'
    have hfound : v < maxVpn ∧ pteV (f v) = true ∧ pteU (f v) = true := ⟨hvm, hV, hUs⟩
    rw [userPage, wp_bind, wp_walkaddr, hs'.map _ (lt_leafVpn hvm), if_pos hfound, if_neg hne,
      wp_pure]
    exact hok f s' hv hs' (.refl _ _) rfl hV hUs (.refl _ _) fun _ hx => hx
  refine (wp_copyoutLoop_of (P := (· = f)) hU hs rfl hfuel hpage).mono (fun r t ht => ?_) fun _ _ he => he
  obtain ⟨n, g, hg, hc⟩ := ht
  rw [show g = f from hg] at hc
  exact ⟨n, hc⟩

/-- `copyin` has delivered the first `n` bytes, from user pages. -/
structure CopiedIn (U R : Multiset ℕ) (pt psz : ℕ) (f : ℕ → ℕ) (s : Vm) (srcva len : ℕ)
    (r : Bool × List UInt8) (n : ℕ) (g : ℕ → ℕ) (t : Vm) : Prop where
  le : n ≤ len
  all : r.1 = true ↔ n = len
  space : Space U R pt g t
  faulted : Faulted psz f g
  keep : Keep (frames f + R) s t
  range : RangeHas pteV g srcva n
  bytes : ∀ x, Sees f x s → r.2 = loadBytes x srcva n
  sees : ∀ x, Sees f x s → Sees g x t

/-- The pages of a map are pages of a map with more. -/
theorem Faulted.frames_le (h : Faulted sz f g) : frames f ≤ frames g := by
  refine Finset.sum_le_sum fun v _ => ?_
  rcases h v with e | ⟨z, -⟩
  · rw [e]
  · rw [z, pageOf_zero]
    exact zero_le

/-- `copyin` may fault pages in. -/
theorem wp_copyinLoop {psz fuel srcva len : ℕ} (hs : Space U R pt f s)
    (hU : Managed k U) (hsz : psz ≤ trapframeVa) (hf : UserOnly f) (hfuel : len ≤ fuel) :
    wp (copyinLoop k psz pt pt fuel srcva len)
      (fun r t => ∃ n g, CopiedIn U R pt psz f s srcva len r n g t) E s := by
  induction fuel generalizing srcva len f s with
  | zero =>
    exact ⟨0, f, Nat.zero_le _, by simp; omega, hs, .refl _ _, .refl _ _, .zero _ _ _,
      fun _ _ => rfl, fun _ hx => hx⟩
  | succ fuel ih =>
    rw [copyinLoop]
    split
    · rename_i hlen
      exact ⟨0, f, Nat.zero_le _, by simp [hlen], hs, .refl _ _, .refl _ _, .zero _ _ _,
        fun _ _ => rfl, fun _ hx => hx⟩
    · rename_i hlen
      have hfalse : false = true ↔ 0 = len := by simp; omega
      simp only [pgRoundDown, wp_bind]
      refine wp_userPage hs hU hsz hf (fun g t hv ht hg hV hUs hk hx => ?_) fun t ht hk => ?_
      · split
        · exact ⟨0, g, Nat.zero_le _, hfalse, ht, hg, hk, .zero _ _ _, fun _ _ => rfl, hx⟩
        · simp only [wp_bind, wp_get, wp_pure, nextPage_eq hv]
          set n₀ := min (pgsize - (srcva - srcva / pgsize * pgsize)) len with hn₀
          have hpos : 0 < n₀ := by
            simp only [pgsize] at hn₀
            omega
          refine (ih ht (hf.faulted hsz hg) (by omega)).mono (fun r w hw => ?_) fun _ _ he => he
          obtain ⟨n', h, hc⟩ := hw
          have hle' := hc.le
          refine ⟨n₀ + n', h, by omega, ?_, hc.space, hg.trans hc.faulted,
            hk.trans hc.keep (add_le_add_left hg.frames_le R),
            .step hv hc.faulted hV hUs hV hc.range, fun x hx₀ => ?_, fun x hx₀ =>
              hc.sees x (hx x hx₀)⟩
          · rw [hc.all]
            omega
          · dsimp only
            rw [(hx x hx₀).load hv hV (pageLen_le _ _), page_add_off, hc.bytes x (hx x hx₀),
              ← loadBytes_append]
            by_cases h0 : n' = 0
            · rw [h0]
              rfl
            · rw [next_eq_add h0 hle']
      · rw [if_pos rfl, wp_pure]
        exact ⟨0, f, Nat.zero_le _, hfalse, ht, .refl _ _, hk, .zero _ _ _, fun _ _ => rfl,
          fun _ hx => hx.keep hk⟩

/-! ## An address space with a hole and a guard page -/

/-- The empty page table of `emptyVm`, twelve free pages, and a page of others. -/
def freeVm : Vm :=
  { emptyVm with freelist := (List.range 12).map fun i => 0x80008000 + i * pgsize }

/-- Its pages. -/
def freePages : Multiset ℕ := 0x80020000 ::ₘ 0x80007000 ::ₘ freeVm.freelist

/-- Store a string over the end of the first page, leave out the third one, and make the fourth
    one inaccessible. -/
def fillPages : VmM PUnit := do
  let _ ← copyout emptyKernel (4 * pgsize) 0x80007000 0x80007000 4094 [120, 118, 54, 0]
  let pa ← vmfault emptyKernel (4 * pgsize) 0x80007000 0x80007000 (3 * pgsize)
  if pa = 0 then pure ⟨⟩ else uvmclear 0x80007000 (3 * pgsize)

/-- The memory with these pages. -/
def filledVm : Vm :=
  match fillPages freeVm with
  | .ok _ t => t
  | .error _ t => t

theorem managed_freePages : Managed emptyKernel freePages := by
  have hpage : ∀ a ∈ 0x80020000 :: 0x80007000 :: freeVm.freelist,
      a % pgsize = 0 ∧ emptyKernel.kend ≤ a ∧ a < physTop := by
    decide
  exact ⟨by decide, hpage⟩

theorem space_freeVm : Space freePages {0x80020000} 0x80007000 (fun _ => 0) freeVm := by
  have hzero : ∀ v, mapping freeVm.mem 0x80007000 v = 0 := fun v => by
    have hl : leaf freeVm.mem 2 0x80007000 v = 0 := leaf_of_zero rfl
    rw [mapping, hl, pteV_zero]
    rfl
  refine ⟨?_, fun v _ => hzero v, ptWf_of_zero rfl, rfl⟩
  rw [tables_of_zero rfl, frames_zero, freePages, ← Multiset.singleton_add 0x80020000,
    ← Multiset.singleton_add 0x80007000]
  abel

/-- What the code that fills the pages does. -/
theorem wp_fillPages : wp fillPages (fun _ t => ∃ f,
    Space freePages {0x80020000} 0x80007000 f t ∧ UserOnly f ∧ Keep {0x80020000} freeVm t)
    (fun _ _ => False) freeVm := by
  have hsz : 4 * pgsize ≤ trapframeVa := by decide
  have hzero : UserOnly fun _ => 0 := fun _ _ _ => by simp [pteU]
  rw [fillPages, wp_bind]
  refine (wp_copyoutLoop space_freeVm managed_freePages hsz hzero le_rfl).mono
    (fun _ s hs => ?_) fun _ _ he => he
  obtain ⟨n, f, hc⟩ := hs
  have hf := hzero.faulted hsz hc.faulted
  rw [wp_bind]
  refine wp_vmfault hc.space managed_freePages hsz (fun r t hva h0 hr ht _ hk => ?_)
    fun t ht hk => ?_
  · -- The fourth page.
    have hkR := hc.keep.trans (hk.of_le (Multiset.le_add_left _ _)) le_rfl
    have hv : 3 < userVpn := by decide
    rw [vpn_mul_div] at ht
    rw [if_neg hr.pos.ne']
    refine wp_uvmclear ht managed_freePages hv (by rw [Function.update_self, pteV_mkPte])
      fun u hu hku _ => ⟨_, hu, fun w hw hwm => ?_, hkR.trans hku le_rfl⟩
    rw [Function.update_of_ne (by omega), Function.update_of_ne (by omega)]
    exact hf w hw hwm
  · rw [if_pos rfl, wp_pure]
    exact ⟨f, ht, hf, hc.keep.trans (hk.of_le (Multiset.le_add_left _ _)) le_rfl⟩

/-- The address space with these pages. -/
theorem space_filledVm :
    Space freePages {0x80020000} 0x80007000 (mapping filledVm.mem 0x80007000) filledVm ∧
      UserOnly (mapping filledVm.mem 0x80007000) ∧ Keep {0x80020000} freeVm filledVm := by
  obtain ⟨_, t, ht, f, hs, hf, hk⟩ := wp_fillPages.exists_ok
  have he : filledVm = t := by rw [filledVm, ht]
  rw [he]
  refine ⟨hs.congr fun v hv => (hs.map v hv).symm, fun w hw hwm => ?_, hk⟩
  rw [hs.map w (lt_leafVpn hwm)]
  exact hf w hw hwm

set_option maxRecDepth 100000 in
/-- Its third page is not mapped, and its fourth page is not mapped for the user. -/
theorem mapping_filledVm : ∀ v < 4,
    pteV (mapping filledVm.mem 0x80007000 v) = decide (v ≠ 2) ∧
      pteU (mapping filledVm.mem 0x80007000 v) = decide (v < 2) := by
  decide +kernel

end Xv6
