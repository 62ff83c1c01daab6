import Xv6.Lib.Blind
import Xv6.Vm.Copy

/-!
# What the copy functions touch

`copyin` and `copyout` neither read nor write pages that are not mapped for the user: the
pages of the kernel, those of other processes, the trapframe, the trampoline and the guard
page of the stack. Here `B` marks such pages, and `overlay B m` gives them the contents
`m`. Doing this before a call comes to the same as doing it afterwards, whatever `m` is
(`blind_copyoutLoop`, `blind_copyinLoop`). The pages of the page table itself are read by
`walk`, and those of the free list may become part of it.
-/

namespace Xv6

/-- The pages that `B` marks, with the contents `m`. -/
def overlay (B : ℕ → Bool) (m : Mem) (s : Vm) : Vm :=
  { s with mem := fun b => if B b then m b else s.mem b }

/-- The pages of the free list, those of the page table, and those mapped for the user, are
    not marked. -/
structure Hidden (B : ℕ → Bool) (pt : ℕ) (f : ℕ → ℕ) (s : Vm) : Prop where
  freelist : ∀ b ∈ s.freelist, B b = false
  table : ∀ b ∈ tables s.mem 2 pt, B b = false
  user : ∀ v < userVpn, pteV (f v) = true → pteU (f v) = true → B (pteAddr (f v)) = false

variable {k : Kernel} {E : VmPanic → Vm → Prop} {s t : Vm} {U R R' : Multiset ℕ}
  {pt v l a b i va perm pa psz : ℕ} {f g : ℕ → ℕ} {B : ℕ → Bool} {m : Mem} {al : Bool}

theorem overlay_mem (h : B b = false) : (overlay B m s).mem b = s.mem b := if_neg (by simp [h])

/-- Storing in a page that is not marked. -/
theorem overlay_update (h : B b = false) (p : Page) :
    { overlay B m s with mem := Function.update (overlay B m s).mem b p } =
      overlay B m { s with mem := Function.update s.mem b p } := by
  have hm : Function.update (overlay B m s).mem b p =
      fun c => if B c then m c else Function.update s.mem b p c := by
    funext c
    by_cases hc : c = b
    · subst hc
      rw [Function.update_self, Function.update_self, if_neg (by simp [h])]
    · rw [Function.update_of_ne hc, Function.update_of_ne hc]
      rfl
  rw [hm]
  rfl

theorem blind_update (h : B b = false) (p : Page → Page) :
    Blind (overlay B m) (modify fun s : Vm =>
      { s with mem := Function.update s.mem b (p (s.mem b)) } : VmM PUnit) s := by
  refine blind_modify ?_
  rw [overlay_mem h]
  exact overlay_update h _

theorem blind_memset (h : B b = false) (x : UInt8) : Blind (overlay B m) (memset b x) s :=
  blind_update h fun _ => .fill x

theorem blind_storePage (h : B b = false) (off : ℕ) (bs : List UInt8) :
    Blind (overlay B m) (storePage b off bs) s :=
  blind_update h fun p => p.write off bs

theorem blind_setPte (h : B b = false) (i e : ℕ) : Blind (overlay B m) (setPte b i e) s := by
  refine blind_modify ?_
  rw [Mem.setPte, Mem.setPte, overlay_mem h]
  exact overlay_update h _

/-- Reading an entry of a page that is not marked. -/
theorem overlay_pte (h : B b = false) (i : ℕ) : (overlay B m s).mem.pte b i = s.mem.pte b i :=
  Mem.pte_congr (overlay_mem h) i

theorem blind_kalloc (h : ∀ b ∈ s.freelist, B b = false) : Blind (overlay B m) kalloc s := by
  have hnil : ∀ s : Vm, s.freelist = [] → kalloc s = .ok 0 { s with calls := s.calls + 1 } := by
    rintro ⟨mem, freelist, fails, calls, refreed⟩ rfl
    rfl
  have hcons : ∀ (s : Vm) r rest, s.freelist = r :: rest → kalloc s =
      if s.fails s.calls then .ok 0 { s with calls := s.calls + 1 }
      else .ok r { s with
        calls := s.calls + 1, freelist := rest, mem := Function.update s.mem r (.fill 5) } := by
    rintro ⟨mem, freelist, fails, calls, refreed⟩ r rest rfl
    simp only [kalloc, bind, EStateM.bind, get, getThe, MonadStateOf.get, EStateM.get]
    split <;> rfl
  rw [Blind]
  cases hf : s.freelist with
  | nil => rw [hnil s hf, hnil (overlay B m s) hf]; rfl
  | cons r rest =>
    have hr : B r = false := h r (by rw [hf]; exact List.mem_cons_self)
    have hup := overlay_update (m := m) (s := { s with calls := s.calls + 1, freelist := rest })
      hr (.fill 5)
    have hfails : (overlay B m s).fails (overlay B m s).calls = s.fails s.calls := rfl
    rw [hcons s r rest hf, hcons (overlay B m s) r rest hf, hfails]
    split
    · rfl
    · exact congrArg (EStateM.Result.ok r) hup

theorem blind_kfree (h : B pa = false) : Blind (overlay B m) (kfree k pa) s := by
  rw [kfree]
  split
  · exact blind_throw _
  · refine blind_modify ?_
    have h := overlay_update (m := m)
      (s := { s with freelist := pa :: s.freelist, refreed := s.refreed || pa ∈ s.freelist })
      h (.fill 1)
    exact h

/-! ## The page table -/

theorem blind_walkFrom (ha : Apart l a s) (hf : ∀ b ∈ s.freelist, B b = false)
    (ht : ∀ b ∈ tables s.mem l a, B b = false) :
    Blind (overlay B m) (walkFrom al va l a) s := by
  induction l generalizing a s with
  | zero => exact blind_pure _
  | succ l ih =>
    have hi := vpx_lt (l + 1) (va / pgsize)
    have hself := ht a (mem_tables_self _ _ _)
    rw [walkFrom]
    refine .get (by rw [overlay_pte hself]) ?_
    simp only [px_eq]
    split
    · rename_i hv
      refine ih (ha.child hi hv) hf fun b hb => ht b ?_
      refine Multiset.mem_of_le (subtables_le hi) ?_
      rwa [subtables_of_valid hv]
    · rename_i hv
      simp only [Bool.not_eq_true] at hv
      split
      · refine (blind_kalloc hf).bind fun c t hc => ?_
        have hwp : wp (kalloc : VmM ℕ) (fun c t => c ≠ 0 → s.freelist = c :: t.freelist ∧
            (∀ b, b ≠ c → t.mem b = s.mem b) ∧ t.refreed = s.refreed)
            (fun _ _ => True) s :=
          wp_kalloc (fun t _ _ _ h => absurd rfl h) fun r t hfl hm hr _ => ⟨hfl, hm, hr⟩
        have hspec := hwp.of_ok hc
        split
        · exact blind_pure _
        · rename_i hc0
          obtain ⟨hfl, hm, hr⟩ := hspec hc0
          have hcf : c ∈ (s.freelist : Multiset ℕ) := by
            rw [hfl]
            exact List.mem_cons_self
          have hp : PageAddr c := ha.page c (Multiset.mem_add.2 (.inl hcf))
          have hac : a ≠ c := by
            rintro rfl
            exact ha.not_mem_freelist (mem_tables_self _ _ a) hcf
          have hbc : B c = false := hf c hcf
          have hatt := attached_setPte hm hac hi hp
          refine (blind_memset hbc 0).modify_bind ((blind_setPte hself _ _).modify_bind ?_)
          set w : Vm := { t with
            mem := Mem.setPte (Function.update t.mem c (.fill 0)) a (vpx (l + 1) (va / pgsize))
              (mkPte c 0) } with hw
          have hg : Grows (l + 1) a s w := .attach ha hi hv hfl hatt hr
          have hent : w.mem.pte a (vpx (l + 1) (va / pgsize)) = mkPte c 0 := hatt.entry
          have hchild := (hg.apart ha).child hi (by rw [hent, pteV_mkPte])
          rw [hent, pteAddr_mkPte hp (by omega)] at hchild
          refine ih hchild (fun b hb => hf b ?_) fun b hb => ?_
          · rw [hfl]
            exact List.mem_cons_of_mem _ hb
          · rw [tables_of_zero hatt.zero, Multiset.mem_singleton] at hb
            rw [hb, hbc]
      · exact blind_pure _

theorem blind_walk (ha : Apart 2 pt s) (hf : ∀ b ∈ s.freelist, B b = false)
    (ht : ∀ b ∈ tables s.mem 2 pt, B b = false) : Blind (overlay B m) (walk pt va al) s := by
  rw [walk]
  split
  · exact blind_throw _
  · exact blind_walkFrom ha hf ht

/-- Looking an entry up, and then at what it holds. -/
theorem blind_walk_read {α : Type} {F : Option (ℕ × ℕ) → VmM α} (ha : Apart 2 pt s)
    (hf : ∀ b ∈ s.freelist, B b = false) (ht : ∀ b ∈ tables s.mem 2 pt, B b = false)
    (hv : v < maxVpn) (hF : ∀ r, r = slot s.mem v 2 pt →
      (∀ b i, r = some (b, i) → B b = false) → Blind (overlay B m) (F r) s) :
    Blind (overlay B m) (walk pt (v * pgsize) false >>= F) s := by
  refine (blind_walk ha hf ht).bind fun r t hr => ?_
  have hwp : wp (walk pt (v * pgsize) false) (fun r t => r = slot s.mem v 2 pt ∧ t = s)
      (fun _ _ => True) s := by
    rw [wp_walk (vpn_mul_lt hv), vpn_mul_div]
    exact ⟨rfl, rfl⟩
  obtain ⟨hr, rfl⟩ := hwp.of_ok hr
  exact hF r hr fun b i hb => ht b (slot_mem (hr.symm.trans hb)).1

theorem blind_walkaddr (ha : Apart 2 pt s) (hf : ∀ b ∈ s.freelist, B b = false)
    (ht : ∀ b ∈ tables s.mem 2 pt, B b = false) :
    Blind (overlay B m) (walkaddr pt (v * pgsize)) s := by
  rw [walkaddr]
  split
  · exact blind_pure _
  · rename_i hva
    have hv : v < maxVpn := by
      simp only [maxVpn, maxVa, pgsize] at *
      omega
    refine blind_walk_read ha hf ht hv fun r _ hB => ?_
    split
    · exact blind_pure _
    · refine .get (by rw [overlay_pte (hB _ _ rfl)]) ?_
      dsimp only
      split
      · exact blind_pure _
      · exact blind_pure _

theorem blind_ismapped (ha : Apart 2 pt s) (hf : ∀ b ∈ s.freelist, B b = false)
    (ht : ∀ b ∈ tables s.mem 2 pt, B b = false) (hv : v < maxVpn) :
    Blind (overlay B m) (ismapped pt (v * pgsize)) s := by
  refine blind_walk_read ha hf ht hv fun r _ hB => ?_
  split
  · exact blind_pure _
  · exact .get (by rw [overlay_pte (hB _ _ rfl)]) (blind_pure _)

theorem blind_mappages (ha : Apart 2 pt s) (hf : ∀ b ∈ s.freelist, B b = false)
    (ht : ∀ b ∈ tables s.mem 2 pt, B b = false) (hv : v < maxVpn) :
    Blind (overlay B m) (mappages pt (v * pgsize) pgsize pa perm) s := by
  rw [mappages, if_neg (by simp), Nat.div_self pgsize_pos]
  simp only [mapFrom]
  refine (blind_walk ha hf ht).bind fun r t hr => ?_
  obtain ⟨hg, hs⟩ := (wp_walk_alloc (E := fun _ _ => True) (vpn_mul_lt hv) ha).of_ok hr
  split
  · exact blind_pure _
  · rename_i b i
    have hb : B b = false := by
      have hmem := Multiset.mem_add.2 (.inr (slot_mem (hs _ rfl)).1 : b ∈ (t.freelist : Multiset ℕ) ∨ _)
      rw [hg.own, Multiset.mem_add] at hmem
      exact hmem.elim (hf b) (ht b)
    refine .get (by rw [overlay_pte hb]) ?_
    split
    · exact blind_throw _
    · exact (blind_setPte hb _ _).bind fun _ _ _ => blind_pure _

/-! ## Copying -/

/-- What is hidden stays hidden when pages are faulted in. -/
theorem Hidden.faulted (hU : Managed k U) (hs : Space U R pt f s) (ht : Space U R pt g t)
    (hg : Faulted psz f g) (h : Hidden B pt f s) : Hidden B pt g t := by
  have hown : (t.freelist : Multiset ℕ) + tables t.mem 2 pt + frames g =
      s.freelist + tables s.mem 2 pt + frames f := by
    have he := ht.own.trans hs.own.symm
    exact add_right_cancel he
  have hno : ∀ b, b ∈ (t.freelist : Multiset ℕ) + tables t.mem 2 pt → B b = false := by
    intro b hb
    have hmem : b ∈ (s.freelist : Multiset ℕ) + tables s.mem 2 pt + frames f := by
      rw [← hown]
      exact Multiset.mem_add.2 (.inl hb)
    rw [Multiset.mem_add, Multiset.mem_add] at hmem
    rcases hmem with (hmem | hmem) | hmem
    · exact h.freelist b hmem
    · exact h.table b hmem
    · have hd := ht.disjoint hU (Multiset.mem_add.2 (.inl (Multiset.mem_of_le hg.frames_le hmem)))
      rw [Multiset.mem_add] at hb
      exact (hb.elim hd.1 hd.2).elim
  refine ⟨fun b hb => hno b (Multiset.mem_add.2 (.inl hb)), fun b hb =>
    hno b (Multiset.mem_add.2 (.inr hb)), fun v hv hV hUs => ?_⟩
  cases hVf : pteV (f v) with
  | true =>
    rw [hg.of_valid hVf] at hUs ⊢
    exact h.user v hv hVf hUs
  | false =>
    -- The page was faulted in, and was free before.
    have hmem : pteAddr (g v) ∈ (s.freelist : Multiset ℕ) + tables s.mem 2 pt + frames f := by
      rw [← hown]
      exact Multiset.mem_add.2 (.inr (pteAddr_mem_frames hv hV))
    rw [Multiset.mem_add, Multiset.mem_add] at hmem
    rcases hmem with (hmem | hmem) | hmem
    · exact h.freelist _ hmem
    · exact h.table _ hmem
    · rw [frames, Multiset.mem_sum] at hmem
      obtain ⟨w, hw, hmem⟩ := hmem
      have hVw : pteV (f w) = true := by
        by_contra hn
        rw [pageOf_of_invalid (by simpa using hn)] at hmem
        simp at hmem
      rw [pageOf_of_valid hVw, Multiset.mem_singleton] at hmem
      have hVg : pteV (g w) = true := by rw [hg.of_valid hVw, hVw]
      have hvw := ht.frame_inj hU hv (mem_userVpns.1 hw) hV hVg (by rw [hg.of_valid hVw, hmem])
      rw [hvw, hVw] at hVf
      cases hVf

theorem blind_vmfault (hs : Space U R pt f s) (hU : Managed k U) (hsz : psz ≤ trapframeVa)
    (h : Hidden B pt f s) : Blind (overlay B m) (vmfault k psz pt pt va) s := by
  rw [vmfault]
  split
  · exact blind_pure _
  · rename_i hlt
    have hv : va / pgsize < userVpn := vpn_lt_of_user (by omega)
    have hvm := lt_maxVpn_of_user hv
    have ha := hs.apart hU
    refine (blind_ismapped ha h.freelist h.table hvm).bind fun r t hr => ?_
    have hwp : wp (ismapped pt (va / pgsize * pgsize)) (fun _ t => t = s) (fun _ _ => True) s := by
      rw [wp_ismapped hvm]
    obtain rfl := hwp.of_ok hr
    split
    · exact blind_pure _
    · refine (blind_kalloc h.freelist).bind fun r u hr => ?_
      have hwp : wp (kalloc : VmM ℕ) (fun r u => r ≠ 0 → r ∈ t.freelist ∧
          Space U (r ::ₘ R) pt f u ∧ ∀ b, b ≠ r → u.mem b = t.mem b) (fun _ _ => True) t := by
        have h₁ : wp (kalloc : VmM ℕ) (fun r u => r ≠ 0 → r ∈ t.freelist) (fun _ _ => True) t :=
          wp_kalloc (fun _ _ _ _ h0 => absurd rfl h0) fun r u hfl _ _ _ => by
            rw [hfl]
            exact List.mem_cons_self
        have h₂ : wp (kalloc : VmM ℕ) (fun r u => r ≠ 0 → Space U (r ::ₘ R) pt f u ∧
            ∀ b, b ≠ r → u.mem b = t.mem b) (fun _ _ => True) t :=
          wp_kalloc_space hs hU (fun _ _ _ h0 => absurd rfl h0) fun r u _ hsp hm _ => ⟨hsp, hm⟩
        exact (h₁.and h₂).mono (fun _ _ h h0 => ⟨h.1 h0, h.2 h0⟩) fun _ _ _ => trivial
      split
      · exact blind_pure _
      · rename_i hr0
        obtain ⟨hrf, hsp, hm⟩ := hwp.of_ok hr hr0
        have hB := h.freelist r hrf
        have hz := hsp.update hU (Multiset.mem_add.2 (.inr (Multiset.mem_cons_self r R)))
          (.fill 0)
        have hown : ∀ b, b ∈ ({ u with mem := Function.update u.mem r (.fill 0) } : Vm).freelist ∨
            b ∈ tables (Function.update u.mem r (.fill 0)) 2 pt → B b = false := by
          intro b hb
          have he := hz.own.trans hs.own.symm
          rw [← Multiset.singleton_add, ← add_assoc, add_assoc _ (frames f), add_comm (frames f),
            ← add_assoc] at he
          have he' := add_right_cancel (add_right_cancel he)
          have hmem : b ∈ (t.freelist : Multiset ℕ) + tables t.mem 2 pt := by
            rw [← he']
            exact Multiset.mem_add.2 (.inl (Multiset.mem_add.2 hb))
          exact (Multiset.mem_add.1 hmem).elim (h.freelist b) (h.table b)
        refine (blind_memset hB 0).modify_bind ((blind_mappages (hz.apart hU)
          (fun b hb => hown b (.inl hb)) (fun b hb => hown b (.inr hb)) hvm).bind
            fun ok w _ => ?_)
        split
        · exact blind_pure _
        · exact (blind_kfree hB).bind fun _ _ _ => blind_pure _

theorem blind_userPage (hs : Space U R pt f s) (hU : Managed k U) (hsz : psz ≤ trapframeVa)
    (h : Hidden B pt f s) : Blind (overlay B m) (userPage k psz pt pt (v * pgsize)) s := by
  refine (blind_walkaddr (hs.apart hU) h.freelist h.table).bind fun r t hr => ?_
  have hwp : wp (walkaddr pt (v * pgsize)) (fun _ t => t = s) (fun _ _ => True) s := by
    rw [wp_walkaddr]
  obtain rfl := hwp.of_ok hr
  split
  · exact blind_vmfault hs hU hsz h
  · exact blind_pure _

/-- The page at an address, and what is known of it. -/
theorem userPage_ok {pa0 : ℕ} (hs : Space U R pt f s) (hU : Managed k U) (hsz : psz ≤ trapframeVa)
    (hf : UserOnly f) (h : Hidden B pt f s)
    (hr : userPage k psz pt pt (v * pgsize) s = .ok pa0 t) (h0 : pa0 ≠ 0) :
    ∃ g, v < userVpn ∧ Space U R pt g t ∧ UserOnly g ∧ Hidden B pt g t ∧ pteV (g v) = true ∧
      pa0 = pteAddr (g v) ∧ B pa0 = false := by
  have hwp : wp (userPage k psz pt pt (v * pgsize)) (fun pa0 t => pa0 ≠ 0 → ∃ g, v < userVpn ∧
      Space U R pt g t ∧ UserOnly g ∧ Hidden B pt g t ∧ pteV (g v) = true ∧
      pa0 = pteAddr (g v) ∧ B pa0 = false) (fun _ _ => True) s := by
    refine wp_userPage hs hU hsz hf (fun g t hv ht hg hV hUs _ _ _ => ?_) fun _ _ _ h0 =>
      absurd rfl h0
    have hh := h.faulted hU hs ht hg
    exact ⟨g, hv, ht, hf.faulted hsz hg, hh, hV, rfl, hh.user v hv hV hUs⟩
  exact hwp.of_ok hr h0

/-- `copyout` does not touch the hidden pages. -/
theorem blind_copyoutLoop {fuel dstva : ℕ} {src : List UInt8} (hs : Space U R pt f s)
    (hU : Managed k U) (hsz : psz ≤ trapframeVa) (hf : UserOnly f) (h : Hidden B pt f s) :
    Blind (overlay B m) (copyoutLoop k psz pt pt fuel dstva src) s := by
  induction fuel generalizing dstva src f s with
  | zero => exact blind_pure _
  | succ fuel ih =>
    rw [copyoutLoop]
    split
    · exact blind_pure _
    · dsimp only
      split
      · exact blind_pure _
      · refine (blind_userPage hs hU hsz h).bind fun pa0 t hr => ?_
        split
        · exact blind_pure _
        · rename_i h0
          obtain ⟨g, hv, ht, hg, hh, hV, rfl, hB⟩ := userPage_ok hs hU hsz hf h hr h0
          refine blind_walk_read (ht.apart hU) hh.freelist hh.table (lt_maxVpn_of_user hv)
            fun r _ hBt => ?_
          split
          · exact blind_throw _
          · refine .get (by rw [overlay_pte (hBt _ _ rfl)]) ?_
            split
            · exact blind_pure _
            · refine (blind_storePage hB _ _).modify_bind (ih (ht.update hU ?_ _) hg ?_)
              · exact Multiset.mem_add.2 (.inl (pteAddr_mem_frames hv hV))
              · have hd := ht.disjoint hU (Multiset.mem_add.2 (.inl (pteAddr_mem_frames hv hV)))
                have hne : ∀ p, ∀ c ∈ tables t.mem 2 pt,
                    Function.update t.mem (pteAddr (g (dstva / pgsize))) p c = t.mem c := by
                  intro p c hc
                  refine Function.update_of_ne ?_ _ _
                  rintro rfl
                  exact hd.2 hc
                exact ⟨hh.freelist, fun b hb => hh.table b (tables_congr (hne _) ▸ hb), hh.user⟩

/-- Nor does `copyin`. -/
theorem blind_copyinLoop {fuel srcva len : ℕ} (hs : Space U R pt f s) (hU : Managed k U)
    (hsz : psz ≤ trapframeVa) (hf : UserOnly f) (h : Hidden B pt f s) :
    Blind (overlay B m) (copyinLoop k psz pt pt fuel srcva len) s := by
  induction fuel generalizing srcva len f s with
  | zero => exact blind_pure _
  | succ fuel ih =>
    rw [copyinLoop]
    split
    · exact blind_pure _
    · refine (blind_userPage hs hU hsz h).bind fun pa0 t hr => ?_
      split
      · exact blind_pure _
      · rename_i h0
        obtain ⟨g, hv, ht, hg, hh, hV, rfl, hB⟩ := userPage_ok hs hU hsz hf h hr h0
        refine .get (by simp only [overlay_mem hB]) ?_
        exact (ih ht hg hh).bind fun _ _ _ => blind_pure _

/-- `copyout` and `copyin`, at any address and of any length, in the address space of a process.
    `copyout` stores the first `n` bytes of the source, all of them if it succeeds, in pages
    mapped with `PTE_V`, `PTE_U` and `PTE_W`; `copyin` delivers the first `n` bytes, all of them
    if it succeeds, from pages mapped with `PTE_V` and `PTE_U`. They map nothing but pages of
    zeros below the size of the process, where nothing was mapped, and they do not touch the
    pages that are not mapped for the user. -/
theorem copy_user_memory {k : Kernel} {U R : Multiset ℕ} {pt psz : ℕ} {f : ℕ → ℕ} {s : Vm}
    (hU : Managed k U) (hs : Space U R pt f s) (hsz : psz ≤ trapframeVa) (hf : UserOnly f) :
    (∀ dstva src, wp (copyout k psz pt pt dstva src)
      (fun r t => ∃ n g, CopiedOut U R pt psz f s dstva src r n g t) (fun _ _ => False) s) ∧
    (∀ srcva len, wp (copyin k psz pt pt srcva len)
      (fun r t => ∃ n g, CopiedIn U R pt psz f s srcva len r n g t) (fun _ _ => False) s) ∧
    ∀ B m, Hidden B pt f s →
      (∀ dstva src, Blind (overlay B m) (copyout k psz pt pt dstva src) s) ∧
      ∀ srcva len, Blind (overlay B m) (copyin k psz pt pt srcva len) s :=
  ⟨fun _ _ => wp_copyoutLoop hs hU hsz hf le_rfl, fun _ _ => wp_copyinLoop hs hU hsz hf le_rfl,
    fun _ _ hB => ⟨fun _ _ => blind_copyoutLoop hs hU hsz hf hB,
      fun _ _ => blind_copyinLoop hs hU hsz hf hB⟩⟩

/-- The page of others of `filledVm`, and the one that its guard page is mapped to. -/
def guarded (b : ℕ) : Bool := b = 0x80020000 ∨ b = pteAddr (mapping filledVm.mem 0x80007000 3)

theorem hidden_filledVm :
    Hidden guarded 0x80007000 (mapping filledVm.mem 0x80007000) filledVm := by
  obtain ⟨hs, -, -⟩ := space_filledVm
  obtain ⟨hV, hUs⟩ := mapping_filledVm 3 (by decide)
  have hv : 3 < userVpn := by decide
  have hother : (0x80020000 : ℕ) ∈ ({0x80020000} : Multiset ℕ) := Multiset.mem_singleton_self _
  have hmem := pteAddr_mem_frames hv hV
  have hsome : ∀ b, guarded b = true →
      b ∈ frames (mapping filledVm.mem 0x80007000) + {0x80020000} := by
    intro b hb
    rcases of_decide_eq_true hb with rfl | rfl
    · exact Multiset.mem_add.2 (.inr hother)
    · exact Multiset.mem_add.2 (.inl hmem)
  refine ⟨fun b hb => ?_, fun b hb => ?_, fun v hvu hVv hUv => ?_⟩
  · by_contra hg
    exact (hs.disjoint managed_freePages (hsome b (by simpa using hg))).1 hb
  · by_contra hg
    exact (hs.disjoint managed_freePages (hsome b (by simpa using hg))).2 hb
  · refine decide_eq_false fun h => ?_
    rcases h with h | h
    · have hn := hs.not_mem_frames managed_freePages hother
      exact hn (h ▸ pteAddr_mem_frames hvu hVv)
    · -- No other page is mapped to the page of the guard page.
      obtain rfl := hs.frame_inj managed_freePages hvu hv hVv hV h
      rw [hUs] at hUv
      cases hUv

set_option maxRecDepth 100000 in
theorem copies_filledVm :
    wp (copyout emptyKernel (4 * pgsize) 0x80007000 0x80007000 8190 [1, 2, 3, 4])
      (fun r _ => r = true) (fun _ _ => True) filledVm ∧
    wp (copyin emptyKernel (4 * pgsize) 0x80007000 0x80007000 4094 4)
      (fun r _ => r = (true, [120, 118, 54, 0])) (fun _ _ => True) filledVm ∧
    wp (copyout emptyKernel (4 * pgsize) 0x80007000 0x80007000 (3 * pgsize) [9])
      (fun r _ => r = false) (fun _ _ => True) filledVm := by
  decide +kernel

/-- Four bytes are stored over the end of the second page, and the third page is faulted in for
    this; four bytes are read over the end of the first page; nothing is stored in the guard page.
    The guard page and the page of others can be anything. -/
theorem copy_user_memory_filledVm :
    (∃ g t, copyout emptyKernel (4 * pgsize) 0x80007000 0x80007000 8190 [1, 2, 3, 4] filledVm =
        .ok true t ∧
      CopiedOut freePages {0x80020000} 0x80007000 (4 * pgsize) (mapping filledVm.mem 0x80007000)
        filledVm 8190 [1, 2, 3, 4] true 4 g t) ∧
    (∃ g t, copyin emptyKernel (4 * pgsize) 0x80007000 0x80007000 4094 4 filledVm =
        .ok (true, [120, 118, 54, 0]) t ∧
      CopiedIn freePages {0x80020000} 0x80007000 (4 * pgsize) (mapping filledVm.mem 0x80007000)
        filledVm 4094 4 (true, [120, 118, 54, 0]) 4 g t) ∧
    (∃ g t, copyout emptyKernel (4 * pgsize) 0x80007000 0x80007000 (3 * pgsize) [9] filledVm =
        .ok false t ∧
      CopiedOut freePages {0x80020000} 0x80007000 (4 * pgsize) (mapping filledVm.mem 0x80007000)
        filledVm (3 * pgsize) [9] false 0 g t) ∧
    ∀ m, copyout emptyKernel (4 * pgsize) 0x80007000 0x80007000 8190 [1, 2, 3, 4]
        (overlay guarded m filledVm) =
      mapState (overlay guarded m)
        (copyout emptyKernel (4 * pgsize) 0x80007000 0x80007000 8190 [1, 2, 3, 4] filledVm) := by
  obtain ⟨hs, hf, -⟩ := space_filledVm
  have hsz : 4 * pgsize ≤ trapframeVa := by decide
  obtain ⟨hout, hin, hblind⟩ := copy_user_memory managed_freePages hs hsz hf
  obtain ⟨hstored, hread, hguard⟩ := copies_filledVm
  refine ⟨?_, ?_, ?_, fun m => (hblind guarded m hidden_filledVm).1 8190 [1, 2, 3, 4]⟩
  · obtain ⟨r, t, ht, n, g, hc⟩ := (hout 8190 [1, 2, 3, 4]).exists_ok
    obtain rfl := hstored.of_ok ht
    obtain rfl := hc.all.1 rfl
    exact ⟨g, t, ht, hc⟩
  · obtain ⟨r, t, ht, n, g, hc⟩ := (hin 4094 4).exists_ok
    obtain rfl := hread.of_ok ht
    obtain rfl := hc.all.1 rfl
    exact ⟨g, t, ht, hc⟩
  · obtain ⟨r, t, ht, n, g, hc⟩ := (hout (3 * pgsize) [9]).exists_ok
    obtain rfl := hguard.of_ok ht
    have hn : n = 0 := by
      have hle : n ≤ 1 := hc.le
      have hne : n ≠ 1 := fun h => by simpa using hc.all.2 h
      omega
    subst hn
    exact ⟨g, t, ht, hc⟩

end Xv6
