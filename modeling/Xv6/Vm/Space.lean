import Xv6.Vm.Map

/-!
# Address spaces

The pages of an address space: those of its page table, and those that its user pages
are mapped to (`frames`). `Space U R pt f s` says that the page table `pt` maps the
virtual pages by `f`, and that the pages of the allocator, those of the address space
and some others, `R`, are exactly the pages `U`, each of them once.

The functions of `vm.c` move pages between the three parts. Each specification says what
becomes of the map, and which pages keep their contents.
-/

namespace Xv6

/-- The number of virtual pages below `TRAPFRAME`. -/
abbrev userVpn : ℕ := trapframeVa / pgsize

/-- The user pages. -/
@[irreducible] def userVpns : Finset ℕ := Finset.range userVpn

theorem mem_userVpns {v : ℕ} : v ∈ userVpns ↔ v < userVpn := by
  rw [userVpns]
  exact Finset.mem_range

theorem card_userVpns : userVpns.card = userVpn := by
  rw [userVpns]
  exact Finset.card_range _

theorem lt_maxVpn_of_user {v : ℕ} (h : v < userVpn) : v < maxVpn := by
  simp only [userVpn, trapframeVa, trampolineVa, maxVpn, maxVa, pgsize] at *
  omega

/-- The pages that the user pages are mapped to. -/
def frames (f : ℕ → ℕ) : Multiset ℕ := ∑ v ∈ userVpns, pageOf (f v)

/-- The pages of the allocator. -/
structure Managed (k : Kernel) (U : Multiset ℕ) : Prop where
  nodup : U.Nodup
  page : ∀ a ∈ U, a % pgsize = 0 ∧ k.kend ≤ a ∧ a < physTop

/-- The page table `pt` maps the virtual pages by `f`, and the pages `U` are those of the
    allocator, of the address space, and `R`. -/
structure Space (U R : Multiset ℕ) (pt : ℕ) (f : ℕ → ℕ) (s : Vm) : Prop where
  own : (s.freelist : Multiset ℕ) + tables s.mem 2 pt + frames f + R = U
  map : ∀ v < leafVpn, mapping s.mem pt v = f v
  wf : PtWf s.mem 2 pt
  refreed : s.refreed = false

/-- The pages `B` keep their contents. -/
def Keep (B : Multiset ℕ) (s t : Vm) : Prop := ∀ b ∈ B, t.mem b = s.mem b

variable {k : Kernel} {E : VmPanic → Vm → Prop} {s t u : Vm} {U R R' B B' D : Multiset ℕ}
  {pt v w pa perm : ℕ} {f g : ℕ → ℕ}

theorem Managed.pageAddr (hU : Managed k U) {a : ℕ} (ha : a ∈ U) : PageAddr a := by
  obtain ⟨h₁, h₂, h₃⟩ := hU.page a ha
  have := k.kend_pos
  exact ⟨h₁, by omega, by simp only [physTop] at h₃; omega⟩

theorem Keep.refl (B : Multiset ℕ) (s : Vm) : Keep B s s := fun _ _ => rfl

theorem Keep.trans (h : Keep B s t) (h' : Keep B' t u) (hle : B ≤ B') : Keep B s u :=
  fun b hb => (h' b (Multiset.mem_of_le hle hb)).trans (h b hb)

theorem Keep.of_le (h : Keep B s t) (hle : B' ≤ B) : Keep B' s t :=
  fun b hb => h b (Multiset.mem_of_le hle hb)

/-! ## The pages of a map -/

theorem frames_congr (h : ∀ v < userVpn, f v = g v) : frames f = frames g :=
  Finset.sum_congr rfl fun v hv => by rw [h v (mem_userVpns.1 hv)]

theorem frames_zero : frames (fun _ => 0) = 0 := Finset.sum_eq_zero fun _ _ => pageOf_zero

/-- Changing the entry of one page. -/
theorem frames_update (hv : v < userVpn) (e : ℕ) :
    frames (Function.update f v e) + pageOf (f v) = frames f + pageOf e := by
  have hmem := mem_userVpns.2 hv
  rw [frames, frames, ← Finset.add_sum_erase _ _ hmem, ← Finset.add_sum_erase _ _ hmem,
    Function.update_self]
  have hs : ∑ w ∈ userVpns.erase v, pageOf (Function.update f v e w) =
      ∑ w ∈ userVpns.erase v, pageOf (f w) :=
    Finset.sum_congr rfl fun w hw => by rw [Function.update_of_ne (Finset.ne_of_mem_erase hw)]
  rw [hs]
  abel

theorem frames_update_of_le (hv : userVpn ≤ v) (e : ℕ) : frames (Function.update f v e) = frames f :=
  frames_congr fun w hw => Function.update_of_ne (by omega) _ _

theorem pageOf_le_frames (hv : v < userVpn) : pageOf (f v) ≤ frames f :=
  Finset.single_le_sum (f := fun w => pageOf (f w)) (fun _ _ => zero_le) (mem_userVpns.2 hv)

/-! ## The address space -/

theorem Space.congr (h : Space U R pt f s) (hfg : ∀ v < leafVpn, f v = g v) : Space U R pt g s where
  own := by rw [← frames_congr fun v hv => hfg v (lt_leafVpn (lt_maxVpn_of_user hv))]; exact h.own
  map v hv := (h.map v hv).trans (hfg v hv)
  wf := h.wf
  refreed := h.refreed

theorem Space.apart (h : Space U R pt f s) (hU : Managed k U) : Apart 2 pt s := by
  have hle : (s.freelist : Multiset ℕ) + tables s.mem 2 pt ≤ U := by
    rw [← h.own, add_assoc]
    exact Multiset.le_add_right _ _
  exact ⟨Multiset.nodup_of_le hle hU.nodup, fun b hb => hU.pageAddr (Multiset.mem_of_le hle hb)⟩

/-- The user pages and the others are not pages of the allocator or of the page table. -/
theorem Space.disjoint (h : Space U R pt f s) (hU : Managed k U) {b : ℕ}
    (hb : b ∈ frames f + R) : b ∉ s.freelist ∧ b ∉ tables s.mem 2 pt := by
  have hnd := hU.nodup
  rw [← h.own, add_assoc, Multiset.nodup_add] at hnd
  have hn : b ∉ (s.freelist : Multiset ℕ) + tables s.mem 2 pt :=
    Multiset.disjoint_right.1 hnd.2.2 hb
  rwa [Multiset.mem_add, Multiset.mem_coe, not_or] at hn

/-- The user pages are not among the others. -/
theorem Space.not_mem_frames (h : Space U R pt f s) (hU : Managed k U) {b : ℕ} (hb : b ∈ R) :
    b ∉ frames f := by
  have hnd := hU.nodup
  rw [← h.own, add_assoc] at hnd
  exact Multiset.disjoint_right.1 (Multiset.nodup_add.1 (Multiset.nodup_add.1 hnd).2.1).2.2 hb

theorem Space.frames_le (h : Space U R pt f s) : frames f ≤ U := by
  have hown := h.own
  rw [add_assoc] at hown
  exact le_trans (Multiset.le_add_right (frames f) R)
    (hown ▸ Multiset.le_add_left (frames f + R) _)

theorem Space.mem_of_mem (h : Space U R pt f s) {b : ℕ} (hb : b ∈ frames f + R) : b ∈ U := by
  rw [← h.own, add_assoc]
  exact Multiset.mem_add.2 (.inr hb)

/-- A change of the page table, where pages may also change hands. -/
theorem Space.remaps (R' : Multiset ℕ) (h : Space U R pt f s) (hU : Managed k U)
    (hr : Remaps pt g D s t) (hD : frames g + R' + D = frames f + R) :
    Space U R' pt g t ∧ Keep (frames g + R') s t := by
  have hown : (t.freelist : Multiset ℕ) + tables t.mem 2 pt + frames g + R' = U := by
    rw [hr.own, ← h.own, add_assoc _ (frames f), ← hD]
    abel
  refine ⟨⟨hown, hr.mapping, hr.wf h.wf, hr.refreed.trans h.refreed⟩, fun b hb => ?_⟩
  have hbf : b ∈ frames f + R := by
    rw [← hD]
    exact Multiset.mem_add.2 (.inl hb)
  obtain ⟨hbl, hbt⟩ := h.disjoint hU hbf
  -- The pages handed over are not among those that stay.
  have hnd := hU.nodup
  rw [← h.own, add_assoc, ← hD] at hnd
  have hnd := (Multiset.nodup_add.1 (Multiset.nodup_add.1 hnd).2.1).2.2
  exact hr.frame b hbl hbt fun hbD => Multiset.disjoint_left.1 hnd hb hbD

/-- A change of the memory of other pages. -/
theorem Space.of_keep (h : Space U R pt f s) (hf : (t.freelist : Multiset ℕ) + R' = s.freelist + R)
    (hk : ∀ b ∈ tables s.mem 2 pt, t.mem b = s.mem b) (hr : t.refreed = s.refreed) :
    Space U R' pt f t where
  own := by
    rw [tables_congr hk, ← h.own]
    calc (t.freelist : Multiset ℕ) + tables s.mem 2 pt + frames f + R'
        = t.freelist + R' + (tables s.mem 2 pt + frames f) := by abel
      _ = s.freelist + R + (tables s.mem 2 pt + frames f) := by rw [hf]
      _ = s.freelist + tables s.mem 2 pt + frames f + R := by abel
  map v hv := (mapping_congr (leaf_congr hk)).trans (h.map v hv)
  wf := ptWf_congr hk h.wf
  refreed := hr.trans h.refreed

/-! ## Allocating and freeing -/

/-- `kalloc` fails, or hands out a page. -/
theorem wp_kalloc_space {Q : ℕ → Vm → Prop} (h : Space U R pt f s) (hU : Managed k U)
    (hnone : ∀ t, Space U R pt f t → t.mem = s.mem → Q 0 t)
    (hsome : ∀ r t, r ≠ 0 → Space U (r ::ₘ R) pt f t → (∀ b, b ≠ r → t.mem b = s.mem b) →
      Q r t) : wp kalloc Q E s := by
  refine wp_kalloc (fun t hm hf hr => ?_) fun r t hf hm hr => ?_
  · refine hnone t (h.of_keep ?_ (fun b _ => by rw [hm]) hr) hm
    rw [hf]
  · have hrf : r ∈ s.freelist := by
      rw [hf]
      exact List.mem_cons_self
    have hrU : r ∈ U := by
      rw [← h.own, add_assoc, add_assoc]
      exact Multiset.mem_add.2 (.inl hrf)
    refine hsome r t (hU.pageAddr hrU).pos.ne' (h.of_keep ?_ (fun b hb => hm b ?_) hr) hm
    · rw [hf, ← Multiset.cons_coe, Multiset.add_cons, Multiset.cons_add]
    · rintro rfl
      exact (h.apart hU).not_mem_freelist hb hrf

/-- Storing in a page that is not of the page table. -/
theorem Space.update (h : Space U R pt f s) (hU : Managed k U) {r : ℕ} (hr : r ∈ frames f + R)
    (p : Page) : Space U R pt f { s with mem := Function.update s.mem r p } := by
  refine h.of_keep rfl (fun b hb => Function.update_of_ne ?_ _ _) rfl
  rintro rfl
  exact (h.disjoint hU hr).2 hb

/-- `kfree` takes a page back. -/
theorem wp_kfree_space {Q : PUnit → Vm → Prop} (h : Space U (pa ::ₘ R) pt f s) (hU : Managed k U)
    (hok : ∀ t, Space U R pt f t → Keep (frames f + R) s t → Q ⟨⟩ t) : wp (kfree k pa) Q E s := by
  have hpa : pa ∈ frames f + pa ::ₘ R := Multiset.mem_add.2 (.inr (Multiset.mem_cons_self pa R))
  obtain ⟨h₁, h₂, h₃⟩ := hU.page pa (h.mem_of_mem hpa)
  obtain ⟨hfl, htab⟩ := h.disjoint hU hpa
  refine wp_kfree h₁ h₂ h₃ hfl fun t hf hm hr => hok t (h.of_keep ?_ (fun b hb => hm b ?_) hr) ?_
  · rw [hf, ← Multiset.cons_coe, Multiset.add_cons, Multiset.cons_add]
  · rintro rfl
    exact htab hb
  · intro b hb
    refine hm b ?_
    rintro rfl
    have hnd := hU.nodup
    rw [← h.own, add_assoc, Multiset.nodup_add, Multiset.add_cons, Multiset.nodup_cons] at hnd
    exact hnd.2.1.1 hb

/-! ## Mapping user pages -/

/-- Mapping a user page. Above them, pages are mapped already. -/
theorem wp_mappages_user {Q : Bool → Vm → Prop} (h : Space U (pa ::ₘ R) pt f s) (hU : Managed k U)
    (hvm : v < maxVpn) (hu : f v = 0 → v < userVpn) (hperm : perm < 1024)
    (hok : ∀ t, f v = 0 → Space U R pt (Function.update f v (mkPte pa perm)) t →
      Keep (frames f + pa ::ₘ R) s t → Q true t)
    (hfail : ∀ t, Space U (pa ::ₘ R) pt f t → Keep (frames f + pa ::ₘ R) s t → Q false t)
    (hE : pteV (f v) = true → ∀ t, t.refreed = false → E .remap t) :
    wp (mappages pt (v * pgsize) pgsize pa perm) Q E s := by
  have hpa : PageAddr pa :=
    hU.pageAddr (h.mem_of_mem (Multiset.mem_add.2 (.inr (Multiset.mem_cons_self pa R))))
  refine wp_mappages (h.apart hU) hvm hpa.lt hperm (fun t ht hval => ?_) (fun t ht => ?_)
    fun t ht hval => ?_
  · have h0 : f v = 0 := by
      rw [← h.map v (lt_leafVpn hvm)]
      exact mapping_of_invalid hval
    have hup := frames_update (f := f) (hu h0) (mkPte pa perm)
    rw [h0, pageOf_zero, add_zero, pageOf_of_valid (pteV_mkPte pa perm),
      pteAddr_mkPte hpa hperm] at hup
    have ht' := ht.congr (g := Function.update f v (mkPte pa perm)) fun w hw => by
      by_cases hwv : w = v
      · rw [hwv, Function.update_self, Function.update_self]
      · rw [Function.update_of_ne hwv, Function.update_of_ne hwv, h.map w hw]
    have hsum : frames (Function.update f v (mkPte pa perm)) + R = frames f + pa ::ₘ R := by
      rw [hup, ← Multiset.singleton_add pa R, add_assoc]
    obtain ⟨hsp, hkeep⟩ := h.remaps R hU ht' (by rw [add_zero, hsum])
    rw [hsum] at hkeep
    exact hok t h0 hsp hkeep
  · obtain ⟨hsp, hkeep⟩ := h.remaps (pa ::ₘ R) hU (ht.congr h.map) (add_zero _)
    exact hfail t hsp hkeep
  · rw [h.map v (lt_leafVpn hvm)] at hval
    exact hE hval t (ht.trans h.refreed)

/-- The page that `kalloc` handed out, when its contents have been set. -/
theorem Space.fresh {r : ℕ} (ht : Space U (r ::ₘ R) pt f t) (hU : Managed k U)
    (hm : ∀ b, b ≠ r → t.mem b = s.mem b) (p : Page) :
    Space U (r ::ₘ R) pt f { t with mem := Function.update t.mem r p } ∧
      Keep (frames f + R) s { t with mem := Function.update t.mem r p } ∧
      PageAddr r ∧ r ∉ frames f + R := by
  have hr : r ∈ frames f + r ::ₘ R := Multiset.mem_add.2 (.inr (Multiset.mem_cons_self r R))
  have hn : r ∉ frames f + R := by
    have hnd := hU.nodup
    rw [← ht.own, add_assoc, Multiset.nodup_add, Multiset.add_cons, Multiset.nodup_cons] at hnd
    exact hnd.2.1.1
  refine ⟨ht.update hU hr p, fun b hb => ?_, hU.pageAddr (ht.mem_of_mem hr), hn⟩
  have hbr : b ≠ r := by
    rintro rfl
    exact hn hb
  exact (Function.update_of_ne hbr _ _).trans (hm b hbr)

/-- The pages of the map when a page is mapped that was not. -/
theorem frames_map (hpa : PageAddr pa) (hperm : perm < 1024) (hv : v < userVpn) (h0 : f v = 0) :
    frames (Function.update f v (mkPte pa perm)) + R = frames f + pa ::ₘ R := by
  have hup := frames_update (f := f) hv (mkPte pa perm)
  rw [h0, pageOf_zero, add_zero, pageOf_of_valid (pteV_mkPte _ _), pteAddr_mkPte hpa hperm] at hup
  rw [hup, ← Multiset.singleton_add pa R, add_assoc]

/-- Mapping that page. -/
theorem wp_mappages_fresh {r : ℕ} {Q : Bool → Vm → Prop} (ht : Space U (r ::ₘ R) pt f t)
    (hU : Managed k U) (hk : Keep (frames f + R) s t) (hr : PageAddr r)
    (hvm : v < maxVpn) (hu : f v = 0 → v < userVpn) (hperm : perm < 1024)
    (hok : ∀ u, f v = 0 → Space U R pt (Function.update f v (mkPte r perm)) u →
      frames (Function.update f v (mkPte r perm)) + R = frames f + r ::ₘ R →
      u.mem r = t.mem r → Keep (frames f + R) s u → Q true u)
    (hfail : ∀ u, Space U (r ::ₘ R) pt f u → Keep (frames f + R) s u → Q false u)
    (hE : pteV (f v) = true → ∀ u, u.refreed = false → E .remap u) :
    wp (mappages pt (v * pgsize) pgsize r perm) Q E t := by
  have hle : frames f + R ≤ frames f + r ::ₘ R := add_le_add_right (Multiset.le_cons_self R r) _
  refine wp_mappages_user ht hU hvm hu hperm (fun u h0 hsp hku => ?_) (fun u hsp hku => ?_) hE
  · refine hok u h0 hsp (frames_map hr hperm (hu h0) h0) (hku r ?_) (hk.trans hku hle)
    exact Multiset.mem_add.2 (.inr (Multiset.mem_cons_self r R))
  · exact hfail u hsp (hk.trans hku hle)

/-! ## Unmapping user pages -/

/-- The map without the pages from `a` to `b`. -/
def unmapped (f : ℕ → ℕ) (a b v : ℕ) : ℕ := if a ≤ v ∧ v < b then 0 else f v

theorem unmapped_succ (f : ℕ → ℕ) {a b : ℕ} (hab : a ≤ b) :
    unmapped f a (b + 1) = Function.update (unmapped f a b) b 0 := by
  funext v
  by_cases hvb : v = b
  · subst hvb
    rw [Function.update_self, unmapped, if_pos ⟨hab, by omega⟩]
  · rw [Function.update_of_ne hvb, unmapped, unmapped]
    congr 1
    exact propext ⟨fun h => ⟨h.1, by omega⟩, fun h => ⟨h.1, by omega⟩⟩

theorem frames_unmapped_le (f : ℕ → ℕ) (a b : ℕ) : frames (unmapped f a b) ≤ frames f := by
  refine Finset.sum_le_sum fun v _ => ?_
  rw [unmapped]
  split
  · rw [pageOf_zero]
    exact zero_le
  · exact le_rfl

theorem wp_unmapPage_user {Q : PUnit → Vm → Prop} (h : Space U R pt f s) (hU : Managed k U)
    (hv : v < userVpn)
    (hok : ∀ t, Space U R pt (Function.update f v 0) t →
      Keep (frames (Function.update f v 0) + R) s t →
      tables t.mem 2 pt = tables s.mem 2 pt → Q ⟨⟩ t) :
    wp (unmapPage k pt true (v * pgsize)) Q E s := by
  have hvm := lt_maxVpn_of_user hv
  have hm := h.map v (lt_leafVpn hvm)
  refine wp_unmapPage_free (h.apart hU) hvm (fun a ha => ?_) fun t ht htab => ?_
  · rw [hm] at ha
    have hfr : a ∈ frames f + R :=
      Multiset.mem_add.2 (.inl (Multiset.mem_of_le (pageOf_le_frames hv) ha))
    obtain ⟨h₁, h₂, h₃⟩ := hU.page a (h.mem_of_mem hfr)
    exact ⟨h₁, h₂, h₃, h.disjoint hU hfr⟩
  · rw [hm] at ht
    have ht' := ht.congr (g := Function.update f v 0) fun w hw => by
      by_cases hwv : w = v
      · rw [hwv, Function.update_self, Function.update_self]
      · rw [Function.update_of_ne hwv, Function.update_of_ne hwv, h.map w hw]
    have hup := frames_update (f := f) hv 0
    rw [pageOf_zero, add_zero] at hup
    obtain ⟨hsp, hkeep⟩ := h.remaps R hU ht' (by rw [← hup]; abel)
    exact hok t hsp hkeep htab

/-! ## An empty address space -/

/-- A kernel that ends at `0x80007000`. -/
def emptyKernel : Kernel where
  kend := 0x80007000
  trampoline := 0x80006000
  kend_pos := Nat.zero_lt_succ _
  kend_le := Nat.le_of_ble_eq_true rfl
  trampoline_page := ⟨rfl, Nat.zero_lt_succ _, Nat.le_of_ble_eq_true rfl⟩

/-- A memory with an empty page table at `0x80007000`, and two free pages. -/
def emptyVm : Vm where
  mem := fun _ => .fill 0
  freelist := [0x80008000, 0x80009000]
  fails := fun _ => false
  calls := 0
  refreed := false

/-- Its pages. -/
def emptyPages : Multiset ℕ := {0x80008000, 0x80009000, 0x80007000}

theorem managed_emptyPages : Managed emptyKernel emptyPages := by
  refine ⟨by decide, fun a ha => ?_⟩
  simp only [emptyPages, Multiset.insert_eq_cons, Multiset.mem_cons, Multiset.mem_singleton] at ha
  rcases ha with rfl | rfl | rfl <;> decide

theorem space_emptyVm : Space emptyPages 0 0x80007000 (fun _ => 0) emptyVm := by
  refine ⟨?_, fun v _ => ?_, ptWf_of_zero rfl, rfl⟩
  · rw [tables_of_zero rfl, frames_zero]
    rfl
  · have hl : leaf emptyVm.mem 2 0x80007000 v = 0 := leaf_of_zero rfl
    rw [mapping, hl, pteV_zero]
    rfl

end Xv6
