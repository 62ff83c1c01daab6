import Xv6.Vm.Space

/-!
# The page table is a map

A page table gives a virtual page, by its number, either nothing or a physical page and
flags (`translate`). The functions of `vm.c` act on this map: `walk` leaves it alone,
also when it creates pages of the page table, `mappages` adds a range of pages to it, or
a first part of the range (`mapRange`), and `uvmunmap` removes a range (`removeRange`).

So the page table refines a map from page numbers to pages and flags
(`page_table_refines_map`). The entry of a page is shared with no other page, which is
why storing it changes one translation only.
-/

namespace Xv6

/-- What a page table gives virtual pages: a physical page and flags, or nothing. -/
abbrev PageMap := ℕ → Option (ℕ × ℕ)

/-- What an entry gives its virtual page. -/
def pteMeaning (e : ℕ) : Option (ℕ × ℕ) := if pteV e then some (pteAddr e, pteFlags e) else none

/-- What the page table gives the virtual page `v`. -/
def translate (m : Mem) (pt : ℕ) : PageMap := fun v => pteMeaning (leaf m 2 pt v)

/-- The map with `n` pages from `v` on mapped to the physical memory from `pa` on. -/
def PageMap.mapRange (f : PageMap) (v n pa perm : ℕ) : PageMap := fun w =>
  if v ≤ w ∧ w < v + n then some ((pa + (w - v) * pgsize) % 2 ^ 64, perm ||| 1) else f w

/-- The map without `n` pages from `v` on. -/
def PageMap.removeRange (f : PageMap) (v n : ℕ) : PageMap := fun w =>
  if v ≤ w ∧ w < v + n then none else f w

/-- A page table is a tree of distinct pages, whose entries above the leaves are pointers.
    The pages of the free list are not among them. -/
structure PageTable (pt : ℕ) (s : Vm) : Prop where
  apart : Apart 2 pt s
  wf : PtWf s.mem 2 pt

variable {k : Kernel} {E : VmPanic → Vm → Prop} {s t : Vm} {pt v w n pa perm va vb : ℕ}
  {f g : ℕ → ℕ} {D : Multiset ℕ} {al al' : Bool}

@[simp] theorem pteMeaning_zero : pteMeaning 0 = none := if_neg (by simp)

theorem pteMeaning_of_invalid {e : ℕ} (h : pteV e = false) : pteMeaning e = none :=
  if_neg (by simp [h])

theorem pteMeaning_mkPte (ha : pa % pgsize = 0) (hlt : pa < 2 ^ 64) (hp : perm < 1024) :
    pteMeaning (mkPte pa perm) = some (pa, perm ||| 1) := by
  rw [pteMeaning, if_pos (pteV_mkPte pa perm), pteAddr_mkPte_of_aligned ha hlt hp,
    pteFlags_mkPte hp]

theorem translate_eq (m : Mem) (pt v : ℕ) : translate m pt v = pteMeaning (mapping m pt v) := by
  rw [translate, mapping]
  split
  · rfl
  · rename_i h
    rw [pteMeaning_of_invalid (by simpa using h), pteMeaning_zero]

theorem translate_eq_none {m : Mem} : translate m pt v = none ↔ pteV (mapping m pt v) = false := by
  rw [translate_eq, pteMeaning]
  split <;> simp_all

theorem Grows.translate (h : Grows 2 pt s t) : translate t.mem pt = translate s.mem pt :=
  funext fun v => congrArg pteMeaning (h.leaf v)

theorem Grows.pageTable (h : Grows 2 pt s t) (ht : PageTable pt s) : PageTable pt t :=
  ⟨h.apart ht.apart, h.wf ht.wf⟩

/-- Remapping that hands out pages, and hands out distinct ones, keeps the page table a
    tree. -/
theorem Remaps.pageTable (h : Remaps pt f D s t) (ht : PageTable pt s)
    (hnd : ((s.freelist : Multiset ℕ) + tables s.mem 2 pt + D).Nodup) (hD : ∀ b ∈ D, PageAddr b) :
    PageTable pt t := by
  refine ⟨⟨by rw [h.own]; exact hnd, fun b hb => ?_⟩, h.wf ht.wf⟩
  rw [h.own, Multiset.mem_add] at hb
  exact hb.elim (ht.apart.page b) (hD b)

theorem Remaps.pageTable_zero (h : Remaps pt f 0 s t) (ht : PageTable pt s) : PageTable pt t :=
  h.pageTable ht (by rw [add_zero]; exact ht.apart.nodup) fun b hb => by simp at hb

/-! ## Looking entries up -/

/-- Whether or not pages may be created, the page table at most grows, and what is found is
    the entry. -/
theorem wp_walk_any (hva : va < maxVa) (ht : PageTable pt s) :
    wp (walk pt va al) (fun r t => Grows 2 pt s t ∧
      ∀ p, r = some p → slot t.mem (va / pgsize) 2 pt = some p) E s := by
  cases al with
  | true => exact wp_walk_alloc hva ht.apart
  | false => exact (wp_walk hva).2 ⟨.refl 2 pt s, fun _ hp => hp⟩

/-- Two addresses have the same entry if and only if they are in the same page. -/
theorem wp_walk_same (hva : va < maxVa) (hvb : vb < maxVa) (ht : PageTable pt s) :
    wp (walk pt va al) (fun r t => ∀ p, r = some p →
      wp (walk pt vb al') (fun r' _ => r' = some p ↔ vb / pgsize = va / pgsize) E t) E s := by
  refine (wp_walk_any hva ht).mono (fun r t hr p hp => ?_) fun _ _ he => he
  obtain ⟨hg, hs⟩ := hr
  have hta := hg.pageTable ht
  by_cases heq : vb / pgsize = va / pgsize
  · have hsb := hs p hp
    rw [← heq] at hsb
    rw [wp, walk_of_slot hvb hsb]
    exact iff_of_true rfl heq
  · refine (wp_walk_any hvb hta).mono (fun r' u hr' => iff_of_false (fun hp' => heq ?_) heq)
      fun _ _ he => he
    obtain ⟨hg', hs'⟩ := hr'
    -- The entry of `va` is still there.
    have hsa := hg'.slots _ p (hs p hp)
    have hmod := slot_inj (hg'.pageTable hta).apart.tables_nodup (hs' p hp') hsa
    norm_num [maxVa, pgsize] at hva hvb hmod ⊢
    omega

/-! ## Mapping a range -/

/-- The first `k` pages of a range are mapped. -/
def mapped (f : ℕ → ℕ) (v k pa perm w : ℕ) : ℕ :=
  if v ≤ w ∧ w < v + k then mkPte ((pa + (w - v) * pgsize) % 2 ^ 64) perm else f w

theorem mapped_zero (f : ℕ → ℕ) (v pa perm : ℕ) : mapped f v 0 pa perm = f :=
  funext fun w => if_neg (by omega)

/-- Mapping a page, and then the pages after it. -/
theorem mapped_succ (f : ℕ → ℕ) (hpa : pa < 2 ^ 64) (k : ℕ) :
    mapped (Function.update f v (mkPte pa perm)) (v + 1) k ((pa + pgsize) % 2 ^ 64) perm =
      mapped f v (k + 1) pa perm := by
  funext w
  rw [mapped, mapped]
  by_cases hwv : w = v
  · subst hwv
    rw [if_neg (by omega), if_pos (by omega), Function.update_self, Nat.sub_self, Nat.zero_mul,
      Nat.add_zero, Nat.mod_eq_of_lt hpa]
  · rw [Function.update_of_ne hwv]
    by_cases h : v ≤ w ∧ w < v + (k + 1)
    · rw [if_pos (by omega), if_pos h, Nat.mod_add_mod, Nat.add_assoc, Nat.add_comm pgsize, ← Nat.succ_mul,
        show (w - (v + 1)).succ = w - v by omega]
    · rw [if_neg (by omega), if_neg h]

theorem pteMeaning_mapped (ha : pa % pgsize = 0) (hp : perm < 1024) (f : ℕ → ℕ) (v k w : ℕ) :
    pteMeaning (mapped f v k pa perm w) =
      PageMap.mapRange (fun w => pteMeaning (f w)) v k pa perm w := by
  rw [mapped, PageMap.mapRange]
  split
  · refine pteMeaning_mkPte ?_ (Nat.mod_lt _ (by omega)) hp
    simp only [pgsize] at ha ⊢
    omega
  · rfl

/-- The loop of `mappages` maps the range, or a first part of it. It stops early at a page
    that is mapped, with a panic, and when a page of the page table cannot be allocated. -/
theorem wp_mapFrom (ha : Apart 2 pt s) (hv : v + n ≤ maxVpn) (hpa : pa < 2 ^ 64)
    (hperm : perm < 1024) :
    wp (mapFrom pt perm n (v * pgsize) pa)
      (fun r t => ∃ k ≤ n, (r = true ↔ k = n) ∧
        (∀ w, v ≤ w → w < v + k → pteV (mapping s.mem pt w) = false) ∧
        Remaps pt (mapped (mapping s.mem pt) v k pa perm) 0 s t)
      (fun e _ => e = .remap ∧ ∃ w, v ≤ w ∧ w < v + n ∧ pteV (mapping s.mem pt w) = true) s := by
  induction n generalizing v pa s with
  | zero =>
    refine ⟨0, le_rfl, by simp, fun w h₁ h₂ => by omega, ?_⟩
    rw [mapped_zero]
    exact .refl pt s
  | succ n ih =>
    refine wp_mapFrom_succ ha (by omega) hpa hperm (fun t ht hval => ?_) (fun t ht => ?_)
      fun t _ hval => ⟨rfl, v, le_rfl, by omega, hval⟩
    · have hta : Apart 2 pt t := by
        constructor <;> rw [ht.own, add_zero]
        · exact ha.nodup
        · exact ha.page
      have hmap : ∀ w, v + 1 ≤ w → w < leafVpn → mapping t.mem pt w = mapping s.mem pt w := by
        intro w hw hwl
        rw [ht.mapping w hwl, Function.update_of_ne (by omega)]
      have hleaf : v + (n + 1) ≤ leafVpn := hv.trans (by norm_num [maxVpn, leafVpn, maxVa, pgsize])
      refine (ih hta (by omega) (Nat.mod_lt _ (by omega))).mono (fun r u hr => ?_) fun e u he => ?_
      · obtain ⟨k, hk, hrk, hun, hm⟩ := hr
        refine ⟨k + 1, by omega, by rw [hrk]; omega, fun w h₁ h₂ => ?_, ?_⟩
        · by_cases hwv : w = v
          · rw [hwv, hval]
          · rw [← hmap w (by omega) (by omega)]
            exact hun w (by omega) (by omega)
        · refine (ht.trans hm).congr fun w hw => ?_
          rw [← mapped_succ _ hpa, mapped, mapped]
          split
          · rfl
          · exact ht.mapping w hw
      · obtain ⟨he, w, h₁, h₂, hval⟩ := he
        refine ⟨he, w, by omega, by omega, ?_⟩
        rwa [← hmap w h₁ (by omega)]
    · refine ⟨0, by omega, by simp, fun w h₁ h₂ => by omega, ?_⟩
      rw [mapped_zero]
      exact ht

/-! ## Removing a range -/

/-- The pages that a range of virtual pages is mapped to. -/
def rangePages (m : Mem) (pt v n : ℕ) : Multiset ℕ :=
  ∑ i ∈ Finset.range n, pageOf (mapping m pt (v + i))

/-- The pages of a range can be given to the allocator: they are pages of it that are in use,
    each of them once. -/
structure RangeOwned (k : Kernel) (pt v n : ℕ) (s : Vm) : Prop where
  nodup : ((s.freelist : Multiset ℕ) + tables s.mem 2 pt + rangePages s.mem pt v n).Nodup
  page : ∀ a ∈ rangePages s.mem pt v n, a % pgsize = 0 ∧ k.kend ≤ a ∧ a < physTop

theorem rangePages_succ (m : Mem) (pt v n : ℕ) :
    rangePages m pt v (n + 1) = rangePages m pt v n + pageOf (mapping m pt (v + n)) :=
  Finset.sum_range_succ _ n

theorem rangePages_mono {m : Mem} {i n : ℕ} (h : i ≤ n) :
    rangePages m pt v i ≤ rangePages m pt v n :=
  Finset.sum_le_sum_of_subset (Finset.range_mono h)

theorem RangeOwned.pageAddr (h : RangeOwned k pt v n s) {a : ℕ} (ha : a ∈ rangePages s.mem pt v n) :
    PageAddr a := by
  obtain ⟨hal, hk, hp⟩ := h.page a ha
  exact ⟨hal, Nat.lt_of_lt_of_le k.kend_pos hk, hp.trans (by norm_num)⟩

theorem pteMeaning_unmapped (f : ℕ → ℕ) (v n w : ℕ) :
    pteMeaning (unmapped f v (v + n) w) =
      PageMap.removeRange (fun w => pteMeaning (f w)) v n w := by
  rw [unmapped, PageMap.removeRange]
  split
  · exact pteMeaning_zero
  · rfl

/-- The pages that `uvmunmap` frees. -/
def freedPages (m : Mem) (pt v n : ℕ) (doFree : Bool) : Multiset ℕ :=
  if doFree then rangePages m pt v n else 0

/-- Unmapping one more page. -/
theorem wp_unmapPage_next {doFree : Bool} {i : ℕ} {Q : PUnit → Vm → Prop}
    (ht : PageTable pt s) (hv : v + n ≤ maxVpn) (hfree : doFree = true → RangeOwned k pt v n s)
    (hi : i < n)
    (hr : Remaps pt (unmapped (mapping s.mem pt) v (v + i)) (freedPages s.mem pt v i doFree) s t)
    (hok : ∀ u, Remaps pt (unmapped (mapping s.mem pt) v (v + (i + 1)))
      (freedPages s.mem pt v (i + 1) doFree) s u → Q ⟨⟩ u) :
    wp (unmapPage k pt doFree ((v + i) * pgsize)) Q E t := by
  have hvi : v + i < maxVpn := by omega
  have hmap : mapping t.mem pt (v + i) = mapping s.mem pt (v + i) := by
    rw [hr.mapping _ (lt_leafVpn hvi), unmapped, if_neg (by omega)]
  have hnext : ∀ D u, Remaps pt (Function.update (mapping t.mem pt) (v + i) 0) D t u →
      Remaps pt (unmapped (mapping s.mem pt) v (v + (i + 1)))
        (freedPages s.mem pt v i doFree + D) s u := by
    intro D u hu
    refine (hr.trans hu).congr fun w hw => ?_
    rw [← Nat.add_assoc, unmapped_succ _ (by omega : v ≤ v + i)]
    by_cases hwv : w = v + i
    · rw [hwv, Function.update_self, Function.update_self]
    · rw [Function.update_of_ne hwv, Function.update_of_ne hwv, hr.mapping w hw]
  cases doFree with
  | false =>
    refine wp_unmapPage_keep (hr.pageTable_zero ht).apart hvi fun u hu => hok u ?_
    have h := hnext 0 u hu
    rwa [add_zero] at h
  | true =>
    have ho := hfree rfl
    have hle : rangePages s.mem pt v i + pageOf (mapping s.mem pt (v + i)) ≤
        rangePages s.mem pt v n := rangePages_succ s.mem pt v i ▸ rangePages_mono (by omega)
    have hnd : ((t.freelist : Multiset ℕ) + tables t.mem 2 pt +
        pageOf (mapping s.mem pt (v + i))).Nodup := by
      rw [hr.own, add_assoc]
      exact Multiset.nodup_of_le (add_le_add_right hle _) ho.nodup
    have hta := hr.pageTable ht (Multiset.nodup_of_le (by
      rw [← hr.own]
      exact Multiset.le_add_right _ _) hnd) fun b hb =>
        ho.pageAddr (Multiset.mem_of_le (rangePages_mono hi.le) hb)
    refine wp_unmapPage_free hta.apart hvi (fun a ha => ?_) fun u hu _ => hok u ?_
    · rw [hmap] at ha
      obtain ⟨hal, hk, hp⟩ := ho.page a (Multiset.mem_of_le hle (Multiset.mem_add.2 (.inr ha)))
      have hd := Multiset.disjoint_right.1 (Multiset.nodup_add.1 hnd).2.2 ha
      rw [Multiset.mem_add, not_or] at hd
      exact ⟨hal, hk, hp, hd.1, hd.2⟩
    · rw [hmap] at hu
      have h := hnext _ u hu
      rwa [freedPages, if_pos rfl, ← rangePages_succ] at h

/-- `uvmunmap` removes the range from the map; the pages it was mapped to go to the free list,
    if they are to be freed. -/
theorem wp_uvmunmap_range {doFree : Bool} (ht : PageTable pt s) (hv : v + n ≤ maxVpn)
    (hfree : doFree = true → RangeOwned k pt v n s) :
    wp (uvmunmap k pt (v * pgsize) n doFree)
      (fun _ t => Remaps pt (unmapped (mapping s.mem pt) v (v + n))
        (freedPages s.mem pt v n doFree) s t) E s := by
  have hstop : ((v * pgsize + n * pgsize) % 2 ^ 64 - v * pgsize) / pgsize = n := by
    simp only [maxVpn, maxVa, pgsize] at *
    omega
  rw [uvmunmap, if_neg (by simp)]
  simp only [hstop]
  simp only [← Nat.add_mul]
  have h0 : Remaps pt (unmapped (mapping s.mem pt) v (v + 0))
      (freedPages s.mem pt v 0 doFree) s s := by
    have hz : freedPages s.mem pt v 0 doFree = 0 := by
      rw [freedPages]
      split <;> rfl
    rw [hz]
    exact (Remaps.refl pt s).congr fun w _ => by rw [unmapped, if_neg (by omega)]
  refine (wp_forRange (E := E) (a := 0) (k := n) (fun i t =>
    Remaps pt (unmapped (mapping s.mem pt) v (v + i)) (freedPages s.mem pt v i doFree) s t)
    h0 fun i t _ hi hr => ?_).mono (fun _ t hr => ?_) fun _ _ he => he
  · exact wp_unmapPage_next ht hv hfree (by omega) hr fun u hu => hu
  · rwa [zero_add] at hr

/-! ## The refinement -/

theorem vpn_of_aligned {a : ℕ} (h : a % pgsize = 0) : a = a / pgsize * pgsize :=
  (Nat.div_mul_cancel (Nat.dvd_of_mod_eq_zero h)).symm

/-- What a page table maps, after the map became another. -/
theorem Remaps.translate_eq (h : Remaps pt g D s t) (hw : w < maxVpn) :
    translate t.mem pt w = pteMeaning (g w) := by
  rw [Xv6.translate_eq, h.mapping w (lt_leafVpn hw)]

/-- `mappages`, seen on the map: it adds the range, or the first `n` pages of it. -/
theorem wp_mappages_range {size : ℕ} (ht : PageTable pt s) (hva : va % pgsize = 0)
    (hsz : size % pgsize = 0) (hpos : 0 < size) (hle : va + size ≤ maxVa)
    (ha : pa % pgsize = 0) (hpa : pa < 2 ^ 64) (hperm : perm < 1024) :
    wp (mappages pt va size pa perm)
      (fun r t => PageTable pt t ∧ ∃ n ≤ size / pgsize, (r = true ↔ n = size / pgsize) ∧
        (∀ w, va / pgsize ≤ w → w < va / pgsize + n → translate s.mem pt w = none) ∧
        ∀ w < maxVpn, translate t.mem pt w =
          (translate s.mem pt).mapRange (va / pgsize) n pa perm w)
      (fun e _ => e = .remap ∧ ∃ w, va / pgsize ≤ w ∧ w < va / pgsize + size / pgsize ∧
        translate s.mem pt w ≠ none) s := by
  have hn : va / pgsize + size / pgsize ≤ maxVpn := by
    simp only [maxVpn, maxVa, pgsize] at *
    omega
  rw [mappages, if_neg (by omega)]
  nth_rewrite 1 [vpn_of_aligned hva]
  refine (wp_mapFrom ht.apart hn hpa hperm).mono (fun r t hr => ?_) fun e t he => ?_
  · obtain ⟨n, hle, hrn, hun, hm⟩ := hr
    refine ⟨hm.pageTable_zero ht, n, hle, hrn, fun w h₁ h₂ => translate_eq_none.2 (hun w h₁ h₂),
      fun w hw => ?_⟩
    rw [hm.translate_eq hw, pteMeaning_mapped ha hperm]
    simp only [PageMap.mapRange, translate_eq]
  · obtain ⟨he, w, h₁, h₂, hval⟩ := he
    refine ⟨he, w, h₁, h₂, fun h => ?_⟩
    rw [translate_eq_none, hval] at h
    cases h

/-- The page table refines a map from virtual pages to physical pages and flags. `walk` gives
    two addresses the same entry if and only if they are in the same page, and changes no
    translation; `mappages` adds the range to the map and, where it fails, a first part of it,
    while it panics at a page that is mapped; `uvmunmap` removes the range. -/
theorem page_table_refines_map {k : Kernel} {s : Vm} {pt : ℕ} (ht : PageTable pt s) :
    (∀ va vb al al', va < maxVa → vb < maxVa →
      wp (walk pt va al) (fun r t => ∀ p, r = some p →
        wp (walk pt vb al') (fun r' _ => r' = some p ↔ vb / pgsize = va / pgsize)
          (fun _ _ => False) t) (fun _ _ => False) s) ∧
    (∀ va al, va < maxVa →
      wp (walk pt va al) (fun _ t => PageTable pt t ∧
        ∀ v, translate t.mem pt v = translate s.mem pt v) (fun _ _ => False) s) ∧
    (∀ va size pa perm, va % pgsize = 0 → size % pgsize = 0 → 0 < size → va + size ≤ maxVa →
      pa % pgsize = 0 → pa < 2 ^ 64 → perm < 1024 →
      wp (mappages pt va size pa perm)
        (fun r t => PageTable pt t ∧ ∃ n ≤ size / pgsize, (r = true ↔ n = size / pgsize) ∧
          (∀ w, va / pgsize ≤ w → w < va / pgsize + n → translate s.mem pt w = none) ∧
          ∀ w < maxVpn, translate t.mem pt w =
            (translate s.mem pt).mapRange (va / pgsize) n pa perm w)
        (fun e _ => e = .remap ∧ ∃ w, va / pgsize ≤ w ∧ w < va / pgsize + size / pgsize ∧
          translate s.mem pt w ≠ none) s) ∧
    ∀ va n doFree, va % pgsize = 0 → va + n * pgsize ≤ maxVa →
      (doFree = true → RangeOwned k pt (va / pgsize) n s) →
      wp (uvmunmap k pt va n doFree) (fun _ t => PageTable pt t ∧
        ∀ w < maxVpn, translate t.mem pt w =
          (translate s.mem pt).removeRange (va / pgsize) n w) (fun _ _ => False) s := by
  refine ⟨fun va vb al al' hva hvb => wp_walk_same hva hvb ht, fun va al hva => ?_,
    fun va size pa perm hva hsz hpos hle ha hpa hperm =>
      wp_mappages_range ht hva hsz hpos hle ha hpa hperm, fun va n doFree hva hle hfree => ?_⟩
  · refine (wp_walk_any hva ht).mono (fun r t hr => ?_) fun _ _ he => he
    exact ⟨hr.1.pageTable ht, fun v => by rw [hr.1.translate]⟩
  · have hn : va / pgsize + n ≤ maxVpn := by
      simp only [maxVpn, maxVa, pgsize] at *
      omega
    nth_rewrite 1 [vpn_of_aligned hva]
    refine (wp_uvmunmap_range ht hn hfree).mono (fun _ t hr => ⟨?_, fun w hw => ?_⟩)
      fun _ _ he => he
    · cases doFree with
      | false => exact hr.pageTable_zero ht
      | true =>
        exact hr.pageTable ht (hfree rfl).nodup fun b hb => (hfree rfl).pageAddr hb
    · rw [hr.translate_eq hw, pteMeaning_unmapped]
      simp only [PageMap.removeRange, translate_eq]

theorem pageTable_emptyVm : PageTable 0x80007000 emptyVm :=
  ⟨space_emptyVm.apart managed_emptyPages, space_emptyVm.wf⟩

/-- Mapping two pages above one another, from the empty page table on. -/
theorem page_table_refines_map_emptyVm :
    wp (mappages 0x80007000 0x1000 0x2000 0x80100000 permR)
      (fun r t => PageTable 0x80007000 t ∧ ∃ n ≤ 0x2000 / pgsize,
        (r = true ↔ n = 0x2000 / pgsize) ∧
        (∀ w, 0x1000 / pgsize ≤ w → w < 0x1000 / pgsize + n →
          translate emptyVm.mem 0x80007000 w = none) ∧
        ∀ w < maxVpn, translate t.mem 0x80007000 w =
          (translate emptyVm.mem 0x80007000).mapRange (0x1000 / pgsize) n 0x80100000 permR w)
      (fun e _ => e = .remap ∧ ∃ w, 0x1000 / pgsize ≤ w ∧
        w < 0x1000 / pgsize + 0x2000 / pgsize ∧ translate emptyVm.mem 0x80007000 w ≠ none)
      emptyVm :=
  (page_table_refines_map (k := emptyKernel) pageTable_emptyVm).2.2.1 0x1000 0x2000 0x80100000 permR rfl rfl
    (by decide) (by decide) rfl (by decide) (by decide)

end Xv6
