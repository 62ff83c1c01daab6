import Xv6.Vm.Walk

/-!
# Mapping and unmapping pages

The page table as a map from the numbers of virtual pages to entries (`mapping`), and
the specifications of `mappages` and `uvmunmap` on it. They are stated through one
relation: `Remaps pt f D s t` says that from `s` to `t` the map became `f`, that the
free list and the page table together gained the pages `D`, and that no other page
changed.
-/

namespace Xv6

/-- The number of virtual pages. -/
abbrev maxVpn : ℕ := maxVa / pgsize

/-- The number of leaves of a page table: only the first half of them is used. -/
abbrev leafVpn : ℕ := 512 ^ 3

theorem lt_leafVpn {v : ℕ} (h : v < maxVpn) : v < leafVpn := by
  simp only [maxVpn, leafVpn, maxVa, pgsize] at *
  omega

theorem pgsize_pos : 0 < pgsize := by decide

theorem vpn_mul_lt {v : ℕ} (h : v < maxVpn) : v * pgsize < maxVa := by
  simp only [maxVpn, maxVa, pgsize] at *
  omega

theorem vpn_mul_div (v : ℕ) : v * pgsize / pgsize = v := Nat.mul_div_cancel v pgsize_pos

/-- The entry of a virtual page, or `0` if it is not mapped. -/
def mapping (m : Mem) (pt v : ℕ) : ℕ := if pteV (leaf m 2 pt v) then leaf m 2 pt v else 0

/-- The page that an entry maps. -/
def pageOf (e : ℕ) : Multiset ℕ := if pteV e then {pteAddr e} else 0

variable {E : VmPanic → Vm → Prop} {s t u : Vm} {m m' : Mem} {pt v w e b i : ℕ} {f g : ℕ → ℕ}
  {D D' : Multiset ℕ}

theorem pteV_mapping : pteV (mapping m pt v) = pteV (leaf m 2 pt v) := by
  rw [mapping]
  split
  · rfl
  · rename_i h
    rw [pteV_zero, eq_comm]
    exact Bool.not_eq_true _ ▸ h

theorem mapping_of_valid (h : pteV (leaf m 2 pt v) = true) : mapping m pt v = leaf m 2 pt v :=
  if_pos h

theorem mapping_of_invalid (h : pteV (mapping m pt v) = false) : mapping m pt v = 0 := by
  rw [pteV_mapping] at h
  exact if_neg (by simp [h])

theorem mapping_of_slot_none (h : slot m v 2 pt = none) : mapping m pt v = 0 := by
  rw [mapping, leaf_of_slot_none h, pteV_zero]
  rfl

theorem mapping_of_slot (h : slot m v 2 pt = some (b, i)) :
    mapping m pt v = if pteV (m.pte b i) then m.pte b i else 0 := by
  rw [mapping, leaf_of_slot h]

theorem mapping_lt (m : Mem) (pt v : ℕ) : mapping m pt v < 2 ^ 64 := by
  rw [mapping]
  split
  · exact leaf_lt m 2 pt v
  · omega

theorem mapping_congr (h : leaf m' 2 pt v = leaf m 2 pt v) : mapping m' pt v = mapping m pt v := by
  rw [mapping, mapping, h]

@[simp] theorem pageOf_zero : pageOf 0 = 0 := by simp [pageOf]

theorem pageOf_of_valid (h : pteV e = true) : pageOf e = {pteAddr e} := if_pos h

theorem pageOf_of_invalid (h : pteV e = false) : pageOf e = 0 := if_neg (by simp [h])

/-- The map became `f`, and the free list and the page table gained the pages `D`. -/
structure Remaps (pt : ℕ) (f : ℕ → ℕ) (D : Multiset ℕ) (s t : Vm) : Prop where
  own : (t.freelist : Multiset ℕ) + tables t.mem 2 pt = s.freelist + tables s.mem 2 pt + D
  mapping : ∀ v < leafVpn, mapping t.mem pt v = f v
  wf : PtWf s.mem 2 pt → PtWf t.mem 2 pt
  frame : ∀ b, b ∉ s.freelist → b ∉ tables s.mem 2 pt → b ∉ D → t.mem b = s.mem b
  refreed : t.refreed = s.refreed

theorem Remaps.refl (pt : ℕ) (s : Vm) : Remaps pt (Xv6.mapping s.mem pt) 0 s s :=
  ⟨(add_zero _).symm, fun _ _ => rfl, id, fun _ _ _ _ => rfl, rfl⟩

theorem Remaps.trans (h : Remaps pt f D s t) (h' : Remaps pt g D' t u) :
    Remaps pt g (D + D') s u where
  own := by rw [h'.own, h.own, add_assoc]
  mapping := h'.mapping
  wf hw := h'.wf (h.wf hw)
  frame b hf ht hD := by
    rw [Multiset.mem_add, not_or] at hD
    have hm : b ∉ (t.freelist : Multiset ℕ) + tables t.mem 2 pt := by
      rw [h.own]
      simp only [Multiset.mem_add, Multiset.mem_coe, not_or]
      exact ⟨⟨hf, ht⟩, hD.1⟩
    rw [Multiset.mem_add, Multiset.mem_coe, not_or] at hm
    rw [h'.frame b hm.1 hm.2 hD.2, h.frame b hf ht hD.1]
  refreed := h'.refreed.trans h.refreed

theorem Remaps.congr (h : Remaps pt f D s t) (hfg : ∀ v < leafVpn, f v = g v) :
    Remaps pt g D s t :=
  { h with mapping := fun v hv => (h.mapping v hv).trans (hfg v hv) }

theorem Grows.remaps (h : Grows 2 pt s t) : Remaps pt (Xv6.mapping s.mem pt) 0 s t where
  own := by rw [h.own, add_zero]
  mapping v _ := mapping_congr (h.leaf v)
  wf := h.wf
  frame b hf ht _ := h.frame b hf ht
  refreed := h.refreed

/-- Storing an entry, seen on the map. -/
theorem mapping_setPte (hnd : (tables m 2 pt).Nodup) (hv : v < maxVpn)
    (hs : slot m v 2 pt = some (b, i)) (hw : w < leafVpn) (he : e < 2 ^ 64)
    (hn : pteV e = true ∨ e = 0) :
    mapping (m.setPte b i e) pt w = Function.update (mapping m pt) v e w := by
  have hl := leaf_setPte (w := w) hnd hs he
  by_cases hwv : w = v
  · subst hwv
    rw [if_pos rfl] at hl
    rw [Function.update_self, mapping, hl]
    rcases hn with hn | rfl
    · rw [if_pos hn]
    · simp
  · rw [if_neg (by norm_num [leafVpn, maxVpn, maxVa, pgsize] at *; omega)] at hl
    rw [mapping_congr hl, Function.update_of_ne hwv]

/-- Storing an entry. -/
theorem remaps_setPte (ha : Apart 2 pt s) (hv : v < maxVpn)
    (hs : slot s.mem v 2 pt = some (b, i)) (he : e < 2 ^ 64) (hn : pteV e = true ∨ e = 0) :
    Remaps pt (Function.update (mapping s.mem pt) v e) 0 s
      { s with mem := s.mem.setPte b i e } := by
  have hnd := ha.tables_nodup
  obtain ⟨-, htab, hwf⟩ := setPte_spec (e := e) hnd hs
  refine ⟨by rw [htab, add_zero], fun w hw => mapping_setPte hnd hv hs hw he hn, hwf,
    fun c _ hc _ => Mem.setPte_of_ne ?_, rfl⟩
  rintro rfl
  exact hc (slot_mem hs).1

/-! ## Mapping a page -/

/-- An iteration of `mappages` either maps a page or, if a page of the page table cannot be
    allocated, leaves the map as it was; it panics if the page is mapped. -/
theorem wp_mapFrom_succ {pa perm n : ℕ} {Q : Bool → Vm → Prop} (ha : Apart 2 pt s)
    (hv : v < maxVpn) (hpa : pa < 2 ^ 64) (hperm : perm < 1024)
    (hok : ∀ t, Remaps pt (Function.update (mapping s.mem pt) v (mkPte pa perm)) 0 s t →
      pteV (mapping s.mem pt v) = false →
      wp (mapFrom pt perm n ((v + 1) * pgsize) ((pa + pgsize) % 2 ^ 64)) Q E t)
    (hfail : ∀ t, Remaps pt (mapping s.mem pt) 0 s t → Q false t)
    (hE : ∀ t, t.refreed = s.refreed → pteV (mapping s.mem pt v) = true → E .remap t) :
    wp (mapFrom pt perm (n + 1) (v * pgsize) pa) Q E s := by
  simp only [mapFrom, wp_bind]
  refine (wp_walk_alloc (vpn_mul_lt hv) ha).mono (fun r t ht => ?_) fun _ _ he => he
  obtain ⟨hg, hslot⟩ := ht
  rw [vpn_mul_div] at hslot
  cases r with
  | none => exact hfail t hg.remaps
  | some p =>
    obtain ⟨c, j⟩ := p
    have hs := hslot _ rfl
    have hval : pteV (t.mem.pte c j) = pteV (mapping s.mem pt v) := by
      rw [pteV_mapping, ← hg.leaf v, leaf_of_slot hs]
    simp only [wp_bind, wp_get]
    split
    · rename_i h
      exact hE t hg.refreed (hval ▸ h)
    · rename_i h
      simp only [setPte, wp_bind, wp_modify]
      rw [← Nat.succ_mul]
      have hset := remaps_setPte (hg.apart ha) hv hs (mkPte_lt hpa hperm) (.inl (pteV_mkPte pa perm))
      refine hok _ ?_ (by rw [← hval]; simpa using h)
      refine (hg.remaps.trans hset).congr fun w hw => ?_
      by_cases hwv : w = v
      · rw [hwv, Function.update_self, Function.update_self]
      · rw [Function.update_of_ne hwv, Function.update_of_ne hwv, hg.remaps.mapping w hw]

/-- Mapping one page. -/
theorem wp_mappages {pa perm : ℕ} {Q : Bool → Vm → Prop} (ha : Apart 2 pt s) (hv : v < maxVpn)
    (hpa : pa < 2 ^ 56) (hperm : perm < 1024)
    (hok : ∀ t, Remaps pt (Function.update (mapping s.mem pt) v (mkPte pa perm)) 0 s t →
      pteV (mapping s.mem pt v) = false → Q true t)
    (hfail : ∀ t, Remaps pt (mapping s.mem pt) 0 s t → Q false t)
    (hE : ∀ t, t.refreed = s.refreed → pteV (mapping s.mem pt v) = true → E .remap t) :
    wp (mappages pt (v * pgsize) pgsize pa perm) Q E s := by
  rw [mappages, if_neg (by simp), Nat.div_self pgsize_pos]
  exact wp_mapFrom_succ ha hv (hpa.trans (by norm_num)) hperm hok hfail hE

/-! ## Unmapping a page -/

/-- Unmapping a page does nothing unless the page is mapped. -/
theorem wp_unmapPage {k : Kernel} {doFree : Bool} {Q : PUnit → Vm → Prop} (hv : v < maxVpn)
    (hnone : mapping s.mem pt v = 0 → Q ⟨⟩ s)
    (hsome : ∀ b i, slot s.mem v 2 pt = some (b, i) → mapping s.mem pt v = s.mem.pte b i →
      pteV (s.mem.pte b i) = true →
      wp (if doFree then kfree k (pteAddr (s.mem.pte b i)) else pure ⟨⟩)
        (fun _ t => Q ⟨⟩ { t with mem := t.mem.setPte b i 0 }) E s) :
    wp (unmapPage k pt doFree (v * pgsize)) Q E s := by
  simp only [unmapPage, wp_bind, wp_walk (vpn_mul_lt hv), vpn_mul_div]
  split
  · rename_i hs
    exact hnone (mapping_of_slot_none hs)
  · rename_i c j hs
    simp only [wp_bind, wp_get]
    split
    · rename_i h
      have hmap : mapping s.mem pt v = s.mem.pte c j := by rw [mapping_of_slot hs, if_pos h]
      simp only [setPte, wp_bind, wp_modify]
      exact hsome c j hs hmap h
    · rename_i h
      exact hnone (by rw [mapping_of_slot hs, if_neg h])

theorem wp_unmapPage_keep {k : Kernel} {Q : PUnit → Vm → Prop} (ha : Apart 2 pt s)
    (hv : v < maxVpn)
    (hok : ∀ t, Remaps pt (Function.update (mapping s.mem pt) v 0) 0 s t → Q ⟨⟩ t) :
    wp (unmapPage k pt false (v * pgsize)) Q E s := by
  refine wp_unmapPage hv (fun h => ?_) fun b i hs _ _ => ?_
  · refine hok s ?_
    rw [← h, Function.update_eq_self]
    exact .refl pt s
  · simp only [Bool.false_eq_true, if_false, wp_pure]
    exact hok _ (remaps_setPte ha hv hs (by omega) (.inr rfl))

/-- Unmapping a page and freeing what it is mapped to. -/
theorem wp_unmapPage_free {k : Kernel} {Q : PUnit → Vm → Prop} (ha : Apart 2 pt s)
    (hv : v < maxVpn)
    (hpa : ∀ a ∈ pageOf (mapping s.mem pt v), a % pgsize = 0 ∧ k.kend ≤ a ∧ a < physTop ∧
      a ∉ s.freelist ∧ a ∉ tables s.mem 2 pt)
    (hok : ∀ t, Remaps pt (Function.update (mapping s.mem pt) v 0)
      (pageOf (mapping s.mem pt v)) s t → tables t.mem 2 pt = tables s.mem 2 pt → Q ⟨⟩ t) :
    wp (unmapPage k pt true (v * pgsize)) Q E s := by
  refine wp_unmapPage hv (fun h => ?_) fun b i hs hmap hval => ?_
  · refine hok s ?_ rfl
    rw [h, pageOf_zero, ← h, Function.update_eq_self]
    exact .refl pt s
  · rw [hmap, pageOf_of_valid hval] at hpa hok
    obtain ⟨hal, hk, hp, hf, ht⟩ := hpa _ (Multiset.mem_singleton_self _)
    rw [if_pos rfl]
    refine wp_kfree hal hk hp hf fun u hfl hmem hr => ?_
    -- Freeing the page does not touch the page table.
    have htab : ∀ b ∈ tables s.mem 2 pt, u.mem b = s.mem b := fun b hb =>
      hmem b fun hbp => ht (hbp ▸ hb)
    have hut := tables_congr htab
    have hus : slot u.mem v 2 pt = some (b, i) := (slot_congr htab).trans hs
    have hnd : (tables u.mem 2 pt).Nodup := hut ▸ ha.tables_nodup
    obtain ⟨-, hst, hwf⟩ := setPte_spec (e := 0) hnd hus
    refine hok _ ⟨?_, fun w hw => ?_, fun hw => hwf (ptWf_congr htab hw), fun c hcf hct hcD => ?_,
      hr⟩ (hst.trans hut)
    · rw [hst, hut, hfl, ← Multiset.cons_coe, Multiset.cons_add, ← Multiset.singleton_add, add_comm]
    · rw [mapping_setPte hnd hv hus hw (by omega) (.inr rfl)]
      by_cases hwv : w = v
      · rw [hwv, Function.update_self, Function.update_self]
      · rw [Function.update_of_ne hwv, Function.update_of_ne hwv, mapping_congr (leaf_congr htab)]
    · have hcb : c ≠ b := by
        rintro rfl
        exact hct (slot_mem hs).1
      exact (Mem.setPte_of_ne hcb).trans (hmem c fun h => hcD (Multiset.mem_singleton.2 h))

end Xv6
