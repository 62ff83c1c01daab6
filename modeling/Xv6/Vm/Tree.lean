import Xv6.Vm.Basic

/-!
# Page tables as trees

What the memory holds at a page table. From the page `a` of level `l`, `slot` is the
entry of a virtual page, `leaf` what that entry holds, and `tables` the pages of the
page table, as a multiset. Virtual pages are given by their numbers.

If no page occurs twice in `tables`, the entries do not interfere: storing an entry at
level `0` changes one leaf and no page of the page table (`leaf_setPte`,
`tables_setPte`), and attaching an empty page at a higher level adds that page and
changes no leaf (`tables_attach`, `leaf_attach`). What lies outside `tables` does not
matter (`tables_congr`, `leaf_congr`).
-/

namespace Xv6

/-- The index of a virtual page in a page of the page table at a level. -/
def vpx (level v : ℕ) : ℕ := v / 512 ^ level % 512

theorem vpx_lt (level v : ℕ) : vpx level v < 512 := Nat.mod_lt _ (by omega)

/-- The index that the code computes. -/
theorem px_eq (level va : ℕ) : px level va = vpx level (va / pgsize) := by
  rw [px, vpx, Nat.shiftRight_eq_div_pow, Nat.div_div_eq_div_mul, pow_add, pow_mul]
  norm_num

/-- The indices of the entries of a page of a page table. -/
@[irreducible] def entries : Finset ℕ := Finset.range 512

theorem mem_entries {i : ℕ} : i ∈ entries ↔ i < 512 := by
  rw [entries]
  exact Finset.mem_range

/-- The entry of the page `v`, from the page `a` of a level on. -/
def slot (m : Mem) (v : ℕ) : ℕ → ℕ → Option (ℕ × ℕ)
  | 0, a => some (a, vpx 0 v)
  | l + 1, a =>
    if pteV (m.pte a (vpx (l + 1) v)) then slot m v l (pteAddr (m.pte a (vpx (l + 1) v)))
    else none

/-- What the entry of the page `v` holds. -/
def leaf (m : Mem) (l a v : ℕ) : ℕ :=
  match slot m v l a with
  | none => 0
  | some (b, i) => m.pte b i

/-- The pages of the page table from the page `a` of a level on. -/
def tables (m : Mem) : ℕ → ℕ → Multiset ℕ
  | 0, a => {a}
  | l + 1, a => a ::ₘ ∑ i ∈ entries,
      if pteV (m.pte a i) then tables m l (pteAddr (m.pte a i)) else 0

/-- The pages below the entry `i` of the page `a` of level `l + 1`. -/
def subtables (m : Mem) (l a i : ℕ) : Multiset ℕ :=
  if pteV (m.pte a i) then tables m l (pteAddr (m.pte a i)) else 0

/-- Above level `0`, valid entries point to pages of the page table. -/
def PtWf (m : Mem) : ℕ → ℕ → Prop
  | 0, _ => True
  | l + 1, a => ∀ i < 512, pteV (m.pte a i) = true →
      pteLeaf (m.pte a i) = false ∧ PtWf m l (pteAddr (m.pte a i))

section

variable {m m' : Mem} {l a b c i j v w e : ℕ} {X Y : Multiset ℕ}

theorem tables_succ (m : Mem) (l a : ℕ) :
    tables m (l + 1) a = a ::ₘ ∑ i ∈ entries, subtables m l a i := rfl

theorem subtables_of_valid (h : pteV (m.pte a i) = true) :
    subtables m l a i = tables m l (pteAddr (m.pte a i)) := if_pos h

theorem subtables_of_invalid (h : pteV (m.pte a i) = false) : subtables m l a i = 0 :=
  if_neg (by simp [h])

theorem slot_of_valid (h : pteV (m.pte a (vpx (l + 1) v)) = true) :
    slot m v (l + 1) a = slot m v l (pteAddr (m.pte a (vpx (l + 1) v))) := if_pos h

theorem slot_of_invalid (h : pteV (m.pte a (vpx (l + 1) v)) = false) :
    slot m v (l + 1) a = none := if_neg (by simp [h])

theorem leaf_of_valid (h : pteV (m.pte a (vpx (l + 1) v)) = true) :
    leaf m (l + 1) a v = leaf m l (pteAddr (m.pte a (vpx (l + 1) v))) v := by
  rw [leaf, slot_of_valid h, leaf]

theorem leaf_of_invalid (h : pteV (m.pte a (vpx (l + 1) v)) = false) :
    leaf m (l + 1) a v = 0 := by
  rw [leaf, slot_of_invalid h]

theorem leaf_of_slot (h : slot m v l a = some (b, i)) : leaf m l a v = m.pte b i := by
  rw [leaf, h]

theorem leaf_of_slot_none (h : slot m v l a = none) : leaf m l a v = 0 := by rw [leaf, h]

theorem leaf_lt (m : Mem) (l a v : ℕ) : leaf m l a v < 2 ^ 64 := by
  rw [leaf]
  split
  · omega
  · exact Mem.pte_lt m _ _

theorem mem_tables_self (m : Mem) (l a : ℕ) : a ∈ tables m l a := by
  cases l with
  | zero => exact Multiset.mem_singleton_self a
  | succ l => exact Multiset.mem_cons_self a _

theorem subtables_le (hi : i < 512) : subtables m l a i ≤ tables m (l + 1) a := by
  rw [tables_succ]
  refine le_trans ?_ (Multiset.le_cons_self _ a)
  exact Finset.single_le_sum (f := subtables m l a) (fun _ _ => zero_le) (mem_entries.2 hi)

/-- The page table, apart from what is below one entry. -/
theorem tables_eq_add (hi : i < 512) :
    tables m (l + 1) a =
      subtables m l a i + a ::ₘ ∑ j ∈ entries.erase i, subtables m l a j := by
  rw [tables_succ, ← Finset.add_sum_erase _ _ (mem_entries.2 hi), Multiset.add_cons]

/-- The entry of a page is in a page of the page table. -/
theorem slot_mem (h : slot m v l a = some (b, i)) : b ∈ tables m l a ∧ i < 512 := by
  induction l generalizing a with
  | zero =>
    cases h
    exact ⟨mem_tables_self m 0 _, vpx_lt 0 v⟩
  | succ l ih =>
    cases hv : pteV (m.pte a (vpx (l + 1) v)) with
    | false =>
      rw [slot_of_invalid hv] at h
      cases h
    | true =>
      rw [slot_of_valid hv] at h
      obtain ⟨hb, hi⟩ := ih h
      refine ⟨Multiset.mem_of_le (subtables_le (vpx_lt (l + 1) v)) ?_, hi⟩
      rwa [subtables_of_valid hv]

/-! ## Frame -/

theorem tables_congr (h : ∀ b ∈ tables m l a, m' b = m b) : tables m' l a = tables m l a := by
  induction l generalizing a with
  | zero => rfl
  | succ l ih =>
    have ha := h a (mem_tables_self m _ a)
    rw [tables_succ, tables_succ]
    refine congrArg _ (Finset.sum_congr rfl fun i hi => ?_)
    rw [subtables, subtables, Mem.pte_congr ha]
    split
    · rename_i hv
      refine ih fun b hb => h b (Multiset.mem_of_le (subtables_le (mem_entries.1 hi)) ?_)
      rwa [subtables_of_valid hv]
    · rfl

theorem subtables_congr (ha : m' a = m a) (h : ∀ b ∈ subtables m l a i, m' b = m b) :
    subtables m' l a i = subtables m l a i := by
  rw [subtables, subtables, Mem.pte_congr ha]
  split
  · rename_i hv
    exact tables_congr fun b hb => h b (by rwa [subtables_of_valid hv])
  · rfl

theorem slot_congr (h : ∀ b ∈ tables m l a, m' b = m b) : slot m' v l a = slot m v l a := by
  induction l generalizing a with
  | zero => rfl
  | succ l ih =>
    rw [slot, slot, Mem.pte_congr (h a (mem_tables_self m _ a))]
    split
    · rename_i hv
      refine ih fun b hb => h b (Multiset.mem_of_le (subtables_le (vpx_lt (l + 1) v)) ?_)
      rwa [subtables_of_valid hv]
    · rfl

theorem leaf_congr (h : ∀ b ∈ tables m l a, m' b = m b) : leaf m' l a v = leaf m l a v := by
  rw [leaf, leaf, slot_congr h]
  split
  · rfl
  · rename_i b i hs
    exact Mem.pte_congr (h b (slot_mem hs).1) i

theorem ptWf_congr (h : ∀ b ∈ tables m l a, m' b = m b) (hwf : PtWf m l a) : PtWf m' l a := by
  induction l generalizing a with
  | zero => trivial
  | succ l ih =>
    intro i hi hv
    rw [Mem.pte_congr (h a (mem_tables_self m _ a))] at hv ⊢
    refine ⟨(hwf i hi hv).1, ih (fun b hb => h b ?_) (hwf i hi hv).2⟩
    refine Multiset.mem_of_le (subtables_le hi) ?_
    rwa [subtables_of_valid hv]

/-! ## Entries do not interfere -/

/-- The page `a`, and what is below its other entries, are apart from what is below its
    entry `i`. -/
theorem not_mem_subtables (hnd : (tables m (l + 1) a).Nodup) (hi : i < 512) :
    a ∉ subtables m l a i ∧
      ∀ j < 512, j ≠ i → ∀ b ∈ subtables m l a j, b ∉ subtables m l a i := by
  rw [tables_eq_add hi, Multiset.nodup_add] at hnd
  have hd : ∀ {b}, b ∈ _ → b ∉ subtables m l a i := Multiset.disjoint_right.1 hnd.2.2
  refine ⟨hd (Multiset.mem_cons_self a _), fun j hj hne b hb => hd ?_⟩
  refine Multiset.mem_cons_of_mem (Multiset.mem_sum.2 ⟨j, ?_, hb⟩)
  exact Finset.mem_erase.2 ⟨hne, mem_entries.2 hj⟩

theorem nodup_subtables (hnd : (tables m (l + 1) a).Nodup) (hi : i < 512) :
    (subtables m l a i).Nodup := Multiset.nodup_of_le (subtables_le hi) hnd

/-- The memory changed below the entry `i` of `a` only, or outside the page table. -/
structure SameBut (m m' : Mem) (l a i : ℕ) : Prop where
  self : m' a = m a
  others : ∀ j < 512, j ≠ i → ∀ b ∈ subtables m l a j, m' b = m b

/-- Such a change adds to the page table what it adds below the entry. -/
theorem SameBut.tables_add (h : SameBut m m' l a i) (hi : i < 512)
    (hsub : X + subtables m' l a i = Y + subtables m l a i) :
    X + tables m' (l + 1) a = Y + tables m (l + 1) a := by
  have hs : ∑ j ∈ entries.erase i, subtables m' l a j =
      ∑ j ∈ entries.erase i, subtables m l a j := by
    refine Finset.sum_congr rfl fun j hj => ?_
    obtain ⟨hne, hj⟩ := Finset.mem_erase.1 hj
    exact subtables_congr h.self (h.others j (mem_entries.1 hj) hne)
  rw [tables_eq_add hi, tables_eq_add hi, hs, ← add_assoc, hsub, add_assoc]

/-- Entries are where they were, if they are below the entry. -/
theorem SameBut.slot_eq (h : SameBut m m' l a i)
    (hsub : pteV (m.pte a i) = true →
      slot m' v l (pteAddr (m.pte a i)) = slot m v l (pteAddr (m.pte a i))) :
    slot m' v (l + 1) a = slot m v (l + 1) a := by
  rw [slot, slot, Mem.pte_congr h.self]
  split
  · rename_i hv
    by_cases hj : vpx (l + 1) v = i
    · rw [hj] at hv ⊢
      exact hsub hv
    · refine slot_congr fun b hb => h.others _ (vpx_lt (l + 1) v) hj b ?_
      rwa [subtables_of_valid hv]
  · rfl

/-- Or they are where they were if they were anywhere. -/
theorem SameBut.slot_some {p : ℕ × ℕ} (h : SameBut m m' l a i)
    (hsub : pteV (m.pte a i) = true → slot m v l (pteAddr (m.pte a i)) = some p →
      slot m' v l (pteAddr (m.pte a i)) = some p)
    (hs : slot m v (l + 1) a = some p) : slot m' v (l + 1) a = some p := by
  rw [slot] at hs ⊢
  rw [Mem.pte_congr h.self]
  split at hs
  · rename_i hv
    rw [if_pos hv]
    by_cases hj : vpx (l + 1) v = i
    · rw [hj] at hv hs ⊢
      exact hsub hv hs
    · rw [slot_congr fun b hb => h.others _ (vpx_lt (l + 1) v) hj b ?_]
      · exact hs
      · rwa [subtables_of_valid hv]
  · cases hs

/-- And leaves hold what they held. -/
theorem SameBut.leaf_eq (h : SameBut m m' l a i)
    (hsub : pteV (m.pte a i) = true →
      leaf m' l (pteAddr (m.pte a i)) v = leaf m l (pteAddr (m.pte a i)) v) :
    leaf m' (l + 1) a v = leaf m (l + 1) a v := by
  cases hv : pteV (m.pte a (vpx (l + 1) v)) with
  | false => rw [leaf_of_invalid hv, leaf_of_invalid (by rwa [Mem.pte_congr h.self])]
  | true =>
    rw [leaf_of_valid hv, leaf_of_valid (by rwa [Mem.pte_congr h.self]), Mem.pte_congr h.self]
    by_cases hj : vpx (l + 1) v = i
    · rw [hj] at hv ⊢
      exact hsub hv
    · refine leaf_congr fun b hb => h.others _ (vpx_lt (l + 1) v) hj b ?_
      rwa [subtables_of_valid hv]

theorem SameBut.ptWf (h : SameBut m m' l a i) (hwf : PtWf m (l + 1) a)
    (hsub : pteV (m.pte a i) = true → PtWf m' l (pteAddr (m.pte a i))) : PtWf m' (l + 1) a := by
  intro j hj hv
  rw [Mem.pte_congr h.self] at hv ⊢
  refine ⟨(hwf j hj hv).1, ?_⟩
  by_cases hji : j = i
  · rw [hji] at hv ⊢
    exact hsub hv
  · refine ptWf_congr (fun b hb => h.others j hj hji b ?_) (hwf j hj hv).2
    rwa [subtables_of_valid hv]

/-- Storing an entry of a page below the entry `i` of `a`. -/
theorem sameBut_setPte (hnd : (tables m (l + 1) a).Nodup) (hi : i < 512)
    (hb : b ∈ subtables m l a i) : SameBut m (m.setPte b j e) l a i := by
  obtain ⟨ha, hd⟩ := not_mem_subtables hnd hi
  constructor
  · have hne : a ≠ b := by
      rintro rfl
      exact ha hb
    exact Mem.setPte_of_ne hne
  · intro k hk hne c hc
    have hcb : c ≠ b := by
      rintro rfl
      exact hd k hk hne c hc hb
    exact Mem.setPte_of_ne hcb

/-- Two virtual pages with the same entry are the same page, up to the levels above. -/
theorem slot_inj (hnd : (tables m l a).Nodup) (hv : slot m v l a = some (b, i))
    (hw : slot m w l a = some (b, i)) : v % 512 ^ (l + 1) = w % 512 ^ (l + 1) := by
  induction l generalizing a with
  | zero =>
    simp only [slot, Option.some.injEq, Prod.mk.injEq, vpx, pow_zero, Nat.div_one] at hv hw
    rw [zero_add, pow_one, hv.2, hw.2]
  | succ l ih =>
    cases hpv : pteV (m.pte a (vpx (l + 1) v)) with
    | false => simp [slot_of_invalid hpv] at hv
    | true =>
    cases hpw : pteV (m.pte a (vpx (l + 1) w)) with
    | false => simp [slot_of_invalid hpw] at hw
    | true =>
    rw [slot_of_valid hpv] at hv
    rw [slot_of_valid hpw] at hw
    have hbv := (slot_mem hv).1
    have hbw := (slot_mem hw).1
    rw [← subtables_of_valid hpv] at hbv
    rw [← subtables_of_valid hpw] at hbw
    -- The entry is below one entry of `a` only.
    have he : vpx (l + 1) v = vpx (l + 1) w := by
      by_contra hne
      exact (not_mem_subtables hnd (vpx_lt _ _)).2 _ (vpx_lt _ _) hne b hbv hbw
    rw [← he] at hw
    have hmod := ih (subtables_of_valid hpv ▸ nodup_subtables hnd (vpx_lt _ _)) hv hw
    rw [pow_succ 512 (l + 1), Nat.mod_mul, Nat.mod_mul, hmod]
    simp only [vpx] at he
    rw [he]

/-! ## Storing a leaf -/

/-- Storing the entry of a page keeps the pages of the page table and where the entries
    are. -/
theorem setPte_spec (hnd : (tables m l a).Nodup) (hs : slot m v l a = some (b, i)) :
    (∀ w, slot (m.setPte b i e) w l a = slot m w l a) ∧
      tables (m.setPte b i e) l a = tables m l a ∧ (PtWf m l a → PtWf (m.setPte b i e) l a) := by
  induction l generalizing a with
  | zero => exact ⟨fun _ => rfl, rfl, id⟩
  | succ l ih =>
    cases hv : pteV (m.pte a (vpx (l + 1) v)) with
    | false => simp [slot_of_invalid hv] at hs
    | true =>
      rw [slot_of_valid hv] at hs
      have hsub := nodup_subtables hnd (vpx_lt (l + 1) v)
      have hb := (slot_mem hs).1
      rw [subtables_of_valid hv] at hsub
      rw [← subtables_of_valid hv] at hb
      have hsame := sameBut_setPte (j := i) (e := e) hnd (vpx_lt (l + 1) v) hb
      obtain ⟨hslot, htab, hwf⟩ := ih hsub hs
      refine ⟨fun w => hsame.slot_eq fun _ => hslot w, ?_, fun h =>
        hsame.ptWf h fun _ => hwf (h _ (vpx_lt _ _) hv).2⟩
      have ht := hsame.tables_add (X := 0) (Y := 0) (vpx_lt _ _) (by
        rw [subtables_of_valid (by rwa [Mem.pte_congr hsame.self]), Mem.pte_congr hsame.self,
          subtables_of_valid hv, htab])
      simpa only [zero_add] using ht

/-- The entry of a page depends on its number modulo the pages below the level. -/
theorem slot_mod (h : v % 512 ^ (l + 1) = w % 512 ^ (l + 1)) : slot m v l a = slot m w l a := by
  induction l generalizing a with
  | zero =>
    simp only [zero_add, pow_one] at h
    simp only [slot, vpx, pow_zero, Nat.div_one, h]
  | succ l ih =>
    have hx : vpx (l + 1) v = vpx (l + 1) w := by
      simp only [vpx]
      rw [← Nat.mod_mul_right_div_self, ← Nat.mod_mul_right_div_self, ← pow_succ, h]
    have hm : v % 512 ^ (l + 1) = w % 512 ^ (l + 1) := by
      have hd : 512 ^ (l + 1) ∣ 512 ^ (l + 1 + 1) := pow_dvd_pow 512 (by omega)
      rw [← Nat.mod_mod_of_dvd v hd, h, Nat.mod_mod_of_dvd w hd]
    rw [slot, slot, hx]
    split
    · exact ih hm
    · rfl

/-- Storing the entry of a page changes that leaf only. -/
theorem leaf_setPte (hnd : (tables m l a).Nodup) (hs : slot m v l a = some (b, i))
    (he : e < 2 ^ 64) :
    leaf (m.setPte b i e) l a w =
      if w % 512 ^ (l + 1) = v % 512 ^ (l + 1) then e else leaf m l a w := by
  have hw : slot (m.setPte b i e) w l a = slot m w l a := (setPte_spec hnd hs).1 w
  split
  · rename_i h
    have : slot m w l a = some (b, i) := by rw [slot_mod h, hs]
    rw [leaf_of_slot (hw.trans this), Mem.pte_setPte_self (slot_mem hs).2 he]
  · rename_i h
    cases hsw : slot m w l a with
    | none => rw [leaf_of_slot_none (hw.trans hsw), leaf_of_slot_none hsw]
    | some p =>
      obtain ⟨c, j⟩ := p
      rw [leaf_of_slot (hw.trans hsw), leaf_of_slot hsw]
      by_cases hc : c = b
      · subst hc
        refine Mem.pte_setPte_of_ne fun hj => h ?_
        rw [hj] at hsw
        exact slot_inj hnd hsw hs
      · exact Mem.pte_congr (Mem.setPte_of_ne hc) j

/-! ## Attaching a page -/

/-- A page of zeros is an empty page table. -/
theorem tables_of_zero (h : m a = .fill 0) : tables m l a = {a} := by
  cases l with
  | zero => rfl
  | succ l =>
    rw [tables_succ, Finset.sum_eq_zero, Multiset.cons_zero]
    exact fun i _ => subtables_of_invalid (by rw [Mem.pte_of_fill_zero h, pteV_zero])

theorem leaf_of_zero (h : m a = .fill 0) : leaf m l a v = 0 := by
  cases l with
  | zero => exact Mem.pte_of_fill_zero h _
  | succ l => exact leaf_of_invalid (by rw [Mem.pte_of_fill_zero h, pteV_zero])

theorem ptWf_of_zero (h : m a = .fill 0) : PtWf m l a := by
  cases l with
  | zero => trivial
  | succ l =>
    intro i _ hv
    rw [Mem.pte_of_fill_zero h, pteV_zero] at hv
    cases hv

/-- The memory after an empty page `c` was attached to the page `a`, at its entry `i`. -/
structure Attached (m m' : Mem) (a i c : ℕ) : Prop where
  entry : m'.pte a i = mkPte c 0
  others : ∀ j, j ≠ i → m'.pte a j = m.pte a j
  zero : m' c = .fill 0
  frame : ∀ b, b ≠ a → b ≠ c → m' b = m b

theorem Attached.subtables_eq (h : Attached m m' a i c) (hnd : (tables m (l + 1) a).Nodup)
    (hc : c ∉ tables m (l + 1) a) (hj : j < 512) :
    ∀ b ∈ subtables m l a j, m' b = m b := by
  intro b hb
  refine h.frame b ?_ ?_
  · rintro rfl
    exact (not_mem_subtables hnd hj).1 hb
  · rintro rfl
    exact hc (Multiset.mem_of_le (subtables_le hj) hb)

/-- Attaching a page adds it to the page table. -/
theorem Attached.tables_eq (h : Attached m m' a i c) (hnd : (tables m (l + 1) a).Nodup)
    (hc : c ∉ tables m (l + 1) a) (hi : i < 512) (hp : PageAddr c)
    (hv : pteV (m.pte a i) = false) : tables m' (l + 1) a = c ::ₘ tables m (l + 1) a := by
  have hs : ∑ j ∈ entries.erase i, subtables m' l a j =
      ∑ j ∈ entries.erase i, subtables m l a j := by
    refine Finset.sum_congr rfl fun j hj => ?_
    obtain ⟨hne, hj⟩ := Finset.mem_erase.1 hj
    have hb := h.subtables_eq hnd hc (mem_entries.1 hj)
    rw [subtables, subtables, h.others j hne]
    split
    · rename_i hv
      exact tables_congr fun b hbt => hb b (by rwa [subtables_of_valid hv])
    · rfl
  have hi' : subtables m' l a i = {c} := by
    have hpa : pteAddr (m'.pte a i) = c := by rw [h.entry, pteAddr_mkPte hp (by omega)]
    rw [subtables_of_valid (by rw [h.entry, pteV_mkPte]), hpa, tables_of_zero h.zero]
  rw [tables_eq_add hi, tables_eq_add hi, hs, hi', subtables_of_invalid hv, zero_add,
    Multiset.singleton_add]

/-- The entries that were there stay where they were. -/
theorem Attached.slot_some {p : ℕ × ℕ} (h : Attached m m' a i c)
    (hnd : (tables m (l + 1) a).Nodup) (hc : c ∉ tables m (l + 1) a)
    (hv : pteV (m.pte a i) = false) (hs : slot m v (l + 1) a = some p) :
    slot m' v (l + 1) a = some p := by
  cases hw : pteV (m.pte a (vpx (l + 1) v)) with
  | false =>
    rw [slot_of_invalid hw] at hs
    cases hs
  | true =>
    have hj : vpx (l + 1) v ≠ i := by
      rintro rfl
      rw [hv] at hw
      cases hw
    have hb := h.subtables_eq hnd hc (vpx_lt (l + 1) v)
    rw [slot_of_valid hw] at hs
    rw [slot_of_valid (by rwa [h.others _ hj]), h.others _ hj, slot_congr fun b hbt => hb b ?_]
    · exact hs
    · rwa [subtables_of_valid hw]

/-- And changes no leaf. -/
theorem Attached.leaf_eq (h : Attached m m' a i c) (hnd : (tables m (l + 1) a).Nodup)
    (hc : c ∉ tables m (l + 1) a) (hp : PageAddr c) (hv : pteV (m.pte a i) = false) :
    leaf m' (l + 1) a v = leaf m (l + 1) a v := by
  by_cases hj : vpx (l + 1) v = i
  · subst hj
    have hpa : pteAddr (m'.pte a (vpx (l + 1) v)) = c := by
      rw [h.entry, pteAddr_mkPte hp (by omega)]
    rw [leaf_of_invalid hv, leaf_of_valid (by rw [h.entry, pteV_mkPte]), hpa, leaf_of_zero h.zero]
  · have hb := h.subtables_eq hnd hc (vpx_lt (l + 1) v)
    cases hw : pteV (m.pte a (vpx (l + 1) v)) with
    | false => rw [leaf_of_invalid hw, leaf_of_invalid (by rwa [h.others _ hj])]
    | true =>
      rw [leaf_of_valid hw, leaf_of_valid (by rwa [h.others _ hj]), h.others _ hj]
      exact leaf_congr fun b hbt => hb b (by rwa [subtables_of_valid hw])

theorem Attached.ptWf (h : Attached m m' a i c) (hnd : (tables m (l + 1) a).Nodup)
    (hc : c ∉ tables m (l + 1) a) (hp : PageAddr c) (hwf : PtWf m (l + 1) a) :
    PtWf m' (l + 1) a := by
  intro j hj hv
  by_cases hji : j = i
  · subst hji
    rw [h.entry, pteLeaf_mkPte, pteAddr_mkPte hp (by omega)]
    exact ⟨pteLeaf_zero, ptWf_of_zero h.zero⟩
  · rw [h.others j hji] at hv ⊢
    refine ⟨(hwf j hj hv).1, ptWf_congr (fun b hb => ?_) (hwf j hj hv).2⟩
    exact h.subtables_eq hnd hc hj b (by rwa [subtables_of_valid hv])

end

end Xv6
