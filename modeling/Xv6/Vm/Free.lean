import Xv6.Vm.Space

/-!
# The specification of `freewalk`

A page table without leaves is freed as a whole: its pages go to the free list, and no
other page changes (`wp_freewalk`). The depth of the recursion is that of the page table.
-/

namespace Xv6

variable {k : Kernel} {E : VmPanic → Vm → Prop} {s t : Vm} {l a i v : ℕ}

/-- The pages below the first `i` entries. -/
def subtablesTo (m : Mem) (l a i : ℕ) : Multiset ℕ := ∑ j ∈ Finset.range i, subtables m l a j

theorem mem_subtablesTo {m : Mem} {b : ℕ} :
    b ∈ subtablesTo m l a i ↔ ∃ j < i, b ∈ subtables m l a j := by
  simp [subtablesTo, Multiset.mem_sum]

theorem subtablesTo_succ (m : Mem) (l a i : ℕ) :
    subtablesTo m l a (i + 1) = subtablesTo m l a i + subtables m l a i :=
  Finset.sum_range_succ _ _

theorem tables_eq_cons_subtablesTo (m : Mem) (l a : ℕ) :
    tables m (l + 1) a = a ::ₘ subtablesTo m l a 512 := by
  rw [tables_succ, entries, subtablesTo]

/-- The leaves below an entry are leaves. -/
theorem leaf_child {m : Mem} (hi : i < 512) (hv : pteV (m.pte a i) = true) (v : ℕ) :
    ∃ w, leaf m (l + 1) a w = leaf m l (pteAddr (m.pte a i)) v := by
  have hpos : 0 < 512 ^ (l + 1) := by positivity
  have hx : vpx (l + 1) (i * 512 ^ (l + 1) + v % 512 ^ (l + 1)) = i := by
    rw [vpx, add_comm, Nat.add_mul_div_right _ _ hpos, Nat.div_eq_of_lt (Nat.mod_lt _ hpos),
      zero_add, Nat.mod_eq_of_lt hi]
  refine ⟨i * 512 ^ (l + 1) + v % 512 ^ (l + 1), ?_⟩
  rw [leaf_of_valid (by rwa [hx]), hx, leaf, leaf, slot_mod (w := v)]
  rw [Nat.mul_add_mod_self_right, Nat.mod_mod]

/-- The loop of `freewalk` has freed what is below the first `i` entries. -/
structure Freed (l a : ℕ) (s : Vm) (i : ℕ) (t : Vm) : Prop where
  freelist : (t.freelist : Multiset ℕ) = s.freelist + subtablesTo s.mem l a i
  frame : ∀ b, b ≠ a → b ∉ subtablesTo s.mem l a i → t.mem b = s.mem b
  entry : ∀ j, i ≤ j → t.mem.pte a j = s.mem.pte a j
  refreed : t.refreed = s.refreed

/-- What is needed to free the page table from the page `a` on. -/
structure Freeable (k : Kernel) (l a : ℕ) (s : Vm) : Prop where
  nodup : ((s.freelist : Multiset ℕ) + tables s.mem l a).Nodup
  page : ∀ b ∈ tables s.mem l a, b % pgsize = 0 ∧ k.kend ≤ b ∧ b < physTop
  wf : PtWf s.mem l a
  leaf : ∀ v, pteV (leaf s.mem l a v) = false

theorem Freeable.not_mem (h : Freeable k l a s) {b : ℕ} (hb : b ∈ tables s.mem l a) :
    b ∉ s.freelist := fun hf =>
  Multiset.disjoint_left.1 (Multiset.nodup_add.1 h.nodup).2.2 (Multiset.mem_coe.2 hf) hb

/-- The page table from the page `a` on has been freed. -/
structure Frees (l a : ℕ) (s t : Vm) : Prop where
  freelist : (t.freelist : Multiset ℕ) = s.freelist + tables s.mem l a
  frame : ∀ b, b ∉ tables s.mem l a → t.mem b = s.mem b
  refreed : t.refreed = s.refreed

/-- What is below a valid entry can be freed when what is below the entries before it has
    been. -/
theorem Freed.freeable (h : Freeable k (l + 1) a s) (ht : Freed l a s i t) (hi : i < 512)
    (hv : pteV (s.mem.pte a i) = true) :
    (∀ b ∈ tables s.mem l (pteAddr (s.mem.pte a i)), t.mem b = s.mem b) ∧
      Freeable k l (pteAddr (s.mem.pte a i)) t := by
  have hnd := (Multiset.nodup_add.1 h.nodup).2.1
  have hsub := subtables_of_valid (l := l) hv
  have hle := subtables_le (m := s.mem) (l := l) (a := a) hi
  have hkeep : ∀ b ∈ tables s.mem l (pteAddr (s.mem.pte a i)), t.mem b = s.mem b := by
    intro b hb
    rw [← hsub] at hb
    refine ht.frame b ?_ fun hb' => ?_
    · rintro rfl
      exact (not_mem_subtables hnd hi).1 hb
    · obtain ⟨j, hj, hbj⟩ := mem_subtablesTo.1 hb'
      exact (not_mem_subtables hnd hi).2 j (by omega) (by omega) b hbj hb
  refine ⟨hkeep, ?_, fun b hb => h.page b ?_, ptWf_congr hkeep (h.wf i hi hv).2, fun v => ?_⟩
  · rw [tables_congr hkeep, ht.freelist, ← hsub, add_assoc, ← subtablesTo_succ]
    refine Multiset.nodup_of_le (add_le_add_right ?_ _) h.nodup
    rw [tables_eq_cons_subtablesTo]
    refine le_trans ?_ (Multiset.le_cons_self _ a)
    exact Finset.sum_le_sum_of_subset (Finset.range_mono (by omega))
  · rw [tables_congr hkeep, ← hsub] at hb
    exact Multiset.mem_of_le hle hb
  · obtain ⟨w, hw⟩ := leaf_child (l := l) hi hv v
    rw [leaf_congr hkeep, ← hw]
    exact h.leaf w

/-- An iteration of the loop of `freewalk`. -/
theorem wp_freewalkEntry {rec : ℕ → VmM PUnit}
    (hrec : ∀ c u, Freeable k l c u → wp (rec c) (fun _ => Frees l c u) E u)
    (h : Freeable k (l + 1) a s) (hi : i < 512) (ht : Freed l a s i t) :
    wp (freewalkEntry rec a i) (fun _ => Freed l a s (i + 1)) E t := by
  have hnd := (Multiset.nodup_add.1 h.nodup).2.1
  simp only [freewalkEntry, wp_bind, wp_get, ht.entry i (Nat.le_refl i)]
  split
  · rename_i hv
    rw [if_neg (by simp [(h.wf i hi hv).1])]
    obtain ⟨hkeep, hfree⟩ := ht.freeable h hi hv
    have hsub := subtables_of_valid (l := l) hv
    simp only [setPte, wp_bind, wp_modify]
    refine (hrec _ _ hfree).mono (fun _ u hu => ?_) fun _ _ he => he
    have hua : u.mem a = t.mem a := by
      refine hu.frame a ?_
      rw [tables_congr hkeep, ← hsub]
      exact (not_mem_subtables hnd hi).1
    refine ⟨?_, fun b hba hb => ?_, fun j hj => ?_, hu.refreed.trans ht.refreed⟩
    · show (u.freelist : Multiset ℕ) = _
      rw [hu.freelist, ht.freelist, tables_congr hkeep, ← hsub, subtablesTo_succ, add_assoc]
    · rw [subtablesTo_succ, Multiset.mem_add, not_or, hsub] at hb
      refine (Mem.setPte_of_ne hba).trans ?_
      rw [hu.frame b (by rw [tables_congr hkeep]; exact hb.2), ht.frame b hba hb.1]
    · show (u.mem.setPte a i 0).pte a j = _
      rw [Mem.pte_setPte_of_ne (by omega), Mem.pte_congr hua, ht.entry j (by omega)]
  · rename_i hv
    have hsub : subtables s.mem l a i = 0 := subtables_of_invalid (by simpa using hv)
    rw [wp_pure]
    refine ⟨?_, fun b hba hb => ht.frame b hba ?_, fun j hj => ht.entry j (by omega), ht.refreed⟩
    · rw [ht.freelist, subtablesTo_succ, hsub, add_zero]
    · rwa [subtablesTo_succ, hsub, add_zero] at hb

theorem wp_freewalk (h : Freeable k l a s) :
    wp (freewalk k (l + 1) a) (fun _ => Frees l a s) E s := by
  induction l generalizing a s with
  | zero =>
    have hself := mem_tables_self s.mem 0 a
    obtain ⟨ha₁, ha₂, ha₃⟩ := h.page a hself
    rw [freewalk, wp_bind]
    -- All entries of the last level are invalid.
    have hloop : wp (forRange (freewalkEntry (freewalk k 0) a) 0 512) (fun _ t => t = s) E s := by
      refine wp_forRange (fun _ t => t = s) rfl fun i t _ hi ht => ?_
      subst ht
      have hl := h.leaf i
      have hslot : slot t.mem i 0 a = some (a, i) := by
        rw [slot, vpx, pow_zero, Nat.div_one, Nat.mod_eq_of_lt (by omega)]
      rw [leaf_of_slot hslot] at hl
      simp only [freewalkEntry, wp_bind, wp_get, hl, Bool.false_eq_true, if_false, wp_pure]
    refine hloop.mono (fun _ t ht => ?_) fun _ _ he => he
    subst ht
    refine wp_kfree ha₁ ha₂ ha₃ (h.not_mem hself) fun u hf hm hr => ⟨?_, fun b hb => hm b ?_, hr⟩
    · rw [hf, ← Multiset.cons_coe, tables, add_comm, Multiset.singleton_add]
    · rintro rfl
      exact hb hself
  | succ l ih =>
    have hself := mem_tables_self s.mem (l + 1) a
    obtain ⟨ha₁, ha₂, ha₃⟩ := h.page a hself
    rw [freewalk, wp_bind]
    have h0 : Freed l a s 0 s :=
      ⟨by simp [subtablesTo], fun _ _ _ => rfl, fun _ _ => rfl, rfl⟩
    refine (wp_forRange (Freed l a s) h0 fun i t _ hi ht =>
      wp_freewalkEntry (fun c u hu => ih hu) h (by omega) ht).mono (fun _ t ht => ?_) fun _ _ he => he
    -- The page itself comes last.
    have hnf : a ∉ t.freelist := by
      rw [← Multiset.mem_coe, ht.freelist, Multiset.mem_add, not_or]
      have hnd := (Multiset.nodup_add.1 h.nodup).2.1
      rw [tables_eq_cons_subtablesTo, Multiset.nodup_cons] at hnd
      exact ⟨h.not_mem hself, hnd.1⟩
    refine wp_kfree ha₁ ha₂ ha₃ hnf fun u hf hm hr =>
      ⟨?_, fun b hb => ?_, hr.trans ht.refreed⟩
    · rw [hf, ← Multiset.cons_coe, ht.freelist, tables_eq_cons_subtablesTo, Multiset.add_cons]
    · rw [tables_eq_cons_subtablesTo, Multiset.mem_cons, not_or] at hb
      rw [hm b hb.1, ht.frame b hb.1 hb.2]

end Xv6
