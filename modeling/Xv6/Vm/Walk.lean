import Xv6.Vm.Tree

/-!
# The specifications of `kalloc` and `walk`

`walk` with `alloc = 0` finds the entry of a page and changes nothing (`wp_walk`). With
`alloc = 1` it may take pages from the free list to make them pages of the page table
(`wp_walk_alloc`): the free list and the page table together have the pages they had,
no leaf changes, and nothing is stored elsewhere (`Grows`).
-/

namespace Xv6

variable {E : VmPanic → Vm → Prop} {s t u : Vm} {l a c i v va : ℕ}

/-- `kalloc` fails, or takes the first page of the free list. -/
theorem wp_kalloc {Q : ℕ → Vm → Prop}
    (hnone : ∀ t : Vm, t.mem = s.mem → t.freelist = s.freelist → t.refreed = s.refreed → Q 0 t)
    (hsome : ∀ (r : ℕ) (t : Vm), s.freelist = r :: t.freelist → (∀ b, b ≠ r → t.mem b = s.mem b) →
      t.refreed = s.refreed → Q r t) : wp kalloc Q E s := by
  unfold kalloc
  simp only [wp_bind, wp_get]
  split
  · rename_i hf
    simp only [wp_bind, wp_set, wp_pure]
    exact hnone _ rfl rfl rfl
  · rename_i r rest hf
    split
    · simp only [wp_bind, wp_set, wp_pure]
      exact hnone _ rfl rfl rfl
    · simp only [wp_bind, wp_set, wp_pure]
      exact hsome r _ hf (fun b hb => Function.update_of_ne hb _ _) rfl

/-- `kfree` of a page of the allocator puts it back. -/
theorem wp_kfree {k : Kernel} {pa : ℕ} {Q : PUnit → Vm → Prop} (ha : pa % pgsize = 0)
    (hk : k.kend ≤ pa) (hp : pa < physTop) (hf : pa ∉ s.freelist)
    (h : ∀ t : Vm, t.freelist = pa :: s.freelist → (∀ b, b ≠ pa → t.mem b = s.mem b) →
      t.refreed = s.refreed → Q ⟨⟩ t) : wp (kfree k pa) Q E s := by
  unfold kfree
  rw [if_neg (by omega), wp_modify]
  exact h _ rfl (fun b hb => Function.update_of_ne hb _ _) (by simp [hf])

/-! ## Looking an entry up -/

theorem wp_walkFrom {Q : Option (ℕ × ℕ) → Vm → Prop} :
    wp (walkFrom false va l a) Q E s ↔ Q (slot s.mem (va / pgsize) l a) s := by
  induction l generalizing a with
  | zero => rw [walkFrom, wp_pure, px_eq, slot]
  | succ l ih =>
    simp only [walkFrom, wp_bind, wp_get, px_eq, slot]
    split
    · exact ih
    · exact Iff.rfl

/-- Looking an entry up changes nothing. -/
theorem wp_walk {pagetable : ℕ} {Q : Option (ℕ × ℕ) → Vm → Prop} (hva : va < maxVa) :
    wp (walk pagetable va false) Q E s ↔ Q (slot s.mem (va / pgsize) 2 pagetable) s := by
  rw [walk, if_neg (by omega), wp_walkFrom]

/-! ## Growing a page table -/

/-- The page table from the page `a` of level `l` on has taken pages from the free
    list. -/
structure Grows (l a : ℕ) (s t : Vm) : Prop where
  own : (t.freelist : Multiset ℕ) + tables t.mem l a = s.freelist + tables s.mem l a
  slots : ∀ v p, slot s.mem v l a = some p → slot t.mem v l a = some p
  leaf : ∀ v, leaf t.mem l a v = leaf s.mem l a v
  wf : PtWf s.mem l a → PtWf t.mem l a
  frame : ∀ b, b ∉ s.freelist → b ∉ tables s.mem l a → t.mem b = s.mem b
  refreed : t.refreed = s.refreed

/-- The pages of the free list and of the page table are pages, and distinct. -/
structure Apart (l a : ℕ) (s : Vm) : Prop where
  nodup : ((s.freelist : Multiset ℕ) + tables s.mem l a).Nodup
  page : ∀ b ∈ (s.freelist : Multiset ℕ) + tables s.mem l a, PageAddr b

theorem Grows.refl (l a : ℕ) (s : Vm) : Grows l a s s :=
  ⟨rfl, fun _ _ h => h, fun _ => rfl, id, fun _ _ _ => rfl, rfl⟩

theorem Grows.trans (h : Grows l a s t) (h' : Grows l a t u) : Grows l a s u where
  own := h'.own.trans h.own
  slots v p hp := h'.slots v p (h.slots v p hp)
  leaf v := (h'.leaf v).trans (h.leaf v)
  wf hw := h'.wf (h.wf hw)
  frame b hf ht := by
    have hm : b ∉ (t.freelist : Multiset ℕ) + tables t.mem l a := by
      rw [h.own, Multiset.mem_add, Multiset.mem_coe]
      exact fun hb => hb.elim hf ht
    rw [Multiset.mem_add, Multiset.mem_coe, not_or] at hm
    rw [h'.frame b hm.1 hm.2, h.frame b hf ht]
  refreed := h'.refreed.trans h.refreed

theorem Grows.apart (h : Grows l a s t) (ha : Apart l a s) : Apart l a t :=
  ⟨by rw [h.own]; exact ha.nodup, by rw [h.own]; exact ha.page⟩

theorem Apart.tables_nodup (h : Apart l a s) : (tables s.mem l a).Nodup :=
  (Multiset.nodup_add.1 h.nodup).2.1

theorem Apart.not_mem_freelist (h : Apart l a s) {b : ℕ} (hb : b ∈ tables s.mem l a) :
    b ∉ s.freelist := fun hf =>
  Multiset.disjoint_left.1 (Multiset.nodup_add.1 h.nodup).2.2 (Multiset.mem_coe.2 hf) hb

theorem Apart.child (h : Apart (l + 1) a s) (hi : i < 512) (hv : pteV (s.mem.pte a i) = true) :
    Apart l (pteAddr (s.mem.pte a i)) s := by
  have hle := subtables_le (m := s.mem) (l := l) (a := a) hi
  rw [subtables_of_valid hv] at hle
  have hle' := add_le_add_right hle (s.freelist : Multiset ℕ)
  exact ⟨Multiset.nodup_of_le hle' h.nodup, fun b hb => h.page b (Multiset.mem_of_le hle' hb)⟩

/-- What grows below an entry grows. -/
theorem Grows.lift (ha : Apart (l + 1) a s) (hi : i < 512) (hv : pteV (s.mem.pte a i) = true)
    (h : Grows l (pteAddr (s.mem.pte a i)) s t) :
    Grows (l + 1) a s t ∧ t.mem a = s.mem a := by
  obtain ⟨hself, hd⟩ := not_mem_subtables ha.tables_nodup hi
  rw [subtables_of_valid hv] at hself
  have hsame : SameBut s.mem t.mem l a i := by
    constructor
    · exact h.frame a (ha.not_mem_freelist (mem_tables_self _ _ a)) hself
    · intro j hj hne b hb
      have hb' := Multiset.mem_of_le (subtables_le hj) hb
      refine h.frame b (ha.not_mem_freelist hb') ?_
      rw [← subtables_of_valid hv]
      exact hd j hj hne b hb
  have hpte := Mem.pte_congr hsame.self i
  have hvt : pteV (t.mem.pte a i) = true := by rw [hpte, hv]
  have hsub : subtables t.mem l a i = tables t.mem l (pteAddr (s.mem.pte a i)) := by
    rw [subtables_of_valid hvt, hpte]
  refine ⟨⟨?_, fun v p => hsame.slot_some fun _ => h.slots v p, fun v => hsame.leaf_eq fun _ => h.leaf v, fun hw => hsame.ptWf hw fun hv' =>
    h.wf (hw i hi hv').2, fun b hf hb => h.frame b hf fun hb' => hb ?_, h.refreed⟩, hsame.self⟩
  · refine hsame.tables_add hi ?_
    rw [hsub, subtables_of_valid hv]
    exact h.own
  · refine Multiset.mem_of_le (subtables_le hi) ?_
    rwa [subtables_of_valid hv]

/-- Attaching the first page of the free list. -/
theorem Grows.attach (ha : Apart (l + 1) a s) (hi : i < 512) (hv : pteV (s.mem.pte a i) = false)
    (hf : s.freelist = c :: t.freelist) (hm : Attached s.mem t.mem a i c)
    (hr : t.refreed = s.refreed) : Grows (l + 1) a s t := by
  have hcf : c ∈ (s.freelist : Multiset ℕ) := by
    rw [hf]
    exact List.mem_cons_self
  have hc : c ∉ tables s.mem (l + 1) a := fun hc => ha.not_mem_freelist hc hcf
  have hp : PageAddr c := ha.page c (Multiset.mem_add.2 (.inl hcf))
  have hnd := ha.tables_nodup
  refine ⟨?_, fun v p => hm.slot_some hnd hc hv, fun v => hm.leaf_eq hnd hc hp hv, fun hw => hm.ptWf hnd hc hp hw, ?_, hr⟩
  · rw [hm.tables_eq hnd hc hi hp hv, hf, ← Multiset.cons_coe, Multiset.add_cons,
      Multiset.cons_add]
  · intro b hb ht
    refine hm.frame b ?_ ?_
    · rintro rfl
      exact ht (mem_tables_self _ _ _)
    · rintro rfl
      exact hb hcf

/-- The memory after a page of zeros was attached to `a`. -/
theorem attached_setPte {m m' : Mem} (hm : ∀ b, b ≠ c → m' b = m b) (hac : a ≠ c) (hi : i < 512)
    (hp : PageAddr c) :
    Attached m (Mem.setPte (Function.update m' c (.fill 0)) a i (mkPte c 0)) a i c where
  entry := Mem.pte_setPte_self hi (mkPte_lt (hp.lt.trans (by norm_num)) (by omega))
  others j hj := by
    rw [Mem.pte_setPte_of_ne hj, Mem.pte_congr]
    rw [Function.update_of_ne hac, hm a hac]
  zero := by rw [Mem.setPte_of_ne hac.symm, Function.update_self]
  frame b hba hbc := by rw [Mem.setPte_of_ne hba, Function.update_of_ne hbc, hm b hbc]

theorem wp_walkFrom_alloc (ha : Apart l a s) :
    wp (walkFrom true va l a) (fun r t => Grows l a s t ∧
      ∀ p, r = some p → slot t.mem (va / pgsize) l a = some p) E s := by
  induction l generalizing a s with
  | zero =>
    rw [walkFrom, wp_pure, px_eq]
    exact ⟨.refl 0 a s, fun p hp => hp⟩
  | succ l ih =>
    simp only [walkFrom, wp_bind, wp_get, px_eq]
    have hi := vpx_lt (l + 1) (va / pgsize)
    -- Below a valid entry.
    have hdown : ∀ s : Vm, Apart (l + 1) a s →
        pteV (s.mem.pte a (vpx (l + 1) (va / pgsize))) = true →
        wp (walkFrom true va l (pteAddr (s.mem.pte a (vpx (l + 1) (va / pgsize)))))
          (fun r t => Grows (l + 1) a s t ∧
            ∀ p, r = some p → slot t.mem (va / pgsize) (l + 1) a = some p) E s := by
      intro s ha hv
      refine (ih (ha.child hi hv)).mono (fun r t ht => ?_) fun _ _ he => he
      obtain ⟨hg, hslot⟩ := ht
      obtain ⟨hg, hself⟩ := Grows.lift ha hi hv hg
      refine ⟨hg, fun p hp => ?_⟩
      have hpte := Mem.pte_congr hself (vpx (l + 1) (va / pgsize))
      have hvt : pteV (t.mem.pte a (vpx (l + 1) (va / pgsize))) = true := by rw [hpte, hv]
      rw [slot_of_valid hvt, hpte]
      exact hslot p hp
    split
    · rename_i hv
      exact hdown s ha hv
    · rename_i hv
      simp only [Bool.not_eq_true] at hv
      rw [if_pos trivial, wp_bind]
      refine wp_kalloc (fun t hm hf hr => ?_) fun c t hf hm hr => ?_
      · -- There is no page.
        rw [if_pos rfl, wp_pure]
        refine ⟨⟨by rw [hm, hf], fun v p hp => by rwa [hm], fun v => by rw [hm], fun hw => by rwa [hm], fun b _ _ => by rw [hm],
          hr⟩, fun p hp => ?_⟩
        cases hp
      · have hcf : c ∈ (s.freelist : Multiset ℕ) := by
          rw [hf]
          exact List.mem_cons_self
        have hp : PageAddr c := ha.page c (Multiset.mem_add.2 (.inl hcf))
        have hac : a ≠ c := by
          rintro rfl
          exact ha.not_mem_freelist (mem_tables_self _ _ a) hcf
        rw [if_neg hp.pos.ne']
        simp only [memset, setPte, wp_bind, wp_modify]
        have hatt := attached_setPte hm hac hi hp
        set w : Vm := { t with
          mem := Mem.setPte (Function.update t.mem c (.fill 0)) a (vpx (l + 1) (va / pgsize))
            (mkPte c 0) } with hw
        have hg : Grows (l + 1) a s w := .attach ha hi hv hf hatt hr
        have hent : w.mem.pte a (vpx (l + 1) (va / pgsize)) = mkPte c 0 := hatt.entry
        have hwp := hdown w (hg.apart ha) (by rw [hent, pteV_mkPte])
        rw [hent, pteAddr_mkPte hp (by omega)] at hwp
        exact hwp.mono (fun r u hu => ⟨hg.trans hu.1, hu.2⟩) fun _ _ he => he

/-- Looking an entry up, creating the pages of the page table it needs. -/
theorem wp_walk_alloc {pagetable : ℕ} (hva : va < maxVa) (ha : Apart 2 pagetable s) :
    wp (walk pagetable va true) (fun r t => Grows 2 pagetable s t ∧
      ∀ p, r = some p → slot t.mem (va / pgsize) 2 pagetable = some p) E s := by
  rw [walk, if_neg (by omega)]
  exact wp_walkFrom_alloc ha

/-- An entry that is there is found, whether or not pages may be created. -/
theorem walkFrom_of_slot {alloc : Bool} {p : ℕ × ℕ} (hs : slot s.mem (va / pgsize) l a = some p) :
    walkFrom alloc va l a s = .ok (some p) s := by
  induction l generalizing a with
  | zero =>
    rw [slot, Option.some.injEq] at hs
    rw [walkFrom, px_eq, ← hs]
    rfl
  | succ l ih =>
    cases hv : pteV (s.mem.pte a (vpx (l + 1) (va / pgsize))) with
    | false =>
      rw [slot_of_invalid hv] at hs
      cases hs
    | true =>
      rw [slot_of_valid hv] at hs
      simp only [walkFrom, bind, EStateM.bind, get, getThe, MonadStateOf.get, EStateM.get, px_eq]
      rw [if_pos hv]
      exact ih hs

theorem walk_of_slot {pagetable : ℕ} {alloc : Bool} {p : ℕ × ℕ} (hva : va < maxVa)
    (hs : slot s.mem (va / pgsize) 2 pagetable = some p) :
    walk pagetable va alloc s = .ok (some p) s := by
  rw [walk, if_neg (by omega)]
  exact walkFrom_of_slot hs

end Xv6
