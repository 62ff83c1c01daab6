import Xv6.Fs.Itable

/-!
# References to inodes

The part of the invariant of the inode table that is about references and locks (`Refs`), and
how the operations of the table keep it. It needs nothing of what is on disk.
-/

namespace Xv6

namespace Itable

/-- No inode has two entries. -/
def Unique (s : Itable) : Prop :=
  ∀ e e', 0 < (s.inode e).ref → 0 < (s.inode e').ref → (s.inode e).id = (s.inode e').id → e = e'

variable {s : Itable} {p q : Fin nproc} {g g' : Finset (Fin nproc)} {e e' : Fin ninode}
  {i j : Ino} {d : Dinode} {c : InodePc} {st : FreeStage} {n : ℕ}

/-- The number of references to `e`. -/
def total (s : Itable) (e : Fin ninode) : ℕ := ∑ g, s.held g e

theorem held_le_total (s : Itable) (g : Finset (Fin nproc)) (e : Fin ninode) :
    s.held g e ≤ s.total e :=
  Finset.single_le_sum (f := fun g => s.held g e) (fun _ _ => Nat.zero_le _) (Finset.mem_univ g)

/-- The only reference to an entry. -/
theorem eq_of_total (hr : s.total e = 1) (hg : 0 < s.held g e) (hg' : 0 < s.held g' e) :
    g' = g := by
  by_contra hne
  have := Finset.add_le_sum (f := fun g => s.held g e) (fun _ _ => Nat.zero_le _)
    (Finset.mem_univ g') (Finset.mem_univ g) hne
  change _ ≤ s.total e at this
  omega

@[grind =] theorem setHeld_held : (s.setHeld g e n).held g' e' =
    if g' = g ∧ e' = e then n else s.held g' e' := by
  by_cases hg : g' = g
  · subst hg
    by_cases he : e' = e <;> simp [setHeld, he]
  · simp [setHeld, hg]

theorem setHeld_total : (s.setHeld g e n).total e' =
    if e' = e then s.total e - s.held g e + n else s.total e' := by
  by_cases he : e' = e
  · subst he
    rw [if_pos rfl]
    have hf : (fun g' => (s.setHeld g e' n).held g' e') =
        Function.update (fun g' => s.held g' e') g n := by
      funext g'
      by_cases hg : g' = g <;> simp [setHeld_held, hg]
    have hsum : s.total e' = s.held g e' + ∑ g' ∈ Finset.univ \ {g}, s.held g' e' :=
      Finset.sum_eq_add_sum_sdiff_singleton_of_mem (Finset.mem_univ g) fun g' => s.held g' e'
    unfold total at hsum ⊢
    rw [hf, Finset.sum_update_of_mem (Finset.mem_univ g)]
    omega
  · rw [if_neg he]
    exact Finset.sum_congr rfl fun g' _ => by simp [setHeld_held, he]

@[grind =] theorem setHeld_disk : (s.setHeld g e n).disk i = s.disk i := rfl
@[grind =] theorem setHeld_pc : (s.setHeld g e n).pc p = s.pc p := rfl
@[grind =] theorem setHeld_inode : (s.setHeld g e n).inode e' = s.inode e' := rfl

@[grind =] theorem pass_held {k : Finset (Fin nproc)} : (s.pass g g' e).held k e' =
    if e' = e then
      if k = g' then s.held g' e + 1 else if k = g then s.held g e - 1 else s.held k e
    else s.held k e' := by
  unfold pass
  by_cases he : e' = e
  · subst he
    by_cases hk : k = g' <;> simp [setHeld_held, hk]
  · simp [setHeld_held, he]

theorem pass_total (hg : g ≠ g') (h : 0 < s.held g e) : (s.pass g g' e).total e' = s.total e' := by
  unfold pass
  by_cases he : e' = e
  · subst he
    have h₁ := s.held_le_total g e'
    have h₂ := (s.setHeld g e' (s.held g e' - 1)).held_le_total g' e'
    simp only [setHeld_total, setHeld_held, hg.symm, false_and, if_true, if_false] at h₂ ⊢
    omega
  · simp [setHeld_total, he]

@[grind =] theorem pass_disk : (s.pass g g' e).disk i = s.disk i := rfl
@[grind =] theorem pass_pc : (s.pass g g' e).pc p = s.pc p := rfl
@[grind =] theorem pass_inode : (s.pass g g' e).inode e' = s.inode e' := rfl

@[grind =] theorem set_inode {f : Inode → Inode} : (s.set e f).inode e' =
    if e' = e then f (s.inode e) else s.inode e' := Function.update_apply ..

@[grind =] theorem set_held {f : Inode → Inode} : (s.set e f).held g e' = s.held g e' := rfl
@[grind =] theorem set_pc {f : Inode → Inode} : (s.set e f).pc p = s.pc p := rfl
@[grind =] theorem set_disk {f : Inode → Inode} : (s.set e f).disk i = s.disk i := rfl
theorem set_total {f : Inode → Inode} : (s.set e f).total = s.total := rfl

@[grind =] theorem goto_pc : (s.goto p c).pc q = if q = p then c else s.pc q :=
  Function.update_apply ..

@[grind =] theorem goto_held : (s.goto p c).held g e = s.held g e := rfl
@[grind =] theorem goto_disk : (s.goto p c).disk i = s.disk i := rfl
@[grind =] theorem goto_inode : (s.goto p c).inode e = s.inode e := rfl
theorem goto_total : (s.goto p c).total = s.total := rfl

@[grind =] theorem write_disk : (s.write i d).disk j = if j = i then d else s.disk j :=
  Function.update_apply ..

@[grind =] theorem write_held : (s.write i d).held g e = s.held g e := rfl
@[grind =] theorem write_pc : (s.write i d).pc p = s.pc p := rfl
@[grind =] theorem write_inode : (s.write i d).inode e = s.inode e := rfl
theorem write_total : (s.write i d).total = s.total := rfl

/-- The references are counted right, and the processes that lock or free an entry have one.
    A process that frees an entry has no other reference to it. -/
structure Refs (s : Itable) : Prop where
  ref : ∀ e, (s.inode e).ref = s.total e
  unique : s.Unique
  lock : ∀ e p, (s.inode e).lock = some p → ∃ g, p ∈ g ∧ 0 < s.held g e
  freeing : ∀ p e st, s.pc p = .freeing e st →
    s.held {p} e = 1 ∧ ∀ g, p ∈ g → 0 < s.held g e → g = {p}
  locked : ∀ p e st, s.pc p = .freeing e st → ((s.inode e).lock = some p ↔ st ≠ .unlocked)

namespace Refs

theorem ref_pos (hr : s.Refs) (hg : 0 < s.held g e) : 0 < (s.inode e).ref := by
  rw [hr.ref]
  exact hg.trans_le (s.held_le_total g e)

theorem lock_of_stage (hr : s.Refs) (hp : s.pc p = .freeing e st) (hst : st ≠ .unlocked) :
    (s.inode e).lock = some p :=
  (hr.locked p e st hp).2 hst

/-- A process that has locked an entry, and is not in `iput`, shares it at most with an `iput`
    that is about to give up its reference. -/
theorem stage (hr : s.Refs) (hl : (s.inode e).lock = some p) (hp : s.pc p = .idle)
    (hq : s.pc q = .freeing e st) : st = .unlocked := by
  by_contra hst
  have := hr.lock_of_stage hq hst
  grind

theorem write (hr : s.Refs) : Refs (s.write i d) := ⟨hr.ref, hr.unique, hr.lock, hr.freeing, hr.locked⟩

theorem goto (hr : s.Refs) (hc : ∀ e st, c = .freeing e st →
      (s.held {p} e = 1 ∧ ∀ g, p ∈ g → 0 < s.held g e → g = {p}) ∧
        ((s.inode e).lock = some p ↔ st ≠ .unlocked)) : Refs (s.goto p c) := by
  obtain ⟨href, hun, hlock, hfree, hlocked⟩ := hr
  refine ⟨href, hun, hlock, ?_, ?_⟩
  · grind
  · grind

theorem set (hr : s.Refs) {f : Inode → Inode} (hid : (f (s.inode e)).id = (s.inode e).id)
    (hf : (f (s.inode e)).ref = (s.inode e).ref)
    (hl : ∀ p, (f (s.inode e)).lock = some p → ∃ g, p ∈ g ∧ 0 < s.held g e)
    (hst : ∀ p st, s.pc p = .freeing e st → ((f (s.inode e)).lock = some p ↔ st ≠ .unlocked)) :
    Refs (s.set e f) := by
  obtain ⟨href, hun, hlock, hfree, hlocked⟩ := hr
  refine ⟨fun e' => ?_, ?_, ?_, hfree, ?_⟩
  · rw [set_total, ← href, set_inode]
    split
    · rename_i he
      rw [hf, he]
    · rfl
  · unfold Unique at *
    grind
  · grind
  · grind

/-- When the lock stays. -/
theorem set_of_lock (hr : s.Refs) {f : Inode → Inode} (hid : (f (s.inode e)).id = (s.inode e).id)
    (hf : (f (s.inode e)).ref = (s.inode e).ref)
    (hl : (f (s.inode e)).lock = (s.inode e).lock) : Refs (s.set e f) :=
  hr.set hid hf (fun p hp => hr.lock e p (hl ▸ hp)) fun p st hp => hl ▸ hr.locked p e st hp

theorem gain (hr : s.Refs) (hq : s.pc q = .idle) (he : 0 < (s.inode e).ref) :
    Refs ((s.set e fun x => { x with ref := x.ref + 1 }).gain q e) := by
  obtain ⟨href, hun, hlock, hfree, hlocked⟩ := hr
  have hle := s.held_le_total {q} e
  refine ⟨fun e' => ?_, ?_, ?_, ?_, ?_⟩ <;> unfold Itable.gain
  · by_cases he : e' = e
    · subst he
      simp only [setHeld_inode, set_inode, setHeld_total, set_total, set_held, if_true, href]
      omega
    · simp [setHeld_inode, set_inode, setHeld_total, set_total, he, href]
  · unfold Unique at *
    grind
  · grind
  · grind
  · grind

theorem new (hr : s.Refs) (hq : s.pc q = .idle) (he : (s.inode e).ref = 0)
    (hi : ∀ e, 0 < (s.inode e).ref → (s.inode e).id ≠ i) :
    Refs ((s.set e fun x => { x with id := i, ref := 1, valid := false }).gain q e) := by
  obtain ⟨href, hun, hlock, hfree, hlocked⟩ := hr
  have h₀ : s.total e = 0 := (href e).symm.trans he
  have hg : ∀ g, s.held g e = 0 := fun g => Nat.le_zero.1 (h₀ ▸ s.held_le_total g e)
  refine ⟨fun e' => ?_, ?_, ?_, ?_, ?_⟩ <;> unfold Itable.gain
  · by_cases he : e' = e
    · subst he
      simp [setHeld_inode, set_inode, setHeld_total, set_total, set_held, h₀, hg]
    · simp [setHeld_inode, set_inode, setHeld_total, set_total, he, href]
  · unfold Unique at *
    grind
  · grind
  · grind
  · grind

theorem unref (hr : s.Refs) (hp : 0 < s.held {p} e) (hf : ∀ st, s.pc p ≠ .freeing e st)
    (hl : (s.inode e).lock = some p → 2 ≤ s.held {p} e) : Refs (s.unref p e) := by
  obtain ⟨href, hun, hlock, hfree, hlocked⟩ := hr
  have hle := s.held_le_total {p} e
  refine ⟨fun e' => ?_, ?_, fun e' q hq => ?_, ?_, ?_⟩ <;> unfold Itable.unref lose at *
  · by_cases he : e' = e
    · subst he
      simp only [setHeld_inode, set_inode, setHeld_total, set_total, set_held, if_true, href]
      omega
    · simp [setHeld_inode, set_inode, setHeld_total, set_total, he, href]
  · unfold Unique at *
    grind
  · obtain ⟨g, hg⟩ := hlock e' q (by grind)
    grind
  · grind
  · grind

theorem pass (hr : s.Refs) (hne : g ≠ g') (hg : 0 < s.held g e)
    (hl : ∀ p ∈ g, (s.inode e).lock = some p → p ∈ g')
    (hg' : ∀ p ∈ g', s.pc p = .idle ∨ p ∈ g) (hidle : ∃ p ∈ g, s.pc p = .idle) :
    Refs (s.pass g g' e) := by
  obtain ⟨href, hun, hlock, hfree, hlocked⟩ := hr
  refine ⟨fun e' => ?_, hun, fun e' p hp => ?_, ?_, hlocked⟩
  · rw [pass_inode, href, pass_total hne hg]
  · obtain ⟨k, hk⟩ := hlock e' p hp
    grind
  · grind

end Refs

end Itable

end Xv6
