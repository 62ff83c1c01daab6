import Xv6.Fs.Refs

/-!
# Freeing and reallocating inodes

`iput` releases `itable.lock` in the middle, while it still has the last reference to the
inode it frees. As soon as the type is zero on disk, `ialloc` may allocate the number again,
and `iget` then returns the entry that is still being freed.

In every run (`inode_realloc`), no inode has two entries in the table; an inode is freed on
disk only once after it was allocated; `iupdate` never writes the copy of an inode over a
dinode that was allocated after the copy was read; and the first `ilock` after `ialloc` reads
the dinode that `ialloc` wrote. The allocations are recorded along the run (`Allocs`).

The invariant (`Inv`) is about which references and copies there can be of an inode that is
being freed.
-/

namespace Xv6

/-! ## The record of allocations -/

/-- How often every inode was allocated, the number of that allocation when an entry of the
    table was last read from disk, the dinode that `ialloc` wrote when no `ilock` has read it
    yet, and the inodes that are allocated and not freed. -/
structure Allocs where
  gen : Ino → ℕ
  loaded : Fin ninode → ℕ
  fresh : Ino → Option Dinode
  live : Ino → Bool

/-- The stages before the type is zero on disk. -/
@[grind] def FreeStage.early : FreeStage → Bool
  | .locked | .emptied | .flushed | .zeroed => true
  | .written | .invalid | .unlocked => false

namespace Itable

/-- The record before a run. -/
def allocs (s : Itable) : Allocs where
  gen _ := 0
  loaded _ := 0
  fresh _ := none
  live i := decide ((s.disk i).type ≠ 0)

/-- Record a step. -/
def note (s : Itable) (a : ItableAct) (h : Allocs) : Allocs :=
  match a with
  | .ialloc _ i type => {
      h with
      gen := Function.update h.gen i (h.gen i + 1)
      fresh := Function.update h.fresh i (some (.new type))
      live := Function.update h.live i true }
  | .load _ e => {
      h with
      loaded := Function.update h.loaded e (h.gen (s.inode e).id)
      fresh := Function.update h.fresh (s.inode e).id none }
  | .iputNext p =>
    match s.pc p with
    | .freeing e .zeroed => { h with live := Function.update h.live (s.inode e).id false }
    | _ => h
  | _ => h

/-- What a step with the allocations so far must satisfy:

    * the first `ilock` after `ialloc` finds the entry not valid,
    * and then reads the dinode that `ialloc` wrote;
    * `iupdate` writes only a copy that was read after the last allocation,
    * also in `iput`, where it frees only an inode that is allocated. -/
def ReallocOk (h : Allocs) (s : Itable) (a : ItableAct) (t : Itable) : Prop :=
  match a with
  | .ilock _ _ e => h.fresh (s.inode e).id ≠ none → (s.inode e).valid = false
  | .load _ e => ∀ d, h.fresh (s.inode e).id = some d → (t.inode e).d = d
  | .iupdate _ e => h.loaded e = h.gen (s.inode e).id
  | .iputNext p =>
    match s.pc p with
    | .freeing e .emptied => h.loaded e = h.gen (s.inode e).id
    | .freeing e .zeroed =>
      h.loaded e = h.gen (s.inode e).id ∧ h.live (s.inode e).id = true
    | _ => True
  | _ => True

/-! ## The copies in the table -/

variable {s t : Itable} {p q : Fin nproc} {g g' : Finset (Fin nproc)} {e e' : Fin ninode}
  {i j : Ino} {d : Dinode} {c : InodePc} {st : FreeStage} {n : ℕ} {h : Allocs}

/-- An `iput` is freeing `e`, and is at the stage `st`. -/
def At (s : Itable) (e : Fin ninode) (st : FreeStage) : Prop := ∃ p, s.pc p = .freeing e st

@[grind =] theorem at_set {f : Inode → Inode} : (s.set e f).At e' st ↔ s.At e' st := Iff.rfl
@[grind =] theorem at_write : (s.write i d).At e st ↔ s.At e st := Iff.rfl
@[grind =] theorem at_setHeld : (s.setHeld g e n).At e' st ↔ s.At e' st := Iff.rfl
@[grind =] theorem at_pass : (s.pass g g' e).At e' st ↔ s.At e' st := Iff.rfl

theorem At.goto (ha : s.At e st) (hp : s.pc p ≠ .freeing e st) : (s.goto p c).At e st := by
  obtain ⟨q, hq⟩ := ha
  refine ⟨q, ?_⟩
  grind

theorem At.stage : (s.goto p (.freeing e st)).At e st := ⟨p, by grind⟩

/-- The references of `g` to `e` are that of an `iput` that has freed the inode. -/
def Late (s : Itable) (g : Finset (Fin nproc)) (e : Fin ninode) : Prop :=
  ∃ p st, g = {p} ∧ s.pc p = .freeing e st ∧ st.early = false

@[grind =] theorem late_set {f : Inode → Inode} : (s.set e f).Late g e' ↔ s.Late g e' := Iff.rfl
@[grind =] theorem late_write : (s.write i d).Late g e ↔ s.Late g e := Iff.rfl
@[grind =] theorem late_setHeld : (s.setHeld g e n).Late g' e' ↔ s.Late g' e' := Iff.rfl

@[grind =] theorem late_pass {k : Finset (Fin nproc)} : (s.pass g g' e).Late k e' ↔ s.Late k e' :=
  Iff.rfl

/-- A late reference stays late when its process takes another step. -/
theorem Late.goto (hl : s.Late g e) (hp : ∀ st, s.pc p = .freeing e st →
      st.early = true ∨ ∃ st', c = .freeing e st' ∧ st'.early = false) : (s.goto p c).Late g e := by
  obtain ⟨q, st, rfl, hq, hst⟩ := hl
  by_cases hqp : q = p
  · subst hqp
    rcases hp st hq with he | ⟨st', hc, he⟩
    · rw [hst] at he
      cases he
    · refine ⟨q, st', rfl, ?_, he⟩
      grind
  · refine ⟨q, st, rfl, ?_, hst⟩
    grind

/-- The invariant:

    * an `iput` that is freeing an inode has its last reference;
    * a reference is to an allocated inode, or late; also when `ialloc` is about to call `iget`;
    * the copies of inodes that nobody has locked are those on disk;
    * a copy was read after the last allocation, unless it is that of an `iput` that has freed
      the inode, and is about to reset `valid`. -/
structure Inv (s : Itable) (h : Allocs) : Prop where
  refs : s.Refs
  early : ∀ p e st, s.pc p = .freeing e st → st.early = true →
    (s.inode e).ref = 1 ∧ (s.inode e).valid = true ∧ (s.inode e).d.nlink = 0 ∧
      (s.disk (s.inode e).id).nlink = 0
  zeroed : ∀ p e, s.pc p = .freeing e .zeroed → (s.inode e).d.type = 0
  invalid : ∀ p e, s.pc p = .freeing e .invalid → (s.inode e).valid = false
  allocated : ∀ g e, 0 < s.held g e → s.Late g e ∨ (s.disk (s.inode e).id).type ≠ 0
  alloced : ∀ p i, s.pc p = .alloced i → (s.disk i).type ≠ 0 ∧ (s.disk i).nlink = 0 ∧
    ∀ g e, 0 < s.held g e → (s.inode e).id = i → s.Late g e
  alone : ∀ p q i, s.pc p = .alloced i → s.pc q = .alloced i → p = q
  free : ∀ i, (s.disk i).type = 0 → (s.disk i).nlink = 0
  sync : ∀ e, 0 < (s.inode e).ref → (s.inode e).valid = true → (s.inode e).lock = none →
    (s.inode e).d = s.disk (s.inode e).id
  copy : ∀ e, 0 < (s.inode e).ref → (s.inode e).valid = true → s.At e .written ∨
    (s.disk (s.inode e).id).type ≠ 0 ∧ h.loaded e = h.gen (s.inode e).id ∧
      ((s.inode e).d.type ≠ 0 ∨ s.At e .zeroed)
  fresh : ∀ i d, h.fresh i = some d → s.disk i = d ∧ ∀ e, 0 < (s.inode e).ref →
    (s.inode e).id = i → (s.inode e).valid = true → s.At e .written
  live : ∀ i, h.live i = decide ((s.disk i).type ≠ 0)

namespace Inv

/-- An `iput` that has not freed its inode yet is alone. -/
theorem early_alone (hi : s.Inv h) (hp : s.pc p = .freeing e st) (hst : st.early = true) :
    (∀ g, 0 < s.held g e → g = {p}) ∧ ∀ q st', s.pc q = .freeing e st' → q = p := by
  obtain ⟨href, -⟩ := hi.early p e st hp hst
  have h₁ : s.total e = 1 := (hi.refs.ref e).symm.trans href
  have hpp := (hi.refs.freeing p e st hp).1
  have hg : ∀ g, 0 < s.held g e → g = {p} := fun g hg => eq_of_total h₁ (by omega) hg
  refine ⟨hg, fun q st' hq => Finset.singleton_injective (hg {q} ?_)⟩
  rw [(hi.refs.freeing q e st' hq).1]
  exact Nat.one_pos

/-- The inode of a process that has locked it, and is not in `iput`, is allocated. -/
theorem type_of_lock (hi : s.Inv h) (hl : (s.inode e).lock = some p) (hp : s.pc p = .idle) :
    0 < (s.inode e).ref ∧ (s.disk (s.inode e).id).type ≠ 0 := by
  obtain ⟨g, hpg, hg⟩ := hi.refs.lock e p hl
  refine ⟨hi.refs.ref_pos hg, (hi.allocated g e hg).resolve_left ?_⟩
  rintro ⟨q, st, rfl, hq, -⟩
  rw [Finset.mem_singleton.1 hpg, hq] at hp
  cases hp

/-! ### Calls of a process that is not in `iput` -/

theorem ialloc {type : Int16} (hi : s.Inv h) (hp : s.pc p = .idle) (hd : (s.disk i).type = 0)
    (ht : type ≠ 0) :
    Inv ((s.write i (.new type)).goto p (.alloced i)) (s.note (.ialloc p i type) h) := by
  -- The references to `i` are late, and a copy of it is about to be reset.
  have hold : ∀ g e, 0 < s.held g e → (s.inode e).id = i → s.Late g e := by
    intro g e hg he
    refine (hi.allocated g e hg).resolve_right ?_
    rw [he, hd]
    exact fun hne => hne rfl
  have hnew : (Dinode.new type).type = type ∧ (Dinode.new type).nlink = 0 := ⟨rfl, rfl⟩
  have hlocked : ∀ e, s.At e .written → (s.inode e).lock ≠ none := by
    rintro e ⟨q, hq⟩ hl
    rw [hi.refs.lock_of_stage hq FreeStage.noConfusion] at hl
    cases hl
  have hat : ∀ e st, s.At e st → ((s.write i (.new type)).goto p (.alloced i)).At e st := by
    intro e st ha
    refine At.goto (s := s.write i _) ha ?_
    grind
  have hlate : ∀ g e, s.Late g e → ((s.write i (.new type)).goto p (.alloced i)).Late g e := by
    intro g e hl
    refine Late.goto (s := s.write i _) hl ?_
    grind
  have hrefs := hi.refs.write.goto (s := s.write i (.new type)) (p := p) (c := .alloced i) (by simp)
  unfold note
  refine ⟨hrefs, ?_, ?_, ?_, ?_, ?_, ?_, ?_, ?_, ?_, ?_, ?_⟩
  · grind [hi.early]
  · grind [hi.zeroed]
  · grind [hi.invalid]
  · grind [hi.allocated]
  · grind [hi.alloced]
  · grind [hi.alone, hi.alloced]
  · grind [hi.free]
  · grind [hi.sync, hi.copy]
  · grind [hi.copy]
  · grind [hi.fresh, hi.copy]
  · grind [hi.live]

theorem ilock (hi : s.Inv h) (hp : s.pc p = .idle) (hg : p ∈ g) (hh : 0 < s.held g e)
    (hl : (s.inode e).lock = none) :
    Inv (s.set e fun x => { x with lock := some p }) h := by
  have hrefs := hi.refs.set (e := e) (f := fun x => { x with lock := some p }) rfl rfl
    (by grind) (by grind [hi.refs.locked])
  refine ⟨hrefs, ?_, ?_, ?_, ?_, ?_, hi.alone, hi.free, ?_, ?_, ?_, hi.live⟩
  · grind [hi.early]
  · grind [hi.zeroed]
  · grind [hi.invalid]
  · grind [hi.allocated]
  · grind [hi.alloced]
  · grind [hi.sync]
  · grind [hi.copy]
  · grind [hi.fresh]

theorem load (hi : s.Inv h) (hp : s.pc p = .idle) (hl : (s.inode e).lock = some p)
    (hv : (s.inode e).valid = false) :
    Inv (s.set e fun x => { x with valid := true, d := s.disk x.id }) (s.note (.load p e) h) := by
  have hrefs := hi.refs.set_of_lock (e := e)
    (f := fun x => { x with valid := true, d := s.disk x.id }) rfl rfl rfl
  obtain ⟨-, htype⟩ := hi.type_of_lock hl hp
  have hstage : ∀ q st, s.pc q = .freeing e st → st = .unlocked := fun _ _ => hi.refs.stage hl hp
  have hun := hi.refs.unique
  unfold Unique at hun
  unfold note
  refine ⟨hrefs, ?_, ?_, ?_, ?_, ?_, hi.alone, hi.free, ?_, ?_, ?_, hi.live⟩
  · grind [hi.early]
  · grind [hi.zeroed]
  · grind [hi.invalid]
  · grind [hi.allocated]
  · grind [hi.alloced]
  · grind [hi.sync]
  · grind [hi.copy]
  · grind [hi.fresh]

theorem change (hi : s.Inv h) (hp : s.pc p = .idle) (hl : (s.inode e).lock = some p)
    (ht : d.type = (s.inode e).d.type) : Inv (s.set e fun x => { x with d }) h := by
  have hrefs := hi.refs.set_of_lock (e := e) (f := fun x => { x with d }) rfl rfl rfl
  have hstage : ∀ q st, s.pc q = .freeing e st → st = .unlocked := fun _ _ => hi.refs.stage hl hp
  refine ⟨hrefs, ?_, ?_, ?_, ?_, ?_, hi.alone, hi.free, ?_, ?_, ?_, hi.live⟩
  · grind [hi.early]
  · grind [hi.zeroed]
  · grind [hi.invalid]
  · grind [hi.allocated]
  · grind [hi.alloced]
  · grind [hi.sync]
  · grind [hi.copy]
  · grind [hi.fresh]

theorem iunlock (hi : s.Inv h) (hp : s.pc p = .idle) (hl : (s.inode e).lock = some p)
    (hd : (s.inode e).d = s.disk (s.inode e).id) :
    Inv (s.set e fun x => { x with lock := none }) h := by
  have hrefs := hi.refs.set (e := e) (f := fun x => { x with lock := none }) rfl rfl
    (by grind) (by grind [hi.refs.stage hl hp])
  refine ⟨hrefs, ?_, ?_, ?_, ?_, ?_, hi.alone, hi.free, ?_, ?_, ?_, hi.live⟩
  · grind [hi.early]
  · grind [hi.zeroed]
  · grind [hi.invalid]
  · grind [hi.allocated]
  · grind [hi.alloced]
  · grind [hi.sync]
  · grind [hi.copy]
  · grind [hi.fresh]

theorem iupdate (hi : s.Inv h) (hp : s.pc p = .idle) (hl : (s.inode e).lock = some p)
    (hv : (s.inode e).valid = true) : Inv (s.iupdate e) h := by
  obtain ⟨href, htype⟩ := hi.type_of_lock hl hp
  have hcopy := hi.copy e href hv
  have hrefs := hi.refs.write (i := (s.inode e).id) (d := (s.inode e).d)
  have hat : ∀ st, st ≠ .unlocked → ¬s.At e st := by
    rintro st hst ⟨q, hq⟩
    exact hst (hi.refs.stage hl hp hq)
  have hlate : ∀ g, p ∈ g → ¬s.Late g e := by
    rintro g hpg ⟨q, st, rfl, hq, -⟩
    grind
  obtain ⟨g, hpg, hg⟩ := hi.refs.lock e p hl
  have hun := hi.refs.unique
  unfold Unique at hun
  unfold Itable.iupdate
  refine ⟨hrefs, ?_, hi.zeroed, hi.invalid, ?_, ?_, hi.alone, ?_, ?_, ?_, ?_, ?_⟩
  · grind [hi.early]
  · grind [hi.allocated]
  · grind [hi.alloced]
  · grind [hi.free]
  · grind [hi.sync]
  · grind [hi.copy]
  · grind [hi.fresh]
  · grind [hi.live]

/-- A reference to an entry in use. -/
theorem gain (hi : s.Inv h) (hq : s.pc q = .idle) (he : 0 < (s.inode e).ref)
    (ht : (s.disk (s.inode e).id).type ≠ 0)
    (hst : ∀ p st, s.pc p = .freeing e st → st.early = false)
    (hne : ∀ p, s.pc p ≠ .alloced (s.inode e).id) :
    Inv ((s.set e fun x => { x with ref := x.ref + 1 }).gain q e) h := by
  have hrefs := hi.refs.gain hq he
  unfold Itable.gain at *
  refine ⟨hrefs, ?_, ?_, ?_, ?_, ?_, hi.alone, hi.free, ?_, ?_, ?_, hi.live⟩
  · grind [hi.early]
  · grind [hi.zeroed]
  · grind [hi.invalid]
  · grind [hi.allocated]
  · grind [hi.alloced]
  · grind [hi.sync]
  · grind [hi.copy]
  · grind [hi.fresh]

/-- A reference to a new entry. -/
theorem new (hi : s.Inv h) (hq : s.pc q = .idle) (he : (s.inode e).ref = 0)
    (hid : ∀ e, 0 < (s.inode e).ref → (s.inode e).id ≠ i) (ht : (s.disk i).type ≠ 0)
    (hne : ∀ p, s.pc p ≠ .alloced i) :
    Inv ((s.set e fun x => { x with id := i, ref := 1, valid := false }).gain q e) h := by
  have hrefs := hi.refs.new hq he hid
  have h₀ : s.total e = 0 := (hi.refs.ref e).symm.trans he
  have hg : ∀ g, s.held g e = 0 := fun g => Nat.le_zero.1 (h₀ ▸ s.held_le_total g e)
  have hfreeing := hi.refs.freeing
  unfold Itable.gain at *
  refine ⟨hrefs, ?_, ?_, ?_, ?_, ?_, hi.alone, hi.free, ?_, ?_, ?_, hi.live⟩
  · grind [hi.early]
  · grind [hi.zeroed]
  · grind [hi.invalid]
  · grind [hi.allocated]
  · grind [hi.alloced]
  · grind [hi.sync]
  · grind [hi.copy]
  · grind [hi.fresh]

/-- A reference is given up, and the inode is not freed. -/
theorem unref (hi : s.Inv h) (hp : s.pc p = .idle) (hh : 0 < s.held {p} e)
    (hl : (s.inode e).lock = some p → 2 ≤ s.held {p} e) : Inv (s.unref p e) h := by
  have hrefs := hi.refs.unref hh (fun st => by simp [hp]) hl
  have hne : ∀ q st, s.pc q = .freeing e st → st.early = false := by
    intro q st hq
    by_contra hst
    have := (hi.early_alone hq (eq_true_of_ne_false hst)).1 {p} hh
    rw [Finset.singleton_injective this, hq] at hp
    cases hp
  have hfreeing := hi.refs.freeing
  unfold Itable.unref lose at *
  refine ⟨hrefs, ?_, ?_, ?_, ?_, ?_, hi.alone, hi.free, ?_, ?_, ?_, hi.live⟩
  · grind [hi.early]
  · grind [hi.zeroed]
  · grind [hi.invalid]
  · grind [hi.allocated]
  · grind [hi.alloced]
  · grind [hi.sync]
  · grind [hi.copy]
  · grind [hi.fresh]

theorem pass (hi : s.Inv h) (hrefs : Refs (s.pass g g' e)) (hg : 0 < s.held g e)
    (hl : ¬s.Late g e) : Inv (s.pass g g' e) h := by
  refine ⟨hrefs, hi.early, hi.zeroed, hi.invalid, ?_, ?_, hi.alone, hi.free, hi.sync, hi.copy,
    hi.fresh, hi.live⟩
  · grind [hi.allocated]
  · grind [hi.alloced]

/-! ### Freeing an inode -/

/-- `iput` has found the last reference. -/
theorem iput (hi : s.Inv h) (hp : s.pc p = .idle) (hh : 0 < s.held {p} e)
    (hr : (s.inode e).ref = 1) (hv : (s.inode e).valid = true) (hn : (s.inode e).d.nlink = 0)
    (hl : (s.inode e).lock = none) :
    Inv ((s.set e fun x => { x with lock := some p }).goto p (.freeing e .locked)) h := by
  have h₁ : s.total e = 1 := (hi.refs.ref e).symm.trans hr
  have hpp : s.held {p} e = 1 := le_antisymm (h₁ ▸ s.held_le_total {p} e) hh
  have hrefs := hi.refs.set (e := e) (f := fun x => { x with lock := some p }) rfl rfl
    (by grind) (by grind [hi.refs.locked])
  have hrefs := hrefs.goto (p := p) (c := .freeing e .locked) fun e' st hc => by
    cases hc
    exact ⟨⟨hpp, fun g _ hg => eq_of_total h₁ hh hg⟩, by simp [set_inode]⟩
  have hat : ∀ e' st, s.At e' st →
      ((s.set e fun x => { x with lock := some p }).goto p (.freeing e .locked)).At e' st := by
    intro e' st ha
    refine At.goto (s := s.set e _) ha ?_
    grind
  have hlate : ∀ g e', s.Late g e' →
      ((s.set e fun x => { x with lock := some p }).goto p (.freeing e .locked)).Late g e' := by
    intro g e' hl
    refine Late.goto (s := s.set e _) hl ?_
    grind
  -- The copy is the dinode on disk, which is allocated and has no links.
  have hsynced := hi.sync e (by omega) hv hl
  have hno : ∀ st, st ≠ .unlocked → ¬s.At e st := by
    rintro st hst ⟨q, hq⟩
    rw [hi.refs.lock_of_stage hq hst] at hl
    cases hl
  refine ⟨hrefs, ?_, ?_, ?_, ?_, ?_, ?_, hi.free, ?_, ?_, ?_, hi.live⟩
  · grind [hi.early]
  · grind [hi.zeroed]
  · grind [hi.invalid]
  · grind [hi.allocated]
  · grind [hi.alloced]
  · grind [hi.alone]
  · grind [hi.sync]
  · grind [hi.copy]
  · grind [hi.fresh]

/-- The next stage of `iput`, as far as references are concerned. -/
theorem stage_refs {f : Inode → Inode} {st' : FreeStage} (hi : s.Inv h) (hp : s.pc p = .freeing e st)
    (hst : st ≠ .unlocked) (hst' : st' ≠ .unlocked) (hid : (f (s.inode e)).id = (s.inode e).id)
    (hr : (f (s.inode e)).ref = (s.inode e).ref) (hl : (f (s.inode e)).lock = (s.inode e).lock) :
    Refs ((s.set e f).goto p (.freeing e st')) := by
  refine (hi.refs.set_of_lock hid hr hl).goto fun e' st₀ hc => ?_
  cases hc
  refine ⟨hi.refs.freeing p e st hp, ?_⟩
  rw [set_inode, if_pos rfl, hl, iff_true_right hst']
  exact hi.refs.lock_of_stage hp hst

/-- `itrunc` empties the inode in memory. -/
theorem itrunc (hi : s.Inv h) (hp : s.pc p = .freeing e .locked) :
    Inv ((s.set e fun x => { x with d := x.d.emptied }).goto p (.freeing e .emptied)) h := by
  have hrefs : Refs ((s.set e fun x => { x with d := x.d.emptied }).goto p (.freeing e .emptied)) :=
    hi.stage_refs hp (by simp) (by simp) rfl rfl rfl
  obtain ⟨-, hone⟩ := hi.early_alone hp rfl
  have hemp : ∀ d : Dinode, d.emptied.type = d.type ∧ d.emptied.nlink = d.nlink := fun _ => ⟨rfl, rfl⟩
  have hat : ∀ e' st, s.At e' st → st ≠ .locked →
      ((s.set e fun x => { x with d := x.d.emptied }).goto p (.freeing e .emptied)).At e' st := by
    intro e' st ha hst
    refine At.goto (s := s.set e _) ha ?_
    grind
  have hlate : ∀ g e', s.Late g e' →
      ((s.set e fun x => { x with d := x.d.emptied }).goto p (.freeing e .emptied)).Late g e' := by
    intro g e' hl
    refine Late.goto (s := s.set e _) hl ?_
    grind
  have hlocked := hi.refs.locked
  refine ⟨hrefs, ?_, ?_, ?_, ?_, ?_, ?_, hi.free, ?_, ?_, ?_, hi.live⟩
  · grind [hi.early]
  · grind [hi.zeroed]
  · grind [hi.invalid]
  · grind [hi.allocated]
  · grind [hi.alloced]
  · grind [hi.alone]
  · grind [hi.sync]
  · grind [hi.copy]
  · grind [hi.fresh]

/-- `itrunc` calls `iupdate`. -/
theorem itruncUpdate (hi : s.Inv h) (hp : s.pc p = .freeing e .emptied) :
    Inv ((s.iupdate e).goto p (.freeing e .flushed)) h := by
  have hrefs : Refs ((s.iupdate e).goto p (.freeing e .flushed)) :=
    hi.refs.write.goto (s := s.iupdate e) fun e' st hc => by
      cases hc
      exact ⟨hi.refs.freeing p e _ hp, iff_of_true (hi.refs.lock_of_stage hp (by simp)) (by simp)⟩
  obtain ⟨hrefs₁, hone⟩ := hi.early_alone hp rfl
  have hat : ∀ e' st, s.At e' st → st ≠ .emptied →
      ((s.iupdate e).goto p (.freeing e .flushed)).At e' st := by
    intro e' st ha hst
    refine At.goto (s := s.write _ _) ha ?_
    grind
  have hlate : ∀ g e', s.Late g e' → ((s.iupdate e).goto p (.freeing e .flushed)).Late g e' := by
    intro g e' hl
    refine Late.goto (s := s.write _ _) hl ?_
    grind
  have hno : ∀ st, st ≠ .emptied → ¬s.At e st := by
    rintro st hst ⟨q, hq⟩
    grind
  have hearly' : ¬s.Late {p} e := by
    rintro ⟨q, st, hq, hpc, hst⟩
    grind
  have hpp := (hi.refs.freeing p e _ hp).1
  obtain ⟨href, hv, hnlink⟩ := hi.early p e _ hp rfl
  have hcopy := hi.copy e (by omega) hv
  have hun := hi.refs.unique
  have hlocked := hi.refs.locked
  unfold Unique at hun
  unfold Itable.iupdate at *
  refine ⟨hrefs, ?_, ?_, ?_, ?_, ?_, ?_, ?_, ?_, ?_, ?_, ?_⟩
  · grind [hi.early]
  · grind [hi.zeroed]
  · grind [hi.invalid]
  · grind [hi.allocated]
  · grind [hi.alloced]
  · grind [hi.alone]
  · grind [hi.free]
  · grind [hi.sync]
  · grind [hi.copy]
  · grind [hi.fresh]
  · grind [hi.live]

/-- The type is zero in memory. -/
theorem zero (hi : s.Inv h) (hp : s.pc p = .freeing e .flushed) :
    Inv ((s.set e fun x => { x with d := { x.d with type := 0 } }).goto p (.freeing e .zeroed)) h := by
  have hrefs : Refs ((s.set e fun x => { x with d := { x.d with type := 0 } }).goto p
      (.freeing e .zeroed)) := hi.stage_refs hp (by simp) (by simp) rfl rfl rfl
  obtain ⟨-, hone⟩ := hi.early_alone hp rfl
  have hat : ∀ e' st, s.At e' st → st ≠ .flushed → ((s.set e fun x =>
      { x with d := { x.d with type := 0 } }).goto p (.freeing e .zeroed)).At e' st := by
    intro e' st ha hst
    refine At.goto (s := s.set e _) ha ?_
    grind
  have hlate : ∀ g e', s.Late g e' → ((s.set e fun x =>
      { x with d := { x.d with type := 0 } }).goto p (.freeing e .zeroed)).Late g e' := by
    intro g e' hl
    refine Late.goto (s := s.set e _) hl ?_
    grind
  have hstage : ((s.set e fun x =>
      { x with d := { x.d with type := 0 } }).goto p (.freeing e .zeroed)).At e .zeroed := .stage
  have hlocked := hi.refs.locked
  refine ⟨hrefs, ?_, ?_, ?_, ?_, ?_, ?_, hi.free, ?_, ?_, ?_, hi.live⟩
  · grind [hi.early]
  · grind [hi.zeroed]
  · grind [hi.invalid]
  · grind [hi.allocated]
  · grind [hi.alloced]
  · grind [hi.alone]
  · grind [hi.sync]
  · grind [hi.copy]
  · grind [hi.fresh]

/-- The type is zero on disk: from here on the number can be allocated again. -/
theorem freeUpdate (hi : s.Inv h) (hp : s.pc p = .freeing e .zeroed) :
    Inv ((s.iupdate e).goto p (.freeing e .written)) (s.note (.iputNext p) h) := by
  have hrefs : Refs ((s.iupdate e).goto p (.freeing e .written)) :=
    hi.refs.write.goto (s := s.iupdate e) fun e' st hc => by
      cases hc
      exact ⟨hi.refs.freeing p e _ hp, iff_of_true (hi.refs.lock_of_stage hp (by simp)) (by simp)⟩
  obtain ⟨hrefs₁, hone⟩ := hi.early_alone hp rfl
  have hat : ∀ e' st, s.At e' st → st ≠ .zeroed ∨ e' ≠ e →
      ((s.iupdate e).goto p (.freeing e .written)).At e' st := by
    intro e' st ha hst
    refine At.goto (s := s.write _ _) ha ?_
    grind
  have hlate : ∀ g e', s.Late g e' → ((s.iupdate e).goto p (.freeing e .written)).Late g e' := by
    intro g e' hl
    refine Late.goto (s := s.write _ _) hl ?_
    grind
  have hstage : ((s.iupdate e).goto p (.freeing e .written)).At e .written := .stage
  have hlast : ((s.iupdate e).goto p (.freeing e .written)).Late {p} e :=
    ⟨p, .written, rfl, by grind, rfl⟩
  have hno : ∀ st, st ≠ .zeroed → ¬s.At e st := by
    rintro st hst ⟨q, hq⟩
    grind
  have hearly' : ¬s.Late {p} e := by
    rintro ⟨q, st, hq, hpc, hst⟩
    grind
  -- The other references to the inode are to the same entry, and so there are none.
  have hentry : ∀ g e', 0 < s.held g e' → (s.inode e').id = (s.inode e).id → e' = e := by
    intro g e' hg hid
    have hpos := (hi.early p e _ hp rfl).1
    exact hi.refs.unique e' e (hi.refs.ref_pos hg) (by omega) hid
  have hpp := (hi.refs.freeing p e _ hp).1
  obtain ⟨href, hv, hnlink⟩ := hi.early p e _ hp rfl
  have hcopy := hi.copy e (by omega) hv
  have hzero := hi.zeroed p e hp
  have hun := hi.refs.unique
  have hlocked := hi.refs.locked
  unfold Unique at hun
  unfold note
  simp only [hp]
  unfold Itable.iupdate at *
  refine ⟨hrefs, ?_, ?_, ?_, ?_, ?_, ?_, ?_, ?_, ?_, ?_, ?_⟩
  · grind [hi.early]
  · grind [hi.zeroed]
  · grind [hi.invalid]
  · grind [hi.allocated]
  · grind [hi.alloced]
  · grind [hi.alone]
  · grind [hi.free]
  · grind [hi.sync]
  · grind [hi.copy]
  · grind [hi.fresh]
  · grind [hi.live]

/-- `valid` is reset. -/
theorem invalidate (hi : s.Inv h) (hp : s.pc p = .freeing e .written) :
    Inv ((s.set e fun x => { x with valid := false }).goto p (.freeing e .invalid)) h := by
  have hrefs : Refs ((s.set e fun x => { x with valid := false }).goto p (.freeing e .invalid)) :=
    hi.stage_refs hp (by simp) (by simp) rfl rfl rfl
  have hone : ∀ q st, s.pc q = .freeing e st → st ≠ .unlocked → q = p := by
    intro q st hq hst
    have h₁ := hi.refs.lock_of_stage hq hst
    rw [hi.refs.lock_of_stage hp FreeStage.noConfusion] at h₁
    exact (Option.some.inj h₁).symm
  have hat : ∀ e' st, s.At e' st → e' ≠ e →
      ((s.set e fun x => { x with valid := false }).goto p (.freeing e .invalid)).At e' st := by
    intro e' st ha hst
    refine At.goto (s := s.set e _) ha ?_
    grind
  have hlate : ∀ g e', s.Late g e' →
      ((s.set e fun x => { x with valid := false }).goto p (.freeing e .invalid)).Late g e' := by
    intro g e' hl
    refine Late.goto (s := s.set e _) hl ?_
    grind
  refine ⟨hrefs, ?_, ?_, ?_, ?_, ?_, ?_, hi.free, ?_, ?_, ?_, hi.live⟩
  · grind [hi.early]
  · grind [hi.zeroed]
  · grind [hi.invalid]
  · grind [hi.allocated]
  · grind [hi.alloced]
  · grind [hi.alone]
  · grind [hi.sync]
  · grind [hi.copy]
  · grind [hi.fresh]

theorem releasesleep (hi : s.Inv h) (hp : s.pc p = .freeing e .invalid) :
    Inv ((s.set e fun x => { x with lock := none }).goto p (.freeing e .unlocked)) h := by
  have hrefs : Refs ((s.set e fun x => { x with lock := none }).goto p (.freeing e .unlocked)) := by
    obtain ⟨href, hun, hlock, hfreeing, hlocked⟩ := hi.refs
    refine ⟨fun e' => ?_, ?_, ?_, ?_, ?_⟩
    · rw [goto_total, set_total, ← href]
      grind
    · unfold Unique at *
      grind
    · grind
    · grind
    · grind
  have hat : ∀ e' st, s.At e' st → st ≠ .invalid →
      ((s.set e fun x => { x with lock := none }).goto p (.freeing e .unlocked)).At e' st := by
    intro e' st ha hst
    refine At.goto (s := s.set e _) ha ?_
    grind
  have hlate : ∀ g e', s.Late g e' →
      ((s.set e fun x => { x with lock := none }).goto p (.freeing e .unlocked)).Late g e' := by
    intro g e' hl
    refine Late.goto (s := s.set e _) hl ?_
    grind
  refine ⟨hrefs, ?_, ?_, ?_, ?_, ?_, ?_, hi.free, ?_, ?_, ?_, hi.live⟩
  · grind [hi.early]
  · grind [hi.zeroed]
  · grind [hi.invalid]
  · grind [hi.allocated]
  · grind [hi.alloced]
  · grind [hi.alone]
  · grind [hi.sync, hi.invalid]
  · grind [hi.copy]
  · grind [hi.fresh]

/-- The end of `iput`. -/
theorem iputEnd (hi : s.Inv h) (hp : s.pc p = .freeing e .unlocked) :
    Inv ((s.unref p e).goto p .idle) h := by
  obtain ⟨hpp, hself⟩ := hi.refs.freeing p e _ hp
  have hl : (s.inode e).lock ≠ some p := by
    rw [Ne, hi.refs.locked p e _ hp]
    simp
  have hrefs : Refs ((s.unref p e).goto p .idle) :=
    (hi.refs.goto (p := p) (c := .idle) (by simp)).unref (hpp ▸ Nat.one_pos) (by simp [goto_pc])
      fun h => absurd h hl
  have hne : ∀ q st, s.pc q = .freeing e st → st.early = false := by
    intro q st hq
    by_contra hst
    have := (hi.early_alone hq (eq_true_of_ne_false hst)).2 p _ hp
    rw [← this, hp] at hq
    cases hq
    exact hst rfl
  have hat : ∀ e' st, s.At e' st → st ≠ .unlocked → ((s.unref p e).goto p .idle).At e' st := by
    intro e' st ha hst
    refine At.goto (s := s.unref p e) ha ?_
    unfold Itable.unref lose
    grind
  have hlate : ∀ g e', s.Late g e' → g ≠ {p} ∨ e' ≠ e →
      ((s.unref p e).goto p .idle).Late g e' := by
    rintro g e' ⟨q, st, rfl, hq, hst⟩ hne
    refine ⟨q, st, rfl, ?_, hst⟩
    unfold Itable.unref lose
    grind
  have hfreeing := hi.refs.freeing
  unfold Itable.unref lose at *
  refine ⟨hrefs, ?_, ?_, ?_, ?_, ?_, ?_, hi.free, ?_, ?_, ?_, hi.live⟩
  · grind [hi.early]
  · grind [hi.zeroed]
  · grind [hi.invalid]
  · grind [hi.allocated]
  · grind [hi.alloced]
  · grind [hi.alone]
  · grind [hi.sync]
  · grind [hi.copy]
  · grind [hi.fresh]

/-! ### A step -/

/-- The reference of a process that is not in `iput` is not late. -/
theorem not_late (hp : s.pc p = .idle) (hg : p ∈ g) : ¬s.Late g e := by
  rintro ⟨q, st, rfl, hq, -⟩
  rw [Finset.mem_singleton.1 hg, hq] at hp
  cases hp

/-- `iget` of an inode that is allocated, and that no `ialloc` or `iput` is working on. -/
theorem iget (hi : s.Inv h) (hp : s.pc p = .idle) (ht : (s.disk i).type ≠ 0)
    (hne : ∀ q, s.pc q ≠ .alloced i)
    (hst : ∀ e q st, (s.inode e).id = i → s.pc q = .freeing e st → st.early = false)
    (hs : s.iget p i = some t) : Inv t h := by
  unfold Itable.iget at hs
  split at hs
  · rename_i e he
    have hfound := List.find?_some he
    obtain ⟨href, rfl⟩ := of_decide_eq_true hfound
    cases hs
    exact hi.gain hp href ht (fun q st => hst e q st rfl) hne
  · rename_i hnone
    have hid : ∀ e, 0 < (s.inode e).ref → (s.inode e).id ≠ i := by
      intro e href he
      have := List.find?_eq_none.1 hnone e (List.mem_finRange e)
      exact this (decide_eq_true ⟨href, he⟩)
    split at hs
    · rename_i e he
      cases hs
      have hfound := List.find?_some he
      exact hi.new hp (of_decide_eq_true hfound) hid ht hne
    · cases hs

/-- `ialloc` calls `iget`. -/
theorem iallocGet (hi : s.Inv h) (hp : s.pc p = .alloced i)
    (hs : (s.goto p .idle).iget p i = some t) : Inv t h := by
  obtain ⟨htype, -, hlate⟩ := hi.alloced p i hp
  have hat : ∀ e st, s.At e st → (s.goto p .idle).At e st := by
    intro e st ha
    refine ha.goto ?_
    grind
  have hlate' : ∀ g e, s.Late g e → (s.goto p .idle).Late g e := by
    intro g e hl
    refine hl.goto ?_
    grind
  have hidle : Inv (s.goto p .idle) h := by
    have hrefs := hi.refs.goto (p := p) (c := .idle) (by simp)
    refine ⟨hrefs, ?_, ?_, ?_, ?_, ?_, ?_, hi.free, hi.sync, ?_, ?_, hi.live⟩
    · grind [hi.early]
    · grind [hi.zeroed]
    · grind [hi.invalid]
    · grind [hi.allocated]
    · grind [hi.alloced]
    · grind [hi.alone]
    · grind [hi.copy]
    · grind [hi.fresh]
  refine hidle.iget (by simp [goto_pc]) htype ?_ ?_ hs
  · intro q hq
    have := hi.alone p q i hp
    grind
  · intro e q st hid hq
    have hq : s.pc q = .freeing e st := by grind
    have hheld := (hi.refs.freeing q e st hq).1
    obtain ⟨q', st', hqq, hq', hst'⟩ := hlate {q} e (by omega) hid
    rw [← Finset.singleton_injective hqq, hq] at hq'
    cases hq'
    exact hst'

theorem igetLinked (hi : s.Inv h) (hp : s.pc p = .idle) (hn : 0 < (s.disk i).nlink)
    (hs : s.iget p i = some t) : Inv t h := by
  have hne : (s.disk i).nlink ≠ 0 := fun h₀ => by
    rw [h₀] at hn
    exact absurd hn (by decide)
  refine hi.iget hp (fun h₀ => hne (hi.free i h₀)) (fun q hq => hne (hi.alloced q i hq).2.1) ?_ hs
  intro e q st hid hq
  by_contra hst
  have := (hi.early q e st hq (eq_true_of_ne_false hst)).2.2.2
  rw [hid] at this
  exact hne this

theorem idup (hi : s.Inv h) (hp : s.pc p = .idle) (hq : s.pc q = .idle) (hg : p ∈ g)
    (hh : 0 < s.held g e) : Inv ((s.set e fun x => { x with ref := x.ref + 1 }).gain q e) h := by
  refine hi.gain hq (hi.refs.ref_pos hh) ((hi.allocated g e hh).resolve_left (not_late hp hg)) ?_ ?_
  · intro r st hr
    by_contra hst
    have := (hi.early_alone hr (eq_true_of_ne_false hst)).1 g hh
    rw [this, Finset.mem_singleton] at hg
    rw [hg, hr] at hp
    cases hp
  · intro r hr
    exact not_late hp hg ((hi.alloced r _ hr).2.2 g e hh rfl)

/-- The invariant is kept by the rest of `iput`. -/
theorem iputNext (hi : s.Inv h) (hp : s.pc p = .freeing e st) :
    Inv (s.iputNext p e st) (s.note (.iputNext p) h) := by
  cases st with
  | zeroed => exact hi.freeUpdate hp
  | locked =>
    simp only [note, hp]
    exact hi.itrunc hp
  | emptied =>
    simp only [note, hp]
    exact hi.itruncUpdate hp
  | flushed =>
    simp only [note, hp]
    exact hi.zero hp
  | written =>
    simp only [note, hp]
    exact hi.invalidate hp
  | invalid =>
    simp only [note, hp]
    exact hi.releasesleep hp
  | unlocked =>
    simp only [note, hp]
    exact hi.iputEnd hp

/-- The invariant is kept by every step. -/
theorem step {a : ItableAct} (hi : s.Inv h) (hs : s.exec a = some t) : Inv t (s.note a h) := by
  cases a with
  | ialloc p i type =>
    obtain ⟨⟨hp, hd, ht⟩, hs⟩ := Option.ite_none_right_eq_some.1 hs
    cases hs
    exact hi.ialloc hp hd ht
  | iallocGet p =>
    simp only [exec] at hs
    split at hs
    · rename_i i hp
      exact hi.iallocGet hp hs
    · cases hs
  | iget p i =>
    obtain ⟨⟨hp, hn⟩, hs⟩ := Option.ite_none_right_eq_some.1 hs
    exact hi.igetLinked hp hn hs
  | idup p q g e =>
    obtain ⟨⟨hp, hq, hg, hh⟩, hs⟩ := Option.ite_none_right_eq_some.1 hs
    cases hs
    exact hi.idup hp hq hg hh
  | share p q g e =>
    obtain ⟨⟨hp, hq, hg, hqg, hh⟩, hs⟩ := Option.ite_none_right_eq_some.1 hs
    -- The reference goes from the processes of `g` to those of a larger set, and in `leave` to
    -- those of a smaller one.
    cases hs
    refine hi.pass (hi.refs.pass ?_ hh ?_ ?_ ⟨p, hg, hp⟩) hh (not_late hp hg)
    · exact fun hgg => hqg (hgg ▸ Finset.mem_insert_self q g)
    · exact fun r hr _ => Finset.mem_insert_of_mem hr
    · intro r hr
      rcases Finset.mem_insert.1 hr with rfl | hr
      · exact .inl hq
      · exact .inr hr
  | leave p g e =>
    obtain ⟨⟨hp, hg, hne, hh, hl⟩, hs⟩ := Option.ite_none_right_eq_some.1 hs
    cases hs
    refine hi.pass (hi.refs.pass ?_ hh ?_ ?_ ⟨p, hg, hp⟩) hh (not_late hp hg)
    · exact fun hgg => Finset.notMem_erase p g (hgg ▸ hg)
    · intro r hr hrl
      refine Finset.mem_erase.2 ⟨?_, hr⟩
      rintro rfl
      exact hl hrl
    · exact fun r hr => .inr (Finset.mem_of_mem_erase hr)
  | ilock p g e =>
    obtain ⟨⟨hp, hg, hh, hl⟩, hs⟩ := Option.ite_none_right_eq_some.1 hs
    cases hs
    exact hi.ilock hp hg hh hl
  | load p e =>
    obtain ⟨⟨hp, hl, hv⟩, hs⟩ := Option.ite_none_right_eq_some.1 hs
    cases hs
    exact hi.load hp hl hv
  | change p e d =>
    obtain ⟨⟨hp, hl, hv, ht⟩, hs⟩ := Option.ite_none_right_eq_some.1 hs
    cases hs
    exact hi.change hp hl ht
  | iupdate p e =>
    obtain ⟨⟨hp, hl, hv⟩, hs⟩ := Option.ite_none_right_eq_some.1 hs
    cases hs
    exact hi.iupdate hp hl hv
  | iunlock p e =>
    obtain ⟨⟨hp, hl, hv, hd⟩, hs⟩ := Option.ite_none_right_eq_some.1 hs
    cases hs
    exact hi.iunlock hp hl hd
  | iput p e =>
    obtain ⟨⟨hp, hh, hl⟩, hs⟩ := Option.ite_none_right_eq_some.1 hs
    unfold Itable.iput at hs
    split at hs
    · -- The last reference to an inode without links, which is freed.
      rename_i hlast
      obtain ⟨hr, hv, hn⟩ := hlast
      obtain ⟨hlock, hs⟩ := Option.ite_none_right_eq_some.1 hs
      cases hs
      exact hi.iput hp hh hr hv hn hlock
    · cases hs
      exact hi.unref hp hh hl
  | iputNext p =>
    simp only [exec] at hs
    split at hs
    · rename_i e st hp
      cases hs
      exact hi.iputNext hp
    · cases hs

/-- Every step is as it should be. -/
theorem reallocOk {a : ItableAct} (hi : s.Inv h) (hs : s.exec a = some t) : ReallocOk h s a t := by
  cases a with
  | ilock p g e =>
    obtain ⟨⟨hp, hg, hh, hl⟩, -⟩ := Option.ite_none_right_eq_some.1 hs
    intro hf
    obtain ⟨d, hd⟩ := Option.ne_none_iff_exists'.1 hf
    by_contra hv
    obtain ⟨q, hq⟩ := (hi.fresh _ d hd).2 e (hi.refs.ref_pos hh) rfl (eq_true_of_ne_false hv)
    rw [hi.refs.lock_of_stage hq FreeStage.noConfusion] at hl
    cases hl
  | load p e =>
    obtain ⟨-, hs⟩ := Option.ite_none_right_eq_some.1 hs
    cases hs
    intro d hd
    rw [set_inode, if_pos rfl]
    exact (hi.fresh _ d hd).1
  | iupdate p e =>
    obtain ⟨⟨hp, hl, hv⟩, -⟩ := Option.ite_none_right_eq_some.1 hs
    obtain ⟨href, -⟩ := hi.type_of_lock hl hp
    rcases hi.copy e href hv with ⟨q, hq⟩ | ⟨-, hgen, -⟩
    · exact absurd (hi.refs.stage hl hp hq) FreeStage.noConfusion
    · exact hgen
  | iputNext p =>
    -- The copy of an `iput` that is still freeing its inode.
    have hcopy : ∀ e st, s.pc p = .freeing e st → st.early = true →
        h.loaded e = h.gen (s.inode e).id ∧ h.live (s.inode e).id = true := by
      intro e st hp hst
      obtain ⟨hr, hv, -⟩ := hi.early p e st hp hst
      rcases hi.copy e (by omega) hv with ⟨q, hq⟩ | ⟨htype, hgen, -⟩
      · rw [(hi.early_alone hp hst).2 q _ hq, hp] at hq
        cases hq
        cases hst
      · exact ⟨hgen, (hi.live _).trans (decide_eq_true htype)⟩
    unfold ReallocOk
    dsimp only
    split
    · rename_i e hp
      exact (hcopy e _ hp rfl).1
    · rename_i e hp
      exact hcopy e _ hp rfl
    · trivial
  | _ => trivial

end Inv

theorem inv_init (h₀ : s.Initial) : Inv s s.allocs := by
  have htotal : ∀ e, s.total e = 0 := fun e => Finset.sum_eq_zero fun g _ => h₀.held g e
  have hrefs : s.Refs := by
    refine ⟨fun e => (h₀.ref e).trans (htotal e).symm, fun e e' he => ?_, fun e p hp => ?_,
      fun p e st hp => ?_, fun p e st hp => ?_⟩
    · rw [h₀.ref] at he
      exact absurd he (lt_irrefl 0)
    · rw [h₀.lock] at hp
      cases hp
    · rw [h₀.pc] at hp
      cases hp
    · rw [h₀.pc] at hp
      cases hp
  refine ⟨hrefs, ?_, ?_, ?_, ?_, ?_, ?_, h₀.free, ?_, ?_, ?_, fun i => rfl⟩
  · grind [h₀.pc]
  · grind [h₀.pc]
  · grind [h₀.pc]
  · grind [h₀.held]
  · grind [h₀.pc]
  · grind [h₀.pc]
  · grind [h₀.ref]
  · grind [h₀.ref]
  · intro i d hd
    cases hd

end Itable

/-- **Freeing and reallocating inodes.** In every run, from any inodes on disk, no inode has
    two entries in the table at any time; an inode is freed on disk at most once per
    allocation; `iupdate` never writes a copy over a dinode allocated after the copy was read;
    and the first `ilock` after `ialloc` reads the dinode that `ialloc` wrote. -/
theorem inode_realloc {s₀ : Itable} {tr : List (ItableAct × Itable)} (h₀ : s₀ ∈ itableSystem.init)
    (h : itableSystem.Run s₀ tr) :
    System.Throughout Itable.Unique s₀ tr ∧
      System.StepsWith Itable.note s₀.allocs Itable.ReallocOk s₀ tr := by
  have hinit : Itable.Inv s₀ s₀.allocs := Itable.inv_init h₀
  refine ⟨?_, ?_⟩
  · refine h.throughout (Q := fun s => ∃ x, Itable.Inv s x) (C := fun _ _ => True) ⟨_, hinit⟩ ?_ ?_
      (System.along_of_forall (fun _ _ => trivial) _ _)
    · rintro s a t ⟨x, hi⟩ hs -
      exact ⟨_, hi.step hs⟩
    · rintro s ⟨x, hi⟩
      exact hi.refs.unique
  · refine (h.stepsWith_iff (R := Itable.Inv) (C := fun _ _ => True) hinit ?_ ?_ ?_).2
      (System.along_of_forall (fun _ _ => trivial) _ _)
    · exact fun s a t x hi hs _ => hi.step hs
    · exact fun s a t x hi hs _ => hi.reallocOk hs
    · exact fun s a t x _ _ hn => absurd trivial hn

/-- A disk with a single inode, a file with one link. -/
def Itable.single : Itable where
  disk i := if i = (1, 2) then { Dinode.new 2 with nlink := 1 } else .new 0
  inode _ := { id := (0, 0), ref := 0, valid := false, lock := none, d := .new 0 }
  held _ _ := 0
  pc _ := .idle

/-- The file is unlinked and freed, and the number is allocated for a directory while the
    entry is still being freed: the entry is shared, and the directory is read into it. -/
theorem inode_realloc_shared : ∃ tr, itableSystem.Run .single tr ∧
    (∃ x, (.ilock 1 {1} 0, x) ∈ tr ∧ x.pc 0 = .freeing 0 .unlocked) ∧
    ((System.last .single tr).inode 0).d = .new 1 ∧
    System.StepsWith Itable.note Itable.single.allocs Itable.ReallocOk .single tr := by
  obtain ⟨tr, hrun, hP⟩ := System.exists_run (m := itableSystem) (fun _ _ _ hs => hs) .single
    [.iget 0 (1, 2), .ilock 0 {0} 0, .load 0 0, .change 0 0 (.new 2), .iupdate 0 0, .iunlock 0 0,
      .iput 0 0, .iputNext 0, .iputNext 0, .iputNext 0, .iputNext 0, .ialloc 1 (1, 2) 1,
      .iallocGet 1, .iputNext 0, .iputNext 0, .ilock 1 {1} 0, .load 1 0]
    (fun tr => ((tr.any fun x => decide (x.1 = .ilock 1 {1} 0 ∧ x.2.pc 0 = .freeing 0 .unlocked)) &&
      decide (((System.last .single tr).inode 0).d = .new 1)))
    (by decide)
  rw [Bool.and_eq_true, List.any_eq_true] at hP
  obtain ⟨⟨x, hx, hP₁⟩, hP₂⟩ := hP
  obtain ⟨hx₁, hx₂⟩ := of_decide_eq_true hP₁
  have h₀ : Itable.single ∈ itableSystem.init := by
    refine ⟨fun i hi => ?_, fun _ => rfl, fun _ => rfl, fun _ _ => rfl, fun _ => rfl⟩
    by_cases h : i = (1, 2)
    · rw [h] at hi
      exact absurd hi (by decide)
    · simp [Itable.single, h, Dinode.new]
  refine ⟨tr, hrun, ⟨x.2, ?_, hx₂⟩, of_decide_eq_true hP₂, (inode_realloc h₀ hrun).2⟩
  rw [← hx₁]
  exact hx

end Xv6
