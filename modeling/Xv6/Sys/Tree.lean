import Xv6.Sys.Runs
import Xv6.Mkfs.Format

/-!
# The tree of names

In every run of system calls of any processes, from a disk on which the names form a tree, such as
the image of `mkfs` (`mkfs_tree`), every call does steps of the tree. So the directories form a
forest, and no name is dangling (`names_form_forest`). The code does not check that the number of
links fits in its 16 bits, so this must be assumed (`Fs.Room`).

The code enters names also in a directory that has lost its own name, but is still in use, and then
the links of what is named there are not given back. If this does not happen, the links are exact,
and every inode can be reached from the root, or it has no links and will be freed with the last
reference (`links_exact`).
-/

namespace Xv6

namespace Fs

/-- The entry `k` of the directory `i` has the name `a` for the inode `j`; it is not one of the
    first two. -/
structure Named (sb : Superblock) (s : Fs) (i k : ℕ) (a : List UInt8) (j : ℕ) : Prop where
  lt : i < sb.ninodes
  two_le : 2 ≤ k
  entry : ∃ de, s.inUse sb i k = some de ∧ cstr dirsiz de.name = a ∧ de.inum = j

/-- The directories form a forest, with the right first two entries, and names are for inodes that
    are allocated and have links. -/
structure Forest (sb : Superblock) (s : Fs) : Prop where
  self : ∀ i < sb.ninodes, (Disk.dinode sb s.disk i).type = tDir →
    ∃ de, s.inUse sb i 0 = some de ∧ cstr dirsiz de.name = dot ∧ de.inum = i
  up : ∀ i < sb.ninodes, (Disk.dinode sb s.disk i).type = tDir →
    ∃ de, s.inUse sb i 1 = some de ∧ cstr dirsiz de.name = dotdot
  above : ∀ i k a j, Named sb s i k a j → (Disk.dinode sb s.disk j).type = tDir →
    ∃ de, s.inUse sb j 1 = some de ∧ de.inum = i
  distinct : ∀ i k k' a j j', Named sb s i k a j → Named sb s i k' a j' → k = k'
  once : ∀ i k a i' k' a' j, Named sb s i k a j → Named sb s i' k' a' j →
    (Disk.dinode sb s.disk j).type = tDir → i = i' ∧ k = k'
  /-- No directory is below itself. -/
  acyclic : ∃ rank : ℕ → ℕ, ∀ i k a j, Named sb s i k a j →
    (Disk.dinode sb s.disk j).type = tDir → rank i < rank j
  linked : ∀ i k a j, Named sb s i k a j →
    (Disk.dinode sb s.disk j).type ≠ 0 ∧ 1 ≤ (Disk.dinode sb s.disk j).nlink.toInt

/-- The inodes that can be reached from the root. -/
inductive Reached (sb : Superblock) (s : Fs) : ℕ → Prop
  | root : Reached sb s rootIno
  | entry {i k : ℕ} {a : List UInt8} {j : ℕ} : Reached sb s i → Named sb s i k a j → Reached sb s j

/-- An inode that is allocated can be reached from the root, or it has no links and is in memory. -/
def NoneLost (sb : Superblock) (s : Fs) : Prop :=
  ∀ i < sb.ninodes, (Disk.dinode sb s.disk i).type ≠ 0 → Reached sb s i ∨
    (Disk.dinode sb s.disk i).nlink = 0 ∧ ∃ ip, s.Cached ip ∧ (s.inode ip).inum = i

variable {sb : Superblock} {lost : Set ℕ} {s : Fs} {i j k : ℕ} {a : List UInt8}

/-! ## Names on the disk and in the tree -/

theorem Named.node (h : Named sb s i k a j) (hw : s.WellFormed sb lost) :
    ∃ (hj : j < sb.ninodes) (m : DirSlot), m.val + 2 = k ∧
      (s.nodes sb ⟨i, h.lt⟩).entry m = some (a, ⟨j, hj⟩) := by
  obtain ⟨de, hde, rfl, rfl⟩ := h.entry
  obtain ⟨hj, hname⟩ := hw.exists_nameOf h.lt hde
  have hfit := (inUse_eq_some.1 hde).2.1
  have hsize := Fs.size_lt sb s.disk i
  have hk := h.two_le
  refine ⟨hj, ⟨k - 2, by omega⟩, Nat.sub_add_cancel hk, ?_⟩
  rw [nodes_entry]
  dsimp only
  rw [Nat.sub_add_cancel hk, hde]
  exact hname

theorem Named.of_node {x y : Fin sb.ninodes} {m : DirSlot}
    (h : (s.nodes sb x).entry m = some (a, y)) : Named sb s x (m.val + 2) a y := by
  rw [nodes_entry] at h
  obtain ⟨de, hde, hname⟩ := Option.bind_eq_some_iff.1 h
  obtain ⟨z, hz, he⟩ := Option.map_eq_some_iff.1 hname
  obtain ⟨rfl, rfl⟩ := Prod.mk.inj he
  exact ⟨x.isLt, Nat.le_add_left 2 m, de, hde, rfl, number_eq_some.1 hz⟩

theorem TreeOk.forest (h : s.TreeOk sb) (hw : s.WellFormed sb lost) : s.Forest sb where
  self _ hi hdir := h.dot hi hdir
  up _ hi hdir := h.dotdot hi hdir
  above i k a j hn hdir := by
    obtain ⟨hj, m, -, he⟩ := hn.node hw
    have hup := h.wf.up _ _ _ _ he (kindOf_eq_dir.2 hdir)
    obtain ⟨de, hde, -, hinum⟩ := inodeNamed_eq_some hup
    exact ⟨de, hde, hinum⟩
  distinct i k k' a j j' hn hn' := by
    obtain ⟨hj, m, hm, he⟩ := hn.node hw
    obtain ⟨hj', m', hm', he'⟩ := hn'.node hw
    rw [← hm, ← hm', h.wf.distinct _ _ _ _ _ _ he he']
  once i k a i' k' a' j hn hn' hdir := by
    obtain ⟨hj, m, hm, he⟩ := hn.node hw
    obtain ⟨hj', m', hm', he'⟩ := hn'.node hw
    obtain ⟨hi, hmm⟩ := h.wf.once _ _ _ _ _ _ _ he he' (kindOf_eq_dir.2 hdir)
    exact ⟨congrArg Fin.val hi, by rw [← hm, ← hm', hmm]⟩
  acyclic := by
    obtain ⟨rank, hrank⟩ := h.wf.ranked
    refine ⟨fun i => if hi : i < sb.ninodes then rank ⟨i, hi⟩ else 0, fun i k a j hn hdir => ?_⟩
    obtain ⟨hj, m, -, he⟩ := hn.node hw
    dsimp only
    rw [dif_pos hn.lt, dif_pos hj]
    exact hrank _ _ _ _ he (kindOf_eq_dir.2 hdir)
  linked i k a j hn := by
    obtain ⟨hj, m, -, he⟩ := hn.node hw
    have hpos := h.wf.links_pos he
    rw [nodes_links] at hpos
    exact ⟨fun hfree => h.wf.not_free he (kindOf_eq_free.2 hfree), hpos⟩

theorem Reached.of_below {x : Fin sb.ninodes}
    (h : NameTree.Below (rootNode sb) (s.nodes sb) x) : Reached sb s x := by
  induction h with
  | root hr =>
    rw [← number_eq_some.1 hr]
    exact .root
  | entry _ he ih => exact .entry ih (.of_node he)

theorem noneLost (hw : s.WellFormed sb lost)
    (hx : NameTree.Exact (rootNode sb) (s.nodes sb)) : s.NoneLost sb := by
  intro i hi htype
  by_cases hz : (Disk.dinode sb s.disk i).nlink = 0
  · exact .inr ⟨hz, hw.linked i hi htype hz⟩
  · have hlinks : (s.nodes sb ⟨i, hi⟩).links ≠ 0 := toInt_ne_zero hz
    exact .inl (.of_below (hx.below hlinks))

end Fs

/-! ## The image of `mkfs` -/

namespace Mkfs

open Fs (tDir tFile rootIno)

variable {args : List Arg} {d : Disk} {next : ℕ} {s : Fs} {m : DirSlot} {a : List UInt8}
  {x y : Fin sb.ninodes}

theorem entries_add_two (args : List Arg) (k : ℕ) : (entries args)[k + 2]? =
    args[k]?.map fun a => ⟨k + 2, strncpy a.name dirsiz⟩ := by
  rw [entries, List.getElem?_cons_succ, List.getElem?_cons_succ, List.getElem?_map,
    List.getElem?_zipIdx, Option.map_map, Nat.add_comm 2 k]
  rfl

theorem type_root_finish (h : Built (Disk.dinode sb d) d next (filesOf args) none)
    (hcount : args.length + 2 ≤ ninodes) (hs : s.disk = finish args next d) :
    (Disk.dinode sb s.disk rootIno).type = tDir := by
  rw [inodes_finish h hcount hs (by decide), if_pos rfl]

/-- The entries that are in use. -/
theorem inUse_finish (h : Built (Disk.dinode sb d) d next (filesOf args) none)
    (hcount : args.length + 2 ≤ ninodes) (hs : s.disk = finish args next d)
    (hmod : (args.length + 2) % 64 ≠ 0) (k : ℕ) : s.inUse sb rootIno k = (entries args)[k]? := by
  have hsize : (Disk.dinode sb s.disk rootIno).size = rootSize args := by
    rw [hs, dinode_finish h hcount (by decide), if_pos rfl]
  have hle := le_rootSize args
  rw [Fs.inUse, type_root_finish h hcount hs, hsize]
  by_cases hk : 16 * k + 16 ≤ rootSize args
  · rw [entry_finish h hcount hs hmod hk]
    cases hde : (entries args)[k]? with
    | none => exact if_neg fun hc => hc.2.2 rfl
    | some de =>
      exact if_pos ⟨rfl, hk, (mem_entries (List.mem_of_getElem? hde)).2.1.ne'⟩
  · rw [if_neg fun hc => hk hc.2.1, List.getElem?_eq_none]
    rw [length_entries]
    omega

/-- There is no other directory than the root. -/
theorem eq_root_of_dir (h : Built (Disk.dinode sb d) d next (filesOf args) none)
    (hcount : args.length + 2 ≤ ninodes) (hs : s.disk = finish args next d)
    (hx : (Disk.dinode sb s.disk x).type = tDir) : x.val = rootIno := by
  rw [inodes_finish h hcount hs x.isLt] at hx
  by_contra hne
  rw [if_neg hne] at hx
  split at hx <;> exact absurd hx (by decide)

/-- The names are those of the files. -/
theorem entry_nodes_finish (h : Built (Disk.dinode sb d) d next (filesOf args) none)
    (hcount : args.length + 2 ≤ ninodes) (hs : s.disk = finish args next d)
    (hmod : (args.length + 2) % 64 ≠ 0) : (s.nodes sb x).entry m = some (a, y) ↔
    x.val = rootIno ∧ ∃ f, args[m.val]? = some f ∧ cstr dirsiz f.name = a ∧ y.val = m.val + 2 := by
  rw [Fs.nodes_entry]
  by_cases hx : (Disk.dinode sb s.disk x).type = tDir
  swap
  · rw [Fs.inUse_of_type_ne hx, Option.bind_none]
    refine ⟨(fun he => by cases he), fun he => absurd ?_ hx⟩
    rw [he.1]
    exact type_root_finish h hcount hs
  have hroot := eq_root_of_dir h hcount hs hx
  rw [hroot, inUse_finish h hcount hs hmod, entries_add_two]
  cases hf : args[m.val]? with
  | none =>
    rw [Option.map_none, Option.bind_none]
    refine ⟨(fun he => by cases he), fun ⟨_, f, hf, _⟩ => by cases hf⟩
  | some f =>
    have hlt : m.val + 2 < sb.ninodes :=
      lt_of_lt_of_le (Nat.add_lt_add_right (List.getElem?_eq_some_iff.1 hf).1 2) hcount
    rw [Option.map_some, Option.bind_some, Fs.nameOf, Fs.number_of_lt hlt, Option.map_some,
      cstr_strncpy, Option.some.injEq, Prod.mk.injEq]
    constructor
    · rintro ⟨rfl, rfl⟩
      exact ⟨rfl, f, rfl, rfl, rfl⟩
    · rintro ⟨-, g, hg, rfl, hy⟩
      obtain rfl := Option.some.inj hg
      exact ⟨rfl, Fin.ext hy.symm⟩

/-- The number of links of an inode that is allocated is one. -/
theorem links_finish (h : Built (Disk.dinode sb d) d next (filesOf args) none)
    (hcount : args.length + 2 ≤ ninodes) (hs : s.disk = finish args next d)
    (href : ∀ ip, (s.inode ip).ref = 0) (hmod : (args.length + 2) % 64 ≠ 0) (x : Fin sb.ninodes) :
    (s.nodes sb x).links = if (Disk.dinode sb s.disk x).type = 0 then 0 else 1 := by
  rw [Fs.nodes_links]
  split
  next hz =>
    rw [(wellFormed_finish h hcount hs href hmod).free x x.isLt hz]
    rfl
  next hne =>
    have hinode : Disk.dinode sb s.disk x = if x.val = rootIno then
        { Disk.dinode sb d rootIno with size := rootSize args } else Disk.dinode sb d x := by
      rw [hs, dinode_finish h hcount x.isLt]
    rw [hinode] at hne ⊢
    by_cases hr : x.val = rootIno
    · rw [if_pos hr, h.inode _ _ (filesOf_root args)]
      rfl
    · rw [if_neg hr] at hne ⊢
      obtain ⟨f, hf⟩ := h.exists_file ⟨x.isLt, hne⟩
      rw [h.inode x f hf]
      rfl

theorem room_finish (h : Built (Disk.dinode sb d) d next (filesOf args) none)
    (hcount : args.length + 2 ≤ ninodes) (hs : s.disk = finish args next d)
    (href : ∀ ip, (s.inode ip).ref = 0) (hmod : (args.length + 2) % 64 ≠ 0) : s.Room sb := by
  intro i hi
  have hlinks := links_finish h hcount hs href hmod ⟨i, hi⟩
  rw [Fs.nodes_links] at hlinks
  rw [hlinks]
  split <;> decide

/-- The names are for files. -/
theorem kind_named_finish (h : Built (Disk.dinode sb d) d next (filesOf args) none)
    (hcount : args.length + 2 ≤ ninodes) (hs : s.disk = finish args next d)
    (hmod : (args.length + 2) % 64 ≠ 0) (he : (s.nodes sb x).entry m = some (a, y)) :
    (s.nodes sb y).kind ≠ .dir := by
  obtain ⟨-, f, hf, -, hy⟩ := (entry_nodes_finish h hcount hs hmod).1 he
  have hlt := (List.getElem?_eq_some_iff.1 hf).1
  have htype : (Disk.dinode sb s.disk y).type = tFile := by
    rw [inodes_finish h hcount hs y.isLt, if_neg (by rw [hy]; exact add_two_ne_root _),
      if_pos (by omega)]
  intro hdir
  rw [Fs.kindOf_eq_dir.1 hdir] at htype
  exact absurd htype (by decide)

/-- No directory is in another one. -/
theorem refs_above_finish (h : Built (Disk.dinode sb d) d next (filesOf args) none)
    (hcount : args.length + 2 ≤ ninodes) (hs : s.disk = finish args next d)
    (hmod : (args.length + 2) % 64 ≠ 0) (x : Fin sb.ninodes) :
    refs (NameTree.above (s.nodes sb)) x = 0 := refs_eq_zero fun z hz => by
  obtain ⟨y, hy, hd⟩ := Option.bind_eq_some_iff.1 hz
  obtain ⟨a, he⟩ := NameTree.named_eq_some.1 hy
  rw [if_neg (kind_named_finish h hcount hs hmod he)] at hd
  cases hd

/-- A file has one name. -/
theorem refs_named_finish (h : Built (Disk.dinode sb d) d next (filesOf args) none)
    (hcount : args.length + 2 ≤ ninodes) (hs : s.disk = finish args next d)
    (hmod : (args.length + 2) % 64 ≠ 0) (x : Fin sb.ninodes) :
    refs (NameTree.named (s.nodes sb)) x =
      if 2 ≤ x.val ∧ x.val < args.length + 2 then 1 else 0 := by
  split
  next hfile =>
    rw [refs_eq_card]
    have hlt : x.val - 2 < 2 ^ 28 := by
      have := x.isLt
      have : sb.ninodes < 2 ^ 28 := by decide
      omega
    have hone : (Finset.univ.filter fun z => NameTree.named (s.nodes sb) z = some x) =
        {((⟨rootIno, by decide⟩ : Fin sb.ninodes), (⟨x.val - 2, hlt⟩ : DirSlot))} := by
      refine Finset.ext fun z => ?_
      simp only [Finset.mem_filter, Finset.mem_univ, true_and, Finset.mem_singleton]
      constructor
      · intro hz
        obtain ⟨a, he⟩ := NameTree.named_eq_some.1 hz
        obtain ⟨hr, f, -, -, hy⟩ := (entry_nodes_finish h hcount hs hmod).1 he
        exact Prod.ext (Fin.ext hr) (Fin.ext (by dsimp only; omega))
      · rintro rfl
        have hk : x.val - 2 < args.length := by omega
        have hf := List.getElem?_eq_getElem hk
        refine NameTree.named_eq_some.2 ⟨cstr dirsiz args[x.val - 2].name, ?_⟩
        exact (entry_nodes_finish h hcount hs hmod).2
          ⟨rfl, _, hf, rfl, (Nat.sub_add_cancel hfile.1).symm⟩
    rw [hone, Finset.card_singleton]
    rfl
  next hfile =>
    refine refs_eq_zero fun z hz => ?_
    obtain ⟨a, he⟩ := NameTree.named_eq_some.1 hz
    obtain ⟨-, f, hf, -, hy⟩ := (entry_nodes_finish h hcount hs hmod).1 he
    have := (List.getElem?_eq_some_iff.1 hf).1
    exact hfile (by omega)

/-- The links are all accounted for. -/
theorem uses_finish (h : Built (Disk.dinode sb d) d next (filesOf args) none)
    (hcount : args.length + 2 ≤ ninodes) (hs : s.disk = finish args next d)
    (href : ∀ ip, (s.inode ip).ref = 0) (hmod : (args.length + 2) % 64 ≠ 0) (x : Fin sb.ninodes) :
    NameTree.uses (s.nodes sb) x + holds (Fs.rootNode sb) x = (s.nodes sb x).links := by
  have hrn : Fs.rootNode sb = some ⟨rootIno, by decide⟩ := Fs.number_of_lt (by decide)
  rw [links_finish h hcount hs href hmod, NameTree.uses, refs_above_finish h hcount hs hmod,
    refs_named_finish h hcount hs hmod, add_zero, hrn, inodes_finish h hcount hs x.isLt]
  by_cases hroot : x.val = rootIno
  · -- The root has no name, but a link of its own.
    obtain rfl : x = ⟨rootIno, by decide⟩ := Fin.ext hroot
    rw [holds_self, if_neg (fun hfile => absurd hfile.1 (by decide)), if_pos rfl,
      if_neg (by decide)]
    rfl
  rw [holds_of_ne fun hx => hroot (congrArg Fin.val hx).symm, if_neg hroot, add_zero]
  by_cases hfile : 2 ≤ x.val ∧ x.val < args.length + 2
  · rw [if_pos hfile, if_pos hfile, if_neg (by decide)]
  · -- The other inodes are free.
    rw [if_neg hfile, if_neg hfile, if_pos rfl]

/-- The image is a tree. -/
theorem exact_finish (h : Built (Disk.dinode sb d) d next (filesOf args) none)
    (hcount : args.length + 2 ≤ ninodes) (hs : s.disk = finish args next d)
    (href : ∀ ip, (s.inode ip).ref = 0) (hmod : (args.length + 2) % 64 ≠ 0)
    (hdistinct : (args.map fun f => cstr dirsiz f.name).Nodup) :
    NameTree.Exact (Fs.rootNode sb) (s.nodes sb) := by
  have hentry : ∀ {x y : Fin sb.ninodes} {m : DirSlot} {a : List UInt8},
      (s.nodes sb x).entry m = some (a, y) ↔ x.val = rootIno ∧ ∃ f, args[m.val]? = some f ∧
        cstr dirsiz f.name = a ∧ y.val = m.val + 2 := entry_nodes_finish h hcount hs hmod
  -- Nothing names a directory.
  have hfile : ∀ {x y : Fin sb.ninodes} {m : DirSlot} {a : List UInt8},
      (s.nodes sb x).entry m = some (a, y) → (s.nodes sb y).kind ≠ .dir :=
    kind_named_finish h hcount hs hmod
  have hroot : ∀ {x : Fin sb.ninodes}, (s.nodes sb x).kind = .dir → x.val = rootIno :=
    fun hdir => eq_root_of_dir h hcount hs (Fs.kindOf_eq_dir.1 hdir)
  have hrootdir : ∀ {x : Fin sb.ninodes}, x.val = rootIno → (s.nodes sb x).kind = .dir :=
    fun hx => Fs.kindOf_eq_dir.2 (by rw [hx]; exact type_root_finish h hcount hs)
  have hdots : ∀ (x : Fin sb.ninodes), x.val = rootIno →
      (s.nodes sb x).self = some x ∧ (s.nodes sb x).up = some x := fun x hx => by
    have hn : number sb.ninodes rootIno = some x := Fs.number_eq_some.2 hx.symm
    have hentry : ∀ k name, (entries args)[k]? = some ⟨rootIno, strncpy name dirsiz⟩ →
        cstr dirsiz name = name → s.inodeNamed sb x k name = some x := fun k name hk hname => by
      rw [Fs.inodeNamed, hx, inUse_finish h hcount hs hmod, hk, Option.bind_some, cstr_strncpy,
        if_pos hname, hn]
    exact ⟨hentry 0 Fs.dot rfl (by decide), hentry 1 Fs.dotdot rfl (by decide)⟩
  have huses := uses_finish h hcount hs href hmod
  refine ⟨⟨fun i => (huses i).le, fun i hi => ?_, fun i k e he => ?_, fun i hi => ?_,
    fun i hi => ?_, fun i k a j he hj => absurd hj (hfile he),
    fun i k a i' k' a' j he _ hj => absurd hj (hfile he), fun i k k' a j j' he he' => ?_,
    fun i hi => ?_, ⟨fun _ => 0, fun i k a j he hj => absurd hj (hfile he)⟩⟩, huses,
    fun i hn hi k => ?_⟩
  · rw [links_finish h hcount hs href hmod, if_pos (Fs.kindOf_eq_free.1 hi)]
  · obtain ⟨a, y⟩ := e
    exact hrootdir (hentry.1 he).1
  · exact (hdots i (hroot hi)).1
  · rw [(hdots i (hroot hi)).2]
    rfl
  · -- The files have different names.
    obtain ⟨-, f, hf, hname, -⟩ := hentry.1 he
    obtain ⟨-, g, hg, hname', -⟩ := hentry.1 he'
    obtain ⟨hk, rfl⟩ := List.getElem?_eq_some_iff.1 hf
    obtain ⟨hk', rfl⟩ := List.getElem?_eq_some_iff.1 hg
    refine Fin.ext ((@List.Nodup.getElem_inj_iff _ _ hdistinct _ (by simpa using hk) _
      (by simpa using hk')).1 ?_)
    rw [List.getElem_map, List.getElem_map, hname, hname']
  · have hir : i.val = rootIno := (Fs.number_eq_some.1 hi).symm
    refine ⟨hrootdir hir, fun z hz => ?_⟩
    obtain ⟨a, he⟩ := NameTree.named_eq_some.1 hz
    obtain ⟨-, f, -, -, hy⟩ := hentry.1 he
    exact add_two_ne_root _ (hy.symm.trans hir)
  · cases he : (s.nodes sb i).entry k with
    | none => rfl
    | some e =>
      obtain ⟨a, y⟩ := e
      exact absurd (Fs.number_eq_some.2 (hentry.1 he).1.symm) hi

/-- And so it has the invariant. -/
theorem treeOk_finish (h : Built (Disk.dinode sb d) d next (filesOf args) none)
    (hcount : args.length + 2 ≤ ninodes) (hs : s.disk = finish args next d)
    (href : ∀ ip, (s.inode ip).ref = 0) (hmod : (args.length + 2) % 64 ≠ 0)
    (hdistinct : (args.map fun f => cstr dirsiz f.name).Nodup) : s.TreeOk sb where
  wf := (exact_finish h hcount hs href hmod hdistinct).toWf
  zero x hx := Fs.kindOf_eq_free.2 (by
    rw [inodes_finish h hcount hs x.isLt, hx]
    rfl)
  narrow := by decide

/-- The image for some files. -/
theorem exists_tree (hfit : Fits args) (hmod : (args.length + 2) % 64 ≠ 0)
    (hdistinct : (args.map fun f => cstr dirsiz f.name).Nodup) :
    ∃ t, mkfs args Image.opened = .ok ⟨⟩ t ∧
      ∀ s : Fs, s.disk = t.disk → (∀ ip, (s.inode ip).ref = 0) → s.WellFormed sb ∅ ∧
        s.TreeOk sb ∧ NameTree.Exact (Fs.rootNode sb) (s.nodes sb) ∧ s.Room sb := by
  obtain ⟨_, t, hm, d, next, h, ht⟩ := mkfs_ok hfit
  refine ⟨t, hm, fun s hs href => ?_⟩
  rw [ht] at hs
  exact ⟨wellFormed_finish h hfit.count hs href hmod,
    treeOk_finish h hfit.count hs href hmod hdistinct,
    exact_finish h hfit.count hs href hmod hdistinct, room_finish h hfit.count hs href hmod⟩

end Mkfs

/-- The first process is in the root of the file system `fs`, as after `userinit`. -/
def bootSys (fs : Fs) : Sys where
  fs := { fs with inode := Function.update fs.inode 0 ⟨Fs.rootIno, 1, false, (fs.inode 0).d⟩ }
  files := freshFiles.files
  cwd p := if p = 0 then some 0 else none

theorem bootSys_inode (fs : Fs) (ip : Fin ninode) : (bootSys fs).fs.inode ip =
    if ip = 0 then ⟨Fs.rootIno, 1, false, (fs.inode 0).d⟩ else fs.inode ip :=
  Function.update_apply _ _ _ ip

/-- It is an initial state. -/
theorem bootSys_mem_init {sb : Superblock} {lost : Set ℕ} {fs : Fs} (hw : fs.WellFormed sb lost)
    (href : ∀ ip, (fs.inode ip).ref = 0)
    (hroot : (Disk.dinode sb fs.disk Fs.rootIno).type ≠ 0) :
    bootSys fs ∈ (sysSystem sb lost).init := by
  have hg : Fs.Got Fs.rootIno fs 0 (bootSys fs).fs := by
    refine ⟨rfl, fun jp hjp => Function.update_of_ne hjp _ _,
      .inr ⟨href 0, fun jp hjp => absurd (href jp) hjp.ne',
        (bootSys_inode fs 0).trans (if_pos rfl)⟩⟩
  -- The state is the one after `iget`.
  have hh := (Fs.Holding.refl hw.ok).get hw.root hg
  have hboot : (bootSys fs).fs.WellFormed sb lost := hh.wellFormed hw fun jp hjp => by
    rw [Multiset.mem_singleton.1 hjp, hg.inum_eq]
    exact hroot
  have hone : ∀ ip, (((bootSys fs).fs.inode ip).ref : ℤ) = holds (some 0) ip := fun ip => by
    rw [bootSys_inode]
    by_cases hip : ip = 0
    · rw [if_pos hip, hip]
      rfl
    · rw [if_neg hip, href, holds_of_ne fun h => hip h.symm]
      rfl
  exact mem_init_of_first hboot hone

/-- **The image of `mkfs` is a tree.** For all files that fit, of different names, but if the root
    directory ends at the end of a block. -/
theorem mkfs_tree {args : List Mkfs.Arg} (hfit : Mkfs.Fits args)
    (hmod : (args.length + 2) % 64 ≠ 0)
    (hdistinct : (args.map fun f => cstr dirsiz f.name).Nodup) :
    ∃ t, Mkfs.mkfs args Mkfs.Image.opened = .ok ⟨⟩ t ∧
      ∀ s : Fs, s.disk = t.disk → (∀ ip, (s.inode ip).ref = 0) →
        bootSys s ∈ (sysSystem Mkfs.sb ∅).init ∧ s.Forest Mkfs.sb ∧ s.NoneLost Mkfs.sb ∧
        ∀ i, (s.nodes Mkfs.sb i).links =
          NameTree.uses (s.nodes Mkfs.sb) i + holds (Fs.rootNode Mkfs.sb) i := by
  obtain ⟨t, hm, ht⟩ := Mkfs.exists_tree hfit hmod hdistinct
  refine ⟨t, hm, fun s hs href => ?_⟩
  obtain ⟨hw, htree, hx, -⟩ := ht s hs href
  have hroot := (htree.wf.root _ (Fs.number_of_lt (by decide))).1
  refine ⟨bootSys_mem_init hw href fun hz => ?_, htree.forest hw, Fs.noneLost hw hx,
    fun i => (hx.exact i).symm⟩
  exact absurd (hz.symm.trans (Fs.kindOf_eq_dir.1 hroot)) (by decide)

/-- With a program and an empty file. -/
theorem mkfs_tree_two : ∃ args : List Mkfs.Arg, args.map Mkfs.Arg.name =
      [[115, 104], [82, 69, 65, 68, 77, 69]] ∧ ∃ t, Mkfs.mkfs args Mkfs.Image.opened = .ok ⟨⟩ t ∧
    ∀ s : Fs, s.disk = t.disk → (∀ ip, (s.inode ip).ref = 0) →
      bootSys s ∈ (sysSystem Mkfs.sb ∅).init ∧ s.Forest Mkfs.sb ∧ s.NoneLost Mkfs.sb ∧
      ∀ i, (s.nodes Mkfs.sb i).links =
        NameTree.uses (s.nodes Mkfs.sb) i + holds (Fs.rootNode Mkfs.sb) i :=
  ⟨[⟨[117, 115, 101, 114, 47, 95, 115, 104], [[1, 2], [3]]⟩, ⟨[82, 69, 65, 68, 77, 69], []⟩],
    by decide, mkfs_tree ⟨by decide, by decide, by decide, by decide, by decide⟩ (by decide)
      (by decide)⟩

/-! ## A disk with the root only -/

/-- The file system on such a disk, with nothing in memory. -/
abbrev bareFs : Fs := rootFs false 0

theorem wellFormed_bareFs : bareFs.WellFormed rootSb ∅ := by
  have hnone : {b | false = true ∧ 5 ≤ b} = (∅ : Set ℕ) := Set.eq_empty_of_forall_notMem fun b hb =>
    Bool.noConfusion hb.1
  exact hnone ▸ wellFormed_rootFs false 0

/-- Its tree has the root only. -/
theorem nodes_bareFs :
    bareFs.nodes rootSb = NameTree.single ⟨Fs.rootIno, by decide⟩ := by
  funext x
  by_cases hx : x = ⟨Fs.rootIno, by decide⟩
  swap
  · rw [NameTree.single, Function.update_of_ne hx]
    have hz := dinode_rootDisk false x.isLt fun h => hx (Fin.ext h)
    exact Fs.nodes_of_free hz.1 hz.2
  subst hx
  have hroot : Disk.dinode rootSb bareFs.disk Fs.rootIno = rootDir := dinode_root false
  have hnamed : ∀ k < 2, bareFs.inodeNamed rootSb Fs.rootIno k
      (if k = 0 then Fs.dot else Fs.dotdot) = some ⟨Fs.rootIno, by decide⟩ := fun k hk => by
    have huse : bareFs.inUse rootSb Fs.rootIno k =
        some ⟨1, strncpy (if k = 0 then Fs.dot else Fs.dotdot) dirsiz⟩ := by
      refine Fs.inUse_eq_some.2 ⟨by rw [hroot]; rfl, ?_, ?_, entry_rootFs false k hk⟩
      · rw [hroot]
        change 16 * k + 16 ≤ 32
        omega
      · rw [entry_rootFs false k hk]
        exact one_ne_zero
    have hcstr : cstr dirsiz (if k = 0 then Fs.dot else Fs.dotdot) =
        if k = 0 then Fs.dot else Fs.dotdot := by
      split <;> decide
    have hone : 1 < rootSb.ninodes := by decide
    rw [Fs.inodeNamed, huse, Option.bind_some, cstr_strncpy, if_pos hcstr, Fs.number_of_lt hone]
  have hself : bareFs.inodeNamed rootSb Fs.rootIno 0 Fs.dot =
      some ⟨Fs.rootIno, by decide⟩ := hnamed 0 (by decide)
  have hup : bareFs.inodeNamed rootSb Fs.rootIno 1 Fs.dotdot =
      some ⟨Fs.rootIno, by decide⟩ := hnamed 1 (by decide)
  have hentry : ∀ k, bareFs.inUse rootSb Fs.rootIno (k + 2) = none := fun k =>
    if_neg fun h => by
      have hfit := h.2.1
      rw [hroot] at hfit
      exact absurd (show 16 * (k + 2) + 16 ≤ 32 from hfit) (by omega)
  rw [NameTree.single, Function.update_self]
  simp only [Fs.nodes, TreeNode.fresh, hself, hup, hentry, hroot]
  rfl

/-- The first process has the root as its current directory. -/
abbrev rootSys : Sys := bootSys bareFs

theorem rootSys_mem_init : rootSys ∈ (sysSystem rootSb ∅).init :=
  bootSys_mem_init wellFormed_bareFs (fun _ => ite_self _) (by
    have hroot : Disk.dinode rootSb bareFs.disk Fs.rootIno = rootDir := dinode_root false
    rw [hroot]
    decide)

theorem exact_rootSys :
    NameTree.Exact (Fs.rootNode rootSb) (rootSys.fs.nodes rootSb) := by
  have hnodes : rootSys.fs.nodes rootSb = bareFs.nodes rootSb := Fs.nodes_of_disk rfl
  rw [hnodes, nodes_bareFs]
  exact NameTree.exact_single _

theorem treeOk_rootSys : rootSys.fs.TreeOk rootSb where
  wf := exact_rootSys.toWf
  zero x hx := Fs.kindOf_eq_free.2 (dinode_rootDisk false x.isLt (by omega)).1
  narrow := by decide

/-! ## Runs -/

/-- The call enters names in directories that have links only. -/
def SysCall.InLinked (sb : Superblock) (s : Sys) (a : SysCall) : Prop :=
  ∀ d, a.enters sb s = some d → (Disk.dinode sb s.fs.disk d).nlink ≠ 0

instance decidableInLinked (sb : Superblock) (s : Sys) (a : SysCall) : Decidable (a.InLinked sb s) :=
  inferInstanceAs (Decidable (∀ d ∈ a.enters sb s, (Disk.dinode sb s.fs.disk d).nlink ≠ 0))

instance decidableRoom (sb : Superblock) (s : Fs) : Decidable (s.Room sb) :=
  inferInstanceAs (Decidable (∀ i < sb.ninodes, _))

/-- Make a directory and a file, and move the file into the directory: a second name, and the first
    one removed. -/
def nameCalls : List SysCall :=
  [.name 0 (.mkdir (some [100])), .openFile 0 (some [102]) 514,
    .name 0 (.link (some [102]) (some [100, 47, 103])), .name 0 (.unlink (some [102]))]

/-- These calls can be made. In the end the file has one link, and the root two. -/
theorem exists_nameCalls : ∃ tr, (sysSystem rootSb ∅).Run rootSys tr ∧
    tr.map Prod.fst = nameCalls.reverse ∧
    System.Along (fun s a => s.fs.Room rootSb ∧ a.InLinked rootSb s) rootSys tr ∧
    (Disk.dinode rootSb (System.last rootSys tr).fs.disk 3).nlink = 1 ∧
    (Disk.dinode rootSb (System.last rootSys tr).fs.disk 1).nlink = 2 := by
  obtain ⟨tr, htr, hacts, hP⟩ := System.exists_run_of (SysCall.perform_sound rootSb ∅) rootSys
    nameCalls (fun tr => decide (System.Along
        (fun (s : Sys) (a : SysCall) => s.fs.Room rootSb ∧ a.InLinked rootSb s) rootSys tr ∧
      (Disk.dinode rootSb (System.last rootSys tr).fs.disk 3).nlink = 1 ∧
      (Disk.dinode rootSb (System.last rootSys tr).fs.disk 1).nlink = 2)) (by decide +kernel)
  exact ⟨tr, htr, hacts, of_decide_eq_true hP⟩

variable {sb : Superblock} {lost : Set ℕ} {U : Multiset ℕ} {s t : Sys}

/-- A call does steps of the tree. -/
theorem sysSystem_evolves (hsb : sb.Wf) (hU : U.Nodup) (h : SysReady sb lost U s)
    (ht : s.fs.TreeOk sb) (hroom : s.fs.Room sb) {a : SysCall}
    (hstep : (sysSystem sb lost).step s a t) : s.fs.Evolves sb (a.InLinked sb s) t.fs :=
  (sysSystem_step hsb hU h hstep).follows ht hroom _ fun hs => hs

/-- **The names form a forest.** In every run, as long as the numbers of links have room; and every
    call does steps of the tree. -/
theorem names_form_forest (hsb : sb.Wf) {s₀ : Sys} {tr : List (SysCall × Sys)}
    (h₀ : s₀ ∈ (sysSystem sb lost).init) (ht : s₀.fs.TreeOk sb) (h : (sysSystem sb lost).Run s₀ tr)
    (hroom : System.Along (fun s _ => s.fs.Room sb) s₀ tr) :
    System.Throughout (fun s => s.fs.Forest sb) s₀ tr ∧
    System.Steps (fun s a t => Relation.ReflTransGen (NameTree.Step (a.InLinked sb s))
      (s.fs.nodes sb) (t.fs.nodes sb)) s₀ tr := by
  have hU : (s₀.files.freelist : Multiset ℕ).Nodup := h₀.files.freelist
  -- The calls need both invariants, and keep both.
  have hinit : SysReady sb lost s₀.files.freelist s₀ ∧ s₀.fs.TreeOk sb := ⟨h₀.ready, ht⟩
  have hstep : ∀ s a t, SysReady sb lost s₀.files.freelist s ∧ s.fs.TreeOk sb →
      (sysSystem sb lost).step s a t → s.fs.Room sb →
      SysReady sb lost s₀.files.freelist t ∧ t.fs.TreeOk sb := fun s a t hs hstep hroom =>
    ⟨(sysSystem_step hsb hU hs.1 hstep).ready,
      hs.2.of_evolves (sysSystem_evolves hsb hU hs.1 hs.2 hroom hstep)⟩
  exact ⟨h.throughout hinit hstep (fun s hs => hs.2.forest hs.1.inv.fs) hroom,
    h.steps hinit hstep (fun s a t hs ht hroom =>
      (sysSystem_evolves hsb hU hs.1 hs.2 hroom ht).steps) hroom⟩

/-- In these calls on names. -/
theorem names_form_forest_names : ∃ tr, (sysSystem rootSb ∅).Run rootSys tr ∧
    tr.map Prod.fst = nameCalls.reverse ∧
    System.Throughout (fun s => s.fs.Forest rootSb) rootSys tr ∧
    System.Steps (fun s a t => Relation.ReflTransGen (NameTree.Step (a.InLinked rootSb s))
      (s.fs.nodes rootSb) (t.fs.nodes rootSb)) rootSys tr := by
  obtain ⟨tr, htr, hacts, halong, -⟩ := exists_nameCalls
  exact ⟨tr, htr, hacts, names_form_forest wf_rootSb rootSys_mem_init treeOk_rootSys htr
    (halong.mono fun _ _ h => h.1)⟩

/-- **The links are exact.** In every run, if the numbers of links have room and names are entered
    in directories with links only; and no inode is lost. -/
theorem links_exact (hsb : sb.Wf) {s₀ : Sys} {tr : List (SysCall × Sys)}
    (h₀ : s₀ ∈ (sysSystem sb lost).init) (ht : s₀.fs.TreeOk sb)
    (hx : NameTree.Exact (Fs.rootNode sb) (s₀.fs.nodes sb)) (h : (sysSystem sb lost).Run s₀ tr)
    (hlinked : System.Along (fun s a => s.fs.Room sb ∧ a.InLinked sb s) s₀ tr) :
    System.Throughout (fun s => (∀ i, (s.fs.nodes sb i).links =
      NameTree.uses (s.fs.nodes sb) i + holds (Fs.rootNode sb) i) ∧ s.fs.NoneLost sb) s₀ tr := by
  have hU : (s₀.files.freelist : Multiset ℕ).Nodup := h₀.files.freelist
  refine h.throughout (Q := fun s => SysReady sb lost s₀.files.freelist s ∧ s.fs.TreeOk sb ∧
    NameTree.Exact (Fs.rootNode sb) (s.fs.nodes sb)) ⟨h₀.ready, ht, hx⟩
    (fun s a t hs hstep hl => ?_) (fun s hs => ?_) hlinked
  · have he := sysSystem_evolves hsb hU hs.1 hs.2.1 hl.1 hstep
    exact ⟨(sysSystem_step hsb hU hs.1 hstep).ready, hs.2.1.of_evolves he,
      hs.2.2.steps he.steps hl.2⟩
  · exact ⟨fun i => (hs.2.2.exact i).symm, Fs.noneLost hs.1.inv.fs hs.2.2⟩

/-- In these calls on names. -/
theorem links_exact_names : ∃ tr, (sysSystem rootSb ∅).Run rootSys tr ∧
    tr.map Prod.fst = nameCalls.reverse ∧
    (Disk.dinode rootSb (System.last rootSys tr).fs.disk 3).nlink = 1 ∧
    (Disk.dinode rootSb (System.last rootSys tr).fs.disk 1).nlink = 2 ∧
    System.Throughout (fun s => (∀ i, (s.fs.nodes rootSb i).links =
      NameTree.uses (s.fs.nodes rootSb) i + holds (Fs.rootNode rootSb) i) ∧ s.fs.NoneLost rootSb)
      rootSys tr := by
  obtain ⟨tr, htr, hacts, halong, hfile, hroot⟩ := exists_nameCalls
  exact ⟨tr, htr, hacts, hfile, hroot,
    links_exact wf_rootSb rootSys_mem_init treeOk_rootSys exact_rootSys htr halong⟩

end Xv6
