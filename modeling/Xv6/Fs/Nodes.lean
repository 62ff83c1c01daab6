import Xv6.Fs.Release
import Xv6.Lib.NameTree

/-!
# The tree on the disk

The inodes of the disk, with the names in the directories, are a tree of names in the sense of
`Xv6.Lib.NameTree` (`Fs.nodes`): the first two entries of a directory are `.` and `..`, and the
other ones are its slots. What the operations on inodes do to the tree is told here: each of them
changes the node of one inode.

A call does what a sequence of steps of the tree does (`Evolves`), if the numbers of links have room
in their 16 bits.
-/

namespace Xv6

/-- The entries of a directory after the first two. -/
abbrev DirSlot := Fin (2 ^ 28)

/-- An inode number as a node. -/
def number (n i : ℕ) : Option (Fin n) := if h : i < n then some ⟨i, h⟩ else none

/-- The kind of node that an inode of the type is. -/
def kindOf (type : Int16) : NodeKind :=
  if type = 0 then .free else if type = Fs.tDir then .dir else .file

namespace Fs

section

variable (sb : Superblock) (s : Fs)

/-- The entry `k` of the directory `i`, if it is in use. -/
def inUse (i k : ℕ) : Option Dirent :=
  if (Disk.dinode sb s.disk i).type = tDir ∧ 16 * k + 16 ≤ (Disk.dinode sb s.disk i).size ∧
    (s.entry sb i k).inum ≠ 0 then some (s.entry sb i k) else none

/-- The inode of the entry `k`, if it has the name. -/
def inodeNamed (i k : ℕ) (name : List UInt8) : Option (Fin sb.ninodes) :=
  (s.inUse sb i k).bind fun de =>
    if cstr dirsiz de.name = name then number sb.ninodes de.inum else none

/-- The name and the inode of an entry. -/
def nameOf (de : Dirent) : Option (List UInt8 × Fin sb.ninodes) :=
  (number sb.ninodes de.inum).map fun j => (cstr dirsiz de.name, j)

/-- The tree on the disk. -/
def nodes : NameTree (Fin sb.ninodes) DirSlot (List UInt8) := fun i => {
  kind := kindOf (Disk.dinode sb s.disk i).type
  links := (Disk.dinode sb s.disk i).nlink.toInt
  self := s.inodeNamed sb i 0 dot
  up := s.inodeNamed sb i 1 dotdot
  entry k := (s.inUse sb i (k + 2)).bind (nameOf sb) }

/-- The root. -/
def rootNode : Option (Fin sb.ninodes) := number sb.ninodes rootIno

/-- Numbers of links can be raised. -/
def Room : Prop := ∀ i < sb.ninodes, (Disk.dinode sb s.disk i).nlink.toInt < 32767

/-- The tree on the disk has the invariant. The inode 0 is not used, and the numbers of inodes fit
    in the 16 bits of an entry. -/
structure TreeOk : Prop where
  wf : NameTree.Wf (rootNode sb) (s.nodes sb)
  zero : ∀ x, x.val = 0 → (s.nodes sb x).kind = .free
  narrow : sb.ninodes ≤ 2 ^ 16

/-- Steps of the tree lead from `s` to `t`, and they do not make the inode 0. -/
structure Evolves (strict : Prop) (t : Fs) : Prop where
  steps : Relation.ReflTransGen (NameTree.Step strict) (s.nodes sb) (t.nodes sb)
  zero : ∀ x, x.val = 0 → (s.nodes sb x).kind = .free → (t.nodes sb x).kind = .free

/-- What a call does to the tree, if it enters names in `parent` only. The steps are strict if the
    parent has links. -/
def Follows (parent : Option ℕ) (t : Fs) : Prop :=
  s.TreeOk sb → s.Room sb → ∀ strict : Prop,
    (strict → ∀ d, parent = some d → (Disk.dinode sb s.disk d).nlink ≠ 0) → s.Evolves sb strict t

/-- A reference to the inode `i` was given back, with which it may have been freed. -/
def Put (i : ℕ) (t : Fs) : Prop :=
  t.nodes sb = s.nodes sb ∨ ∃ x, x.val = i ∧ (s.nodes sb x).links = 0 ∧
    t.nodes sb = Function.update (s.nodes sb) x .unused

end

variable {sb : Superblock} {s t u : Fs} {ip dp : Fin ninode} {i j k inum : ℕ} {lost : Set ℕ}
  {name : List UInt8} {type : Int16} {strict : Prop} {E : FsPanic → Fs → Prop}

theorem toInt_add_one {x : Int16} (h : x.toInt < 32767) : (x + 1).toInt = x.toInt + 1 := by
  have h₁ := x.le_toInt
  rw [Int16.toInt_add]
  change (x.toInt + 1).bmod (2 ^ 16) = _
  exact Int.bmod_eq_of_le (by omega) (by omega)

theorem toInt_sub_one {x : Int16} (h : 1 ≤ x.toInt) : (x - 1).toInt = x.toInt - 1 := by
  have h₁ := x.toInt_lt
  rw [Int16.toInt_sub]
  change (x.toInt - 1).bmod (2 ^ 16) = _
  exact Int.bmod_eq_of_le (by omega) (by omega)

theorem toInt_ne_zero {x : Int16} (h : x ≠ 0) : x.toInt ≠ 0 := fun hz => h (Int16.toInt_inj.1 hz)

theorem number_of_lt {n : ℕ} (h : i < n) : number n i = some ⟨i, h⟩ := dif_pos h

theorem number_eq_some {n : ℕ} {x : Fin n} : number n i = some x ↔ i = x.val := by
  rw [number]
  split
  next h =>
    rw [Option.some.injEq]
    exact ⟨(fun hx => by rw [← hx]), fun hx => Fin.ext hx⟩
  next h => exact ⟨(fun hx => by cases hx), fun hx => absurd (hx ▸ x.isLt) h⟩

@[simp] theorem kindOf_tDir : kindOf tDir = .dir := rfl

theorem kindOf_eq_dir : kindOf type = .dir ↔ type = tDir := by
  rw [kindOf]
  split
  next h => exact ⟨(fun hk => by cases hk), fun hd => absurd (h.symm.trans hd) (by decide)⟩
  next h =>
    split
    next hd => exact ⟨fun _ => hd, fun _ => rfl⟩
    next hd => exact ⟨(fun hk => by cases hk), fun h' => absurd h' hd⟩

theorem kindOf_eq_free : kindOf type = .free ↔ type = 0 := by
  rw [kindOf]
  split
  next h => exact ⟨fun _ => h, fun _ => rfl⟩
  next h =>
    split
    next => exact ⟨(fun hk => by cases hk), fun h' => absurd h' h⟩
    next => exact ⟨(fun hk => by cases hk), fun h' => absurd h' h⟩

/-! ## Entries in use -/

theorem inUse_eq_some {de : Dirent} : s.inUse sb i k = some de ↔
    (Disk.dinode sb s.disk i).type = tDir ∧ 16 * k + 16 ≤ (Disk.dinode sb s.disk i).size ∧
      (s.entry sb i k).inum ≠ 0 ∧ s.entry sb i k = de := by
  rw [inUse]
  split
  next h => simp [h]
  next h =>
    refine ⟨(fun he => by cases he), fun ⟨h₁, h₂, h₃, _⟩ => absurd ⟨h₁, h₂, h₃⟩ h⟩

theorem inUse_of_type_ne (h : (Disk.dinode sb s.disk i).type ≠ tDir) : s.inUse sb i k = none :=
  if_neg fun hc => h hc.1

/-- A name is looked up among the entries in use. -/
theorem ne_of_lookup_eq_none (hl : s.lookup sb i name = none) {de : Dirent}
    (he : s.inUse sb i k = some de) : cstr dirsiz de.name ≠ cstr dirsiz name := by
  obtain ⟨-, hfit, hne, hde⟩ := inUse_eq_some.1 he
  intro hname
  rw [lookup, Option.map_eq_none_iff, List.find?_eq_none] at hl
  refine hl (s.entry sb i k) (List.mem_map.2 ⟨k, List.mem_range.2 (by omega), rfl⟩) ?_
  rw [decide_eq_true_iff, hde]
  exact ⟨hde ▸ hne, namecmp_eq_zero_iff.2 hname.symm⟩

/-- Every entry in use has a node. -/
theorem WellFormed.exists_nameOf (hw : s.WellFormed sb lost) (hi : i < sb.ninodes) {de : Dirent}
    (he : s.inUse sb i k = some de) : ∃ h : de.inum < sb.ninodes,
      nameOf sb de = some (cstr dirsiz de.name, ⟨de.inum, h⟩) := by
  obtain ⟨htype, hfit, -, rfl⟩ := inUse_eq_some.1 he
  have hlt := hw.range i hi htype k hfit
  exact ⟨hlt, by rw [nameOf, number_of_lt hlt]; rfl⟩

/-! ## The node of an inode -/

theorem nodes_links (sb : Superblock) (s : Fs) (i : Fin sb.ninodes) :
    (s.nodes sb i).links = (Disk.dinode sb s.disk i).nlink.toInt := rfl

theorem nodes_entry (sb : Superblock) (s : Fs) (i : Fin sb.ninodes) (k : DirSlot) :
    (s.nodes sb i).entry k = (s.inUse sb i (k.val + 2)).bind (nameOf sb) := rfl

/-- The node depends on the type, the links and the entries. -/
theorem nodes_congr {i : Fin sb.ninodes}
    (htype : (Disk.dinode sb t.disk i).type = (Disk.dinode sb s.disk i).type)
    (hnlink : (Disk.dinode sb t.disk i).nlink = (Disk.dinode sb s.disk i).nlink)
    (huse : ∀ k, t.inUse sb i k = s.inUse sb i k) : t.nodes sb i = s.nodes sb i := by
  rw [nodes, nodes, htype, hnlink]
  simp only [inodeNamed, huse]

theorem nodes_of_disk (hd : t.disk = s.disk) : t.nodes sb = s.nodes sb := by
  funext i
  refine nodes_congr (by rw [hd]) (by rw [hd]) fun k => ?_
  rw [inUse, inUse, hd, entry_congr hd]

theorem SameBlocks.inUse (h : SameBlocks sb i s t) (hno : s.NoHoles sb) (hi : i < sb.ninodes)
    (htype : (Disk.dinode sb t.disk i).type = (Disk.dinode sb s.disk i).type)
    (hsize : (Disk.dinode sb t.disk i).size = (Disk.dinode sb s.disk i).size) (k : ℕ) :
    t.inUse sb i k = s.inUse sb i k := by
  rw [Fs.inUse, Fs.inUse, htype, hsize]
  by_cases hk : (Disk.dinode sb s.disk i).type = tDir ∧
      16 * k + 16 ≤ (Disk.dinode sb s.disk i).size
  · have hne : (Disk.dinode sb s.disk i).type ≠ 0 := by
      rw [hk.1]
      decide
    rw [h.entry hno hi hne hk.2]
  · rw [if_neg fun hc => hk ⟨hc.1, hc.2.1⟩, if_neg fun hc => hk ⟨hc.1, hc.2.1⟩]

theorem SameFile.nodes_eq (h : SameFile sb i s t) (hno : s.NoHoles sb) (hi : i < sb.ninodes) :
    t.nodes sb ⟨i, hi⟩ = s.nodes sb ⟨i, hi⟩ := by
  have hd := h.dinode hi
  refine nodes_congr ?_ ?_ fun k => h.toSameBlocks.inUse hno hi ?_ ?_ k
  all_goals rw [hd]

/-- The file system differs in one inode. -/
theorem nodes_eq_update (hno : s.NoHoles sb) {x : Fin sb.ninodes}
    (hsame : ∀ j, j ≠ x.val → SameFile sb j s t) :
    t.nodes sb = Function.update (s.nodes sb) x (t.nodes sb x) := by
  funext j
  by_cases hj : j = x
  · rw [hj, Function.update_self]
  · rw [Function.update_of_ne hj]
    exact (hsame j.val fun h => hj (Fin.ext h)).nodes_eq hno j.isLt

/-- The file system differs in a file, but not in its type and its links. -/
theorem Others.nodes_eq (ho : Others sb i s t) (hno : s.NoHoles sb)
    (hfile : (Disk.dinode sb s.disk i).type ≠ tDir)
    (htype : (Disk.dinode sb t.disk i).type = (Disk.dinode sb s.disk i).type)
    (hnlink : (Disk.dinode sb t.disk i).nlink = (Disk.dinode sb s.disk i).nlink) :
    t.nodes sb = s.nodes sb := by
  funext j
  by_cases hj : j.val = i
  · subst hj
    refine nodes_congr htype hnlink fun k => ?_
    rw [inUse_of_type_ne (by rwa [htype]), inUse_of_type_ne hfile]
  · exact (ho.sameFile hj).nodes_eq hno j.isLt

/-- An inode that was freed. -/
theorem nodes_of_free {x : Fin sb.ninodes} (htype : (Disk.dinode sb s.disk x).type = 0)
    (hnlink : (Disk.dinode sb s.disk x).nlink = 0) : s.nodes sb x = .unused := by
  have huse : ∀ k, s.inUse sb x k = none := fun k => inUse_of_type_ne (by rw [htype]; decide)
  rw [nodes, htype, hnlink]
  simp only [inodeNamed, huse]
  rfl

/-- The entry `k` was set, and the other ones are as before. -/
theorem EntrySet.inUse_eq {de : Dirent} (he : EntrySet sb lost dp k de s t) (hok : s.Ok sb lost)
    (hc : s.Cached dp) (hdir : (s.inode dp).d.type = tDir) :
    t.inUse sb (s.inode dp).inum k = (if de.inum = 0 then none else some de) ∧
    ∀ k', k' ≠ k → t.inUse sb (s.inode dp).inum k' = s.inUse sb (s.inode dp).inum k' := by
  have hd := he.dinode_eq hok hc
  have hcopy := (hok.loaded hc).copy
  have hle := he.le_size
  have htype : (Disk.dinode sb t.disk (s.inode dp).inum).type = tDir := by
    rw [hd, ← hcopy, hdir]
  have hsize : (Disk.dinode sb t.disk (s.inode dp).inum).size =
      max (s.inode dp).d.size (16 * k + 16) := by rw [hd, hcopy]
  refine ⟨?_, fun k' hk' => ?_⟩
  · by_cases hz : de.inum = 0
    · rw [if_pos hz, Fs.inUse, he.new, if_neg fun h => h.2.2 hz]
    · rw [if_neg hz, inUse_eq_some, he.new]
      exact ⟨htype, by rw [hsize]; exact le_max_right _ _, hz, rfl⟩
  · rw [Fs.inUse, Fs.inUse, htype, hsize, ← hcopy, hdir]
    by_cases hfit : 16 * k' + 16 ≤ (s.inode dp).d.size
    · rw [he.old k' hk' hfit]
      have hfit' : 16 * k' + 16 ≤ max (s.inode dp).d.size (16 * k + 16) :=
        hfit.trans (le_max_left _ _)
      simp only [hfit, hfit', true_and]
    · have hfit' : ¬16 * k' + 16 ≤ max (s.inode dp).d.size (16 * k + 16) := by omega
      rw [if_neg fun h => hfit' h.2.1, if_neg fun h => hfit h.2.1]

/-- A slot was set. -/
theorem EntrySet.nodes_eq {de : Dirent} (he : EntrySet sb lost dp k de s t) (hok : s.Ok sb lost)
    (hno : s.NoHoles sb) (hc : s.Cached dp) (hdir : (s.inode dp).d.type = tDir) (hk : 2 ≤ k) :
    ∃ m : DirSlot, m.val + 2 = k ∧ t.nodes sb = Function.update (s.nodes sb)
      ⟨(s.inode dp).inum, hok.table.inum dp hc.1⟩
      ((s.nodes sb ⟨(s.inode dp).inum, hok.table.inum dp hc.1⟩).edit m
        (if de.inum = 0 then none else nameOf sb de) 0) := by
  have hd := he.dinode_eq hok hc
  obtain ⟨hnew, hold⟩ := he.inUse_eq hok hc hdir
  have hlt : k - 2 < 2 ^ 28 := by
    have h₁ := he.le_size
    have h₂ := hok.size_lt hc
    omega
  refine ⟨⟨k - 2, hlt⟩, Nat.sub_add_cancel hk, ?_⟩
  rw [nodes_eq_update (x := ⟨(s.inode dp).inum, hok.table.inum dp hc.1⟩) hno
    fun j hj => he.others.sameFile hj]
  congr 1
  rw [nodes, nodes, TreeNode.edit]
  simp only [inodeNamed, hd, hold 0 (by omega), hold 1 (by omega), add_zero, TreeNode.mk.injEq,
    true_and]
  funext m
  by_cases hm : m = ⟨k - 2, hlt⟩
  · subst hm
    rw [Function.update_self]
    dsimp only
    rw [Nat.sub_add_cancel hk, hnew]
    by_cases hz : de.inum = 0
    · rw [if_pos hz, if_pos hz]
      rfl
    · rw [if_neg hz, if_neg hz]
      rfl
  · rw [Function.update_of_ne hm, hold (m.val + 2) fun h => hm (Fin.ext (by dsimp only; omega))]

/-! ## Steps of the tree -/

theorem Evolves.refl (sb : Superblock) (s : Fs) (strict : Prop) : s.Evolves sb strict s :=
  ⟨.refl, fun _ _ h => h⟩

theorem Evolves.trans (h : s.Evolves sb strict t) (h' : t.Evolves sb strict u) :
    s.Evolves sb strict u := ⟨h.steps.trans h'.steps, fun x hx hf => h'.zero x hx (h.zero x hx hf)⟩

theorem Evolves.of_nodes (h : t.nodes sb = s.nodes sb) : s.Evolves sb strict t := by
  refine ⟨?_, fun x _ hf => ?_⟩
  · rw [h]
  · rw [h]
    exact hf

theorem Evolves.of_disk (h : t.disk = s.disk) : s.Evolves sb strict t := .of_nodes (nodes_of_disk h)

theorem TreeOk.of_evolves (h : s.TreeOk sb) (he : s.Evolves sb strict t) : t.TreeOk sb :=
  ⟨h.wf.steps he.steps, fun x hx => he.zero x hx (h.zero x hx), h.narrow⟩

theorem TreeOk.congr (h : s.TreeOk sb) (hn : t.nodes sb = s.nodes sb) : t.TreeOk sb :=
  h.of_evolves (Evolves.of_nodes hn : s.Evolves sb True t)

theorem Put.evolves (h : s.Put sb i t) : s.Evolves sb strict t := by
  obtain h | ⟨x, -, hl, hn⟩ := h
  · exact .of_nodes h
  · refine ⟨?_, fun z _ hf => ?_⟩
    · rw [hn]
      exact .single (.drop hl)
    · rw [hn]
      by_cases hz : z = x
      · rw [hz, Function.update_self]
        rfl
      · rwa [Function.update_of_ne hz]

theorem Follows.of_nodes {parent : Option ℕ} (h : t.nodes sb = s.nodes sb) :
    s.Follows sb parent t := fun _ _ _ _ => .of_nodes h

/-- The call has found the same disk. -/
theorem Follows.of_left {parent : Option ℕ} (hd : t.disk = s.disk) (h : t.Follows sb parent u) :
    s.Follows sb parent u := fun ht hroom strict hs => by
  have hn : t.nodes sb = s.nodes sb := nodes_of_disk hd
  have hroom' : t.Room sb := by
    rw [Room, hd]
    exact hroom
  rw [← hd] at hs
  exact (Evolves.of_nodes hn).trans (h (ht.congr hn) hroom' strict hs)

/-- A call that enters no names does its steps, whatever the links are. -/
theorem Follows.of_none {parent : Option ℕ} (h : s.Follows sb none t) : s.Follows sb parent t :=
  fun ht hroom strict _ => h ht hroom strict fun _ _ hd => by cases hd

theorem Follows.trans_nodes {parent : Option ℕ} (h : s.Follows sb parent t)
    (hn : u.nodes sb = t.nodes sb) : s.Follows sb parent u := fun ht hroom strict hs =>
  (h ht hroom strict hs).trans (.of_nodes hn)

theorem Follows.trans_put {parent : Option ℕ} (h : s.Follows sb parent t) (h' : t.Put sb i u) :
    s.Follows sb parent u := fun ht hroom strict hs => (h ht hroom strict hs).trans h'.evolves

/-- Giving a reference back. -/
theorem wp_iput_put (hsb : sb.Wf) (hw : s.WellFormed sb lost) (href : 0 < (s.inode ip).ref)
    {Q : PUnit → Fs → Prop} (hQ : ∀ t, t.WellFormed sb lost → Released sb ip s t →
      s.Put sb (s.inode ip).inum t → Q ⟨⟩ t) : wp (iput sb ip) Q E s :=
  wp_iput hsb hw.ok href
    (fun h₁ hv h₃ t hf => hQ t (hf.wellFormed hw h₁ h₃) (hf.released hw.ok h₁) (by
      have hi := hw.ok.table.inum ip href
      have hcopy := (hw.ok.loaded ⟨href, hv⟩).copy
      have hself : t.nodes sb ⟨(s.inode ip).inum, hi⟩ = .unused :=
        nodes_of_free (by rw [hf.dinode]) (by rw [hf.dinode]; exact h₃)
      refine .inr ⟨⟨(s.inode ip).inum, hi⟩, rfl, ?_, ?_⟩
      · rw [nodes_links, ← hcopy, h₃]
        rfl
      · rw [← hself]
        exact nodes_eq_update hw.noHoles fun j hj => hf.others.sameFile hj))
    fun hnot t hd => hQ t (hd.wellFormed hw ⟨href, hnot⟩) hd.released
      (.inl (nodes_of_disk hd.disk))

/-! ## Entering a name -/

/-- The inode 0 is not used. -/
theorem TreeOk.pos (h : s.TreeOk sb) (hi : i < sb.ninodes)
    (htype : (Disk.dinode sb s.disk i).type ≠ 0) : i ≠ 0 := fun hz =>
  htype (kindOf_eq_free.1 (h.zero ⟨i, hi⟩ hz))

theorem inodeNamed_eq_some {x : Fin sb.ninodes} (h : s.inodeNamed sb i k name = some x) :
    ∃ de, s.inUse sb i k = some de ∧ cstr dirsiz de.name = name ∧ de.inum = x.val := by
  obtain ⟨de, hde, hx⟩ := Option.bind_eq_some_iff.1 h
  split at hx
  next hname => exact ⟨de, hde, hname, number_eq_some.1 hx⟩
  next => cases hx

/-- The entry `.` of a directory. -/
theorem TreeOk.dot (h : s.TreeOk sb) (hi : i < sb.ninodes)
    (hdir : (Disk.dinode sb s.disk i).type = tDir) :
    ∃ de, s.inUse sb i 0 = some de ∧ cstr dirsiz de.name = dot ∧ de.inum = i :=
  inodeNamed_eq_some (h.wf.self ⟨i, hi⟩ (kindOf_eq_dir.2 hdir))

/-- The entry `..` of a directory. -/
theorem TreeOk.dotdot (h : s.TreeOk sb) (hi : i < sb.ninodes)
    (hdir : (Disk.dinode sb s.disk i).type = tDir) :
    ∃ de, s.inUse sb i 1 = some de ∧ cstr dirsiz de.name = dotdot := by
  obtain ⟨x, hx⟩ := Option.isSome_iff_exists.1 (h.wf.hasUp ⟨i, hi⟩ (kindOf_eq_dir.2 hdir))
  obtain ⟨de, hde, hname, -⟩ := inodeNamed_eq_some hx
  exact ⟨de, hde, hname⟩

/-- A free entry is not one of the first two. -/
theorem TreeOk.two_le (h : s.TreeOk sb) (hi : i < sb.ninodes)
    (hdir : (Disk.dinode sb s.disk i).type = tDir) (hk : s.inUse sb i k = none) : 2 ≤ k := by
  obtain ⟨de₀, h₀, -⟩ := h.dot hi hdir
  obtain ⟨de₁, h₁, -⟩ := h.dotdot hi hdir
  have hk₀ : k ≠ 0 := by
    rintro rfl
    rw [h₀] at hk
    cases hk
  have hk₁ : k ≠ 1 := by
    rintro rfl
    rw [h₁] at hk
    cases hk
  omega

/-- A name is entered in a slot that was empty, and no other slot has this name. -/
structure SlotTaken (sb : Superblock) (i : Fin sb.ninodes) (m : DirSlot) (a : List UInt8)
    (j : Fin sb.ninodes) (s t : Fs) : Prop where
  dir : (s.nodes sb i).kind = .dir
  vacant : (s.nodes sb i).entry m = none
  absent : ∀ m' j', (s.nodes sb i).entry m' ≠ some (a, j')
  nodes : t.nodes sb = Function.update (s.nodes sb) i ((s.nodes sb i).edit m (some (a, j)) 0)

theorem Entered.slotTaken (he : Entered sb lost dp name inum k s t) (hw : s.WellFormed sb lost)
    (hc : s.Cached dp) (hn : sb.ninodes ≤ 2 ^ 16)
    (htwo : s.inUse sb (s.inode dp).inum k = none → 2 ≤ k) (hinum : inum < sb.ninodes)
    (hpos : inum ≠ 0) :
    ∃ m, SlotTaken sb ⟨(s.inode dp).inum, hw.ok.table.inum dp hc.1⟩ m (cstr dirsiz name)
      ⟨inum, hinum⟩ s t := by
  have hi := hw.ok.table.inum dp hc.1
  have hcopy := (hw.ok.loaded hc).copy
  have hdir : (Disk.dinode sb s.disk (s.inode dp).inum).type = tDir := by
    rw [← hcopy, he.type]
  have hvacant : s.inUse sb (s.inode dp).inum k = none := by
    rw [Fs.inUse]
    refine if_neg fun h => h.2.2 (he.vacant ?_)
    rw [hcopy]
    exact h.2.1
  have hmod : inum % 2 ^ 16 = inum := Nat.mod_eq_of_lt (hinum.trans_le hn)
  obtain ⟨m, hm, hn⟩ := he.toEntrySet.nodes_eq hw.ok hw.noHoles hc he.type (htwo hvacant)
  dsimp only at hn
  rw [hmod, if_neg hpos] at hn
  refine ⟨m, kindOf_eq_dir.2 hdir, ?_, fun m' j' h => ?_, ?_⟩
  · rw [nodes_entry, hm, hvacant]
    rfl
  · obtain ⟨de, hde, hname⟩ := Option.bind_eq_some_iff.1 h
    obtain ⟨x, -, hx⟩ := Option.map_eq_some_iff.1 hname
    exact ne_of_lookup_eq_none he.absent hde (Prod.mk.inj hx).1
  · rw [hn, nameOf, number_of_lt hinum, Option.map_some, cstr_strncpy]

end Fs

end Xv6
