import Xv6.Fs.Name
import Mathlib.Data.Multiset.Count

/-!
# The directory tree

The directory tree is read off the disk: the entries of a directory, the inode that a name stands
for in it (`lookup`), and what a path leads to (`resolve`).

A call that walks along a path takes references and drops them again. `Holding` compares the table
of inodes with the one that the call has found: no reference was lost, and besides those that were
there, only those that the call holds have been taken. The disk stays as it is: in a well-formed
file system an inode without links is held by somebody, so that dropping a reference that the call
has taken does not free it.
-/

namespace Xv6

namespace Fs

/-! ## Names on the disk -/

section

variable (sb : Superblock) (s : Fs)

/-- The entry `k` of the directory `i` on the disk. -/
def entry (i k : ℕ) : Dirent := .ofBytes ((List.range 16).map fun o => s.byteAt sb i (16 * k + o))

/-- The inode that the name stands for in the directory `i`. -/
def lookup (i : ℕ) (name : List UInt8) : Option ℕ :=
  (((List.range ((Disk.dinode sb s.disk i).size / 16)).map (s.entry sb i)).find?
    fun de => de.Names name).map Dirent.inum

/-- The inode to which the path leads from the inode `i`, and the name of its last element; with
    `nameiparent`, the directory in which this name is looked up. `fuel` bounds the number of
    elements. -/
def resolve (nameiparent : Bool) : ℕ → ℕ → List UInt8 → List UInt8 → Option (ℕ × List UInt8)
  | 0, i, _, name => some (i, name)
  | fuel + 1, i, path, name =>
    match skipelem path name with
    | none => if nameiparent then none else some (i, name)
    | some (name, path) =>
      if (Disk.dinode sb s.disk i).type ≠ tDir then none
      else if nameiparent ∧ path = [] then some (i, name)
      else
        match s.lookup sb i name with
        | none => none
        | some i => resolve nameiparent fuel i path name

/-- The inode from which a path starts. -/
def startOf (cwd : Fin ninode) (path : List UInt8) : ℕ :=
  if path.headD 0 = 47 then rootIno else (s.inode cwd).inum

/-- The directory to which the path leads but for its last element, and this element. -/
def parentOf (cwd : Fin ninode) (path : List UInt8) : Option (ℕ × List UInt8) :=
  s.resolve sb true (path.length + 1) (s.startOf cwd path) path []

/-- The inode to which the path leads. -/
def inodeOf (cwd : Fin ninode) (path : List UInt8) : Option ℕ :=
  (s.resolve sb false (path.length + 1) (s.startOf cwd path) path []).map Prod.fst

end

/-- A file system between two calls. The blocks are owned, and the inodes in memory are as on the
    disk; there are no holes; an inode that is referenced is allocated, and an allocated one that has no
    links is referenced and was read; and the entries of directories are numbers of inodes. -/
structure WellFormed (sb : Superblock) (lost : Set ℕ) (s : Fs) : Prop where
  ok : s.Ok sb lost
  noHoles : s.NoHoles sb
  root : rootIno < sb.ninodes
  held : ∀ ip, 0 < (s.inode ip).ref → (Disk.dinode sb s.disk (s.inode ip).inum).type ≠ 0
  linked : ∀ i < sb.ninodes, (Disk.dinode sb s.disk i).type ≠ 0 →
    (Disk.dinode sb s.disk i).nlink = 0 → ∃ ip, s.Cached ip ∧ (s.inode ip).inum = i
  free : ∀ i < sb.ninodes, (Disk.dinode sb s.disk i).type = 0 → (Disk.dinode sb s.disk i).nlink = 0
  range : ∀ i < sb.ninodes, (Disk.dinode sb s.disk i).type = tDir →
    ∀ k, 16 * k + 16 ≤ (Disk.dinode sb s.disk i).size → (s.entry sb i k).inum < sb.ninodes

/-- The directories consist of whole entries, and none of them is dangling. -/
structure Intact (sb : Superblock) (s : Fs) : Prop where
  root : (Disk.dinode sb s.disk rootIno).type ≠ 0
  whole : ∀ i < sb.ninodes, (Disk.dinode sb s.disk i).type = tDir →
    16 ∣ (Disk.dinode sb s.disk i).size
  entry : ∀ i < sb.ninodes, (Disk.dinode sb s.disk i).type = tDir →
    ∀ k, 16 * k + 16 ≤ (Disk.dinode sb s.disk i).size → (s.entry sb i k).inum ≠ 0 →
      (Disk.dinode sb s.disk (s.entry sb i k).inum).type ≠ 0

/-- At most one entry of the table of inodes is free. -/
def Crowded (s : Fs) : Prop := ∀ ip jp, (s.inode ip).ref = 0 → (s.inode jp).ref = 0 → ip = jp

/-- The references of `t` are those of `s`, to the same inodes, and besides `h`. -/
structure Refs (sb : Superblock) (s : Fs) (h : Multiset (Fin ninode)) (t : Fs) : Prop where
  ref : ∀ ip, (t.inode ip).ref = (s.inode ip).ref + h.count ip
  inum : ∀ ip, 0 < (s.inode ip).ref → (t.inode ip).inum = (s.inode ip).inum
  valid : ∀ ip, 0 < (s.inode ip).ref → (s.inode ip).valid = true → (t.inode ip).valid = true
  type : ∀ ip, 0 < (s.inode ip).ref → (Disk.dinode sb t.disk (s.inode ip).inum).type =
    (Disk.dinode sb s.disk (s.inode ip).inum).type

/-- The call that has found the file system `s` has the references `h` in `t`, and the disk is as it
    was. -/
structure Holding (sb : Superblock) (lost : Set ℕ) (s : Fs) (h : Multiset (Fin ninode)) (t : Fs) :
    Prop extends Refs sb s h t where
  ok : t.Ok sb lost
  disk : t.disk = s.disk

variable {sb : Superblock} {s t u : Fs} {ip dp cwd : Fin ninode} {i j k inum fuel : ℕ}
  {lost : Set ℕ} {h : Multiset (Fin ninode)} {path name : List UInt8} {E : FsPanic → Fs → Prop}

/-! ## Entries in memory and on the disk -/

theorem direntAt_eq (hok : s.Ok sb lost) (hc : s.Cached dp) (k : ℕ) :
    s.direntAt sb dp k = s.entry sb (s.inode dp).inum k := by
  rw [direntAt, slice, hok.byte hc, entry]

theorem lookup_eq_some (hk : 16 * k + 16 ≤ (Disk.dinode sb s.disk i).size)
    (hname : (s.entry sb i k).Names name) (hbefore : ∀ k' < k, ¬(s.entry sb i k').Names name) :
    s.lookup sb i name = some (s.entry sb i k).inum := by
  have hlt : k < (Disk.dinode sb s.disk i).size / 16 := by omega
  have hfind : ((List.range ((Disk.dinode sb s.disk i).size / 16)).map (s.entry sb i)).find?
      (fun de => decide (de.Names name)) = some (s.entry sb i k) := by
    rw [List.find?_map, List.find?_range_eq_some.2]
    · rfl
    · refine ⟨decide_eq_true hname, List.mem_range.2 hlt, fun k' hk' => ?_⟩
      simpa using hbefore k' hk'
  rw [lookup, hfind]
  rfl

theorem lookup_eq_none (hall : ∀ k, 16 * k + 16 ≤ (Disk.dinode sb s.disk i).size →
    ¬(s.entry sb i k).Names name) : s.lookup sb i name = none := by
  rw [lookup, Option.map_eq_none_iff, List.find?_eq_none]
  intro de hde
  obtain ⟨k, hk, rfl⟩ := List.mem_map.1 hde
  have := List.mem_range.1 hk
  simpa using hall k (by omega)

/-- What `lookup` returns is the number in an entry. -/
theorem exists_of_lookup_eq_some (hl : s.lookup sb i name = some j) :
    ∃ k, 16 * k + 16 ≤ (Disk.dinode sb s.disk i).size ∧ (s.entry sb i k).Names name ∧
      (s.entry sb i k).inum = j := by
  obtain ⟨de, hde, rfl⟩ := Option.map_eq_some_iff.1 hl
  have hname : de.Names name := by simpa using List.find?_some hde
  obtain ⟨k, hk, rfl⟩ := List.mem_map.1 (List.mem_of_find?_eq_some hde)
  have := List.mem_range.1 hk
  exact ⟨k, by omega, hname, rfl⟩

/-- The path gets shorter. -/
theorem length_lt_of_skipelem {last rest : List UInt8}
    (hs : skipelem path name = some (last, rest)) : rest.length < path.length := by
  unfold skipelem at hs
  dsimp only at hs
  split at hs
  next => cases hs
  next hne =>
    obtain ⟨-, rfl⟩ := Prod.mk.inj (Option.some.inj hs)
    have hlen := (List.dropWhile_sublist (fun c : UInt8 => decide (c = 47)) (l := path)).length_le
    obtain ⟨c, l, hcl⟩ := List.exists_cons_of_ne_nil hne
    have hc : c ≠ 47 := by
      have := List.head_dropWhile_not (fun c : UInt8 => decide (c = 47)) hne
      simpa [hcl] using this
    rw [hcl] at hlen ⊢
    rw [List.dropWhile_cons_of_pos (by simpa using hc)]
    have h₁ := (List.dropWhile_sublist (fun c : UInt8 => decide (c ≠ 47)) (l := l)).length_le
    have h₂ := (List.dropWhile_sublist (fun c : UInt8 => decide (c = 47))
      (l := l.dropWhile fun c => decide (c ≠ 47))).length_le
    exact (h₂.trans h₁).trans_lt hlen

/-! ## The references of a call -/

theorem Refs.refl (s : Fs) : Refs sb s 0 s :=
  ⟨fun _ => rfl, fun _ _ => rfl, fun _ _ h => h, fun _ _ => rfl⟩

theorem Refs.trans {h' : Multiset (Fin ninode)} (hr : Refs sb s h t) (hr' : Refs sb t h' u) :
    Refs sb s (h + h') u := by
  have hpos : ∀ ip, 0 < (s.inode ip).ref → 0 < (t.inode ip).ref := fun ip hip => by
    rw [hr.ref]
    omega
  refine ⟨fun ip => ?_, fun ip hip => ?_, fun ip hip hv => ?_, fun ip hip => ?_⟩
  · rw [hr'.ref, hr.ref, Multiset.count_add, add_assoc]
  · exact (hr'.inum ip (hpos ip hip)).trans (hr.inum ip hip)
  · exact hr'.valid ip (hpos ip hip) (hr.valid ip hip hv)
  · rw [← hr.type ip hip, ← hr.inum ip hip]
    exact hr'.type ip (hpos ip hip)

theorem Refs.trans_zero (hr : Refs sb s h t) (hr' : Refs sb t 0 u) : Refs sb s h u :=
  add_zero h ▸ hr.trans hr'

theorem Refs.ref_eq (hr : Refs sb s 0 t) (ip : Fin ninode) : (t.inode ip).ref = (s.inode ip).ref :=
  hr.ref ip

theorem Refs.ref_pos (hr : Refs sb s (ip ::ₘ h) t) : 0 < (t.inode ip).ref := by
  rw [hr.ref, Multiset.count_cons_self]
  omega

/-- The entries in use are as they were, but for the copies of inodes. -/
theorem Refs.of_slots (href : ∀ ip, (t.inode ip).ref = (s.inode ip).ref)
    (hslot : ∀ ip, 0 < (s.inode ip).ref → (t.inode ip).inum = (s.inode ip).inum ∧
      ((s.inode ip).valid = true → (t.inode ip).valid = true))
    (htype : ∀ ip, 0 < (s.inode ip).ref → (Disk.dinode sb t.disk (s.inode ip).inum).type =
      (Disk.dinode sb s.disk (s.inode ip).inum).type) : Refs sb s 0 t :=
  ⟨href, fun ip hip => (hslot ip hip).1, fun ip hip => (hslot ip hip).2, htype⟩

/-- Another reference. -/
theorem Got.refs (hg : Got inum s ip t) : Refs sb s {ip} t := by
  have hslot : ∀ jp, 0 < (s.inode jp).ref →
      (t.inode jp).inum = (s.inode jp).inum ∧ (t.inode jp).valid = (s.inode jp).valid := by
    intro jp hjp
    by_cases hji : jp = ip
    · subst hji
      rcases hg.slot with ⟨_, _, hs⟩ | ⟨hz, _, _⟩
      · rw [hs]
        exact ⟨rfl, rfl⟩
      · exact absurd hjp (by omega)
    · rw [hg.frame jp hji]
      exact ⟨rfl, rfl⟩
  refine ⟨fun jp => ?_, fun jp hjp => (hslot jp hjp).1, fun jp hjp => (hslot jp hjp).2.trans,
    fun _ _ => by rw [hg.disk]⟩
  by_cases hjp : jp = ip
  · subst hjp
    rw [Multiset.count_singleton_self]
    rcases hg.slot with ⟨_, _, hs⟩ | ⟨hz, _, hs⟩
    · rw [hs]
    · rw [hs, hz]
  · rw [hg.frame jp hjp, Multiset.count_singleton, if_neg hjp]
    rfl

/-- One reference less. -/
theorem Refs.dropped (hr : Refs sb s (ip ::ₘ h) t) (hd : Dropped sb lost ip t u) :
    Refs sb s h u := by
  have hslot : ∀ jp, (u.inode jp).inum = (t.inode jp).inum ∧
      (u.inode jp).valid = (t.inode jp).valid := by
    intro jp
    by_cases hji : jp = ip
    · rw [hji, hd.self]
      exact ⟨rfl, rfl⟩
    · rw [hd.frame jp hji]
      exact ⟨rfl, rfl⟩
  refine ⟨fun jp => ?_, fun jp hjp => (hslot jp).1.trans (hr.inum jp hjp), fun jp hjp hv => ?_,
    fun jp hjp => ?_⟩
  · have := hr.ref jp
    by_cases hjp : jp = ip
    · subst hjp
      rw [Multiset.count_cons_self] at this
      rw [hd.self]
      dsimp only
      omega
    · rwa [Multiset.count_cons_of_ne hjp, ← hd.frame jp hjp] at this
  · rw [(hslot jp).2]
    exact hr.valid jp hjp hv
  · rw [hd.disk]
    exact hr.type jp hjp

theorem Holding.refl (hok : s.Ok sb lost) : Holding sb lost s 0 s := ⟨.refl s, hok, rfl⟩

/-- Nothing but the copies of inodes has changed. -/
theorem Holding.of_slots (hh : Holding sb lost s h t) (hok : u.Ok sb lost) (hdisk : u.disk = t.disk)
    (href : ∀ ip, (u.inode ip).ref = (t.inode ip).ref)
    (hslot : ∀ ip, 0 < (t.inode ip).ref → (u.inode ip).inum = (t.inode ip).inum ∧
      ((t.inode ip).valid = true → (u.inode ip).valid = true)) :
    Holding sb lost s h u :=
  ⟨hh.toRefs.trans_zero (.of_slots href hslot fun _ _ => by rw [hdisk]), hok,
    hdisk.trans hh.disk⟩

theorem Holding.get (hh : Holding sb lost s h t) (hi : inum < sb.ninodes) (hg : Got inum t ip u) :
    Holding sb lost s (ip ::ₘ h) u where
  toRefs := by
    rw [← Multiset.singleton_add, add_comm]
    exact hh.toRefs.trans hg.refs
  ok := ⟨by rw [hg.disk]; exact hh.ok.owned, by rw [hg.disk]; exact hg.table hh.ok.table hi⟩
  disk := hg.disk.trans hh.disk

theorem Holding.dropped (hh : Holding sb lost s (ip ::ₘ h) t) (hd : Dropped sb lost ip t u) :
    Holding sb lost s h u := ⟨hh.toRefs.dropped hd, hd.ok, hd.disk.trans hh.disk⟩

/-- Dropping a reference to the inode does not free it. -/
structure Spare (s : Fs) (ip : Fin ninode) : Prop where
  ref : 0 < (s.inode ip).ref
  not_free : ¬((s.inode ip).ref = 1 ∧ (s.inode ip).valid = true ∧ (s.inode ip).d.nlink = 0)

/-- If the last reference to an inode is one that the call has taken, the inode has links. -/
theorem Holding.spare (hw : s.WellFormed sb lost) (hh : Holding sb lost s (ip ::ₘ h) t) :
    t.Spare ip := by
  refine ⟨hh.ref_pos, ?_⟩
  rintro ⟨href, hvalid, hnlink⟩
  have hl := hh.ok.loaded ⟨hh.ref_pos, hvalid⟩
  have hcopy := hl.copy
  rw [hh.disk] at hcopy
  rw [hcopy] at hnlink
  obtain ⟨jp, ⟨hjp, -⟩, hinum⟩ := hw.linked _ hl.inum (hcopy ▸ hl.type) hnlink
  have hjt : 0 < (t.inode jp).ref := by
    rw [hh.ref]
    omega
  obtain rfl := hh.ok.table.distinct jp ip hjt hh.ref_pos ((hh.inum jp hjp).trans hinum)
  have hcount := hh.ref jp
  rw [Multiset.count_cons_self] at hcount
  omega

theorem wp_iput_spare (hsb : sb.Wf) (hok : s.Ok sb lost) (hs : s.Spare ip)
    {Q : PUnit → Fs → Prop} (hQ : ∀ t, Dropped sb lost ip s t → Q ⟨⟩ t) :
    wp (iput sb ip) Q E s :=
  wp_iput hsb hok hs.ref (fun h₁ h₂ h₃ => absurd ⟨h₁, h₂, h₃⟩ hs.not_free) fun _ => hQ

/-- Dropping a reference that the call has taken. -/
theorem wp_iput_holding (hsb : sb.Wf) (hw : s.WellFormed sb lost)
    (hh : Holding sb lost s (ip ::ₘ h) t) {Q : PUnit → Fs → Prop}
    (hQ : ∀ u, Holding sb lost s h u → Dropped sb lost ip t u → Q ⟨⟩ u) :
    wp (iput sb ip) Q E t :=
  wp_iput_spare hsb hh.ok (hh.spare hw) fun u hd => hQ u (hh.dropped hd) hd

/-- Locking an inode of which the call has a reference. -/
theorem wp_ilock_holding (hh : Holding sb lost s h t) {Q : PUnit → Fs → Prop}
    (hQ : ∀ u, Holding sb lost s h u → u.Cached ip →
      (u.inode ip).d = Disk.dinode sb s.disk (t.inode ip).inum →
      (∀ jp, (u.inode jp).ref = (t.inode jp).ref ∧ (u.inode jp).inum = (t.inode jp).inum) →
      (∀ jp, jp ≠ ip → u.inode jp = t.inode jp) → Q ⟨⟩ u)
    (hE : (t.inode ip).ref = 0 ∨ (Disk.dinode sb s.disk (t.inode ip).inum).type = 0 →
      ∀ e u, E e u) : wp (ilock sb ip) Q E t := by
  refine wp_ilock hh.ok (fun u hok hdisk _ _ hc hframe hself => ?_) fun e u he => hE ?_ e u
  swap
  · rw [hh.disk] at he
    exact he.imp And.right And.right
  have hslot : ∀ jp, (u.inode jp).ref = (t.inode jp).ref ∧
      (u.inode jp).inum = (t.inode jp).inum := by
    intro jp
    by_cases hjp : jp = ip
    · rw [hjp, hself]
      exact ⟨rfl, rfl⟩
    · rw [hframe jp hjp]
      exact ⟨rfl, rfl⟩
  have hvalid : ∀ jp, (t.inode jp).valid = true → (u.inode jp).valid = true := by
    intro jp hv
    by_cases hjp : jp = ip
    · rw [hjp, hself]
    · rwa [hframe jp hjp]
  refine hQ u (hh.of_slots hok hdisk (fun jp => (hslot jp).1) fun jp _ => ⟨(hslot jp).2, hvalid jp⟩)
    hc ?_ hslot hframe
  rw [hself, hh.disk]

/-! ## Well-formed file systems -/

theorem entry_congr (hd : t.disk = s.disk) : t.entry sb = s.entry sb := by
  funext i k
  simp only [entry, byteAt, stores_congr hd, hd]

theorem entry_eq (h : ∀ o, 16 * k ≤ o → o < 16 * k + 16 → t.byteAt sb i o = s.byteAt sb j o) :
    t.entry sb i k = s.entry sb j k := by
  rw [entry, entry]
  refine congrArg Dirent.ofBytes (List.map_congr_left fun o ho => ?_)
  have := List.mem_range.1 ho
  exact h _ (by omega) (by omega)

/-- A byte below the size is in a block. -/
theorem NoHoles.stores_ne (hno : s.NoHoles sb) (hi : i < sb.ninodes)
    (htype : (Disk.dinode sb s.disk i).type ≠ 0) {o : ℕ} (ho : o < (Disk.dinode sb s.disk i).size) :
    s.stores sb (i, slotOf (o / bsize)) ≠ 0 :=
  hno i hi htype _ (lt_ceil_iff.2 ((Nat.div_mul_le_self o bsize).trans_lt ho))

/-- The entries of the inodes other than `i`. -/
theorem Others.entry (ho : Others sb i s t) (hno : s.NoHoles sb) (hj : j < sb.ninodes) (hji : j ≠ i)
    (htype : (Disk.dinode sb s.disk j).type ≠ 0)
    (hk : 16 * k + 16 ≤ (Disk.dinode sb s.disk j).size) : t.entry sb j k = s.entry sb j k :=
  entry_eq fun o _ hlt => ho.data j o hji (hno.stores_ne hj htype (by omega))

/-- The inode `i` and the references to it have changed. -/
theorem WellFormed.others (hw : s.WellFormed sb lost) (hok : t.Ok sb lost) (hno : t.NoHoles sb)
    (ho : Others sb i s t)
    (hkeep : ∀ ip, s.Cached ip → (s.inode ip).inum ≠ i →
      t.Cached ip ∧ (t.inode ip).inum = (s.inode ip).inum)
    (hheld : ∀ ip, 0 < (t.inode ip).ref → (t.inode ip).inum ≠ i →
      ∃ jp, 0 < (s.inode jp).ref ∧ (s.inode jp).inum = (t.inode ip).inum)
    (htype : ∀ ip, 0 < (t.inode ip).ref → (t.inode ip).inum = i →
      (Disk.dinode sb t.disk i).type ≠ 0)
    (hlinked : i < sb.ninodes → (Disk.dinode sb t.disk i).type ≠ 0 →
      (Disk.dinode sb t.disk i).nlink = 0 → ∃ ip, t.Cached ip ∧ (t.inode ip).inum = i)
    (hfree : i < sb.ninodes → (Disk.dinode sb t.disk i).type = 0 →
      (Disk.dinode sb t.disk i).nlink = 0)
    (hrange : i < sb.ninodes → (Disk.dinode sb t.disk i).type = tDir →
      ∀ k, 16 * k + 16 ≤ (Disk.dinode sb t.disk i).size → (t.entry sb i k).inum < sb.ninodes) :
    t.WellFormed sb lost where
  ok := hok
  noHoles := hno
  root := hw.root
  held ip hip := by
    by_cases hi : (t.inode ip).inum = i
    · rw [hi]
      exact htype ip hip hi
    · obtain ⟨jp, hjp, hinum⟩ := hheld ip hip hi
      rw [ho.dinode _ (hok.table.inum ip hip) hi, ← hinum]
      exact hw.held jp hjp
  linked j hj htj hnj := by
    by_cases hji : j = i
    · subst hji
      exact hlinked hj htj hnj
    · rw [ho.dinode j hj hji] at htj hnj
      obtain ⟨ip, hip, hinum⟩ := hw.linked j hj htj hnj
      obtain ⟨hr, hi⟩ := hkeep ip hip (by rwa [hinum])
      exact ⟨ip, hr, hi.trans hinum⟩
  free j hj htj := by
    by_cases hji : j = i
    · subst hji
      exact hfree hj htj
    · rw [ho.dinode j hj hji] at htj ⊢
      exact hw.free j hj htj
  range j hj htj k hk := by
    by_cases hji : j = i
    · subst hji
      exact hrange hj htj k hk
    · rw [ho.dinode j hj hji] at htj hk
      rw [ho.entry hw.noHoles hj hji (by rw [htj]; decide) hk]
      exact hw.range j hj htj k hk

theorem Refs.cached (hr : Refs sb s h t) (hc : s.Cached ip) : t.Cached ip :=
  ⟨by rw [hr.ref]; exact hc.1.trans_le (Nat.le_add_right _ _), hr.valid ip hc.1 hc.2⟩

/-- An inode that is referenced has changed. -/
theorem WellFormed.update (hw : s.WellFormed sb lost) (hok : t.Ok sb lost) (hno : t.NoHoles sb)
    (hip : s.Cached ip) (ho : Others sb (s.inode ip).inum s t) (hr : Refs sb s 0 t)
    (htype : (Disk.dinode sb t.disk (s.inode ip).inum).type ≠ 0)
    (hrange : (Disk.dinode sb t.disk (s.inode ip).inum).type = tDir →
      ∀ k, 16 * k + 16 ≤ (Disk.dinode sb t.disk (s.inode ip).inum).size →
        (t.entry sb (s.inode ip).inum k).inum < sb.ninodes) : t.WellFormed sb lost := by
  have hrt : ∀ jp, 0 < (t.inode jp).ref ↔ 0 < (s.inode jp).ref := fun jp => by
    rw [hr.ref, Multiset.count_zero, add_zero]
  refine hw.others hok hno ho (fun jp hjp _ => ⟨hr.cached hjp, hr.inum jp hjp.1⟩)
    (fun jp hjp _ => ⟨jp, (hrt jp).1 hjp, (hr.inum jp ((hrt jp).1 hjp)).symm⟩) (fun _ _ _ => htype)
    (fun _ _ _ => ⟨ip, hr.cached hip, hr.inum ip hip.1⟩) (fun _ h => absurd h htype)
    fun _ => hrange

/-- The call has locked the inodes that it holds. -/
theorem Holding.wellFormed (hw : s.WellFormed sb lost) (hh : Holding sb lost s h t)
    (htype : ∀ ip ∈ h, (Disk.dinode sb t.disk (t.inode ip).inum).type ≠ 0) :
    t.WellFormed sb lost where
  ok := hh.ok
  noHoles := hw.noHoles.of_disk hh.disk
  root := hw.root
  held ip hip := by
    by_cases hmem : ip ∈ h
    · exact htype ip hmem
    · rw [hh.ref, Multiset.count_eq_zero.2 hmem, add_zero] at hip
      rw [hh.inum ip hip, hh.disk]
      exact hw.held ip hip
  linked i hi ht hn := by
    rw [hh.disk] at ht hn
    obtain ⟨ip, hip, hinum⟩ := hw.linked i hi ht hn
    exact ⟨ip, hh.cached hip, (hh.inum ip hip.1).trans hinum⟩
  free i hi ht := by
    rw [hh.disk] at ht ⊢
    exact hw.free i hi ht
  range i hi ht k hk := by
    rw [hh.disk] at ht hk
    rw [entry_congr hh.disk]
    exact hw.range i hi ht k hk

/-! ## Lookup -/

/-- Looking up a name in a directory that is locked. -/
theorem wp_dirlookup_holding (hw : s.WellFormed sb lost) (hh : Holding sb lost s h t)
    (hc : t.Cached dp) {Q : Option (Fin ninode × ℕ) → Fs → Prop}
    (hnone : (t.inode dp).d.type = tDir → s.lookup sb (t.inode dp).inum name = none → Q none t)
    (hsome : (t.inode dp).d.type = tDir → ∀ k ip u,
      16 * k + 16 ≤ (Disk.dinode sb s.disk (t.inode dp).inum).size →
      (s.entry sb (t.inode dp).inum k).Names name →
      s.lookup sb (t.inode dp).inum name = some (s.entry sb (t.inode dp).inum k).inum →
      Got (s.entry sb (t.inode dp).inum k).inum t ip u → Holding sb lost s (ip ::ₘ h) u →
      Q (some (ip, 16 * k)) u)
    (hdir : (t.inode dp).d.type ≠ tDir → E .dirlookupNotDir t)
    (hread : (t.inode dp).d.type = tDir → ¬16 ∣ (t.inode dp).d.size → E .dirlookupRead t)
    (hget : t.TableFull → E .igetNoInodes t) : wp (dirlookup sb dp name) Q E t := by
  have hl := hh.ok.loaded hc
  have hcopy := hl.copy
  rw [hh.disk] at hcopy
  have hat : ∀ k, t.direntAt sb dp k = s.entry sb (t.inode dp).inum k := fun k => by
    rw [direntAt_eq hh.ok hc, entry_congr hh.disk]
  refine wp_dirlookup ((hw.noHoles.of_disk hh.disk).full hh.ok hc) (hh.ok.size_lt hc)
    (fun htype hall => hnone htype ?_) (fun htype k hk hname hbefore ip u hg => ?_) hdir
    hread fun _ _ _ hfull => hget hfull
  · refine lookup_eq_none fun k hk => ?_
    rw [← hat]
    rw [← hcopy] at hk
    exact hall k (by omega)
  · simp only [hat] at hname hbefore hg
    rw [hcopy] at hk
    refine hsome htype k ip u hk hname (lookup_eq_some hk hname hbefore) hg (hh.get ?_ hg)
    exact hw.range _ hl.inum (hcopy ▸ htype) k hk

/-- If the call holds one reference at most and the table is full, one entry was free at most. -/
theorem Holding.crowded (hh : Holding sb lost s h t) (hcard : Multiset.card h ≤ 1)
    (hfull : t.TableFull) : s.Crowded := by
  have hmem : ∀ ip, (s.inode ip).ref = 0 → ip ∈ h := by
    intro ip hip
    have := hfull ip
    rw [hh.ref, hip, zero_add] at this
    exact Multiset.count_pos.1 this
  intro ip jp hip hjp
  obtain ⟨a, rfl⟩ := Multiset.card_eq_one.1
    (le_antisymm hcard (Multiset.card_pos_iff_exists_mem.2 ⟨ip, hmem ip hip⟩))
  rw [Multiset.mem_singleton.1 (hmem ip hip), Multiset.mem_singleton.1 (hmem jp hjp)]

theorem wp_namexLoop (hsb : sb.Wf) (hw : s.WellFormed sb lost) {par : Bool}
    (hfuel : path.length < fuel) (hh : Holding sb lost s {ip} t)
    (htype : s.Intact sb → (Disk.dinode sb s.disk (t.inode ip).inum).type ≠ 0)
    {Q : Option (Fin ninode × List UInt8) → Fs → Prop}
    (hnone : ∀ u, s.resolve sb par fuel (t.inode ip).inum path name = none →
      Holding sb lost s 0 u → Q none u)
    (hsome : ∀ jp last u, s.resolve sb par fuel (t.inode ip).inum path name =
        some ((u.inode jp).inum, last) →
      (par = true → u.Cached jp ∧ (u.inode jp).d.type = tDir) →
      Holding sb lost s {jp} u → Q (some (jp, last)) u)
    (hbad : ¬s.Intact sb → ∀ e u, E e u) (hget : s.Crowded → ∀ u, E .igetNoInodes u) :
    wp (namexLoop sb par fuel ip path name) Q E t := by
  -- By induction on the fuel: a round takes one element off the path, and the inode `ip` is the
  -- only one that the call refers to.
  induction fuel generalizing ip path name t with
  | zero => exact absurd hfuel (Nat.not_lt_zero _)
  | succ fuel ih =>
    rw [namexLoop]
    rw [resolve] at hnone hsome
    cases hskip : skipelem path name with
    | none =>
      rw [hskip] at hnone hsome
      dsimp only at hnone hsome ⊢
      -- The path ends: `nameiparent` has no element left, and `namei` has found its inode.
      cases par with
      | true =>
        rw [if_pos rfl, wp_bind]
        exact wp_iput_holding hsb hw hh fun u hu _ => hnone u rfl hu
      | false => exact hsome ip name t rfl (fun h => absurd h Bool.false_ne_true) hh
    | some p =>
      obtain ⟨last, rest⟩ := p
      have hlen := length_lt_of_skipelem hskip
      rw [hskip] at hnone hsome
      dsimp only at hnone hsome ⊢
      rw [wp_bind]
      refine wp_ilock_holding hh (fun u hu hc hd hslot _ => ?_) fun hz => hbad fun hint => ?_
      swap
      · -- `ilock` panics for free inodes only.
        exact hz.elim hh.ref_pos.ne' (htype hint)
      rw [← (hslot ip).2] at hnone hsome hd
      have hi : (u.inode ip).inum < sb.ninodes := hu.ok.table.inum ip hc.1
      rw [wp_bind, wp_get]
      rw [← hd] at hnone hsome
      split
      next htype =>
        -- Not a directory.
        rw [if_pos htype] at hnone
        rw [iunlockput, wp_bind]
        exact wp_iput_holding hsb hw hu fun v hv _ => hnone v rfl hv
      next hdir =>
      rw [if_neg hdir] at hnone hsome
      rw [not_not] at hdir
      split
      next hlast =>
        -- `nameiparent` stops one level early, and keeps the lock.
        rw [if_pos hlast] at hsome
        exact hsome ip last u rfl (fun _ => ⟨hc, hdir⟩) hu
      next hlast =>
      rw [if_neg hlast] at hnone hsome
      rw [wp_bind]
      refine wp_dirlookup_holding hw hu hc (fun _ hl => ?_) (fun _ k jp v hk hname hl hg hv => ?_)
        (fun h => absurd hdir h) (fun _ hcut => hbad (fun hint => hcut ?_) _ _)
        fun hfull => hget (hu.crowded (Multiset.card_singleton ip).le hfull) u
      · -- The name is not there.
        rw [hl] at hnone
        rw [iunlockput, wp_bind]
        exact wp_iput_holding hsb hw hu fun w hw' _ => hnone w rfl hw'
      · -- The name is there: the directory is put, and the search goes on from the inode `jp`.
        rw [hl] at hnone hsome
        rw [iunlockput, wp_bind]
        have hv' : Holding sb lost s (ip ::ₘ {jp}) v := by
          rwa [show jp ::ₘ ({ip} : Multiset (Fin ninode)) = ip ::ₘ {jp} from
            Multiset.pair_comm jp ip] at hv
        refine wp_iput_holding hsb hw hv' fun w hw' hdrop => ?_
        have hinum : (w.inode jp).inum = (s.entry sb (u.inode ip).inum k).inum := by
          rw [← hg.inum_eq]
          by_cases hji : jp = ip
          · rw [hji, hdrop.self]
          · rw [hdrop.frame jp hji]
        rw [← hinum] at hnone hsome
        refine ih (by omega) hw' (fun hint => ?_) hnone hsome
        rw [hinum]
        exact hint.entry _ hi (hd ▸ hdir) k hk hname.1
      · -- A panic of `dirlookup`, which an intact disk rules out.
        rw [hd]
        exact hint.whole _ hi (hd ▸ hdir)

/-- `namex` follows the path. -/
theorem wp_namex (hsb : sb.Wf) (hw : s.WellFormed sb lost) {par : Bool}
    (hcwd : 0 < (s.inode cwd).ref) {Q : Option (Fin ninode × List UInt8) → Fs → Prop}
    (hnone : ∀ u, s.resolve sb par (path.length + 1) (s.startOf cwd path) path [] = none →
      Holding sb lost s 0 u → Q none u)
    (hsome : ∀ jp last u, s.resolve sb par (path.length + 1) (s.startOf cwd path) path [] =
        some ((u.inode jp).inum, last) →
      (par = true → u.Cached jp ∧ (u.inode jp).d.type = tDir) →
      Holding sb lost s {jp} u → Q (some (jp, last)) u)
    (hbad : ¬s.Intact sb → ∀ e u, E e u) (hget : s.Crowded → ∀ u, E .igetNoInodes u) :
    wp (namex sb cwd path par) Q E s := by
  have hstart : wp (if path.headD 0 = 47 then iget rootIno else idup cwd)
      (fun ip t => Holding sb lost s {ip} t ∧ (t.inode ip).inum = s.startOf cwd path) E s := by
    rw [startOf]
    split
    next =>
      refine wp_iget (fun ip t hg => ⟨(Holding.refl hw.ok).get hw.root hg, hg.inum_eq⟩) fun hfull => ?_
      exact hget ((Holding.refl hw.ok).crowded (Nat.zero_le 1) hfull) s
    next =>
      rw [idup, wp_bind]
      refine wp_setInode fun t hdisk _ _ hself hframe => ?_
      have hg : Got (s.inode cwd).inum s cwd t := ⟨hdisk, hframe, .inl ⟨hcwd, rfl, hself⟩⟩
      exact ⟨(Holding.refl hw.ok).get (hw.ok.table.inum cwd hcwd) hg, hg.inum_eq⟩
  rw [namex, wp_bind]
  refine hstart.mono (fun ip t ht => ?_) fun _ _ he => he
  rw [← ht.2] at hnone hsome
  refine wp_namexLoop hsb hw (Nat.lt_succ_self _) ht.1 (fun hint => ?_) hnone hsome hbad hget
  rw [ht.2, startOf]
  split
  · exact hint.root
  · exact hw.held cwd hcwd

theorem wp_namei (hsb : sb.Wf) (hw : s.WellFormed sb lost) (hcwd : 0 < (s.inode cwd).ref)
    {Q : Option (Fin ninode) → Fs → Prop}
    (hnone : ∀ u, s.inodeOf sb cwd path = none → Holding sb lost s 0 u → Q none u)
    (hsome : ∀ ip u, s.inodeOf sb cwd path = some (u.inode ip).inum → Holding sb lost s {ip} u →
      Q (some ip) u)
    (hbad : ¬s.Intact sb → ∀ e u, E e u) (hget : s.Crowded → ∀ u, E .igetNoInodes u) :
    wp (namei sb cwd path) Q E s := by
  rw [namei, wp_bind]
  refine wp_namex hsb hw hcwd (fun u hr hu => hnone u ?_ hu) (fun ip last u hr _ hu =>
    hsome ip u ?_ hu) hbad hget
  · rw [inodeOf, hr]
    rfl
  · rw [inodeOf, hr]
    rfl

theorem wp_nameiparent (hsb : sb.Wf) (hw : s.WellFormed sb lost) (hcwd : 0 < (s.inode cwd).ref)
    {Q : Option (Fin ninode × List UInt8) → Fs → Prop}
    (hnone : ∀ u, s.parentOf sb cwd path = none → Holding sb lost s 0 u → Q none u)
    (hsome : ∀ dp last u, s.parentOf sb cwd path = some ((u.inode dp).inum, last) →
      u.Cached dp → (u.inode dp).d.type = tDir → Holding sb lost s {dp} u → Q (some (dp, last)) u)
    (hbad : ¬s.Intact sb → ∀ e u, E e u) (hget : s.Crowded → ∀ u, E .igetNoInodes u) :
    wp (nameiparent sb cwd path) Q E s :=
  wp_namex hsb hw hcwd hnone (fun dp last u hr hd hu => hsome dp last u hr (hd rfl).1 (hd rfl).2 hu)
    hbad hget

end Fs

end Xv6
