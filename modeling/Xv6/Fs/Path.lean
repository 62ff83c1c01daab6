import Xv6.Fs.Tree

/-!
# Paths

A path is the list of its elements, which are what stands between the slashes, cut to the length of
a name (`elems`). To follow a path is to look the elements up one after the other (`follow`).

`namex` does so with one loop for `namei` and `nameiparent`, and with a buffer in which the bytes of
earlier elements stay behind the NUL of later ones.
-/

namespace Xv6

/-! ## Elements -/

/-- The non-empty parts of a list between the separators. -/
def comps {α : Type} [DecidableEq α] (c : α) (l : List α) : List (List α) :=
  (l.splitOn c).filter (· ≠ [])

section

variable {α : Type} [DecidableEq α] {c : α} {l : List α}

@[simp] theorem comps_nil (c : α) : comps c [] = [] := by simp [comps]

theorem comps_cons_self (c : α) (l : List α) : comps c (c :: l) = comps c l := by
  simp [comps, List.splitOn_cons_eq_if_modifyHead]

theorem comps_dropWhile (c : α) (l : List α) : comps c (l.dropWhile (· = c)) = comps c l := by
  induction l with
  | nil => rfl
  | cons a l ih =>
    by_cases ha : a = c
    · rw [List.dropWhile_cons_of_pos (by simpa using ha), ih, ha, comps_cons_self]
    · rw [List.dropWhile_cons_of_neg (by simpa using ha)]

/-- The first part is what stands before the first separator. -/
theorem comps_eq_cons (hne : l ≠ []) (hhead : l.head hne ≠ c) :
    comps c l = l.takeWhile (· ≠ c) :: comps c (l.dropWhile (· ≠ c)) := by
  have hw : ∀ x ∈ l.takeWhile (· ≠ c), (x == c) = false := fun x hx => by
    simpa using List.mem_takeWhile_imp hx
  have hne' : l.takeWhile (· ≠ c) ≠ [] := by
    obtain ⟨a, l, rfl⟩ := List.exists_cons_of_ne_nil hne
    have ha : a ≠ c := hhead
    simp [ha]
  have hsplit := List.takeWhile_append_dropWhile (p := fun x => decide (x ≠ c)) (l := l)
  have hlast : ∀ hd : l.dropWhile (· ≠ c) ≠ [], (l.dropWhile (· ≠ c)).head hd = c := fun hd => by
    simpa using List.head_dropWhile_not (fun x => decide (x ≠ c)) hd
  generalize l.takeWhile (· ≠ c) = w at *
  generalize l.dropWhile (· ≠ c) = r at *
  subst hsplit
  cases r with
  | nil =>
    rw [List.append_nil, comps_nil, comps, List.splitOn_eq_singleton_of_beq_eq_false hw,
      List.filter_cons_of_pos (by simpa using hne'), List.filter_nil]
  | cons b r =>
    obtain rfl : b = c := hlast (List.cons_ne_nil b r)
    rw [comps_cons_self, comps,
      List.splitOn_append_cons_of_forall_mem_beq_eq_false hw b (beq_self_eq_true b),
      List.filter_cons_of_pos (by simpa using hne'), comps]

end

namespace Fs

/-- The elements of a path. -/
def elems (path : List UInt8) : List (List UInt8) := (comps 47 path).map (List.take dirsiz)

/-- Look up the names one after the other, from the inode `i`. -/
def follow (sb : Superblock) (s : Fs) : ℕ → List (List UInt8) → Option ℕ
  | i, [] => some i
  | i, e :: es =>
    if (Disk.dinode sb s.disk i).type = tDir then
      match s.lookup sb i e with
      | none => none
      | some j => follow sb s j es
    else none

variable {sb : Superblock} {s t u : Fs} {ip dp cwd : Fin ninode} {i j k inum fuel : ℕ}
  {lost : Set ℕ} {path name last rest e : List UInt8} {es : List (List UInt8)}
  {E : FsPanic → Fs → Prop}

theorem skipelem_eq_none (hs : skipelem path name = none) : elems path = [] := by
  unfold skipelem at hs
  dsimp only at hs
  split at hs
  next hz => rw [elems, ← comps_dropWhile, hz, comps_nil, List.map_nil]
  next => cases hs

/-- The buffer holds the first element of the path. -/
theorem skipelem_eq_some (hz : 0 ∉ path) (hs : skipelem path name = some (last, rest)) :
    ∃ e, elems path = e :: elems rest ∧ cstr dirsiz last = e ∧ cstr dirsiz e = e ∧ 0 ∉ rest ∧
      (rest = [] ↔ elems rest = []) := by
  unfold skipelem at hs
  dsimp only at hs
  split at hs
  next => cases hs
  next hne =>
  obtain ⟨hlast, hrest⟩ := Prod.mk.inj (Option.some.inj hs)
  have hhead : (path.dropWhile (· = 47)).head hne ≠ 47 := by
    simpa using List.head_dropWhile_not (fun x : UInt8 => decide (x = 47)) hne
  have hcomps := comps_eq_cons hne hhead
  rw [comps_dropWhile, ← comps_dropWhile 47 ((path.dropWhile (· = 47)).dropWhile (· ≠ 47)),
    hrest] at hcomps
  have hw : ∀ x ∈ (path.dropWhile (· = 47)).takeWhile (· ≠ 47), x ≠ 0 := by
    rintro x hx rfl
    exact hz ((List.dropWhile_sublist _).subset ((List.takeWhile_sublist _).subset hx))
  generalize (path.dropWhile (· = 47)).takeWhile (· ≠ 47) = w at hcomps hw hlast
  have hself : cstr dirsiz (w.take dirsiz) = w.take dirsiz := by
    rw [cstr, List.take_take, min_self]
    exact List.takeWhile_eq_self_iff.2 fun x hx => by simpa using hw x (List.mem_of_mem_take hx)
  refine ⟨w.take dirsiz, by rw [elems, hcomps]; rfl, ?_, hself, ?_, ?_⟩
  · rw [← hlast]
    split
    next => exact hself
    next hlen =>
      obtain ⟨m, hm⟩ : ∃ m, dirsiz - w.length = m + 1 := ⟨dirsiz - w.length - 1, by omega⟩
      rw [cstr, List.take_append, hm, List.take_of_length_le (by omega), List.take_succ_cons,
        List.takeWhile_append_of_pos fun x hx => by simpa using hw x hx]
      simp
  · rw [← hrest]
    intro h0
    exact hz ((List.dropWhile_sublist _).subset ((List.dropWhile_sublist _).subset
      ((List.dropWhile_sublist _).subset h0)))
  · refine ⟨fun h => by rw [h, elems, comps_nil, List.map_nil], fun h => ?_⟩
    by_contra hne'
    subst hrest
    rw [elems, comps_eq_cons hne'] at h
    · cases h
    · simpa using List.head_dropWhile_not (fun x : UInt8 => decide (x = 47)) hne'

/-- Names that agree up to their NULs stand for the same inode. -/
theorem lookup_congr_name (h : cstr dirsiz name = cstr dirsiz e) :
    s.lookup sb i name = s.lookup sb i e := by
  have hnames : ∀ de : Dirent, decide (de.Names name) = decide (de.Names e) := fun de => by
    rw [decide_eq_decide, Dirent.Names, Dirent.Names, namecmp_eq_zero_iff, namecmp_eq_zero_iff, h]
  rw [lookup, lookup, funext hnames]

/-- `namei` follows the elements of the path. -/
theorem resolve_inode (hz : 0 ∉ path) (hfuel : path.length < fuel) :
    (s.resolve sb false fuel i path name).map Prod.fst = s.follow sb i (elems path) := by
  induction fuel generalizing i path name with
  | zero => exact absurd hfuel (Nat.not_lt_zero _)
  | succ fuel ih =>
    rw [resolve]
    cases hskip : skipelem path name with
    | none =>
      rw [skipelem_eq_none hskip]
      rfl
    | some p =>
      obtain ⟨last, rest⟩ := p
      obtain ⟨e, helems, hlast, he, hz', -⟩ := skipelem_eq_some hz hskip
      have hlen := length_lt_of_skipelem hskip
      dsimp only
      rw [helems, follow, if_neg (fun h : false = true ∧ rest = [] => Bool.false_ne_true h.1)]
      by_cases hdir : (Disk.dinode sb s.disk i).type = tDir
      · rw [if_neg (not_not.2 hdir), if_pos hdir, lookup_congr_name (hlast.trans he.symm)]
        cases s.lookup sb i e with
        | none => rfl
        | some j => exact ih hz' (by omega)
      · rw [if_pos hdir, if_neg hdir]
        rfl

/-- `nameiparent` fails if there are no elements. -/
theorem resolve_parent_nil (hz : 0 ∉ path) (hnil : elems path = []) :
    s.resolve sb true (fuel + 1) i path name = none := by
  rw [resolve]
  cases hskip : skipelem path name with
  | none => rfl
  | some p =>
    obtain ⟨last, rest⟩ := p
    obtain ⟨e, helems, -⟩ := skipelem_eq_some hz hskip
    rw [hnil] at helems
    cases helems

/-- `nameiparent` follows the elements of the path but for the last one. -/
theorem resolve_parent (hz : 0 ∉ path) (hfuel : path.length < fuel) (hes : elems path = es ++ [e]) :
    (∀ d, s.follow sb i es = some d → (Disk.dinode sb s.disk d).type = tDir →
      ∃ last, s.resolve sb true fuel i path name = some (d, last) ∧ namecmp last e = 0) ∧
    ((∀ d, s.follow sb i es = some d → (Disk.dinode sb s.disk d).type ≠ tDir) →
      s.resolve sb true fuel i path name = none) := by
  induction fuel generalizing i path name es with
  | zero => exact absurd hfuel (Nat.not_lt_zero _)
  | succ fuel ih =>
    cases hskip : skipelem path name with
    | none =>
      rw [skipelem_eq_none hskip] at hes
      exact absurd hes.symm (List.append_ne_nil_of_right_ne_nil _ (List.cons_ne_nil _ _))
    | some p =>
      obtain ⟨last, rest⟩ := p
      obtain ⟨e', helems, hlast, he, hz', hrest⟩ := skipelem_eq_some hz hskip
      have hlen := length_lt_of_skipelem hskip
      simp only [resolve, hskip]
      rw [helems] at hes
      by_cases hdir : (Disk.dinode sb s.disk i).type = tDir
      swap
      · rw [if_pos hdir]
        refine ⟨fun d hd htype => ?_, fun _ => rfl⟩
        cases es with
        | nil =>
          cases hd
          exact absurd htype hdir
        | cons a es =>
          rw [follow, if_neg hdir] at hd
          cases hd
      rw [if_neg (not_not.2 hdir)]
      by_cases hr : rest = []
      · rw [if_pos ⟨trivial, hr⟩]
        rw [hrest.1 hr] at hes
        obtain ⟨rfl, rfl⟩ : es = [] ∧ e = e' := by
          cases es with
          | nil => exact ⟨rfl, (List.cons.inj hes).1.symm⟩
          | cons a es =>
            have := (List.cons.inj hes).2
            exact absurd this.symm (List.append_ne_nil_of_right_ne_nil _ (List.cons_ne_nil _ _))
        refine ⟨fun d hd _ => ⟨last, ?_, namecmp_eq_zero_iff.2 (hlast.trans he.symm)⟩, fun hno => ?_⟩
        · cases hd
          rfl
        · exact absurd hdir (hno i rfl)
      · rw [if_neg fun h => hr h.2]
        obtain ⟨es', rfl, hes'⟩ : ∃ es', es = e' :: es' ∧ elems rest = es' ++ [e] := by
          cases es with
          | nil => exact absurd (hrest.2 (List.cons.inj hes).2) hr
          | cons a es =>
            obtain ⟨rfl, h⟩ := List.cons.inj hes
            exact ⟨es, rfl, h⟩
        simp only [follow, if_pos hdir]
        rw [lookup_congr_name (hlast.trans he.symm)]
        cases s.lookup sb i e' with
        | none => exact ⟨fun d hd => (by cases hd), fun _ => rfl⟩
        | some j => exact ih hz' (by omega) hes'

/-! ## `namei` and `nameiparent` -/

theorem follow_concat : s.follow sb i (es ++ [e]) =
    match s.follow sb i es with
    | none => none
    | some d => if (Disk.dinode sb s.disk d).type = tDir then s.lookup sb d e else none := by
  induction es generalizing i with
  | nil =>
    simp only [List.nil_append, follow]
    split
    · cases s.lookup sb i e <;> rfl
    · rfl
  | cons a es ih =>
    rw [List.cons_append, follow, follow]
    split
    · cases s.lookup sb i a with
      | none => rfl
      | some j => exact ih
    · rfl

/-- The references are those of before, and one to `r`. -/
def OneMore (s : Fs) (r : Option (Fin ninode)) (t : Fs) : Prop :=
  ∀ ip, (t.inode ip).ref = (s.inode ip).ref + if r = some ip then 1 else 0

theorem Holding.oneMore_none (hh : Holding sb lost s 0 t) : OneMore s none t := fun ip => by
  rw [hh.ref, if_neg (by simp)]
  rfl

theorem Holding.oneMore_some (hh : Holding sb lost s {ip} t) : OneMore s (some ip) t := fun jp => by
  rw [hh.ref, Multiset.count_singleton]
  simp only [Option.some.injEq, eq_comm]

/-- What `namei` returns. -/
theorem namei_follow (hsb : sb.Wf) (hw : s.WellFormed sb lost) (hint : s.Intact sb)
    (hcwd : 0 < (s.inode cwd).ref) (hz : 0 ∉ path) :
    wp (namei sb cwd path) (fun r t => r.map (fun ip => (t.inode ip).inum) =
        s.follow sb (s.startOf cwd path) (elems path) ∧ OneMore s r t)
      (fun e _ => s.Crowded ∧ e = .igetNoInodes) s := by
  have hres : s.inodeOf sb cwd path = s.follow sb (s.startOf cwd path) (elems path) :=
    resolve_inode hz (Nat.lt_succ_self _)
  refine wp_namei hsb hw hcwd (fun t hr ht => ⟨?_, ht.oneMore_none⟩)
    (fun ip t hr ht => ⟨?_, ht.oneMore_some⟩) (fun h => absurd hint h) fun h _ => ⟨h, rfl⟩
  · rw [← hres, hr]
    rfl
  · rw [← hres, hr]
    rfl

/-- The parent that `nameiparent` returns, for a path with the elements `es` and a last one `e`. -/
structure IsParent (sb : Superblock) (s : Fs) (cwd : Fin ninode) (path : List UInt8)
    (es : List (List UInt8)) (e : List UInt8) (r : Option (Fin ninode × List UInt8)) (t : Fs) :
    Prop where
  /-- It is what the path leads to without the last element, if this is a directory. -/
  inum : r.map (fun x => (t.inode x.1).inum) = (s.follow sb (s.startOf cwd path) es).filter
    fun d => (Disk.dinode sb s.disk d).type = tDir
  /-- The buffer has the name of the last element. -/
  name : ∀ x, r = some x → namecmp x.2 e = 0
  /-- Without a parent the path leads nowhere. -/
  fails : r = none → s.follow sb (s.startOf cwd path) (elems path) = none
  /-- `dirlookup` of this name in the parent finds what the path leads to. -/
  dirlookup : ∀ x, r = some x → wp (dirlookup sb x.1 x.2)
    (fun r' u => r'.map (fun y => (u.inode y.1).inum) =
      s.follow sb (s.startOf cwd path) (elems path)) (fun e _ => s.Crowded ∧ e = .igetNoInodes) t

theorem nameiparent_follow (hsb : sb.Wf) (hw : s.WellFormed sb lost) (hint : s.Intact sb)
    (hcwd : 0 < (s.inode cwd).ref) (hz : 0 ∉ path) :
    wp (nameiparent sb cwd path) (fun r t => (elems path = [] → r = none) ∧
        (∀ es e, elems path = es ++ [e] → IsParent sb s cwd path es e r t) ∧
        OneMore s (r.map Prod.fst) t)
      (fun e _ => s.Crowded ∧ e = .igetNoInodes) s := by
  have hres : ∀ es e, elems path = es ++ [e] →
      (∀ d, s.follow sb (s.startOf cwd path) es = some d →
        (Disk.dinode sb s.disk d).type = tDir →
        ∃ last, s.resolve sb true (path.length + 1) (s.startOf cwd path) path [] = some (d, last) ∧
          namecmp last e = 0) ∧
      ((∀ d, s.follow sb (s.startOf cwd path) es = some d →
        (Disk.dinode sb s.disk d).type ≠ tDir) →
        s.resolve sb true (path.length + 1) (s.startOf cwd path) path [] = none) :=
    fun es e hes => resolve_parent hz (Nat.lt_succ_self _) hes
  refine wp_nameiparent hsb hw hcwd (fun t hr ht => ⟨fun _ => rfl, fun es e hes => ?_,
    ht.oneMore_none⟩) (fun dp last t hr hc hdp ht => ⟨fun hnil => ?_, fun es e hes => ?_,
    ht.oneMore_some⟩) (fun h => absurd hint h) fun h _ => ⟨h, rfl⟩
  · -- No parent is found: the elements before the last one lead to no directory.
    obtain ⟨hdir, hno⟩ := hres es e hes
    have hnone : ∀ d, s.follow sb (s.startOf cwd path) es = some d →
        (Disk.dinode sb s.disk d).type ≠ tDir := by
      intro d hd htype
      obtain ⟨last, hl, -⟩ := hdir d hd htype
      rw [parentOf, hl] at hr
      cases hr
    refine ⟨?_, fun x hx => (by cases hx), fun _ => ?_, fun x hx => (by cases hx)⟩
    · cases hf : s.follow sb (s.startOf cwd path) es with
      | none => rfl
      | some d => simp [Option.filter, hnone d hf]
    · rw [hes, follow_concat]
      cases hf : s.follow sb (s.startOf cwd path) es with
      | none => rfl
      | some d => exact if_neg (hnone d hf)
  · -- A path without elements has no parent.
    rw [parentOf, resolve_parent_nil hz hnil] at hr
    cases hr
  · -- The parent is found, and looking up the last element there is following the whole path.
    obtain ⟨hdir, hno⟩ := hres es e hes
    obtain ⟨d, hd, htype⟩ : ∃ d, s.follow sb (s.startOf cwd path) es = some d ∧
        (Disk.dinode sb s.disk d).type = tDir := by
      by_contra hcon
      have := hno fun d hd htype => hcon ⟨d, hd, htype⟩
      rw [parentOf, this] at hr
      cases hr
    obtain ⟨last', hl, hname⟩ := hdir d hd htype
    rw [parentOf, hl] at hr
    obtain ⟨rfl, rfl⟩ := Prod.mk.inj (Option.some.inj hr)
    have hwhole : s.follow sb (s.startOf cwd path) (elems path) =
        s.lookup sb (t.inode dp).inum last' := by
      rw [hes, follow_concat, hd]
      dsimp only
      rw [if_pos htype]
      exact lookup_congr_name (namecmp_eq_zero_iff.1 hname).symm
    refine ⟨?_, fun x hx => ?_, fun h => (by cases h), fun x hx => ?_⟩
    · rw [hd]
      simp [Option.filter, htype]
    · cases hx
      exact hname
    · cases hx
      rw [hwhole]
      refine wp_dirlookup_holding hw ht hc (fun _ hl => hl.symm) (fun _ k ip u _ _ hl hg _ => ?_)
        (fun h => absurd hdp h) (fun _ hcut => absurd ?_ hcut)
        fun hfull => ⟨ht.crowded (Multiset.card_singleton dp).le hfull, rfl⟩
      · rw [hl, ← hg.inum_eq]
        rfl
      · have hcopy := (ht.ok.loaded hc).copy
        rw [ht.disk] at hcopy
        rw [hcopy]
        exact hint.whole _ (ht.ok.table.inum dp hc.1) htype

end Fs

/-- **Paths are followed.** In a well-formed file system without dangling entries, and with two
    entries of the table of inodes that are free, `namei` returns the inode to which the elements of
    the path lead, and `nameiparent` the directory to which they lead but for the last one, in which
    `dirlookup` of its name finds the same inode. The only reference that is left is the one that is
    returned. Without two free entries, the lookup may end with the panic of `iget`. -/
theorem paths_followed {sb : Superblock} (hsb : sb.Wf) {s : Fs} {lost : Set ℕ}
    (hw : s.WellFormed sb lost) (hint : s.Intact sb) {cwd : Fin ninode}
    (hcwd : 0 < (s.inode cwd).ref) {path : List UInt8} (hz : 0 ∉ path) :
    ((∃ r t, Fs.namei sb cwd path s = .ok r t ∧ r.map (fun ip => (t.inode ip).inum) =
        s.follow sb (s.startOf cwd path) (Fs.elems path) ∧ Fs.OneMore s r t) ∨
      ∃ e t, Fs.namei sb cwd path s = .error e t ∧ s.Crowded ∧ e = .igetNoInodes) ∧
    ((∃ r t, Fs.nameiparent sb cwd path s = .ok r t ∧ (Fs.elems path = [] → r = none) ∧
        (∀ es e, Fs.elems path = es ++ [e] → Fs.IsParent sb s cwd path es e r t) ∧
        Fs.OneMore s (r.map Prod.fst) t) ∨
      ∃ e t, Fs.nameiparent sb cwd path s = .error e t ∧ s.Crowded ∧ e = .igetNoInodes) :=
  ⟨(Fs.namei_follow hsb hw hint hcwd hz).ok_or_error,
    (Fs.nameiparent_follow hsb hw hint hcwd hz).ok_or_error⟩

/-! ## A disk of directories -/

/-- The disk with the inodes of the list written. -/
def Disk.putDinodes (sb : Superblock) (d : Disk) (x : Dinode) : List ℕ → Disk
  | [] => d
  | i :: l => Disk.putDinode sb (Disk.putDinodes sb d x l) i x

theorem Disk.dinode_putDinodes {sb : Superblock} {d : Disk} {x : Dinode} (hx : x.Fits) {l : List ℕ}
    {j : ℕ} : Disk.dinode sb (Disk.putDinodes sb d x l) j =
      if j ∈ l then x else Disk.dinode sb d j := by
  induction l with
  | nil => rfl
  | cons i l ih =>
    rw [Disk.putDinodes, Disk.dinode_putDinode hx, ih]
    by_cases hji : j = i
    · simp [hji]
    · simp [hji]

theorem Disk.marked_putDinodes {sb : Superblock} (hsb : sb.Wf) {d : Disk} {x : Dinode} {l : List ℕ}
    {b : ℕ} (hl : ∀ i ∈ l, i < sb.ninodes) :
    Disk.marked sb (Disk.putDinodes sb d x l) b = Disk.marked sb d b := by
  induction l with
  | nil => rfl
  | cons i l ih =>
    rw [Disk.putDinodes, Disk.marked_putDinode hsb (hl i List.mem_cons_self),
      ih fun j hj => hl j (List.mem_cons_of_mem i hj)]

theorem Disk.putDinodes_data {sb : Superblock} (hsb : sb.Wf) {d : Disk} {x : Dinode} {l : List ℕ}
    {b : ℕ} (hl : ∀ i ∈ l, i < sb.ninodes) (hb : sb.nmeta ≤ b) :
    Disk.putDinodes sb d x l b = d b := by
  induction l with
  | nil => rfl
  | cons i l ih =>
    rw [Disk.putDinodes, Disk.putDinode_data hsb (hl i List.mem_cons_self) hb,
      ih fun j hj => hl j (List.mem_cons_of_mem i hj)]

/-- A disk of ten blocks, with 64 inodes. -/
def treeSb : Superblock where
  magic := 0x10203040
  size := 10
  nblocks := 2
  ninodes := 64
  nlog := 0
  logstart := 2
  inodestart := 2
  bmapstart := 7

/-- The inode of an empty directory. -/
def emptyDir : Dinode := { Dinode.new 1 with nlink := 1 }

/-- The inode of the root: the block `8` holds its entries. -/
def treeRoot : Dinode :=
  { Dinode.new 1 with nlink := 1, size := 48, addrs := fun k => if k = 0 then 8 else 0 }

/-- The entries of the root, where `a` is the name of the inode `2`. -/
def treeEntries : List UInt8 :=
  (Dirent.bytes ⟨1, strncpy [46] 14⟩) ++ (Dirent.bytes ⟨1, strncpy [46, 46] 14⟩) ++
    (Dirent.bytes ⟨2, strncpy [97] 14⟩)

/-- A file system with the root, and empty directories for the other inodes. -/
def tree (tab : Fin ninode → MemInode) : Fs where
  disk := Disk.putDinode treeSb (Disk.putDinodes treeSb
    (fun b => if b = 7 then Bytes.write (Bytes.fill 0) 0 [255, 1]
      else if b = 8 then Bytes.write (Bytes.fill 0) 0 treeEntries else Bytes.fill 0)
    emptyDir (List.range 64)) 1 treeRoot
  logged := []
  printed := []
  inode := tab

theorem wf_treeSb : treeSb.Wf := ⟨by decide, by decide, by decide, by decide⟩

theorem fits_emptyDir : emptyDir.Fits := ⟨(Dinode.fits_new 1).size, (Dinode.fits_new 1).addrs⟩

theorem fits_treeRoot : treeRoot.Fits := ⟨by decide, by decide⟩

theorem dinode_tree (tab : Fin ninode → MemInode) {i : ℕ} (hi : i < 64) :
    Disk.dinode treeSb (tree tab).disk i = if i = 1 then treeRoot else emptyDir := by
  dsimp only [tree]
  rw [Disk.dinode_putDinode fits_treeRoot, Disk.dinode_putDinodes fits_emptyDir,
    if_pos (List.mem_range.2 hi)]

theorem type_tree (tab : Fin ninode → MemInode) {i : ℕ} (hi : i < 64) :
    (Disk.dinode treeSb (tree tab).disk i).type = 1 := by
  rw [dinode_tree tab hi]
  split <;> rfl

theorem stores_tree (tab : Fin ninode → MemInode) (x : ℕ × FileSlot) :
    (tree tab).stores treeSb x = if x = (1, .addr 0) then 8 else 0 := by
  have hroot : Disk.dinode treeSb (tree tab).disk 1 = treeRoot := dinode_tree tab (by decide)
  refine Fs.stores_single (by decide) (by rw [hroot]; decide) (fun k => by rw [hroot]; rfl)
    (fun j hj hne _ k => ?_) x
  rw [dinode_tree tab hj, if_neg hne]
  rfl

/-- The entries of the root. -/
theorem entry_tree (tab : Fin ninode → MemInode) {k : ℕ} (hk : k < 3) :
    (tree tab).entry treeSb 1 k = .ofBytes ((treeEntries.drop (16 * k)).take 16) := by
  have hl : ∀ i ∈ List.range 64, i < treeSb.ninodes := fun i hi => List.mem_range.1 hi
  have hdisk : (tree tab).disk 8 = Bytes.write (Bytes.fill 0) 0 treeEntries := by
    dsimp only [tree]
    rw [Disk.putDinode_data wf_treeSb (by decide) (by decide),
      Disk.putDinodes_data wf_treeSb hl (by decide)]
    rfl
  rw [Fs.entry]
  refine congrArg Dirent.ofBytes ?_
  have hbyte : ∀ o ∈ List.range 16, (tree tab).byteAt treeSb 1 (16 * k + o) =
      (Bytes.write (Bytes.fill 0) 0 treeEntries : Block).get (16 * k + o) := by
    intro o ho
    have hlt : 16 * k + o < bsize := by
      have := List.mem_range.1 ho
      change _ < 1024
      omega
    rw [Fs.byteAt, Nat.div_eq_of_lt hlt, Nat.mod_eq_of_lt hlt, stores_tree, if_pos (by decide), hdisk]
  rw [List.map_congr_left hbyte]
  clear hbyte
  revert k
  decide

theorem inum_treeEntries : ∀ k < 3,
    (Dirent.ofBytes ((treeEntries.drop (16 * k)).take 16)).inum < 64 := by
  decide

theorem lt_three_of_root {k : ℕ} (hk : 16 * k + 16 ≤ treeRoot.size) : k < 3 := by
  have : 16 * k + 16 ≤ 48 := hk
  omega

/-- The file system is well formed if the entries of the table that are in use are for different
    inodes. -/
theorem wellFormed_tree {tab : Fin ninode → MemInode}
    (hinum : ∀ ip, 0 < (tab ip).ref → (tab ip).inum < 64)
    (hvalid : ∀ ip, 0 < (tab ip).ref → (tab ip).valid = true →
      (tab ip).d = if (tab ip).inum = 1 then treeRoot else emptyDir)
    (hdistinct : ∀ ip jp, 0 < (tab ip).ref → 0 < (tab jp).ref → (tab ip).inum = (tab jp).inum →
      ip = jp) : (tree tab).WellFormed treeSb ∅ := by
  have hl : ∀ i ∈ List.range 64, i < treeSb.ninodes := fun i hi => List.mem_range.1 hi
  have hmarked : ∀ b < 10, Disk.marked treeSb (tree tab).disk b = true ↔ b < 9 := by
    intro b hb
    dsimp only [tree]
    rw [Disk.marked_putDinode wf_treeSb (by decide), Disk.marked_putDinodes wf_treeSb hl]
    revert b hb
    decide
  have hstores := stores_tree tab
  have howned : BlocksOwned treeSb (Disk.dinode treeSb (tree tab).disk) (tree tab).disk ∅ :=
    Fs.blocksOwned_single wf_treeSb (by decide) hstores (Set.notMem_empty _) fun b hb =>
      (hmarked b hb).trans (or_iff_left (Set.notMem_empty b)).symm
  have htype : ∀ i < 64, (Disk.dinode treeSb (tree tab).disk i).type ≠ 0 := fun i hi => by
    rw [type_tree tab hi]
    decide
  have hcopy : ∀ ip, 0 < (tab ip).ref → (tab ip).valid = true →
      (tab ip).d = Disk.dinode treeSb (tree tab).disk (tab ip).inum := fun ip hr hv => by
    rw [hvalid ip hr hv, dinode_tree tab (hinum ip hr)]
  refine ⟨⟨howned, hinum, hdistinct, hcopy, fun ip hr hv => ?_⟩, fun i hi _ bn hbn => ?_, by decide,
    fun ip hip => htype _ (hinum ip hip), fun i hi _ hn => ?_,
    fun i hi ht => absurd ht (htype i hi), fun i hi _ k hk => ?_⟩
  · exact (hcopy ip hr hv).symm ▸ htype _ (hinum ip hr)
  · rw [dinode_tree tab hi] at hbn
    rw [hstores]
    by_cases h1 : i = 1
    · subst h1
      rw [if_pos rfl] at hbn
      obtain rfl : bn = 0 := Nat.lt_one_iff.1 hbn
      decide
    · rw [if_neg h1] at hbn
      exact absurd hbn (Nat.not_lt_zero bn)
  · rw [dinode_tree tab hi] at hn
    exact absurd hn (by split <;> decide)
  · rw [dinode_tree tab hi] at hk
    by_cases h1 : i = 1
    · subst h1
      rw [if_pos rfl] at hk
      rw [entry_tree tab (lt_three_of_root hk)]
      exact inum_treeEntries k (lt_three_of_root hk)
    · rw [if_neg h1] at hk
      exact absurd hk (by simp [emptyDir, Dinode.new])

theorem intact_tree (tab : Fin ninode → MemInode) : (tree tab).Intact treeSb := by
  refine ⟨?_, fun i hi _ => ?_, fun i hi _ k hk _ => ?_⟩
  · rw [type_tree tab (by decide)]
    decide
  · rw [dinode_tree tab hi]
    split <;> decide
  · rw [dinode_tree tab hi] at hk
    by_cases h1 : i = 1
    · subst h1
      rw [if_pos rfl] at hk
      rw [entry_tree tab (lt_three_of_root hk),
        type_tree tab (inum_treeEntries k (lt_three_of_root hk))]
      decide
    · rw [if_neg h1] at hk
      exact absurd hk (by simp [emptyDir, Dinode.new])

/-- A table with one entry in use, for the root. -/
def rootTab (ip : Fin ninode) : MemInode := ⟨1, if ip = 0 then 1 else 0, true, treeRoot⟩

theorem wellFormed_rootTab : (tree rootTab).WellFormed treeSb ∅ := by
  have hone : ∀ ip, 0 < (rootTab ip).ref → ip = 0 := by decide
  exact wellFormed_tree (fun _ _ => by change 1 < 64; decide) (fun _ _ _ => (if_pos rfl).symm)
    fun ip jp hi hj _ => (hone ip hi).trans (hone jp hj).symm

theorem namei_tree : wp (Fs.namei treeSb 0 [47, 46, 46, 47, 47, 97])
    (fun r t => r.map (fun ip => (t.inode ip).inum) = some 2) (fun _ _ => False)
    (tree rootTab) := by decide +kernel

theorem nameiparent_tree : wp (Fs.nameiparent treeSb 0 [47, 46, 46, 47, 47, 97])
    (fun r t => r.map (fun x => (t.inode x.1).inum) = some 1) (fun _ _ => False)
    (tree rootTab) := by decide +kernel

/-- The path `/..//a` is followed to the inode `2`, and its parent is the root. -/
theorem paths_followed_a :
    (∃ ip t, Fs.namei treeSb 0 [47, 46, 46, 47, 47, 97] (tree rootTab) = .ok (some ip) t ∧
      (t.inode ip).inum = 2 ∧
      some (t.inode ip).inum = (tree rootTab).follow treeSb
        ((tree rootTab).startOf 0 [47, 46, 46, 47, 47, 97]) (Fs.elems [47, 46, 46, 47, 47, 97]) ∧
      Fs.OneMore (tree rootTab) (some ip) t) ∧
    ∃ dp name t, Fs.nameiparent treeSb 0 [47, 46, 46, 47, 47, 97] (tree rootTab) =
        .ok (some (dp, name)) t ∧ (t.inode dp).inum = 1 ∧
      Fs.IsParent treeSb (tree rootTab) 0 [47, 46, 46, 47, 47, 97] [[46, 46]] [97]
        (some (dp, name)) t ∧
      Fs.OneMore (tree rootTab) (some dp) t := by
  have hroom : ¬(tree rootTab).Crowded := fun h => absurd (h 1 2 rfl rfl) (by decide)
  obtain ⟨hnamei, hparent⟩ := paths_followed wf_treeSb wellFormed_rootTab (intact_tree rootTab)
    (show 0 < ((tree rootTab).inode 0).ref by decide)
    (show (0 : UInt8) ∉ [47, 46, 46, 47, 47, 97] by decide)
  constructor
  · obtain ⟨r, t, ht, hr, hone⟩ | ⟨_, _, _, hfull, _⟩ := hnamei
    swap
    · exact absurd hfull hroom
    obtain ⟨ip, rfl, hinum⟩ := Option.map_eq_some_iff.1 (namei_tree.of_ok ht)
    exact ⟨ip, t, ht, hinum, hr, hone⟩
  · obtain ⟨r, t, ht, -, hr, hone⟩ | ⟨_, _, _, hfull, _⟩ := hparent
    swap
    · exact absurd hfull hroom
    obtain ⟨⟨dp, name⟩, rfl, hinum⟩ := Option.map_eq_some_iff.1 (nameiparent_tree.of_ok ht)
    exact ⟨dp, name, t, ht, hinum, hr [[46, 46]] [97] (by decide), hone⟩

/-- A table with all entries in use, but not for the root. -/
def fullTab (ip : Fin ninode) : MemInode := ⟨ip.val + 2, 1, true, emptyDir⟩

theorem wellFormed_fullTab : (tree fullTab).WellFormed treeSb ∅ := by
  refine wellFormed_tree (fun ip _ => ?_) (fun ip _ _ => ?_) fun ip jp _ _ h => ?_
  · have hlt : ip.val < 50 := ip.isLt
    change ip.val + 2 < 64
    omega
  · have hne : ip.val + 2 ≠ 1 := by omega
    exact (if_neg hne).symm
  · exact Fin.ext (Nat.add_right_cancel h)

/-- If all entries of the table are in use for other inodes, looking up the root ends with the panic
    of `iget`. -/
theorem namei_panics : (tree fullTab).WellFormed treeSb ∅ ∧ (tree fullTab).Intact treeSb ∧
    0 < ((tree fullTab).inode 0).ref ∧
    ∃ t, Fs.namei treeSb 0 [47] (tree fullTab) = .error .igetNoInodes t := by
  refine ⟨wellFormed_fullTab, intact_tree fullTab, Nat.one_pos, ?_⟩
  have hrun : wp (Fs.namei treeSb 0 [47]) (fun _ _ => False) (fun e _ => e = .igetNoInodes)
      (tree fullTab) := by
    rw [Fs.namei, wp_bind, Fs.namex, wp_bind, if_pos (by decide)]
    refine Fs.wp_iget (fun ip t hg => ?_) fun _ => rfl
    rcases hg.slot with ⟨_, hi, _⟩ | ⟨hr, _⟩
    · change ip.val + 2 = 1 at hi
      omega
    · cases hr
  obtain ⟨_, _, _, h⟩ | ⟨e, t, he, rfl⟩ := hrun.ok_or_error
  · exact h.elim
  · exact ⟨t, he⟩

/-! ## A disk with the root only -/

/-- A disk of twelve blocks, with seven inodes. -/
def rootSb : Superblock where
  magic := 0x10203040
  size := 12
  nblocks := 8
  ninodes := 8
  nlog := 0
  logstart := 2
  inodestart := 2
  bmapstart := 3

/-- The inode of the root: the block `4` holds its entries. -/
def rootDir : Dinode :=
  { Dinode.new 1 with nlink := 1, size := 32, addrs := fun k => if k = 0 then 4 else 0 }

/-- The disk with the root, where all other inodes are free. If it is `full`, no block is. -/
def rootDisk (full : Bool) : Disk := Disk.putDinode rootSb
  (fun b => if b = 3 then Bytes.write (Bytes.fill 0) 0 (if full then [255, 15] else [31])
    else if b = 4 then Bytes.write (Bytes.fill 0) 0
      (Dirent.bytes ⟨1, strncpy [46] 14⟩ ++ Dirent.bytes ⟨1, strncpy [46, 46] 14⟩)
    else Bytes.fill 0) 1 rootDir

/-- The file system on it, with nothing in memory but the root, in the first entry, with `n`
    references. -/
def rootFs (full : Bool) (n : ℕ) : Fs where
  disk := rootDisk full
  logged := []
  printed := []
  inode ip := ⟨1, if ip = 0 then n else 0, false, .new 0⟩

theorem wf_rootSb : rootSb.Wf := ⟨by decide, by decide, by decide, by decide⟩

theorem dinode_root (full : Bool) : Disk.dinode rootSb (rootDisk full) 1 = rootDir := by
  rw [rootDisk, Disk.dinode_putDinode ⟨by decide, by decide⟩, if_pos rfl]

theorem dinode_rootDisk (full : Bool) {i : ℕ} (hi : i < rootSb.ninodes) (hne : i ≠ 1) :
    (Disk.dinode rootSb (rootDisk full) i).type = 0 ∧
      (Disk.dinode rootSb (rootDisk full) i).nlink = 0 := by
  have hall : ∀ full, ∀ i < 8, i ≠ 1 → (Disk.dinode rootSb (rootDisk full) i).type = 0 ∧
      (Disk.dinode rootSb (rootDisk full) i).nlink = 0 := by
    decide
  exact hall full i hi hne

theorem entry_rootFs : ∀ full, ∀ k < 2, (rootFs full 0).entry rootSb 1 k =
    ⟨1, strncpy (if k = 0 then Fs.dot else Fs.dotdot) dirsiz⟩ := by
  decide

theorem marked_rootDisk : ∀ full, ∀ b < 12, Disk.marked rootSb (rootDisk full) b = true ↔
    b < 5 ∨ full = true ∧ 5 ≤ b := by
  decide

theorem wellFormed_rootFs (full : Bool) (n : ℕ) :
    (rootFs full n).WellFormed rootSb {b | full = true ∧ 5 ≤ b} := by
  have hroot : Disk.dinode rootSb (rootFs full n).disk 1 = rootDir := dinode_root full
  -- The root is the only inode in use, and the only one in memory.
  have hused : ∀ i < rootSb.ninodes,
      (Disk.dinode rootSb (rootFs full n).disk i).type ≠ 0 → i = 1 := fun i hi htype => by
    by_contra hne
    exact htype (dinode_rootDisk full hi hne).1
  have hheld : ∀ ip, 0 < ((rootFs full n).inode ip).ref → ip = 0 := fun ip hip => by
    by_contra hne
    exact Nat.ne_of_gt hip (if_neg hne)
  have hstores := Fs.stores_single (show 1 < rootSb.ninodes by decide)
    (by rw [hroot]; decide) (fun k => by rw [hroot]; rfl)
    fun j hj hne htype => absurd (hused j hj htype) hne
  have howned := @Fs.blocksOwned_single rootSb _ _ {b | full = true ∧ 5 ≤ b} wf_rootSb (by decide)
    hstores (fun h => absurd h.2 (by decide)) (marked_rootDisk full)
  refine ⟨⟨howned, fun _ _ => (by decide : 1 < 8), fun ip jp hip hjp _ => ?_,
    fun _ _ hv => Bool.noConfusion hv, fun _ _ hv => Bool.noConfusion hv⟩,
    fun i hi htype bn hbn => ?_, by decide, fun ip _ => ?_, fun i hi htype hn => ?_,
    fun i hi htype => ?_, fun i hi hdir k hk => ?_⟩
  · rw [hheld ip hip, hheld jp hjp]
  · obtain rfl := hused i hi htype
    rw [hroot] at hbn
    obtain rfl : bn = 0 := Nat.lt_one_iff.1 hbn
    rw [hstores, if_pos (by decide)]
    decide
  · change (Disk.dinode rootSb (rootFs full n).disk 1).type ≠ 0
    rw [hroot]
    decide
  · obtain rfl := hused i hi htype
    rw [hroot] at hn
    exact absurd hn (by decide)
  · refine (dinode_rootDisk full hi ?_).2
    rintro rfl
    rw [hroot] at htype
    exact absurd htype (by decide)
  · obtain rfl := hused i hi (by rw [hdir]; decide)
    rw [hroot] at hk
    have hk' : 16 * k + 16 ≤ 32 := hk
    have hentry : (rootFs full n).entry rootSb 1 k =
        ⟨1, strncpy (if k = 0 then Fs.dot else Fs.dotdot) dirsiz⟩ :=
      entry_rootFs full k (by omega)
    rw [hentry]
    exact (by decide : 1 < 8)

end Xv6
