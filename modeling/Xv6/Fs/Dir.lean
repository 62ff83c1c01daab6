import Xv6.Fs.Read

/-!
# Directories

The directory layer of `fs.c`: a directory is a file of entries of 16 bytes, each the number of
an inode (`0` if the entry is free) and a name of 14 bytes, padded with NUL. Strings are lists of
bytes, with a NUL behind the last one.

A directory is read with `readi`, so that looking up a name changes nothing but the table of
inodes, in which the inode is found or entered.
-/

namespace Xv6

/-! ## Strings -/

/-- `strncmp`. -/
def strncmp : List UInt8 → List UInt8 → ℕ → ℤ
  | _, _, 0 => 0
  | p, q, n + 1 =>
    if p.headD 0 ≠ 0 ∧ p.headD 0 = q.headD 0 then strncmp p.tail q.tail n
    else (p.headD 0).toNat - (q.headD 0).toNat

/-- The `n` bytes that `strncpy` writes. -/
def strncpy : List UInt8 → ℕ → List UInt8
  | _, 0 => []
  | t, n + 1 => if t.headD 0 = 0 then List.replicate (n + 1) 0 else t.headD 0 :: strncpy t.tail n

/-- The first `n` bytes of a string, up to its NUL. -/
def cstr (n : ℕ) (l : List UInt8) : List UInt8 := (l.take n).takeWhile (· ≠ 0)

theorem cstr_succ (n : ℕ) (l : List UInt8) :
    cstr (n + 1) l = if l.headD 0 ≠ 0 then l.headD 0 :: cstr n l.tail else [] := by
  cases l with
  | nil => rfl
  | cons a l => simp [cstr, List.takeWhile_cons]

/-- `strncmp` compares the strings up to their NULs. -/
theorem strncmp_eq_zero_iff {p q : List UInt8} {n : ℕ} :
    strncmp p q n = 0 ↔ cstr n p = cstr n q := by
  induction n generalizing p q with
  | zero => simp [strncmp, cstr]
  | succ n ih =>
    rw [strncmp, cstr_succ, cstr_succ]
    have ih' := ih (p := p.tail) (q := q.tail)
    generalize p.headD 0 = a at *
    generalize q.headD 0 = b at *
    have hsub : (a.toNat : ℤ) - b.toNat = 0 ↔ a = b := by
      rw [sub_eq_zero, Nat.cast_inj, UInt8.toNat_inj]
    by_cases hab : a = b
    · subst hab
      by_cases ha : a = 0
      · simp [ha]
      · rw [if_pos ⟨ha, rfl⟩, ih', if_pos ha, if_pos ha, List.cons_inj_right]
    · rw [if_neg fun h => hab h.2, hsub]
      refine iff_of_false hab ?_
      split <;> split
      · exact fun h => hab (List.cons.inj h).1
      · exact List.cons_ne_nil _ _
      · exact (List.cons_ne_nil _ _).symm
      next ha hb =>
        rw [not_not] at ha hb
        exact fun _ => hab (ha.trans hb.symm)

@[simp] theorem length_strncpy (l : List UInt8) (n : ℕ) : (strncpy l n).length = n := by
  induction n generalizing l with
  | zero => rfl
  | succ n ih =>
    rw [strncpy]
    split
    · simp
    · simp [ih]

/-- What `strncpy` writes is the string. -/
theorem cstr_strncpy (l : List UInt8) (n : ℕ) : cstr n (strncpy l n) = cstr n l := by
  induction n generalizing l with
  | zero => simp [cstr]
  | succ n ih =>
    rw [strncpy, cstr_succ n l]
    split
    next ha =>
      rw [cstr_succ, List.replicate_succ, List.headD_cons, if_neg (not_not.2 rfl),
        if_neg (not_not.2 ha)]
    next ha => rw [cstr_succ, List.headD_cons, List.tail_cons, ih, if_pos ha]

/-! ## Entries -/

/-- `DIRSIZ`. -/
abbrev dirsiz : ℕ := 14

/-- `struct dirent`. -/
structure Dirent where
  inum : ℕ
  name : List UInt8
  deriving DecidableEq

/-- The bytes of an entry. -/
def Dirent.bytes (de : Dirent) : List UInt8 := le 2 de.inum ++ de.name

/-- The entry that the bytes hold. -/
def Dirent.ofBytes (l : List UInt8) : Dirent := ⟨ofLe (l.take 2), l.drop 2⟩

/-- `namecmp`. -/
def namecmp (s t : List UInt8) : ℤ := strncmp s t dirsiz

theorem namecmp_eq_zero_iff {s t : List UInt8} : namecmp s t = 0 ↔ cstr dirsiz s = cstr dirsiz t :=
  strncmp_eq_zero_iff

/-- The entry is in use, with the name. -/
def Dirent.Names (de : Dirent) (name : List UInt8) : Prop := de.inum ≠ 0 ∧ namecmp name de.name = 0

instance decidableNames (de : Dirent) (name : List UInt8) : Decidable (de.Names name) :=
  inferInstanceAs (Decidable (_ ∧ _))

/-- An entry is read back as it was written. -/
theorem Dirent.ofBytes_bytes {de : Dirent} (h : de.inum < 2 ^ 16) : ofBytes de.bytes = de := by
  have hmod : de.inum % 256 ^ 2 = de.inum := Nat.mod_eq_of_lt h
  obtain ⟨inum, name⟩ := de
  simp only [ofBytes, bytes, mk.injEq]
  refine ⟨?_, ?_⟩
  · rw [List.take_left' (by simp), ofLe_le, hmod]
  · rw [List.drop_left' (by simp)]

namespace Fs

/-- `T_DIR`. -/
abbrev tDir : Int16 := 1

/-- `T_FILE`. -/
abbrev tFile : Int16 := 2

/-- `T_DEVICE`. -/
abbrev tDevice : Int16 := 3

/-- `ROOTINO`. -/
abbrev rootIno : ℕ := 1

section

variable (sb : Superblock)

/-- Read an entry; `e` is the panic if this fails. -/
def readDirent (dp : Fin ninode) (off : ℕ) (e : FsPanic) : FsM Dirent := do
  let r ← readi sb dp (fun _ => true) off 16
  if r.1 ≠ 16 then throw e else pure (.ofBytes r.2)

/-- The loop of `dirlookup`, with `fuel` more iterations at most. -/
def dirlookupLoop (dp : Fin ninode) (name : List UInt8) : ℕ → ℕ → FsM (Option (Fin ninode × ℕ))
  | 0, _ => pure none
  | fuel + 1, off => do
    let s ← get
    if off < (s.inode dp).d.size then do
      let de ← readDirent sb dp off .dirlookupRead
      if de.inum = 0 then dirlookupLoop dp name fuel (off + 16)
      else if namecmp name de.name = 0 then do
        let ip ← iget de.inum
        pure (some (ip, off))
      else dirlookupLoop dp name fuel (off + 16)
    else pure none

/-- Look for an entry in a directory: the inode, and the offset of the entry. -/
def dirlookup (dp : Fin ninode) (name : List UInt8) : FsM (Option (Fin ninode × ℕ)) := do
  let s ← get
  if (s.inode dp).d.type ≠ tDir then throw .dirlookupNotDir
  else dirlookupLoop sb dp name (s.inode dp).d.size 0

/-- The loop of `dirlink` that looks for a free entry. -/
def dirlinkLoop (dp : Fin ninode) : ℕ → ℕ → FsM ℕ
  | 0, off => pure off
  | fuel + 1, off => do
    let s ← get
    if off < (s.inode dp).d.size then do
      let de ← readDirent sb dp off .dirlinkRead
      if de.inum = 0 then pure off else dirlinkLoop dp fuel (off + 16)
    else pure off

/-- Write a new entry into a directory: `0`, or `-1` if this fails. -/
def dirlink (dp : Fin ninode) (name : List UInt8) (inum : ℕ) : FsM ℤ := do
  let found ← dirlookup sb dp name
  match found with
  | some (ip, _) => do
    iput sb ip
    pure (-1)
  | none => do
    let s ← get
    let off ← dirlinkLoop sb dp (s.inode dp).d.size 0
    let de : Dirent := ⟨inum, strncpy name dirsiz⟩
    let r ← writei sb dp (fun k => some (de.bytes.getD k 0)) off 16
    if r ≠ 16 then pure (-1) else pure 0

/-! ## Paths -/

/-- Take the first element off a path, unless there is none: the buffer `name` after it was copied
    there, and the rest. What was in the buffer stays behind the NUL, and there is no NUL if the
    element fills the buffer. -/
def skipelem (path name : List UInt8) : Option (List UInt8 × List UInt8) :=
  let path := path.dropWhile (· = 47)
  if path = [] then none
  else
    let s := path.takeWhile (· ≠ 47)
    some (if dirsiz ≤ s.length then s.take dirsiz else s ++ 0 :: name.drop (s.length + 1),
      (path.dropWhile (· ≠ 47)).dropWhile (· = 47))

/-- `iunlockput`. -/
def iunlockput (ip : Fin ninode) : FsM PUnit := iput sb ip

/-- The loop of `namex`, with `fuel` more elements at most. -/
def namexLoop (nameiparent : Bool) :
    ℕ → Fin ninode → List UInt8 → List UInt8 → FsM (Option (Fin ninode × List UInt8))
  | 0, ip, _, name => pure (some (ip, name))
  | fuel + 1, ip, path, name =>
    match skipelem path name with
    | none =>
      if nameiparent then do
        iput sb ip
        pure none
      else pure (some (ip, name))
    | some (name, path) => do
      ilock sb ip
      let s ← get
      if (s.inode ip).d.type ≠ tDir then do
        iunlockput sb ip
        pure none
      else if nameiparent ∧ path = [] then pure (some (ip, name))
      else do
        let next ← dirlookup sb ip name
        iunlockput sb ip
        match next with
        | none => pure none
        | some (next, _) => namexLoop nameiparent fuel next path name

/-- Look up a path, from the root or from `cwd`: the inode and, for `nameiparent`, the name of
    the last element. The buffer for the name is empty at first. -/
def namex (cwd : Fin ninode) (path : List UInt8) (nameiparent : Bool) :
    FsM (Option (Fin ninode × List UInt8)) := do
  let ip ← (if path.headD 0 = 47 then iget rootIno else idup cwd)
  namexLoop sb nameiparent (path.length + 1) ip path []

/-- Look up a path. -/
def namei (cwd : Fin ninode) (path : List UInt8) : FsM (Option (Fin ninode)) := do
  let r ← namex sb cwd path false
  pure (r.map Prod.fst)

/-- Look up the parent of a path. -/
def nameiparent (cwd : Fin ninode) (path : List UInt8) :
    FsM (Option (Fin ninode × List UInt8)) :=
  namex sb cwd path true

end

/-! ## What the lookup finds -/

variable {sb : Superblock} {s t : Fs} {dp ip : Fin ninode} {name : List UInt8} {off k : ℕ}
  {E : FsPanic → Fs → Prop}

/-- The entry `k` of a directory. -/
def direntAt (sb : Superblock) (s : Fs) (dp : Fin ninode) (k : ℕ) : Dirent :=
  .ofBytes (s.slice sb dp (16 * k) 16)

/-- Reading an entry changes nothing. -/
theorem wp_readDirent (hfull : s.Full sb dp) (hsize : (s.inode dp).d.size < 2 ^ 32) {e : FsPanic}
    (hk : 16 * k < (s.inode dp).d.size) {Q : Dirent → Fs → Prop}
    (hQ : 16 * k + 16 ≤ (s.inode dp).d.size → Q (s.direntAt sb dp k) s)
    (hE : (s.inode dp).d.size < 16 * k + 16 → E e s) :
    wp (readDirent sb dp (16 * k) e) Q E s := by
  rw [readDirent, wp_bind]
  refine wp_readi hfull (by omega) (by decide) (fun hrej => ?_) fun _ _ r hr => ?_
  · exact hE (by omega)
  · rw [hr fun _ => rfl]
    dsimp only
    by_cases hfit : 16 * k + 16 ≤ (s.inode dp).d.size
    · rw [show min 16 ((s.inode dp).d.size - 16 * k) = 16 by omega, if_neg (by decide)]
      exact hQ hfit
    · rw [if_pos (by omega)]
      exact hE (by omega)

theorem wp_dirlookupLoop (hfull : s.Full sb dp) (hsize : (s.inode dp).d.size < 2 ^ 32) {fuel : ℕ}
    (hfuel : (s.inode dp).d.size - 16 * k ≤ fuel)
    (hbefore : ∀ k' < k, ¬(s.direntAt sb dp k').Names name)
    {Q : Option (Fin ninode × ℕ) → Fs → Prop}
    (hnone : (∀ k, 16 * k < (s.inode dp).d.size → ¬(s.direntAt sb dp k).Names name) → Q none s)
    (hsome : ∀ k, 16 * k + 16 ≤ (s.inode dp).d.size → (s.direntAt sb dp k).Names name →
      (∀ k' < k, ¬(s.direntAt sb dp k').Names name) →
      ∀ ip t, Got (s.direntAt sb dp k).inum s ip t → Q (some (ip, 16 * k)) t)
    (hread : ¬16 ∣ (s.inode dp).d.size → E .dirlookupRead s)
    (hfull' : ∀ k, 16 * k + 16 ≤ (s.inode dp).d.size → (s.direntAt sb dp k).Names name →
      s.TableFull → E .igetNoInodes s) :
    wp (dirlookupLoop sb dp name fuel (16 * k)) Q E s := by
  have hdone : ¬16 * k < (s.inode dp).d.size → Q none s := by
    intro hk
    exact hnone fun k' hk' => hbefore k' (by omega)
  induction fuel generalizing k with
  | zero => exact hdone (by omega)
  | succ fuel ih =>
    simp only [dirlookupLoop, wp_bind, wp_get]
    split
    swap
    next hk => exact hdone hk
    next hk =>
    have hnext : ¬(s.direntAt sb dp k).Names name →
        wp (dirlookupLoop sb dp name fuel (16 * k + 16)) Q E s := by
      intro hno
      have hbefore' : ∀ k' < k + 1, ¬(s.direntAt sb dp k').Names name := by
        intro k' hk'
        rcases Nat.lt_succ_iff_lt_or_eq.1 hk' with hlt | rfl
        · exact hbefore k' hlt
        · exact hno
      refine ih (k := k + 1) (by omega) hbefore' fun hk' => ?_
      exact hnone fun k' hk'' => hbefore' k' (by omega)
    rw [wp_bind]
    refine wp_readDirent hfull hsize hk (fun hfit => ?_) fun hcut => hread (by omega)
    split
    next hz => exact hnext fun hn => hn.1 hz
    next hz =>
    split
    next hcmp =>
      rw [wp_bind]
      exact wp_iget (fun ip t hg => hsome k hfit ⟨hz, hcmp⟩ hbefore ip t hg)
        (hfull' k hfit ⟨hz, hcmp⟩)
    next hcmp => exact hnext fun hn => hcmp hn.2

/-- `dirlookup` finds the first entry with the name. -/
theorem wp_dirlookup (hfull : s.Full sb dp) (hsize : (s.inode dp).d.size < 2 ^ 32)
    {Q : Option (Fin ninode × ℕ) → Fs → Prop}
    (hnone : (s.inode dp).d.type = tDir →
      (∀ k, 16 * k < (s.inode dp).d.size → ¬(s.direntAt sb dp k).Names name) → Q none s)
    (hsome : (s.inode dp).d.type = tDir → ∀ k, 16 * k + 16 ≤ (s.inode dp).d.size →
      (s.direntAt sb dp k).Names name → (∀ k' < k, ¬(s.direntAt sb dp k').Names name) →
      ∀ ip t, Got (s.direntAt sb dp k).inum s ip t → Q (some (ip, 16 * k)) t)
    (hdir : (s.inode dp).d.type ≠ tDir → E .dirlookupNotDir s)
    (hread : (s.inode dp).d.type = tDir → ¬16 ∣ (s.inode dp).d.size → E .dirlookupRead s)
    (hget : ∀ k, 16 * k + 16 ≤ (s.inode dp).d.size → (s.direntAt sb dp k).Names name →
      s.TableFull → E .igetNoInodes s) :
    wp (dirlookup sb dp name) Q E s := by
  simp only [dirlookup, wp_bind, wp_get]
  split
  next htype => exact hdir htype
  next htype =>
  rw [not_not] at htype
  exact wp_dirlookupLoop hfull hsize (k := 0) (Nat.sub_le _ _)
    (fun _ h => absurd h (Nat.not_lt_zero _)) (hnone htype) (hsome htype)
    (hread htype) hget

/-- The loop of `dirlink` finds the first free entry, or the end of the directory. -/
theorem wp_dirlinkLoop (hfull : s.Full sb dp) (hsize : (s.inode dp).d.size < 2 ^ 32) {fuel : ℕ}
    (hfuel : (s.inode dp).d.size - 16 * k ≤ fuel) {Q : ℕ → Fs → Prop}
    (hbefore : ∀ k' < k, (s.direntAt sb dp k').inum ≠ 0 ∧ 16 * k' + 16 ≤ (s.inode dp).d.size)
    (hQ : ∀ k, (∀ k' < k, (s.direntAt sb dp k').inum ≠ 0 ∧ 16 * k' + 16 ≤ (s.inode dp).d.size) →
      (16 * k + 16 ≤ (s.inode dp).d.size ∧ (s.direntAt sb dp k).inum = 0 ∨
        (s.inode dp).d.size ≤ 16 * k) → Q (16 * k) s)
    (hread : ¬16 ∣ (s.inode dp).d.size → E .dirlinkRead s) : wp (dirlinkLoop sb dp fuel (16 * k)) Q E s := by
  induction fuel generalizing k with
  | zero => exact hQ k hbefore (.inr (by omega))
  | succ fuel ih =>
    simp only [dirlinkLoop, wp_bind, wp_get]
    split
    swap
    next hk => exact hQ k hbefore (.inr (Nat.not_lt.1 hk))
    next hk =>
    rw [wp_bind]
    refine wp_readDirent hfull hsize hk (fun hfit => ?_) fun hcut => hread (by omega)
    split
    next hz => exact hQ k hbefore (.inl ⟨hfit, hz⟩)
    next hz =>
      refine ih (k := k + 1) (by omega) fun k' hk' => ?_
      rcases Nat.lt_succ_iff_lt_or_eq.1 hk' with hlt | rfl
      · exact hbefore k' hlt
      · exact ⟨hz, hfit⟩

end Fs

end Xv6
