import Xv6.Mkfs.Image

/-!
# What the kernel finds in the image

If the files fit, `mkfs` does not fail (`mkfs_image`), and the kernel finds in the image the files
that it was given, under their names, in whatever pieces they were read. The bitmap marks exactly
the blocks that are stored, and the log is empty.

The kernel's invariants hold of the image unless the root directory ends at the end of a block: then
`mkfs` raises its size over a block that does not exist.
-/

namespace Xv6

namespace Mkfs

open Fs (tDir tFile rootIno)

variable {args : List Arg} {a : Arg} {d D : Disk} {next i k : ℕ} {I : ℕ → Dinode}
  {E : Failure → Image → Prop} {s : Image}

/-! ## The empty image -/

/-- The image before the first inode is taken. -/
def blank : Disk :=
  Function.update (fun _ => Bytes.fill 0) 1 ((Bytes.fill 0 : Block).write 0 sb.bytes)

theorem ofLe_replicate (n : ℕ) : ofLe (List.replicate n 0) = 0 := by
  induction n with
  | zero => rfl
  | succ n ih => rw [List.replicate_succ, ofLe, ih]; rfl

theorem ofBytes_replicate : Dinode.ofBytes (List.replicate 64 0) = Dinode.new 0 := by
  simp only [Dinode.ofBytes, List.take_replicate, List.drop_replicate, ofLe_replicate]
  rfl

theorem read_fill (off len : ℕ) : (Bytes.fill 0 : Block).read off len = List.replicate len 0 := by
  refine List.ext_getElem (by simp) fun i _ _ => ?_
  simp [Bytes.read, Bytes.get, Bytes.fill]

theorem dinode_blank (i : ℕ) : Disk.dinode sb blank i = Dinode.new 0 := by
  have hne : sb.iblock i ≠ 1 := by
    have hlo : sb.inodestart ≤ sb.iblock i := Nat.le_add_left _ _
    have : 1 < sb.inodestart := by decide
    omega
  rw [Disk.dinode, blank, Function.update_of_ne hne, read_fill, ofBytes_replicate]

/-- Nothing is stored in the empty image. -/
theorem built_blank : Built (Disk.dinode sb blank) blank nmeta (fun _ => none) none := by
  have hst : ∀ d x, stored sb (Disk.dinode sb blank) d x = 0 := fun d x =>
    stored_of_not_alloced (fun ha => ha.2 (by rw [dinode_blank x.1]; rfl)) x.2
  have hnone : ∀ {p : Prop} {f : FileSpec}, none = some f → p := fun hf =>
    (Option.some_ne_none _ hf.symm).elim
  refine ⟨⟨by decide, fun x hx => (hx (hst _ x)).elim, fun x y hx => (hx (hst _ x)).elim,
    fun x hx => (hx (hst _ x)).elim, fun b hb => ?_⟩, le_rfl, by decide, fun b hb => ?_,
    fun b _ => ?_, fun _ _ hf => hnone hf, fun i _ _ => dinode_blank i, fun _ _ hf => hnone hf,
    fun _ _ hf => hnone hf, fun _ _ hf => hnone hf, fun _ _ hf => hnone hf⟩
  · rw [marked_marks hb (by decide), decide_eq_true_iff]
    refine ⟨.inl, fun h => ?_⟩
    obtain h | h | ⟨x, hx⟩ := h
    · exact h
    · exact h.elim
    · rw [hst] at hx
      exact hx ▸ (by decide : 0 < nmeta)
  · have hne : b ≠ 1 := fun h => absurd (h ▸ hb) (by decide)
    rw [blank, Function.update_of_ne hne]
  · rw [blank, Function.update_apply]

/-- The blocks are zeroed. -/
theorem zeroes_eq (k : ℕ) : forRange (fun i => wsect i (Bytes.fill 0)) 0 k Image.opened =
    .ok ⟨⟩ { Image.opened with sectors := k } := by
  have hI := wp_forRange (E := fun _ _ => False) (a := 0) (k := k) (s := Image.opened)
    (f := fun i => wsect i (Bytes.fill 0))
    (fun i t => t = { Image.opened with sectors := i }) rfl fun i t _ _ ht => by
      rw [wsect, wp_modify, ht]
      have hdisk : Function.update (fun _ => (Bytes.fill 0 : Block)) i (Bytes.fill 0) =
          fun _ => Bytes.fill 0 := Function.update_eq_self i _
      simp only [Image.opened, hdisk, max_eq_right (Nat.le_succ i)]
  obtain ⟨_, t, hm, rfl⟩ := hI.exists_ok
  rw [hm, Nat.zero_add]

/-! ## The finished image -/

/-- The size of the root directory at the end. -/
def rootSize (args : List Arg) : ℕ := (16 * (args.length + 2) / bsize + 1) * bsize

/-- The image `d`, when the size of the root directory and the bitmap are written. -/
def finish (args : List Arg) (next : ℕ) (d : Disk) : Disk :=
  marks next (Disk.putDinode sb d rootIno { Disk.dinode sb d rootIno with size := rootSize args })

/-- `mkfs` does not fail. -/
theorem mkfs_ok (hfit : Fits args) : ∃ r t, mkfs args Image.opened = .ok r t ∧ ∃ d next,
    Built (Disk.dinode sb d) d next (filesOf args) none ∧ t.disk = finish args next d := by
  refine wp.exists_ok ?_
  rw [mkfs, wp_bind, wp, zeroes_eq]
  change wp (wsect 1 _ >>= _) _ (fun _ _ => False) _
  rw [wp_bind]
  refine wp_wsect (by decide) ?_
  have hblank : Whole (fun _ => none) 1 ⟨blank, fssize, 1, nmeta⟩ := ⟨built_blank, rfl, rfl⟩
  rw [wp_bind]
  refine (wp_ialloc hblank (by decide) rfl (by decide)).mono (fun r t ht => ?_) fun _ _ he => he
  obtain ⟨rfl, hw, hfree⟩ := ht
  rw [wp_bind]
  refine wp_assert rfl ?_
  have hroot := wp_root (E := fun _ _ => False) hw hfree
  rw [wp_bind] at hroot ⊢
  refine hroot.mono (fun _ t ht => ?_) fun _ _ he => he
  rw [wp_bind]
  refine wp.mono ht (fun _ u hu => ?_) fun _ _ he => he
  rw [wp_bind]
  refine (wp_files hfit hu.1 hu.2).mono (fun _ v hv => ?_) fun _ _ he => he
  have hsize := hv.built.size_eq (filesOf_root args)
  dsimp only at hsize
  rw [length_rootData] at hsize
  rw [fixSize, wp_bind, wp_bind]
  refine wp_rinode hv.sectors (by decide) ?_
  refine wp_winode hv.sectors (by decide) ?_
  rw [wp_bind, wp_get, balloc, wp_bind]
  have hlt : v.freeblock < bpb := hv.built.hi.trans_lt (by decide)
  refine wp_assert hlt ?_
  refine wp_wsect ?_ ⟨v.disk, v.freeblock, hv.built, ?_⟩
  · change sb.bmapstart < v.sectors
    rw [hv.sectors]
    decide
  · rw [finish, marks, rootSize, ← hsize]

theorem rootSize_lt (hcount : args.length + 2 ≤ ninodes) : rootSize args < 2 ^ 32 := by
  unfold rootSize bsize ninodes at *
  omega

theorem le_rootSize (args : List Arg) : 16 * (args.length + 2) ≤ rootSize args := by
  unfold rootSize bsize
  omega

theorem dinode_finish (h : Built (Disk.dinode sb d) d next (filesOf args) none)
    (hcount : args.length + 2 ≤ ninodes) (hi : i < ninodes) :
    Disk.dinode sb (finish args next d) i =
      if i = rootIno then { Disk.dinode sb d rootIno with size := rootSize args }
      else Disk.dinode sb d i := by
  have hlen : (rootData args).length < 2 ^ 32 := by
    rw [length_rootData]
    exact (le_rootSize args).trans_lt (rootSize_lt hcount)
  have hfits := h.fits (filesOf_root args) hlen
  rw [finish, dinode_marks hi, Disk.dinode_putDinode]
  exact ⟨rootSize_lt hcount, hfits.addrs⟩

theorem finish_of_ne {c : ℕ} (hc : c < sb.inodestart ∨ nmeta ≤ c) : finish args next d c = d c := by
  have hlo : sb.inodestart ≤ sb.iblock rootIno := Nat.le_add_left _ _
  have hhi : sb.iblock rootIno < sb.bmapstart := wf_sb.iblock_lt (by decide)
  have hbm : sb.bmapstart < nmeta := wf_sb.bmapstart_lt
  rw [finish, marks, Function.update_of_ne (by omega), Disk.putDinode_of_ne (by omega)]

/-- The blocks are stored as while the image was written. -/
theorem stored_finish (h : Built (Disk.dinode sb d) d next (filesOf args) none)
    (hcount : args.length + 2 ≤ ninodes) :
    stored sb (Disk.dinode sb (finish args next d)) (finish args next d) =
      stored sb (Disk.dinode sb d) d := by
  refine stored_congr_addrs (fun i hi => ?_) (fun i hi => ?_) fun i hi hne => ?_
  · rw [dinode_finish h hcount hi]
    split
    next hr => rw [hr]
    next => rfl
  · rw [dinode_finish h hcount hi]
    split
    next hr => rw [hr]
    next => rfl
  · have hlast := stored_addr (d := d) (k := Fin.last ndirect) hi
    rw [← hlast] at hne ⊢
    exact finish_of_ne (.inr (h.stored_range hne).1)

theorem blocksOwned_finish (h : Built (Disk.dinode sb d) d next (filesOf args) none)
    (hcount : args.length + 2 ≤ ninodes) :
    BlocksOwned sb (Disk.dinode sb (finish args next d)) (finish args next d) ∅ := by
  unfold BlocksOwned
  rw [stored_finish h hcount, ← h.stored_marks]
  refine Owned.congr h.owned fun b hb => ?_
  rw [finish, marked_marks hb h.hi, marked_marks hb h.hi]

/-! ## The entries of the root directory -/

/-- The entries of the root directory. -/
def entries (args : List Arg) : List Dirent :=
  ⟨rootIno, strncpy [46] dirsiz⟩ :: ⟨rootIno, strncpy [46, 46] dirsiz⟩ ::
    (args.zipIdx 2).map fun x => ⟨x.2, strncpy x.1.name dirsiz⟩

theorem rootData_eq (args : List Arg) : rootData args = (entries args).flatMap Dirent.bytes := by
  simp only [rootData, entries, dirent, List.flatMap_cons, List.flatMap_map, List.append_assoc]

@[simp] theorem length_entries (args : List Arg) : (entries args).length = args.length + 2 := by
  simp [entries]

/-- The entries have names of the right length, and numbers of inodes. -/
theorem mem_entries {de : Dirent} (hde : de ∈ entries args) :
    de.name.length = dirsiz ∧ 0 < de.inum ∧ de.inum < args.length + 2 := by
  simp only [entries, List.mem_cons, List.mem_map] at hde
  obtain rfl | rfl | ⟨x, hx, rfl⟩ := hde
  · exact ⟨length_strncpy _ _, Nat.one_pos, by dsimp only [rootIno]; omega⟩
  · exact ⟨length_strncpy _ _, Nat.one_pos, by dsimp only [rootIno]; omega⟩
  · have hx' := List.mem_zipIdx hx
    exact ⟨length_strncpy _ _, by dsimp only; omega, by dsimp only; omega⟩

/-- The bytes of the entry `k` in those of all of them. -/
theorem map_getD_flatMap {l : List Dirent} (hl : ∀ de ∈ l, de.name.length = dirsiz) (k : ℕ) :
    (List.range 16).map (fun o => (l.flatMap Dirent.bytes).getD (16 * k + o) 0) =
      (l[k]?.map Dirent.bytes).getD (List.replicate 16 0) := by
  induction l generalizing k with
  | nil => simp
  | cons de l ih =>
    have hlen : de.bytes.length = 16 := by
      rw [Dirent.bytes, List.length_append, length_le, hl de List.mem_cons_self]
      rfl
    rw [List.flatMap_cons]
    cases k with
    | zero =>
      refine List.ext_getElem (by simp [hlen]) fun o h₁ h₂ => ?_
      have ho : o < de.bytes.length := by simpa [hlen] using h₁
      simp [List.getElem?_append_left ho, List.getElem?_eq_getElem ho]
    | succ k =>
      rw [List.getElem?_cons_succ, ← ih (fun de h => hl de (List.mem_cons_of_mem _ h)) k]
      refine List.map_congr_left fun o _ => ?_
      rw [List.getD_append_right _ _ _ _ (by omega), hlen]
      congr 1
      omega

/-! ## What the kernel finds -/

/-- The kernel has the image of the files `args`, with no inode in use: the superblock is read back,
    the log is empty, the blocks that are stored are marked, and the files have their names and
    their data. The root directory has a hole if it ends at the end of a block. -/
structure Boots (args : List Arg) (s : Fs) : Prop where
  super : Superblock.ofBlock (s.disk 1) = sb
  log : s.disk sb.logstart = Bytes.fill 0
  owned : BlocksOwned sb (Disk.dinode sb s.disk) s.disk ∅
  inodes : ∀ i < ninodes, (Disk.dinode sb s.disk i).type =
    if i = rootIno then tDir else if 2 ≤ i ∧ i < args.length + 2 then tFile else 0
  data : ∀ k a, args[k]? = some a → s.content sb (k + 2) = a.data
  noHoles : s.NoHoles sb ↔ (args.length + 2) % 64 ≠ 0
  wellFormed : (args.length + 2) % 64 ≠ 0 → s.WellFormed sb ∅
  lookup : (args.length + 2) % 64 ≠ 0 → ∀ name, s.lookup sb rootIno name =
    ((entries args).find? fun de => de.Names name).map Dirent.inum

section

variable {s : Fs} {f : FileSpec}

theorem stores_finish (h : Built (Disk.dinode sb d) d next (filesOf args) none)
    (hcount : args.length + 2 ≤ ninodes) (hs : s.disk = finish args next d) :
    s.stores sb = stored sb (Disk.dinode sb d) d := by
  rw [Fs.stores, hs, stored_finish h hcount]

/-- A byte of a file that has a block. -/
theorem byteAt_finish (h : Built (Disk.dinode sb d) d next (filesOf args) none)
    (hcount : args.length + 2 ≤ ninodes) (hs : s.disk = finish args next d)
    (hf : filesOf args i = some f) {o : ℕ}
    (ho : stored sb (Disk.dinode sb d) d (i, slotOf (o / bsize)) ≠ 0) :
    s.byteAt sb i o = f.data.getD o 0 := by
  rw [Fs.byteAt, stores_finish h hcount hs, hs, finish_of_ne (.inr (h.stored_range ho).1),
    h.bytes i f hf o ho]

/-- Below its size, the root directory has blocks, if it does not end at the end of a block. -/
theorem root_ne_zero (h : Built (Disk.dinode sb d) d next (filesOf args) none)
    (hmod : (args.length + 2) % 64 ≠ 0) {bn : ℕ} (hbn : bn * bsize < rootSize args) :
    stored sb (Disk.dinode sb d) d (rootIno, slotOf bn) ≠ 0 := by
  refine h.full rootIno _ (filesOf_root args) bn ?_
  dsimp only
  rw [length_rootData]
  unfold rootSize bsize at *
  omega

/-- An entry of the root directory. -/
theorem entry_finish (h : Built (Disk.dinode sb d) d next (filesOf args) none)
    (hcount : args.length + 2 ≤ ninodes) (hs : s.disk = finish args next d)
    (hmod : (args.length + 2) % 64 ≠ 0) (hk : 16 * k + 16 ≤ rootSize args) :
    s.entry sb rootIno k = (entries args)[k]?.getD ⟨0, List.replicate dirsiz 0⟩ := by
  have hbytes : (List.range 16).map (fun o => s.byteAt sb rootIno (16 * k + o)) =
      (List.range 16).map fun o => (rootData args).getD (16 * k + o) 0 := by
    refine List.map_congr_left fun o ho => byteAt_finish h hcount hs (filesOf_root args) ?_
    refine root_ne_zero h hmod ((Nat.div_mul_le_self _ _).trans_lt ?_)
    have := List.mem_range.1 ho
    omega
  rw [Fs.entry, hbytes, rootData_eq, map_getD_flatMap fun de hde => (mem_entries hde).1]
  cases hde : (entries args)[k]? with
  | none => rfl
  | some de =>
    have hm := mem_entries (List.mem_of_getElem? hde)
    have : ninodes < 2 ^ 16 := by decide
    exact Dirent.ofBytes_bytes (by omega)

theorem inodes_finish (h : Built (Disk.dinode sb d) d next (filesOf args) none)
    (hcount : args.length + 2 ≤ ninodes) (hs : s.disk = finish args next d) (hi : i < ninodes) :
    (Disk.dinode sb s.disk i).type =
      if i = rootIno then tDir else if 2 ≤ i ∧ i < args.length + 2 then tFile else 0 := by
  rw [hs, dinode_finish h hcount hi]
  by_cases hroot : i = rootIno
  · rw [if_pos hroot, if_pos hroot, h.inode rootIno _ (filesOf_root args)]
    rfl
  rw [if_neg hroot, if_neg hroot]
  cases hf : filesOf args i with
  | none =>
    rw [h.absent i hi hf, if_neg]
    · rfl
    · rintro ⟨hlo, hhi⟩
      obtain ⟨k, rfl⟩ := Nat.exists_eq_add_of_le' hlo
      have hk := List.getElem?_eq_getElem (show k < args.length by omega)
      exact Option.some_ne_none _ ((filesOf_file hk).symm.trans hf)
  | some f =>
    rw [h.inode i f hf]
    rw [filesOf, if_neg hroot] at hf
    split at hf
    next h2 =>
      obtain ⟨a, ha, rfl⟩ := Option.map_eq_some_iff.1 hf
      have hlt := (List.getElem?_eq_some_iff.1 ha).1
      rw [if_pos ⟨h2, by omega⟩]
      rfl
    next => exact (Option.some_ne_none f hf.symm).elim

theorem content_finish (h : Built (Disk.dinode sb d) d next (filesOf args) none)
    (hcount : args.length + 2 ≤ ninodes) (hs : s.disk = finish args next d)
    (ha : args[k]? = some a) : s.content sb (k + 2) = a.data := by
  have hf := filesOf_file ha
  have hi := (h.range _ _ hf).1
  have hsize : (Disk.dinode sb s.disk (k + 2)).size = a.data.length := by
    rw [hs, dinode_finish h hcount hi, if_neg (add_two_ne_root k), h.size_eq hf]
  refine List.ext_getElem (by rw [Fs.length_content, hsize]) fun o h₁ h₂ => ?_
  have hget : (s.content sb (k + 2))[o] = s.byteAt sb (k + 2) o := by simp [Fs.content]
  rw [hget, byteAt_finish h hcount hs hf]
  swap
  · exact h.full _ _ hf _ ((Nat.div_mul_le_self o bsize).trans_lt h₂)
  exact List.getD_eq_getElem _ _ h₂

theorem noHoles_finish (h : Built (Disk.dinode sb d) d next (filesOf args) none)
    (hcount : args.length + 2 ≤ ninodes) (hs : s.disk = finish args next d) :
    s.NoHoles sb ↔ (args.length + 2) % 64 ≠ 0 := by
  have hst := stores_finish h hcount hs
  have hroot : (Disk.dinode sb s.disk rootIno).size = rootSize args := by
    rw [hs, dinode_finish h hcount (by decide), if_pos rfl]
  refine ⟨fun hno hmod => ?_, fun hmod i hi htype bn hbn => ?_⟩
  · -- The block behind the entries is below the size.
    have hlen : 16 * (args.length + 2) / bsize * bsize = 16 * (args.length + 2) := by
      unfold bsize
      omega
    have hbn : 16 * (args.length + 2) / bsize * bsize < rootSize args := by
      unfold rootSize bsize
      omega
    have hne := hno rootIno (by decide)
      (by rw [inodes_finish h hcount hs (by decide), if_pos rfl]; decide)
      (16 * (args.length + 2) / bsize) (Fs.lt_ceil_iff.2 (hroot ▸ hbn))
    rw [hst] at hne
    obtain ht | ⟨he, -⟩ := h.tight rootIno _ (filesOf_root args) _ hne
    · dsimp only at ht
      rw [length_rootData, hlen] at ht
      exact lt_irrefl _ ht
    · exact Option.some_ne_none _ he.symm
  · rw [Fs.lt_ceil_iff] at hbn
    rw [hst]
    by_cases hr : i = rootIno
    · subst hr
      exact root_ne_zero h hmod (hroot ▸ hbn)
    · rw [hs, dinode_finish h hcount hi, if_neg hr] at htype hbn
      obtain ⟨f, hf⟩ := h.exists_file ⟨hi, htype⟩
      exact h.full i f hf bn (h.size_eq hf ▸ hbn)

theorem wellFormed_finish (h : Built (Disk.dinode sb d) d next (filesOf args) none)
    (hcount : args.length + 2 ≤ ninodes) (hs : s.disk = finish args next d)
    (href : ∀ ip, (s.inode ip).ref = 0) (hmod : (args.length + 2) % 64 ≠ 0) :
    s.WellFormed sb ∅ := by
  have hnone : ∀ ip, ¬0 < (s.inode ip).ref := fun ip hpos => hpos.ne' (href ip)
  have hinode : ∀ i < ninodes, Disk.dinode sb s.disk i =
      if i = rootIno then { Disk.dinode sb d rootIno with size := rootSize args }
      else Disk.dinode sb d i := fun i hi => by rw [hs, dinode_finish h hcount hi]
  have hlink : ∀ i < ninodes, (Disk.dinode sb s.disk i).type ≠ 0 →
      (Disk.dinode sb s.disk i).nlink = 1 := fun i hi htype => by
      rw [hinode i hi] at htype ⊢
      split
      next => rw [h.inode _ _ (filesOf_root args)]
      next hr =>
        rw [if_neg hr] at htype
        obtain ⟨f, hf⟩ := h.exists_file ⟨hi, htype⟩
        rw [h.inode i f hf]
  refine ⟨⟨?_, ⟨fun ip hp => (hnone ip hp).elim, fun ip _ hp => (hnone ip hp).elim,
    fun ip hp => (hnone ip hp).elim, fun ip hp => (hnone ip hp).elim⟩⟩,
    (noHoles_finish h hcount hs).2 hmod, by decide, fun ip hp => (hnone ip hp).elim,
    fun i hi htype hnl => ?_, fun i hi htype => ?_, fun i hi htype k hk => ?_⟩
  · rw [hs]
    exact blocksOwned_finish h hcount
  · rw [hlink i hi htype] at hnl
    exact absurd hnl (by decide)
  · rw [inodes_finish h hcount hs hi] at htype
    split at htype
    next => exact absurd htype (by decide)
    next hr =>
      rw [hinode i hi, if_neg hr]
      cases hf : filesOf args i with
      | none =>
        rw [h.absent i hi hf]
        rfl
      | some f =>
        have heq := inodes_finish h hcount hs hi
        rw [hinode i hi, if_neg hr, if_neg hr, htype] at heq
        exact ((h.alloced hf).2 heq).elim
  · have hr : i = rootIno := by
      rw [inodes_finish h hcount hs hi] at htype
      by_contra hr
      rw [if_neg hr] at htype
      split at htype <;> exact absurd htype (by decide)
    subst hr
    rw [hinode _ hi, if_pos rfl] at hk
    rw [entry_finish h hcount hs hmod hk]
    cases hde : (entries args)[k]? with
    | none => exact (by decide : 0 < ninodes)
    | some de => exact (mem_entries (List.mem_of_getElem? hde)).2.2.trans_le hcount

theorem lookup_finish (h : Built (Disk.dinode sb d) d next (filesOf args) none)
    (hcount : args.length + 2 ≤ ninodes) (hs : s.disk = finish args next d)
    (hmod : (args.length + 2) % 64 ≠ 0) (name : List UInt8) : s.lookup sb rootIno name =
      ((entries args).find? fun de => de.Names name).map Dirent.inum := by
  have hsize : (Disk.dinode sb s.disk rootIno).size = rootSize args := by
    rw [hs, dinode_finish h hcount (by decide), if_pos rfl]
  have hle := le_rootSize args
  obtain ⟨m, hm⟩ := Nat.exists_eq_add_of_le (show args.length + 2 ≤ rootSize args / 16 by omega)
  -- The entries, and free ones behind them.
  have hmap : (List.range (rootSize args / 16)).map (s.entry sb rootIno) =
      entries args ++ List.replicate m ⟨0, List.replicate dirsiz 0⟩ := by
    refine List.ext_getElem (by simp [hm]) fun k h₁ h₂ => ?_
    have hk : k < rootSize args / 16 := by simpa using h₁
    rw [List.getElem_map, List.getElem_range, entry_finish h hcount hs hmod (by omega)]
    by_cases hlt : k < (entries args).length
    · rw [List.getElem_append_left hlt, List.getElem?_eq_getElem hlt]
      rfl
    · rw [List.getElem_append_right (not_lt.1 hlt), List.getElem?_eq_none (not_lt.1 hlt),
        List.getElem_replicate]
      rfl
  have hfree : (List.replicate m (⟨0, List.replicate dirsiz 0⟩ : Dirent)).find?
      (fun de => de.Names name) = none := by
    rw [List.find?_eq_none]
    intro de hde
    rw [List.eq_of_mem_replicate hde]
    exact fun hn => (of_decide_eq_true hn).1 rfl
  rw [Fs.lookup, hsize, hmap, List.find?_append, hfree, Option.or_none]

end

end Mkfs

/-- `mkfs` does not fail if the files fit, and the kernel finds in the image the files that it was
    given. The kernel's invariants hold of the image if the root directory does not end at the end
    of a block. -/
theorem mkfs_image {args : List Mkfs.Arg} (hfit : Mkfs.Fits args) :
    ∃ t, Mkfs.mkfs args Mkfs.Image.opened = .ok ⟨⟩ t ∧
      ∀ s : Fs, s.disk = t.disk → (∀ ip, (s.inode ip).ref = 0) → Mkfs.Boots args s := by
  obtain ⟨_, t, hm, d, next, h, ht⟩ := Mkfs.mkfs_ok hfit
  refine ⟨t, hm, fun s hs href => ?_⟩
  have hcount := hfit.count
  rw [ht] at hs
  have hboot : ∀ b < Mkfs.sb.inodestart, s.disk b = if b = 1 then
      (Bytes.fill 0 : Block).write 0 Mkfs.sb.bytes else Bytes.fill 0 := fun b hb => by
    rw [hs, Mkfs.finish_of_ne (.inl hb), h.boot b hb]
  refine ⟨?_, hboot _ (by decide), hs ▸ Mkfs.blocksOwned_finish h hcount,
    fun i hi => Mkfs.inodes_finish h hcount hs hi, fun k a ha => Mkfs.content_finish h hcount hs ha,
    Mkfs.noHoles_finish h hcount hs, Mkfs.wellFormed_finish h hcount hs href,
    Mkfs.lookup_finish h hcount hs⟩
  rw [hboot 1 (by decide), if_pos rfl]
  decide

/-- An image with the file `user/_sh`, read in two pieces, and the empty file `README`. -/
theorem mkfs_image_two : ∃ args : List Mkfs.Arg, args.map Mkfs.Arg.name =
      [[115, 104], [82, 69, 65, 68, 77, 69]] ∧ ∃ t, Mkfs.mkfs args Mkfs.Image.opened = .ok ⟨⟩ t ∧
    ∀ s : Fs, s.disk = t.disk → (∀ ip, (s.inode ip).ref = 0) → Mkfs.Boots args s :=
  ⟨[⟨[117, 115, 101, 114, 47, 95, 115, 104], [[1, 2], [3]]⟩, ⟨[82, 69, 65, 68, 77, 69], []⟩],
    by decide, mkfs_image ⟨by decide, by decide, by decide, by decide, by decide⟩⟩

end Xv6
