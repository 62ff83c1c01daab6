import Xv6.Sys.Invariant

/-!
# System calls keep the references

Every system call keeps the invariant of `Xv6.Sys.Invariant`, on all its paths, also where it fails:
it gives back the references to files and inodes that it takes, but for those that it stores in a
file, in a descriptor, or as a current directory. The tree of names does steps. `CallKept` is what
the calls have in common that neither fork nor exit.
-/

namespace Xv6

/-- After a call of the process `p`, which neither forks nor exits, and enters names in `parent`
    only. -/
structure CallKept (sb : Superblock) (lost : Set ℕ) (U : Multiset ℕ) (parent : Option ℕ)
    (p : Fin nproc) (s t : Sys) : Prop where
  inv : SysInv sb lost U 0 0 t
  same : SameNodes sb s.fs t.fs
  ofile : ∀ q, q ≠ p → t.files.ofile q = s.files.ofile q
  live : t.files.live = s.files.live
  cwd : ∀ q, (t.cwd q).isSome = (s.cwd q).isSome
  follows : s.fs.Follows sb parent t.fs

variable {sb : Superblock} {lost : Set ℕ} {U : Multiset ℕ} {H H' : Fin nfile → ℤ}
  {G G' : Fin ninode → ℤ} {s t u : Sys} {p q np : Fin nproc} {f : Fin nfile} {fd : Fin nofile}
  {ip cwd : Fin ninode} {x y z : Fs} {parent : Option ℕ} {E : SysPanic → Sys → Prop} {α : Type}

/-! ## Calls with a descriptor -/

/-- Only the file system has changed. -/
theorem CallKept.of_fs (h : SysInv sb lost U 0 0 s) (hk : Fs.Kept sb lost parent s.fs 0 x) :
    CallKept sb lost U parent p s { s with fs := x } :=
  ⟨h.kept le_rfl hk, hk.gained.same, fun _ _ => rfl, rfl, fun _ => rfl, hk.follows⟩

theorem CallKept.refl (h : SysInv sb lost U 0 0 s) : CallKept sb lost U parent p s s :=
  .of_fs h (Fs.Kept.refl h.fs).of_none

/-- Only the open files have changed, and their inodes have not. -/
theorem CallKept.of_files (h : SysInv sb lost U 0 0 s) {y : Files} (hf : FInv U 0 y)
    (hn : y.node = s.files.node) (ho : ∀ q, q ≠ p → y.ofile q = s.files.ofile q)
    (hl : y.live = s.files.live) : CallKept sb lost U parent p s { s with files := y } :=
  ⟨h.setFiles hf hn, .refl sb s.fs, ho, hl, fun _ => rfl, .of_nodes rfl⟩

/-- The offset of a file changes. -/
theorem CallKept.setOff (h : CallKept sb lost U parent p s t) (hf : 0 < (t.files.file f).ref)
    (ht : (t.files.file f).type = .inode) (off : ℕ) : CallKept sb lost U parent p s { t with
      files := { t.files with
        file := Function.update t.files.file f { t.files.file f with off } } } := by
  have hne : (t.files.file f).type ≠ .pipe := by rw [ht]; decide
  exact ⟨h.inv.setFiles (h.inv.files.setType hf hne hne rfl) (Files.node_same rfl), h.same,
    h.ofile, h.live, h.cwd, h.follows⟩

/-- `fileclose` gives back what it gets. -/
theorem wp_fileclose_sys (hsb : sb.Wf) (hU : U.Nodup) (h : SysInv sb lost U H G s) (hG : 0 ≤ G)
    (hf : 0 < (s.files.file f).ref) :
    wp (Sys.fileclose sb f) (fun _ t => SysInv sb lost U (H - holds (some f)) G t ∧
      GaveBack sb s.fs t.fs ∧ t.files.ofile = s.files.ofile ∧ t.files.live = s.files.live ∧
      t.cwd = s.cwd) FsOnly s := by
  have hclose : wp (fileclose f) (fun r y => FInv U (H - holds (some f)) y ∧
      y.ofile = s.files.ofile ∧ y.live = s.files.live) (fun _ _ => False) s.files :=
    wp_fileclose h.files hU hf fun r y hy ho hl => ⟨hy, ho, hl⟩
  rw [Sys.fileclose, wp_bind, wp_liftFiles]
  refine (hclose.and wp_fileclose_node).mono (fun r y hy => ?_) fun _ _ he => he.1.elim
  obtain ⟨⟨hinv, ho, hl⟩, hdrop⟩ := hy
  obtain ⟨rfl, hn⟩ | ⟨n, hn, rfl, hupd⟩ := hdrop
  · exact ⟨h.setFiles hinv hn, .refl sb s.fs, ho, hl, rfl⟩
  · have hd := h.dropFile hinv hn hupd
    have hpos : 0 < (s.fs.inode (Sys.entryOf n.ip)).ref := h.pos hG hn
    have hiput : wp (Fs.iput sb (Sys.entryOf n.ip)) (fun _ x => x.WellFormed sb lost ∧
        Fs.Released sb (Sys.entryOf n.ip) s.fs x ∧ GaveBack sb s.fs x) (fun _ _ => True) s.fs :=
      Fs.wp_iput_put hsb h.fs hpos fun x hx hr hp => ⟨hx, hr, hr.gaveBack hp⟩
    refine wp_liftFs_of hiput fun _ x hx => ?_
    exact ⟨hd.release hG hx.1 hx.2.1, hx.2.2, ho, hl, rfl⟩

theorem wp_sysClose_sys (hsb : sb.Wf) (hU : U.Nodup) (h : SysInv sb lost U 0 0 s) (n : ℤ) :
    wp (Sys.sysClose sb p n) (fun _ t => CallKept sb lost U none p s t) FsOnly s := by
  rw [Sys.sysClose, wp_bind, wp_get]
  split
  · exact .refl h
  next fd f hfd =>
  have hof := argfd_eq_some hfd
  have hf : 0 < (s.files.file f).ref := h.files.slots_le hof le_rfl
  have hset := h.files.clearFd hof
  rw [wp_bind, wp_liftFiles, wp_setOfile, wp_bind]
  refine (wp_fileclose_sys hsb hU (h.setFiles hset rfl) le_rfl hf).mono (fun _ t ht => ?_)
    fun _ _ he => he
  obtain ⟨hinv, hback, ho, hl, hc⟩ := ht
  rw [zero_add, sub_self] at hinv
  exact ⟨hinv, hback.same, fun q hq => by rw [ho]; exact Files.setFd_of_ne hq, hl,
    fun q => by rw [hc], fun _ _ strict _ => hback.evolves strict⟩

theorem wp_sysRead_sys (h : SysInv sb lost U 0 0 s) {n : ℤ} {dst : ℕ → Bool} {m : UInt32}
    {other : ℤ} :
    wp (Sys.sysRead sb p n dst m other) (fun _ t => CallKept sb lost U none p s t)
      (fun e _ => e = .fileread ∨ ∃ e', e = .fs e') s := by
  have hrefl : CallKept sb lost U none p s s := .refl h
  rw [Sys.sysRead, wp_bind, wp_get]
  split
  · exact hrefl
  next fd f hfd =>
  have hf : 0 < (s.files.file f).ref := h.files.slots_le (argfd_eq_some hfd) le_rfl
  rw [Sys.fileread, wp_bind, wp_get]
  split
  · exact hrefl
  cases htype : (s.files.file f).type with
  | none => exact .inl rfl
  | pipe => exact hrefl
  | device => exact hrefl
  | inode =>
    dsimp only
    rw [wp_bind, wp_liftFs]
    refine (Fs.wp_readInode h.fs dst _ m).mono (fun r x hx => ?_) fun e _ _ => .inr ⟨e, rfl⟩
    have hk : CallKept sb lost U none p s { s with fs := x } := .of_fs h hx
    rw [wp_bind]
    split
    · rw [wp_liftFiles, setFile, wp_modify]
      exact hk.setOff hf htype _
    · exact hk

/-- A write changes one file, which is not a directory. -/
theorem wp_sysWrite_sys (hsb : sb.Wf) (h : SysInv sb lost U 0 0 s) {n : ℤ}
    {src : ℕ → Option UInt8} {m : Int32} {other : ℤ} :
    wp (Sys.sysWrite sb p n src m other) (fun _ t => CallKept sb lost U none p s t ∧
      (t.fs = s.fs ∨ ∃ i, (Disk.dinode sb s.fs.disk i).type ≠ Fs.tDir ∧ Fs.Others sb i s.fs t.fs))
      (fun e _ => e = .filewrite ∨ ∃ e', e = .fs e') s := by
  have hrefl : CallKept sb lost U none p s s := .refl h
  rw [Sys.sysWrite, wp_bind, wp_get]
  split
  · exact ⟨hrefl, .inl rfl⟩
  next fd f hfd =>
  have hf : 0 < (s.files.file f).ref := h.files.slots_le (argfd_eq_some hfd) le_rfl
  rw [Sys.filewrite, wp_bind, wp_get]
  split
  · exact ⟨hrefl, .inl rfl⟩
  next hwritable =>
  cases htype : (s.files.file f).type with
  | none => exact .inl rfl
  | pipe => exact ⟨hrefl, .inl rfl⟩
  | device => exact ⟨hrefl, .inl rfl⟩
  | inode =>
    dsimp only
    have hnode : s.files.node f = some ⟨(s.files.file f).ip, false, true⟩ := by
      rw [Files.node, File.node, if_pos hf, htype, Bool.eq_true_of_not_eq_false hwritable]
    have hpos := h.pos le_rfl hnode
    have hdir := h.typed f _ hnode rfl rfl
    rw [wp_bind, wp_liftFs, Fs.filewrite, wp_bind]
    refine (Fs.wp_filewriteLoop_kept hsb m.toInt_lt (UInt32.toNat_lt _) h.fs hpos hdir).mono
      (fun r x hx => ?_) fun e _ _ => .inr ⟨e, rfl⟩
    rw [wp_pure, wp_bind, wp_liftFiles, setFile, wp_modify]
    have hk : CallKept sb lost U none p s { s with fs := x } := .of_fs h hx.1
    exact ⟨hk.setOff hf htype _, .inr ⟨_, hdir, hx.2.1⟩⟩

theorem wp_sysFstat_sys (h : SysInv sb lost U 0 0 s) {n : ℤ} {ok : Bool} :
    wp (Sys.sysFstat sb p n ok) (fun _ t => CallKept sb lost U none p s t) FsOnly s := by
  have hrefl : CallKept sb lost U none p s s := .refl h
  rw [Sys.sysFstat, wp_bind, wp_get]
  split
  · exact hrefl
  next fd f hfd =>
  have hstat : wp (do
      let st ← Sys.liftFs (Fs.statInode sb (Sys.entryOf (s.files.file f).ip))
      pure (if ok then some st else none)) (fun _ t => CallKept sb lost U none p s t) FsOnly s := by
    rw [wp_bind]
    exact wp_liftFs_of (Fs.wp_statInode h.fs) fun _ _ hx => .of_fs h hx
  rw [Sys.filestat, wp_bind, wp_get]
  cases (s.files.file f).type with
  | none => exact hrefl
  | pipe => exact hrefl
  | inode => exact hstat
  | device => exact hstat

/-! ## Calls with a path -/

theorem wp_withCwd {m : Fin ninode → FsM α} {Q : α → Sys → Prop} (hcwd : s.cwd p = some cwd) :
    wp (Sys.withCwd p m) Q E s ↔ wp (Sys.liftFs (m cwd)) Q E s := by
  rw [Sys.withCwd, wp_bind, Sys.cwdOf, wp_bind, wp_get, hcwd]
  rfl

/-- A call on the file system that keeps the references. -/
theorem wp_withCwd_kept (h : SysInv sb lost U 0 0 s) (hcwd : s.cwd p = some cwd)
    {m : Fin ninode → FsM α} (hm : wp (m cwd) (fun _ x => Fs.Kept sb lost parent s.fs 0 x)
      (fun _ _ => True) s.fs) :
    wp (Sys.withCwd p m) (fun _ t => CallKept sb lost U parent p s t) FsOnly s :=
  (wp_withCwd hcwd).2 (wp_liftFs_of hm fun _ _ hx => .of_fs h hx)

/-- The operations on names keep the references, whether they fail or not. -/
theorem wp_nameOp_kept (hsb : sb.Wf) (hw : x.WellFormed sb lost) (hcwd : 0 < (x.inode cwd).ref)
    (op : Fs.NameOp) (hop : ∀ path, op ≠ .creat path) :
    wp (op.run sb cwd) (fun _ y => Fs.Kept sb lost (op.enters sb cwd x) x 0 y) (fun _ _ => True)
      x := by
  cases op with
  | mkdir path =>
    exact (Fs.wp_made hsb hw hcwd (by decide) path).mono (fun _ _ h => ⟨h.1, h.2.1, h.2.2.2⟩)
      fun _ _ h => h
  | mknod path major minor =>
    exact (Fs.wp_made hsb hw hcwd (by decide) path).mono (fun _ _ h => ⟨h.1, h.2.1, h.2.2.2⟩)
      fun _ _ h => h
  | creat path => exact absurd rfl (hop path)
  | link old new =>
    rw [Fs.NameOp.run, wp_bind]
    exact (Fs.wp_sysLink hsb hw hcwd old new).mono (fun _ _ h => ⟨h.wellFormed, h.refs, h.follows⟩)
      fun _ _ h => h
  | unlink path =>
    rw [Fs.NameOp.run, wp_bind]
    exact (Fs.wp_sysUnlink hsb hw hcwd path).mono (fun _ _ h => ⟨h.wellFormed, h.refs, h.follows⟩)
      fun _ _ h => h

theorem wp_sysChdir_sys (hsb : sb.Wf) (h : SysInv sb lost U 0 0 s) (hcwd : s.cwd p = some cwd)
    (path : Option (List UInt8)) :
    wp (Sys.sysChdir sb p path) (fun _ t => CallKept sb lost U none p s t) FsOnly s := by
  rw [Sys.sysChdir, wp_bind, wp_withCwd hcwd]
  refine wp_liftFs_of (Fs.wp_chdirInode hsb h.fs (h.cwd_pos le_rfl hcwd) path)
    fun r x hx => ?_
  cases r with
  | none => exact .of_fs h (hx.1 rfl)
  | some ip =>
    obtain ⟨hw, y, hy, hrel, hput⟩ := hx.2 ip rfl
    rw [wp_bind, Sys.setCwd, wp_modify]
    have hgain := h.gain le_rfl hy
    -- The reference to the old directory is given back, and it is left.
    have hcwd' : ∀ jp, ((0 : Fin ninode → ℤ) + holds (some ip)) jp + holds (s.cwd p) jp -
        holds (some ip) jp = (0 + holds (some cwd) : Fin ninode → ℤ) jp := fun jp => by
      rw [hcwd, Pi.add_apply, Pi.add_apply]
      omega
    have hleft := hgain.setCwd (p := p) (o := some ip) fun jp => (hcwd' jp).symm
    refine ⟨hleft.release le_rfl hw hrel, hy.gained.sameNodes_trans hrel.sameNodes,
      fun _ _ => rfl, rfl, fun q => ?_, hy.follows.trans_put hput⟩
    by_cases hq : q = p
    · subst hq
      rw [hcwd]
      dsimp only
      rw [Function.update_self]
      rfl
    · dsimp only
      rw [Function.update_of_ne hq]

/-! ## Opening -/

/-- A call of `sys_open` that has failed: the open files are as before, and so is the file system,
    unless an inode was made for which there was no room then. -/
structure OpenFailed (sb : Superblock) (lost : Set ℕ) (parent : Option ℕ) (omode : ℕ)
    (p : Fin nproc) (s t : Sys) : Prop where
  files : t.files = s.files
  cwd : t.cwd = s.cwd
  fs : Fs.Failed sb lost parent s.fs t.fs ∨ omode.testBit 9 = true ∧ s.files.NoRoom p ∧
    ∃ i, 1 ≤ i ∧ i < sb.ninodes ∧ (Disk.dinode sb s.fs.disk i).type = 0

/-- `sys_open`, with the inode. -/
theorem wp_openFile_sys (hsb : sb.Wf) (hU : U.Nodup) (h : SysInv sb lost U 0 0 s) {omode : ℕ}
    {parent' : Option ℕ} (ho : Fs.OpenedInode sb lost parent omode s.fs ip x) :
    wp (Sys.openFile sb p ip omode) (fun r t => CallKept sb lost U parent p s t ∧
      (r = none → OpenFailed sb lost parent' omode p s t)) FsOnly { s with fs := x } := by
  have hgain := h.gain le_rfl ho.toKept
  have hcopy := (ho.wellFormed.ok.loaded ho.cached).copy
  -- The inode is put.
  have hput : (x.disk = s.fs.disk ∨ omode.testBit 9 = true ∧ s.files.NoRoom p ∧
      ∃ i, 1 ≤ i ∧ i < sb.ninodes ∧ (Disk.dinode sb s.fs.disk i).type = 0) →
      wp (do
        Sys.liftFs (Fs.iunlockput sb ip)
        pure (none : Option (Fin nofile))) (fun r t => CallKept sb lost U parent p s t ∧
        (r = none → OpenFailed sb lost parent' omode p s t)) FsOnly { s with fs := x } :=
    fun hwhy => by
      have hiput : wp (Fs.iunlockput sb ip) (fun _ y => Fs.Kept sb lost parent s.fs 0 y ∧
          (x.disk = s.fs.disk → y.disk = s.fs.disk)) (fun _ _ => True) x :=
        ho.wp_put hsb h.fs fun y hy hd => ⟨hy, hd⟩
      rw [wp_bind]
      refine wp_liftFs_of hiput fun _ y hy => ?_
      refine ⟨.of_fs h hy.1, fun _ => ⟨rfl, rfl, hwhy.imp_left fun hd => ?_⟩⟩
      exact ⟨⟨hy.1.wellFormed, hy.1.refs, .of_nodes (Fs.nodes_of_disk (hy.2 hd))⟩,
        .of_disk (hy.2 hd)⟩
  rw [Sys.openFile, wp_bind, wp_get]
  dsimp only
  split
  next hdev =>
    refine hput (ho.made.imp_right fun hm => ?_)
    rw [hm.2.2.2.2] at hdev
    exact absurd hdev.1 (by decide)
  next =>
  generalize hnode : (⟨ip.val, if (x.inode ip).d.type = Fs.tDevice then
    some (x.inode ip).d.major.toInt else none⟩ : OpenNode) = node
  have hnip : node.ip = ip.val := by rw [← hnode]
  have hndev : node.major.isSome = false → (x.inode ip).d.type ≠ Fs.tDevice := by
    rw [← hnode]
    intro hm htype
    rw [if_pos htype] at hm
    cases hm
  have hopen : wp (sysOpen p (some node) omode) (fun _ y => FInv U 0 y ∧
      (∀ q, q ≠ p → y.ofile q = s.files.ofile q) ∧ y.live = s.files.live) (fun _ _ => False)
      s.files := wp_sysOpen h.files hU fun r y hy ho hl => ⟨hy, ho, hl⟩
  rw [wp_bind, wp_liftFiles]
  refine (hopen.and (wp_sysOpen_node h.files.untyped)).mono (fun r y hy => ?_)
    fun _ _ he => he.1.elim
  obtain ⟨⟨hinv, hofile, hlive⟩, hnone, hsome⟩ := hy
  cases r with
  | none =>
    obtain ⟨rfl, hroom⟩ := hnone rfl
    exact hput (ho.made.imp_right fun hm => ⟨hm.1, hroom, _, hm.2.1, hm.2.2.1, hm.2.2.2.1⟩)
  | some fd =>
    obtain ⟨f, hf, hupd⟩ := hsome rfl
    have hnew := hgain.newFile hinv hf hupd hnip fun _ hw => by
      have hmode : omode ≠ 0 := by
        rintro rfl
        simp at hw
      dsimp only
      rw [← hcopy]
      exact ho.notDir hmode
    have hkept : CallKept sb lost U parent p s { s with fs := x, files := y } :=
      ⟨hnew, ho.toKept.gained.same, hofile, hlive, fun _ => rfl, ho.follows⟩
    dsimp only
    rw [wp_bind]
    split
    · next htrunc =>
      have hnd : (x.inode ip).d.type ≠ Fs.tDir := by
        rw [htrunc.2]
        decide
      have hitrunc : wp (Fs.itrunc sb ip) (fun _ z => Fs.Kept sb lost none x 0 z ∧
          z.nodes sb = x.nodes sb) (fun _ _ => True) x :=
        Fs.wp_itrunc_kept hsb ho.wellFormed ho.cached hnd fun z hz hn => ⟨hz, hn⟩
      refine wp_liftFs_of hitrunc fun _ z hz => ?_
      refine ⟨⟨hnew.kept le_rfl hz.1, ?_, hofile, hlive, fun _ => rfl,
        ho.follows.trans_nodes hz.2⟩, fun h => (Option.some_ne_none fd h).elim⟩
      exact ho.toKept.gained.sameNodes_trans hz.1.gained.same
    · exact ⟨hkept, fun h => (Option.some_ne_none fd h).elim⟩

/-- `sys_open`, whether it fails or not. -/
theorem wp_sysOpen_sys (hsb : sb.Wf) (hU : U.Nodup) (h : SysInv sb lost U 0 0 s)
    (hcwd : s.cwd p = some cwd) (path : Option (List UInt8)) (omode : ℕ) :
    wp (Sys.sysOpen sb p path omode) (fun r t => CallKept sb lost U
      (path.bind fun path => s.fs.openEnters sb cwd path omode) p s t ∧ (r = none →
      OpenFailed sb lost (path.bind fun path => (s.fs.parentOf sb cwd path).map Prod.fst) omode p
        s t)) FsOnly s := by
  cases path with
  | none => exact ⟨.refl h, fun _ => ⟨rfl, rfl, .inl ⟨.refl h.fs, .of_disk rfl⟩⟩⟩
  | some path =>
    rw [Sys.sysOpen, wp_bind, wp_withCwd hcwd]
    refine wp_liftFs_of (Fs.wp_openInode hsb h.fs (h.cwd_pos le_rfl hcwd)) fun r x hx => ?_
    cases r with
    | none =>
      have hfail := hx.1 rfl
      exact ⟨.of_fs h hfail.toKept.of_none, fun _ => ⟨rfl, rfl, .inl hfail⟩⟩
    | some ip => exact wp_openFile_sys hsb hU h (hx.2 ip rfl)

end Xv6
