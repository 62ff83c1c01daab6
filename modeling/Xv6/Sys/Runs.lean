import Xv6.Sys.Refs

/-!
# Runs of the system calls

In every run of system calls of any processes, the reference count of an inode is the number of open
files and of current directories that are this inode (`inode_refs_exact`). It follows that an inode
in use does not change its type, and that no call writes to a directory as to a file
(`directories_not_written`). A call of `sys_open` that fails has changed nothing, with one exception
(`failed_open_undone`).
-/

namespace Xv6

/-- The invariant when no call is in progress. -/
structure SysReady (sb : Superblock) (lost : Set ℕ) (U : Multiset ℕ) (s : Sys) : Prop where
  inv : SysInv sb lost U 0 0 s
  dead : ∀ p, s.files.live p = false → ∀ fd, s.files.ofile p fd = none
  cwd : ∀ p, (s.cwd p).isSome = s.files.live p

/-- Other panics than those of the file table. -/
def NotFile (e : SysPanic) (_ : Sys) : Prop := e ≠ .cwd ∧ ∀ e', e ≠ .file e'

/-- The directory in which a call may enter a name. -/
def SysCall.enters (sb : Superblock) (s : Sys) : SysCall → Option ℕ
  | openFile p path omode => (s.cwd p).bind fun cwd =>
    path.bind fun path => s.fs.openEnters sb cwd path omode
  | name p op => (s.cwd p).bind fun cwd => op.enters sb cwd s.fs
  | close _ _ | read _ _ _ _ _ | write _ _ _ _ _ | fstat _ _ _ | dup _ _ | pipe _ _ _ | chdir _ _
  | exec _ _ _ | fork _ _ | exit _ => none

/-- After a call that enters names in `parent` only. -/
structure Called (sb : Superblock) (lost : Set ℕ) (U : Multiset ℕ) (parent : Option ℕ)
    (s t : Sys) : Prop where
  ready : SysReady sb lost U t
  same : SameNodes sb s.fs t.fs
  follows : s.fs.Follows sb parent t.fs

variable {sb : Superblock} {lost : Set ℕ} {U : Multiset ℕ} {s t u : Sys} {p q np : Fin nproc}
  {fd : Fin nofile} {ip cwd : Fin ninode} {parent : Option ℕ} {α : Type}

theorem FsOnly.notFile {e : SysPanic} (h : FsOnly e s) : NotFile e t := by
  obtain ⟨e', rfl⟩ := h
  exact ⟨by simp, by simp⟩

theorem SysReady.exists_cwd (h : SysReady sb lost U s) (hp : s.files.live p = true) :
    ∃ cwd, s.cwd p = some cwd := Option.isSome_iff_exists.1 (by rw [h.cwd, hp])

theorem CallKept.called (h : SysReady sb lost U s) (hp : s.files.live p = true)
    (hk : CallKept sb lost U parent p s t) : Called sb lost U parent s t where
  same := hk.same
  follows := hk.follows
  ready := by
    refine ⟨hk.inv, fun q hq => ?_, fun q => ?_⟩
    · rw [hk.live] at hq
      have hqp : q ≠ p := by
        rintro rfl
        rw [hp] at hq
        cases hq
      rw [hk.ofile q hqp]
      exact h.dead q hq
    · rw [hk.cwd, hk.live]
      exact h.cwd q

/-! ## Fork and exit -/

/-- The processes that can make calls change. -/
theorem SysInv.setLive {H : Fin nfile → ℤ} {G : Fin ninode → ℤ} (h : SysInv sb lost U H G s)
    (live : Fin nproc → Bool) :
    SysInv sb lost U H G { s with files := { s.files with live } } :=
  h.setFiles ⟨h.files.ref, h.files.nonneg, h.files.untyped, h.files.isEnd, h.files.ends,
    h.files.once, h.files.held, h.files.pages, h.files.refreed⟩ rfl

/-- The child has the files and the current directory of its parent. -/
theorem wp_fork_sys (h : SysReady sb lost U s) (hp : s.files.live p = true)
    (hnp : s.files.live np = false) :
    wp (Sys.fork p np) (fun _ t => Called sb lost U none s t) FsOnly s := by
  obtain ⟨cwd, hcwd⟩ := h.exists_cwd hp
  have hnone : s.cwd np = none := by
    rw [← Option.isNone_iff_eq_none, ← Option.not_isSome, h.cwd, hnp]
    rfl
  have hfork : wp (forkFiles p np) (fun _ y => FInv U 0 y ∧
      (∀ q, q ≠ np → y.ofile q = s.files.ofile q) ∧
      y.live = Function.update s.files.live np true) (fun _ _ => False) s.files :=
    wp_forkFiles h.inv.files (h.dead np hnp) fun y hy ho hl => ⟨hy, ho, hl⟩
  rw [Sys.fork, wp_bind, wp_liftFiles]
  refine (hfork.and wp_forkFiles_node).mono (fun _ y hy => ?_) fun _ _ he => he.1.elim
  obtain ⟨⟨hinv, ho, hl⟩, hn⟩ := hy
  have hfiles := h.inv.setFiles hinv hn
  have hidup : wp (Fs.idup cwd) (fun r x => r = cwd ∧ Fs.Kept sb lost none s.fs {cwd} x)
      (fun _ _ => True) s.fs :=
    Fs.wp_idup_kept h.inv.fs (h.inv.cwd_pos le_rfl hcwd) fun x hx => ⟨rfl, hx⟩
  have hcwd' : ({ s with files := y } : Sys).cwd p = some cwd := hcwd
  rw [wp_bind, wp_withCwd hcwd']
  refine wp_liftFs_of hidup fun r x hx => ?_
  obtain ⟨rfl, hx⟩ := hx
  rw [Sys.setCwd, wp_modify]
  have hgain := hfiles.gain le_rfl hx
  have hset : SysInv sb lost U 0 0 { s with
      fs := x, files := y, cwd := Function.update s.cwd np (some r) } := hgain.setCwd fun ip => by
    rw [hnone, holds_none, Pi.add_apply]
    omega
  refine ⟨⟨hset, fun q hq => ?_, fun q => ?_⟩, hx.gained.same, hx.follows⟩
  · dsimp only at hq ⊢
    rw [hl] at hq
    have hqn : q ≠ np := by
      rintro rfl
      rw [Function.update_self] at hq
      cases hq
    rw [Function.update_of_ne hqn] at hq
    rw [ho q hqn]
    exact h.dead q hq
  · dsimp only
    rw [hl]
    by_cases hq : q = np
    · rw [hq, Function.update_self, Function.update_self]
      rfl
    · rw [Function.update_of_ne hq, Function.update_of_ne hq]
      exact h.cwd q

/-- In the loop of `kexit`, where the descriptors `l` are left. -/
structure Closing (sb : Superblock) (lost : Set ℕ) (U : Multiset ℕ) (p : Fin nproc)
    (l : List (Fin nofile)) (s t : Sys) : Prop where
  inv : SysInv sb lost U 0 0 t
  back : GaveBack sb s.fs t.fs
  ofile : ∀ q, q ≠ p → t.files.ofile q = s.files.ofile q
  closed : ∀ fd, fd ∉ l → t.files.ofile p fd = none
  live : t.files.live = s.files.live
  cwd : t.cwd = s.cwd

theorem wp_exitFd_sys (hsb : sb.Wf) (hU : U.Nodup) {l : List (Fin nofile)}
    (h : Closing sb lost U p (fd :: l) s t) :
    wp (Sys.exitFd sb p fd) (fun _ u => Closing sb lost U p l s u) FsOnly t := by
  rw [Sys.exitFd, wp_bind, wp_get]
  split
  next f hf =>
    rw [wp_bind]
    refine (wp_fileclose_sys hsb hU h.inv le_rfl (h.inv.files.slots_le hf le_rfl)).mono
      (fun _ u hu => ?_) fun _ _ he => he
    obtain ⟨hinv, hback, ho, hl, hc⟩ := hu
    rw [wp_liftFiles, wp_setOfile]
    have hof : u.files.ofile p fd = some f := by
      rw [ho]
      exact hf
    have hclear := hinv.files.clearFd hof
    rw [zero_sub, neg_add_cancel] at hclear
    refine ⟨hinv.setFiles hclear rfl, h.back.trans hback, fun q hq => ?_, fun i hi => ?_,
      hl.trans h.live, hc.trans h.cwd⟩
    · exact (Files.setFd_of_ne hq).trans ((congrFun ho q).trans (h.ofile q hq))
    · by_cases hif : i = fd
      · rw [hif]
        exact Files.setFd_self
      · refine (Files.setFd_of_ne_fd hif).trans ?_
        rw [ho]
        exact h.closed i fun hc => (List.mem_cons.1 hc).elim hif hi
  next hf =>
    refine ⟨h.inv, h.back, h.ofile, fun i hi => ?_, h.live, h.cwd⟩
    by_cases hif : i = fd
    · rw [hif]
      exact hf
    · exact h.closed i fun hc => (List.mem_cons.1 hc).elim hif hi

/-- A process that exits gives back all its references. -/
theorem wp_exit_sys (hsb : sb.Wf) (hU : U.Nodup) (h : SysReady sb lost U s)
    (hp : s.files.live p = true) :
    wp (Sys.exit sb p) (fun _ t => Called sb lost U none s t) FsOnly s := by
  obtain ⟨cwd, hcwd⟩ := h.exists_cwd hp
  rw [Sys.exit, wp_bind]
  refine (wp_forM (fun l t => Closing sb lost U p l s t)
    ⟨h.inv, .refl sb s.fs, fun _ _ => rfl, fun i hi => absurd (List.mem_finRange i) hi, rfl, rfl⟩
    fun fd l t _ ht => wp_exitFd_sys hsb hU ht).mono (fun _ t ht => ?_) fun _ _ he => he
  have hcwd' : t.cwd p = some cwd := by rw [ht.cwd, hcwd]
  have hiput : wp (Fs.iput sb cwd) (fun _ x => x.WellFormed sb lost ∧
      Fs.Released sb cwd t.fs x ∧ GaveBack sb t.fs x) (fun _ _ => True) t.fs :=
    Fs.wp_iput_put hsb ht.inv.fs (ht.inv.cwd_pos le_rfl hcwd') fun x hx hr hp =>
      ⟨hx, hr, hr.gaveBack hp⟩
  rw [wp_bind, wp_withCwd hcwd']
  refine wp_liftFs_of hiput fun _ x hx => ?_
  rw [wp_modify]
  have hleft : SysInv sb lost U 0 (0 + holds (some cwd)) { t with
      cwd := Function.update t.cwd p none } := ht.inv.setCwd fun ip => by
    rw [hcwd', holds_none, Pi.add_apply]
    omega
  have hback := ht.back.trans hx.2.2
  refine ⟨⟨(hleft.release le_rfl hx.1 hx.2.1).setLive _, fun q hq fd => ?_, fun q => ?_⟩,
    hback.same, fun _ _ strict _ => hback.evolves strict⟩
  · dsimp only at hq ⊢
    by_cases hqp : q = p
    · rw [hqp]
      exact ht.closed fd List.not_mem_nil
    · rw [Function.update_of_ne hqp, ht.live] at hq
      rw [ht.ofile q hqp]
      exact h.dead q hq fd
  · dsimp only
    by_cases hqp : q = p
    · rw [hqp, Function.update_self, Function.update_self]
      rfl
    · rw [Function.update_of_ne hqp, Function.update_of_ne hqp, ht.cwd, ht.live]
      exact h.cwd q

/-! ## One call -/

/-- A call that concerns no inodes. -/
theorem wp_liftFiles_kept {m : FilesM α} (h : SysInv sb lost U 0 0 s)
    (hm : wp m (fun _ y => FInv U 0 y ∧ (∀ q, q ≠ p → y.ofile q = s.files.ofile q) ∧
      y.live = s.files.live) (fun _ _ => False) s.files)
    (hn : wp m (fun _ y => y.node = s.files.node) (fun _ _ => True) s.files) :
    wp (Sys.liftFiles m) (fun _ t => CallKept sb lost U none p s t) FsOnly s :=
  wp_liftFiles.2 ((hm.and hn).mono
    (fun _ _ hy => .of_files h hy.1.1 hy.2 hy.1.2.1 hy.1.2.2) fun _ _ he => he.1.elim)

/-- A call keeps the invariant, whether it fails or not. -/
theorem wp_sysCall (hsb : sb.Wf) (hU : U.Nodup) (h : SysReady sb lost U s) {a : SysCall}
    (ha : a.Enabled s) :
    wp (a.run sb) (fun _ t => Called sb lost U (a.enters sb s) s t) NotFile s := by
  have hlive := ha.1
  obtain ⟨cwd, hcwd⟩ := h.exists_cwd hlive
  -- What is left of a call that neither forks nor exits.
  have hkept : ∀ {α : Type} {m : SysM α} {E : SysPanic → Sys → Prop} {parent : Option ℕ},
      wp m (fun _ t => CallKept sb lost U parent a.proc s t) E s → (∀ e t, E e t → NotFile e t) →
      wp (do
        let _ ← m
        pure PUnit.unit) (fun _ t => Called sb lost U parent s t) NotFile s := fun hm hE => by
    rw [wp_bind]
    exact hm.mono (fun _ t ht => ht.called h hlive) hE
  have hfs : ∀ e t, FsOnly e t → NotFile e t := fun _ _ he => he.notFile
  have hio : ∀ {e₀ : SysPanic}, NotFile e₀ s → ∀ (e : SysPanic) (t : Sys),
      (e = e₀ ∨ ∃ e', e = .fs e') → NotFile e t := fun h₀ e t he => by
    obtain rfl | he := he
    · exact h₀
    · exact FsOnly.notFile (s := t) he
  cases a with
  | openFile p path omode =>
    have hp : s.cwd p = some cwd := hcwd
    rw [SysCall.enters, hp, Option.bind_some]
    exact hkept ((wp_sysOpen_sys hsb hU h.inv hcwd path omode).mono (fun _ _ ht => ht.1)
      fun _ _ he => he) hfs
  | close p fd => exact hkept (wp_sysClose_sys hsb hU h.inv fd) hfs
  | read p fd dst n other =>
    exact hkept (wp_sysRead_sys h.inv) (hio ⟨by simp, by simp⟩)
  | write p fd src n other =>
    exact hkept ((wp_sysWrite_sys hsb h.inv).mono (fun _ _ ht => ht.1) fun _ _ he => he)
      (hio ⟨by simp, by simp⟩)
  | fstat p fd ok => exact hkept (wp_sysFstat_sys h.inv) hfs
  | dup p fd =>
    exact hkept (wp_liftFiles_kept h.inv (wp_sysDup h.inv.files fun _ _ hy ho hl => ⟨hy, ho, hl⟩)
      wp_sysDup_node) hfs
  | pipe p ok₀ ok₁ =>
    exact hkept (wp_liftFiles_kept h.inv
      (wp_sysPipe h.inv.files hU fun _ _ hy ho hl => ⟨hy, ho, hl⟩)
      (wp_sysPipe_node h.inv.files.untyped)) hfs
  | name p op =>
    have hop : ∀ path, op ≠ .creat path := by
      rintro path rfl
      exact ha.2
    have hp : s.cwd p = some cwd := hcwd
    rw [SysCall.enters, hp, Option.bind_some]
    exact hkept (wp_withCwd_kept h.inv hcwd
      (wp_nameOp_kept hsb h.inv.fs (h.inv.cwd_pos le_rfl hcwd) op hop)) hfs
  | chdir p path => exact hkept (wp_sysChdir_sys hsb h.inv hcwd path) hfs
  | exec p path reads =>
    exact hkept (wp_withCwd_kept h.inv hcwd
      (Fs.wp_execInode hsb h.inv.fs (h.inv.cwd_pos le_rfl hcwd) reads)) hfs
  | fork p np => exact (wp_fork_sys h hlive ha.2).mono (fun _ _ ht => ht) hfs
  | exit p => exact (wp_exit_sys hsb hU h hlive).mono (fun _ _ ht => ht) hfs

/-! ## The system -/

/-- No file is in use; the references to inodes are the current directories. -/
structure Sys.Initial (sb : Superblock) (lost : Set ℕ) (s : Sys) : Prop where
  fs : s.fs.WellFormed sb lost
  files : s.files.Initial
  cwd : ∀ p, (s.cwd p).isSome = s.files.live p
  ref : ∀ ip, ((s.fs.inode ip).ref : ℤ) = refs s.cwd ip

/-- The system of all processes; it stops at a panic. -/
def sysSystem (sb : Superblock) (lost : Set ℕ) : System Sys SysCall where
  init := {s | s.Initial sb lost}
  step s a t := a.Enabled s ∧ ∃ r, a.run sb s = .ok r t

theorem SysCall.perform_sound (sb : Superblock) (lost : Set ℕ) (s : Sys) (a : SysCall) (t : Sys)
    (h : a.perform sb s = some t) : (sysSystem sb lost).step s a t := by
  rw [SysCall.perform] at h
  split at h
  swap
  · cases h
  next ha =>
  split at h
  next r t' hrun =>
    cases h
    exact ⟨ha, r, hrun⟩
  next => cases h

theorem Sys.Initial.ready (h : s.Initial sb lost) :
    SysReady sb lost (s.files.freelist : Multiset ℕ) s := by
  have hnode : ∀ f, s.files.node f = none := fun f => File.node_of_ref (h.files.ref f).le
  refine ⟨⟨h.fs, h.files.inv.inv, fun ip => ?_, fun f n hn => ?_, fun f n hn => ?_⟩,
    fun p _ fd => h.files.ofile p fd, h.cwd⟩
  · have hips : refs s.ips ip = 0 := refs_eq_zero fun f hf => by
      rw [Sys.ips, hnode f] at hf
      cases hf
    rw [h.ref, hips, Pi.zero_apply]
    omega
  · rw [hnode f] at hn
    cases hn
  · rw [hnode f] at hn
    cases hn

theorem sysSystem_step (hsb : sb.Wf) (hU : U.Nodup) (h : SysReady sb lost U s) {a : SysCall}
    (hstep : (sysSystem sb lost).step s a t) : Called sb lost U (a.enters sb s) s t := by
  obtain ⟨ha, r, hrun⟩ := hstep
  exact (wp_sysCall hsb hU h ha).of_ok hrun

/-- The files in use that are the inode. -/
def Sys.filesOf (s : Sys) (ip : Fin ninode) : Finset (Fin nfile) :=
  Finset.univ.filter fun f => 0 < (s.files.file f).ref ∧
    ((s.files.file f).type = .inode ∨ (s.files.file f).type = .device) ∧
    (s.files.file f).ip = ip.val

/-- The processes with this current directory. -/
def Sys.procsIn (s : Sys) (ip : Fin ninode) : Finset (Fin nproc) :=
  Finset.univ.filter fun p => s.cwd p = some ip

/-- The reference counts are exact, of inodes and of files. -/
structure Sys.Exact (s : Sys) : Prop where
  inode : ∀ ip, (s.fs.inode ip).ref = (s.filesOf ip).card + (s.procsIn ip).card
  file : ∀ f, (s.files.file f).ref = s.files.slots f
  small : ∀ f, 0 < (s.files.file f).ref →
    (s.files.file f).type = .inode ∨ (s.files.file f).type = .device →
    (s.files.file f).ip < ninode

/-- A file with an inode. -/
theorem File.node_of_type {x : File} (hx : 0 < x.ref) (ht : x.type = .inode ∨ x.type = .device) :
    x.node = some ⟨x.ip, decide (x.type = .device), x.writable⟩ := by
  rw [File.node, if_pos hx]
  obtain ht | ht := ht <;> rw [ht] <;> rfl

theorem File.exists_node {x : File} {n : FileNode} (h : x.node = some n) :
    0 < x.ref ∧ (x.type = .inode ∨ x.type = .device) ∧ x.ip = n.ip := by
  rw [File.node] at h
  split at h
  swap
  · cases h
  next hx =>
  refine ⟨hx, ?_⟩
  cases htype : x.type with
  | none | pipe =>
    rw [htype] at h
    cases h
  | inode | device =>
    rw [htype] at h
    cases h
    simp

theorem SysInv.exact (h : SysInv sb lost U 0 0 s) : s.Exact := by
  have hsmall : ∀ f, 0 < (s.files.file f).ref →
      (s.files.file f).type = .inode ∨ (s.files.file f).type = .device →
      (s.files.file f).ip < ninode := fun f hf ht =>
    h.small f _ (File.node_of_type hf ht)
  refine ⟨fun ip => ?_, fun f => ?_, hsmall⟩
  · have href := h.ref ip
    have hfiles : (Finset.univ.filter fun f => s.ips f = some ip) = s.filesOf ip :=
      Finset.filter_congr fun f _ => by
        refine ⟨fun hf => ?_, fun ⟨hf, ht, hip⟩ => ?_⟩
        · obtain ⟨n, hn, hip⟩ := Option.map_eq_some_iff.1 hf
          obtain ⟨hx, ht, hn'⟩ := File.exists_node hn
          refine ⟨hx, ht, ?_⟩
          rw [← hip, hn']
          exact (Nat.mod_eq_of_lt (h.small f n hn)).symm
        · rw [Sys.ips_eq_some (File.node_of_type hf ht), hip, entryOf_val]
    rw [refs_eq_card, refs_eq_card, hfiles, Pi.zero_apply, add_zero] at href
    exact_mod_cast href
  · have href := h.files.ref f
    rwa [Pi.zero_apply, add_zero] at href

/-- **The reference counts of inodes.** In every run, when no call is in progress; and no call
    drops a reference to a file that is not there, or lacks a current directory. -/
theorem inode_refs_exact (hsb : sb.Wf) {s₀ : Sys} {tr : List (SysCall × Sys)}
    (h₀ : s₀ ∈ (sysSystem sb lost).init) (h : (sysSystem sb lost).Run s₀ tr) :
    System.Throughout (fun s => s.Exact ∧
      ∀ a : SysCall, a.Enabled s → wp (a.run sb) (fun _ t => t.Exact) NotFile s) s₀ tr := by
  have hU : (s₀.files.freelist : Multiset ℕ).Nodup := h₀.files.freelist
  refine h.throughout (Q := SysReady sb lost s₀.files.freelist) h₀.ready
    (fun s a t hs hstep _ => (sysSystem_step hsb hU hs hstep).ready) (fun s hs => ?_)
    (System.along_of_forall (C := fun _ _ => True) (fun _ _ => trivial) s₀ tr)
  exact ⟨hs.inv.exact, fun a ha => (wp_sysCall hsb hU hs ha).mono
    (fun _ _ ht => ht.ready.inv.exact) fun _ _ he => he⟩

/-- With one process, no open files, and no references but for its current directory. -/
theorem mem_init_of_first {fs : Fs} (hw : fs.WellFormed sb lost)
    (href : ∀ ip, ((fs.inode ip).ref : ℤ) = holds (some 0) ip) :
    (⟨fs, freshFiles.files, fun p => if p = 0 then some 0 else none⟩ : Sys) ∈
      (sysSystem sb lost).init where
  fs := hw
  files := freshFiles_mem_init.1
  cwd p := by
    change (if p = 0 then some 0 else none : Option (Fin ninode)).isSome = decide (p = 0)
    by_cases hp : p = 0
    · rw [if_pos hp, decide_eq_true hp]
      rfl
    · rw [if_neg hp, decide_eq_false hp]
      rfl
  ref ip := by
    rw [refs, Finset.sum_eq_single 0]
    · exact href ip
    · intro p _ hp
      exact congrFun (congrArg holds (if_neg hp)) ip
    · exact fun h => absurd (Finset.mem_univ 0) h

/-- The file system with a directory, one process in it, and no open files. -/
def freshSys : Sys where
  fs := tree rootTab
  files := freshFiles.files
  cwd p := if p = 0 then some 0 else none

theorem freshSys_mem_init : freshSys ∈ (sysSystem treeSb ∅).init :=
  mem_init_of_first wellFormed_rootTab fun ip => by
    by_cases hip : ip = 0
    · rw [hip]
      rfl
    · have hz : ((tree rootTab).inode ip).ref = 0 := if_neg hip
      rw [hz]
      exact (holds_of_ne fun h => hip h.symm).symm

/-- A process opens the root and forks; both exit. -/
theorem inode_refs_exact_root : ∃ tr, (sysSystem treeSb ∅).Run freshSys tr ∧
    ((System.last freshSys tr).fs.inode 0).ref = 0 ∧
    System.Throughout (fun s => s.Exact ∧ ∀ a : SysCall, a.Enabled s →
      wp (a.run treeSb) (fun _ t => t.Exact) NotFile s) freshSys tr := by
  obtain ⟨tr, htr, hlast⟩ := System.exists_run (SysCall.perform_sound treeSb ∅) freshSys
    [.openFile 0 (some [47]) 0, .fork 0 1, .exit 0, .close 1 0, .exit 1]
    (fun tr => decide (((System.last freshSys tr).fs.inode 0).ref = 0)) (by decide +kernel)
  exact ⟨tr, htr, of_decide_eq_true hlast, inode_refs_exact wf_treeSb freshSys_mem_init htr⟩

/-! ## Directories -/

/-- The files that can be written are not directories. -/
def Sys.NoDirWritable (sb : Superblock) (s : Sys) : Prop :=
  ∀ f, 0 < (s.files.file f).ref → (s.files.file f).type = .inode →
    (s.files.file f).writable = true →
    (Disk.dinode sb s.fs.disk (s.fs.inode (Sys.entryOf (s.files.file f).ip)).inum).type ≠ Fs.tDir

/-- A step leaves the inodes in use and their types; and a write leaves all directories. -/
structure DirsKept (sb : Superblock) (s : Sys) (a : SysCall) (t : Sys) : Prop where
  same : SameNodes sb s.fs t.fs
  write : ∀ p fd src n other, a = .write p fd src n other → ∀ i < sb.ninodes,
    (Disk.dinode sb s.fs.disk i).type = Fs.tDir →
      Disk.dinode sb t.fs.disk i = Disk.dinode sb s.fs.disk i ∧
      t.fs.content sb i = s.fs.content sb i

theorem SysInv.noDirWritable (h : SysInv sb lost U 0 0 s) : s.NoDirWritable sb :=
  fun f hf ht hw => by
    have hdev : decide ((s.files.file f).type = .device) = false := by
      rw [ht]
      rfl
    have hnode := File.node_of_type hf (.inl ht)
    have htyped := h.typed f _ hnode hdev hw
    exact htyped

theorem sysSystem_dirsKept (hsb : sb.Wf) (hU : U.Nodup) (h : SysReady sb lost U s) {a : SysCall}
    (hstep : (sysSystem sb lost).step s a t) : DirsKept sb s a t := by
  refine ⟨(sysSystem_step hsb hU h hstep).same, ?_⟩
  rintro p fd src n other rfl i hi hdir
  obtain ⟨-, r, hrun⟩ := hstep
  have hwrite : wp ((SysCall.write p fd src n other).run sb) (fun _ t => t.fs = s.fs ∨
      ∃ i, (Disk.dinode sb s.fs.disk i).type ≠ Fs.tDir ∧ Fs.Others sb i s.fs t.fs)
      (fun _ _ => True) s := by
    rw [SysCall.run, wp_bind]
    exact (wp_sysWrite_sys hsb h.inv (p := p)).mono (fun _ _ ht => ht.2) fun _ _ _ => trivial
  obtain hfs | ⟨j, hj, ho⟩ := hwrite.of_ok hrun
  · rw [hfs]
    exact ⟨rfl, rfl⟩
  · have hij : i ≠ j := by
      rintro rfl
      exact hj hdir
    have htype : (Disk.dinode sb s.fs.disk i).type ≠ 0 := by
      rw [hdir]
      decide
    exact ⟨ho.dinode i hi hij, ho.content h.inv.fs.noHoles ⟨hi, htype⟩ hij⟩

/-- **Directories are not written as files.** In every run. -/
theorem directories_not_written (hsb : sb.Wf) {s₀ : Sys} {tr : List (SysCall × Sys)}
    (h₀ : s₀ ∈ (sysSystem sb lost).init) (h : (sysSystem sb lost).Run s₀ tr) :
    System.Throughout (Sys.NoDirWritable sb) s₀ tr ∧ System.Steps (DirsKept sb) s₀ tr := by
  have hU : (s₀.files.freelist : Multiset ℕ).Nodup := h₀.files.freelist
  have hstep : ∀ s a t, SysReady sb lost s₀.files.freelist s → (sysSystem sb lost).step s a t →
      True → SysReady sb lost s₀.files.freelist t :=
    fun s a t hs hstep _ => (sysSystem_step hsb hU hs hstep).ready
  have hall := System.along_of_forall (C := fun _ _ => True) (fun _ _ => trivial) s₀ tr
  exact ⟨h.throughout h₀.ready hstep (fun s hs => hs.inv.noDirWritable) hall,
    h.steps h₀.ready hstep (fun s a t hs ht _ => sysSystem_dirsKept hsb hU hs ht) hall⟩

/-- A process opens the root; a write to it fails. -/
theorem directories_not_written_root : ∃ tr, (sysSystem treeSb ∅).Run freshSys tr ∧
    tr.length = 2 ∧ System.Throughout (Sys.NoDirWritable treeSb) freshSys tr ∧
    System.Steps (DirsKept treeSb) freshSys tr := by
  obtain ⟨tr, htr, hlast⟩ := System.exists_run (SysCall.perform_sound treeSb ∅) freshSys
    [.openFile 0 (some [47]) 0, .write 0 0 (fun _ => some 1) 1 0]
    (fun tr => decide (tr.length = 2)) (by decide +kernel)
  exact ⟨tr, htr, of_decide_eq_true hlast,
    directories_not_written wf_treeSb freshSys_mem_init htr⟩

/-! ## Opening -/

/-- **A failing open.** In every reachable state, a call of `sys_open` that fails has changed
    nothing, unless it may have made an inode, and there was no file or descriptor for it. -/
theorem failed_open_undone (hsb : sb.Wf) {s : Sys} (h : (sysSystem sb lost).Reachable s)
    {p : Fin nproc} (hp : s.files.live p = true) (path : Option (List UInt8)) (omode : ℕ)
    (hroom : omode.testBit 9 = false ∨ ¬s.files.NoRoom p ∨
      ∀ i, 1 ≤ i → i < sb.ninodes → (Disk.dinode sb s.fs.disk i).type ≠ 0) :
    wp (Sys.sysOpen sb p path omode) (fun r t => r = none → t.files = s.files ∧ t.cwd = s.cwd ∧
      ∃ cwd, s.cwd p = some cwd ∧ Fs.SameTree sb
        (path.bind fun path => (s.fs.parentOf sb cwd path).map Prod.fst) s.fs t.fs) FsOnly s := by
  have hinit : ∀ s ∈ (sysSystem sb lost).init, ∃ U : Multiset ℕ, U.Nodup ∧ SysReady sb lost U s :=
    fun s (hs : s.Initial sb lost) => ⟨s.files.freelist, hs.files.freelist, hs.ready⟩
  have hready := h.invariant hinit fun s a t ⟨U, hU, hs⟩ hstep =>
    ⟨U, hU, (sysSystem_step hsb hU hs hstep).ready⟩
  obtain ⟨U, hU, hs⟩ := hready
  obtain ⟨cwd, hcwd⟩ := hs.exists_cwd hp
  refine (wp_sysOpen_sys hsb hU hs.inv hcwd path omode).mono (fun r t ht hr => ?_)
    fun _ _ he => he
  have hfail := ht.2 hr
  refine ⟨hfail.files, hfail.cwd, cwd, hcwd, ?_⟩
  obtain hf | ⟨hbit, hno, i, hpos, hi, hfree⟩ := hfail.fs
  · exact hf.unchanged.sameTree hs.inv.fs hf.refs
  · obtain hroom | hroom | hroom := hroom
    · rw [hbit] at hroom
      cases hroom
    · exact absurd hno hroom
    · exact absurd hfree (hroom i hpos hi)

/-- A directory is not opened for writing. -/
theorem failed_open_undone_root : wp (Sys.sysOpen treeSb 0 (some [47]) 1) (fun r t =>
    r = none → t.files = freshSys.files ∧ t.cwd = freshSys.cwd ∧
      ∃ cwd, freshSys.cwd 0 = some cwd ∧ Fs.SameTree treeSb ((some [47]).bind fun path =>
        (freshSys.fs.parentOf treeSb cwd path).map Prod.fst) freshSys.fs t.fs) FsOnly freshSys :=
  failed_open_undone wf_treeSb (.init freshSys_mem_init) rfl (some [47]) 1 (.inl rfl)

end Xv6
