import Xv6.Fs.Make

/-!
# Using inodes

What the system calls on files do with inodes: `sys_open` finds or makes one, and may truncate it;
`filewrite` and `fileread` write and read its data; `kexec` reads it; `sys_chdir` exchanges the
current directory. All of them keep the file system well formed, and account for their references:
`Refs sb s {ip} t` if they return with a reference to `ip`, and `Refs sb s 0 t` if with none. The
tree on the disk does steps, and only `create` needs room for links.
-/

namespace Xv6

namespace Fs

section

variable (sb : Superblock) (cwd : Fin ninode)

/-- `sys_open` up to the test of the device: the inode, locked. The bit 9 of `omode` is
    `O_CREATE`. -/
def openInode (path : List UInt8) (omode : ℕ) : FsM (Option (Fin ninode)) :=
  if omode.testBit 9 then create sb cwd path tFile 0 0
  else do
    match ← namei sb cwd path with
    | none => pure none
    | some ip => do
      ilock sb ip
      let s ← get
      if (s.inode ip).d.type = tDir ∧ omode ≠ 0 then do
        iunlockput sb ip
        pure none
      else pure (some ip)

/-- Reading an inode that is locked, once for each offset and length. -/
def readAll (ip : Fin ninode) (reads : List (UInt32 × UInt32)) : FsM PUnit :=
  reads.forM fun x => do
    let _ ← readi sb ip (fun _ => true) x.1.toNat x.2.toNat
    pure ⟨⟩

/-- What `kexec` does with the file: whether it is there. Which parts of it are read depends on
    what they contain. -/
def execInode (path : List UInt8) (reads : List (UInt32 × UInt32)) : FsM Bool := do
  match ← namei sb cwd path with
  | none => pure false
  | some ip => do
    ilock sb ip
    readAll sb ip reads
    iunlockput sb ip
    pure true

/-- `sys_chdir`: the new current directory. -/
def chdirInode (path : Option (List UInt8)) : FsM (Option (Fin ninode)) :=
  match path with
  | none => pure none
  | some path => do
    match ← namei sb cwd path with
    | none => pure none
    | some ip => do
      ilock sb ip
      let s ← get
      if (s.inode ip).d.type ≠ tDir then do
        iunlockput sb ip
        pure none
      else do
        iput sb cwd
        pure (some ip)

/-- What `stati` copies. -/
structure Stat where
  ino : ℕ
  type : Int16
  nlink : Int16
  size : ℕ

/-- The part of `filestat` before `copyout`. -/
def statInode (ip : Fin ninode) : FsM Stat := do
  ilock sb ip
  let s ← get
  pure ⟨(s.inode ip).inum, (s.inode ip).d.type, (s.inode ip).d.nlink, (s.inode ip).d.size⟩

/-- The part of `fileread` for an inode: the number of bytes, or `-1`. -/
def readInode (ip : Fin ninode) (dst : ℕ → Bool) (off n : UInt32) : FsM ℤ := do
  ilock sb ip
  let r ← readi sb ip dst off.toNat n.toNat
  pure r.1

end

variable {sb : Superblock} {s t u : Fs} {ip cwd : Fin ninode} {lost : Set ℕ}
  {parent : Option ℕ} {path : List UInt8} {omode : ℕ} {E : FsPanic → Fs → Prop}

/-- The file system is well formed after a call, which has the references `h` then. It enters names
    in `parent` only. -/
structure Kept (sb : Superblock) (lost : Set ℕ) (parent : Option ℕ) (s : Fs)
    (h : Multiset (Fin ninode)) (t : Fs) : Prop where
  wellFormed : t.WellFormed sb lost
  refs : Refs sb s h t
  follows : s.Follows sb parent t

/-- The directory in which `sys_open` may enter a name. -/
def openEnters (sb : Superblock) (s : Fs) (cwd : Fin ninode) (path : List UInt8) (omode : ℕ) :
    Option ℕ :=
  if omode.testBit 9 then (s.parentOf sb cwd path).map Prod.fst else none

/-- `sys_open` has found or made the inode `ip`. -/
structure OpenedInode (sb : Superblock) (lost : Set ℕ) (parent : Option ℕ) (omode : ℕ) (s : Fs)
    (ip : Fin ninode) (t : Fs) : Prop extends Kept sb lost parent s {ip} t where
  cached : t.Cached ip
  notDir : omode ≠ 0 → (t.inode ip).d.type ≠ tDir
  made : t.disk = s.disk ∨ omode.testBit 9 = true ∧ 1 ≤ (t.inode ip).inum ∧
    (t.inode ip).inum < sb.ninodes ∧ (Disk.dinode sb s.disk (t.inode ip).inum).type = 0 ∧
    (t.inode ip).d.type = tFile

/-- A call that has failed has changed nothing, but for blocks added to `parent`. -/
structure Failed (sb : Superblock) (lost : Set ℕ) (parent : Option ℕ) (s t : Fs) : Prop
    extends Kept sb lost none s 0 t where
  unchanged : Unchanged sb parent s t

theorem Kept.refl (hw : s.WellFormed sb lost) : Kept sb lost none s 0 s :=
  ⟨hw, .refl s, .of_nodes rfl⟩

theorem Kept.of_none {h : Multiset (Fin ninode)} (hk : Kept sb lost none s h t) :
    Kept sb lost parent s h t := ⟨hk.wellFormed, hk.refs, hk.follows.of_none⟩

/-- The tree is the same after the second part. -/
theorem Kept.trans_nodes {h : Multiset (Fin ninode)} {parent' : Option ℕ}
    (hk : Kept sb lost parent s h t) (hk' : Kept sb lost parent' t 0 u)
    (hn : u.nodes sb = t.nodes sb) : Kept sb lost parent s h u :=
  ⟨hk'.wellFormed, hk.refs.trans_zero hk'.refs, hk.follows.trans_nodes hn⟩

theorem Holding.kept (hw : s.WellFormed sb lost) (hh : Holding sb lost s 0 t) :
    Kept sb lost none s 0 t :=
  ⟨hh.wellFormed hw fun _ hmem => absurd hmem (Multiset.notMem_zero _), hh.toRefs,
    .of_nodes (nodes_of_disk hh.disk)⟩

theorem Holding.kept_cached (hw : s.WellFormed sb lost) (hh : Holding sb lost s {ip} t)
    (hc : t.Cached ip) : Kept sb lost none s {ip} t :=
  ⟨hh.wellFormed_of_cached hw fun _ hjp => Multiset.mem_singleton.1 hjp ▸ hc, hh.toRefs,
    .of_nodes (nodes_of_disk hh.disk)⟩

theorem Holding.failed (hw : s.WellFormed sb lost) (hh : Holding sb lost s 0 t) :
    Failed sb lost parent s t := ⟨hh.kept hw, .of_disk hh.disk⟩

/-- A reference is given back. -/
theorem wp_iput_kept (hsb : sb.Wf) (hk : Kept sb lost parent s {ip} t) {Q : PUnit → Fs → Prop}
    (hQ : ∀ u, Kept sb lost parent s 0 u → Q ⟨⟩ u) : wp (iput sb ip) Q E t := by
  have hr : Refs sb s (ip ::ₘ 0) t := hk.refs
  exact wp_iput_put hsb hk.wellFormed hr.ref_pos fun u hu hrel hput =>
    hQ u ⟨hu, hrel.refs hr, hk.follows.trans_put hput⟩

/-! ## Opening -/

theorem wp_openInode (hsb : sb.Wf) (hw : s.WellFormed sb lost) (hcwd : 0 < (s.inode cwd).ref) :
    wp (openInode sb cwd path omode) (fun r t =>
      (r = none → Failed sb lost ((s.parentOf sb cwd path).map Prod.fst) s t) ∧
      ∀ ip, r = some ip → OpenedInode sb lost (s.openEnters sb cwd path omode) omode s ip t)
      (fun _ _ => True) s := by
  have hnone : ∀ {t : Fs}, Holding sb lost s 0 t →
      ((none : Option (Fin ninode)) = none →
        Failed sb lost ((s.parentOf sb cwd path).map Prod.fst) s t) ∧
      ∀ ip, none = some ip → OpenedInode sb lost (s.openEnters sb cwd path omode) omode s ip t :=
    fun ht => ⟨fun _ => ht.failed hw, fun ip h => by cases h⟩
  rw [openInode]
  split
  next hbit =>
    refine (wp_create hsb hw hcwd (by decide)).mono (fun r t hc => ⟨fun hr => ?_, fun ip hr => ?_⟩)
      fun _ _ h => h
    · subst hr
      have hun := hc.fails rfl
      exact ⟨⟨hc.wellFormed, hc.refs, .of_nodes (hun.nodes_eq hw.noHoles)⟩, hun⟩
    · subst hr
      have hfollows : s.Follows sb (s.openEnters sb cwd path omode) t := by
        rw [openEnters, if_pos hbit]
        exact hc.follows
      have hcached := hc.cached ip rfl
      have hcopy := (hc.wellFormed.ok.loaded hcached).copy
      refine ⟨⟨hc.wellFormed, hc.refs, hfollows⟩, hcached, fun _ => ?_, ?_⟩
      · obtain ⟨-, -, htype | htype⟩ | ⟨-, -, -, htype⟩ := hc.made ip rfl
        · rw [htype]
          decide
        · rw [htype]
          decide
        · rw [hcopy, htype]
          decide
      · obtain ⟨hd, -⟩ | ⟨hpos, hlt, hfree, htype⟩ := hc.made ip rfl
        · exact .inl hd
        · exact .inr ⟨hbit, hpos, hlt, hfree, hcopy ▸ htype⟩
  next =>
    rw [wp_bind]
    refine wp_namei hsb hw hcwd (fun t _ ht => hnone ht) (fun ip t _ ht => ?_)
      (fun _ _ _ => trivial) fun _ _ => trivial
    dsimp only
    rw [wp_bind]
    refine wp_ilock_holding ht (fun u hu hcu _ _ _ => ?_) fun _ _ _ => trivial
    rw [wp_bind, wp_get]
    split
    · rw [iunlockput, wp_bind]
      exact wp_iput_holding hsb hw hu fun v hv _ => hnone hv
    next hdir =>
      refine ⟨fun h => (Option.some_ne_none ip h).elim, fun jp h => ?_⟩
      cases h
      exact ⟨(hu.kept_cached hw hcu).of_none, hcu, fun hmode htype => hdir ⟨htype, hmode⟩,
        .inl hu.disk⟩

/-- `sys_open` fails later on: an inode that was there is as before. -/
theorem OpenedInode.wp_put (hsb : sb.Wf) (hw : s.WellFormed sb lost)
    (ho : OpenedInode sb lost parent omode s ip t) {Q : PUnit → Fs → Prop}
    (hQ : ∀ u, Kept sb lost parent s 0 u → (t.disk = s.disk → u.disk = s.disk) → Q ⟨⟩ u) :
    wp (iunlockput sb ip) Q E t := by
  rw [iunlockput]
  by_cases hd : t.disk = s.disk
  · have hh : Holding sb lost s (ip ::ₘ 0) t := ⟨ho.refs, ho.wellFormed.ok, hd⟩
    exact wp_iput_holding hsb hw hh fun u hu _ => hQ u (hu.kept hw).of_none fun _ => hu.disk
  · exact wp_iput_kept hsb ho.toKept fun u hu => hQ u hu fun h => absurd h hd

/-- Truncating an inode that is no directory. -/
theorem wp_itrunc_kept (hsb : sb.Wf) (hw : s.WellFormed sb lost) (hc : s.Cached ip)
    (htype : (s.inode ip).d.type ≠ tDir) {Q : PUnit → Fs → Prop}
    (hQ : ∀ t, Kept sb lost none s 0 t → t.nodes sb = s.nodes sb → Q ⟨⟩ t) :
    wp (itrunc sb ip) Q E s := by
  have hl := hw.ok.loaded hc
  refine (wp_itrunc_ok hsb hw.ok hc).mono (fun _ t ht => ?_) fun _ _ he => he
  have hct : t.Cached ip := by
    rw [Cached, ht.inode.self]
    exact hc
  have hd : Disk.dinode sb t.disk (s.inode ip).inum = (s.inode ip).d.emptied := by
    rw [← ht.inode.inum, ← ht.ok.table.copy ip hct.1 hct.2, ht.inode.self]
  have htyped : (Disk.dinode sb t.disk (s.inode ip).inum).type = (s.inode ip).d.type := by
    rw [hd]
    rfl
  have hrefs : Refs sb s 0 t := ht.inode.refs hw.ok ht.others (by rw [htyped, hl.copy])
  have hnodes : t.nodes sb = s.nodes sb := by
    refine ht.others.nodes_eq hw.noHoles (hl.copy ▸ htype) (by rw [htyped, hl.copy]) ?_
    rw [hd, ← hl.copy]
    rfl
  refine hQ t ⟨hw.update ht.ok (ht.noHoles hw.noHoles hc) hc ht.others hrefs ?_ fun h => ?_, hrefs,
    .of_nodes hnodes⟩ hnodes
  · rw [htyped]
    exact hl.type
  · rw [htyped] at h
    exact absurd h htype

/-! ## Reading and writing -/

theorem wp_ilock_kept (hw : s.WellFormed sb lost) {Q : PUnit → Fs → Prop}
    (hQ : ∀ t, Kept sb lost none s 0 t → t.Cached ip → t.disk = s.disk →
      (t.inode ip).inum = (s.inode ip).inum → Q ⟨⟩ t)
    (hE : ∀ e t, E e t) : wp (ilock sb ip) Q E s :=
  wp_ilock_holding (Holding.refl hw.ok)
    (fun t ht hc _ hslot _ => hQ t (ht.kept hw) hc ht.disk (hslot ip).2) fun _ => hE

/-- Reading changes nothing, as there are no holes. -/
theorem wp_readAll (hw : s.WellFormed sb lost) (hc : s.Cached ip)
    (reads : List (UInt32 × UInt32)) : wp (readAll sb ip reads) (fun _ t => t = s) E s := by
  refine (wp_forM (fun _ t => t = s) rfl fun x _ t _ ht => ?_).mono (fun _ t ht => ht)
    fun _ _ h => h
  subst ht
  obtain ⟨r, hr⟩ := readi_eq (hw.noHoles.full_of_loaded (hw.ok.loaded hc)) (fun _ => true) x.1 x.2
  rw [wp_bind, wp, hr]
  exact rfl

theorem wp_readInode (hw : s.WellFormed sb lost) (dst : ℕ → Bool) (off n : UInt32) :
    wp (readInode sb ip dst off n) (fun _ t => Kept sb lost none s 0 t) (fun _ _ => True) s := by
  rw [readInode, wp_bind]
  refine wp_ilock_kept hw (fun t ht hc _ _ => ?_) fun _ _ => trivial
  obtain ⟨r, hr⟩ := readi_eq (ht.wellFormed.noHoles.full_of_loaded (ht.wellFormed.ok.loaded hc))
    dst off n
  rw [wp_bind, wp, hr]
  exact ht

theorem wp_statInode (hw : s.WellFormed sb lost) :
    wp (statInode sb ip) (fun _ t => Kept sb lost none s 0 t) (fun _ _ => True) s := by
  rw [statInode, wp_bind]
  exact wp_ilock_kept hw (fun t ht _ _ _ => ht) fun _ _ => trivial

theorem wp_execInode (hsb : sb.Wf) (hw : s.WellFormed sb lost) (hcwd : 0 < (s.inode cwd).ref)
    (reads : List (UInt32 × UInt32)) :
    wp (execInode sb cwd path reads) (fun _ t => Kept sb lost none s 0 t) (fun _ _ => True) s := by
  rw [execInode, wp_bind]
  refine wp_namei hsb hw hcwd (fun t _ ht => ht.kept hw) (fun ip t _ ht => ?_)
    (fun _ _ _ => trivial) fun _ _ => trivial
  dsimp only
  rw [wp_bind]
  refine wp_ilock_holding ht (fun u hu hcu _ _ _ => ?_) fun _ _ _ => trivial
  have hk := hu.kept_cached hw hcu
  rw [wp_bind]
  refine (wp_readAll hk.wellFormed hcu reads).mono (fun _ v hv => ?_) fun _ _ h => h
  rw [hv, iunlockput, wp_bind]
  exact wp_iput_kept hsb hk fun w hw => hw

/-- A reference to an inode that is referenced is taken. -/
theorem wp_idup_kept (hw : s.WellFormed sb lost) (hip : 0 < (s.inode ip).ref)
    {Q : Fin ninode → Fs → Prop} (hQ : ∀ t, Kept sb lost none s {ip} t → Q ip t) :
    wp (idup ip) Q E s := by
  rw [idup, wp_bind]
  refine wp_setInode fun t hdisk _ _ hself hframe => ?_
  have hg : Got (s.inode ip).inum s ip t := ⟨hdisk, hframe, .inl ⟨hip, rfl, hself⟩⟩
  have hh := (Holding.refl hw.ok).get (hw.ok.table.inum ip hip) hg
  refine hQ t ⟨hh.wellFormed hw fun jp hjp => ?_, hh.toRefs, .of_nodes (nodes_of_disk hdisk)⟩
  rw [Multiset.mem_singleton.1 hjp, hdisk, hg.inum_eq]
  exact hw.held ip hip

/-- The current directory is exchanged, or nothing has changed. -/
theorem wp_chdirInode (hsb : sb.Wf) (hw : s.WellFormed sb lost) (hcwd : 0 < (s.inode cwd).ref)
    (path : Option (List UInt8)) :
    wp (chdirInode sb cwd path) (fun r t => (r = none → Kept sb lost none s 0 t) ∧
      ∀ ip, r = some ip → t.WellFormed sb lost ∧ ∃ u, Kept sb lost none s {ip} u ∧
        Released sb cwd u t ∧ u.Put sb (u.inode cwd).inum t) (fun _ _ => True) s := by
  have hnone : ∀ {t : Fs}, Kept sb lost none s 0 t →
      ((none : Option (Fin ninode)) = none → Kept sb lost none s 0 t) ∧ ∀ ip, none = some ip →
        t.WellFormed sb lost ∧ ∃ u, Kept sb lost none s {ip} u ∧ Released sb cwd u t ∧
          u.Put sb (u.inode cwd).inum t :=
    fun ht => ⟨fun _ => ht, fun ip h => by cases h⟩
  cases path with
  | none => exact hnone (.refl hw)
  | some path =>
  rw [chdirInode, wp_bind]
  refine wp_namei hsb hw hcwd (fun t _ ht => hnone (ht.kept hw)) (fun ip t _ ht => ?_)
    (fun _ _ _ => trivial) fun _ _ => trivial
  dsimp only
  rw [wp_bind]
  refine wp_ilock_holding ht (fun u hu hcu _ _ _ => ?_) fun _ _ _ => trivial
  have hk := hu.kept_cached hw hcu
  rw [wp_bind, wp_get]
  split
  · rw [iunlockput, wp_bind]
    exact wp_iput_kept hsb hk fun v hv => hnone hv
  · have href : 0 < (u.inode cwd).ref := by
      rw [hk.refs.ref]
      exact Nat.add_pos_left hcwd _
    rw [wp_bind]
    refine wp_iput_put hsb hk.wellFormed href fun v hv hrel hput => ?_
    refine ⟨fun h => (Option.some_ne_none ip h).elim, fun jp h => ?_⟩
    cases h
    exact ⟨hv, u, hk, hrel, hput⟩

/-- Data was written to an inode that is no directory. -/
theorem Stored.kept {src : ℕ → Option UInt8} {off n tot : ℕ} (hw : s.WellFormed sb lost)
    (hc : s.Cached ip) (htype : (s.inode ip).d.type ≠ tDir) (hoff : off ≤ (s.inode ip).d.size)
    (hs : Stored sb lost ip src off n s tot t) :
    Kept sb lost none s 0 t ∧ t.nodes sb = s.nodes sb := by
  have hwr := hs.written
  have hl := hw.ok.loaded hc
  have hct : t.Cached ip := by
    rw [Cached, hwr.inode.self]
    exact hc
  have htyped : (Disk.dinode sb t.disk (s.inode ip).inum).type = (s.inode ip).d.type := by
    rw [← hwr.inode.inum, ← hwr.ok.table.copy ip hct.1 hct.2, hwr.inode.self]
  have hrefs : Refs sb s 0 t := hwr.inode.refs hw.ok hwr.others (by rw [htyped, hl.copy])
  have hnodes : t.nodes sb = s.nodes sb := by
    refine hwr.others.nodes_eq hw.noHoles (hl.copy ▸ htype) (by rw [htyped, hl.copy]) ?_
    rw [← hwr.inode.inum, ← hwr.ok.table.copy ip hct.1 hct.2, hwr.inode.self, hl.copy]
  refine ⟨⟨hw.update hwr.ok (hs.noHoles hw.noHoles hw.ok hc hoff) hc hwr.others hrefs ?_
    fun h => ?_, hrefs, .of_nodes hnodes⟩, hnodes⟩
  · rw [htyped]
    exact hl.type
  · rw [htyped] at h
    exact absurd h htype

/-- `filewrite` writes to its inode only. -/
theorem wp_filewriteLoop_kept (hsb : sb.Wf) {src : ℕ → Option UInt8} {fuel i off : ℕ} {n : ℤ}
    (hn : n < 2 ^ 31) (hoff : off < 2 ^ 32) (hw : s.WellFormed sb lost)
    (href : 0 < (s.inode ip).ref)
    (htype : (Disk.dinode sb s.disk (s.inode ip).inum).type ≠ tDir) :
    wp (filewriteLoop sb ip src n fuel i off) (fun _ t => Kept sb lost none s 0 t ∧
      Others sb (s.inode ip).inum s t ∧ t.nodes sb = s.nodes sb) (fun _ _ => True) s := by
  induction fuel generalizing i off s with
  | zero => exact ⟨.refl hw, .of_disk rfl, rfl⟩
  | succ fuel ih =>
    unfold filewriteLoop
    split
    swap
    · exact ⟨.refl hw, .of_disk rfl, rfl⟩
    next hlt =>
    generalize hn₁ : (if n - i > chunk then chunk else (n - i).toNat) = n₁
    have hsmall : n₁ < 2 ^ 32 := by
      rw [← hn₁]
      split
      · decide
      · omega
    dsimp only
    rw [wp_bind]
    refine wp_ilock_kept hw (fun t ht hc hdisk hinum => ?_) fun _ _ => trivial
    have hothers : Others sb (s.inode ip).inum s t := .of_disk hdisk
    have hcopy := (ht.wellFormed.ok.loaded hc).copy
    have htyped : (t.inode ip).d.type ≠ tDir := by
      rw [hcopy, hinum, hdisk]
      exact htype
    have hgo : ∀ (u : Fs) (r : ℤ), Kept sb lost none t 0 u ∧ u.nodes sb = t.nodes sb →
        Others sb (t.inode ip).inum t u → ∀ off' : ℕ, off' < 2 ^ 32 →
        wp (if r ≠ n₁ then pure (i, off') else
          filewriteLoop sb ip src n fuel (i + r.toNat) off') (fun _ v => Kept sb lost none s 0 v ∧
            Others sb (s.inode ip).inum s v ∧ v.nodes sb = s.nodes sb) (fun _ _ => True) u := by
      intro u r hu ho off' hoff'
      have hsu := ht.trans_nodes hu.1 hu.2
      have hnu := hu.2.trans (nodes_of_disk hdisk)
      rw [hinum] at ho
      have hso := hothers.trans ho
      split
      · exact ⟨hsu, hso, hnu⟩
      · have hiu : (u.inode ip).inum = (s.inode ip).inum := hsu.refs.inum ip href
        refine (ih hoff' hsu.wellFormed ?_ ?_).mono (fun _ v hv => ?_) fun _ _ h => h
        · rw [hsu.refs.ref_eq]
          exact href
        · rw [hiu, hsu.refs.type ip href]
          exact htype
        · rw [hiu] at hv
          exact ⟨hsu.trans_nodes hv.1 hv.2.2, hso.trans hv.2.1, hv.2.2.trans hnu⟩
    have hmod : ∀ r : ℤ, (if 0 < r then (off + r.toNat) % 2 ^ 32 else off) < 2 ^ 32 := fun r => by
      split
      · exact Nat.mod_lt _ (by decide)
      · exact hoff
    rw [wp_bind]
    refine wp_writei hsb ht.wellFormed.ok hc hoff hsmall (fun _ => ?_) fun ha r u hu => ?_
    · exact hgo t _ ⟨.refl ht.wellFormed, rfl⟩ (.of_disk rfl) _ (hmod _)
    · exact hgo u _ (hu.kept ht.wellFormed hc htyped ha.1) hu.written.others _ (hmod _)

end Fs

end Xv6
