import Xv6.File.Failure

/-!
# The inodes of files

A file in use of the type `FD_INODE` or `FD_DEVICE` has a reference to an inode (`File.node`). Two
functions only change which inodes the files have: `sys_open`, for the file that it has made, and
`fileclose`, when it drops the last reference to a file; it then returns the inode, which its
caller puts.

The files whose node is told here are those of any table in which the free files have no type, as
they have in all reachable tables (`freeUntyped_of_reachable`).
-/

namespace Xv6

/-- The inode of a file: its entry in the inode table, and what may be done with it. -/
structure FileNode where
  ip : ℕ
  device : Bool
  writable : Bool
  deriving DecidableEq

/-- The inode to which a file has a reference. -/
def File.node (x : File) : Option FileNode :=
  if 0 < x.ref then
    match x.type with
    | .inode => some ⟨x.ip, false, x.writable⟩
    | .device => some ⟨x.ip, true, x.writable⟩
    | .none | .pipe => none
  else none

/-- The inodes of all files. -/
def Files.node (s : Files) (f : Fin nfile) : Option FileNode := (s.file f).node

/-- A reference to `f` was dropped: `r` is the inode that is to be put. -/
def DropsFile (f : Fin nfile) (s : Files) (r : Option ℕ) (t : Files) : Prop :=
  r = none ∧ t.node = s.node ∨
    ∃ n, s.node f = some n ∧ r = some n.ip ∧ t.node = Function.update s.node f none

variable {s t : Files} {f g : Fin nfile} {p np : Fin nproc} {fd : Fin nofile} {x : File}
  {omode : ℕ} {node : OpenNode}

theorem File.node_of_ref (h : x.ref ≤ 0) : x.node = none := if_neg (not_lt.2 h)

theorem File.node_none (h : x.type = .none) : x.node = none := by
  rw [File.node, h]
  split <;> rfl

theorem File.node_pipe (h : x.type = .pipe) : x.node = none := by
  rw [File.node, h]
  split <;> rfl

/-- The number of references does not matter, as long as there is one. -/
theorem File.node_setRef {r : ℤ} (hx : 0 < x.ref) (hr : 0 < r) :
    ({ x with ref := r } : File).node = x.node := by
  rw [File.node, File.node, if_pos hx, if_pos hr]

theorem Files.node_update (s : Files) (f : Fin nfile) (x : File) :
    ({ s with file := Function.update s.file f x } : Files).node =
      Function.update s.node f x.node := by
  funext g
  by_cases hg : g = f
  · subst hg
    simp only [Files.node, Function.update_self]
  · simp only [Files.node, Function.update_of_ne hg]

/-- A file changes, and its inode does not. -/
theorem Files.node_same (h : x.node = s.node f) :
    ({ s with file := Function.update s.file f x } : Files).node = s.node := by
  rw [Files.node_update, h, Function.update_eq_self]

/-- A free file is taken. -/
theorem Files.node_take (hs : s.FreeUntyped) (hf : (s.file f).ref = 0) :
    (s.take f).node = s.node :=
  Files.node_same ((File.node_none (x := { s.file f with ref := 1 }) (hs f hf)).trans
    (File.node_of_ref hf.le).symm)

theorem Files.FreeUntyped.take (hs : s.FreeUntyped) : (s.take f).FreeUntyped := fun g hg => by
  by_cases hgf : g = f
  · rw [hgf, Files.take_file_self] at hg
    cases hg
  · rw [Files.take_file_of_ne s hgf] at hg ⊢
    exact hs g hg

theorem Files.node_setFd (o : Option (Fin nfile)) : (s.setFd p fd o).node = s.node := rfl

/-! ## References to files -/

theorem wp_filedup_node : wp (filedup f) (fun _ t => t.node = s.node) (fun _ _ => True) s := by
  rw [filedup, wp_bind, wp_get]
  split
  · trivial
  next href =>
    rw [wp_bind, setFile, wp_modify, wp_pure]
    exact Files.node_same (File.node_setRef (by omega) (by omega))

theorem wp_pipeclose_node {pi : ℕ} {w : Bool} :
    wp (pipeclose pi w) (fun _ t => t.node = s.node) (fun _ _ => True) s := by
  rw [pipeclose, wp_bind, wp_modify, wp_bind, wp_get]
  generalize hu : ({ s with pipe := _ } : Files) = u
  have hfile : u.node = s.node := by
    rw [← hu]
    rfl
  split
  next => exact hfile
  next => exact hfile

theorem wp_fileclose_node : wp (fileclose f) (DropsFile f s) (fun _ _ => True) s := by
  rw [fileclose, wp_bind, wp_get]
  split
  · trivial
  next href =>
  rw [wp_bind, setFile, wp_modify]
  split
  next hpos => exact .inl ⟨rfl, Files.node_same (File.node_setRef (by omega) hpos)⟩
  next hlast =>
  have hone : (s.file f).ref = 1 := by omega
  rw [wp_bind, setFile, wp_modify]
  simp only [Function.update_self, Function.update_idem]
  have hnode : ({ s with
      file := Function.update s.file f { s.file f with ref := 0, type := .none } } : Files).node =
      Function.update s.node f none := by
    rw [Files.node_update, File.node_none rfl]
  have hsame : s.node f = none → Function.update s.node f none = s.node := fun h => by
    rw [← h, Function.update_eq_self]
  have hinode : ∀ b : Bool, s.node f = some ⟨(s.file f).ip, b, (s.file f).writable⟩ →
      DropsFile f s (some (s.file f).ip) { s with
        file := Function.update s.file f { s.file f with ref := 0, type := .none } } :=
    fun b h => .inr ⟨_, h, rfl, hnode⟩
  have hfile : 0 < (s.file f).ref := by omega
  cases htype : (s.file f).type with
  | none => exact .inl ⟨rfl, hnode.trans (hsame (File.node_none htype))⟩
  | pipe =>
    dsimp only
    rw [wp_bind]
    refine wp_pipeclose_node.mono (fun _ t ht => ?_) fun _ _ h => h
    exact .inl ⟨rfl, ht.trans (hnode.trans (hsame (File.node_pipe htype)))⟩
  | inode =>
    refine hinode false ?_
    rw [Files.node, File.node, if_pos hfile, htype]
  | device =>
    refine hinode true ?_
    rw [Files.node, File.node, if_pos hfile, htype]

/-- A file without an inode is closed. -/
theorem DropsFile.same {r : Option ℕ} (h : DropsFile f s r t) (hf : s.node f = none) :
    r = none ∧ t.node = s.node := by
  obtain h | ⟨n, hn, -⟩ := h
  · exact h
  · rw [hf] at hn
    cases hn

/-! ## System calls -/

theorem wp_sysDup_node {n : ℤ} :
    wp (sysDup p n) (fun _ t => t.node = s.node) (fun _ _ => True) s := by
  rw [sysDup, wp_bind, wp_get]
  split
  · exact rfl
  next f _ =>
    rw [wp_bind]
    refine wp_fdalloc_setFd rfl fun fd _ => ?_
    dsimp only
    rw [wp_bind]
    exact wp_filedup_node

/-- Two files without an inode are closed. -/
theorem wp_closeBoth_node {α : Type} {a : α} (hf : s.node f = none) (hg : s.node g = none) :
    wp (do
      let _ ← fileclose f
      let _ ← fileclose g
      pure a) (fun r t => r = a ∧ t.node = s.node) (fun _ _ => True) s := by
  rw [wp_bind]
  refine wp_fileclose_node.mono (fun r t ht => ?_) fun _ _ h => h
  have htn := (ht.same hf).2
  rw [wp_bind]
  refine wp_fileclose_node.mono (fun r u hu => ?_) fun _ _ h => h
  exact ⟨rfl, (hu.same (by rw [htn, hg])).2.trans htn⟩

/-- A file without an inode becomes the end of a pipe. -/
theorem wp_setFile_pipe {h : File → File} {E : FilePanic → Files → Prop} (hf : s.node f = none)
    (hh : ∀ x, (h x).type = .pipe) : wp (setFile f h) (fun _ t => t.node = s.node) E s := by
  rw [setFile, wp_modify]
  exact Files.node_same ((File.node_pipe (hh _)).trans hf.symm)

/-- The two files of a new pipe have no inodes. -/
theorem wp_pipealloc_node (hs : s.FreeUntyped) :
    wp pipealloc (fun r t => t.node = s.node ∧
      ∀ f₀ f₁, r = some (f₀, f₁) → s.node f₀ = none ∧ s.node f₁ = none) (fun _ _ => True) s := by
  have hnone : ∀ {u : Files}, u.node = s.node → u.node = s.node ∧ ∀ f₀ f₁,
      (none : Option (Fin nfile × Fin nfile)) = some (f₀, f₁) →
        s.node f₀ = none ∧ s.node f₁ = none := fun h => ⟨h, fun _ _ hr => by cases hr⟩
  rw [pipealloc, wp_bind]
  refine wp_filealloc_take (hnone rfl) fun f₀ h₀ => ?_
  have hn₀ := Files.node_take hs h₀
  have hfree₀ : s.node f₀ = none := File.node_of_ref h₀.le
  dsimp only
  rw [wp_bind]
  refine wp_filealloc_take ?_ fun f₁ h₁ => ?_
  · dsimp only
    rw [wp_bind]
    refine wp_fileclose_node.mono (fun r t ht => ?_) fun _ _ h => h
    exact hnone ((ht.same (by rw [hn₀, hfree₀])).2.trans hn₀)
  have hn₁ := (Files.node_take hs.take h₁).trans hn₀
  have hfree₁ : s.node f₁ = none := by
    rw [← hn₀]
    exact File.node_of_ref h₁.le
  dsimp only
  rw [wp_bind, wp_get]
  split
  · refine (wp_closeBoth_node (by rw [hn₁, hfree₀]) (by rw [hn₁, hfree₁])).mono (fun r t ht => ?_)
      fun _ _ h => h
    rw [ht.1]
    exact hnone (ht.2.trans hn₁)
  next pi l _ =>
    rw [wp_bind, wp_set, wp_bind]
    refine (wp_setFile_pipe (hn₁ ▸ hfree₀) fun _ => rfl).mono (fun _ t ht => ?_) fun _ _ h => h
    have ht' : t.node = s.node := ht.trans hn₁
    rw [wp_bind]
    refine (wp_setFile_pipe (ht' ▸ hfree₁) fun _ => rfl).mono (fun _ u hu => ?_) fun _ _ h => h
    refine ⟨hu.trans ht', fun g₀ g₁ hr => ?_⟩
    obtain ⟨rfl, rfl⟩ := Prod.mk.inj (Option.some.inj hr)
    exact ⟨hfree₀, hfree₁⟩

theorem wp_sysPipe_node {ok₀ ok₁ : Bool} (hs : s.FreeUntyped) :
    wp (sysPipe p ok₀ ok₁) (fun _ t => t.node = s.node) (fun _ _ => True) s := by
  rw [sysPipe, wp_bind]
  refine (wp_pipealloc_node hs).mono (fun r t ht => ?_) fun _ _ h => h
  obtain ⟨htn, hpipe⟩ := ht
  split
  · exact htn
  next rf wf =>
  obtain ⟨hrf, hwf⟩ := hpipe rf wf rfl
  rw [← htn] at hrf hwf
  -- The descriptors do not matter.
  have hclose : ∀ u : Files, u.node = t.node → wp (do
      let _ ← fileclose rf
      let _ ← fileclose wf
      pure (none : Option (Fin nofile × Fin nofile))) (fun _ v => v.node = s.node)
      (fun _ _ => True) u := fun u hu =>
    (wp_closeBoth_node (by rw [hu, hrf]) (by rw [hu, hwf])).mono
      (fun _ _ hv => hv.2.trans (hu.trans htn)) fun _ _ h => h
  rw [wp_bind]
  refine wp_fdalloc_setFd (hclose t rfl) fun fd₀ _ => ?_
  dsimp only
  rw [wp_bind]
  refine wp_fdalloc_setFd ?_ fun fd₁ _ => ?_
  · dsimp only
    rw [wp_bind, wp_setOfile]
    exact hclose _ rfl
  dsimp only
  split
  · rw [wp_bind, wp_setOfile, wp_bind, wp_setOfile]
    exact hclose _ rfl
  · exact htn

theorem File.free_eq (href : x.ref = 0) (htype : x.type = .none) :
    ({ x with ref := 0, type := .none } : File) = x := by
  rw [← href, ← htype]

/-- No file, or no descriptor of the process, is free. -/
def Files.NoRoom (s : Files) (p : Fin nproc) : Prop :=
  (∀ f, (s.file f).ref ≠ 0) ∨ ∀ fd, s.ofile p fd ≠ none

/-- A file was opened for the inode of `node`: it is a new file. -/
def Opened (node : OpenNode) (omode : ℕ) (s t : Files) : Prop :=
  ∃ f, s.node f = none ∧ t.node = Function.update s.node f
    (some ⟨node.ip, node.major.isSome, omode.testBit 0 || omode.testBit 1⟩)

/-- `sys_open` opens a file for the inode, or there is no room and nothing changes. -/
theorem wp_sysOpen_node (hs : s.FreeUntyped) :
    wp (sysOpen p (some node) omode) (fun r t => (r = none → t = s ∧ s.NoRoom p) ∧
      (r.isSome = true → Opened node omode s t)) (fun _ _ => True) s := by
  have hnone : s.NoRoom p → ((none : Option (Fin nofile)) = none → s = s ∧ s.NoRoom p) ∧
      ((none : Option (Fin nofile)).isSome = true → Opened node omode s s) :=
    fun h => ⟨fun _ => ⟨rfl, h⟩, fun h => Bool.noConfusion h⟩
  rw [sysOpen, wp_bind, filealloc, wp_bind, wp_get]
  split
  swap
  -- No file is free.
  next hfind =>
    refine hnone (.inl fun f hf => ?_)
    exact List.find?_eq_none.1 hfind f (List.mem_finRange f) (decide_eq_true hf)
  next f hfind =>
  have hp := List.find?_some hfind
  have hf : (s.file f).ref = 0 := of_decide_eq_true hp
  rw [wp_bind, setFile, wp_modify, wp_pure]
  change wp _ _ _ (s.take f)
  dsimp only
  rw [wp_bind, fdalloc, wp_bind, wp_get]
  split
  swap
  -- No descriptor is free: the file is closed again, and is as before.
  next hfd =>
    rw [wp_pure]
    dsimp only
    rw [wp_bind]
    have htake := s.take_file_self f
    refine wp_fileclose_untyped (by rw [htake]) (by rw [htake]; exact hs f hf) ?_
    rw [wp_pure]
    rw [htake, Files.take]
    dsimp only
    rw [Function.update_idem, File.free_eq hf (hs f hf), Function.update_eq_self]
    exact hnone (.inr fun fd h => List.find?_eq_none.1 hfd fd (List.mem_finRange fd)
      (decide_eq_true h))
  next fd hfd =>
  rw [wp_bind, wp_setOfile, wp_pure]
  dsimp only
  have hset : ∀ (g : File → File) (t : Files), t.node = Function.update s.node f (t.node f) →
      wp (setFile f g) (fun _ u => u.file f = g (t.file f) ∧
        u.node = Function.update s.node f (u.node f)) (fun _ _ => True) t := fun g t ht => by
    rw [setFile, wp_modify]
    refine ⟨Function.update_self .., ?_⟩
    rw [Files.node_update, ht, Function.update_idem, Function.update_self]
  have hstart : ((s.take f).setFd p fd (some f)).node =
      Function.update s.node f (((s.take f).setFd p fd (some f)).node f) := by
    rw [Files.node_setFd, Files.node_take hs hf, Function.update_eq_self]
  have hone : (((s.take f).setFd p fd (some f)).file f).ref = 1 := by
    change ((s.take f).file f).ref = 1
    rw [Files.take_file_self]
  rw [wp_bind]
  -- The fields of the file `f` are set, and no other file is.
  refine wp.mono (Q := fun _ t => ((t.file f).ref = 1 ∧ (t.file f).type =
    if node.major.isSome then .device else .inode) ∧
      t.node = Function.update s.node f (t.node f)) (E := fun _ _ => True) ?_ (fun _ t ht => ?_)
      fun _ _ h => h
  · split
    next major hmajor =>
      refine (hset _ _ hstart).mono (fun _ t ht => ?_) fun _ _ h => h
      rw [hmajor, ht.1]
      exact ⟨⟨hone, rfl⟩, ht.2⟩
    next hmajor =>
      refine (hset _ _ hstart).mono (fun _ t ht => ?_) fun _ _ h => h
      rw [hmajor, ht.1]
      exact ⟨⟨hone, rfl⟩, ht.2⟩
  obtain ⟨⟨href, htype⟩, htn⟩ := ht
  rw [wp_bind]
  refine (hset _ _ htn).mono (fun _ u hu => ?_) fun _ _ h => h
  refine ⟨fun h => (Option.some_ne_none fd h).elim, fun _ => ⟨f, File.node_of_ref hf.le, ?_⟩⟩
  rw [hu.2, Files.node, hu.1, File.node]
  dsimp only
  rw [href, if_pos one_pos, htype]
  cases node.major <;> rfl

/-- The child gets the files of its parent. -/
theorem wp_forkFiles_node :
    wp (forkFiles p np) (fun _ t => t.node = s.node) (fun _ _ => True) s := by
  rw [forkFiles, wp_bind]
  refine (wp_forM (fun _ t => t.node = s.node) rfl fun i _ t _ ht => ?_).mono
    (fun _ t ht => by exact ht) fun _ _ h => h
  rw [wp_bind, wp_get]
  split
  · rw [wp_bind]
    refine wp_filedup_node.mono (fun f u hu => ?_) fun _ _ h => h
    exact hu.trans ht
  · exact ht

end Xv6
