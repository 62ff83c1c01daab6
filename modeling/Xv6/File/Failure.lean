import Xv6.File.Lifetime

/-!
# A pipe call that fails

`sys_pipe` takes two files, a page and two descriptors, one after the other, and copies the
descriptors to user memory. Where one of these steps fails it gives back what it has taken so far:
files without a type, as long as there is no page, and then the two ends of the pipe, the second of
which gives the page back.

When the call fails nothing is left of it (`sys_pipe_leaves_no_trace`). This is so in every table
whose free files have no type, as those of all reachable states: `fileclose` of a file that the call
has only just taken would otherwise close what the file was before.
-/

namespace Xv6

/-- A file that is not in use has no type. -/
def Files.FreeUntyped (s : Files) : Prop := ∀ f, (s.file f).ref = 0 → (s.file f).type = .none

/-- But for the files in `l`, `t` is as `s`: the descriptors, the counts and types of the files, the
    free pages and those of pipes, and whether a page was given back that no pipe held. -/
structure SameFilesBut (l : List (Fin nfile)) (s t : Files) : Prop where
  ofile : t.ofile = s.ofile
  ref : ∀ f ∉ l, (t.file f).ref = (s.file f).ref
  type : ∀ f ∉ l, (t.file f).type = (s.file f).type
  freelist : t.freelist = s.freelist
  pipes : t.pipes = s.pipes
  refreed : t.refreed = s.refreed

/-- There is no trace of what was taken. -/
abbrev SameFiles (s t : Files) : Prop := SameFilesBut [] s t

/-- The file `f` is taken, and `t` is otherwise as `s`. -/
def Files.take (s : Files) (f : Fin nfile) : Files :=
  { s with file := Function.update s.file f { s.file f with ref := 1 } }

/-- In `t` the two files are the ends of a new pipe, in the page that was the first free one, and
    all else but the descriptors is as in `s`, where both were free. -/
structure HasPipe (s t : Files) (f0 f1 : Fin nfile) (pi : ℕ) : Prop where
  ne : f0 ≠ f1
  file₀ : (t.file f0).ref = 1 ∧ (t.file f0).type = .pipe ∧ (t.file f0).pipe = pi ∧
    (t.file f0).writable = false
  file₁ : (t.file f1).ref = 1 ∧ (t.file f1).type = .pipe ∧ (t.file f1).pipe = pi ∧
    (t.file f1).writable = true
  free₀ : (s.file f0).ref = 0 ∧ (s.file f0).type = .none
  free₁ : (s.file f1).ref = 0 ∧ (s.file f1).type = .none
  other : ∀ f, f ≠ f0 → f ≠ f1 → t.file f = s.file f
  open₁ : (t.pipe pi).writeopen = true
  freelist : s.freelist = pi :: t.freelist
  pipes : t.pipes = pi :: s.pipes
  refreed : t.refreed = s.refreed

section

theorem PipeEnds.ext_iff {e e' : PipeEnds} :
    e = e' ↔ e.readopen = e'.readopen ∧ e.writeopen = e'.writeopen := by
  cases e
  cases e'
  rw [PipeEnds.mk.injEq]

variable {s t : Files} {f f0 f1 : Fin nfile} {p : Fin nproc} {fd fd0 fd1 : Fin nofile} {pi : ℕ}
  {E : FilePanic → Files → Prop}

theorem SameFiles.refl (s : Files) : SameFiles s s :=
  ⟨rfl, fun _ _ => rfl, fun _ _ => rfl, rfl, rfl, rfl⟩

theorem Files.take_file_self (s : Files) (f : Fin nfile) :
    (s.take f).file f = { s.file f with ref := 1 } := Function.update_self ..

theorem Files.take_file_of_ne (s : Files) {g : Fin nfile} (h : g ≠ f) :
    (s.take f).file g = s.file g := Function.update_of_ne h ..

theorem SameFilesBut.take {l : List (Fin nfile)} (h : SameFilesBut l s t) (g : Fin nfile) :
    SameFilesBut (g :: l) s (t.take g) := by
  refine ⟨h.ofile, fun f hf => ?_, fun f hf => ?_, h.freelist, h.pipes, h.refreed⟩
  all_goals
    obtain ⟨hfg, hfl⟩ := not_or.1 (List.mem_cons.not.1 hf)
    rw [Files.take_file_of_ne _ hfg]
  exacts [h.ref f hfl, h.type f hfl]

/-- A file that was taken and has no type is given back. -/
theorem SameFilesBut.give {g : Fin nfile} (l₁ : List (Fin nfile)) {l₂ : List (Fin nfile)}
    (h : SameFilesBut (l₁ ++ g :: l₂) s t) (href : (s.file g).ref = 0) (ht : (s.file g).type = .none) :
    SameFilesBut (l₁ ++ l₂) s { t with
      file := Function.update t.file g { t.file g with ref := 0, type := .none } } := by
  have hmem : ∀ f, f ≠ g → f ∉ l₁ ++ l₂ → f ∉ l₁ ++ g :: l₂ := fun f hne hf hin => by
    simp only [List.mem_append, List.mem_cons] at hf hin
    tauto
  refine ⟨h.ofile, fun f hf => ?_, fun f hf => ?_, h.freelist, h.pipes, h.refreed⟩
  · dsimp only
    rcases eq_or_ne f g with rfl | hne
    · rw [Function.update_self, href]
    · rw [Function.update_of_ne hne, h.ref f (hmem f hne hf)]
  · dsimp only
    rcases eq_or_ne f g with rfl | hne
    · rw [Function.update_self, ht]
    · rw [Function.update_of_ne hne, h.type f (hmem f hne hf)]

theorem wp_filealloc_take {Q : Option (Fin nfile) → Files → Prop} (hnone : Q none s)
    (hsome : ∀ f, (s.file f).ref = 0 → Q (some f) (s.take f)) : wp filealloc Q E s := by
  rw [filealloc, wp_bind, wp_get]
  split
  · rename_i f hf
    have hf₀ := List.find?_some hf
    rw [wp_bind, setFile, wp_modify, wp_pure]
    exact hsome f (of_decide_eq_true hf₀)
  · exact hnone

/-! ## Free files without a type -/

/-- A change of a file that does not give a type to a file that is not in use. -/
theorem Files.FreeUntyped.setFile (hs : s.FreeUntyped) {g : File → File}
    (hg : (g (s.file f)).ref = 0 → (g (s.file f)).type = .none) :
    Files.FreeUntyped { s with file := Function.update s.file f (g (s.file f)) } := by
  intro f' hf'
  change (Function.update s.file f _ f').ref = 0 at hf'
  change (Function.update s.file f _ f').type = .none
  rcases eq_or_ne f' f with rfl | h
  · rw [Function.update_self] at hf' ⊢
    exact hg hf'
  · rw [Function.update_of_ne h] at hf' ⊢
    exact hs f' hf'

/-- A new file has no type. -/
theorem wp_filealloc_freeUntyped (hs : s.FreeUntyped) {Q : Option (Fin nfile) → Files → Prop}
    (hnone : Q none s) (hsome : ∀ f (t : Files), t.FreeUntyped → (t.file f).ref = 1 →
      (t.file f).type = .none → (∀ g, g ≠ f → t.file g = s.file g) → (s.file f).ref = 0 →
      Q (some f) t) : wp filealloc Q E s := by
  refine wp_filealloc_take hnone fun f href => ?_
  have hself := s.take_file_self f
  refine hsome f (s.take f) (hs.setFile (g := fun x => { x with ref := 1 }) fun h => by cases h)
    (by rw [hself]) (by rw [hself]; exact hs f href) (fun g hg => s.take_file_of_ne hg) href

/-- `fdalloc` leaves the files alone. -/
theorem wp_fdalloc_file {Q : Option (Fin nofile) → Files → Prop}
    (h : ∀ r t, t.file = s.file → Q r t) : wp (fdalloc p f) Q E s := by
  simp only [fdalloc, wp_bind, wp_get]
  split
  · exact h _ _ rfl
  · exact h _ _ rfl

/-- And so does `pipeclose`. -/
theorem wp_pipeclose_file (w : Bool) {Q : PUnit → Files → Prop}
    (h : ∀ t, t.file = s.file → Q ⟨⟩ t) : wp (pipeclose pi w) Q E s := by
  simp only [pipeclose, wp_bind, wp_modify, wp_get]
  split
  · split
    · exact h _ rfl
    · exact h _ rfl
  · split
    · exact h _ rfl
    · exact h _ rfl

theorem wp_fileclose_freeUntyped (hs : s.FreeUntyped) :
    wp (fileclose f) (fun _ t => t.FreeUntyped) (fun _ t => t.FreeUntyped) s := by
  simp only [fileclose, wp_bind, wp_get]
  split
  next => exact hs
  next hlt =>
    simp only [setFile, wp_bind, wp_modify]
    split
    next hpos =>
      refine hs.setFile (g := fun x => { x with ref := x.ref - 1 }) fun h => ?_
      change (s.file f).ref - 1 = 0 at h
      omega
    next =>
      -- The last reference: the file has no type now.
      have hfree : Files.FreeUntyped { s with
          file := Function.update s.file f { s.file f with ref := 0, type := .none } } :=
        hs.setFile (g := fun x => { x with ref := 0, type := .none }) fun _ => rfl
      simp only [wp_bind, wp_modify, Function.update_idem, Function.update_self]
      split
      next =>
        rw [wp_bind]
        refine wp_pipeclose_file _ fun t ht g => ?_
        rw [ht]
        exact hfree g
      next => exact hfree
      next => exact hfree
      next => exact hfree

theorem wp_filedup_freeUntyped (hs : s.FreeUntyped) :
    wp (filedup f) (fun _ t => t.FreeUntyped) (fun _ t => t.FreeUntyped) s := by
  simp only [filedup, wp_bind, wp_get]
  split
  next => exact hs
  next hlt =>
    refine hs.setFile (g := fun x => { x with ref := x.ref + 1 }) fun h => ?_
    change (s.file f).ref + 1 = 0 at h
    omega

/-! ## Giving back -/

/-- A file without a type is given back. -/
theorem wp_fileclose_untyped {Q : Option ℕ → Files → Prop} (href : (s.file f).ref = 1)
    (ht : (s.file f).type = .none)
    (hok : Q none { s with
      file := Function.update s.file f { s.file f with ref := 0, type := .none } }) :
    wp (fileclose f) Q E s := by
  rw [fileclose, wp_bind, wp_get, if_neg (by omega), wp_bind, setFile, wp_modify,
    if_neg (by omega), wp_bind, setFile, wp_modify]
  simp only [Function.update_self, Function.update_idem, ht, wp_pure]
  exact hok

/-- An end of a pipe is closed. -/
theorem wp_fileclose_end {Q : Option ℕ → Files → Prop} (href : (s.file f).ref = 1)
    (ht : (s.file f).type = .pipe)
    (hopen : (s.closeEnd f).pipe (s.file f).pipe ≠ ⟨false, false⟩ → Q none (s.closeEnd f))
    (hlast : (s.closeEnd f).pipe (s.file f).pipe = ⟨false, false⟩ → Q none { s.closeEnd f with
      freelist := (s.file f).pipe :: s.freelist
      pipes := s.pipes.erase (s.file f).pipe
      refreed := s.refreed || !decide ((s.file f).pipe ∈ s.pipes) }) :
    wp (fileclose f) Q E s := by
  rw [fileclose, wp_bind, wp_get, if_neg (by omega), wp_bind, setFile, wp_modify,
    if_neg (by omega), wp_bind, setFile, wp_modify]
  simp only [Function.update_self, Function.update_idem, ht]
  rw [wp_bind, pipeclose, wp_bind, wp_modify, wp_bind, wp_get]
  change wp (if ((s.closeEnd f).pipe (s.file f).pipe).readopen = false ∧
    ((s.closeEnd f).pipe (s.file f).pipe).writeopen = false then kfreePipe (s.file f).pipe
    else pure ⟨⟩) _ E (s.closeEnd f)
  have hend : ((s.closeEnd f).pipe (s.file f).pipe).readopen = false ∧
      ((s.closeEnd f).pipe (s.file f).pipe).writeopen = false ↔
      (s.closeEnd f).pipe (s.file f).pipe = ⟨false, false⟩ := by
    rw [PipeEnds.ext_iff]
  split
  · rename_i hboth
    exact hlast (hend.1 hboth)
  · rename_i hboth
    exact hopen fun h => hboth (hend.2 h)

theorem Files.closeEnd_pipe (s : Files) (f : Fin nfile) :
    (s.closeEnd f).pipe (s.file f).pipe = (s.pipe (s.file f).pipe).close (s.file f).writable :=
  Function.update_self ..

theorem Files.closeEnd_file_of_ne {g : Fin nfile} (h : g ≠ f) :
    (s.closeEnd f).file g = s.file g := Function.update_of_ne h ..

/-- Both ends of the new pipe are closed: the second one gives the page back. -/
theorem HasPipe.wp_close (h : HasPipe s t f0 f1 pi) (ho : t.ofile = s.ofile) :
    wp (do
      let _ ← fileclose f0
      let _ ← fileclose f1
      pure (none : Option (Fin nofile × Fin nofile))) (fun _ u => SameFiles s u) E t := by
  obtain ⟨href0, htype0, hpi0, hw0⟩ := h.file₀
  obtain ⟨href1, htype1, hpi1, hw1⟩ := h.file₁
  have hclose0 : (t.closeEnd f0).pipe pi = (t.pipe pi).close false := by
    rw [← hpi0, Files.closeEnd_pipe, hw0]
  have hfile1 : (t.closeEnd f0).file f1 = t.file f1 := Files.closeEnd_file_of_ne h.ne.symm
  have hclose1 : ((t.closeEnd f0).closeEnd f1).pipe pi = ⟨false, false⟩ := by
    have := Files.closeEnd_pipe (t.closeEnd f0) f1
    rw [hfile1, hpi1, hw1, hclose0] at this
    exact this
  rw [wp_bind]
  refine wp_fileclose_end href0 htype0 (fun _ => ?_) fun hlast => ?_
  swap
  · -- The end for writing is still open.
    rw [hpi0, hclose0] at hlast
    have hopen := h.open₁
    rw [PipeEnds.ext_iff] at hlast
    exact absurd (hopen.symm.trans hlast.2) Bool.noConfusion
  rw [wp_bind]
  refine wp_fileclose_end (by rw [hfile1]; exact href1) (by rw [hfile1]; exact htype1)
    (fun hopen => absurd ?_ hopen) fun _ => ?_
  · rw [hfile1, hpi1]
    exact hclose1
  rw [wp_pure, hfile1, hpi1]
  have hfile : ∀ f, f ≠ f0 → f ≠ f1 → ((t.closeEnd f0).closeEnd f1).file f = s.file f :=
    fun f hf0 hf1 => by
      rw [Files.closeEnd_file_of_ne hf1, Files.closeEnd_file_of_ne hf0, h.other f hf0 hf1]
  have hself1 : ((t.closeEnd f0).closeEnd f1).file f1 =
      { (t.closeEnd f0).file f1 with ref := 0, type := .none } := Function.update_self ..
  have hself0 : ((t.closeEnd f0).closeEnd f1).file f0 =
      { t.file f0 with ref := 0, type := .none } := by
    rw [Files.closeEnd_file_of_ne h.ne]
    exact Function.update_self ..
  refine ⟨ho, fun f _ => ?_, fun f _ => ?_, h.freelist.symm, ?_, ?_⟩
  · dsimp only
    rcases eq_or_ne f f1 with rfl | hf1
    · rw [hself1, h.free₁.1]
    rcases eq_or_ne f f0 with rfl | hf0
    · rw [hself0, h.free₀.1]
    · rw [hfile f hf0 hf1]
  · dsimp only
    rcases eq_or_ne f f1 with rfl | hf1
    · rw [hself1, h.free₁.2]
    rcases eq_or_ne f f0 with rfl | hf0
    · rw [hself0, h.free₀.2]
    · rw [hfile f hf0 hf1]
  · change t.pipes.erase pi = s.pipes
    rw [h.pipes, List.erase_cons_head]
  · change (t.refreed || !decide (pi ∈ t.pipes)) = s.refreed
    rw [h.pipes, decide_eq_true List.mem_cons_self, h.refreed, Bool.not_true, Bool.or_false]

/-- `pipealloc` gives back what it has taken, or the files are the ends of a new pipe. -/
theorem wp_pipealloc_same {Q : Option (Fin nfile × Fin nfile) → Files → Prop}
    (hs : s.FreeUntyped) (hnone : ∀ t, SameFiles s t → Q none t)
    (hsome : ∀ f0 f1 pi t, t.ofile = s.ofile → HasPipe s t f0 f1 pi → Q (some (f0, f1)) t) :
    wp pipealloc Q E s := by
  rw [pipealloc, wp_bind]
  refine wp_filealloc_take (hnone s (.refl s)) fun f0 href0 => ?_
  have htype0 := hs f0 href0
  have hself0 := s.take_file_self f0
  have htake := (SameFiles.refl s).take f0
  rw [wp_bind]
  refine wp_filealloc_take ?_ fun f1 href1 => ?_
  · -- No second file.
    rw [wp_bind]
    refine wp_fileclose_untyped (by rw [hself0]) (by rw [hself0]; exact htype0) ?_
    exact hnone _ (SameFilesBut.give [] htake href0 htype0)
  have hne : f0 ≠ f1 := by
    rintro rfl
    rw [hself0] at href1
    cases href1
  have hfile1 := s.take_file_of_ne hne.symm
  rw [hfile1] at href1
  have htype1 := hs f1 href1
  have hself1 : ((s.take f0).take f1).file f1 = { s.file f1 with ref := 1 } := by
    rw [Files.take_file_self, hfile1]
  have hfile0 : ((s.take f0).take f1).file f0 = { s.file f0 with ref := 1 } := by
    rw [Files.take_file_of_ne _ hne, hself0]
  have htake := htake.take f1
  rw [wp_bind, wp_get]
  split
  · -- No page.
    rw [wp_bind]
    refine wp_fileclose_untyped (by rw [hfile0]) (by rw [hfile0]; exact htype0) ?_
    rw [wp_bind]
    refine wp_fileclose_untyped ?_ ?_ ?_
    · dsimp only
      rw [Function.update_of_ne hne.symm, hself1]
    · dsimp only
      rw [Function.update_of_ne hne.symm, hself1]
      exact htype1
    · exact hnone _ (SameFilesBut.give [] (SameFilesBut.give [f1] htake href0 htype0) href1 htype1)
  · rename_i pi l hfree
    rw [wp_bind, wp_set, wp_bind, setFile, wp_modify, wp_bind, setFile, wp_modify, wp_pure]
    refine hsome f0 f1 pi _ rfl ⟨hne, ?_, ?_, ⟨href0, htype0⟩, ⟨href1, htype1⟩, fun f hf0 hf1 => ?_,
      ?_, hfree, rfl, rfl⟩
    · dsimp only
      rw [Function.update_of_ne hne, Function.update_self, hfile0]
      exact ⟨rfl, rfl, rfl, rfl⟩
    · dsimp only
      rw [Function.update_self, Function.update_of_ne hne.symm, hself1]
      exact ⟨rfl, rfl, rfl, rfl⟩
    · dsimp only
      rw [Function.update_of_ne hf1, Function.update_of_ne hf0, Files.take_file_of_ne _ hf1,
        Files.take_file_of_ne _ hf0]
    · dsimp only
      rw [Function.update_self]

/-- The descriptors do not matter for the files. -/
theorem HasPipe.setFd (h : HasPipe s t f0 f1 pi) (o : Option (Fin nfile)) :
    HasPipe s (t.setFd p fd o) f0 f1 pi :=
  ⟨h.ne, h.file₀, h.file₁, h.free₀, h.free₁, h.other, h.open₁, h.freelist, h.pipes, h.refreed⟩

theorem wp_fdalloc_setFd {Q : Option (Fin nofile) → Files → Prop} (hnone : Q none s)
    (hsome : ∀ fd, s.ofile p fd = none → Q (some fd) (s.setFd p fd (some f))) :
    wp (fdalloc p f) Q E s := by
  rw [fdalloc, wp_bind, wp_get]
  split
  · rename_i fd hfd
    have hnil := List.find?_some hfd
    rw [wp_bind, wp_setOfile, wp_pure]
    exact hsome fd (of_decide_eq_true hnil)
  · exact hnone

/-- A descriptor is taken and given up. -/
theorem Files.setFd_setFd (s : Files) (p : Fin nproc) (fd : Fin nofile)
    (o o' : Option (Fin nfile)) : (s.setFd p fd o).setFd p fd o' = s.setFd p fd o' := by
  simp only [Files.setFd, Function.update_self, Function.update_idem]

theorem Files.setFd_comm (s : Files) (p : Fin nproc) (h : fd0 ≠ fd1) (o o' : Option (Fin nfile)) :
    (s.setFd p fd0 o).setFd p fd1 o' = (s.setFd p fd1 o').setFd p fd0 o := by
  simp only [Files.setFd, Function.update_self, Function.update_idem]
  rw [Function.update_comm h]

theorem Files.setFd_eq_self (h : s.ofile p fd = none) : (s.setFd p fd none).ofile = s.ofile := by
  rw [Files.setFd, ← h, Function.update_eq_self, Function.update_eq_self]

/-- A call of `sys_pipe`. -/
theorem wp_sysPipe_same (hs : s.FreeUntyped) (ok₀ ok₁ : Bool) :
    wp (sysPipe p ok₀ ok₁) (fun r t => r = none → SameFiles s t) E s := by
  rw [sysPipe, wp_bind]
  refine wp_pipealloc_same hs (fun t ht _ => ht) fun rf wf pi s₁ ho₁ hpipe => ?_
  rw [wp_bind]
  refine wp_fdalloc_setFd ?_ fun fd0 hnil0 => ?_
  · exact (hpipe.wp_close ho₁).mono (fun _ _ h _ => h) fun _ _ h => h
  rw [wp_bind]
  refine wp_fdalloc_setFd ?_ fun fd1 hnil1 => ?_
  · rw [wp_bind, wp_setOfile, Files.setFd_setFd]
    refine ((hpipe.setFd none).wp_close ?_).mono (fun _ _ h _ => h) fun _ _ h => h
    rw [Files.setFd_eq_self hnil0, ho₁]
  have hne : fd0 ≠ fd1 := by
    rintro rfl
    rw [Files.setFd_self] at hnil1
    cases hnil1
  rw [Files.setFd_of_ne_fd hne.symm] at hnil1
  dsimp only
  split
  · rw [wp_bind, wp_setOfile, wp_bind, wp_setOfile, Files.setFd_comm _ _ hne, Files.setFd_setFd,
      Files.setFd_comm _ _ hne.symm, Files.setFd_setFd]
    refine (((hpipe.setFd none).setFd none).wp_close ?_).mono (fun _ _ h _ => h) fun _ _ h => h
    rw [Files.setFd_eq_self (by rw [Files.setFd_of_ne_fd hne.symm]; exact hnil1),
      Files.setFd_eq_self hnil0, ho₁]
  · exact fun h => absurd h (Option.some_ne_none _)

end

theorem freeUntyped_of_reachable {m : FileTable} (h : fileSystem.Reachable m) :
    m.files.FreeUntyped := by
  have hinv : m.panic = none ∧ ∃ U : Multiset ℕ, U.Nodup ∧ FilesInv U m.files := by
    refine h.invariant (P := fun m => m.panic = none ∧ ∃ U : Multiset ℕ, U.Nodup ∧ FilesInv U m.files)
      (fun m hm => ?_) fun m a m' hm hstep => ?_
    · obtain ⟨hinit, hpanic⟩ : m.files.Initial ∧ m.panic = none := hm
      exact ⟨hpanic, _, Multiset.coe_nodup.2 hinit.freelist, hinit.inv⟩
    obtain ⟨-, U, hU, hinv⟩ := hm
    obtain ⟨-, ha, rfl⟩ := hstep
    obtain ⟨r, t, hrun, ht⟩ := (wp_fileAct hinv hU ha).exists_ok
    rw [FileTable.next, hrun]
    exact ⟨rfl, U, hU, ht⟩
  obtain ⟨-, U, -, hinv⟩ := hinv
  exact hinv.inv.untyped

/-- In every reachable table the files that are not in use have no type; and in every such table,
    whatever the descriptors and the free pages, a call of `sys_pipe` does not panic, and when it
    fails, at any point, all is as before. -/
theorem sys_pipe_leaves_no_trace :
    (∀ m, fileSystem.Reachable m → m.files.FreeUntyped) ∧
    ∀ (s : Files) (p : Fin nproc) (ok₀ ok₁ : Bool), s.FreeUntyped →
      wp (sysPipe p ok₀ ok₁) (fun r t => r = none → SameFiles s t) (fun _ _ => False) s := by
  exact ⟨fun m hm => freeUntyped_of_reachable hm, fun s p ok₀ ok₁ hs => wp_sysPipe_same hs ok₀ ok₁⟩

/-- The call fails when the second descriptor is copied: both files and the page are back. -/
theorem sys_pipe_leaves_no_trace_copyout : ∃ t,
    sysPipe 0 true false freshFiles.files = .ok none t ∧ SameFiles freshFiles.files t := by
  have hs : freshFiles.files.FreeUntyped := fun _ _ => rfl
  obtain ⟨r, t, hrun, ht⟩ := (sys_pipe_leaves_no_trace.2 freshFiles.files 0 true false hs).exists_ok
  have hnone : wp (sysPipe 0 true false) (fun r _ => r = none) (fun _ _ => False) freshFiles.files := by
    decide
  have hfail : r = none := hnone.of_ok hrun
  subst hfail
  exact ⟨t, hrun, ht rfl⟩

end Xv6
