import Xv6.File.Basic

/-!
# The lifetime of files and pipes

Whenever no call is in progress, the reference count of a file is the number of descriptors
that hold it, an end of a pipe is open as long as a file in use is that end, and the page
of a pipe is given back when its second end is closed, and not before (`files_lifetime`).

In the middle of a call the counts may be ahead of the descriptors or behind them. The
invariant `FInv` says by how much, for each file.
-/

namespace Xv6

/-- The file is in use, and is the end of the pipe `pi`. -/
def File.IsEnd (x : File) (pi : ℕ) (w : Bool) : Prop :=
  0 < x.ref ∧ x.type = .pipe ∧ x.pipe = pi ∧ x.writable = w ∧ x.readable = !w

instance (x : File) (pi : ℕ) (w : Bool) : Decidable (x.IsEnd pi w) :=
  inferInstanceAs (Decidable (_ ∧ _))

/-- The number of descriptors that hold the file. -/
def Files.slots (s : Files) : Fin nfile → ℤ :=
  refs fun x : Fin nproc × Fin nofile => s.ofile x.1 x.2

/-- The invariant of files: the count of a file is `H` ahead of the descriptors that hold it,
    and `U` are the pages in all. -/
structure FInv (U : Multiset ℕ) (H : Fin nfile → ℤ) (s : Files) : Prop where
  ref : ∀ f, (s.file f).ref = s.slots f + H f
  nonneg : ∀ f, 0 ≤ (s.file f).ref
  untyped : ∀ f, (s.file f).ref = 0 → (s.file f).type = .none
  isEnd : ∀ f, 0 < (s.file f).ref → (s.file f).type = .pipe →
    (s.file f).pipe ∈ s.pipes ∧ (s.file f).readable = !(s.file f).writable
  ends : ∀ pi ∈ s.pipes, ∀ w, (s.pipe pi).open w = true ↔ ∃ f, (s.file f).IsEnd pi w
  once : ∀ f g pi w, (s.file f).IsEnd pi w → (s.file g).IsEnd pi w → f = g
  held : ∀ pi ∈ s.pipes, ∃ w, (s.pipe pi).open w = true
  pages : (s.freelist : Multiset ℕ) + s.pipes + s.others = U
  refreed : s.refreed = false

section

variable {U : Multiset ℕ} {H H' : Fin nfile → ℤ} {s t : Files} {f g : Fin nfile}
  {p np : Fin nproc} {fd : Fin nofile} {o : Option (Fin nfile)} {E : FilePanic → Files → Prop}

/-! ## Files -/

/-- A file changes, and is the same end as before. -/
theorem FInv.update (h : FInv U H s) {x : File} (hx : 0 ≤ x.ref) (hn : x.ref = 0 → x.type = .none)
    (hE : ∀ pi w, x.IsEnd pi w ↔ (s.file f).IsEnd pi w)
    (hpipe : 0 < x.ref → x.type = .pipe → x.pipe ∈ s.pipes ∧ x.readable = !x.writable)
    (hH : ∀ g, H' g = H g + if g = f then x.ref - (s.file f).ref else 0) :
    FInv U H' { s with file := Function.update s.file f x } := by
  have hend : ∀ g pi w, (Function.update s.file f x g).IsEnd pi w ↔ (s.file g).IsEnd pi w := by
    intro g pi w
    by_cases hg : g = f
    · rw [hg, Function.update_self]
      exact hE pi w
    · rw [Function.update_of_ne hg]
  refine ⟨fun g => ?_, fun g => ?_, fun g => ?_, fun g => ?_, fun pi hpi w => ?_,
    fun g g' pi w hg hg' => ?_, h.held, h.pages, h.refreed⟩ <;> dsimp only at *
  · rw [hH]
    have hslots : Files.slots { s with file := Function.update s.file f x } g = s.slots g := rfl
    rw [hslots]
    by_cases hg : g = f
    · rw [hg, Function.update_self, if_pos rfl, h.ref f]
      ring
    · rw [Function.update_of_ne hg, if_neg hg, h.ref g]
      ring
  · by_cases hg : g = f
    · rw [hg, Function.update_self]
      exact hx
    · rw [Function.update_of_ne hg]
      exact h.nonneg g
  · by_cases hg : g = f
    · rw [hg, Function.update_self]
      exact hn
    · rw [Function.update_of_ne hg]
      exact h.untyped g
  · by_cases hg : g = f
    · rw [hg, Function.update_self]
      exact hpipe
    · rw [Function.update_of_ne hg]
      exact h.isEnd g
  · rw [h.ends pi hpi w]
    exact exists_congr fun g => (hend g pi w).symm
  · exact h.once g g' pi w ((hend g pi w).1 hg) ((hend g' pi w).1 hg')

theorem File.isEnd_setRef {x : File} {r : ℤ} (hr : 0 < r) (hx : 0 < x.ref ∨ x.type = .none)
    (pi : ℕ) (w : Bool) : ({ x with ref := r } : File).IsEnd pi w ↔ x.IsEnd pi w := by
  rcases hx with hx | hx
  · simp [File.IsEnd, hr, hx]
  · simp [File.IsEnd, hx]

/-- The count of a file changes, and stays positive unless the file is not in use. -/
theorem FInv.setRef (h : FInv U H s) {r : ℤ} (hr : 0 < r)
    (hf : 0 < (s.file f).ref ∨ (s.file f).type = .none)
    (hH : ∀ g, H' g = H g + if g = f then r - (s.file f).ref else 0) :
    FInv U H' { s with file := Function.update s.file f { s.file f with ref := r } } := by
  refine h.update hr.le (fun h₀ => absurd h₀ hr.ne') (File.isEnd_setRef hr hf) (fun _ ht => ?_) hH
  rcases hf with hf | hf
  · exact h.isEnd f hf ht
  · rw [hf] at ht
    cases ht

/-- A new file: nobody else holds it, and it has no type. -/
structure NewFile (s t : Files) (f : Fin nfile) : Prop where
  free : (s.file f).ref = 0
  type : (t.file f).type = .none
  other : ∀ g, g ≠ f → t.file g = s.file g
  ofile : t.ofile = s.ofile
  live : t.live = s.live

theorem wp_filealloc {Q : Option (Fin nfile) → Files → Prop} (h : FInv U H s)
    (hnone : Q none s)
    (hsome : ∀ f t, FInv U (H + holds (some f)) t → NewFile s t f → Q (some f) t) :
    wp filealloc Q E s := by
  rw [filealloc, wp_bind, wp_get]
  split
  · rename_i f hf
    have hf₀ : (s.file f).ref = 0 := by
      have := List.find?_some hf
      exact of_decide_eq_true this
    have hn := h.untyped f hf₀
    rw [wp_bind, setFile, wp_modify, wp_pure]
    refine hsome f _ (h.setRef one_pos (.inr hn) fun g => ?_)
      ⟨hf₀, by simpa using hn, fun g hg => Function.update_of_ne hg .., rfl, rfl⟩
    rw [hf₀, Pi.add_apply]
    by_cases hg : g = f
    · rw [hg, holds_self, if_pos rfl]
      rfl
    · rw [holds_of_ne (Ne.symm hg), if_neg hg]
  · rw [wp_pure]
    exact hnone

/-- A file with a reference that no descriptor accounts for. -/
theorem FInv.pos (h : FInv U H s) (hf : 1 ≤ H f) : 0 < (s.file f).ref := by
  have hslots : 0 ≤ s.slots f := refs_nonneg _ _
  have := h.ref f
  omega

theorem wp_filedup {Q : Fin nfile → Files → Prop} (h : FInv U H s) (hf : 0 < (s.file f).ref)
    (hok : FInv U (H + holds (some f)) { s with
        file := Function.update s.file f { s.file f with ref := (s.file f).ref + 1 } } →
      Q f { s with
        file := Function.update s.file f { s.file f with ref := (s.file f).ref + 1 } }) :
    wp (filedup f) Q E s := by
  rw [filedup, wp_bind, wp_get, if_neg (by omega), wp_bind, setFile, wp_modify, wp_pure]
  refine hok (h.setRef (by omega) (.inl hf) fun g => ?_)
  rw [Pi.add_apply]
  by_cases hg : g = f
  · rw [hg, holds_self, if_pos rfl]
    ring
  · rw [holds_of_ne (Ne.symm hg), if_neg hg]

/-! ## Closing -/

/-- The last reference to a file that is no pipe is dropped. -/
theorem FInv.free (h : FInv U H s) (hf : (s.file f).ref = 1) (ht : (s.file f).type ≠ .pipe)
    (hH : ∀ g, H' g = H g - holds (some f) g) :
    FInv U H' { s with
      file := Function.update s.file f { s.file f with ref := 0, type := .none } } := by
  refine h.update le_rfl (fun _ => rfl) (fun pi w => ?_) (fun h₀ => absurd h₀ (lt_irrefl 0))
    fun g => ?_
  · simp [File.IsEnd, ht]
  · rw [hH, hf]
    by_cases hg : g = f
    · rw [hg, holds_self, if_pos rfl]
      ring
    · rw [holds_of_ne (Ne.symm hg), if_neg hg]
      ring

/-- The pipe after an end of it is closed. -/
def PipeEnds.close (e : PipeEnds) (w : Bool) : PipeEnds :=
  if w then { e with writeopen := false } else { e with readopen := false }

theorem PipeEnds.open_close (e : PipeEnds) (w v : Bool) :
    (e.close w).open v = if v = w then false else e.open v := by
  cases w <;> cases v <;> rfl

theorem PipeEnds.exists_open (e : PipeEnds) :
    (∃ w, e.open w = true) ↔ ¬(e.readopen = false ∧ e.writeopen = false) := by
  refine ⟨?_, fun h => ?_⟩
  · rintro ⟨w, hw⟩ ⟨hr, hwr⟩
    cases w
    · rw [PipeEnds.open, if_neg Bool.false_ne_true, hr] at hw
      cases hw
    · rw [PipeEnds.open, if_pos rfl, hwr] at hw
      cases hw
  · cases hr : e.readopen with
    | true => exact ⟨false, hr⟩
    | false =>
      cases hw : e.writeopen with
      | true => exact ⟨true, hw⟩
      | false => exact absurd ⟨hr, hw⟩ h

/-- The state after the last reference to an end of a pipe is dropped, the page aside. -/
def Files.closeEnd (s : Files) (f : Fin nfile) : Files :=
  { s with
    file := Function.update s.file f { s.file f with ref := 0, type := .none }
    pipe := Function.update s.pipe (s.file f).pipe
      ((s.pipe (s.file f).pipe).close (s.file f).writable) }

/-- The ends in use after that. -/
theorem isEnd_closeEnd (h : FInv U H s) (hf : 0 < (s.file f).ref) (ht : (s.file f).type = .pipe)
    (g : Fin nfile) (pi : ℕ) (w : Bool) : ((s.closeEnd f).file g).IsEnd pi w ↔
      (s.file g).IsEnd pi w ∧ ¬(pi = (s.file f).pipe ∧ w = (s.file f).writable) := by
  have hend : (s.file f).IsEnd (s.file f).pipe (s.file f).writable :=
    ⟨hf, ht, rfl, rfl, (h.isEnd f hf ht).2⟩
  by_cases hg : g = f
  · rw [hg, Files.closeEnd]
    simp only [Function.update_self]
    refine ⟨fun hx => absurd hx.1 (lt_irrefl 0), fun hx => ?_⟩
    exact absurd ⟨hx.1.2.2.1.symm, hx.1.2.2.2.1.symm⟩ hx.2
  · have hsame : (s.closeEnd f).file g = s.file g := Function.update_of_ne hg ..
    rw [hsame]
    refine ⟨fun hx => ⟨hx, ?_⟩, fun hx => hx.1⟩
    rintro ⟨rfl, rfl⟩
    exact hg (h.once g f _ _ hx hend)

/-- What holds after an end is closed, the page aside. -/
structure Closed (U : Multiset ℕ) (H' : Fin nfile → ℤ) (s t : Files) (pi : ℕ) : Prop where
  ref : ∀ g, (t.file g).ref = t.slots g + H' g
  nonneg : ∀ g, 0 ≤ (t.file g).ref
  untyped : ∀ g, (t.file g).ref = 0 → (t.file g).type = .none
  isEnd : ∀ g, 0 < (t.file g).ref → (t.file g).type = .pipe →
    (t.file g).pipe ∈ t.pipes ∧ (t.file g).readable = !(t.file g).writable
  ends : ∀ pi ∈ t.pipes, ∀ w, (t.pipe pi).open w = true ↔ ∃ g, (t.file g).IsEnd pi w
  once : ∀ g g' pi w, (t.file g).IsEnd pi w → (t.file g').IsEnd pi w → g = g'
  held : ∀ pi' ∈ t.pipes, pi' ≠ pi → ∃ w, (t.pipe pi').open w = true
  mem : pi ∈ t.pipes
  pages : (t.freelist : Multiset ℕ) + t.pipes + t.others = U
  refreed : t.refreed = false

theorem FInv.closeEnd (h : FInv U H s) (hf : (s.file f).ref = 1) (ht : (s.file f).type = .pipe)
    (hH : ∀ g, H' g = H g - holds (some f) g) :
    Closed U H' s (s.closeEnd f) (s.file f).pipe := by
  have hpos : 0 < (s.file f).ref := by omega
  have hend := isEnd_closeEnd h hpos ht
  have hpi := (h.isEnd f hpos ht).1
  have hother : ∀ g, g ≠ f → (s.closeEnd f).file g = s.file g := fun g hg =>
    Function.update_of_ne hg ..
  have hself : (s.closeEnd f).file f = { s.file f with ref := 0, type := .none } :=
    Function.update_self ..
  refine ⟨fun g => ?_, fun g => ?_, fun g => ?_, fun g => ?_, fun pi hpi w => ?_,
    fun g g' pi w hg hg' => ?_, fun pi hpi hne => ?_, hpi, h.pages, h.refreed⟩
  · have hslots : (s.closeEnd f).slots g = s.slots g := rfl
    rw [hslots, hH]
    by_cases hg : g = f
    · have := h.ref f
      rw [hg, hself, holds_self]
      dsimp only
      omega
    · rw [hother g hg, holds_of_ne (Ne.symm hg), h.ref g]
      ring
  · by_cases hg : g = f
    · rw [hg, hself]
    · rw [hother g hg]
      exact h.nonneg g
  · by_cases hg : g = f
    · rw [hg, hself]
      exact fun _ => rfl
    · rw [hother g hg]
      exact h.untyped g
  · by_cases hg : g = f
    · rw [hg, hself]
      exact fun h₀ => absurd h₀ (lt_irrefl 0)
    · rw [hother g hg]
      exact h.isEnd g
  · have hw := h.ends pi hpi w
    simp only [hend, exists_and_right]
    rw [← hw]
    by_cases hp : pi = (s.file f).pipe
    · have : (s.closeEnd f).pipe pi = (s.pipe pi).close (s.file f).writable := by
        rw [hp]
        exact Function.update_self ..
      rw [this, PipeEnds.open_close]
      by_cases hww : w = (s.file f).writable
      · simp [hww, hp]
      · simp [hww]
    · have : (s.closeEnd f).pipe pi = s.pipe pi := Function.update_of_ne hp ..
      rw [this]
      simp [hp]
  · exact h.once g g' pi w ((hend g pi w).1 hg).1 ((hend g' pi w).1 hg').1
  · have : (s.closeEnd f).pipe pi = s.pipe pi := Function.update_of_ne hne ..
    rw [this]
    exact h.held pi hpi

/-- The other end is still open. -/
theorem Closed.finv {pi : ℕ} (h : Closed U H s t pi) (hw : ∃ w, (t.pipe pi).open w = true) :
    FInv U H t := by
  refine ⟨h.ref, h.nonneg, h.untyped, h.isEnd, h.ends, h.once, fun pi' hpi' => ?_, h.pages, h.refreed⟩
  by_cases hp : pi' = pi
  · rw [hp]
    exact hw
  · exact h.held pi' hpi' hp

/-- The second end is closed: the page is given back, and no file in use is an end of it. -/
theorem Closed.kfree {pi : ℕ} (h : Closed U H s t pi) (hU : U.Nodup)
    (hw : ¬∃ w, (t.pipe pi).open w = true) :
    FInv U H { t with
      freelist := pi :: t.freelist
      pipes := t.pipes.erase pi
      refreed := t.refreed || !decide (pi ∈ t.pipes) } := by
  have hnone : ∀ g w, ¬(t.file g).IsEnd pi w := fun g w hg =>
    hw ⟨w, (h.ends pi h.mem w).2 ⟨g, hg⟩⟩
  have hnodup : t.pipes.Nodup := by
    rw [← h.pages] at hU
    exact Multiset.coe_nodup.1 ((Multiset.nodup_add.1 (Multiset.nodup_add.1 hU).1).2.1)
  refine ⟨h.ref, h.nonneg, h.untyped, fun g hg ht => ?_, fun pi' hpi' w => ?_, h.once,
    fun pi' hpi' => ?_, ?_, ?_⟩ <;> dsimp only at *
  · obtain ⟨hmem, hrw⟩ := h.isEnd g hg ht
    refine ⟨?_, hrw⟩
    rw [hnodup.mem_erase_iff]
    refine ⟨fun hp => ?_, hmem⟩
    exact hnone g (t.file g).writable ⟨hg, ht, hp, rfl, hrw⟩
  · exact h.ends pi' (List.mem_of_mem_erase hpi') w
  · rw [hnodup.mem_erase_iff] at hpi'
    exact h.held pi' hpi'.2 hpi'.1
  · rw [← h.pages, ← Multiset.cons_coe, ← Multiset.coe_erase]
    conv_rhs => rw [← Multiset.cons_erase (Multiset.mem_coe.2 h.mem)]
    rw [Multiset.cons_add, Multiset.add_cons]
  · rw [h.refreed]
    simp [h.mem]

theorem wp_pipeclose {Q : PUnit → Files → Prop} (h : FInv U H s) (hU : U.Nodup)
    (hf : (s.file f).ref = 1) (ht : (s.file f).type = .pipe)
    (hok : ∀ t, FInv U (H - holds (some f)) t → t.ofile = s.ofile → t.live = s.live → Q ⟨⟩ t) :
    wp (pipeclose (s.file f).pipe (s.file f).writable) Q E { s with
      file := Function.update s.file f { s.file f with ref := 0, type := .none } } := by
  have hc : Closed U (H - holds (some f)) s (s.closeEnd f) (s.file f).pipe :=
    h.closeEnd hf ht fun g => rfl
  rw [pipeclose, wp_bind, wp_modify, wp_bind, wp_get]
  change wp (if ((s.closeEnd f).pipe (s.file f).pipe).readopen = false ∧
    ((s.closeEnd f).pipe (s.file f).pipe).writeopen = false then kfreePipe (s.file f).pipe
    else pure ⟨⟩) Q E (s.closeEnd f)
  split
  · rename_i hboth
    rw [kfreePipe, wp_modify]
    exact hok _ (hc.kfree hU fun hw => (PipeEnds.exists_open _).1 hw hboth) rfl rfl
  · rename_i hopen
    rw [wp_pure]
    exact hok _ (hc.finv ((PipeEnds.exists_open _).2 hopen)) rfl rfl

theorem wp_fileclose {Q : Option ℕ → Files → Prop} (h : FInv U H s) (hU : U.Nodup)
    (hf : 0 < (s.file f).ref)
    (hok : ∀ r t, FInv U (H - holds (some f)) t → t.ofile = s.ofile → t.live = s.live → Q r t) :
    wp (fileclose f) Q E s := by
  rw [fileclose, wp_bind, wp_get, if_neg (by omega), wp_bind, setFile, wp_modify]
  have hH : ∀ g, (H - holds (some f)) g = H g - holds (some f) g := fun _ => rfl
  split
  · -- Other references are left.
    rename_i hpos
    rw [wp_pure]
    refine hok _ _ (h.setRef hpos (.inl hf) fun g => ?_) rfl rfl
    rw [hH]
    by_cases hg : g = f
    · rw [hg, holds_self, if_pos rfl]
      ring
    · rw [holds_of_ne (Ne.symm hg), if_neg hg]
      ring
  · rename_i hlast
    have hone : (s.file f).ref = 1 := by omega
    rw [wp_bind, setFile, wp_modify]
    simp only [Function.update_self, Function.update_idem]
    split
    · rename_i ht
      rw [wp_bind]
      refine wp_pipeclose h hU hone ht fun t hinv ho hl => ?_
      rw [wp_pure]
      exact hok _ t hinv ho hl
    all_goals
      rename_i ht
      rw [wp_pure]
      exact hok _ _ (h.free hone (by rw [ht]; exact FdType.noConfusion) hH) rfl rfl

/-! ## Descriptors -/

/-- The files with a descriptor changed. -/
def Files.setFd (s : Files) (p : Fin nproc) (fd : Fin nofile) (o : Option (Fin nfile)) : Files :=
  { s with ofile := Function.update s.ofile p (Function.update (s.ofile p) fd o) }

theorem Files.ofile_setFd (s : Files) (p : Fin nproc) (fd : Fin nofile) (o : Option (Fin nfile)) :
    (fun x : Fin nproc × Fin nofile => (s.setFd p fd o).ofile x.1 x.2) =
      Function.update (fun x : Fin nproc × Fin nofile => s.ofile x.1 x.2) (p, fd) o := by
  funext x
  obtain ⟨q, i⟩ := x
  simp only [Files.setFd]
  by_cases hq : q = p
  · subst hq
    rw [Function.update_self]
    by_cases hi : i = fd
    · subst hi
      rw [Function.update_self, Function.update_self]
    · rw [Function.update_of_ne hi, Function.update_of_ne fun h => hi (Prod.ext_iff.1 h).2]
  · rw [Function.update_of_ne hq, Function.update_of_ne fun h => hq (Prod.ext_iff.1 h).1]

theorem Files.setFd_self : (s.setFd p fd o).ofile p fd = o := by
  simp [Files.setFd]

theorem Files.setFd_of_ne {q : Fin nproc} (h : q ≠ p) : (s.setFd p fd o).ofile q = s.ofile q := by
  simp [Files.setFd, h]

theorem Files.setFd_of_ne_fd {i : Fin nofile} (h : i ≠ fd) :
    (s.setFd p fd o).ofile p i = s.ofile p i := by
  simp [Files.setFd, h]

theorem wp_setOfile {Q : PUnit → Files → Prop} :
    wp (setOfile p fd o) Q E s ↔ Q ⟨⟩ (s.setFd p fd o) := Iff.rfl

theorem FInv.setFd (h : FInv U H s) (p : Fin nproc) (fd : Fin nofile) (o : Option (Fin nfile)) :
    FInv U (H + holds (s.ofile p fd) - holds o) (s.setFd p fd o) := by
  refine ⟨fun g => ?_, h.nonneg, h.untyped, h.isEnd, h.ends, h.once, h.held, h.pages, h.refreed⟩
  have hslots : (s.setFd p fd o).slots g = s.slots g - holds (s.ofile p fd) g + holds o g := by
    rw [Files.slots, Files.ofile_setFd, refs_update]
    rfl
  have href := h.ref g
  change (s.file g).ref = _
  rw [hslots, href, Pi.sub_apply, Pi.add_apply]
  ring

theorem FInv.slots_le (h : FInv U H s) (hfd : s.ofile p fd = some f) (hH : 0 ≤ H f) :
    0 < (s.file f).ref := by
  have : 1 ≤ s.slots f := refs_pos (i := (p, fd)) hfd
  have := h.ref f
  omega

theorem argfd_eq_some {n : ℤ} (h : argfd s p n = some (fd, f)) : s.ofile p fd = some f := by
  unfold argfd at h
  split at h
  · simp only [Option.map_eq_some_iff, Prod.mk.injEq] at h
    obtain ⟨g, hg, rfl, rfl⟩ := h
    exact hg
  · cases h

theorem wp_fdalloc {Q : Option (Fin nofile) → Files → Prop} (h : FInv U H s) (hnone : Q none s)
    (hsome : ∀ fd, s.ofile p fd = none → FInv U (H - holds (some f)) (s.setFd p fd (some f)) →
      Q (some fd) (s.setFd p fd (some f))) :
    wp (fdalloc p f) Q E s := by
  rw [fdalloc, wp_bind, wp_get]
  split
  · rename_i fd hfd
    have hnil : s.ofile p fd = none := by
      have := List.find?_some hfd
      exact of_decide_eq_true this
    rw [wp_bind, wp_setOfile, wp_pure]
    refine hsome fd hnil ?_
    have := h.setFd p fd (some f)
    rwa [hnil, show H + holds (none : Option (Fin nfile)) - holds (some f) = H - holds (some f) by
      funext g; simp] at this
  · rw [wp_pure]
    exact hnone

/-- The state after two files became the ends of a new pipe in the page `pi`. -/
def Files.newPipe (s : Files) (f0 f1 : Fin nfile) (pi : ℕ) (l : List ℕ) : Files :=
  { s with
    freelist := l
    pipes := pi :: s.pipes
    pipe := Function.update s.pipe pi { readopen := true, writeopen := true }
    file := Function.update (Function.update s.file f0
      { s.file f0 with type := .pipe, readable := true, writable := false, pipe := pi }) f1
      { s.file f1 with type := .pipe, readable := false, writable := true, pipe := pi } }

theorem FInv.newPipe (h : FInv U H s) (hU : U.Nodup) {f0 f1 : Fin nfile} (hne : f0 ≠ f1)
    (h0 : 0 < (s.file f0).ref) (h0t : (s.file f0).type = .none) (h1 : 0 < (s.file f1).ref)
    (h1t : (s.file f1).type = .none) {pi : ℕ} {l : List ℕ} (hl : s.freelist = pi :: l) :
    FInv U H (s.newPipe f0 f1 pi l) := by
  -- The page comes from the free list, so that no pipe lies in it.
  have hpi : pi ∉ s.pipes := by
    rw [← h.pages, hl, ← Multiset.cons_coe, Multiset.cons_add, Multiset.cons_add,
      Multiset.nodup_cons] at hU
    intro hmem
    exact hU.1 (Multiset.mem_add.2 (.inl (Multiset.mem_add.2 (.inr hmem))))
  have hf0 : (s.newPipe f0 f1 pi l).file f0 =
      { s.file f0 with type := .pipe, readable := true, writable := false, pipe := pi } := by
    simp [Files.newPipe, hne]
  have hf1 : (s.newPipe f0 f1 pi l).file f1 =
      { s.file f1 with type := .pipe, readable := false, writable := true, pipe := pi } := by
    simp [Files.newPipe]
  have hother : ∀ g, g ≠ f0 → g ≠ f1 → (s.newPipe f0 f1 pi l).file g = s.file g := fun g hg hg' => by
    simp [Files.newPipe, hg, hg']
  -- A file is one of the new ones or is as before.
  have hcases : ∀ g, g = f0 ∨ g = f1 ∨ (s.newPipe f0 f1 pi l).file g = s.file g := fun g => by
    by_cases hg : g = f0
    · exact .inl hg
    · by_cases hg' : g = f1
      · exact .inr (.inl hg')
      · exact .inr (.inr (hother g hg hg'))
  -- The two files are the ends of the new pipe; the old ends are as before.
  have hend : ∀ g q w, ((s.newPipe f0 f1 pi l).file g).IsEnd q w ↔
      (s.file g).IsEnd q w ∨ q = pi ∧ g = if w then f1 else f0 := by
    intro g q w
    have hold : ∀ x, x = f0 ∨ x = f1 → ¬(s.file x).IsEnd q w := by
      rintro x (rfl | rfl) hx
      · rw [hx.2.1] at h0t
        cases h0t
      · rw [hx.2.1] at h1t
        cases h1t
    rcases hcases g with rfl | rfl | hg
    · rw [hf0]
      simp only [hold g (.inl rfl), false_or]
      cases w with
      | false => simpa [File.IsEnd, h0] using eq_comm
      | true => simp [File.IsEnd, hne]
    · rw [hf1]
      simp only [hold g (.inr rfl), false_or]
      cases w with
      | false => simp [File.IsEnd, hne.symm]
      | true => simpa [File.IsEnd, h1] using eq_comm
    · by_cases hg0 : g = f0
      · rw [hg0, hf0] at hg
        have := congrArg File.type hg
        rw [h0t] at this
        cases this
      · by_cases hg1 : g = f1
        · rw [hg1, hf1] at hg
          have := congrArg File.type hg
          rw [h1t] at this
          cases this
        · rw [hg]
          cases w <;> simp [hg0, hg1]
  have href : ∀ g, ((s.newPipe f0 f1 pi l).file g).ref = (s.file g).ref := fun g => by
    rcases hcases g with rfl | rfl | hg
    · rw [hf0]
    · rw [hf1]
    · rw [hg]
  have hpipe : ∀ q, q ≠ pi → (s.newPipe f0 f1 pi l).pipe q = s.pipe q := fun q hq =>
    Function.update_of_ne hq ..
  have hnew : ∀ w, ((s.newPipe f0 f1 pi l).pipe pi).open w = true := fun w => by
    rw [show (s.newPipe f0 f1 pi l).pipe pi = { readopen := true, writeopen := true } from
      Function.update_self ..]
    cases w <;> rfl
  refine ⟨fun g => ?_, fun g => ?_, fun g hg => ?_, fun g hg ht => ?_, fun q hq w => ?_,
    fun g g' q w hg hg' => ?_, fun q hq => ?_, ?_, h.refreed⟩
  · rw [href]
    exact h.ref g
  · rw [href]
    exact h.nonneg g
  · rw [href] at hg
    rcases hcases g with rfl | rfl | hs
    · omega
    · omega
    · rw [hs]
      exact h.untyped g hg
  · rcases hcases g with rfl | rfl | hs
    · rw [hf0]
      exact ⟨List.mem_cons_self, rfl⟩
    · rw [hf1]
      exact ⟨List.mem_cons_self, rfl⟩
    · rw [hs] at hg ht ⊢
      obtain ⟨hmem, hrw⟩ := h.isEnd g hg ht
      exact ⟨List.mem_cons_of_mem _ hmem, hrw⟩
  · -- An end is open exactly if a file is for it.
    simp only [hend]
    by_cases hqp : q = pi
    · rw [hqp, hnew]
      exact ⟨fun _ => ⟨_, .inr ⟨rfl, rfl⟩⟩, fun _ => rfl⟩
    · have hqs : q ∈ s.pipes := (List.mem_cons.1 hq).resolve_left hqp
      rw [hpipe q hqp, h.ends q hqs w]
      simp [hqp]
  · -- No two files are the same end.
    rw [hend] at hg hg'
    have hold : ∀ x, (s.file x).IsEnd q w → q ≠ pi := fun x hx hq => by
      have := (h.isEnd x hx.1 hx.2.1).1
      rw [hx.2.2.1, hq] at this
      exact hpi this
    rcases hg with hg | ⟨hq, hg⟩
    · rcases hg' with hg' | ⟨hq, -⟩
      · exact h.once g g' q w hg hg'
      · exact absurd hq (hold g hg)
    · rcases hg' with hg' | ⟨-, hg'⟩
      · exact absurd hq (hold g' hg')
      · rw [hg, hg']
  · by_cases hqp : q = pi
    · rw [hqp]
      exact ⟨true, hnew true⟩
    · rw [hpipe q hqp]
      exact h.held q ((List.mem_cons.1 hq).resolve_left hqp)
  · rw [← h.pages, hl]
    simp only [Files.newPipe, ← Multiset.cons_coe, Multiset.cons_add, Multiset.add_cons]

/-! ## System calls -/

theorem wp_pipealloc {Q : Option (Fin nfile × Fin nfile) → Files → Prop} (h : FInv U 0 s)
    (hU : U.Nodup)
    (hnone : ∀ t, FInv U 0 t → t.ofile = s.ofile → t.live = s.live → Q none t)
    (hsome : ∀ f0 f1 t, FInv U (holds (some f0) + holds (some f1)) t → f0 ≠ f1 →
      t.ofile = s.ofile → t.live = s.live → Q (some (f0, f1)) t) :
    wp pipealloc Q E s := by
  rw [pipealloc, wp_bind]
  refine wp_filealloc h (by rw [wp_pure]; exact hnone s h rfl rfl) fun f0 s₁ h₁ hn0 => ?_
  rw [zero_add] at h₁
  rw [wp_bind]
  refine wp_filealloc h₁ ?_ fun f1 s₂ h₂ hn1 => ?_
  · -- No second file.
    rw [wp_bind]
    refine wp_fileclose h₁ hU (h₁.pos (by simp)) fun r t ht ho hl => ?_
    rw [wp_pure]
    rw [sub_self] at ht
    exact hnone t ht (ho.trans hn0.ofile) (hl.trans hn0.live)
  have hpos0 : 0 < (s₁.file f0).ref := h₁.pos (by simp)
  have hne : f0 ≠ f1 := by
    rintro rfl
    rw [hn1.free] at hpos0
    exact lt_irrefl 0 hpos0
  have ho₂ := hn1.ofile.trans hn0.ofile
  have hl₂ := hn1.live.trans hn0.live
  rw [wp_bind, wp_get]
  split
  · -- No page.
    rw [wp_bind]
    refine wp_fileclose h₂ hU (h₂.pos (by simp [holds_of_ne hne.symm])) fun r t ht ho hl => ?_
    rw [add_sub_cancel_left] at ht
    rw [wp_bind]
    refine wp_fileclose ht hU (ht.pos (by simp)) fun r' t' ht' ho' hl' => ?_
    rw [wp_pure]
    rw [sub_self] at ht'
    exact hnone t' ht' ((ho'.trans ho).trans ho₂) ((hl'.trans hl).trans hl₂)
  · rename_i pi l hfree
    have hnew := h₂.newPipe hU hne (h₂.pos (by simp [holds_of_ne hne.symm]))
      (by rw [hn1.other f0 hne]; exact hn0.type) (h₂.pos (by simp [holds_of_ne hne])) hn1.type hfree
    rw [wp_bind, wp_set, wp_bind, setFile, wp_modify, wp_bind, setFile, wp_modify, wp_pure]
    refine hsome f0 f1 _ ?_ hne ho₂ hl₂
    simp only [Function.update_of_ne hne.symm]
    exact hnew

theorem wp_sysDup {Q : Option (Fin nofile) → Files → Prop} {n : ℤ} (h : FInv U 0 s)
    (hok : ∀ r t, FInv U 0 t → (∀ q, q ≠ p → t.ofile q = s.ofile q) → t.live = s.live → Q r t) :
    wp (sysDup p n) Q E s := by
  rw [sysDup, wp_bind, wp_get]
  split
  · rw [wp_pure]
    exact hok _ s h (fun _ _ => rfl) rfl
  · rename_i fd f hfd
    have hpos := h.slots_le (argfd_eq_some hfd) le_rfl
    rw [wp_bind]
    refine wp_fdalloc h (by rw [wp_pure]; exact hok _ s h (fun _ _ => rfl) rfl) fun fd hnil h₁ => ?_
    rw [wp_bind]
    refine wp_filedup h₁ hpos fun h₂ => ?_
    rw [wp_pure]
    rw [zero_sub, neg_add_cancel] at h₂
    exact hok _ _ h₂ (fun q hq => Files.setFd_of_ne hq) rfl

theorem wp_sysClose {Q : Bool × Option ℕ → Files → Prop} {n : ℤ} (h : FInv U 0 s) (hU : U.Nodup)
    (hok : ∀ r t, FInv U 0 t → (∀ q, q ≠ p → t.ofile q = s.ofile q) → t.live = s.live → Q r t) :
    wp (sysClose p n) Q E s := by
  rw [sysClose, wp_bind, wp_get]
  split
  · rw [wp_pure]
    exact hok _ s h (fun _ _ => rfl) rfl
  · rename_i fd f hfd
    have hof := argfd_eq_some hfd
    have h₁ := h.setFd p fd none
    rw [hof, zero_add, show holds (some f) - holds (none : Option (Fin nfile)) = holds (some f) by
      funext g; simp] at h₁
    rw [wp_bind, wp_setOfile, wp_bind]
    refine wp_fileclose h₁ hU (h₁.pos (by simp)) fun r t ht ho hl => ?_
    rw [wp_pure]
    rw [sub_self] at ht
    exact hok _ t ht (fun q hq => (congrFun ho q).trans (Files.setFd_of_ne hq)) hl

/-- Both files of a pipe are closed again. -/
theorem wp_closeBoth {f0 f1 : Fin nfile}
    {Q : Option (Fin nofile × Fin nofile) → Files → Prop}
    (h : FInv U (holds (some f0) + holds (some f1)) s) (hU : U.Nodup) (hne : f0 ≠ f1)
    (hok : ∀ t, FInv U 0 t → t.ofile = s.ofile → t.live = s.live → Q none t) :
    wp (do
      let _ ← fileclose f0
      let _ ← fileclose f1
      pure none) Q E s := by
  rw [wp_bind]
  refine wp_fileclose h hU (h.pos (by simp [holds_of_ne hne.symm])) fun r t ht ho hl => ?_
  rw [add_sub_cancel_left] at ht
  rw [wp_bind]
  refine wp_fileclose ht hU (ht.pos (by simp)) fun r' t' ht' ho' hl' => ?_
  rw [wp_pure]
  rw [sub_self] at ht'
  exact hok t' ht' (ho'.trans ho) (hl'.trans hl)

/-- A descriptor is given up. -/
theorem FInv.clearFd (h : FInv U H s) (hfd : s.ofile p fd = some f) :
    FInv U (H + holds (some f)) (s.setFd p fd none) := by
  have := h.setFd p fd none
  rwa [hfd, show H + holds (some f) - holds (none : Option (Fin nfile)) = H + holds (some f) by
    funext g; simp] at this

theorem wp_sysPipe {Q : Option (Fin nofile × Fin nofile) → Files → Prop} {ok₀ ok₁ : Bool}
    (h : FInv U 0 s) (hU : U.Nodup)
    (hok : ∀ r t, FInv U 0 t → (∀ q, q ≠ p → t.ofile q = s.ofile q) → t.live = s.live → Q r t) :
    wp (sysPipe p ok₀ ok₁) Q E s := by
  rw [sysPipe, wp_bind]
  refine wp_pipealloc h hU (fun t ht ho hl => ?_) fun rf wf s₁ h₁ hne ho₁ hl₁ => ?_
  · rw [wp_pure]
    exact hok _ t ht (fun q _ => congrFun ho q) hl
  rw [wp_bind]
  refine wp_fdalloc h₁ ?_ fun fd0 hnil0 h₂ => ?_
  · refine wp_closeBoth h₁ hU hne fun t ht ho hl => ?_
    exact hok _ t ht (fun q _ => congrFun (ho.trans ho₁) q) (hl.trans hl₁)
  rw [add_sub_cancel_left] at h₂
  rw [wp_bind]
  -- Giving up the first descriptor.
  have hback0 : ∀ {t : Files} {K : Fin nfile → ℤ}, FInv U K t → t.ofile p fd0 = some rf →
      FInv U (K + holds (some rf)) (t.setFd p fd0 none) := fun ht hfd => ht.clearFd hfd
  refine wp_fdalloc h₂ ?_ fun fd1 hnil1 h₃ => ?_
  · rw [wp_bind, wp_setOfile]
    have h₂' := hback0 h₂ Files.setFd_self
    rw [add_comm] at h₂'
    refine wp_closeBoth h₂' hU hne fun t ht ho hl => hok _ t ht (fun q hq => ?_) (hl.trans hl₁)
    rw [ho, Files.setFd_of_ne hq, Files.setFd_of_ne hq, ho₁]
  rw [sub_self] at h₃
  have hfd : fd0 ≠ fd1 := by
    rintro rfl
    rw [Files.setFd_self] at hnil1
    cases hnil1
  dsimp only
  split
  · rw [wp_bind, wp_setOfile, wp_bind, wp_setOfile]
    have hfd0 : ((s₁.setFd p fd0 (some rf)).setFd p fd1 (some wf)).ofile p fd0 = some rf := by
      rw [Files.setFd_of_ne_fd hfd, Files.setFd_self]
    have h₄ := hback0 h₃ hfd0
    have h₅ := h₄.clearFd (p := p) (f := wf) (by
      rw [Files.setFd_of_ne_fd hfd.symm, Files.setFd_self] : _ = some wf)
    rw [zero_add] at h₅
    refine wp_closeBoth h₅ hU hne fun t ht ho hl => hok _ t ht (fun q hq => ?_) (hl.trans hl₁)
    rw [ho, Files.setFd_of_ne hq, Files.setFd_of_ne hq, Files.setFd_of_ne hq, Files.setFd_of_ne hq,
      ho₁]
  · rw [wp_pure]
    refine hok _ _ h₃ (fun q hq => ?_) hl₁
    rw [Files.setFd_of_ne hq, Files.setFd_of_ne hq, ho₁]

/-- A new file gets its type, which is no pipe. -/
theorem FInv.setType (h : FInv U H s) (hf : 0 < (s.file f).ref) (ht : (s.file f).type ≠ .pipe)
    {x : File} (hx : x.type ≠ .pipe) (hr : x.ref = (s.file f).ref) :
    FInv U H { s with file := Function.update s.file f x } := by
  refine h.update (hr ▸ hf.le) (fun h₀ => absurd (hr ▸ h₀) hf.ne') (fun pi w => ?_)
    (fun _ hp => absurd hp hx) fun g => ?_
  · simp [File.IsEnd, ht, hx]
  · rw [hr, sub_self, ite_self, add_zero]

theorem wp_sysOpen {Q : Option (Fin nofile) → Files → Prop} {node : Option OpenNode} {omode : ℕ}
    (h : FInv U 0 s) (hU : U.Nodup)
    (hok : ∀ r t, FInv U 0 t → (∀ q, q ≠ p → t.ofile q = s.ofile q) → t.live = s.live → Q r t) :
    wp (sysOpen p node omode) Q E s := by
  unfold sysOpen
  split
  · rw [wp_pure]
    exact hok _ s h (fun _ _ => rfl) rfl
  rename_i node
  rw [wp_bind]
  refine wp_filealloc h (by rw [wp_pure]; exact hok _ s h (fun _ _ => rfl) rfl)
    fun f s₁ h₁ hn => ?_
  rw [zero_add] at h₁
  rw [wp_bind]
  refine wp_fdalloc h₁ ?_ fun fd hnil h₂ => ?_
  · rw [wp_bind]
    refine wp_fileclose h₁ hU (h₁.pos (by simp)) fun r t ht ho hl => ?_
    rw [wp_pure]
    rw [sub_self] at ht
    exact hok _ t ht (fun q _ => congrFun (ho.trans hn.ofile) q) (hl.trans hn.live)
  rw [sub_self] at h₂
  have hpos : 0 < ((s₁.setFd p fd (some f)).file f).ref :=
    h₂.slots_le (p := p) (Files.setFd_self : _ = some f) le_rfl
  have hty : ((s₁.setFd p fd (some f)).file f).type ≠ .pipe := by
    change (s₁.file f).type ≠ .pipe
    rw [hn.type]
    exact FdType.noConfusion
  have hframe : ∀ q, q ≠ p → (s₁.setFd p fd (some f)).ofile q = s.ofile q := fun q hq => by
    rw [Files.setFd_of_ne hq, hn.ofile]
  rw [wp_bind]
  split <;> rw [setFile, wp_modify, wp_bind, setFile, wp_modify, wp_pure]
  · simp only [Function.update_self, Function.update_idem]
    exact hok _ _ (h₂.setType hpos hty FdType.noConfusion rfl) hframe hn.live
  · simp only [Function.update_self, Function.update_idem]
    exact hok _ _ (h₂.setType hpos hty FdType.noConfusion rfl) hframe hn.live

/-- The child gets the files of `p`, whose descriptors were free. -/
theorem wp_forkFiles {Q : PUnit → Files → Prop} (h : FInv U 0 s)
    (hnil : ∀ fd, s.ofile np fd = none)
    (hok : ∀ t, FInv U 0 t → (∀ q, q ≠ np → t.ofile q = s.ofile q) →
      t.live = Function.update s.live np true → Q ⟨⟩ t) :
    wp (forkFiles p np) Q E s := by
  rw [forkFiles, wp_bind]
  refine (wp_forM (fun l t => FInv U 0 t ∧ (∀ q, q ≠ np → t.ofile q = s.ofile q) ∧
    (∀ i ∈ l, t.ofile np i = none) ∧ t.live = s.live) ⟨h, fun _ _ => rfl, fun i _ => hnil i, rfl⟩
    fun i l t hs ht => ?_).mono (fun _ t ht => ?_) fun _ _ he => he
  · obtain ⟨hinv, ho, hn, hl⟩ := ht
    have hnd : (i :: l).Nodup := hs.sublist.nodup (List.nodup_finRange nofile)
    rw [wp_bind, wp_get]
    split
    · rename_i f hf
      rw [wp_bind]
      refine wp_filedup hinv (hinv.slots_le hf le_rfl) fun h₁ => ?_
      rw [wp_setOfile]
      have h₂ := h₁.setFd np i (some f)
      have hi : t.ofile np i = none := hn i List.mem_cons_self
      dsimp only at h₂
      rw [hi, zero_add, show holds (some f) + holds (none : Option (Fin nfile)) - holds (some f) = 0 by
        funext g; simp] at h₂
      refine ⟨h₂, fun q hq => ?_, fun j hj => ?_, hl⟩
      · rw [Files.setFd_of_ne hq]
        exact ho q hq
      · have hji : j ≠ i := by
          rintro rfl
          exact (List.nodup_cons.1 hnd).1 hj
        rw [Files.setFd_of_ne_fd hji]
        exact hn j (List.mem_cons_of_mem _ hj)
    · rw [wp_pure]
      exact ⟨hinv, ho, fun j hj => hn j (List.mem_cons_of_mem _ hj), hl⟩
  · obtain ⟨hinv, ho, -, hl⟩ := ht
    rw [wp_modify]
    refine hok _ ⟨hinv.ref, hinv.nonneg, hinv.untyped, hinv.isEnd, hinv.ends, hinv.once, hinv.held,
      hinv.pages, hinv.refreed⟩ ho ?_
    dsimp only
    rw [hl]

/-- The process that exits has no files any more. -/
theorem wp_exitFiles {Q : PUnit → Files → Prop} (h : FInv U 0 s) (hU : U.Nodup)
    (hok : ∀ t, FInv U 0 t → (∀ q, q ≠ p → t.ofile q = s.ofile q) → (∀ fd, t.ofile p fd = none) →
      t.live = Function.update s.live p false → Q ⟨⟩ t) :
    wp (exitFiles p) Q E s := by
  rw [exitFiles, wp_bind]
  refine (wp_forM (fun l t => FInv U 0 t ∧ (∀ q, q ≠ p → t.ofile q = s.ofile q) ∧
    (∀ i, i ∉ l → t.ofile p i = none) ∧ t.live = s.live)
    ⟨h, fun _ _ => rfl, fun i hi => absurd (List.mem_finRange i) hi, rfl⟩
    fun i l t hs ht => ?_).mono (fun _ t ht => ?_) fun _ _ he => he
  · obtain ⟨hinv, ho, hn, hl⟩ := ht
    rw [wp_bind, wp_get]
    split
    · rename_i f hf
      rw [wp_bind]
      refine wp_fileclose hinv hU (hinv.slots_le hf le_rfl) fun r t' ht' ho' hl' => ?_
      rw [wp_setOfile]
      have h₂ := ht'.clearFd (p := p) (f := f) (by rw [ho']; exact hf : t'.ofile p i = some f)
      rw [zero_sub, neg_add_cancel] at h₂
      refine ⟨h₂, fun q hq => ?_, fun j hj => ?_, hl'.trans hl⟩
      · rw [Files.setFd_of_ne hq, ho']
        exact ho q hq
      · by_cases hji : j = i
        · rw [hji, Files.setFd_self]
        · rw [Files.setFd_of_ne_fd hji, ho']
          exact hn j fun hc => (List.mem_cons.1 hc).elim hji hj
    · rename_i hf
      rw [wp_pure]
      refine ⟨hinv, ho, fun j hj => ?_, hl⟩
      by_cases hji : j = i
      · rw [hji]
        exact hf
      · exact hn j fun hc => (List.mem_cons.1 hc).elim hji hj
  · obtain ⟨hinv, ho, hn, hl⟩ := ht
    rw [wp_modify]
    refine hok _ ⟨hinv.ref, hinv.nonneg, hinv.untyped, hinv.isEnd, hinv.ends, hinv.once, hinv.held,
      hinv.pages, hinv.refreed⟩ ho (fun fd => hn fd (List.not_mem_nil)) ?_
    dsimp only
    rw [hl]

end

/-! ## The system -/

/-- What happens. A fork that fails, and an open that fails early, leave the files alone. -/
inductive FileAct
  | openFile (p : Fin nproc) (node : Option OpenNode) (omode : ℕ)
  | pipe (p : Fin nproc) (ok₀ ok₁ : Bool)
  | dup (p : Fin nproc) (fd : ℤ)
  | close (p : Fin nproc) (fd : ℤ)
  | fork (p np : Fin nproc) (ok : Bool)
  | exit (p : Fin nproc)
  /-- Another part of the kernel takes a page. -/
  | take
  /-- Another part of the kernel gives a page back. -/
  | give (pa : ℕ)

/-- The computation of a step. -/
def FileAct.run : FileAct → FilesM PUnit
  | .openFile p node omode => do
    let _ ← sysOpen p node omode
  | .pipe p ok₀ ok₁ => do
    let _ ← sysPipe p ok₀ ok₁
  | .dup p fd => do
    let _ ← sysDup p fd
  | .close p fd => do
    let _ ← sysClose p fd
  | .fork p np ok => if ok then forkFiles p np else pure ⟨⟩
  | .exit p => exitFiles p
  | .take => modify fun s =>
    match s.freelist with
    | [] => s
    | pa :: l => { s with freelist := l, others := pa :: s.others }
  | .give pa => modify fun s =>
    { s with freelist := pa :: s.freelist, others := s.others.erase pa }

/-- When a step can be taken. -/
def FileAct.Enabled (s : Files) : FileAct → Prop
  | .openFile p _ _ | .pipe p _ _ | .dup p _ | .close p _ | .exit p => s.live p = true
  | .fork p np _ => s.live p = true ∧ s.live np = false
  | .take => True
  | .give pa => pa ∈ s.others

instance FileAct.decidableEnabled (s : Files) (a : FileAct) : Decidable (a.Enabled s) := by
  cases a <;> unfold FileAct.Enabled <;> infer_instance

/-- The files, and the panic that has stopped the kernel. -/
structure FileTable where
  files : Files
  panic : Option FilePanic

/-- The state after a step. -/
def FileTable.next (m : FileTable) (a : FileAct) : FileTable :=
  match a.run m.files with
  | .ok _ t => ⟨t, none⟩
  | .error e t => ⟨t, some e⟩

/-- No file is in use, and the pages are free. -/
structure Files.Initial (s : Files) : Prop where
  ref : ∀ f, (s.file f).ref = 0
  type : ∀ f, (s.file f).type = .none
  ofile : ∀ p fd, s.ofile p fd = none
  freelist : s.freelist.Nodup
  pipes : s.pipes = []
  others : s.others = []
  refreed : s.refreed = false

/-- The system of all processes with files. -/
def fileSystem : System FileTable FileAct where
  init := {m | m.files.Initial ∧ m.panic = none}
  step m a m' := m.panic = none ∧ a.Enabled m.files ∧ m' = m.next a

/-- Take a step, if it can be taken. -/
def FileTable.exec (m : FileTable) (a : FileAct) : Option FileTable :=
  if m.panic = none ∧ a.Enabled m.files then some (m.next a) else none

theorem FileTable.exec_sound (m : FileTable) (a : FileAct) (m' : FileTable)
    (h : m.exec a = some m') : fileSystem.step m a m' := by
  rw [FileTable.exec, Option.ite_none_right_eq_some] at h
  exact ⟨h.1.1, h.1.2, (Option.some.inj h.2).symm⟩

/-- The invariant when no call is in progress: processes that make no calls have no files. -/
structure FilesInv (U : Multiset ℕ) (s : Files) : Prop where
  inv : FInv U 0 s
  dead : ∀ p, s.live p = false → ∀ fd, s.ofile p fd = none

section

variable {U : Multiset ℕ} {s t : Files} {p np : Fin nproc}

theorem FilesInv.of_frame (h : FilesInv U s) (ht : FInv U 0 t) (hp : s.live p = true)
    (ho : ∀ q, q ≠ p → t.ofile q = s.ofile q) (hl : t.live = s.live) : FilesInv U t := by
  refine ⟨ht, fun q hq fd => ?_⟩
  rw [hl] at hq
  have hqp : q ≠ p := by
    rintro rfl
    rw [hp] at hq
    cases hq
  rw [ho q hqp]
  exact h.dead q hq fd

/-- A step keeps the invariant, and does not panic. -/
theorem wp_fileAct {a : FileAct} (h : FilesInv U s) (hU : U.Nodup) (ha : a.Enabled s) :
    wp a.run (fun _ t => FilesInv U t) (fun _ _ => False) s := by
  cases a with
  | openFile p node omode =>
    rw [FileAct.run, wp_bind]
    exact wp_sysOpen h.inv hU fun r t ht ho hl => h.of_frame ht ha ho hl
  | pipe p ok₀ ok₁ =>
    rw [FileAct.run, wp_bind]
    exact wp_sysPipe h.inv hU fun r t ht ho hl => h.of_frame ht ha ho hl
  | dup p fd =>
    rw [FileAct.run, wp_bind]
    exact wp_sysDup h.inv fun r t ht ho hl => h.of_frame ht ha ho hl
  | close p fd =>
    rw [FileAct.run, wp_bind]
    exact wp_sysClose h.inv hU fun r t ht ho hl => h.of_frame ht ha ho hl
  | fork p np ok =>
    obtain ⟨hp, hnp⟩ := ha
    rw [FileAct.run]
    split
    · refine wp_forkFiles h.inv (h.dead np hnp) fun t ht ho hl => ⟨ht, fun q hq fd => ?_⟩
      rw [hl] at hq
      have hqn : q ≠ np := by
        rintro rfl
        rw [Function.update_self] at hq
        cases hq
      rw [Function.update_of_ne hqn] at hq
      rw [ho q hqn]
      exact h.dead q hq fd
    · exact h
  | exit p =>
    refine wp_exitFiles h.inv hU fun t ht ho hn hl => ⟨ht, fun q hq fd => ?_⟩
    by_cases hqp : q = p
    · rw [hqp]
      exact hn fd
    · rw [hl, Function.update_of_ne hqp] at hq
      rw [ho q hqp]
      exact h.dead q hq fd
  | take =>
    rw [FileAct.run, wp_modify]
    split
    · exact h
    · rename_i pa l hl
      have hi := h.inv
      refine ⟨⟨hi.ref, hi.nonneg, hi.untyped, hi.isEnd, hi.ends, hi.once, hi.held, ?_, hi.refreed⟩,
        h.dead⟩
      rw [← hi.pages, hl]
      simp only [← Multiset.cons_coe, Multiset.cons_add, Multiset.add_cons]
  | give pa =>
    rw [FileAct.run, wp_modify]
    have hi := h.inv
    refine ⟨⟨hi.ref, hi.nonneg, hi.untyped, hi.isEnd, hi.ends, hi.once, hi.held, ?_, hi.refreed⟩,
      h.dead⟩
    have hpa : pa ∈ s.others := ha
    rw [← hi.pages, ← Multiset.cons_coe, ← Multiset.coe_erase]
    conv_rhs => rw [← Multiset.cons_erase (Multiset.mem_coe.2 hpa)]
    rw [Multiset.cons_add, Multiset.cons_add, Multiset.add_cons]

theorem Files.Initial.inv (h : s.Initial) : FilesInv (s.freelist : Multiset ℕ) s := by
  refine ⟨⟨fun f => ?_, fun f => ?_, fun f _ => h.type f, fun f hf => ?_, fun pi hpi => ?_,
    fun f g pi w hf => ?_, fun pi hpi => ?_, ?_, h.refreed⟩, fun p _ fd => h.ofile p fd⟩
  · have : s.slots f = 0 := refs_eq_zero fun x => by rw [h.ofile]; exact Option.some_ne_none f ∘ Eq.symm
    rw [h.ref, this]
    rfl
  · rw [h.ref]
  · rw [h.ref] at hf
    exact absurd hf (lt_irrefl 0)
  · rw [h.pipes] at hpi
    cases hpi
  · have := hf.1
    rw [h.ref] at this
    exact absurd this (lt_irrefl 0)
  · rw [h.pipes] at hpi
    cases hpi
  · rw [h.pipes, h.others]
    simp

end

/-- The files and pipes when no call is in progress; `U` are the pages in all. -/
structure Lifetime (U : List ℕ) (s : Files) : Prop where
  ref : ∀ f, (s.file f).ref = s.slots f
  untyped : ∀ f, (s.file f).ref = 0 → (s.file f).type = .none
  /-- A page is held for a pipe as long as a file in use is an end of it. -/
  held : ∀ pi, pi ∈ s.pipes ↔ ∃ f, 0 < (s.file f).ref ∧ (s.file f).type = .pipe ∧
    (s.file f).pipe = pi
  readopen : ∀ pi ∈ s.pipes, (s.pipe pi).readopen = true ↔ ∃ f, 0 < (s.file f).ref ∧
    (s.file f).type = .pipe ∧ (s.file f).pipe = pi ∧ (s.file f).readable = true
  writeopen : ∀ pi ∈ s.pipes, (s.pipe pi).writeopen = true ↔ ∃ f, 0 < (s.file f).ref ∧
    (s.file f).type = .pipe ∧ (s.file f).pipe = pi ∧ (s.file f).writable = true
  /-- No page is given back twice, and every page is in one place. -/
  refreed : s.refreed = false
  pages : (s.freelist ++ s.pipes ++ s.others).Nodup ∧
    (s.freelist ++ s.pipes ++ s.others).Perm U

theorem FilesInv.lifetime {U : List ℕ} {s : Files} (h : FilesInv U s) (hU : U.Nodup) :
    Lifetime U s := by
  have hi := h.inv
  have hperm : (s.freelist ++ s.pipes ++ s.others).Perm U := Multiset.coe_eq_coe.1 (by
    rw [← Multiset.coe_add, ← Multiset.coe_add]
    exact hi.pages)
  have hends : ∀ pi ∈ s.pipes, ∀ w, (s.pipe pi).open w = true ↔ ∃ f, 0 < (s.file f).ref ∧
      (s.file f).type = .pipe ∧ (s.file f).pipe = pi ∧ (s.file f).writable = w := by
    intro pi hpi w
    rw [hi.ends pi hpi w]
    refine exists_congr fun f => ⟨fun hf => ⟨hf.1, hf.2.1, hf.2.2.1, hf.2.2.2.1⟩, fun hf => ?_⟩
    obtain ⟨hf, ht, hp, hw⟩ := hf
    exact ⟨hf, ht, hp, hw, by rw [(hi.isEnd f hf ht).2, hw]⟩
  refine ⟨fun f => by rw [hi.ref, Pi.zero_apply, add_zero], hi.untyped, fun pi => ⟨fun hpi => ?_, ?_⟩,
    fun pi hpi => ?_, fun pi hpi => hends pi hpi true, hi.refreed, hperm.nodup_iff.2 hU, hperm⟩
  · obtain ⟨w, hw⟩ := hi.held pi hpi
    obtain ⟨f, hf, ht, hp, -⟩ := (hends pi hpi w).1 hw
    exact ⟨f, hf, ht, hp⟩
  · rintro ⟨f, hf, ht, rfl⟩
    exact (hi.isEnd f hf ht).1
  · rw [show (s.pipe pi).readopen = (s.pipe pi).open false from rfl, hends pi hpi false]
    refine exists_congr fun f => ?_
    refine and_congr_right fun hf => and_congr_right fun ht => and_congr_right fun _ => ?_
    rw [(hi.isEnd f hf ht).2]
    simp

/-- **The lifetime of files and pipes.** Whenever no call is in progress. -/
theorem files_lifetime {m₀ : FileTable} {tr : List (FileAct × FileTable)}
    (h₀ : m₀ ∈ fileSystem.init) (h : fileSystem.Run m₀ tr) :
    System.Throughout (fun m => m.panic = none ∧ Lifetime m₀.files.freelist m.files) m₀ tr := by
  have hU : (m₀.files.freelist : Multiset ℕ).Nodup := Multiset.coe_nodup.2 h₀.1.freelist
  refine h.throughout (C := fun _ _ => True)
    (Q := fun m => m.panic = none ∧ FilesInv m₀.files.freelist m.files) ⟨h₀.2, h₀.1.inv⟩
    (fun m a m' hm hstep _ => ?_) (fun m hm => ⟨hm.1, hm.2.lifetime h₀.1.freelist⟩)
    (System.along_of_forall (fun _ _ => trivial) _ _)
  obtain ⟨-, ha, rfl⟩ := hstep
  obtain ⟨r, t, hrun, ht⟩ := (wp_fileAct hm.2 hU ha).exists_ok
  rw [FileTable.next, hrun]
  exact ⟨rfl, ht⟩

/-- One process, no files, and two pages. -/
def freshFiles : FileTable where
  files :=
    { file := fun _ => ⟨.none, 0, false, false, 0, 0, 0, 0⟩
      ofile := fun _ _ => none
      live := fun p => p = 0
      pipe := fun _ => ⟨false, false⟩
      freelist := [4096, 8192]
      pipes := []
      others := []
      refreed := false }
  panic := none

theorem freshFiles_mem_init : freshFiles ∈ fileSystem.init where
  left :=
    { ref := fun _ => rfl
      type := fun _ => rfl
      ofile := fun _ _ => rfl
      freelist := by decide
      pipes := rfl
      others := rfl
      refreed := rfl }
  right := rfl

/-- A process makes a pipe and forks, it exits, and the child closes both ends. -/
theorem files_lifetime_pipe : ∃ tr, fileSystem.Run freshFiles tr ∧
    (System.last freshFiles tr).files.freelist = [4096, 8192] ∧
    System.Throughout (fun m => m.panic = none ∧ Lifetime freshFiles.files.freelist m.files)
      freshFiles tr := by
  obtain ⟨tr, hrun, hP⟩ := System.exists_run FileTable.exec_sound freshFiles
    [.pipe 0 true true, .fork 0 1 true, .exit 0, .close 1 0, .close 1 1]
    (fun tr => (System.last freshFiles tr).files.freelist = [4096, 8192])
    (by decide)
  exact ⟨tr, hrun, of_decide_eq_true hP, files_lifetime freshFiles_mem_init hrun⟩

end Xv6
