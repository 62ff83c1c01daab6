import Xv6.Sys.Calls

/-!
# The invariant of files and inodes

The reference count of an inode is the number of open files and of processes that have it, and an
open file that can be written is no directory. In the middle of a call the counts may be ahead of
the files and processes; the invariant `SysInv` says by how much, for each file and for each inode.
There is one lemma for each kind of step: of the file system, of the open files, and of the current
directories.
-/

namespace Xv6

namespace Sys

/-- The inodes that open files have. -/
def ips (s : Sys) (f : Fin nfile) : Option (Fin ninode) :=
  (s.files.node f).map fun n => entryOf n.ip

end Sys

/-- The inodes that are referenced before and after are the same, of the same types. -/
def SameNodes (sb : Superblock) (s t : Fs) : Prop :=
  ∀ ip, 0 < (s.inode ip).ref → 0 < (t.inode ip).ref → (t.inode ip).inum = (s.inode ip).inum ∧
    (Disk.dinode sb t.disk (s.inode ip).inum).type = (Disk.dinode sb s.disk (s.inode ip).inum).type

/-- References were only taken. -/
structure Gained (sb : Superblock) (s t : Fs) : Prop where
  same : SameNodes sb s t
  mono : ∀ ip, 0 < (s.inode ip).ref → 0 < (t.inode ip).ref

/-- References were only given back, and inodes without links may have been freed. -/
structure GaveBack (sb : Superblock) (s t : Fs) : Prop where
  same : SameNodes sb s t
  mono : ∀ ip, 0 < (t.inode ip).ref → 0 < (s.inode ip).ref
  evolves : ∀ strict, s.Evolves sb strict t

/-- The invariant: the count of a file is `H` ahead of the descriptors that have it, and that of
    an inode is `G` ahead of the files and processes. -/
structure SysInv (sb : Superblock) (lost : Set ℕ) (U : Multiset ℕ) (H : Fin nfile → ℤ)
    (G : Fin ninode → ℤ) (s : Sys) : Prop where
  fs : s.fs.WellFormed sb lost
  files : FInv U H s.files
  ref : ∀ ip, ((s.fs.inode ip).ref : ℤ) = refs s.ips ip + refs s.cwd ip + G ip
  small : ∀ f n, s.files.node f = some n → n.ip < ninode
  typed : ∀ f n, s.files.node f = some n → n.device = false → n.writable = true →
    (Disk.dinode sb s.fs.disk (s.fs.inode (Sys.entryOf n.ip)).inum).type ≠ Fs.tDir

/-- The code stops at panics of the file system only. -/
def FsOnly (e : SysPanic) (_ : Sys) : Prop := ∃ e', e = .fs e'

variable {sb : Superblock} {lost : Set ℕ} {U : Multiset ℕ} {H H' : Fin nfile → ℤ}
  {G G' : Fin ninode → ℤ} {s t u : Sys} {p q np : Fin nproc} {f : Fin nfile} {fd : Fin nofile}
  {ip : Fin ninode} {x y z : Fs} {parent : Option ℕ} {E : SysPanic → Sys → Prop} {α : Type}

/-! ## Computations on both parts -/

theorem wp_liftFs {m : FsM α} {Q : α → Sys → Prop} : wp (Sys.liftFs m) Q E s ↔
    wp m (fun a fs => Q a { s with fs }) (fun e fs => E (.fs e) { s with fs }) s.fs := by
  rw [wp, wp, Sys.liftFs]
  cases m s.fs <;> rfl

theorem wp_liftFiles {m : FilesM α} {Q : α → Sys → Prop} : wp (Sys.liftFiles m) Q E s ↔
    wp m (fun a files => Q a { s with files }) (fun e files => E (.file e) { s with files })
      s.files := by
  rw [wp, wp, Sys.liftFiles]
  cases m s.files <;> rfl

/-- A computation on the file system. -/
theorem wp_liftFs_of {m : FsM α} {Q : α → Sys → Prop} {E' : FsPanic → Fs → Prop}
    {P : α → Fs → Prop} (hm : wp m P E' s.fs) (hQ : ∀ a x, P a x → Q a { s with fs := x }) :
    wp (Sys.liftFs m) Q FsOnly s :=
  wp_liftFs.2 (hm.mono hQ fun e _ _ => ⟨e, rfl⟩)

theorem entryOf_val (ip : Fin ninode) : Sys.entryOf ip.val = ip :=
  Fin.ext (Nat.mod_eq_of_lt ip.isLt)

/-! ## Taking and giving back -/

theorem SameNodes.refl (sb : Superblock) (x : Fs) : SameNodes sb x x := fun _ _ _ => ⟨rfl, rfl⟩

/-- What is referenced in between is referenced at both ends of the first part. -/
theorem SameNodes.trans (h : SameNodes sb x y) (h' : SameNodes sb y z)
    (hmid : ∀ ip, 0 < (x.inode ip).ref → 0 < (z.inode ip).ref → 0 < (y.inode ip).ref) :
    SameNodes sb x z := fun ip hx hz => by
  have hy := hmid ip hx hz
  obtain ⟨hi, ht⟩ := h ip hx hy
  obtain ⟨hi', ht'⟩ := h' ip hy hz
  rw [hi] at hi' ht'
  exact ⟨hi', ht'.trans ht⟩

theorem Gained.sameNodes_trans (h : Gained sb x y) (h' : SameNodes sb y z) : SameNodes sb x z :=
  h.same.trans h' fun ip hx _ => h.mono ip hx

theorem SameNodes.trans_gaveBack (h : SameNodes sb x y) (h' : GaveBack sb y z) :
    SameNodes sb x z := h.trans h'.same fun ip _ hz => h'.mono ip hz

theorem GaveBack.refl (sb : Superblock) (x : Fs) : GaveBack sb x x :=
  ⟨.refl sb x, fun _ h => h, .refl sb x⟩

theorem GaveBack.trans (h : GaveBack sb x y) (h' : GaveBack sb y z) : GaveBack sb x z :=
  ⟨h.same.trans_gaveBack h', fun ip hz => h.mono ip (h'.mono ip hz),
    fun strict => (h.evolves strict).trans (h'.evolves strict)⟩

theorem Fs.Kept.gained {h : Multiset (Fin ninode)} (hk : Fs.Kept sb lost parent x h y) :
    Gained sb x y where
  same ip hx _ := ⟨hk.refs.inum ip hx, hk.refs.type ip hx⟩
  mono ip hx := by
    rw [hk.refs.ref]
    exact Nat.add_pos_left hx _

theorem Fs.Released.sameNodes (hr : Fs.Released sb ip x y) : SameNodes sb x y :=
  fun jp _ hy => ⟨hr.inum jp hy, hr.type jp hy⟩

theorem Fs.Released.gaveBack (hr : Fs.Released sb ip x y) {i : ℕ} (hp : x.Put sb i y) :
    GaveBack sb x y where
  same := hr.sameNodes
  mono jp hy := by
    rw [hr.ref] at hy
    exact hy.trans_le (Nat.sub_le _ _)
  evolves _ := hp.evolves

/-- The count of a reference that was given back. -/
theorem Fs.Released.ref_cast (hr : Fs.Released sb ip x y) (href : 0 < (x.inode ip).ref)
    (jp : Fin ninode) : ((y.inode jp).ref : ℤ) = (x.inode jp).ref - holds (some ip) jp := by
  rw [hr.ref]
  by_cases hj : jp = ip
  · subst hj
    rw [if_pos rfl, holds_self]
    omega
  · rw [if_neg hj, holds_of_ne fun h => hj h.symm]
    omega

theorem Fs.Refs.ref_cast (hr : Fs.Refs sb x {ip} y) (jp : Fin ninode) :
    ((y.inode jp).ref : ℤ) = (x.inode jp).ref + holds (some ip) jp := by
  rw [hr.ref, Multiset.count_singleton]
  by_cases hj : jp = ip
  · subst hj
    rw [if_pos rfl, holds_self]
    rfl
  · rw [if_neg hj, holds_of_ne fun h => hj h.symm]
    rfl

/-! ## The invariant -/

theorem Sys.ips_eq_some {n : FileNode} (h : s.files.node f = some n) :
    s.ips f = some (Sys.entryOf n.ip) := by
  rw [Sys.ips, h]
  rfl

/-- An inode that a file has is referenced. -/
theorem SysInv.pos (h : SysInv sb lost U H G s) (hG : 0 ≤ G) {n : FileNode}
    (hn : s.files.node f = some n) : 0 < (s.fs.inode (Sys.entryOf n.ip)).ref := by
  have h₁ := h.ref (Sys.entryOf n.ip)
  have h₂ := refs_pos (Sys.ips_eq_some hn)
  have h₃ := refs_nonneg s.cwd (Sys.entryOf n.ip)
  have h₄ : 0 ≤ G (Sys.entryOf n.ip) := hG _
  omega

/-- The current directory is referenced. -/
theorem SysInv.cwd_pos (h : SysInv sb lost U H G s) (hG : 0 ≤ G) (hcwd : s.cwd p = some ip) :
    0 < (s.fs.inode ip).ref := by
  have h₁ := h.ref ip
  have h₂ := refs_pos hcwd
  have h₃ := refs_nonneg s.ips ip
  have h₄ : 0 ≤ G ip := hG _
  omega

/-- So is an inode that the call has. -/
theorem SysInv.held_pos (h : SysInv sb lost U H G s) (hG : 1 ≤ G ip) :
    0 < (s.fs.inode ip).ref := by
  have h₁ := h.ref ip
  have h₂ := refs_nonneg s.cwd ip
  have h₃ := refs_nonneg s.ips ip
  omega

/-- The file system does a step. -/
theorem SysInv.setFs (h : SysInv sb lost U H G s) (hG : 0 ≤ G) (hw : x.WellFormed sb lost)
    (hsame : SameNodes sb s.fs x)
    (href : ∀ ip, ((x.inode ip).ref : ℤ) = (s.fs.inode ip).ref + (G' ip - G ip))
    (hG' : 0 ≤ G') : SysInv sb lost U H G' { s with fs := x } := by
  have hrefs : ∀ ip, ((x.inode ip).ref : ℤ) = refs s.ips ip + refs s.cwd ip + G' ip :=
    fun ip => by rw [href, h.ref]; omega
  refine ⟨hw, h.files, hrefs, h.small, fun f n hn hd hwr => ?_⟩
  have hpos : 0 < (x.inode (Sys.entryOf n.ip)).ref := by
    have h₁ := hrefs (Sys.entryOf n.ip)
    have h₂ : 1 ≤ refs s.ips (Sys.entryOf n.ip) := refs_pos (Sys.ips_eq_some hn)
    have h₃ := refs_nonneg s.cwd (Sys.entryOf n.ip)
    have h₄ : 0 ≤ G' (Sys.entryOf n.ip) := hG' _
    omega
  obtain ⟨hi, ht⟩ := hsame _ (h.pos hG hn) hpos
  rw [hi, ht]
  exact h.typed f n hn hd hwr

/-- A call on the file system that keeps the references. -/
theorem SysInv.kept (h : SysInv sb lost U H G s) (hG : 0 ≤ G)
    (hk : Fs.Kept sb lost parent s.fs 0 x) : SysInv sb lost U H G { s with fs := x } :=
  h.setFs hG hk.wellFormed hk.gained.same (fun ip => by rw [hk.refs.ref_eq]; omega) hG

/-- The call takes a reference. -/
theorem SysInv.gain (h : SysInv sb lost U H G s) (hG : 0 ≤ G)
    (hk : Fs.Kept sb lost parent s.fs {ip} x) :
    SysInv sb lost U H (G + holds (some ip)) { s with fs := x } :=
  h.setFs hG hk.wellFormed hk.gained.same
    (fun jp => by rw [hk.refs.ref_cast, Pi.add_apply]; omega)
    (add_nonneg hG fun _ => holds_nonneg _ _)

/-- The call gives a reference back. -/
theorem SysInv.release (h : SysInv sb lost U H (G + holds (some ip)) s) (hG : 0 ≤ G)
    (hw : x.WellFormed sb lost) (hr : Fs.Released sb ip s.fs x) :
    SysInv sb lost U H G { s with fs := x } := by
  refine h.setFs (add_nonneg hG fun _ => holds_nonneg _ _) hw hr.sameNodes (fun jp => ?_) hG
  rw [hr.ref_cast (h.held_pos ?_), Pi.add_apply]
  · omega
  · have : 0 ≤ G ip := hG ip
    rw [Pi.add_apply, holds_self]
    omega

/-- The files do a step that does not concern inodes. -/
theorem SysInv.setFiles (h : SysInv sb lost U H G s) {y : Files} (hf : FInv U H' y)
    (hn : y.node = s.files.node) : SysInv sb lost U H' G { s with files := y } := by
  have hips : ({ s with files := y } : Sys).ips = s.ips := by
    funext f
    rw [Sys.ips, hn, Sys.ips]
  refine ⟨h.fs, hf, fun ip => ?_, fun f n => ?_, fun f n => ?_⟩
  · rw [hips]
    exact h.ref ip
  · rw [hn]
    exact h.small f n
  · rw [hn]
    exact h.typed f n

theorem Sys.ips_update {y : Files} {o : Option FileNode}
    (hn : y.node = Function.update s.files.node f o) : ({ s with files := y } : Sys).ips =
      Function.update s.ips f (o.map fun n => Sys.entryOf n.ip) := by
  funext g
  rw [Sys.ips, hn]
  by_cases hg : g = f
  · rw [hg, Function.update_self, Function.update_self]
  · rw [Function.update_of_ne hg, Function.update_of_ne hg, Sys.ips]

/-- A file gives its inode to the call. -/
theorem SysInv.dropFile (h : SysInv sb lost U H G s) {y : Files} (hf : FInv U H' y)
    {n : FileNode} (hnode : s.files.node f = some n)
    (hn : y.node = Function.update s.files.node f none) :
    SysInv sb lost U H' (G + holds (some (Sys.entryOf n.ip))) { s with files := y } := by
  have hother : ∀ {g : Fin nfile} {m : FileNode}, y.node g = some m → s.files.node g = some m :=
    fun {g m} hg => by
      rw [hn] at hg
      by_cases hgf : g = f
      · rw [hgf, Function.update_self] at hg
        cases hg
      · rwa [Function.update_of_ne hgf] at hg
  refine ⟨h.fs, hf, fun ip => ?_, fun g m hg => h.small g m (hother hg),
    fun g m hg => h.typed g m (hother hg)⟩
  rw [Sys.ips_update hn, refs_update, Sys.ips_eq_some hnode, Pi.add_apply, Option.map_none,
    holds_none, h.ref]
  dsimp only
  omega

/-- A new file takes the inode of the call. -/
theorem SysInv.newFile (h : SysInv sb lost U H (G + holds (some ip)) s) {y : Files}
    (hf : FInv U H' y) {n : FileNode} (hnode : s.files.node f = none)
    (hn : y.node = Function.update s.files.node f (some n)) (hip : n.ip = ip.val)
    (htyped : n.device = false → n.writable = true →
      (Disk.dinode sb s.fs.disk (s.fs.inode ip).inum).type ≠ Fs.tDir) :
    SysInv sb lost U H' G { s with files := y } := by
  have hentry : Sys.entryOf n.ip = ip := by rw [hip, entryOf_val]
  have hcases : ∀ {g : Fin nfile} {m : FileNode}, y.node g = some m →
      m = n ∨ s.files.node g = some m := fun {g m} hg => by
    rw [hn] at hg
    by_cases hgf : g = f
    · rw [hgf, Function.update_self] at hg
      exact .inl (Option.some.inj hg).symm
    · rw [Function.update_of_ne hgf] at hg
      exact .inr hg
  refine ⟨h.fs, hf, fun jp => ?_, fun g m hg => ?_, fun g m hg => ?_⟩
  · have hips : s.ips f = none := by rw [Sys.ips, hnode]; rfl
    rw [Sys.ips_update hn, refs_update, hips, holds_none, Option.map_some, hentry, h.ref,
      Pi.add_apply]
    dsimp only
    omega
  · obtain rfl | hg := hcases hg
    · rw [hip]
      exact ip.isLt
    · exact h.small g m hg
  · obtain rfl | hg := hcases hg
    · rw [hentry]
      exact htyped
    · exact h.typed g m hg

/-- The current directory of a process changes. -/
theorem SysInv.setCwd (h : SysInv sb lost U H G s) {o : Option (Fin ninode)}
    (hG : ∀ ip, G' ip = G ip + holds (s.cwd p) ip - holds o ip) :
    SysInv sb lost U H G' { s with cwd := Function.update s.cwd p o } := by
  refine ⟨h.fs, h.files, fun ip => ?_, h.small, h.typed⟩
  rw [h.ref, refs_update, hG]
  change _ = refs s.ips ip + _ + _
  omega

end Xv6
