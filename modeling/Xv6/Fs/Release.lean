import Xv6.Fs.Enter

/-!
# Allocating and releasing inodes

`ialloc` takes a free inode (`Fresh`), and `iput` gives a reference back (`Released`): with the last
reference to an inode without links, the inode is freed. Both keep the file system well formed,
`ialloc` once the inode is locked.
-/

namespace Xv6

namespace Fs

/-- The free inode `inum` was allocated and locked, as the entry `ip`. -/
structure Fresh (sb : Superblock) (lost : Set ℕ) (type : Int16) (s : Fs) (inum : ℕ)
    (ip : Fin ninode) (t : Fs) : Prop where
  wellFormed : t.WellFormed sb lost
  refs : Refs sb s {ip} t
  pos : 1 ≤ inum
  lt : inum < sb.ninodes
  free : (Disk.dinode sb s.disk inum).type = 0
  unused : (s.inode ip).ref = 0
  inode : t.inode ip = ⟨inum, 1, true, Dinode.new type⟩
  frame : ∀ jp, jp ≠ ip → t.inode jp = s.inode jp
  others : Others sb inum s t
  dinode : Disk.dinode sb t.disk inum = Dinode.new type
  stores : t.stores sb = s.stores sb

/-- A reference to the inode `ip` was given back, and the other ones are as before. -/
structure Released (sb : Superblock) (ip : Fin ninode) (s t : Fs) : Prop where
  ref : ∀ jp, (t.inode jp).ref = (s.inode jp).ref - if jp = ip then 1 else 0
  inum : ∀ jp, 0 < (t.inode jp).ref → (t.inode jp).inum = (s.inode jp).inum
  valid : ∀ jp, 0 < (t.inode jp).ref → (s.inode jp).valid = true → (t.inode jp).valid = true
  type : ∀ jp, 0 < (t.inode jp).ref → (Disk.dinode sb t.disk (s.inode jp).inum).type =
    (Disk.dinode sb s.disk (s.inode jp).inum).type

variable {sb : Superblock} {s t u : Fs} {ip dp : Fin ninode} {i j k inum tot : ℕ} {lost : Set ℕ}
  {h : Multiset (Fin ninode)} {name : List UInt8} {type : Int16} {E : FsPanic → Fs → Prop}

/-- What `ialloc` returns, once it is locked. -/
theorem Alloc.fresh (hw : s.WellFormed sb lost) (htype : type ≠ 0)
    (ha : Alloc sb lost type s inum ip t) (hok : u.Ok sb lost) (hdisk : u.disk = t.disk)
    (hframe : ∀ jp, jp ≠ ip → u.inode jp = t.inode jp)
    (hself : u.inode ip = { t.inode ip with
      d := Disk.dinode sb t.disk (t.inode ip).inum, valid := true }) :
    Fresh sb lost type s inum ip u := by
  obtain ⟨v, hsw, hinode, hg⟩ := ha.got
  have hdv : u.disk = v.disk := hdisk.trans hg.disk
  have hfresh : Disk.dinode sb u.disk inum = Dinode.new type := by
    rw [hdv, hsw.dinode inum ha.inum_lt, if_pos rfl]
  have hothers : Others sb inum s u := hsw.others.trans (.of_disk hdv)
  -- No entry is for the inode, as it was free.
  have hno : ∀ jp, 0 < (s.inode jp).ref → (s.inode jp).inum ≠ inum := by
    rintro jp hjp rfl
    exact hw.held jp hjp ha.free
  obtain ⟨hz, hs⟩ : (s.inode ip).ref = 0 ∧
      t.inode ip = { s.inode ip with inum := inum, ref := 1, valid := false } := by
    rcases hg.slot with ⟨hr, hi, _⟩ | ⟨hr, _, hs⟩
    · rw [hinode] at hr hi
      exact absurd hi (hno ip hr)
    · rw [hinode] at hr hs
      exact ⟨hr, hs⟩
  have hself' : u.inode ip = ⟨inum, 1, true, Dinode.new type⟩ := by
    rw [hself, hs]
    dsimp only
    rw [← hdisk, hfresh]
  have hframe' : ∀ jp, jp ≠ ip → u.inode jp = s.inode jp := fun jp hjp => by
    rw [hframe jp hjp, hg.frame jp hjp, hinode]
  have hne : ∀ jp, 0 < (s.inode jp).ref → jp ≠ ip := by
    rintro jp hjp rfl
    omega
  refine ⟨?_, ⟨fun jp => ?_, fun jp hjp => by rw [hframe' jp (hne jp hjp)],
    fun jp hjp hv => by rwa [hframe' jp (hne jp hjp)], fun jp hjp => ?_⟩, ha.inum_pos, ha.inum_lt,
    ha.free, hz, hself', hframe', hothers, hfresh, by rw [stores_congr hdv, hsw.stores]⟩
  · refine hw.others hok ((ha.noHoles hw.noHoles).of_disk hdisk) hothers (fun jp hjp _ => ?_)
      (fun jp hjp hji => ⟨jp, ?_⟩) (fun _ _ _ => ?_) (fun _ _ _ => ⟨ip, ?_, ?_⟩) (fun _ hz => ?_)
      fun _ _ k hk => ?_
    · rw [Cached, hframe' jp (hne jp hjp.1)]
      exact ⟨hjp, rfl⟩
    · have hjp' : jp ≠ ip := by
        rintro rfl
        rw [hself'] at hji
        exact hji rfl
      rw [hframe' jp hjp'] at hjp ⊢
      exact ⟨hjp, rfl⟩
    · rw [hfresh]
      exact htype
    · rw [Cached, hself']
      exact ⟨Nat.one_pos, rfl⟩
    · rw [hself']
    · rw [hfresh] at hz
      exact absurd hz htype
    · rw [hfresh] at hk
      exact absurd hk (by simp [Dinode.new])
  · by_cases hjp : jp = ip
    · rw [hjp, hself', hz, Multiset.count_singleton_self]
    · rw [hframe' jp hjp, Multiset.count_singleton, if_neg hjp]
      rfl
  · rw [hothers.dinode _ (hw.ok.table.inum jp hjp) (hno jp hjp)]

/-- The reference that was given back is one that the call has. -/
theorem Released.refs (hr : Refs sb s (ip ::ₘ h) t) (hrel : Released sb ip t u) :
    Refs sb s h u := by
  have hcount : ∀ jp, (u.inode jp).ref = (s.inode jp).ref + h.count jp := fun jp => by
    rw [hrel.ref, hr.ref, Multiset.count_cons, ← add_assoc, Nat.add_sub_cancel]
  have hpos : ∀ jp, 0 < (s.inode jp).ref → 0 < (u.inode jp).ref := fun jp hjp => by
    rw [hcount]
    omega
  refine ⟨hcount, fun jp hjp => ?_, fun jp hjp hv => ?_, fun jp hjp => ?_⟩
  · rw [hrel.inum jp (hpos jp hjp), hr.inum jp hjp]
  · exact hrel.valid jp (hpos jp hjp) (hr.valid jp hjp hv)
  · rw [← hr.type jp hjp, ← hr.inum jp hjp]
    exact hrel.type jp (hpos jp hjp)

/-- The reference that was given back is one that was there at the beginning. -/
theorem Refs.released (hr : Refs sb s 0 t) (hrel : Released sb ip t u) : Released sb ip s u := by
  have href : ∀ jp, (t.inode jp).ref = (s.inode jp).ref := hr.ref
  have hpos : ∀ jp, 0 < (u.inode jp).ref → 0 < (s.inode jp).ref := fun jp hjp => by
    rw [hrel.ref, href] at hjp
    omega
  refine ⟨fun jp => by rw [hrel.ref, href], fun jp hjp => ?_, fun jp hjp hv => ?_, fun jp hjp => ?_⟩
  · rw [hrel.inum jp hjp, hr.inum jp (hpos jp hjp)]
  · exact hrel.valid jp hjp (hr.valid jp (hpos jp hjp) hv)
  · rw [← hr.type jp (hpos jp hjp), ← hr.inum jp (hpos jp hjp)]
    exact hrel.type jp hjp

theorem Dropped.released (hd : Dropped sb lost ip s t) : Released sb ip s t := by
  have hslot : ∀ jp, (t.inode jp).inum = (s.inode jp).inum ∧
      (t.inode jp).valid = (s.inode jp).valid := by
    intro jp
    by_cases hjp : jp = ip
    · rw [hjp, hd.self]
      exact ⟨rfl, rfl⟩
    · rw [hd.frame jp hjp]
      exact ⟨rfl, rfl⟩
  refine ⟨fun jp => ?_, fun jp _ => (hslot jp).1, fun jp _ => (hslot jp).2.trans,
    fun _ _ => by rw [hd.disk]⟩
  by_cases hjp : jp = ip
  · rw [if_pos hjp, hjp, hd.self]
  · rw [if_neg hjp, hd.frame jp hjp, Nat.sub_zero]

theorem Freed.released (hok : s.Ok sb lost) (href : (s.inode ip).ref = 1)
    (hf : Freed sb lost ip s t) : Released sb ip s t := by
  have hne : ∀ jp, 0 < (t.inode jp).ref → jp ≠ ip := by
    rintro jp hjp rfl
    rw [hf.self] at hjp
    exact absurd hjp (Nat.lt_irrefl 0)
  refine ⟨fun jp => ?_, fun jp hjp => by rw [hf.frame jp (hne jp hjp)],
    fun jp hjp hv => by rwa [hf.frame jp (hne jp hjp)], fun jp hjp => ?_⟩
  · by_cases hjp : jp = ip
    · rw [if_pos hjp, hjp, hf.self, href]
    · rw [if_neg hjp, hf.frame jp hjp, Nat.sub_zero]
  · have hjs : 0 < (s.inode jp).ref := by
      rwa [← hf.frame jp (hne jp hjp)]
    rw [hf.others.dinode _ (hok.table.inum jp hjs) fun heq => hne jp hjp ?_]
    exact hok.table.distinct jp ip hjs (by omega) heq

/-- The inode that was freed had no links. -/
theorem Freed.wellFormed (hw : s.WellFormed sb lost) (href : (s.inode ip).ref = 1)
    (hnlink : (s.inode ip).d.nlink = 0) (hf : Freed sb lost ip s t) : t.WellFormed sb lost := by
  have hne : ∀ jp, 0 < (t.inode jp).ref → jp ≠ ip := by
    rintro jp hjp rfl
    rw [hf.self] at hjp
    exact absurd hjp (Nat.lt_irrefl 0)
  refine hw.others hf.ok (hf.noHoles hw.noHoles) hf.others (fun jp hjp hji => ?_)
    (fun jp hjp _ => ⟨jp, ?_⟩) (fun jp hjp hji => ?_) (fun _ htype => ?_) (fun _ _ => ?_)
    fun _ htype => ?_
  · have hjp' : jp ≠ ip := fun h => hji (by rw [h])
    rw [Cached, hf.frame jp hjp']
    exact ⟨hjp, rfl⟩
  · have hjp' := hne jp hjp
    rw [hf.frame jp hjp'] at hjp ⊢
    exact ⟨hjp, rfl⟩
  · have hjp' := hne jp hjp
    rw [hf.frame jp hjp'] at hjp hji
    exact absurd (hw.ok.table.distinct jp ip hjp (by omega) hji) hjp'
  · rw [hf.dinode] at htype
    exact absurd rfl htype
  · rw [hf.dinode]
    exact hnlink
  · rw [hf.dinode] at htype
    exact absurd (show (0 : Int16) = tDir from htype) (by decide)

theorem Dropped.wellFormed (hw : s.WellFormed sb lost) (hs : s.Spare ip)
    (hd : Dropped sb lost ip s t) : t.WellFormed sb lost := by
  have hpos : ∀ jp, 0 < (t.inode jp).ref → 0 < (s.inode jp).ref := fun jp hjp => by
    rw [hd.released.ref] at hjp
    omega
  refine ⟨hd.ok, hw.noHoles.of_disk hd.disk, hw.root, fun jp hjp => ?_, fun i hi ht hn => ?_,
    fun i hi ht => ?_, fun i hi ht k hk => ?_⟩
  · rw [hd.released.inum jp hjp, hd.disk]
    exact hw.held jp (hpos jp hjp)
  · rw [hd.disk] at ht hn
    obtain ⟨jp, hjp, hinum⟩ := hw.linked i hi ht hn
    have hjt : 0 < (t.inode jp).ref := by
      rw [hd.released.ref]
      split
      next heq =>
        subst heq
        have hn' : (s.inode jp).d.nlink = 0 := by
          rw [(hw.ok.loaded hjp).copy, hinum]
          exact hn
        have := hjp.1
        have hne : (s.inode jp).ref ≠ 1 := fun h₁ => hs.not_free ⟨h₁, hjp.2, hn'⟩
        omega
      next => exact hjp.1
    exact ⟨jp, ⟨hjt, hd.released.valid jp hjt hjp.2⟩, (hd.released.inum jp hjt).trans hinum⟩
  · rw [hd.disk] at ht ⊢
    exact hw.free i hi ht
  · rw [hd.disk] at ht hk
    rw [entry_congr hd.disk]
    exact hw.range i hi ht k hk

end Fs

end Xv6
