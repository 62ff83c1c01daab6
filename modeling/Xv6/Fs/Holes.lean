import Xv6.Fs.Dir

/-!
# Files without holes

A file has no holes if there is a block for every index below its size (`NoHoles`). `writei` only
raises the size over blocks that it has written, also when it stops early, so that no operation
makes a hole, as long as the blocks are owned: if two files shared a block, writing to one of them
could erase the block numbers of the other.

Where there are no holes, `readi` neither allocates nor logs a block.
-/

namespace Xv6

namespace Fs

/-- There is a block for every index below the size of an allocated inode. -/
def NoHoles (sb : Superblock) (s : Fs) : Prop :=
  ∀ i < sb.ninodes, (Disk.dinode sb s.disk i).type ≠ 0 →
    ∀ bn < ((Disk.dinode sb s.disk i).size + (bsize - 1)) / bsize, s.stores sb (i, slotOf bn) ≠ 0

instance decidableNoHoles (sb : Superblock) (s : Fs) : Decidable (s.NoHoles sb) :=
  inferInstanceAs (Decidable (∀ i < _, _ → ∀ bn < _, _))

variable {sb : Superblock} {s t u : Fs} {ip dp : Fin ninode} {i inum : ℕ} {lost : Set ℕ}
  {E : FsPanic → Fs → Prop} {name : List UInt8}

theorem lt_ceil_iff {size bn : ℕ} : bn < (size + (bsize - 1)) / bsize ↔ bn * bsize < size := by
  rw [Nat.lt_iff_add_one_le, Nat.le_div_iff_mul_le (by decide)]
  have : 0 < bsize := by decide
  rw [Nat.add_mul]
  omega

/-- The inodes other than `i` have no holes if they did not change. -/
theorem NoHoles.others (h : s.NoHoles sb) (ho : Others sb i s t)
    (hself : i < sb.ninodes → (Disk.dinode sb t.disk i).type ≠ 0 →
      ∀ bn, bn * bsize < (Disk.dinode sb t.disk i).size → t.stores sb (i, slotOf bn) ≠ 0) :
    t.NoHoles sb := by
  intro j hj htype bn hbn
  by_cases hji : j = i
  · subst hji
    exact hself hj htype bn (lt_ceil_iff.1 hbn)
  · rw [ho.dinode j hj hji] at htype hbn
    rw [ho.stores j _ hji]
    exact h j hj htype bn hbn

theorem NoHoles.of_disk (h : s.NoHoles sb) (hd : t.disk = s.disk) : t.NoHoles sb := by
  intro j hj htype bn hbn
  rw [hd] at htype hbn
  rw [stores_congr hd]
  exact h j hj htype bn hbn

/-- The inode is in memory as `ilock` leaves it. -/
structure Loaded (sb : Superblock) (s : Fs) (ip : Fin ninode) : Prop where
  inum : (s.inode ip).inum < sb.ninodes
  copy : (s.inode ip).d = Disk.dinode sb s.disk (s.inode ip).inum
  type : (s.inode ip).d.type ≠ 0

theorem Ok.loaded (h : s.Ok sb lost) (hc : s.Cached ip) : s.Loaded sb ip :=
  ⟨h.table.inum ip hc.1, h.table.copy ip hc.1 hc.2, h.table.type ip hc.1 hc.2⟩

/-- A file without holes in memory. -/
theorem NoHoles.full_of_loaded (h : s.NoHoles sb) (hl : s.Loaded sb ip) : s.Full sb ip := by
  intro bn hbn
  rw [places, view, Function.update_eq_self_iff.2 hl.copy]
  refine h _ hl.inum ?_ bn (lt_ceil_iff.2 ?_)
  · rw [← hl.copy]
    exact hl.type
  · rwa [← hl.copy]

theorem NoHoles.full (h : s.NoHoles sb) (hok : s.Ok sb lost) (hc : s.Cached ip) : s.Full sb ip :=
  h.full_of_loaded (hok.loaded hc)

/-- If the file has no holes, `readi` returns in the state in which it was called. -/
theorem readi_eq (hfull : s.Full sb ip) (dst : ℕ → Bool) (off n : UInt32) :
    ∃ r, readi sb ip dst off.toNat n.toNat s = .ok r s := by
  have hwp : wp (readi sb ip dst off.toNat n.toNat) (fun _ t => t = s) (fun _ _ => False) s :=
    wp_readi hfull off.toNat_lt n.toNat_lt (fun _ => rfl) fun _ _ _ _ => rfl
  obtain ⟨r, t, hr, rfl⟩ := hwp.exists_ok
  exact ⟨r, hr⟩

/-! ## The operations -/

theorem Fielded.noHoles {d : Dinode} (h : s.NoHoles sb) (hok : s.Ok sb lost) (hc : s.Cached ip)
    (hf : Fielded sb lost ip d s t) (hsize : d.size = (s.inode ip).d.size) : t.NoHoles sb := by
  refine h.others hf.others fun hi _ bn hbn => ?_
  have hct : t.Cached ip := by rw [Cached, hf.inode.self]; exact hc
  have hd : Disk.dinode sb t.disk (s.inode ip).inum = d := by
    rw [← hf.inode.inum, ← hf.ok.table.copy ip hct.1 hct.2, hf.inode.self]
  rw [hd, hsize] at hbn
  rw [hf.stores, ← hok.places hc]
  exact h.full hok hc bn hbn

/-- The size only covers what was written. -/
theorem Stored.noHoles {src : ℕ → Option UInt8} {off n tot : ℕ} (h : s.NoHoles sb)
    (hok : s.Ok sb lost) (hc : s.Cached ip) (hoff : off ≤ (s.inode ip).d.size)
    (hs : Stored sb lost ip src off n s tot t) : t.NoHoles sb := by
  have hw := hs.written
  refine h.others hw.others fun hi _ bn hbn => ?_
  have hct : t.Cached ip := by rw [Cached, hw.inode.self]; exact hc
  have hd : (Disk.dinode sb t.disk (s.inode ip).inum).size =
      max (s.inode ip).d.size (off + tot) := by
    rw [← hw.inode.inum, ← hw.ok.table.copy ip hct.1 hct.2, hw.inode.self]
  rw [hd] at hbn
  by_cases hold : bn * bsize < (s.inode ip).d.size
  · have hfull := h.full hok hc bn hold
    rw [hok.places hc] at hfull
    rwa [hw.keep _ hfull]
  · have hfill := hs.filled (bn * bsize) (by omega) (by omega)
    rwa [Nat.mul_div_cancel bn (by decide)] at hfill

theorem Truncated.noHoles (h : s.NoHoles sb) (hc : s.Cached ip)
    (ht : Truncated sb lost ip s t) : t.NoHoles sb := by
  refine h.others ht.others fun hi _ bn hbn => ?_
  have hct : t.Cached ip := by rw [Cached, ht.inode.self]; exact hc
  rw [← ht.inode.inum, ← ht.ok.table.copy ip hct.1 hct.2, ht.inode.self] at hbn
  exact absurd hbn (Nat.not_lt_zero _)

theorem Alloc.noHoles {type : Int16} (h : s.NoHoles sb) (ha : Alloc sb lost type s inum ip t) :
    t.NoHoles sb := by
  obtain ⟨u, hsw, -, hg⟩ := ha.got
  refine NoHoles.of_disk (h.others hsw.others fun hi _ bn hbn => ?_) hg.disk
  rw [hsw.dinode _ hi, if_pos rfl] at hbn
  exact absurd hbn (Nat.not_lt_zero _)

theorem Freed.noHoles (h : s.NoHoles sb) (hf : Freed sb lost ip s t) : t.NoHoles sb := by
  refine h.others hf.others fun _ htype => ?_
  rw [hf.dinode] at htype
  exact absurd rfl htype

/-- Dropping the reference that a lookup has just taken. -/
theorem wp_iput_got (h : s.Ok sb lost) (hg : Got inum s ip t) :
    wp (iput sb ip) (fun _ u => u.Ok sb lost ∧ u.disk = s.disk ∧
      (∀ jp, 0 < (s.inode jp).ref → u.inode jp = s.inode jp) ∧
      ∀ jp, (u.inode jp).ref = (s.inode jp).ref) E t := by
  have hcond : ¬((t.inode ip).ref = 1 ∧ (t.inode ip).valid = true ∧ (t.inode ip).d.nlink = 0) := by
    rcases hg.slot with ⟨hr, _, hs⟩ | ⟨_, _, hs⟩
    · rw [hs]
      exact fun hc => absurd hc.1 (by dsimp only; omega)
    · rw [hs]
      exact fun hc => Bool.false_ne_true hc.2.1
  simp only [iput, wp_bind, wp_get]
  rw [if_neg hcond, wp_pure]
  refine wp_setInode fun u hdisk _ _ hself hframe => ?_
  have hd : u.disk = s.disk := hdisk.trans hg.disk
  have hframe' : ∀ jp, jp ≠ ip → u.inode jp = s.inode jp := fun jp hjp =>
    (hframe jp hjp).trans (hg.frame jp hjp)
  rcases hg.slot with ⟨hr, hi, hs⟩ | ⟨hr, hno, hs⟩
  · have hsame : u.inode = s.inode := by
      funext jp
      by_cases hjp : jp = ip
      · rw [hjp, hself, hs]
        simp
      · exact hframe' jp hjp
    refine ⟨⟨by rw [hd]; exact h.owned, ?_⟩, hd, fun jp _ => by rw [hsame], fun jp => by rw [hsame]⟩
    rw [hd, hsame]
    exact h.table
  · refine ⟨⟨by rw [hd]; exact h.owned, ?_⟩, hd, fun jp hrj => hframe' jp ?_, fun jp => ?_⟩
    · refine h.table.drop (by rw [hself, hs]; rfl) hframe' fun _ _ _ => ?_
      rw [hd]
    · rintro rfl
      omega
    · by_cases hjp : jp = ip
      · rw [hjp, hself, hs]
        exact hr.symm
      · rw [hframe' jp hjp]

/-- A write to one block stops before it or writes all of it. -/
theorem wp_writei_block {src : ℕ → Option UInt8} {off n : ℕ} {R : ℤ → Prop}
    (hoff : off < 2 ^ 32) (hn : 0 < n) (hfit : off % bsize + n ≤ bsize)
    (hsrc : ∀ k, (src k).isSome = true) (hrej : ¬Accepts (s.inode ip).d.size off n → R (-1))
    (hacc : Accepts (s.inode ip).d.size off n →
      wp (bmap sb ip (off / bsize)) (fun a _ => R (if a = 0 then 0 else n)) E s) :
    wp (writei sb ip src off n) (fun r _ => R r) E s := by
  have hmax : maxfile * bsize < 2 ^ 32 := by decide
  have hbs : bsize < 2 ^ 32 := by decide
  have hwrap := add_wraps hoff (n := n) (by omega)
  rw [writei, wp_bind, wp_get]
  split
  next h =>
    refine hrej fun ha => ?_
    rcases h with h | h
    · exact absurd ha.1 (by omega)
    · have := hwrap.1 h
      exact absurd ha.2 (by omega)
  next h =>
  rw [not_or, hwrap] at h
  rw [Nat.mod_eq_of_lt (by omega)]
  split
  next hbig => exact hrej fun ha => absurd ha.2 (by omega)
  next hbig =>
  obtain ⟨m, rfl⟩ : ∃ m, n = m + 1 := ⟨n - 1, by omega⟩
  rw [wp_bind, writeiLoop, if_pos (Nat.succ_pos m), wp_bind]
  refine (hacc ⟨by omega, by omega⟩).mono (fun a t hR => ?_) fun _ _ he => he
  have hdone : ∀ r : ℕ × ℕ, ∀ v : Fs, R r.1 → wp (do
      setDinode ip fun d => { d with size := if r.2 > d.size then r.2 else d.size }
      iupdate sb ip
      pure (r.1 : ℤ)) (fun r _ => R r) E v := by
    intro r v hr
    exact hr
  split
  next ha =>
    rw [if_pos ha] at hR
    exact hdone (0, off) t hR
  next ha =>
    rw [if_neg ha] at hR
    have hm : min (m + 1 - 0) (bsize - off % bsize) = m + 1 := by omega
    simp only [wp_bind, wp_get, hm]
    rw [length_copyin fun k _ _ => hsrc k, if_neg (lt_irrefl _), wp_bind]
    have hloop : ∀ v off', wp (writeiLoop sb ip src (m + 1) m (0 + (m + 1)) off')
        (fun r _ => r.1 = m + 1) E v := by
      intro v off'
      cases m with
      | zero => rfl
      | succ m =>
        rw [writeiLoop, if_neg (by omega), wp_pure]
        omega
    refine (hloop _ _).mono (fun r v hr => hdone r v ?_) fun _ _ he => he
    rw [hr]
    exact hR

/-- The bytes of a new entry. -/
def direntSrc (name : List UInt8) (inum : ℕ) (k : ℕ) : Option UInt8 :=
  some ((Dirent.bytes ⟨inum, strncpy name dirsiz⟩).getD k 0)

/-- What `dirlink` does: the name is there, or the entry is written to the first free place. -/
theorem wp_dirlink (hsb : sb.Wf) (h : s.Ok sb lost) (hno : s.NoHoles sb) (hc : s.Cached dp)
    {Q : ℤ → Fs → Prop}
    (hfound : ∀ u, u.Ok sb lost → u.disk = s.disk →
      (∀ jp, 0 < (s.inode jp).ref → u.inode jp = s.inode jp) →
      (∀ jp, (u.inode jp).ref = (s.inode jp).ref) → Q (-1) u)
    (hrej : Q (-1) s)
    (hstored : (s.inode dp).d.type = tDir →
      (∀ k, 16 * k < (s.inode dp).d.size → ¬(s.direntAt sb dp k).Names name) →
      ∀ k, 16 * k ≤ (s.inode dp).d.size →
      (16 * k + 16 ≤ (s.inode dp).d.size → (s.direntAt sb dp k).inum = 0) →
      (∀ k' < k, (s.direntAt sb dp k').inum ≠ 0) →
      ∀ tot t, tot = 0 ∨ tot = 16 → Stored sb lost dp (direntSrc name inum) (16 * k) 16 s tot t →
      Q (if tot = 16 then 0 else -1) t)
    (hdir : (s.inode dp).d.type ≠ tDir → E .dirlookupNotDir s)
    (hread : ¬16 ∣ (s.inode dp).d.size → E .dirlookupRead s ∧ E .dirlinkRead s)
    (hget : ∀ k, 16 * k + 16 ≤ (s.inode dp).d.size → (s.direntAt sb dp k).Names name →
      s.TableFull → E .igetNoInodes s) :
    wp (dirlink sb dp name inum) Q E s := by
  have hfull := hno.full h hc
  have hsize := h.size_lt hc
  rw [dirlink, wp_bind]
  refine wp_dirlookup hfull hsize (fun htype hall => ?_) (fun _ _ _ _ _ ip t hg => ?_) hdir
    (fun _ hcut => (hread hcut).1) hget
  · simp only [wp_bind, wp_get]
    refine wp_dirlinkLoop hfull hsize (k := 0) (Nat.sub_le _ _)
      (fun _ hk => absurd hk (Nat.not_lt_zero _)) (fun k hbefore hfree => ?_)
      fun hcut => (hread hcut).2
    have hk : 16 * k ≤ (s.inode dp).d.size := by
      rcases Nat.eq_zero_or_pos k with rfl | hpos
      · exact Nat.zero_le _
      · have := (hbefore (k - 1) (by omega)).2
        omega
    -- The entry is in one block, so that it is written as a whole or not at all.
    have hwhole : wp (writei sb dp (direntSrc name inum) (16 * k) 16)
        (fun r _ => r = -1 ∨ r = 0 ∨ r = 16) (fun _ _ => True) s := by
      refine wp_writei_block (by omega) (by decide) ?_ (fun _ => rfl) (fun _ => .inl rfl) fun _ => ?_
      · rw [show bsize = 1024 from rfl]
        omega
      · refine wp_true.mono (fun a _ _ => .inr ?_) fun _ _ he => he
        split
        · exact .inl rfl
        · exact .inr rfl
    have hwrite : wp (writei sb dp (direntSrc name inum) (16 * k) 16) (fun r t => r = -1 ∧ t = s ∨
        ∃ tot : ℕ, r = tot ∧ Stored sb lost dp (direntSrc name inum) (16 * k) 16 s tot t) E s :=
      wp_writei hsb h hc (by omega) (by decide) (fun _ => .inl ⟨rfl, rfl⟩)
        fun _ tot t ht => .inr ⟨tot, rfl, ht⟩
    refine (hwrite.and hwhole).mono (fun r t hr => ?_) fun _ _ he => he.1
    obtain ⟨⟨rfl, rfl⟩ | ⟨tot, rfl, ht⟩, hr⟩ := hr
    · exact hrej
    have htot : tot = 0 ∨ tot = 16 := by omega
    have hQ := hstored htype hall k hk (fun hfit => ?_) (fun k' hk' => (hbefore k' hk').1) tot t htot ht
    · by_cases htot : tot = 16
      · subst htot
        simpa using hQ
      · rw [if_neg htot] at hQ
        rw [if_pos (by exact_mod_cast htot)]
        exact hQ
    · rcases hfree with hf | hf
      · exact hf.2
      · omega
  · rw [wp_bind]
    refine (wp_iput_got h hg).mono (fun _ u hu => ?_) fun _ _ he => he
    exact hfound u hu.1 hu.2.1 hu.2.2.1 hu.2.2.2

end Fs

end Xv6
