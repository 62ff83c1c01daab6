import Xv6.Fs.Tree

/-!
# Entering names

`dirlink` enters a name in a directory (`Entered`), or fails (`NotEntered`): the name is there, or
the directory cannot grow. An entry lies within one block, so that it is written as a whole or not
at all; when it fails, `dirlink` has added an indirect block to the directory at most.

What a call that fails must not change of an inode are its fields and its bytes (`SameFile`); its
blocks stay where they are, but there may be more of them.
-/

namespace Xv6

namespace Fs

/-- The blocks of the inode `i` are where they were, with the same bytes; some may have been
    added. -/
structure SameBlocks (sb : Superblock) (i : ℕ) (s t : Fs) : Prop where
  keep : ∀ sl, s.stores sb (i, sl) ≠ 0 → t.stores sb (i, sl) = s.stores sb (i, sl)
  data : ∀ o, s.stores sb (i, slotOf (o / bsize)) ≠ 0 → t.byteAt sb i o = s.byteAt sb i o

/-- The inode `i` and its file are the same, but for blocks that may have been added. -/
structure SameFile (sb : Superblock) (i : ℕ) (s t : Fs) : Prop extends SameBlocks sb i s t where
  dinode : i < sb.ninodes → Disk.dinode sb t.disk i =
    { Disk.dinode sb s.disk i with addrs := (Disk.dinode sb t.disk i).addrs }

/-- The entry `k` of the directory `dp` was set. -/
structure EntrySet (sb : Superblock) (lost : Set ℕ) (dp : Fin ninode) (k : ℕ) (de : Dirent)
    (s t : Fs) : Prop where
  ok : t.Ok sb lost
  noHoles : t.NoHoles sb
  inode : SetTo dp { (s.inode dp).d with
    size := max (s.inode dp).d.size (16 * k + 16), addrs := (t.inode dp).d.addrs } s t
  others : Others sb (s.inode dp).inum s t
  keep : ∀ x, s.stores sb x ≠ 0 → t.stores sb x = s.stores sb x
  le_size : 16 * k ≤ (s.inode dp).d.size
  new : t.entry sb (s.inode dp).inum k = de
  old : ∀ k', k' ≠ k → 16 * k' + 16 ≤ (s.inode dp).d.size →
    t.entry sb (s.inode dp).inum k' = s.entry sb (s.inode dp).inum k'

/-- The name was entered in the slot `k` of the directory `dp`. -/
structure Entered (sb : Superblock) (lost : Set ℕ) (dp : Fin ninode) (name : List UInt8)
    (inum k : ℕ) (s t : Fs) : Prop
    extends EntrySet sb lost dp k ⟨inum % 2 ^ 16, strncpy name dirsiz⟩ s t where
  type : (s.inode dp).d.type = tDir
  absent : s.lookup sb (s.inode dp).inum name = none
  vacant : 16 * k + 16 ≤ (s.inode dp).d.size → (s.entry sb (s.inode dp).inum k).inum = 0
  first : ∀ k' < k, (s.entry sb (s.inode dp).inum k').inum ≠ 0

/-- The name was not entered in the directory `dp`. -/
structure NotEntered (sb : Superblock) (lost : Set ℕ) (dp : Fin ninode) (s t : Fs) : Prop where
  ok : t.Ok sb lost
  noHoles : t.NoHoles sb
  refs : Refs sb s 0 t
  inode : ∀ jp, 0 < (s.inode jp).ref → t.inode jp =
    { s.inode jp with d := { (s.inode jp).d with addrs := (t.inode jp).d.addrs } }
  others : Others sb (s.inode dp).inum s t
  same : ∀ i, SameFile sb i s t

variable {sb : Superblock} {s t u : Fs} {ip dp : Fin ninode} {i j k inum tot : ℕ} {lost : Set ℕ}
  {name : List UInt8} {E : FsPanic → Fs → Prop}

/-! ## The same file -/

theorem SameBlocks.of_disk (hd : t.disk = s.disk) : SameBlocks sb i s t :=
  ⟨fun _ _ => by rw [stores_congr hd], fun o _ => by simp only [byteAt, stores_congr hd, hd]⟩

theorem SameBlocks.trans (h : SameBlocks sb i s t) (h' : SameBlocks sb i t u) :
    SameBlocks sb i s u where
  keep sl hne := by
    rw [h'.keep sl (by rwa [h.keep sl hne]), h.keep sl hne]
  data o hne := by
    rw [h'.data o (by rwa [h.keep _ hne]), h.data o hne]

theorem SameFile.of_disk (hd : t.disk = s.disk) : SameFile sb i s t :=
  ⟨.of_disk hd, fun _ => by rw [hd]⟩

theorem SameFile.trans (h : SameFile sb i s t) (h' : SameFile sb i t u) : SameFile sb i s u where
  toSameBlocks := h.toSameBlocks.trans h'.toSameBlocks
  dinode hi := by rw [h'.dinode hi, h.dinode hi]

theorem Others.sameFile (ho : Others sb i s t) (hj : j ≠ i) : SameFile sb j s t where
  keep sl _ := ho.stores j sl hj
  data o hne := ho.data j o hj hne
  dinode hjn := by rw [ho.dinode j hjn hj]

/-- Setting fields of an inode leaves its blocks. -/
theorem Fielded.sameBlocks {d : Dinode} (hf : Fielded sb lost ip d s t) : SameBlocks sb i s t where
  keep sl _ := by rw [hf.stores]
  data o hne := by
    by_cases hi : i = (s.inode ip).inum
    · subst hi
      exact hf.data o hne
    · exact hf.others.data i o hi hne

/-- The references, when the inode of an entry that is in use has changed. -/
theorem SetTo.refs {d : Dinode} (hset : SetTo ip d s t) (hok : s.Ok sb lost)
    (ho : Others sb (s.inode ip).inum s t)
    (htype : (Disk.dinode sb t.disk (s.inode ip).inum).type =
      (Disk.dinode sb s.disk (s.inode ip).inum).type) : Refs sb s 0 t := by
  refine .of_slots (fun jp => (hset.slot jp).1)
    (fun jp _ => ⟨(hset.slot jp).2.1, fun hv => (hset.slot jp).2.2.trans hv⟩) fun jp hjp => ?_
  by_cases hji : (s.inode jp).inum = (s.inode ip).inum
  · rw [hji, htype]
  · rw [ho.dinode _ (hok.table.inum jp hjp) hji]

/-- The entries of a directory are the same if its bytes are. -/
theorem SameBlocks.entry (h : SameBlocks sb i s t) (hno : s.NoHoles sb) (hi : i < sb.ninodes)
    (htype : (Disk.dinode sb s.disk i).type ≠ 0)
    (hk : 16 * k + 16 ≤ (Disk.dinode sb s.disk i).size) : t.entry sb i k = s.entry sb i k :=
  entry_eq fun o _ hlt => h.data o (hno.stores_ne hi htype (by omega))

/-! ## `dirlink` -/

theorem ofBytes_direntSrc (name : List UInt8) (inum : ℕ) :
    Dirent.ofBytes ((List.range 16).map fun o => (direntSrc name inum o).getD 0) =
      ⟨inum % 2 ^ 16, strncpy name dirsiz⟩ := by
  have hlen : (Dirent.bytes ⟨inum, strncpy name dirsiz⟩).length = 16 := by
    simp [Dirent.bytes, dirsiz]
  have hbytes : ((List.range 16).map fun o => (direntSrc name inum o).getD 0) =
      Dirent.bytes ⟨inum, strncpy name dirsiz⟩ := by
    refine List.ext_getElem (by simp [hlen]) fun o ho _ => ?_
    rw [List.getElem_map, List.getElem_range, direntSrc, Option.getD_some,
      List.getD_eq_getElem _ _ (by simpa [hlen] using ho)]
  rw [hbytes, Dirent.ofBytes, Dirent.bytes, List.take_left' (by simp), List.drop_left' (by simp),
    ofLe_le]
  rfl

/-- An entry that was written. -/
theorem Stored.entrySet {src : ℕ → Option UInt8} {de : Dirent} (hok : s.Ok sb lost)
    (hno : s.NoHoles sb) (hc : s.Cached dp) (hk : 16 * k ≤ (s.inode dp).d.size)
    (hsrc : .ofBytes ((List.range 16).map fun o => (src o).getD 0) = de)
    (hs : Stored sb lost dp src (16 * k) 16 s 16 t) : EntrySet sb lost dp k de s t := by
  have hw := hs.written
  have hl := hok.loaded hc
  refine ⟨hw.ok, hs.noHoles hno hok hc hk, hw.inode, hw.others, hw.keep, hk, ?_,
    fun k' hk' hfit => ?_⟩
  · rw [entry, ← hsrc]
    refine congrArg Dirent.ofBytes (List.map_congr_left fun o ho => ?_)
    have := List.mem_range.1 ho
    have hb := hs.bytes (16 * k + o) (by omega) (by omega)
    rw [Nat.add_sub_cancel_left] at hb
    rw [← hb, Option.getD_some]
  · refine entry_eq fun o hlo hhi => hw.data o ?_ ?_
    · refine hno.stores_ne hl.inum (hl.copy ▸ hl.type) ?_
      rw [← hl.copy]
      omega
    · rintro ⟨h₁, h₂⟩
      omega

theorem Stored.entered (hok : s.Ok sb lost) (hno : s.NoHoles sb) (hc : s.Cached dp)
    (htype : (s.inode dp).d.type = tDir)
    (habsent : ∀ k, 16 * k < (s.inode dp).d.size → ¬(s.direntAt sb dp k).Names name)
    (hk : 16 * k ≤ (s.inode dp).d.size)
    (hvacant : 16 * k + 16 ≤ (s.inode dp).d.size → (s.direntAt sb dp k).inum = 0)
    (hfirst : ∀ k' < k, (s.direntAt sb dp k').inum ≠ 0)
    (hs : Stored sb lost dp (direntSrc name inum) (16 * k) 16 s 16 t) :
    Entered sb lost dp name inum k s t := by
  refine ⟨hs.entrySet hok hno hc hk (ofBytes_direntSrc name inum), htype, ?_, fun hfit => ?_,
    fun k' hk' => ?_⟩
  · refine lookup_eq_none fun k' hfit => ?_
    rw [← direntAt_eq hok hc]
    rw [← (hok.loaded hc).copy] at hfit
    exact habsent k' (by omega)
  · rw [← direntAt_eq hok hc]
    exact hvacant hfit
  · rw [← direntAt_eq hok hc]
    exact hfirst k' hk'

/-- Nothing was written. -/
theorem Stored.notEntered (hok : s.Ok sb lost) (hno : s.NoHoles sb) (hc : s.Cached dp)
    (hk : 16 * k ≤ (s.inode dp).d.size)
    (hs : Stored sb lost dp (direntSrc name inum) (16 * k) 16 s 0 t) :
    NotEntered sb lost dp s t := by
  have hw := hs.exact fun _ => rfl
  have hsize : max (s.inode dp).d.size (16 * k + 0) = (s.inode dp).d.size := max_eq_left hk
  rw [hsize] at hw
  have hct : t.Cached dp := by
    rw [Cached, hw.inode.self]
    exact hc
  have hd : Disk.dinode sb t.disk (s.inode dp).inum =
      { (s.inode dp).d with addrs := (t.inode dp).d.addrs } := by
    rw [← hw.inode.inum, ← hw.ok.table.copy dp hct.1 hct.2]
    have hself := hw.inode.self
    exact congrArg MemInode.d hself
  refine ⟨hw.ok, hs.noHoles hno hok hc hk, hw.inode.refs hok hw.others ?_, fun jp _ => ?_, hw.others,
    fun i => ?_⟩
  · rw [hd, (hok.loaded hc).copy]
  · by_cases hjp : jp = dp
    · subst hjp
      have hself := hw.inode.self
      exact hself
    · rw [hw.inode.frame jp hjp]
  · by_cases hi : i = (s.inode dp).inum
    swap
    · exact hw.others.sameFile hi
    subst hi
    refine ⟨⟨fun sl => hw.keep _, fun o hne => hw.data o hne ?_⟩, fun hi => ?_⟩
    · rintro ⟨h₁, h₂⟩
      omega
    · rw [← (hok.loaded hc).copy, hd]

/-- `dirlink` enters the name, or leaves everything as it was. -/
theorem wp_dirlink_entered (hsb : sb.Wf) (hok : s.Ok sb lost) (hno : s.NoHoles sb) (hc : s.Cached dp)
    {Q : ℤ → Fs → Prop} (hfail : ∀ t, NotEntered sb lost dp s t → Q (-1) t)
    (hdone : ∀ k t, Entered sb lost dp name inum k s t → Q 0 t)
    (hdir : (s.inode dp).d.type ≠ tDir → E .dirlookupNotDir s)
    (hread : ¬16 ∣ (s.inode dp).d.size → E .dirlookupRead s ∧ E .dirlinkRead s)
    (hget : ∀ k, 16 * k + 16 ≤ (s.inode dp).d.size → (s.direntAt sb dp k).Names name →
      s.TableFull → E .igetNoInodes s) : wp (dirlink sb dp name inum) Q E s := by
  have hdisk : ∀ t : Fs, t.Ok sb lost → t.disk = s.disk →
      (∀ jp, 0 < (s.inode jp).ref → t.inode jp = s.inode jp) →
      (∀ jp, (t.inode jp).ref = (s.inode jp).ref) → NotEntered sb lost dp s t := by
    intro t ht hd hinode href
    refine ⟨ht, hno.of_disk hd, .of_slots href (fun jp hjp => ?_) fun _ _ => by rw [hd],
      fun jp hjp => by rw [hinode jp hjp], .of_disk hd, fun i => .of_disk hd⟩
    rw [hinode jp hjp]
    exact ⟨rfl, id⟩
  refine wp_dirlink hsb hok hno hc (fun t ht hd hi hr => hfail t (hdisk t ht hd hi hr))
    (hfail s (hdisk s hok rfl (fun _ _ => rfl) fun _ => rfl))
    (fun htype hall k hk hfree hfirst tot t htot ht => ?_) hdir hread hget
  rcases htot with rfl | rfl
  · rw [if_neg (by decide)]
    exact hfail t (ht.notEntered hok hno hc hk)
  · rw [if_pos rfl]
    exact hdone k t (ht.entered hok hno hc htype hall hk hfree hfirst)

/-! ## Well-formed file systems -/

/-- The inode on the disk of which fields were set. -/
theorem Fielded.dinode_eq {d : Dinode} (hc : s.Cached ip) (hf : Fielded sb lost ip d s t) :
    Disk.dinode sb t.disk (s.inode ip).inum = d := by
  have hct : t.Cached ip := by
    rw [Cached, hf.inode.self]
    exact hc
  rw [← hf.inode.inum, ← hf.ok.table.copy ip hct.1 hct.2, hf.inode.self]

theorem Fielded.refs {d : Dinode} (hok : s.Ok sb lost) (hc : s.Cached ip)
    (hf : Fielded sb lost ip d s t) (htype : d.type = (s.inode ip).d.type) : Refs sb s 0 t := by
  refine hf.inode.refs hok hf.others ?_
  rw [hf.dinode_eq hc, htype, (hok.loaded hc).copy]

/-- The fields of an inode other than its type and its size. -/
theorem Fielded.wellFormed {d : Dinode} (hw : s.WellFormed sb lost) (hc : s.Cached ip)
    (hf : Fielded sb lost ip d s t) (htype : d.type = (s.inode ip).d.type)
    (hsize : d.size = (s.inode ip).d.size) : t.WellFormed sb lost := by
  have hl := hw.ok.loaded hc
  refine hw.update hf.ok (hf.noHoles hw.noHoles hw.ok hc hsize) hc hf.others
    (hf.refs hw.ok hc htype) ?_ ?_
  · rw [hf.dinode_eq hc, htype]
    exact hl.type
  · rw [hf.dinode_eq hc, htype, hsize, hl.copy]
    intro ht k hk
    rw [hf.sameBlocks.entry hw.noHoles hl.inum (hl.copy ▸ hl.type) hk]
    exact hw.range _ hl.inum ht k hk

theorem NotEntered.wellFormed (hw : s.WellFormed sb lost) (hc : s.Cached dp)
    (hn : NotEntered sb lost dp s t) : t.WellFormed sb lost := by
  have hl := hw.ok.loaded hc
  have hd := (hn.same (s.inode dp).inum).dinode hl.inum
  refine hw.update hn.ok hn.noHoles hc hn.others hn.refs ?_ ?_
  · rw [hd]
    exact hl.copy ▸ hl.type
  · rw [hd]
    intro ht k hk
    rw [(hn.same _).entry hw.noHoles hl.inum (hl.copy ▸ hl.type) hk]
    exact hw.range _ hl.inum ht k hk

/-- The inode of the directory of which an entry was set. -/
theorem EntrySet.dinode_eq {de : Dirent} (hok : s.Ok sb lost) (hc : s.Cached dp)
    (he : EntrySet sb lost dp k de s t) : Disk.dinode sb t.disk (s.inode dp).inum =
      { Disk.dinode sb s.disk (s.inode dp).inum with
        size := max (Disk.dinode sb s.disk (s.inode dp).inum).size (16 * k + 16)
        addrs := (t.inode dp).d.addrs } := by
  have hct : t.Cached dp := by
    rw [Cached, he.inode.self]
    exact hc
  rw [← he.inode.inum, ← he.ok.table.copy dp hct.1 hct.2, he.inode.inum, ← (hok.loaded hc).copy]
  have hself := he.inode.self
  exact congrArg MemInode.d hself

theorem EntrySet.refs {de : Dirent} (hok : s.Ok sb lost) (hc : s.Cached dp)
    (he : EntrySet sb lost dp k de s t) : Refs sb s 0 t :=
  he.inode.refs hok he.others (by rw [he.dinode_eq hok hc])

theorem EntrySet.wellFormed {de : Dirent} (hw : s.WellFormed sb lost) (hc : s.Cached dp)
    (hi : de.inum < sb.ninodes) (he : EntrySet sb lost dp k de s t) : t.WellFormed sb lost := by
  have hl := hw.ok.loaded hc
  have hd := he.dinode_eq hw.ok hc
  refine hw.update he.ok he.noHoles hc he.others (he.refs hw.ok hc) ?_ ?_
  · rw [hd]
    exact hl.copy ▸ hl.type
  · rw [hd]
    intro ht k' hk'
    by_cases hkk : k' = k
    · rw [hkk, he.new]
      exact hi
    · have hle := he.le_size
      have hfit : 16 * k' + 16 ≤ (s.inode dp).d.size := by
        rw [hl.copy] at hle ⊢
        dsimp only at hk'
        omega
      rw [he.old k' hkk hfit]
      exact hw.range _ hl.inum ht k' (hl.copy ▸ hfit)

theorem Entered.wellFormed (hw : s.WellFormed sb lost) (hc : s.Cached dp) (hi : inum < sb.ninodes)
    (he : Entered sb lost dp name inum k s t) : t.WellFormed sb lost :=
  he.toEntrySet.wellFormed hw hc ((Nat.mod_le _ _).trans_lt hi)

end Fs

end Xv6
