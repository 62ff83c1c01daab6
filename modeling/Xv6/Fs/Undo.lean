import Xv6.Fs.Nodes

/-!
# Operations on names that fail

`sys_link` raises the number of links before it resolves the new name, and `create` makes an inode,
with its entries `.` and `..`, before it enters it in the parent. When a later step fails, both undo
what they did: the tree is as it was (`Unchanged`), except that the parent may have got an indirect
block that it does not need yet.

Whether they fail or not, the calls keep the file system well formed, and the references are those
before the call and the one that `create` returns.
-/

namespace Xv6

namespace Fs

/-- The inodes and their files are the same, but for blocks that may have been added to `parent`. -/
structure Unchanged (sb : Superblock) (parent : Option ℕ) (s t : Fs) : Prop where
  type : ∀ i < sb.ninodes, (Disk.dinode sb t.disk i).type = (Disk.dinode sb s.disk i).type
  nlink : ∀ i < sb.ninodes, (Disk.dinode sb t.disk i).nlink = (Disk.dinode sb s.disk i).nlink
  same : ∀ i < sb.ninodes, (Disk.dinode sb s.disk i).type ≠ 0 → SameFile sb i s t
  blocks : ∀ i sl, parent ≠ some i → t.stores sb (i, sl) = s.stores sb (i, sl)

/-- The inode `i` has the fields `d`, and nothing else has changed on the disk. -/
structure Altered (sb : Superblock) (i : ℕ) (d : Dinode) (s t : Fs) : Prop where
  dinode : i < sb.ninodes → Disk.dinode sb t.disk i = d
  others : Others sb i s t
  stores : t.stores sb = s.stores sb
  blocks : SameBlocks sb i s t

variable {sb : Superblock} {s t u : Fs} {ip dp cwd : Fin ninode} {i j k inum tot : ℕ} {lost : Set ℕ}
  {h : Multiset (Fin ninode)} {name path : List UInt8} {type major minor : Int16}
  {parent : Option ℕ} {E : FsPanic → Fs → Prop}

/-! ## Paths in a tree that is the same -/

theorem lookup_congr (hsize : (Disk.dinode sb t.disk i).size = (Disk.dinode sb s.disk i).size)
    (hentry : ∀ k, 16 * k + 16 ≤ (Disk.dinode sb s.disk i).size →
      t.entry sb i k = s.entry sb i k) : t.lookup sb i name = s.lookup sb i name := by
  rw [lookup, lookup, hsize]
  refine congrArg (fun l => Option.map Dirent.inum (List.find? _ l))
    (List.map_congr_left fun k hk => hentry k ?_)
  have := List.mem_range.1 hk
  omega

/-- A path leads to the same inode in a tree with the same directories. -/
theorem resolve_congr (hw : s.WellFormed sb lost)
    (htype : ∀ i < sb.ninodes, (Disk.dinode sb t.disk i).type = (Disk.dinode sb s.disk i).type)
    (hlookup : ∀ i < sb.ninodes, (Disk.dinode sb s.disk i).type = tDir →
      ∀ name, t.lookup sb i name = s.lookup sb i name) {par : Bool} {fuel : ℕ}
    (hi : i < sb.ninodes) :
    t.resolve sb par fuel i path name = s.resolve sb par fuel i path name := by
  induction fuel generalizing i path name with
  | zero => rfl
  | succ fuel ih =>
    rw [resolve, resolve]
    split
    next => rfl
    next last rest _ =>
    rw [htype i hi]
    split
    next => rfl
    next hdir =>
    split
    next => rfl
    next =>
    rw [hlookup i hi (not_not.1 hdir)]
    cases hl : s.lookup sb i last with
    | none => rfl
    | some j =>
      obtain ⟨k, hk, _, rfl⟩ := exists_of_lookup_eq_some hl
      exact ih (hw.range i hi (not_not.1 hdir) k hk)

theorem WellFormed.startOf_lt (hw : s.WellFormed sb lost) (hcwd : 0 < (s.inode cwd).ref) :
    s.startOf cwd path < sb.ninodes := by
  rw [startOf]
  split
  · exact hw.root
  · exact hw.ok.table.inum cwd hcwd

/-- A path leads to the same inode if fields of an inode have changed, but not its type or its
    size. -/
theorem Altered.parentOf (hw : s.WellFormed sb lost) (hcwd : 0 < (s.inode cwd).ref) {d : Dinode}
    (ha : Altered sb i d s t) (htype : d.type = (Disk.dinode sb s.disk i).type)
    (hsize : d.size = (Disk.dinode sb s.disk i).size)
    (hinum : (t.inode cwd).inum = (s.inode cwd).inum) :
    t.parentOf sb cwd path = s.parentOf sb cwd path := by
  have hfields : ∀ j < sb.ninodes,
      (Disk.dinode sb t.disk j).type = (Disk.dinode sb s.disk j).type ∧
      (Disk.dinode sb t.disk j).size = (Disk.dinode sb s.disk j).size := by
    intro j hj
    by_cases hji : j = i
    · subst hji
      rw [ha.dinode hj]
      exact ⟨htype, hsize⟩
    · rw [ha.others.dinode j hj hji]
      exact ⟨rfl, rfl⟩
  have hblocks : ∀ j, SameBlocks sb j s t := fun j => by
    by_cases hji : j = i
    · rw [hji]
      exact ha.blocks
    · exact (ha.others.sameFile hji).toSameBlocks
  have hstart : t.startOf cwd path = s.startOf cwd path := by
    rw [startOf, startOf, hinum]
  rw [Fs.parentOf, Fs.parentOf, hstart]
  refine resolve_congr hw (fun j hj => (hfields j hj).1) (fun j hj hdir name => ?_)
    (hw.startOf_lt hcwd)
  exact lookup_congr (hfields j hj).2 fun k hk =>
    (hblocks j).entry hw.noHoles hj (by rw [hdir]; decide) hk

/-! ## What has changed -/

theorem Unchanged.of_disk (hd : t.disk = s.disk) : Unchanged sb parent s t :=
  ⟨fun _ _ => by rw [hd], fun _ _ => by rw [hd], fun _ _ _ => .of_disk hd,
    fun _ _ _ => by rw [stores_congr hd]⟩

theorem Altered.of_fielded {d : Dinode} (hc : s.Cached ip) (hf : Fielded sb lost ip d s t) :
    Altered sb (s.inode ip).inum d s t :=
  ⟨fun _ => hf.dinode_eq hc, hf.others, hf.stores, hf.sameBlocks⟩

theorem Altered.of_disk {d : Dinode} {s' t' : Fs} (ha : Altered sb i d s t) (hs : s.disk = s'.disk)
    (ht : t'.disk = t.disk) : Altered sb i d s' t' where
  dinode hi := by rw [ht, ha.dinode hi]
  others := (Others.of_disk hs).trans (ha.others.trans (.of_disk ht))
  stores := by rw [stores_congr ht, ha.stores, stores_congr hs]
  blocks := (SameBlocks.of_disk hs).trans (ha.blocks.trans (.of_disk ht))

/-- The number of links was set. -/
theorem Altered.nodes_eq {d : Dinode} (ha : Altered sb i d s t) (hno : s.NoHoles sb)
    (hi : i < sb.ninodes) (htype : d.type = (Disk.dinode sb s.disk i).type)
    (hsize : d.size = (Disk.dinode sb s.disk i).size) :
    t.nodes sb = Function.update (s.nodes sb) ⟨i, hi⟩
      { s.nodes sb ⟨i, hi⟩ with links := d.nlink.toInt } := by
  rw [nodes_eq_update (x := ⟨i, hi⟩) hno fun j hj => ha.others.sameFile hj]
  congr 1
  have hd := ha.dinode hi
  have huse : ∀ k, t.inUse sb i k = s.inUse sb i k :=
    ha.blocks.inUse hno hi (by rw [hd, htype]) (by rw [hd, hsize])
  rw [nodes, nodes]
  simp only [inodeNamed, huse, hd, htype]

/-- A tree with the same inodes and files. -/
theorem Unchanged.nodes_eq (h : Unchanged sb parent s t) (hno : s.NoHoles sb) :
    t.nodes sb = s.nodes sb := by
  funext i
  by_cases htype : (Disk.dinode sb s.disk i).type = 0
  · refine nodes_congr (h.type i i.isLt) (h.nlink i i.isLt) fun k => ?_
    have hne : (0 : Int16) ≠ tDir := by decide
    rw [inUse_of_type_ne (by rw [h.type i i.isLt, htype]; exact hne),
      inUse_of_type_ne (by rw [htype]; exact hne)]
  · exact (h.same i i.isLt htype).nodes_eq hno i.isLt

/-- Setting fields of an inode that is locked. -/
theorem wp_alter (hsb : sb.Wf) (hw : s.WellFormed sb lost) (hc : s.Cached ip) {f : Dinode → Dinode}
    (haddrs : (f (s.inode ip).d).addrs = (s.inode ip).d.addrs)
    (hsize : (f (s.inode ip).d).size = (s.inode ip).d.size)
    (htype : (f (s.inode ip).d).type = (s.inode ip).d.type) {β : Type} {g : FsM β}
    {Q : β → Fs → Prop}
    (hQ : ∀ t, t.WellFormed sb lost → Refs sb s 0 t → SetTo ip (f (s.inode ip).d) s t →
      Altered sb (s.inode ip).inum (f (s.inode ip).d) s t → wp g Q E t) :
    wp (do setDinode ip f
           iupdate sb ip
           g) Q E s := by
  have hset := wp_setFields (E := E) hsb hw.ok hc haddrs hsize htype
  rw [wp_bind] at hset ⊢
  refine hset.mono (fun _ u hu => ?_) fun _ _ he => he
  rw [wp_bind]
  refine hu.mono (fun _ t hf => ?_) fun _ _ he => he
  exact hQ t (hf.wellFormed hw hc htype hsize) (hf.refs hw.ok hc htype) hf.inode (.of_fielded hc hf)

/-! ## `sys_link` -/

/-- The link that was counted is taken back. -/
theorem wp_linkBad (hsb : sb.Wf) (hw : s.WellFormed sb lost) (href : 0 < (s.inode ip).ref)
    (hspare : (s.inode ip).ref = 1 → (Disk.dinode sb s.disk (s.inode ip).inum).nlink ≠ 1)
    {Q : ℤ → Fs → Prop}
    (hQ : ∀ t, t.WellFormed sb lost → Released sb ip s t →
      Altered sb (s.inode ip).inum { Disk.dinode sb s.disk (s.inode ip).inum with
        nlink := (Disk.dinode sb s.disk (s.inode ip).inum).nlink - 1 } s t → Q (-1) t) :
    wp (linkBad sb ip) Q E s := by
  rw [linkBad, wp_bind]
  refine wp_ilock_holding (Holding.refl hw.ok) (fun t ht hc hd hslot _ => ?_) fun hz =>
    (hz.elim href.ne' (hw.held ip href)).elim
  have htw := ht.wellFormed hw fun _ hmem => absurd hmem (Multiset.notMem_zero _)
  refine wp_alter hsb htw hc (f := fun d => { d with nlink := d.nlink - 1 }) rfl rfl rfl
    fun u hu hr hset ha => ?_
  have hs : u.Spare ip := by
    refine ⟨(hr.cached hc).1, ?_⟩
    rintro ⟨h₁, -, h₃⟩
    rw [hset.self] at h₁ h₃
    rw [(hslot ip).1] at h₁
    dsimp only at h₃
    rw [hd] at h₃
    refine hspare h₁ ?_
    rw [← Int16.sub_add_cancel (Disk.dinode sb s.disk (s.inode ip).inum).nlink 1, h₃]
    rfl
  rw [iunlockput, wp_bind]
  refine wp_iput_spare hsb hu.ok hs fun v hv => ?_
  rw [hd, (hslot ip).2] at ha
  exact hQ v (hv.wellFormed hu hs) ((ht.toRefs.trans hr).released hv.released)
    (ha.of_disk ht.disk hv.disk)

/-- A link is counted, blocks are added at most, and the link is taken back. -/
theorem Altered.unchanged {v x : Fs} (hup : Altered sb i { Disk.dinode sb s.disk i with
      nlink := (Disk.dinode sb s.disk i).nlink + 1 } s v) (hsame : ∀ j, SameFile sb j v x)
    (hblocks : ∀ j sl, parent ≠ some j → x.stores sb (j, sl) = v.stores sb (j, sl))
    (hdown : Altered sb i { Disk.dinode sb x.disk i with
      nlink := (Disk.dinode sb x.disk i).nlink - 1 } x t) : Unchanged sb parent s t := by
  have hfile : ∀ j, SameFile sb j s t := by
    intro j
    by_cases hji : j = i
    · subst hji
      refine ⟨hup.blocks.trans ((hsame j).toSameBlocks.trans hdown.blocks), fun hj => ?_⟩
      have hx := (hsame j).dinode hj
      rw [hup.dinode hj] at hx
      rw [hdown.dinode hj, hx]
      dsimp only
      rw [Int16.add_sub_cancel]
    · exact (hup.others.sameFile hji).trans ((hsame j).trans (hdown.others.sameFile hji))
  refine ⟨fun j hj => by rw [(hfile j).dinode hj], fun j hj => by rw [(hfile j).dinode hj],
    fun j _ _ => hfile j, fun j sl hj => ?_⟩
  rw [hdown.stores, hblocks j sl hj, hup.stores]

/-- What is known of a call that has returned `r`, when the references are those before it. -/
structure CallDone (sb : Superblock) (lost : Set ℕ) (parent : Option ℕ) (s : Fs) (r : ℤ) (t : Fs) :
    Prop where
  wellFormed : t.WellFormed sb lost
  refs : Refs sb s 0 t
  fails : r ≠ 0 → Unchanged sb parent s t
  follows : s.Follows sb parent t

theorem Holding.callDone (hw : s.WellFormed sb lost) (ht : Holding sb lost s 0 t) (r : ℤ) :
    CallDone sb lost parent s r t :=
  ⟨ht.wellFormed hw fun _ hmem => absurd hmem (Multiset.notMem_zero _), ht.toRefs,
    fun _ => .of_disk ht.disk, .of_nodes (nodes_of_disk ht.disk)⟩

/-- A call that has changed nothing. -/
theorem Unchanged.callDone (hw : s.WellFormed sb lost) (ht : t.WellFormed sb lost)
    (hr : Refs sb s 0 t) (hu : Unchanged sb parent s t) (r : ℤ) : CallDone sb lost parent s r t :=
  ⟨ht, hr, fun _ => hu, .of_nodes (hu.nodes_eq hw.noHoles)⟩

/-- A link is counted, and a name is entered for it. -/
theorem Entered.link_follows {w x : Fs} (hs : s.WellFormed sb lost) (hi : i < sb.ninodes)
    (hfree : (Disk.dinode sb s.disk i).type ≠ 0) (hdir : (Disk.dinode sb s.disk i).type ≠ tDir)
    (hup : Altered sb i { Disk.dinode sb s.disk i with
      nlink := (Disk.dinode sb s.disk i).nlink + 1 } s w) (hw : w.WellFormed sb lost)
    (hc : w.Cached dp) (he : Entered sb lost dp name i k w x) :
    s.Follows sb (some (w.inode dp).inum) x := by
  intro ht hroom strict hstrict
  have hd := hw.ok.table.inum dp hc.1
  have hwn := hup.nodes_eq hs.noHoles hi rfl rfl
  have hdirw : (Disk.dinode sb w.disk (w.inode dp).inum).type = tDir := by
    rw [← (hw.ok.loaded hc).copy, he.type]
  have hne : (w.inode dp).inum ≠ i := fun h => by
    rw [h, hup.dinode hi] at hdirw
    exact hdir hdirw
  have hds := hup.others.dinode _ hd hne
  have huse : w.inUse sb (w.inode dp).inum k = s.inUse sb (w.inode dp).inum k :=
    (hup.others.sameFile hne).toSameBlocks.inUse hs.noHoles hd (by rw [hds]) (by rw [hds]) k
  have htwo : w.inUse sb (w.inode dp).inum k = none → 2 ≤ k := fun h => by
    rw [huse] at h
    rw [hds] at hdirw
    exact ht.two_le hd hdirw h
  obtain ⟨m, hm⟩ := he.slotTaken hw hc ht.narrow htwo hi (ht.pos hi hfree)
  have hne' : (⟨(w.inode dp).inum, hd⟩ : Fin sb.ninodes) ≠ ⟨i, hi⟩ :=
    fun h => hne (congrArg Fin.val h)
  have hparent : w.nodes sb ⟨(w.inode dp).inum, hd⟩ = s.nodes sb ⟨(w.inode dp).inum, hd⟩ := by
    rw [hwn, Function.update_of_ne hne']
  obtain ⟨hmd, hvac, habs, hx⟩ := hm
  rw [hparent] at hmd hvac habs hx
  have hkind : (s.nodes sb ⟨i, hi⟩).kind = .file := by
    change kindOf _ = _
    rw [kindOf, if_neg hfree, if_neg hdir]
  have hlinks : ((Disk.dinode sb s.disk i).nlink + 1).toInt =
      (s.nodes sb ⟨i, hi⟩).links + 1 := toInt_add_one (hroom i hi)
  have hxn : x.nodes sb = Function.update (Function.update (s.nodes sb) ⟨(w.inode dp).inum, hd⟩
      ((s.nodes sb ⟨(w.inode dp).inum, hd⟩).edit m (some (cstr dirsiz name, ⟨i, hi⟩)) 0)) ⟨i, hi⟩
      ((s.nodes sb ⟨i, hi⟩).addLinks 1) := by
    rw [hx, hwn, hlinks, Function.update_comm hne']
    rfl
  refine ⟨?_, fun z hz hf => ?_⟩
  · rw [hxn]
    exact .single (.link hmd hvac habs hkind fun h => toInt_ne_zero (hstrict h _ rfl))
  · rw [hxn]
    have hzi : z ≠ ⟨i, hi⟩ := by
      rintro rfl
      rw [hkind] at hf
      cases hf
    have hzd : z ≠ ⟨(w.inode dp).inum, hd⟩ := by
      rintro rfl
      rw [hmd] at hf
      cases hf
    rwa [NameTree.update_of_ne_pair hzd hzi]

/-- An inode that the call has locked is allocated. -/
theorem Holding.wellFormed_of_cached (hw : s.WellFormed sb lost) (hh : Holding sb lost s h t)
    (hc : ∀ ip ∈ h, t.Cached ip) : t.WellFormed sb lost :=
  hh.wellFormed hw fun ip hip => by
    have hl := hh.ok.loaded (hc ip hip)
    exact hl.copy ▸ hl.type

/-- The links of an inode that the call has locked, if it has the only reference. -/
theorem Holding.nlink_ne (hw : s.WellFormed sb lost) (hh : Holding sb lost s (ip ::ₘ h) t)
    (hc : t.Cached ip) (href : (t.inode ip).ref = 1) :
    (Disk.dinode sb t.disk (t.inode ip).inum).nlink ≠ 0 := by
  intro hz
  rw [← (hh.ok.loaded hc).copy] at hz
  exact (hh.spare hw).not_free ⟨href, hc.2, hz⟩

/-- `sys_link` keeps the file system well formed, and does nothing if it fails. -/
theorem wp_sysLink (hsb : sb.Wf) (hw : s.WellFormed sb lost) (hcwd : 0 < (s.inode cwd).ref)
    (old new : Option (List UInt8)) :
    wp (sysLink sb cwd old new) (CallDone sb lost
      (new.bind fun new => (s.parentOf sb cwd new).map Prod.fst) s) (fun _ _ => True) s := by
  have hstart : ∀ r, CallDone sb lost (new.bind fun new => (s.parentOf sb cwd new).map Prod.fst)
      s r s := fun r => (Holding.refl hw.ok).callDone hw r
  obtain _ | old := old
  · exact hstart (-1)
  obtain _ | new := new
  · exact hstart (-1)
  rw [sysLink, wp_bind]
  refine wp_namei hsb hw hcwd (fun t _ ht => ht.callDone hw _) (fun ip t _ ht => ?_)
    (fun _ _ _ => trivial) fun _ _ => trivial
  dsimp only
  rw [wp_bind]
  refine wp_ilock_holding ht (fun u hu hc hd _ _ => ?_) fun _ _ _ => trivial
  rw [wp_bind, wp_get]
  -- Directories are not linked.
  split
  next =>
    rw [iunlockput, wp_bind]
    exact wp_iput_holding hsb hw hu fun v hv _ => hv.callDone hw _
  next htype =>
  have huw : u.WellFormed sb lost :=
    hu.wellFormed_of_cached hw fun jp hjp => Multiset.mem_singleton.1 hjp ▸ hc
  have hnlink := hu.nlink_ne (h := 0) hw hc
  have hcopy := (huw.ok.loaded hc).copy
  refine wp_alter hsb huw hc (f := fun d => { d with nlink := d.nlink + 1 }) rfl rfl rfl
    fun v hv hr hset ha => ?_
  rw [hcopy] at ha
  have ha' := ha.of_disk hu.disk rfl
  have hcv : v.Cached ip := hr.cached hc
  have hsv : Refs sb s {ip} v := hu.toRefs.trans_zero hr
  have hvinum : (v.inode ip).inum = (u.inode ip).inum := hr.inum ip hc.1
  have hcwdv : 0 < (v.inode cwd).ref := by
    rw [hsv.ref]
    omega
  have hpar : v.parentOf sb cwd new = s.parentOf sb cwd new :=
    ha'.parentOf hw hcwd (by rw [hu.disk]) (by rw [hu.disk]) (hsv.inum cwd hcwd)
  -- The link is taken back where the references are those of `v`.
  have hbad : ∀ w, w.WellFormed sb lost → Refs sb v 0 w → (∀ j, SameFile sb j v w) →
      (∀ j sl, (s.parentOf sb cwd new).map Prod.fst ≠ some j →
        w.stores sb (j, sl) = v.stores sb (j, sl)) →
      wp (linkBad sb ip) (CallDone sb lost ((some new).bind fun new =>
        (s.parentOf sb cwd new).map Prod.fst) s) (fun _ _ => True) w := by
    intro w hww hwr hsame hblocks
    have hcw : w.Cached ip := hwr.cached hcv
    have hwinum : (w.inode ip).inum = (u.inode ip).inum := (hwr.inum ip hcv.1).trans hvinum
    have hi := huw.ok.table.inum ip hc.1
    have hnl : (Disk.dinode sb w.disk (w.inode ip).inum).nlink =
        (Disk.dinode sb u.disk (u.inode ip).inum).nlink + 1 := by
      rw [hwinum, (hsame _).dinode hi, ha.dinode hi]
    refine wp_linkBad hsb hww hcw.1 (fun href hone => ?_) fun t htw hrel halt => ?_
    · rw [hnl] at hone
      have href' : (u.inode ip).ref = 1 := by
        rw [← hr.ref_eq ip, ← hwr.ref_eq ip, href]
      have hzero := Int16.add_sub_cancel (Disk.dinode sb u.disk (u.inode ip).inum).nlink 1
      rw [hone] at hzero
      exact hnlink href' hzero.symm
    · have hrefs : Refs sb s {ip} w := hsv.trans_zero hwr
      rw [hwinum] at halt
      rw [hu.disk] at ha'
      exact (ha'.unchanged hsame hblocks halt).callDone hw htw (hrel.refs hrefs) _
  rw [wp_bind]
  refine wp_nameiparent hsb hv hcwdv (fun w _ hvw => ?_) (fun dp last w hres hcd hdir hvw => ?_)
    (fun _ _ _ => trivial) fun _ _ => trivial
  · -- There is no parent for the new name.
    exact hbad w (hvw.wellFormed hv fun _ hmem => absurd hmem (Multiset.notMem_zero _)) hvw.toRefs
      (fun _ => .of_disk hvw.disk) fun _ _ _ => by rw [stores_congr hvw.disk]
  dsimp only
  rw [wp_bind]
  refine wp_ilock_holding hvw (fun w hvw hcd _ hslot _ => ?_) fun _ _ _ => trivial
  rw [← (hslot dp).2, hpar] at hres
  have hww := hvw.wellFormed_of_cached hv fun jp hjp => Multiset.mem_singleton.1 hjp ▸ hcd
  have hsw : Refs sb s ({ip} + {dp}) w := hsv.trans hvw.toRefs
  rw [wp_bind, wp_get, wp_bind]
  refine wp_dirlink_entered hsb hvw.ok hww.noHoles hcd (fun x hx => ?_) (fun k x hx => ?_)
    (fun _ => trivial) (fun _ => ⟨trivial, trivial⟩) fun _ _ _ _ => trivial
  · -- `dirlink` fails, and may have given the parent blocks.
    rw [if_pos (by decide), iunlockput, wp_bind]
    have hspare : x.Spare dp := by
      have hsp := hvw.spare (h := 0) hv
      have hself := hx.inode dp hcd.1
      refine ⟨?_, ?_⟩
      · rw [hself]
        exact hsp.ref
      · rw [hself]
        exact hsp.not_free
    refine wp_iput_spare hsb hx.ok hspare fun y hy => ?_
    have hvy : Refs sb v 0 y := (hvw.toRefs.trans_zero hx.refs).dropped (h := 0) hy
    refine hbad y (hy.wellFormed (hx.wellFormed hww hcd) hspare) hvy (fun j => ?_) fun j sl hj => ?_
    · exact (SameFile.of_disk hvw.disk).trans ((hx.same j).trans (.of_disk hy.disk))
    · rw [stores_congr hy.disk, hx.others.stores j sl, stores_congr hvw.disk]
      rintro rfl
      exact hj (by rw [hres]; rfl)
  · -- The entry is there: both inodes are put.
    rw [if_neg (by decide), iunlockput, wp_bind]
    have hipw : 0 < (w.inode ip).ref := by
      rw [hvw.ref]
      exact hcv.1.trans_le (Nat.le_add_right _ _)
    have hxw := hx.wellFormed hww hcd (hvw.ok.table.inum ip hipw)
    have hwx := hx.refs hvw.ok hcd
    have hsx : Refs sb s (dp ::ₘ {ip}) x := by
      have := hsw.trans_zero hwx
      rwa [add_comm, Multiset.singleton_add] at this
    have hfollows : s.Follows sb (some (w.inode dp).inum) x := by
      have hl := huw.ok.loaded hc
      have hlt := huw.ok.table.inum ip hc.1
      have hvi : (w.inode ip).inum = (u.inode ip).inum := (hvw.inum ip hcv.1).trans hvinum
      rw [hvi] at hx
      rw [hu.disk] at ha'
      rw [hl.copy, hu.disk] at htype
      have hfree : (Disk.dinode sb s.disk (u.inode ip).inum).type ≠ 0 := by
        rw [← hu.disk, ← hl.copy]
        exact hl.type
      exact hx.link_follows hw hlt hfree htype (ha'.of_disk rfl hvw.disk) hww hcd
    refine wp_iput_put hsb hxw hsx.ref_pos fun y hyw hy hyp => ?_
    have hsy : Refs sb s (ip ::ₘ 0) y := hy.refs hsx
    rw [wp_bind]
    refine wp_iput_put hsb hyw hsy.ref_pos fun z hzw hz hzp => ?_
    have hpar' : ((some new).bind fun new => (s.parentOf sb cwd new).map Prod.fst) =
        some (w.inode dp).inum := by
      rw [Option.bind_some, hres]
      rfl
    rw [hpar']
    exact ⟨hzw, hz.refs hsy, fun h => absurd rfl h, (hfollows.trans_put hyp).trans_put hzp⟩

end Fs

end Xv6
