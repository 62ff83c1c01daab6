import Xv6.Fs.Undo
import Xv6.Fs.Content
import Xv6.Fs.Path

/-!
# Making and removing names

`create` makes an inode, with the entries `.` and `..` of a directory, before it enters it in the
parent; `sys_unlink` erases an entry after all its checks. While `create` makes the inode `inum`,
the other inodes are as they were, but for blocks that were added to the parent (`Making`), so that
freeing the new inode undoes everything.

In a well-formed file system, `create`, `sys_link` and `sys_unlink` change nothing in the tree when
they fail, whatever the reason (`names_undone`).
-/

namespace Xv6

namespace Fs

/-- The call has found the file system `s`, with the parent `dp` locked, and makes the inode `inum`,
    in the entry `ip`: the other inodes are as in `s`, but for blocks that may have been added to
    the parent. -/
structure Making (sb : Superblock) (lost : Set ℕ) (type : Int16) (s : Fs) (inum : ℕ)
    (ip dp : Fin ninode) (t : Fs) : Prop where
  wellFormed : t.WellFormed sb lost
  refs : Refs sb s {ip} t
  lt : inum < sb.ninodes
  free : (Disk.dinode sb s.disk inum).type = 0
  unused : (s.inode ip).ref = 0
  cached : t.Cached ip
  slot : (t.inode ip).inum = inum
  typed : (Disk.dinode sb t.disk inum).type = type
  same : ∀ j, j ≠ inum → SameFile sb j s t
  blocks : ∀ j sl, j ≠ inum → j ≠ (s.inode dp).inum → t.stores sb (j, sl) = s.stores sb (j, sl)

/-- What is known of a call of `create` that has returned `r`: the references are those before it
    and the one that is returned, and nothing has changed if it has failed. An inode that is
    returned was there, as a file or a device, or it is new. -/
structure Created (sb : Superblock) (lost : Set ℕ) (type : Int16) (parent : Option ℕ) (s : Fs)
    (r : Option (Fin ninode)) (t : Fs) : Prop where
  wellFormed : t.WellFormed sb lost
  refs : Refs sb s (r.elim 0 fun ip => {ip}) t
  fails : r = none → Unchanged sb parent s t
  cached : ∀ ip, r = some ip → t.Cached ip
  made : ∀ ip, r = some ip →
    (t.disk = s.disk ∧ type = tFile ∧
      ((t.inode ip).d.type = tFile ∨ (t.inode ip).d.type = tDevice)) ∨
    1 ≤ (t.inode ip).inum ∧ (t.inode ip).inum < sb.ninodes ∧
      (Disk.dinode sb s.disk (t.inode ip).inum).type = 0 ∧
      (Disk.dinode sb t.disk (t.inode ip).inum).type = type
  follows : s.Follows sb parent t

/-- The directory `i` has the entries `.` and `..` only. -/
structure Dotted (sb : Superblock) (i parent : ℕ) (t : Fs) : Prop where
  dot : t.inUse sb i 0 = some ⟨i, strncpy dot dirsiz⟩
  dotdot : t.inUse sb i 1 = some ⟨parent, strncpy dotdot dirsiz⟩
  empty : ∀ k, 2 ≤ k → t.inUse sb i k = none

variable {sb : Superblock} {s t u v : Fs} {ip dp cwd : Fin ninode} {i j k inum tot : ℕ}
  {lost : Set ℕ} {h : Multiset (Fin ninode)} {name path : List UInt8} {type major minor : Int16}
  {parent : Option ℕ} {E : FsPanic → Fs → Prop}

/-! ## Making an inode -/

/-- A new inode, as `ialloc` and `ilock` leave it. -/
theorem Fresh.making (hf : Fresh sb lost type s inum ip t) (dp : Fin ninode) :
    Making sb lost type s inum ip dp t where
  wellFormed := hf.wellFormed
  refs := hf.refs
  lt := hf.lt
  free := hf.free
  unused := hf.unused
  cached := by
    rw [Cached, hf.inode]
    exact ⟨Nat.one_pos, rfl⟩
  slot := by rw [hf.inode]
  typed := by
    rw [hf.dinode]
    rfl
  same _ hj := hf.others.sameFile hj
  blocks j sl hj _ := by rw [hf.stores]

/-- A step that changes the new inode, or adds blocks to the parent. -/
theorem Making.next (hm : Making sb lost type s inum ip dp t) (hw : u.WellFormed sb lost)
    (hr : Refs sb t 0 u) (hsame : ∀ j, j ≠ inum → SameFile sb j t u)
    (hblocks : ∀ j sl, j ≠ inum → j ≠ (s.inode dp).inum →
      u.stores sb (j, sl) = t.stores sb (j, sl)) :
    Making sb lost type s inum ip dp u where
  wellFormed := hw
  refs := hm.refs.trans_zero hr
  lt := hm.lt
  free := hm.free
  unused := hm.unused
  cached := hr.cached hm.cached
  slot := (hr.inum ip hm.cached.1).trans hm.slot
  typed := by
    have htype := hr.type ip hm.cached.1
    rw [hm.slot] at htype
    exact htype.trans hm.typed
  same j hj := (hm.same j hj).trans (hsame j hj)
  blocks j sl hj hjd := (hblocks j sl hj hjd).trans (hm.blocks j sl hj hjd)

/-- Only the new inode has changed. -/
theorem Making.others (hm : Making sb lost type s inum ip dp t) (hw : u.WellFormed sb lost)
    (hr : Refs sb t 0 u) (ho : Others sb inum t u) : Making sb lost type s inum ip dp u :=
  hm.next hw hr (fun _ hj => ho.sameFile hj) fun j sl hj _ => ho.stores j sl hj

/-- The parent is another inode. -/
theorem Making.parent_ne (hm : Making sb lost type s inum ip dp t) (hw : s.WellFormed sb lost)
    (hd : s.Cached dp) : (s.inode dp).inum ≠ inum ∧ dp ≠ ip := by
  constructor
  · intro h
    exact hw.held dp hd.1 (h ▸ hm.free)
  · rintro rfl
    exact hd.1.ne' hm.unused

/-- The parent has other references or links. -/
theorem Making.spare (hm : Making sb lost type s inum ip dp t) (hw : s.WellFormed sb lost)
    (hd : s.Cached dp) (hs : s.Spare dp) : t.Spare dp := by
  obtain ⟨hne, hdi⟩ := hm.parent_ne hw hd
  have href : (t.inode dp).ref = (s.inode dp).ref := by
    rw [hm.refs.ref, Multiset.count_singleton, if_neg hdi]
    rfl
  have hls := hw.ok.loaded hd
  have hlt := hm.wellFormed.ok.loaded (hm.refs.cached hd)
  have hnlink : (t.inode dp).d.nlink = (s.inode dp).d.nlink := by
    rw [hlt.copy, hm.refs.inum dp hd.1, (hm.same _ hne).dinode hls.inum, hls.copy]
  refine ⟨href ▸ hs.ref, fun hfree => hs.not_free ?_⟩
  rw [href, hnlink] at hfree
  exact ⟨hfree.1, hd.2, hfree.2.2⟩

/-- `create` fails: the new inode is freed. -/
theorem Making.wp_undo (hsb : sb.Wf) (hw : s.WellFormed sb lost) (hd : s.Cached dp)
    (hs : s.Spare dp) (hm : Making sb lost type s inum ip dp t)
    {Q : Option (Fin ninode) → Fs → Prop}
    (hQ : ∀ u, u.WellFormed sb lost → Released sb dp s u →
      Unchanged sb (some (s.inode dp).inum) s u → Q none u) : wp (createUndo sb dp ip) Q E t := by
  obtain ⟨hne, hdi⟩ := hm.parent_ne hw hd
  rw [createUndo, wp_bind, createFail]
  refine wp_alter hsb hm.wellFormed hm.cached (f := fun d => { d with nlink := 0 }) rfl rfl rfl
    fun v hv hr hset ha => ?_
  rw [hm.slot] at ha
  have hmv := hm.others hv hr ha.others
  have href : (v.inode ip).ref = 1 := by
    rw [hmv.refs.ref, hm.unused, Multiset.count_singleton_self]
  have hnlink : (v.inode ip).d.nlink = 0 := by rw [hset.self]
  rw [iunlockput]
  refine wp_iput hsb hv.ok hmv.cached.1 (fun _ _ _ w hf => ?_) fun hno =>
    absurd ⟨href, hmv.cached.2, hnlink⟩ hno
  have hww := hf.wellFormed hv href hnlink
  have hrw : Refs sb s 0 w := (hf.released hv.ok href).refs hmv.refs
  have hspare : w.Spare dp := by
    have hsp := hmv.spare hw hd hs
    have hself := hf.frame dp hdi
    refine ⟨?_, ?_⟩
    · rw [hself]
      exact hsp.ref
    · rw [hself]
      exact hsp.not_free
  rw [wp_bind, iunlockput]
  refine wp_iput_spare hsb hww.ok hspare fun x hx => ?_
  rw [wp_pure]
  have hinum := hmv.slot
  have hfd := hf.dinode
  have hfo := hf.others
  have hfs := hf.stores
  rw [hinum] at hfd hfo hfs
  have hsame : ∀ j, j ≠ inum → SameFile sb j s x := fun j hj =>
    (hmv.same j hj).trans ((hfo.sameFile hj).trans (.of_disk hx.disk))
  refine hQ x (hx.wellFormed hww hspare) (hrw.released hx.released)
    ⟨fun j hj => ?_, fun j hj => ?_, fun j _ htype => ?_, fun j sl hj => ?_⟩
  · by_cases hji : j = inum
    · rw [hji, hx.disk, hfd, hm.free]
    · rw [(hsame j hji).dinode hj]
  · by_cases hji : j = inum
    · rw [hji, hx.disk, hfd, hw.free inum hm.lt hm.free]
      exact hnlink
    · rw [(hsame j hji).dinode hj]
  · refine hsame j ?_
    rintro rfl
    exact htype hm.free
  · rw [stores_congr hx.disk]
    by_cases hji : j = inum
    · rw [hji, hfs sl, stores, stored_of_not_alloced fun ha => ha.2 hm.free]
    · rw [hfo.stores j sl hji, hmv.blocks j sl hji fun h => hj (by rw [h])]

/-- An entry of the new directory is made, or not. -/
theorem Making.wp_enter (hsb : sb.Wf) (hm : Making sb lost type s inum ip dp t) {n : ℕ}
    (hn : n < sb.ninodes) {Q : ℤ → Fs → Prop}
    (hQ : ∀ r u, Making sb lost type s inum ip dp u →
      (¬r < 0 → ∃ k, Entered sb lost ip name n k t u) → Q r u) :
    wp (dirlink sb ip name n) Q (fun _ _ => True) t := by
  have hw := hm.wellFormed
  refine wp_dirlink_entered hsb hw.ok hw.noHoles hm.cached (fun u hu => ?_) (fun k u hu => ?_)
    (fun _ => trivial) (fun _ => ⟨trivial, trivial⟩) fun _ _ _ _ => trivial
  · have ho := hu.others
    rw [hm.slot] at ho
    exact hQ _ u (hm.others (hu.wellFormed hw hm.cached) hu.refs ho)
      fun h => absurd (by decide : (-1 : ℤ) < 0) h
  · have ho := hu.others
    rw [hm.slot] at ho
    exact hQ _ u (hm.others (hu.wellFormed hw hm.cached hn) (hu.refs hw.ok hm.cached) ho)
      fun _ => ⟨k, hu⟩

/-- The first two entries of an empty directory. -/
theorem Entered.dotted {parent k₀ k₁ : ℕ} (ht : t.Ok sb lost) (hct : t.Cached ip)
    (hu : u.Ok sb lost) (hcu : u.Cached ip) (hinum : (t.inode ip).inum = i)
    (hinum' : (u.inode ip).inum = i) (hsize : (t.inode ip).d.size = 0)
    (h₀ : Entered sb lost ip dot i k₀ t u) (h₁ : Entered sb lost ip dotdot parent k₁ u v)
    (hi : i < 2 ^ 16) (hne : i ≠ 0) (hp : parent < 2 ^ 16) (hpne : parent ≠ 0) :
    Dotted sb i parent v := by
  have hmod : i % 2 ^ 16 = i := Nat.mod_eq_of_lt hi
  have hmod' : parent % 2 ^ 16 = parent := Nat.mod_eq_of_lt hp
  have hk₀ : k₀ = 0 := by
    have := h₀.le_size
    omega
  subst hk₀
  obtain ⟨hnew₀, hold₀⟩ := h₀.inUse_eq ht hct h₀.type
  obtain ⟨hnew₁, hold₁⟩ := h₁.inUse_eq hu hcu h₁.type
  rw [hinum] at hnew₀ hold₀
  rw [hinum'] at hnew₁ hold₁
  dsimp only at hnew₀ hnew₁
  rw [hmod, if_neg hne] at hnew₀
  rw [hmod', if_neg hpne] at hnew₁
  have hsize' : (u.inode ip).d.size = 16 := by
    rw [h₀.inode.self, hsize]
    rfl
  have hk₁ : k₁ = 1 := by
    have hle := h₁.le_size
    have hk : k₁ ≠ 0 := by
      rintro rfl
      have hz := h₁.vacant (by omega)
      rw [hinum', ← hinum, h₀.new] at hz
      rw [hmod] at hz
      exact hne hz
    omega
  subst hk₁
  refine ⟨?_, hnew₁, fun k hk => ?_⟩
  · rw [hold₁ 0 (by decide), hnew₀]
  · rw [hold₁ k (by omega), hold₀ k (by omega), inUse, ← hinum, ← (ht.loaded hct).copy, hsize]
    exact if_neg fun h => by omega

/-- The entries `.` and `..`. -/
theorem Making.wp_dots (hsb : sb.Wf) (hd : s.Cached dp) (hm : Making sb lost type s inum ip dp t)
    (hsize : (t.inode ip).d.size = 0) {Q : Bool → Fs → Prop}
    (hQ : ∀ b v, Making sb lost type s inum ip dp v → (b = true →
      (Disk.dinode sb v.disk inum).nlink = (Disk.dinode sb t.disk inum).nlink ∧
      (sb.ninodes ≤ 2 ^ 16 → inum ≠ 0 → (s.inode dp).inum ≠ 0 →
        Dotted sb inum (s.inode dp).inum v)) → Q b v) :
    wp (dirlinkDots sb dp ip) Q (fun _ _ => True) t := by
  rw [dirlinkDots, wp_bind, wp_get, wp_bind]
  refine hm.wp_enter hsb (hm.slot ▸ hm.lt) fun r u hu hru => ?_
  split
  · exact hQ false u hu fun h => Bool.noConfusion h
  next hr =>
  obtain ⟨k₀, h₀⟩ := hru hr
  rw [wp_bind, wp_get, wp_bind]
  have hdu := hu.refs.cached hd
  have hdi : (u.inode dp).inum = (s.inode dp).inum := hu.refs.inum dp hd.1
  have hdlt := hu.wellFormed.ok.table.inum dp hdu.1
  refine hu.wp_enter hsb hdlt fun r v hv hrv => ?_
  split
  · exact hQ false v hv fun h => Bool.noConfusion h
  next hr' =>
  obtain ⟨k₁, h₁⟩ := hrv hr'
  have hot := hm.wellFormed.ok
  have hou := hu.wellFormed.ok
  refine hQ true v hv fun _ => ⟨?_, fun hn hne hpne => ?_⟩
  · have e₀ := h₀.dinode_eq hot hm.cached
    have e₁ := h₁.dinode_eq hou hu.cached
    rw [hm.slot] at e₀
    rw [hu.slot] at e₁
    rw [e₁, e₀]
  · rw [hm.slot] at h₀
    rw [hdi] at h₁ hdlt
    exact h₀.dotted hot hm.cached hou hu.cached hm.slot hu.slot hsize h₁ (hm.lt.trans_le hn) hne
      (hdlt.trans_le hn) hpne

/-- The node of the new inode. -/
theorem Making.nodes_eq (hm : Making sb lost type s inum ip dp t) (hw : s.WellFormed sb lost)
    (hd : s.Cached dp) (hnlink : (Disk.dinode sb t.disk inum).nlink = 1)
    (hdots : type = tDir → Dotted sb inum (s.inode dp).inum t) :
    t.nodes sb = Function.update (s.nodes sb) ⟨inum, hm.lt⟩
      (.fresh (kindOf type) ⟨(s.inode dp).inum, hw.ok.table.inum dp hd.1⟩ ⟨inum, hm.lt⟩) := by
  have hdlt := hw.ok.table.inum dp hd.1
  rw [nodes_eq_update (x := ⟨inum, hm.lt⟩) hw.noHoles hm.same]
  congr 1
  rw [nodes, hm.typed, hnlink, TreeNode.fresh]
  by_cases htype : type = tDir
  · obtain ⟨h₀, h₁, hempty⟩ := hdots htype
    have hkind : kindOf type = .dir := kindOf_eq_dir.2 htype
    have hself : t.inodeNamed sb inum 0 dot = some ⟨inum, hm.lt⟩ := by
      rw [inodeNamed, h₀, Option.bind_some, cstr_strncpy, if_pos (by decide), number_of_lt hm.lt]
    have hup : t.inodeNamed sb inum 1 dotdot = some ⟨(s.inode dp).inum, hdlt⟩ := by
      rw [inodeNamed, h₁, Option.bind_some, cstr_strncpy, if_pos (by decide), number_of_lt hdlt]
    have hentry : ∀ m : DirSlot, t.inUse sb inum (m + 2) = none := fun m =>
      hempty _ (Nat.le_add_left 2 m)
    rw [hkind, if_pos rfl, if_pos rfl]
    simp only [hself, hup, hentry, Option.bind_none]
    rfl
  · have hnone : ∀ k, t.inUse sb inum k = none := fun k =>
      inUse_of_type_ne (by rw [hm.typed]; exact htype)
    have hkind : kindOf type ≠ .dir := fun h => htype (kindOf_eq_dir.1 h)
    rw [if_neg hkind, if_neg hkind]
    simp only [inodeNamed, hnone, Option.bind_none]
    rfl

/-- The name is entered for the new inode, and a new directory is counted in its parent. -/
theorem Making.follows {w x y : Fs} (hm : Making sb lost type s inum ip dp w)
    (hw : s.WellFormed sb lost) (hd : s.Cached dp) (htype : type ≠ 0) (hpos : inum ≠ 0)
    (hnlink : (Disk.dinode sb w.disk inum).nlink = 1)
    (hdots : type = tDir → sb.ninodes ≤ 2 ^ 16 → inum ≠ 0 → (s.inode dp).inum ≠ 0 →
      Dotted sb inum (s.inode dp).inum w) (he : Entered sb lost dp name inum k w x)
    (hx : x.NoHoles sb)
    (hy : type = tDir ∧ Altered sb (s.inode dp).inum
        { Disk.dinode sb x.disk (s.inode dp).inum with
          nlink := (Disk.dinode sb x.disk (s.inode dp).inum).nlink + 1 } x y ∨
      type ≠ tDir ∧ y = x) : s.Follows sb (some (s.inode dp).inum) y := by
  intro ht hroom strict hstrict
  have hdlt := hw.ok.table.inum dp hd.1
  have hdpos : (s.inode dp).inum ≠ 0 := ht.pos hdlt (hw.held dp hd.1)
  have hne := (hm.parent_ne hw hd).1
  have hwn := hm.nodes_eq hw hd hnlink fun h => hdots h ht.narrow hpos hdpos
  have hdw := hm.refs.cached hd
  have hwi : (w.inode dp).inum = (s.inode dp).inum := hm.refs.inum dp hd.1
  have hww := hm.wellFormed
  have hdirw : (Disk.dinode sb w.disk (s.inode dp).inum).type = tDir := by
    rw [← hwi, ← (hww.ok.loaded hdw).copy, he.type]
  -- The disk with the new inode differs from that of `s` in no other inode.
  have hsame := hm.same _ hne
  have hds := hsame.dinode hdlt
  have hdirs : (Disk.dinode sb s.disk (s.inode dp).inum).type = tDir := by
    rw [hds] at hdirw
    exact hdirw
  have htwo : w.inUse sb (w.inode dp).inum k = none → 2 ≤ k := fun h => by
    rw [hwi, hsame.toSameBlocks.inUse hw.noHoles hdlt (by rw [hds]) (by rw [hds])] at h
    exact ht.two_le hdlt hdirs h
  obtain ⟨m, hdir, hvac, habs, hxn⟩ := he.slotTaken hww hdw ht.narrow htwo hm.lt hpos
  simp only [hwi] at hdir hvac habs hxn
  have hne' : (⟨(s.inode dp).inum, hdlt⟩ : Fin sb.ninodes) ≠ ⟨inum, hm.lt⟩ :=
    fun h => hne (congrArg Fin.val h)
  have hparent : w.nodes sb ⟨(s.inode dp).inum, hdlt⟩ = s.nodes sb ⟨(s.inode dp).inum, hdlt⟩ := by
    rw [hwn, Function.update_of_ne hne']
  rw [hparent] at hdir hvac habs hxn
  -- In the tree, the parent gets the entry, and the count of a directory, and the inode is new.
  have hyn : y.nodes sb = Function.update (Function.update (s.nodes sb) ⟨(s.inode dp).inum, hdlt⟩
      ((s.nodes sb ⟨(s.inode dp).inum, hdlt⟩).edit m (some (cstr dirsiz name, ⟨inum, hm.lt⟩))
        (kindOf type).upLinks)) ⟨inum, hm.lt⟩
      (.fresh (kindOf type) ⟨(s.inode dp).inum, hdlt⟩ ⟨inum, hm.lt⟩) := by
    obtain ⟨htd, ha⟩ | ⟨hnd, rfl⟩ := hy
    · have hnl : ((Disk.dinode sb x.disk (s.inode dp).inum).nlink + 1).toInt =
          (s.nodes sb ⟨(s.inode dp).inum, hdlt⟩).links + 1 := by
        have hxd := he.dinode_eq hww.ok hdw
        rw [hwi] at hxd
        rw [hxd, hds]
        exact toInt_add_one (hroom _ hdlt)
      have hkind : (kindOf type).upLinks = 1 := if_pos (kindOf_eq_dir.2 htd)
      rw [ha.nodes_eq hx hdlt rfl rfl, hnl, hxn, Function.update_self, Function.update_idem, hwn,
        Function.update_comm hne', hkind, TreeNode.edit, add_zero]
      rfl
    · have hkind : (kindOf type).upLinks = 0 := if_neg fun h => hnd (kindOf_eq_dir.1 h)
      rw [hxn, hwn, Function.update_comm hne', hkind]
  have hfree : (s.nodes sb ⟨inum, hm.lt⟩).kind = .free := kindOf_eq_free.2 hm.free
  refine ⟨?_, fun z hz hf => ?_⟩
  · -- This is one step of the tree.
    rw [hyn]
    exact .single (.make hdir hvac habs hfree (fun h => htype (kindOf_eq_free.1 h))
      fun h => toInt_ne_zero (hstrict h _ rfl))
  · rw [hyn]
    have hzi : z ≠ ⟨inum, hm.lt⟩ := by
      rintro rfl
      exact hpos hz
    have hzd : z ≠ ⟨(s.inode dp).inum, hdlt⟩ := by
      rintro rfl
      exact hdpos hz
    rwa [NameTree.update_of_ne_pair hzd hzi]

/-- `create` from where the name is known not to be in the directory. -/
theorem wp_createNew (hsb : sb.Wf) (hw : s.WellFormed sb lost) (hd : s.Cached dp)
    (hs : s.Spare dp) (htype : type ≠ 0) {Q : Option (Fin ninode) → Fs → Prop}
    (hnone : ∀ u, u.WellFormed sb lost → Released sb dp s u →
      Unchanged sb (some (s.inode dp).inum) s u → Q none u)
    (hsome : ∀ ip t u, Refs sb s {ip} t → Released sb dp t u → u.WellFormed sb lost → u.Cached ip →
      1 ≤ (u.inode ip).inum → (u.inode ip).inum < sb.ninodes →
      (Disk.dinode sb s.disk (u.inode ip).inum).type = 0 →
      (Disk.dinode sb u.disk (u.inode ip).inum).type = type →
      s.Follows sb (some (s.inode dp).inum) u → Q (some ip) u) :
    wp (createNew sb dp name type major minor) Q (fun _ _ => True) s := by
  rw [createNew, wp_bind]
  refine wp_ialloc hsb hw.ok (fun p => ?_) (fun inum ip t ha => ?_) fun _ => trivial
  · -- No free inode.
    have hw' : WellFormed sb lost { s with printed := p } :=
      ⟨⟨hw.ok.owned, hw.ok.table⟩, hw.noHoles, hw.root, hw.held, hw.linked, hw.free, hw.range⟩
    have hs' : Spare { s with printed := p } dp := ⟨hs.ref, hs.not_free⟩
    dsimp only
    rw [iunlockput, wp_bind]
    refine wp_iput_spare hsb hw'.ok hs' fun u hu => ?_
    have hrel := hu.released
    exact hnone u (hu.wellFormed hw' hs') ⟨hrel.ref, hrel.inum, hrel.valid, hrel.type⟩
      (.of_disk hu.disk)
  dsimp only
  rw [wp_bind]
  refine wp_ilock ha.ok (fun u hok hdisk _ _ hc hframe hself => ?_) fun _ _ _ => trivial
  -- The new inode has its type and no data; it gets one link.
  have hfresh := ha.fresh hw htype hok hdisk hframe hself
  have hm := hfresh.making dp
  refine wp_alter hsb hm.wellFormed hm.cached
    (f := fun d => { d with major := major, minor := minor, nlink := 1 }) rfl rfl rfl
    fun v hv hr hset halt => ?_
  rw [hm.slot] at halt
  have hmv := hm.others hv hr halt.others
  have hnv : (Disk.dinode sb v.disk inum).nlink = 1 := by rw [halt.dinode hm.lt]
  have hsize : (v.inode ip).d.size = 0 := by
    rw [hset.self, hfresh.inode]
    rfl
  rw [wp_bind]
  -- A directory gets its first two entries, unless a block is missing.
  refine wp.mono (Q := fun dots w => Making sb lost type s inum ip dp w ∧ (dots = true →
    (Disk.dinode sb w.disk inum).nlink = 1 ∧ (type = tDir → sb.ninodes ≤ 2 ^ 16 → inum ≠ 0 →
      (s.inode dp).inum ≠ 0 → Dotted sb inum (s.inode dp).inum w))) (E := fun _ _ => True) ?_
    (fun dots w hmw => ?_) fun _ _ h => h
  · split
    · refine hmv.wp_dots hsb hd hsize fun b w hw hb => ⟨hw, fun h => ?_⟩
      exact ⟨(hb h).1.trans hnv, fun _ => (hb h).2⟩
    next hnd => exact ⟨hmv, fun _ => ⟨hnv, fun h => absurd h hnd⟩⟩
  obtain ⟨hmw, hdots⟩ := hmw
  split
  · -- No room for them: the inode is given up.
    exact hmw.wp_undo hsb hw hd hs hnone
  next hdt =>
  obtain ⟨hnw, hdots⟩ := hdots (Bool.eq_true_of_not_eq_false hdt)
  rw [wp_bind, wp_get, wp_bind]
  have hdw := hmw.refs.cached hd
  have hww := hmw.wellFormed
  -- Then it is entered in the parent.
  refine wp_dirlink_entered hsb hww.ok hww.noHoles hdw (fun x hx => ?_) (fun k x hx => ?_)
    (fun _ => trivial) (fun _ => ⟨trivial, trivial⟩) fun _ _ _ _ => trivial
  · -- No room in the parent: the inode is given up.
    rw [if_pos (by decide)]
    have ho := hx.others
    rw [hmw.refs.inum dp hd.1] at ho
    refine Making.wp_undo hsb hw hd hs (hmw.next (hx.wellFormed hww hdw) hx.refs
      (fun j _ => hx.same j) fun j sl _ hj => ho.stores j sl hj) hnone
  rw [if_neg (by decide)]
  have hxw := hx.wellFormed hww hdw (hmw.slot ▸ hmw.lt)
  have hxr := hx.refs hww.ok hdw
  have hdx := hxr.cached hdw
  have hxi : (x.inode dp).inum = (s.inode dp).inum :=
    (hxr.inum dp hdw.1).trans (hmw.refs.inum dp hd.1)
  have hcopy := (hxw.ok.loaded hdx).copy
  rw [wp_bind]
  -- The entry `..` of a new directory is a link to the parent.
  refine wp.mono (Q := fun _ y => y.WellFormed sb lost ∧ Refs sb x 0 y ∧
    (type = tDir ∧ Altered sb (s.inode dp).inum { Disk.dinode sb x.disk (s.inode dp).inum with
      nlink := (Disk.dinode sb x.disk (s.inode dp).inum).nlink + 1 } x y ∨ type ≠ tDir ∧ y = x))
    (E := fun _ _ => True) ?_ (fun _ y hy => ?_) fun _ _ h => h
  · split
    next hdir =>
      refine (wp_setFields hsb hxw.ok hdx rfl rfl rfl).mono (fun _ y hf => ?_) fun _ _ h => h
      have halt := Altered.of_fielded hdx hf
      rw [hxi, hcopy, hxi] at halt
      exact ⟨hf.wellFormed hxw hdx rfl rfl, hf.refs hxw.ok hdx rfl, .inl ⟨hdir, halt⟩⟩
    next hdir => exact ⟨hxw, (Holding.refl hxw.ok).toRefs, .inr ⟨hdir, rfl⟩⟩
  obtain ⟨hyw, hyr, hup⟩ := hy
  have hfollows : s.Follows sb (some (s.inode dp).inum) y := by
    rw [hmw.slot] at hx
    exact hmw.follows hw hd htype (Nat.one_le_iff_ne_zero.1 hfresh.pos) hnw hdots hx hxw.noHoles hup
  have hry : Refs sb s {ip} y := hmw.refs.trans_zero (hxr.trans_zero hyr)
  have hcy : y.Cached ip := hyr.cached (hxr.cached hmw.cached)
  have hiy : (y.inode ip).inum = inum :=
    (hyr.inum ip (hxr.cached hmw.cached).1).trans ((hxr.inum ip hmw.cached.1).trans hmw.slot)
  -- The parent is put, which frees it if it has lost its links in the meantime.
  rw [iunlockput, wp_bind]
  refine wp_iput_put hsb hyw (hyr.cached hdx).1 fun z hzw hz hzp => ?_
  have hpos : 0 < (z.inode ip).ref := by
    rw [hz.ref, if_neg (hmw.parent_ne hw hd).2.symm]
    exact hcy.1
  have hiz : (z.inode ip).inum = inum := (hz.inum ip hpos).trans hiy
  refine hsome ip y z hry hz hzw ⟨hpos, hz.valid ip hpos hcy.2⟩ ?_ ?_ ?_ ?_ (hfollows.trans_put hzp)
  · rw [hiz]
    exact hfresh.pos
  · rw [hiz]
    exact hmw.lt
  · rw [hiz]
    exact hmw.free
  · have htx := hxr.type ip hmw.cached.1
    have hty := hyr.type ip (hxr.cached hmw.cached).1
    have htz := hz.type ip hpos
    rw [hmw.slot] at htx
    rw [(hxr.inum ip hmw.cached.1).trans hmw.slot] at hty
    rw [hiy] at htz
    rw [hiz]
    exact htz.trans (hty.trans (htx.trans hmw.typed))

/-! ## `create` -/

theorem Unchanged.of_left (hd : t.disk = s.disk) (h : Unchanged sb parent t u) :
    Unchanged sb parent s u where
  type j hj := by rw [h.type j hj, hd]
  nlink j hj := by rw [h.nlink j hj, hd]
  same j hj htype := (SameFile.of_disk hd).trans (h.same j hj (by rwa [hd]))
  blocks j sl hj := by rw [h.blocks j sl hj, stores_congr hd]

theorem Holding.notCreated (hw : s.WellFormed sb lost) (ht : Holding sb lost s 0 t) :
    Created sb lost type parent s none t where
  wellFormed := ht.wellFormed hw fun _ hmem => absurd hmem (Multiset.notMem_zero _)
  refs := ht.toRefs
  fails _ := .of_disk ht.disk
  cached ip h := absurd h.symm (Option.some_ne_none ip)
  made ip h := absurd h.symm (Option.some_ne_none ip)
  follows := .of_nodes (nodes_of_disk ht.disk)

/-- `create` keeps the file system well formed, and does nothing if it fails. -/
theorem wp_create (hsb : sb.Wf) (hw : s.WellFormed sb lost) (hcwd : 0 < (s.inode cwd).ref)
    (htype : type ≠ 0) :
    wp (create sb cwd path type major minor)
      (Created sb lost type ((s.parentOf sb cwd path).map Prod.fst) s) (fun _ _ => True) s := by
  rw [create, wp_bind]
  refine wp_nameiparent hsb hw hcwd (fun t _ ht => ht.notCreated hw)
    (fun dp last t hres hcd hdir ht => ?_) (fun _ _ _ => trivial) fun _ _ => trivial
  dsimp only
  rw [wp_bind]
  refine wp_ilock_holding ht (fun u hu hcu _ hslot _ => ?_) fun _ _ _ => trivial
  rw [← (hslot dp).2] at hres
  rw [wp_bind]
  refine wp_dirlookup_holding hw hu hcu (fun _ _ => ?_) (fun _ k ip v _ _ _ _ hv => ?_)
    (fun _ => trivial) (fun _ _ => trivial) fun _ => trivial
  · -- The name is not there.
    have huw := hu.wellFormed_of_cached hw fun jp hjp => Multiset.mem_singleton.1 hjp ▸ hcu
    refine wp_createNew hsb huw hcu (hu.spare (h := 0) hw) htype (fun x hxw hx hun => ?_)
      fun ip y z hr hz hzw hcz hpos hlt hfree htyped hfollows => ?_
    · have hun' := hun.of_left hu.disk
      refine ⟨hxw, hx.refs hu.toRefs, fun _ => ?_, fun ip h => ?_, fun ip h => ?_,
        .of_nodes (hun'.nodes_eq hw.noHoles)⟩
      · rw [hres]
        exact hun'
      all_goals exact absurd h.symm (Option.some_ne_none ip)
    · have hry : Refs sb s (dp ::ₘ {ip}) y := by
        have := hu.toRefs.trans hr
        rwa [Multiset.singleton_add] at this
      refine ⟨hzw, hz.refs hry, fun h => absurd h (Option.some_ne_none ip), fun jp h => ?_,
        fun jp h => ?_, ?_⟩
      · cases h
        exact hcz
      · cases h
        rw [hu.disk] at hfree
        exact .inr ⟨hpos, hlt, hfree, htyped⟩
      · rw [hres]
        exact hfollows.of_left hu.disk
  · -- The name is there.
    dsimp only
    rw [iunlockput, wp_bind]
    have hv' : Holding sb lost s (dp ::ₘ {ip}) v := by
      rw [← Multiset.cons_zero dp, Multiset.cons_swap] at hv
      exact hv
    refine wp_iput_holding hsb hw hv' fun x hx _ => ?_
    rw [wp_bind]
    refine wp_ilock_holding hx (fun y hy hcy _ _ _ => ?_) fun _ _ _ => trivial
    rw [wp_bind, wp_get]
    split
    next htypes =>
      refine ⟨hy.wellFormed_of_cached hw fun jp hjp => Multiset.mem_singleton.1 hjp ▸ hcy,
        hy.toRefs, fun h => absurd h (Option.some_ne_none ip), fun jp h => ?_, fun jp h => ?_,
        .of_nodes (nodes_of_disk hy.disk)⟩
      · cases h
        exact hcy
      · cases h
        exact .inl ⟨hy.disk, htypes⟩
    next =>
      rw [iunlockput, wp_bind]
      exact wp_iput_holding hsb hw hy fun z hz _ => hz.notCreated hw

/-! ## `sys_unlink` -/

/-- `isdirempty` changes nothing, and looks at all entries but the first two. -/
theorem wp_isdirempty (hfull : s.Full sb dp) (hsize : (s.inode dp).d.size < 2 ^ 32)
    {Q : Bool → Fs → Prop}
    (hQ : ∀ b, (b = true → ∀ k, 2 ≤ k → 16 * k < (s.inode dp).d.size →
      (s.direntAt sb dp k).inum = 0) → Q b s) :
    wp (isdirempty sb dp) Q (fun _ _ => True) s := by
  have hloop : ∀ fuel k, (s.inode dp).d.size ≤ 16 * k + 16 * fuel →
      (∀ k', 2 ≤ k' → k' < k → (s.direntAt sb dp k').inum = 0) →
      wp (isdiremptyLoop sb dp fuel (16 * k)) Q (fun _ _ => True) s := by
    intro fuel
    induction fuel with
    | zero =>
      intro k hle hz
      exact hQ true fun _ k' h₂ hk' => hz k' h₂ (by omega)
    | succ fuel ih =>
      intro k hle hz
      rw [isdiremptyLoop, wp_bind, wp_get]
      split
      swap
      · exact hQ true fun _ k' h₂ hk' => hz k' h₂ (by omega)
      rename_i hk
      rw [wp_bind]
      refine wp_readDirent hfull hsize hk (fun _ => ?_) fun _ => trivial
      split
      · exact hQ false fun h => Bool.noConfusion h
      next hzero =>
      refine ih (k + 1) (by omega) fun k' h₂ hk' => ?_
      obtain h | rfl := Nat.lt_succ_iff_lt_or_eq.1 hk'
      · exact hz k' h₂ h
      · exact not_not.1 hzero
  rw [isdirempty, wp_bind, wp_get]
  exact hloop _ 2 (by omega) fun k' h₂ hk' => by omega

/-- The entry `k` of the directory `d` names the inode `i`, and it can be erased: it is not one of
    the first two, and if `i` is a directory, then this is empty. -/
structure Erasable (sb : Superblock) (d i k : ℕ) (s : Fs) : Prop where
  entry : ∃ de, s.inUse sb d k = some de ∧ de.inum = i
  two_le : s.TreeOk sb → 2 ≤ k
  empty : (Disk.dinode sb s.disk i).type = tDir → ∀ k', 2 ≤ k' → s.inUse sb i k' = none

/-- The entry of a name is erasable, unless the name is `.` or `..`. -/
theorem erasable (hi : i < sb.ninodes) (hdir : (Disk.dinode sb s.disk i).type = tDir)
    (hk : 16 * k + 16 ≤ (Disk.dinode sb s.disk i).size) (hname : (s.entry sb i k).Names name)
    (hdots : ¬(namecmp name dot = 0 ∨ namecmp name dotdot = 0))
    (hempty : (Disk.dinode sb s.disk (s.entry sb i k).inum).type = tDir →
      ∀ k', 2 ≤ k' → s.inUse sb (s.entry sb i k).inum k' = none) :
    Erasable sb i (s.entry sb i k).inum k s := by
  have huse : s.inUse sb i k = some (s.entry sb i k) :=
    inUse_eq_some.2 ⟨hdir, hk, hname.1, rfl⟩
  have hcmp := namecmp_eq_zero_iff.1 hname.2
  refine ⟨⟨_, huse, rfl⟩, fun ht => ?_, hempty⟩
  obtain ⟨de₀, h₀, hn₀, -⟩ := ht.dot hi hdir
  obtain ⟨de₁, h₁, hn₁⟩ := ht.dotdot hi hdir
  have hk₀ : k ≠ 0 := by
    rintro rfl
    obtain rfl := Option.some.inj (huse.symm.trans h₀)
    exact hdots (.inl (namecmp_eq_zero_iff.2 (hcmp.trans hn₀)))
  have hk₁ : k ≠ 1 := by
    rintro rfl
    obtain rfl := Option.some.inj (huse.symm.trans h₁)
    exact hdots (.inr (namecmp_eq_zero_iff.2 (hcmp.trans hn₁)))
  omega

/-- The entry is erased, a directory is no longer counted in its parent, and the parent and the
    inode lose a reference and a link. -/
theorem Erasable.follows {a y z : Fs} (he : Erasable sb (t.inode dp).inum i k s)
    (hw : s.WellFormed sb lost) (hd : t.disk = s.disk) (ht : t.WellFormed sb lost)
    (hc : t.Cached dp) {de : Dirent} (hde : de.inum = 0) (hset : EntrySet sb lost dp k de t u)
    (hy : (Disk.dinode sb s.disk i).type = tDir ∧ Altered sb (t.inode dp).inum
        { Disk.dinode sb u.disk (t.inode dp).inum with
          nlink := (Disk.dinode sb u.disk (t.inode dp).inum).nlink - 1 } u y ∨
      (Disk.dinode sb s.disk i).type ≠ tDir ∧ y = u)
    (hz : y.Put sb (t.inode dp).inum z) (hno : z.NoHoles sb)
    (ha : Altered sb i { Disk.dinode sb z.disk i with
      nlink := (Disk.dinode sb z.disk i).nlink - 1 } z a) : s.Follows sb parent a := by
  intro htree _ strict _
  obtain ⟨de', huse, rfl⟩ := he.entry
  have hdlt := ht.ok.table.inum dp hc.1
  obtain ⟨hi, hname⟩ := hw.exists_nameOf hdlt huse
  have hdirs := (inUse_eq_some.1 huse).1
  have hdir : (t.inode dp).d.type = tDir := by
    rw [(ht.ok.loaded hc).copy, hd, hdirs]
  obtain ⟨m, hm, hun⟩ := hset.nodes_eq ht.ok ht.noHoles hc hdir (he.two_le htree)
  have hnt : t.nodes sb = s.nodes sb := nodes_of_disk hd
  rw [if_pos hde, hnt] at hun
  have hentry : (s.nodes sb ⟨(t.inode dp).inum, hdlt⟩).entry m =
      some (cstr dirsiz de'.name, ⟨de'.inum, hi⟩) := by
    rw [nodes_entry, hm, huse]
    exact hname
  have hne := htree.wf.ne hentry
  have hempty : ∀ k', (s.nodes sb ⟨de'.inum, hi⟩).entry k' = none := fun k' => by
    have hnone : s.inUse sb de'.inum (k'.val + 2) = none := by
      by_cases htype : (Disk.dinode sb s.disk de'.inum).type = tDir
      · exact he.empty htype _ (Nat.le_add_left 2 k')
      · exact inUse_of_type_ne htype
    rw [nodes_entry, hnone]
    rfl
  -- The parent.
  have hyn : y.nodes sb = Function.update (s.nodes sb) ⟨(t.inode dp).inum, hdlt⟩
      ((s.nodes sb ⟨(t.inode dp).inum, hdlt⟩).edit m none
        (-(s.nodes sb ⟨de'.inum, hi⟩).kind.upLinks)) := by
    obtain ⟨htype, halt⟩ | ⟨htype, rfl⟩ := hy
    · have hkind : (s.nodes sb ⟨de'.inum, hi⟩).kind = .dir := kindOf_eq_dir.2 htype
      have hpos := htree.wf.links_pos_of_dir hentry hkind
      rw [nodes_links] at hpos
      have hlinks : ((Disk.dinode sb u.disk (t.inode dp).inum).nlink - 1).toInt =
          (s.nodes sb ⟨(t.inode dp).inum, hdlt⟩).links - 1 := by
        rw [hset.dinode_eq ht.ok hc, hd, nodes_links]
        exact toInt_sub_one hpos
      have hup : (s.nodes sb ⟨de'.inum, hi⟩).kind.upLinks = 1 := by
        rw [hkind]
        rfl
      rw [halt.nodes_eq hset.noHoles hdlt rfl rfl, hlinks, hun, Function.update_self,
        Function.update_idem, hup, TreeNode.edit, add_zero]
      rfl
    · have hkind : (s.nodes sb ⟨de'.inum, hi⟩).kind ≠ .dir := fun h => htype (kindOf_eq_dir.1 h)
      have hup : (s.nodes sb ⟨de'.inum, hi⟩).kind.upLinks = 0 := if_neg hkind
      rw [hun, hup, neg_zero]
  have hzn : z.nodes sb = y.nodes sb ∨ ((s.nodes sb ⟨(t.inode dp).inum, hdlt⟩).edit m none
      (-(s.nodes sb ⟨de'.inum, hi⟩).kind.upLinks)).links = 0 ∧
      z.nodes sb = Function.update (s.nodes sb) ⟨(t.inode dp).inum, hdlt⟩ .unused := by
    obtain h | ⟨x, hx, hl, h⟩ := hz
    · exact .inl h
    · obtain rfl : x = ⟨(t.inode dp).inum, hdlt⟩ := Fin.ext hx
      rw [hyn, Function.update_self] at hl
      exact .inr ⟨hl, by rw [h, hyn, Function.update_idem]⟩
  rw [hyn] at hzn
  -- The inode.
  have hzi : z.nodes sb ⟨de'.inum, hi⟩ = s.nodes sb ⟨de'.inum, hi⟩ := by
    obtain h | ⟨-, h⟩ := hzn
    · rw [h, Function.update_of_ne hne.symm]
    · rw [h, Function.update_of_ne hne.symm]
  have hpos := htree.wf.links_pos hentry
  rw [← hzi, nodes_links] at hpos
  have han : a.nodes sb = Function.update (z.nodes sb) ⟨de'.inum, hi⟩
      ((s.nodes sb ⟨de'.inum, hi⟩).addLinks (-1)) := by
    rw [ha.nodes_eq hno hi rfl rfl, toInt_sub_one hpos, ← hzi, TreeNode.addLinks, nodes_links]
    rfl
  obtain ⟨hsteps, hfree⟩ := htree.wf.unlink_put hentry hempty hzn han
  exact ⟨hsteps, fun x _ => hfree x⟩

/-- The entry is erased, and the links are taken back. -/
theorem wp_unlinkEntry (hsb : sb.Wf) (hw : s.WellFormed sb lost) (ht : t.WellFormed sb lost)
    (hdisk : t.disk = s.disk) (hr : Refs sb s (ip ::ₘ {dp}) t) (hd : t.Cached dp) (hc : t.Cached ip)
    (hk : 16 * k + 16 ≤ (t.inode dp).d.size)
    (he : Erasable sb (t.inode dp).inum (t.inode ip).inum k s) :
    wp (unlinkEntry sb dp ip (16 * k)) (CallDone sb lost none s) (fun _ _ => True) t := by
  have hsize := ht.ok.size_lt hd
  rw [unlinkEntry, wp_bind]
  refine wp_writei hsb ht.ok hd (by omega) (by decide) (fun _ => ?_) fun _ tot u hst => ?_
  · rw [if_pos (by decide)]
    trivial
  -- A shorter write is a panic.
  split
  · trivial
  rename_i htot
  obtain rfl : tot = 16 := by omega
  have hes := hst.entrySet ht.ok ht.noHoles hd (Nat.le_of_add_right_le hk) rfl
  have huw := hes.wellFormed ht hd (Nat.zero_lt_of_lt hw.root)
  have hru := hes.refs ht.ok hd
  have hdu := hru.cached hd
  have hcu := hru.cached hc
  have hdui : (u.inode dp).inum = (t.inode dp).inum := hru.inum dp hd.1
  have hcui : (u.inode ip).inum = (t.inode ip).inum := hru.inum ip hc.1
  have htype : (u.inode ip).d.type = (Disk.dinode sb s.disk (t.inode ip).inum).type := by
    rw [(huw.ok.loaded hcu).copy, hcui, ← hdisk, ← hru.type ip hc.1]
  have hcopy := (huw.ok.loaded hdu).copy
  rw [wp_bind, wp_get, wp_bind]
  -- With a directory its `..` goes, which was a link to the parent.
  refine wp.mono (Q := fun _ y => y.WellFormed sb lost ∧ Refs sb u 0 y ∧
    ((Disk.dinode sb s.disk (t.inode ip).inum).type = tDir ∧ Altered sb (t.inode dp).inum
        { Disk.dinode sb u.disk (t.inode dp).inum with
          nlink := (Disk.dinode sb u.disk (t.inode dp).inum).nlink - 1 } u y ∨
      (Disk.dinode sb s.disk (t.inode ip).inum).type ≠ tDir ∧ y = u)) (E := fun _ _ => True) ?_
    (fun _ y hy => ?_) fun _ _ h => h
  · rw [htype]
    split
    next hdir =>
      refine (wp_setFields hsb huw.ok hdu rfl rfl rfl).mono (fun _ y hf => ?_) fun _ _ h => h
      have halt := Altered.of_fielded hdu hf
      rw [hdui, hcopy, hdui] at halt
      exact ⟨hf.wellFormed huw hdu rfl rfl, hf.refs huw.ok hdu rfl, .inl ⟨hdir, halt⟩⟩
    next hdir => exact ⟨huw, (Holding.refl huw.ok).toRefs, .inr ⟨hdir, rfl⟩⟩
  obtain ⟨hyw, hry, hdown⟩ := hy
  have hsy : Refs sb s (dp ::ₘ {ip}) y := by
    have := hr.trans_zero (hru.trans_zero hry)
    rwa [← Multiset.cons_zero dp, Multiset.cons_swap] at this
  have hdyi : (y.inode dp).inum = (t.inode dp).inum := (hry.inum dp hdu.1).trans hdui
  -- The parent is put, which may free it.
  rw [iunlockput, wp_bind]
  refine wp_iput_put hsb hyw hsy.ref_pos fun z hzw hz hzp => ?_
  have hsz : Refs sb s {ip} z := hz.refs hsy
  have hpos : 0 < (z.inode ip).ref := hsz.ref_pos (h := 0)
  have hcz : z.Cached ip := ⟨hpos, hz.valid ip hpos (hry.cached hcu).2⟩
  have hczi : (z.inode ip).inum = (t.inode ip).inum :=
    (hz.inum ip hpos).trans ((hry.inum ip hcu.1).trans hcui)
  -- The inode loses the link that the entry was.
  refine wp_alter hsb hzw hcz (f := fun d => { d with nlink := d.nlink - 1 }) rfl rfl rfl
    fun a haw hra _ ha => ?_
  rw [(hzw.ok.loaded hcz).copy, hczi] at ha
  rw [hdyi] at hzp
  have hfollows : s.Follows sb none a :=
    he.follows hw hdisk ht hd rfl hes hdown hzp hzw.noHoles ha
  have hsa : Refs sb s (ip ::ₘ 0) a := hsz.trans_zero hra
  rw [iunlockput, wp_bind]
  refine wp_iput_put hsb haw hsa.ref_pos fun b hbw hb hbp => ?_
  exact ⟨hbw, hb.refs hsa, fun h => absurd rfl h, hfollows.trans_put hbp⟩

/-- `sys_unlink` keeps the file system well formed, and does nothing if it fails. -/
theorem wp_sysUnlink (hsb : sb.Wf) (hw : s.WellFormed sb lost) (hcwd : 0 < (s.inode cwd).ref)
    (path : Option (List UInt8)) :
    wp (sysUnlink sb cwd path) (CallDone sb lost none s) (fun _ _ => True) s := by
  obtain _ | path := path
  · exact (Holding.refl hw.ok).callDone hw (-1)
  -- Where the call fails, it has the parent only.
  have hbad : ∀ {dp : Fin ninode} {v : Fs}, Holding sb lost s {dp} v →
      wp (unlinkBad sb dp) (CallDone sb lost none s) (fun _ _ => True) v := by
    intro dp v hv
    rw [unlinkBad, iunlockput, wp_bind]
    exact wp_iput_holding hsb hw hv fun w hw' _ => hw'.callDone hw _
  rw [sysUnlink, wp_bind]
  refine wp_nameiparent hsb hw hcwd (fun t _ ht => ht.callDone hw _) (fun dp last t _ _ _ ht => ?_)
    (fun _ _ _ => trivial) fun _ _ => trivial
  dsimp only
  rw [wp_bind]
  refine wp_ilock_holding ht (fun u hu hcu _ _ _ => ?_) fun _ _ _ => trivial
  -- `.` and `..` are not unlinked.
  split
  · exact hbad hu
  next hdots =>
  rw [wp_bind]
  refine wp_dirlookup_holding hw hu hcu (fun _ _ => hbad hu)
    (fun hdir k ip v hk hname _ hg hv => ?_)
    (fun _ => trivial) (fun _ _ => trivial) fun _ => trivial
  have hvr : Refs sb u {ip} v := hg.refs
  have hcv : v.Cached dp := hvr.cached hcu
  dsimp only
  rw [wp_bind]
  refine wp_ilock_holding hv (fun w hww hcw _ hslot hframe => ?_) fun _ _ _ => trivial
  have hcdw : w.Cached dp := by
    by_cases hdi : dp = ip
    · rw [hdi]
      exact hcw
    · rw [Cached, hframe dp hdi]
      exact hcv
  have hwf : w.WellFormed sb lost := hww.wellFormed_of_cached hw fun jp hjp => by
    rcases Multiset.mem_cons.1 hjp with rfl | hjp
    · exact hcw
    · exact Multiset.mem_singleton.1 hjp ▸ hcdw
  rw [wp_bind, wp_get]
  split
  · trivial
  rw [wp_bind]
  -- `isdirempty` is asked for directories only, and changes nothing.
  refine wp.mono (Q := fun b x => x = w ∧ (b = true → (w.inode ip).d.type = tDir → ∀ k', 2 ≤ k' →
    16 * k' < (w.inode ip).d.size → (w.direntAt sb ip k').inum = 0)) (E := fun _ _ => True) ?_
    (fun empty x hx => ?_) fun _ _ h => h
  · split
    · exact wp_isdirempty (hwf.noHoles.full hwf.ok hcw)
        (hwf.ok.size_lt hcw) fun b hb => ⟨rfl, fun h _ => hb h⟩
    next hnd => exact ⟨rfl, fun _ hdir => absurd hdir hnd⟩
  obtain ⟨rfl, hempty⟩ := hx
  split
  · -- A directory with entries.
    rw [iunlockput, wp_bind]
    exact wp_iput_holding hsb hw hww fun y hy _ => hbad hy
  next hne =>
  have hdi : (x.inode dp).inum = (u.inode dp).inum := (hslot dp).2.trans (hvr.inum dp hcu.1)
  have hii : (x.inode ip).inum = (s.entry sb (u.inode dp).inum k).inum :=
    (hslot ip).2.trans hg.inum_eq
  -- The entry is that of the inode `ip`, which has no entries of its own but the dots.
  refine wp_unlinkEntry hsb hw hwf hww.disk hww.toRefs hcdw hcw ?_ ?_
  · rw [(hwf.ok.loaded hcdw).copy, hdi, hww.disk]
    exact hk
  · have hcopy := (hwf.ok.loaded hcw).copy
    have hlu := hu.ok.loaded hcu
    rw [hlu.copy, hu.disk] at hdir
    rw [hii, hww.disk] at hcopy
    rw [hdi, hii]
    refine erasable hlu.inum hdir hk hname hdots fun htype k' hk' => if_neg fun huse => ?_
    refine huse.2.2 ?_
    have hz := hempty (Bool.eq_true_of_not_eq_false hne) (by rw [hcopy, htype]) k' hk' (by
      rw [hcopy]
      omega)
    rwa [direntAt_eq hwf.ok hcw, hii, entry_congr hww.disk] at hz

/-! ## Calls that fail -/

/-- The tree of `t` is that of `s`: its inodes, with their links and their files, the entries of
    directories, and the references to inodes. The blocks of files are where they were, and only
    `parent` may have more of them than before. -/
structure SameTree (sb : Superblock) (parent : Option ℕ) (s t : Fs) : Prop where
  type : ∀ i < sb.ninodes, (Disk.dinode sb t.disk i).type = (Disk.dinode sb s.disk i).type
  nlink : ∀ i < sb.ninodes, (Disk.dinode sb t.disk i).nlink = (Disk.dinode sb s.disk i).nlink
  content : ∀ i < sb.ninodes, (Disk.dinode sb s.disk i).type ≠ 0 → t.content sb i = s.content sb i
  entry : ∀ i < sb.ninodes, (Disk.dinode sb s.disk i).type = tDir →
    ∀ k, 16 * k + 16 ≤ (Disk.dinode sb s.disk i).size → t.entry sb i k = s.entry sb i k
  ref : ∀ ip, (t.inode ip).ref = (s.inode ip).ref ∧
    (0 < (s.inode ip).ref → (t.inode ip).inum = (s.inode ip).inum)
  keep : ∀ x, s.stores sb x ≠ 0 → t.stores sb x = s.stores sb x
  blocks : ∀ i sl, parent ≠ some i → t.stores sb (i, sl) = s.stores sb (i, sl)

/-- The file of an inode whose bytes and size are the same. -/
theorem SameFile.content (h : SameFile sb i s t) (hno : s.NoHoles sb) (hi : i < sb.ninodes)
    (htype : (Disk.dinode sb s.disk i).type ≠ 0) : t.content sb i = s.content sb i := by
  rw [Fs.content, Fs.content, h.dinode hi]
  refine List.map_congr_left fun o ho => h.data o ?_
  exact hno.stores_ne hi htype (List.mem_range.1 ho)

theorem Unchanged.sameTree (hw : s.WellFormed sb lost) (hr : Refs sb s 0 t)
    (h : Unchanged sb parent s t) : SameTree sb parent s t where
  type := h.type
  nlink := h.nlink
  content i hi htype := (h.same i hi htype).content hw.noHoles hi htype
  entry i hi hdir k hk :=
    (h.same i hi (by rw [hdir]; decide)).entry hw.noHoles hi (by rw [hdir]; decide) hk
  ref ip := ⟨hr.ref_eq ip, hr.inum ip⟩
  keep x hx := by
    obtain ⟨i, sl⟩ := x
    have hi : Alloced sb (Disk.dinode sb s.disk) i := by
      by_contra hn
      exact hx (stored_of_not_alloced hn sl)
    exact (h.same i hi.1 hi.2).keep sl hx
  blocks := h.blocks

/-- The calls that make and remove names. -/
inductive NameOp
  | mkdir (path : Option (List UInt8))
  | mknod (path : Option (List UInt8)) (major minor : Int16)
  /-- The part of `sys_open` that makes a file. -/
  | creat (path : List UInt8)
  | link (old new : Option (List UInt8))
  | unlink (path : Option (List UInt8))

namespace NameOp

variable (sb : Superblock) (cwd : Fin ninode)

/-- The end of `sys_mkdir` and `sys_mknod`: the new inode is not used. -/
def made (path : Option (List UInt8)) (type major minor : Int16) : FsM Bool :=
  match path with
  | none => pure false
  | some path => do
    match ← create sb cwd path type major minor with
    | none => pure false
    | some ip => do
      iunlockput sb ip
      pure true

/-- `sys_mkdir`. -/
def sysMkdir (path : Option (List UInt8)) : FsM Bool := made sb cwd path tDir 0 0

/-- `sys_mknod`. -/
def sysMknod (path : Option (List UInt8)) (major minor : Int16) : FsM Bool :=
  made sb cwd path tDevice major minor

/-- The code of a call: whether it succeeds. -/
def run : NameOp → FsM Bool
  | mkdir path => sysMkdir sb cwd path
  | mknod path major minor => sysMknod sb cwd path major minor
  | creat path => do
    let ip ← create sb cwd path tFile 0 0
    pure ip.isSome
  | link old new => do
    let r ← sysLink sb cwd old new
    pure (decide (r = 0))
  | unlink path => do
    let r ← sysUnlink sb cwd path
    pure (decide (r = 0))

/-- The directory in which the call enters a name. -/
def enters (s : Fs) : NameOp → Option ℕ
  | mkdir path | mknod path _ _ | link _ path =>
    path.bind fun path => (s.parentOf sb cwd path).map Prod.fst
  | creat path => (s.parentOf sb cwd path).map Prod.fst
  | unlink _ => none

end NameOp

/-- `sys_mkdir` and `sys_mknod`. -/
theorem wp_made (hsb : sb.Wf) (hw : s.WellFormed sb lost) (hcwd : 0 < (s.inode cwd).ref)
    (htype : type ≠ 0) (path : Option (List UInt8)) :
    wp (NameOp.made sb cwd path type major minor) (fun ok t => t.WellFormed sb lost ∧
      Refs sb s 0 t ∧ (ok = false →
        Unchanged sb (path.bind fun path => (s.parentOf sb cwd path).map Prod.fst) s t) ∧
      s.Follows sb (path.bind fun path => (s.parentOf sb cwd path).map Prod.fst) t)
      (fun _ _ => True) s := by
  obtain _ | path := path
  · exact ⟨hw, (Holding.refl hw.ok).toRefs, fun _ => .of_disk rfl, .of_nodes rfl⟩
  rw [NameOp.made, wp_bind]
  refine (wp_create hsb hw hcwd htype).mono (fun r t ht => ?_) fun _ _ h => h
  obtain _ | ip := r
  · exact ⟨ht.wellFormed, ht.refs, fun _ => ht.fails rfl, ht.follows⟩
  · have hr : Refs sb s (ip ::ₘ 0) t := ht.refs
    dsimp only
    rw [iunlockput, wp_bind]
    refine wp_iput_put hsb ht.wellFormed hr.ref_pos fun u hu hrel hput => ?_
    exact ⟨hu, hrel.refs hr, fun h => Bool.noConfusion h, ht.follows.trans_put hput⟩

end Fs

open Fs in
/-- In a well-formed file system, `sys_mkdir`, `sys_mknod`, `create` for `sys_open`, `sys_link` and
    `sys_unlink` change nothing in the tree when they fail, at whatever point. -/
theorem names_undone {sb : Superblock} (hsb : sb.Wf) {lost : Set ℕ} {s : Fs}
    (hw : s.WellFormed sb lost) {cwd : Fin ninode} (hcwd : 0 < (s.inode cwd).ref) (op : NameOp) :
    wp (op.run sb cwd) (fun ok t => ok = false → SameTree sb (op.enters sb cwd s) s t)
      (fun _ _ => True) s := by
  cases op with
  | mkdir path =>
    refine (wp_made hsb hw hcwd (by decide) path).mono (fun _ t ht hf => ?_) fun _ _ h => h
    exact (ht.2.2.1 hf).sameTree hw ht.2.1
  | mknod path major minor =>
    refine (wp_made hsb hw hcwd (by decide) path).mono (fun _ t ht hf => ?_) fun _ _ h => h
    exact (ht.2.2.1 hf).sameTree hw ht.2.1
  | creat path =>
    rw [NameOp.run, wp_bind]
    refine (wp_create hsb hw hcwd (by decide)).mono (fun r t ht hf => ?_) fun _ _ h => h
    obtain rfl : r = none := Option.not_isSome_iff_eq_none.1 (by rw [hf]; decide)
    exact (ht.fails rfl).sameTree hw ht.refs
  | link old new =>
    rw [NameOp.run, wp_bind]
    refine (wp_sysLink hsb hw hcwd old new).mono (fun r t ht hf => ?_) fun _ _ h => h
    exact (ht.fails (of_decide_eq_false hf)).sameTree hw ht.refs
  | unlink path =>
    rw [NameOp.run, wp_bind]
    refine (wp_sysUnlink hsb hw hcwd path).mono (fun r t ht hf => ?_) fun _ _ h => h
    exact (ht.fails (of_decide_eq_false hf)).sameTree hw ht.refs

open Fs in
set_option maxRecDepth 100000 in
theorem mkdir_full : wp ((NameOp.mkdir (some [47, 100])).run rootSb 0) (fun ok t => ok = false ∧
    t.printed = ["balloc: out of blocks\n"] ∧ rootSb.iblock 2 ∈ t.logged)
    (fun _ _ => False) (rootFs true 1) := by
  decide +kernel

open Fs in
/-- A new directory gets no block for its entries on a full disk, when its inode was made already. -/
theorem names_undone_mkdir : ∃ t, (NameOp.mkdir (some [47, 100])).run rootSb 0 (rootFs true 1) =
      .ok false t ∧ t.printed = ["balloc: out of blocks\n"] ∧ rootSb.iblock 2 ∈ t.logged ∧
    SameTree rootSb ((NameOp.mkdir (some [47, 100])).enters rootSb 0 (rootFs true 1))
      (rootFs true 1) t := by
  have hcwd : 0 < ((rootFs true 1).inode 0).ref := Nat.one_pos
  have hundone : ∀ (op : NameOp) t, op.run rootSb 0 (rootFs true 1) = .ok false t →
      SameTree rootSb (op.enters rootSb 0 (rootFs true 1)) (rootFs true 1) t := fun op t ht =>
    (names_undone wf_rootSb (wellFormed_rootFs true 1) hcwd op).of_ok ht rfl
  obtain ⟨r, t, ht, rfl, hprinted, hlogged⟩ := mkdir_full.exists_ok
  exact ⟨t, ht, hprinted, hlogged, hundone _ t ht⟩

end Xv6
