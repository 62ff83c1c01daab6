import Xv6.Fs.Write

/-!
# Inodes in memory and on the disk

Between two operations (`Fs.Ok`) the blocks are owned by the inodes of the disk, the inodes in
memory have different numbers, and those that were read are as on the disk. An operation that
changes the copy in memory writes it back at its end, with `iupdate` (`Synced`).

So `writei` and `itrunc` change one inode on the disk, and leave the others and their files alone
(`Others`).
-/

namespace Xv6

namespace Fs

/-- The places of the inodes of the disk. -/
def stores (sb : Superblock) (s : Fs) : ℕ × FileSlot → ℕ := stored sb (Disk.dinode sb s.disk) s.disk

/-- The byte at the offset `o` of the file of the inode `j`. -/
def byteAt (sb : Superblock) (s : Fs) (j o : ℕ) : UInt8 :=
  (s.disk (s.stores sb (j, slotOf (o / bsize)))).get (o % bsize)

/-- The entry is in use, and its inode was read. -/
def Cached (s : Fs) (ip : Fin ninode) : Prop := 0 < (s.inode ip).ref ∧ (s.inode ip).valid = true

/-- The inodes in memory, for the inodes `I` of the disk. -/
structure TableOk (sb : Superblock) (I : ℕ → Dinode) (tab : Fin ninode → MemInode) : Prop where
  inum : ∀ ip, 0 < (tab ip).ref → (tab ip).inum < sb.ninodes
  distinct : ∀ ip jp, 0 < (tab ip).ref → 0 < (tab jp).ref → (tab ip).inum = (tab jp).inum → ip = jp
  copy : ∀ ip, 0 < (tab ip).ref → (tab ip).valid = true → (tab ip).d = I (tab ip).inum
  type : ∀ ip, 0 < (tab ip).ref → (tab ip).valid = true → (tab ip).d.type ≠ 0

/-- The file system between two operations. -/
structure Ok (sb : Superblock) (lost : Set ℕ) (s : Fs) : Prop where
  owned : BlocksOwned sb (Disk.dinode sb s.disk) s.disk lost
  table : TableOk sb (Disk.dinode sb s.disk) s.inode

variable {sb : Superblock} {s t u : Fs} {ip : Fin ninode} {i j o : ℕ} {lost W : Set ℕ}
  {E : FsPanic → Fs → Prop}

theorem Ok.view (h : s.Ok sb lost) (hc : s.Cached ip) : s.view sb ip = Disk.dinode sb s.disk :=
  Function.update_eq_self_iff.2 (h.table.copy ip hc.1 hc.2)

theorem Ok.places (h : s.Ok sb lost) (hc : s.Cached ip) : s.places sb ip = s.stores sb := by
  rw [Fs.places, h.view hc, stores]

theorem Ok.byte (h : s.Ok sb lost) (hc : s.Cached ip) : s.byte sb ip = s.byteAt sb := by
  funext j o
  rw [Fs.byte, h.places hc, byteAt]

theorem Ok.held (h : s.Ok sb lost) (hc : s.Cached ip) : s.Held sb lost ip :=
  ⟨h.table.inum ip hc.1, h.table.type ip hc.1 hc.2, by rw [h.view hc]; exact h.owned⟩

theorem size_lt (sb : Superblock) (d : Disk) (i : ℕ) : (Disk.dinode sb d i).size < 2 ^ 32 := by
  have hlt := ofLe_lt ((((d (sb.iblock i)).read (64 * (i % ipb)) 64).drop 8).take 4)
  refine hlt.trans_le ?_
  have hlen : ((((d (sb.iblock i)).read (64 * (i % ipb)) 64).drop 8).take 4).length = 4 := by simp
  rw [hlen]
  decide

theorem Ok.size_lt (h : s.Ok sb lost) (hc : s.Cached ip) : (s.inode ip).d.size < 2 ^ 32 := by
  rw [h.table.copy ip hc.1 hc.2]
  exact Fs.size_lt ..

/-! ## The table -/

/-- The inode `ip` has the fields `d` in memory, and the other ones are as before. -/
structure SetTo (ip : Fin ninode) (d : Dinode) (s t : Fs) : Prop where
  self : t.inode ip = { s.inode ip with d := d }
  frame : ∀ jp, jp ≠ ip → t.inode jp = s.inode jp

theorem SetTo.inum {d : Dinode} (h : SetTo ip d s t) : (t.inode ip).inum = (s.inode ip).inum := by
  rw [h.self]

theorem SetTo.slot {d : Dinode} (h : SetTo ip d s t) (jp : Fin ninode) :
    (t.inode jp).ref = (s.inode jp).ref ∧ (t.inode jp).inum = (s.inode jp).inum ∧
      (t.inode jp).valid = (s.inode jp).valid := by
  by_cases hjp : jp = ip
  · rw [hjp, h.self]
    exact ⟨rfl, rfl, rfl⟩
  · rw [h.frame jp hjp]
    exact ⟨rfl, rfl, rfl⟩

/-- An inode is changed in memory and on the disk. -/
theorem TableOk.set {I I' : ℕ → Dinode} {d : Dinode} (h : TableOk sb I s.inode)
    (hset : SetTo ip d s t) (href : 0 < (s.inode ip).ref) (htype : d.type ≠ 0)
    (hself : I' (s.inode ip).inum = d)
    (hI : ∀ j < sb.ninodes, j ≠ (s.inode ip).inum → I' j = I j) : TableOk sb I' t.inode := by
  refine ⟨fun jp hr => ?_, fun jp kp hj hk hjk => ?_, fun jp hr hv => ?_, fun jp hr hv => ?_⟩
  · rw [(hset.slot jp).2.1]
    exact h.inum jp (by rwa [← (hset.slot jp).1])
  · rw [(hset.slot jp).2.1, (hset.slot kp).2.1] at hjk
    exact h.distinct jp kp (by rwa [← (hset.slot jp).1]) (by rwa [← (hset.slot kp).1]) hjk
  · by_cases hjp : jp = ip
    · rw [hjp, hset.inum, hself, hset.self]
    · rw [hset.frame jp hjp] at hr hv ⊢
      rw [hI _ (h.inum jp hr) fun heq => hjp (h.distinct jp ip hr href heq)]
      exact h.copy jp hr hv
  · by_cases hjp : jp = ip
    · rw [hjp, hset.self]
      exact htype
    · rw [hset.frame jp hjp] at hr hv ⊢
      exact h.type jp hr hv

/-! ## `iupdate` -/

/-- Changing the fields of an inode in memory. -/
theorem wp_setDinode {f : Dinode → Dinode} {Q : PUnit → Fs → Prop}
    (hQ : ∀ v : Fs, v.disk = u.disk → v.logged = u.logged → v.printed = u.printed →
      v.inode ip = { u.inode ip with d := f (u.inode ip).d } →
      (∀ jp, jp ≠ ip → v.inode jp = u.inode jp) → Q ⟨⟩ v) :
    wp (setDinode ip f) Q E u :=
  hQ { u with inode := _ } rfl rfl rfl (Function.update_self ..) fun _ hjp =>
    Function.update_of_ne hjp _ _

/-- The copy in memory of the inode `ip` was written to the disk. -/
structure Synced (sb : Superblock) (lost : Set ℕ) (ip : Fin ninode) (u t : Fs) : Prop where
  inode : t.inode = u.inode
  dinode : ∀ i < sb.ninodes, Disk.dinode sb t.disk i = u.view sb ip i
  data : ∀ c, sb.nmeta ≤ c → t.disk c = u.disk c
  stores : t.stores sb = u.places sb ip
  marked : ∀ b, Disk.marked sb t.disk b = Disk.marked sb u.disk b
  owned : BlocksOwned sb (Disk.dinode sb t.disk) t.disk lost

/-- The slots of an inode that owns its blocks are 32-bit numbers. -/
theorem Held.fits (hsb : sb.Wf) (h : u.Held sb lost ip) (hsize : (u.inode ip).d.size < 2 ^ 32) :
    (u.inode ip).d.Fits := by
  refine ⟨hsize, fun k => ?_⟩
  by_cases hz : (u.inode ip).d.addrs k = 0
  · rw [hz]
    decide
  · have hrange := h.range (x := ((u.inode ip).inum, .addr k)) (by rwa [h.stored_addr])
    rw [h.stored_addr] at hrange
    exact hrange.2.trans hsb.size

theorem wp_iupdate (hsb : sb.Wf) (h : u.Held sb lost ip) (hsize : (u.inode ip).d.size < 2 ^ 32) :
    wp (iupdate sb ip) (fun _ => Synced sb lost ip u) E u := by
  have hdinode : ∀ i < sb.ninodes, Disk.dinode sb
      (Disk.putDinode sb u.disk (u.inode ip).inum (u.inode ip).d) i = u.view sb ip i := by
    intro i _
    rw [Disk.dinode_putDinode (h.fits hsb hsize), Fs.view, Function.update_apply]
  have hdata : ∀ c, sb.nmeta ≤ c →
      Disk.putDinode sb u.disk (u.inode ip).inum (u.inode ip).d c = u.disk c :=
    fun c hc => Disk.putDinode_data hsb h.inum hc
  have hstores : stored sb (Disk.dinode sb (Disk.putDinode sb u.disk (u.inode ip).inum
      (u.inode ip).d)) (Disk.putDinode sb u.disk (u.inode ip).inum (u.inode ip).d) =
      u.places sb ip :=
    stored_congr hdinode fun i hi hne => hdata _ (h.owned.last hi hne)
  have howned : BlocksOwned sb (Disk.dinode sb (Disk.putDinode sb u.disk (u.inode ip).inum
      (u.inode ip).d)) (Disk.putDinode sb u.disk (u.inode ip).inum (u.inode ip).d) lost := by
    unfold BlocksOwned
    rw [hstores]
    exact Owned.congr h.owned fun b _ => Disk.marked_putDinode hsb h.inum
  exact ⟨rfl, hdinode, hdata, hstores, fun b => Disk.marked_putDinode hsb h.inum, howned⟩

/-- Once it is written back, the inode is in memory as any other. -/
theorem Synced.ok (h : s.Ok sb lost) (hsync : Synced sb lost ip u t) (hu : u.Held sb lost ip)
    (hset : SetTo ip (u.inode ip).d s u) (href : 0 < (s.inode ip).ref)
    (hdinode : ∀ i < sb.ninodes, Disk.dinode sb u.disk i = Disk.dinode sb s.disk i) :
    t.Ok sb lost := by
  refine ⟨hsync.owned, ?_⟩
  rw [hsync.inode]
  refine h.table.set hset href hu.type ?_ fun j hj hji => ?_
  · rw [← hset.inum, hsync.dinode _ hu.inum, view_self]
  · rw [hsync.dinode j hj, view_of_ne (by rwa [hset.inum]), hdinode j hj]

/-- Changing the fields of the inode that are not about its blocks. -/
theorem Held.setFields (h : u.Held sb lost ip) {f : Dinode → Dinode}
    (haddrs : (f (u.inode ip).d).addrs = (u.inode ip).d.addrs) (htype : (f (u.inode ip).d).type ≠ 0)
    (hdisk : t.disk = u.disk)
    (hself : t.inode ip = { u.inode ip with d := f (u.inode ip).d }) :
    t.Held sb lost ip ∧ t.places sb ip = u.places sb ip := by
  have hview : ∀ j, j ≠ (u.inode ip).inum → t.view sb ip j = u.view sb ip j := by
    intro j hj
    rw [view_of_ne hj, view_of_ne (by rwa [hself]), hdisk]
  have hviewself : t.view sb ip (u.inode ip).inum = f (u.inode ip).d := by
    rw [show (u.inode ip).inum = (t.inode ip).inum by rw [hself], view_self, hself]
  have hplaces : t.places sb ip = u.places sb ip := by
    refine stored_congr_addrs (fun j _ => ?_) (fun j _ => ?_) fun _ _ _ => by rw [hdisk]
    · by_cases hj : j = (u.inode ip).inum
      · rw [hj, hviewself, view_self]
        exact iff_of_false htype h.type
      · rw [hview j hj]
    · by_cases hj : j = (u.inode ip).inum
      · rw [hj, hviewself, view_self, haddrs]
      · rw [hview j hj]
  refine ⟨⟨by rw [hself]; exact h.inum, by rw [hself]; exact htype, ?_⟩, hplaces⟩
  have hst : stored sb (t.view sb ip) t.disk = u.places sb ip := hplaces
  unfold BlocksOwned
  rw [hst, hdisk]
  exact h.owned

/-! ## `writei` and `itrunc` -/

/-- Of the inodes of the disk and of their files, only `i` may have changed. -/
structure Others (sb : Superblock) (i : ℕ) (s t : Fs) : Prop where
  dinode : ∀ j < sb.ninodes, j ≠ i → Disk.dinode sb t.disk j = Disk.dinode sb s.disk j
  stores : ∀ j sl, j ≠ i → t.stores sb (j, sl) = s.stores sb (j, sl)
  data : ∀ j o, j ≠ i → s.stores sb (j, slotOf (o / bsize)) ≠ 0 →
    t.byteAt sb j o = s.byteAt sb j o

theorem Others.trans (h : Others sb i s t) (h' : Others sb i t u) : Others sb i s u where
  dinode j hj hji := (h'.dinode j hj hji).trans (h.dinode j hj hji)
  stores j sl hji := (h'.stores j sl hji).trans (h.stores j sl hji)
  data j o hji hne :=
    (h'.data j o hji (by rwa [h.stores j _ hji])).trans (h.data j o hji hne)

theorem stores_congr (hd : t.disk = s.disk) : t.stores sb = s.stores sb := by
  rw [Fs.stores, hd, Fs.stores]

theorem Others.of_disk (hd : t.disk = s.disk) : Others sb i s t where
  dinode j _ _ := by rw [hd]
  stores j sl _ := by rw [stores_congr hd]
  data j o _ _ := by rw [byteAt, stores_congr hd, hd, byteAt]

/-- The inode `ip` has grown by the bytes that were written, at the offsets of `W` at most. -/
structure Written (sb : Superblock) (lost : Set ℕ) (ip : Fin ninode) (W : Set ℕ) (size : ℕ)
    (s t : Fs) : Prop where
  ok : t.Ok sb lost
  inode : SetTo ip { (s.inode ip).d with size := size, addrs := (t.inode ip).d.addrs } s t
  others : Others sb (s.inode ip).inum s t
  keep : ∀ x, s.stores sb x ≠ 0 → t.stores sb x = s.stores sb x
  data : ∀ o, s.stores sb ((s.inode ip).inum, slotOf (o / bsize)) ≠ 0 → o ∉ W →
    t.byteAt sb (s.inode ip).inum o = s.byteAt sb (s.inode ip).inum o

/-- The bytes of a file are those with the copy in memory. -/
theorem Synced.byteAt (h : Synced sb lost ip u t) (hu : u.Held sb lost ip)
    (hne : u.places sb ip (j, slotOf (o / bsize)) ≠ 0) : t.byteAt sb j o = u.byte sb ip j o := by
  rw [Fs.byteAt, h.stores, h.data _ (hu.range hne).1, Fs.byte]

/-- The size of the inode is set and the inode is written back. -/
theorem Grows.written (hsb : sb.Wf) (h : s.Ok sb lost) (hc : s.Cached ip)
    (hg : Grows sb lost ip W s u) {f : ℕ → ℕ} (hsize : f (s.inode ip).d.size < 2 ^ 32) :
    wp (do setDinode ip fun d => { d with size := f d.size }
           iupdate sb ip)
      (fun _ t => (∀ W', Grows sb lost ip W' s u → Written sb lost ip W' (f (s.inode ip).d.size) s t) ∧
        (∀ x, t.stores sb x = u.places sb ip x) ∧
        (∀ b, Disk.marked sb t.disk b = Disk.marked sb u.disk b) ∧
        ∀ o, u.places sb ip ((s.inode ip).inum, slotOf (o / bsize)) ≠ 0 →
          t.byteAt sb (s.inode ip).inum o = u.byte sb ip (s.inode ip).inum o) E u := by
  have hsz : (u.inode ip).d.size = (s.inode ip).d.size := by rw [hg.self]
  rw [wp_bind]
  refine wp_setDinode fun v hdisk _ _ hself hframe => ?_
  have hvsz : (v.inode ip).d.size < 2 ^ 32 := by
    rw [hself]
    dsimp only
    rwa [hsz]
  obtain ⟨hheld, hplaces⟩ := hg.held.setFields (t := v) (f := fun d => { d with size := f d.size })
    rfl hg.held.type hdisk hself
  have hbyte : v.byte sb ip = u.byte sb ip := by
    funext j o
    rw [Fs.byte, hplaces, hdisk, Fs.byte]
  refine (wp_iupdate hsb hheld hvsz).mono (fun _ t ht => ?_) fun _ _ he => he
  have hinum : (v.inode ip).inum = (s.inode ip).inum := by rw [hself, hg.self]
  have hdin : ∀ i < sb.ninodes, Disk.dinode sb v.disk i = Disk.dinode sb s.disk i := by
    intro i hi
    rw [hdisk, hg.dinode i hi]
  have hframe' : ∀ jp, jp ≠ ip → v.inode jp = s.inode jp := fun jp hjp =>
    (hframe jp hjp).trans (hg.frame jp hjp)
  have hkeep : ∀ x, s.stores sb x ≠ 0 → t.stores sb x = s.stores sb x := by
    intro x hx
    rw [ht.stores, hplaces, hg.keep x (by rwa [h.places hc]), h.places hc]
  have hbytes : ∀ W', Grows sb lost ip W' s u → ∀ j o, s.stores sb (j, slotOf (o / bsize)) ≠ 0 →
      (j = (s.inode ip).inum → o ∉ W') → t.byteAt sb j o = s.byteAt sb j o := by
    intro W' hg' j o hx ho
    rw [← h.places hc] at hx
    rw [ht.byteAt hheld (by rwa [hplaces, hg.keep _ hx]), hbyte, hg'.data j o hx ho, h.byte hc]
  refine ⟨fun W' hg' => ⟨?_, ⟨?_, ?_⟩, ⟨fun j hj hji => ?_, fun j sl hji => ?_, fun j o hji hx => ?_⟩,
    hkeep, fun o hx ho => hbytes W' hg' _ o hx fun _ => ho⟩, fun x => by rw [ht.stores, hplaces],
    fun b => by rw [ht.marked, hdisk], fun o hx => by rw [ht.byteAt hheld (by rwa [hplaces]), hbyte]⟩
  · exact ht.ok h hheld ⟨by rw [hself, hg.self], hframe'⟩ hc.1 hdin
  · rw [ht.inode, hself, hg.self]
  · intro jp hjp
    rw [ht.inode, hframe' jp hjp]
  · rw [ht.dinode j hj, view_of_ne (by rwa [hinum]), hdin j hj]
  · rw [ht.stores, hplaces, hg.other j sl hji, h.places hc]
  · exact hbytes W' hg' j o hx fun heq => absurd heq hji

/-- Fields of the inode `ip` that are not about its blocks were changed. -/
structure Fielded (sb : Superblock) (lost : Set ℕ) (ip : Fin ninode) (d : Dinode) (s t : Fs) :
    Prop where
  ok : t.Ok sb lost
  inode : SetTo ip d s t
  others : Others sb (s.inode ip).inum s t
  stores : t.stores sb = s.stores sb
  data : ∀ o, s.stores sb ((s.inode ip).inum, slotOf (o / bsize)) ≠ 0 →
    t.byteAt sb (s.inode ip).inum o = s.byteAt sb (s.inode ip).inum o

theorem wp_setFields (hsb : sb.Wf) (h : s.Ok sb lost) (hc : s.Cached ip) {f : Dinode → Dinode}
    (haddrs : (f (s.inode ip).d).addrs = (s.inode ip).d.addrs)
    (hsize : (f (s.inode ip).d).size = (s.inode ip).d.size)
    (htype : (f (s.inode ip).d).type = (s.inode ip).d.type) :
    wp (do setDinode ip f
           iupdate sb ip) (fun _ => Fielded sb lost ip (f (s.inode ip).d) s) E s := by
  rw [wp_bind]
  refine wp_setDinode fun v hdisk _ _ hself hframe => ?_
  have hheld := h.held hc
  obtain ⟨hv, hplaces⟩ := hheld.setFields (t := v) haddrs (by rw [htype]; exact hheld.type) hdisk hself
  have hvsz : (v.inode ip).d.size < 2 ^ 32 := by
    rw [hself]
    dsimp only
    rw [hsize]
    exact h.size_lt hc
  have hset : SetTo ip (v.inode ip).d s v := ⟨by rw [hself], hframe⟩
  refine (wp_iupdate hsb hv hvsz).mono (fun _ t ht => ?_) fun _ _ he => he
  have hstores : t.stores sb = s.stores sb := by rw [ht.stores, hplaces, h.places hc]
  have hdata : ∀ j o, s.stores sb (j, slotOf (o / bsize)) ≠ 0 →
      t.byteAt sb j o = s.byteAt sb j o := by
    intro j o hne
    have hlo : sb.nmeta ≤ s.stores sb (j, slotOf (o / bsize)) := (h.owned.range hne).1
    rw [byteAt, hstores, ht.data _ hlo, hdisk, byteAt]
  refine ⟨ht.ok h hv hset hc.1 fun i _ => by rw [hdisk], ⟨?_, fun jp hjp => ?_⟩,
    ⟨fun j hj hji => ?_, fun j sl _ => by rw [hstores], fun j o _ hne => hdata j o hne⟩, hstores,
    hdata _⟩
  · rw [ht.inode, hself]
  · rw [ht.inode, hframe jp hjp]
  · rw [ht.dinode j hj, view_of_ne (by rwa [hset.inum]), hdisk]

/-- `tot` bytes were written to the inode. -/
structure Stored (sb : Superblock) (lost : Set ℕ) (ip : Fin ninode) (src : ℕ → Option UInt8)
    (off n : ℕ) (s : Fs) (tot : ℕ) (t : Fs) : Prop where
  le : tot ≤ n
  written : Written sb lost ip (Set.Ico off (off + n)) (max (s.inode ip).d.size (off + tot)) s t
  exact : (∀ k, (src k).isSome = true) →
    Written sb lost ip (Set.Ico off (off + tot)) (max (s.inode ip).d.size (off + tot)) s t
  filled : ∀ o, off ≤ o → o < off + tot → t.stores sb ((s.inode ip).inum, slotOf (o / bsize)) ≠ 0
  bytes : ∀ o, off ≤ o → o < off + tot →
    some (t.byteAt sb (s.inode ip).inum o) = src (o - off)
  /-- If the source can be read, less than all is written only for want of a block. -/
  stopped : (∀ k, (src k).isSome = true) → tot < n → t.DiskFull sb

/-- The arguments that `writei` accepts. -/
def Accepts (size off n : ℕ) : Prop := off ≤ size ∧ off + n ≤ maxfile * bsize

instance decidableAccepts (size off n : ℕ) : Decidable (Accepts size off n) :=
  inferInstanceAs (Decidable (_ ∧ _))

/-- The test for an overflow of `off + n`. -/
theorem add_wraps {off n : ℕ} (hoff : off < 2 ^ 32) (hn : n < 2 ^ 32) :
    (off + n) % 2 ^ 32 < off ↔ 2 ^ 32 ≤ off + n := by
  by_cases h : off + n < 2 ^ 32
  · rw [Nat.mod_eq_of_lt h]
    omega
  · rw [Nat.mod_eq_sub_mod (by omega), Nat.mod_eq_of_lt (by omega)]
    omega

/-- What `writei` does. -/
theorem wp_writei (hsb : sb.Wf) (h : s.Ok sb lost) (hc : s.Cached ip) {src : ℕ → Option UInt8}
    {off n : ℕ} (hoff : off < 2 ^ 32) (hn : n < 2 ^ 32) {Q : ℤ → Fs → Prop}
    (hrej : ¬Accepts (s.inode ip).d.size off n → Q (-1) s)
    (hacc : Accepts (s.inode ip).d.size off n → ∀ (tot : ℕ) (t : Fs),
      Stored sb lost ip src off n s tot t → Q tot t) :
    wp (writei sb ip src off n) Q E s := by
  have hwrap := add_wraps hoff hn
  have hmax : maxfile * bsize < 2 ^ 32 := by decide
  simp only [writei, wp_bind, wp_get]
  split
  next hbad =>
    refine hrej fun ha => ?_
    have := ha.1
    have := ha.2
    rw [hwrap] at hbad
    omega
  next hok =>
  rw [hwrap, not_or, not_lt, not_le] at hok
  rw [Nat.mod_eq_of_lt hok.2]
  split
  next hbig => exact hrej fun ha => absurd ha.2 (Nat.not_le.2 hbig)
  next hfit =>
  have ha : Accepts (s.inode ip).d.size off n := ⟨hok.1, Nat.not_lt.1 hfit⟩
  rw [wp_bind]
  refine (wp_writeiLoop hsb (h.held hc) (by omega) (Nat.zero_le n) (by simpa using ha.2)).mono
    (fun r u hu => ?_) fun _ _ he => he
  have hr : r.2 = off + r.1 := hu.off_eq
  have hle := hu.le_n
  have hsize : (if r.2 > (s.inode ip).d.size then r.2 else (s.inode ip).d.size) =
      max (s.inode ip).d.size (off + r.1) := by
    rw [hr]
    split <;> omega
  have hlt := h.size_lt hc
  have hsync := hu.grows.written (E := E) hsb h hc
    (f := fun z => if r.2 > z then r.2 else z) (by split <;> omega)
  rw [wp_bind] at hsync
  rw [wp_bind]
  refine hsync.mono (fun _ v hv => ?_) fun _ _ he => he
  rw [wp_bind]
  refine hv.mono (fun _ t ht => ?_) fun _ _ he => he
  obtain ⟨hwr, hst, hmarked, hby⟩ := ht
  rw [hsize] at hwr
  have hgrows : Grows sb lost ip (Set.Ico off (off + n)) s u := hu.grows
  refine hacc ha r.1 t ⟨hle, hwr _ hgrows, fun hsrc => ?_, fun o h₁ h₂ => ?_, fun o h₁ h₂ => ?_,
    fun hsrc hlt b hb => ?_⟩
  · have hexact := hu.exact hsrc
    rw [hr] at hexact
    exact hwr _ hexact
  · rw [hst]
    exact hu.filled o h₁ (by omega)
  · rw [hby o (hu.filled o h₁ (by omega)), hu.bytes o h₁ (by omega), Nat.zero_add]
  · rw [hmarked]
    exact hu.stopped hsrc hlt b hb

/-- The inode `ip` was emptied. -/
structure Truncated (sb : Superblock) (lost : Set ℕ) (ip : Fin ninode) (s t : Fs) : Prop where
  ok : t.Ok sb lost
  inode : SetTo ip (s.inode ip).d.emptied s t
  others : Others sb (s.inode ip).inum s t
  stores : ∀ sl, t.stores sb ((s.inode ip).inum, sl) = 0

theorem Emptied.stores (h : s.Ok sb lost) (hc : s.Cached ip) (he : Emptied sb lost ip s t) :
    t.stores sb = fun x => if x.1 = (s.inode ip).inum then 0 else s.stores sb x := by
  have hself : Disk.dinode sb t.disk (s.inode ip).inum = (s.inode ip).d.emptied := by
    rw [he.dinode _ (h.held hc).inum, if_pos rfl]
  funext ⟨j, sl⟩
  by_cases hj : j = (s.inode ip).inum
  · rw [if_pos hj]
    by_cases ha : Alloced sb (Disk.dinode sb t.disk) j
    swap
    · exact stored_of_not_alloced ha sl
    subst hj
    cases sl with
    | addr k => rw [Fs.stores, stored_addr ha, hself]; rfl
    | entry e => exact stored_entry_of_eq_zero (by rw [hself]; rfl)
  · rw [if_neg hj]
    by_cases hlt : j < sb.ninodes
    swap
    · rw [Fs.stores, Fs.stores, stored_of_not_alloced fun ha => hlt ha.1,
        stored_of_not_alloced fun ha => hlt ha.1]
    -- The inode `j` and its indirect block are as before.
    have hsame : Disk.dinode sb t.disk j = Disk.dinode sb s.disk j := by
      rw [he.dinode j hlt, if_neg hj]
    exact stored_eq_of_dinode hsame fun ha hne => he.data _ (h.owned.last ha hne)

theorem Emptied.truncated (h : s.Ok sb lost) (hc : s.Cached ip) (he : Emptied sb lost ip s t) :
    Truncated sb lost ip s t := by
  have hst := he.stores h hc
  have hset : SetTo ip (s.inode ip).d.emptied s t := by
    refine ⟨?_, fun jp hjp => ?_⟩
    · rw [he.inode]
      exact Function.update_self ..
    · rw [he.inode]
      exact Function.update_of_ne hjp _ _
  have hself : ∀ sl, t.stores sb ((s.inode ip).inum, sl) = 0 := fun sl => by
    rw [hst]
    exact if_pos rfl
  have hother : ∀ j sl, j ≠ (s.inode ip).inum → t.stores sb (j, sl) = s.stores sb (j, sl) :=
    fun j sl hji => by
      rw [hst]
      exact if_neg hji
  have hdinode : ∀ j < sb.ninodes, j ≠ (s.inode ip).inum →
      Disk.dinode sb t.disk j = Disk.dinode sb s.disk j := fun j hj hji => by
    rw [he.dinode j hj, if_neg hji]
  have howned : Owned sb.nmeta sb.size lost (Disk.marked sb t.disk) (t.stores sb) := by
    have hown := he.owned
    rw [h.places hc] at hown
    rw [hst]
    exact hown
  refine ⟨⟨howned, ?_⟩, hset, ⟨hdinode, hother, fun j o hji hx => ?_⟩, hself⟩
  · refine h.table.set hset hc.1 (h.table.type ip hc.1 hc.2) ?_ hdinode
    rw [he.dinode _ (h.held hc).inum, if_pos rfl]
  · have hrange : sb.nmeta ≤ s.stores sb (j, slotOf (o / bsize)) := (h.owned.range hx).1
    rw [byteAt, hother j _ hji, he.data _ hrange, byteAt]

theorem wp_itrunc_ok (hsb : sb.Wf) (h : s.Ok sb lost) (hc : s.Cached ip) :
    wp (itrunc sb ip) (fun _ => Truncated sb lost ip s) E s :=
  (wp_itrunc hsb (h.held hc)).mono (fun _ _ he => he.truncated h hc) fun _ _ he => he

end Fs

end Xv6
