import Xv6.Fs.Enter
import Xv6.Fs.Path
import Xv6.Lib.Slots

/-!
# Directories as maps

A directory is a map from names to numbers of inodes, in slots: an entry with the number `0` is an
empty slot, and the key of another one is its name up to the first NUL. Then `dirlookup` finds the
pair of a name, `dirlink` adds one, and the write with which `sys_unlink` clears an entry removes
one.
-/

namespace Xv6

namespace Fs

/-- The pair that an entry holds. -/
def Dirent.pair (de : Dirent) : Option (List UInt8 × ℕ) :=
  if de.inum = 0 then none else some (cstr dirsiz de.name, de.inum)

section

variable (sb : Superblock) (s : Fs)

/-- The slots of the directory `i`. -/
def slot (i k : ℕ) : Option (List UInt8 × ℕ) := Dirent.pair (s.entry sb i k)

/-- The number of slots of the directory `i`. -/
def slots (i : ℕ) : ℕ := (Disk.dinode sb s.disk i).size / 16

/-- The map that the directory `i` is. -/
def names (i : ℕ) : Set (List UInt8 × ℕ) := Slots.graph (s.slot sb i) (s.slots sb i)

/-- The locked inode `dp` is a directory of whole entries, with distinct names. -/
structure IsDir (dp : Fin ninode) : Prop where
  cached : s.Cached dp
  type : (s.inode dp).d.type = tDir
  whole : 16 ∣ (s.inode dp).d.size
  distinct : Slots.Distinct (s.slot sb (s.inode dp).inum) (s.slots sb (s.inode dp).inum)

/-- What `dirlookup` returns. -/
structure Finds (dp : Fin ninode) (name : List UInt8) (r : Option (Fin ninode × ℕ)) (t : Fs) :
    Prop where
  disk : t.disk = s.disk
  found : ∀ ip off, r = some (ip, off) →
    (cstr dirsiz name, (t.inode ip).inum) ∈ s.names sb (s.inode dp).inum ∧
      ∃ k, off = 16 * k ∧ k < s.slots sb (s.inode dp).inum ∧
        ∀ k' < s.slots sb (s.inode dp).inum,
          (s.slot sb (s.inode dp).inum k').map Prod.fst = some (cstr dirsiz name) ↔ k' = k
  absent : r = none → ∀ j, (cstr dirsiz name, j) ∉ s.names sb (s.inode dp).inum

/-- What `dirlink` does when it returns `r`. -/
structure Links (dp : Fin ninode) (name : List UInt8) (inum : ℕ) (r : ℤ) (t : Fs) : Prop where
  code : r = 0 ∨ r = -1
  dir : t.IsDir sb dp ∧ (t.inode dp).inum = (s.inode dp).inum
  fails : r = -1 → t.names sb (s.inode dp).inum = s.names sb (s.inode dp).inum
  present : ∀ j, (cstr dirsiz name, j) ∈ s.names sb (s.inode dp).inum → r = -1
  adds : r = 0 → t.names sb (s.inode dp).inum =
    insert (cstr dirsiz name, inum) (s.names sb (s.inode dp).inum)
  /-- The first empty slot is filled, or one more at the end. -/
  place : r = 0 → ∃ k ≤ s.slots sb (s.inode dp).inum,
    (∀ k' < k, s.slot sb (s.inode dp).inum k' ≠ none) ∧
      t.slot sb (s.inode dp).inum k = some (cstr dirsiz name, inum) ∧
      (k < s.slots sb (s.inode dp).inum → s.slot sb (s.inode dp).inum k = none ∧
        t.slots sb (s.inode dp).inum = s.slots sb (s.inode dp).inum) ∧
      (k = s.slots sb (s.inode dp).inum → t.slots sb (s.inode dp).inum = k + 1)

end

variable {sb : Superblock} {s t u : Fs} {ip dp : Fin ninode} {i j k inum : ℕ} {lost : Set ℕ}
  {name : List UInt8} {E : FsPanic → Fs → Prop}

theorem pair_eq_some_iff {de : Dirent} {n : List UInt8} :
    Dirent.pair de = some (n, j) ↔ de.inum = j ∧ j ≠ 0 ∧ cstr dirsiz de.name = n := by
  unfold Dirent.pair
  split
  next hz =>
    refine iff_of_false (fun h => (by cases h)) ?_
    rintro ⟨rfl, hne, -⟩
    exact hne hz
  next hz =>
    rw [Option.some.injEq, Prod.mk.injEq]
    constructor
    · rintro ⟨rfl, rfl⟩
      exact ⟨rfl, hz, rfl⟩
    · rintro ⟨rfl, -, rfl⟩
      exact ⟨rfl, rfl⟩

/-- An entry has the name if it is the key of the pair. -/
theorem pair_fst_eq_iff {de : Dirent} :
    (Dirent.pair de).map Prod.fst = some (cstr dirsiz name) ↔ de.Names name := by
  rw [Dirent.Names, namecmp_eq_zero_iff, Dirent.pair]
  split
  next hz => simp [hz]
  next hz => simp [hz, eq_comm]

theorem lt_slots_iff : k < s.slots sb i ↔ 16 * k + 16 ≤ (Disk.dinode sb s.disk i).size := by
  rw [slots]
  omega

/-- A name is in the map if an entry has it. -/
theorem mem_names_iff : (cstr dirsiz name, j) ∈ s.names sb i ↔
    ∃ k < s.slots sb i, (s.entry sb i k).Names name ∧ (s.entry sb i k).inum = j := by
  refine exists_congr fun k => and_congr_right fun _ => ?_
  rw [slot, pair_eq_some_iff, Dirent.Names, namecmp_eq_zero_iff]
  constructor
  · rintro ⟨rfl, hz, hn⟩
    exact ⟨⟨hz, hn.symm⟩, rfl⟩
  · rintro ⟨⟨hz, hn⟩, rfl⟩
    exact ⟨rfl, hz, hn.symm⟩

/-- If the names are distinct, an entry is determined by its name. -/
theorem IsDir.unique (hd : s.IsDir sb dp) {k' : ℕ} (hk : k < s.slots sb (s.inode dp).inum)
    (hk' : k' < s.slots sb (s.inode dp).inum) (hn : (s.entry sb (s.inode dp).inum k).Names name)
    (hn' : (s.entry sb (s.inode dp).inum k').Names name) : k' = k := by
  have hpair : ∀ {de : Dirent}, de.Names name →
      Dirent.pair de = some (cstr dirsiz name, de.inum) := fun hn =>
    pair_eq_some_iff.2 ⟨rfl, hn.1, (namecmp_eq_zero_iff.1 hn.2).symm⟩
  exact hd.distinct k' hk' k hk _ _ (hpair hn') (hpair hn) rfl

/-! ## `dirlookup` -/

/-- The name of an entry of the locked inode is in the map. -/
theorem IsDir.has_name (hd : s.IsDir sb dp) (hok : s.Ok sb lost)
    (hk : 16 * k + 16 ≤ (s.inode dp).d.size) (hn : (s.direntAt sb dp k).Names name) :
    ∃ j, (cstr dirsiz name, j) ∈ s.names sb (s.inode dp).inum := by
  rw [direntAt_eq hok hd.cached] at hn
  exact ⟨_, mem_names_iff.2 ⟨k, lt_slots_iff.2 ((hok.loaded hd.cached).copy ▸ hk), hn, rfl⟩⟩

/-- `dirlookup` finds the pair with the name. -/
theorem wp_dirlookup_finds (hok : s.Ok sb lost) (hno : s.NoHoles sb) (hd : s.IsDir sb dp) :
    wp (dirlookup sb dp name) (Finds sb s dp name)
      (fun e _ => e = .igetNoInodes ∧ s.TableFull ∧
        ∃ j, (cstr dirsiz name, j) ∈ s.names sb (s.inode dp).inum) s := by
  have hc := hd.cached
  have hcopy := (hok.loaded hc).copy
  have hat : ∀ k, s.direntAt sb dp k = s.entry sb (s.inode dp).inum k := direntAt_eq hok hc
  refine wp_dirlookup (hno.full hok hc) (hok.size_lt hc) (fun _ hall => ⟨rfl, ?_, fun _ j hj => ?_⟩)
    (fun _ k hk hname _ ip t hg => ⟨hg.disk, ?_, fun h => (by cases h)⟩) (fun h => absurd hd.type h)
    (fun _ h => absurd hd.whole h) fun k hk hname hfull => ⟨rfl, hfull, hd.has_name hok hk hname⟩
  · rintro _ _ h
    cases h
  · obtain ⟨k, hk, hn, -⟩ := mem_names_iff.1 hj
    rw [lt_slots_iff, ← hcopy] at hk
    exact hall k (by omega) (hat k ▸ hn)
  · rintro ip' off h
    cases h
    rw [hat] at hname hg
    have hlt : k < s.slots sb (s.inode dp).inum := lt_slots_iff.2 (hcopy ▸ hk)
    refine ⟨mem_names_iff.2 ⟨k, hlt, hname, hg.inum_eq.symm⟩, k, rfl, hlt, fun k' hk' => ?_⟩
    rw [slot, pair_fst_eq_iff]
    refine ⟨fun hn => hd.unique hlt hk' hname hn, ?_⟩
    rintro rfl
    exact hname

/-- If all entries of the table are in use for other inodes, `dirlookup` panics. -/
theorem IsDir.dirlookup_full (hd : s.IsDir sb dp) (hok : s.Ok sb lost) (hno : s.NoHoles sb)
    (hmem : (cstr dirsiz name, j) ∈ s.names sb (s.inode dp).inum)
    (hfull : ∀ ip, 0 < (s.inode ip).ref ∧ (s.inode ip).inum ≠ j) :
    ∃ t, dirlookup sb dp name s = .error .igetNoInodes t := by
  have hc := hd.cached
  have hcopy := (hok.loaded hc).copy
  have hat : ∀ k, s.direntAt sb dp k = s.entry sb (s.inode dp).inum k := direntAt_eq hok hc
  obtain ⟨k, hk, hn, hj⟩ := mem_names_iff.1 hmem
  have hrun : wp (dirlookup sb dp name) (fun _ _ => False) (fun e _ => e = .igetNoInodes) s := by
    refine wp_dirlookup (hno.full hok hc) (hok.size_lt hc) (fun _ hall => ?_)
      (fun _ k' hk' hn' _ ip t hg => ?_) (fun h => absurd hd.type h)
      (fun _ h => absurd hd.whole h) fun _ _ _ _ => rfl
    · rw [lt_slots_iff, ← hcopy] at hk
      exact hall k (by omega) (hat k ▸ hn)
    · rw [hat] at hn' hg
      obtain rfl := hd.unique hk (lt_slots_iff.2 (hcopy ▸ hk')) hn hn'
      rw [hj] at hg
      rcases hg.slot with ⟨_, hi, _⟩ | ⟨hr, _⟩
      · exact (hfull ip).2 hi
      · exact (hfull ip).1.ne' hr
  obtain ⟨_, _, _, h⟩ | ⟨e, t, he, rfl⟩ := hrun.ok_or_error
  · exact h.elim
  · exact ⟨t, he⟩

/-! ## `dirlink` -/

theorem names_congr (hslots : t.slots sb i = s.slots sb i)
    (hslot : ∀ k < s.slots sb i, t.slot sb i k = s.slot sb i k) : t.names sb i = s.names sb i := by
  ext b
  rw [names, names, hslots]
  exact exists_congr fun k => and_congr_right fun hk => by rw [hslot k hk]

/-- What `dirlink` leaves when it fails. -/
theorem NotEntered.links (hok : s.Ok sb lost) (hno : s.NoHoles sb) (hd : s.IsDir sb dp)
    (hn : NotEntered sb lost dp s t) : Links sb s dp name inum (-1) t := by
  have hc := hd.cached
  have hl := hok.loaded hc
  have hct := hn.refs.cached hc
  have hself := hn.inode dp hc.1
  have hinum : (t.inode dp).inum = (s.inode dp).inum := by rw [hself]
  have hdin := (hn.same (s.inode dp).inum).dinode hl.inum
  have hslots : t.slots sb (s.inode dp).inum = s.slots sb (s.inode dp).inum := by
    rw [slots, slots, hdin]
  have hslot : ∀ k < s.slots sb (s.inode dp).inum,
      t.slot sb (s.inode dp).inum k = s.slot sb (s.inode dp).inum k := fun k hk => by
    rw [slot, slot, (hn.same _).entry hno hl.inum (hl.copy ▸ hl.type) (lt_slots_iff.1 hk)]
  have hnames := names_congr hslots hslot
  refine ⟨.inr rfl, ⟨⟨hct, ?_, ?_, ?_⟩, hinum⟩, fun _ => hnames, fun _ _ => rfl, fun h => ?_,
    fun h => ?_⟩
  · rw [hself]
    exact hd.type
  · rw [hself]
    exact hd.whole
  · rw [hinum, hslots]
    intro k hk k' hk' b b' hb hb'
    rw [hslot k hk] at hb
    rw [hslot k' hk'] at hb'
    exact hd.distinct k hk k' hk' b b' hb hb'
  · exact absurd h (by decide)
  · exact absurd h (by decide)

/-- Filling a slot. -/
theorem Entered.filled (hok : s.Ok sb lost) (hd : s.IsDir sb dp) (hi : 0 < inum)
    (hi' : inum < 2 ^ 16) (he : Entered sb lost dp name inum k s t) :
    Slots.Filled (s.slot sb (s.inode dp).inum) (s.slots sb (s.inode dp).inum) k
      (cstr dirsiz name, inum) (t.slot sb (s.inode dp).inum) (t.slots sb (s.inode dp).inum) := by
  have hl := hok.loaded hd.cached
  have hdin := he.dinode_eq hok hd.cached
  have hwhole := hd.whole
  have hle := he.le_size
  have hvacant := he.vacant
  rw [hl.copy] at hwhole hle hvacant
  refine ⟨?_, ?_, fun hk => ?_, ?_, fun j hj hjn => ?_⟩
  · rw [slots, slots, hdin]
    dsimp only
    omega
  · rw [slots]
    omega
  · exact if_pos (hvacant (lt_slots_iff.1 hk))
  · rw [slot, he.new, pair_eq_some_iff]
    exact ⟨Nat.mod_eq_of_lt hi', hi.ne', cstr_strncpy name dirsiz⟩
  · rw [slot, slot, he.old j hj (hl.copy ▸ lt_slots_iff.1 hjn)]

theorem Entered.links (hok : s.Ok sb lost) (hd : s.IsDir sb dp) (hi : 0 < inum)
    (hi' : inum < 2 ^ 16) (he : Entered sb lost dp name inum k s t) :
    Links sb s dp name inum 0 t := by
  have hl := hok.loaded hd.cached
  have hf := he.filled hok hd hi hi'
  have hself := he.inode.self
  have hinum : (t.inode dp).inum = (s.inode dp).inum := by rw [hself]
  have hdin := he.dinode_eq hok hd.cached
  have habsent : ∀ j, (cstr dirsiz name, j) ∉ s.names sb (s.inode dp).inum := by
    intro j hj
    obtain ⟨k', hk', hn, -⟩ := mem_names_iff.1 hj
    have habs := he.absent
    rw [lookup, Option.map_eq_none_iff, List.find?_eq_none] at habs
    exact habs _ (List.mem_map.2 ⟨k', List.mem_range.2 hk', rfl⟩) (decide_eq_true hn)
  refine ⟨.inl rfl, ⟨⟨?_, ?_, ?_, ?_⟩, hinum⟩, fun h => ?_, fun j hj => absurd hj (habsent j),
    fun _ => hf.graph_eq, fun _ => ⟨k, hf.le, fun k' hk' => ?_, hf.new, fun hk => ⟨hf.empty hk, ?_⟩,
    fun hk => ?_⟩⟩
  · rw [Cached, hself]
    exact hd.cached
  · rw [hself]
    exact hd.type
  · have hwhole := hd.whole
    rw [hself]
    dsimp only
    omega
  · rw [hinum]
    exact hf.distinct hd.distinct habsent
  · exact absurd h (by decide)
  · rw [slot, Dirent.pair, if_neg (he.first k' hk')]
    exact Option.some_ne_none _
  · rw [hf.count]
    omega
  · rw [hf.count]
    omega

/-- `dirlink` adds the pair, or fails and leaves the map as it was. -/
theorem wp_dirlink_links (hsb : sb.Wf) (hok : s.Ok sb lost) (hno : s.NoHoles sb)
    (hd : s.IsDir sb dp) (hi : 0 < inum) (hi' : inum < 2 ^ 16) :
    wp (dirlink sb dp name inum) (Links sb s dp name inum)
      (fun e _ => e = .igetNoInodes ∧ s.TableFull ∧
        ∃ j, (cstr dirsiz name, j) ∈ s.names sb (s.inode dp).inum) s :=
  wp_dirlink_entered hsb hok hno hd.cached (fun _ hn => hn.links hok hno hd)
    (fun _ _ he => he.links hok hd hi hi') (fun h => absurd hd.type h) (fun h => absurd hd.whole h)
    fun _ hk hname hfull => ⟨rfl, hfull, hd.has_name hok hk hname⟩

/-! ## Clearing an entry -/

/-- A block that is stored has an index below the bound. -/
theorem lt_maxfile_of_stores {bn : ℕ} (h : s.stores sb (i, slotOf bn) ≠ 0) : bn < maxfile := by
  unfold slotOf at h
  split at h
  next hlt => exact hlt.trans (by decide)
  next hge =>
    have hj : bn - ndirect < nindirect := by
      by_contra hj
      exact h (if_neg fun hc => hj hc.2.2)
    have : maxfile = ndirect + nindirect := rfl
    omega

/-- Clearing the entry `k` with `writei`. -/
theorem wp_writei_clear (hsb : sb.Wf) (hok : s.Ok sb lost) (hno : s.NoHoles sb) (hc : s.Cached dp)
    (hk : 16 * k + 16 ≤ (s.inode dp).d.size) {Q : ℤ → Fs → Prop}
    (hQ : ∀ t, EntrySet sb lost dp k ⟨0, List.replicate 14 0⟩ s t → Q 16 t) :
    wp (writei sb dp (fun _ => some 0) (16 * k) 16) Q E s := by
  have hl := hok.loaded hc
  have hsize := hok.size_lt hc
  have hbs : bsize = 1024 := rfl
  have hne : s.stores sb ((s.inode dp).inum, slotOf (16 * k / bsize)) ≠ 0 := by
    refine hno.stores_ne hl.inum (hl.copy ▸ hl.type) ?_
    rw [← hl.copy]
    omega
  have hacc : Accepts (s.inode dp).d.size (16 * k) 16 := by
    have := lt_maxfile_of_stores hne
    refine ⟨by omega, ?_⟩
    rw [hbs] at this ⊢
    omega
  have hall : wp (writei sb dp (fun _ => some 0) (16 * k) 16) (fun r _ => r = 16) E s := by
    have hfit : 16 * k % bsize + 16 ≤ bsize := by
      rw [hbs]
      omega
    refine wp_writei_block (by omega) (by decide) hfit (fun _ => rfl) (absurd hacc) fun _ => ?_
    rw [← hok.places hc] at hne
    exact wp_bmap_of_ne hne (if_neg hne)
  have hstored : wp (writei sb dp (fun _ => some 0) (16 * k) 16) (fun r t => ∃ tot : ℕ, r = tot ∧
      Stored sb lost dp (fun _ => some 0) (16 * k) 16 s tot t) E s :=
    wp_writei hsb hok hc (by omega) (by decide) (absurd hacc) fun _ tot t ht => ⟨tot, rfl, ht⟩
  refine (hstored.and hall).mono (fun r t hr => ?_) fun _ _ he => he.1
  obtain ⟨⟨tot, rfl, ht⟩, h16⟩ := hr
  obtain rfl : tot = 16 := by exact_mod_cast h16
  exact hQ t (ht.entrySet hok hno hc (by omega) (by decide))

/-- What clearing the entry with the name does. -/
structure Clears (sb : Superblock) (dp : Fin ninode) (name : List UInt8) (inum : ℕ) (s t : Fs) :
    Prop where
  dir : t.IsDir sb dp ∧ (t.inode dp).inum = (s.inode dp).inum
  removes : t.names sb (s.inode dp).inum =
    s.names sb (s.inode dp).inum \ {(cstr dirsiz name, inum)}

/-- Clearing the entry with the name removes the pair. -/
theorem EntrySet.clears {de : Dirent} (hok : s.Ok sb lost) (hd : s.IsDir sb dp) (hde : de.inum = 0)
    (hk : k < s.slots sb (s.inode dp).inum) (hn : (s.entry sb (s.inode dp).inum k).Names name)
    (he : EntrySet sb lost dp k de s t) :
    Clears sb dp name (s.entry sb (s.inode dp).inum k).inum s t := by
  have hl := hok.loaded hd.cached
  have hself := he.inode.self
  have hinum : (t.inode dp).inum = (s.inode dp).inum := by rw [hself]
  have hdin := he.dinode_eq hok hd.cached
  have hfit := lt_slots_iff.1 hk
  have hslots : t.slots sb (s.inode dp).inum = s.slots sb (s.inode dp).inum := by
    rw [slots, slots, hdin]
    dsimp only
    rw [max_eq_left hfit]
  have hempty : Slots.Emptied (s.slot sb (s.inode dp).inum) (s.slots sb (s.inode dp).inum) k
      (cstr dirsiz name, (s.entry sb (s.inode dp).inum k).inum)
      (t.slot sb (s.inode dp).inum) := by
    refine ⟨hk, pair_eq_some_iff.2 ⟨rfl, hn.1, (namecmp_eq_zero_iff.1 hn.2).symm⟩, ?_,
      fun j hj hjn => ?_⟩
    · rw [slot, he.new]
      exact if_pos hde
    · rw [slot, slot, he.old j hj (hl.copy ▸ lt_slots_iff.1 hjn)]
  refine ⟨⟨⟨?_, ?_, ?_, ?_⟩, hinum⟩, ?_⟩
  · rw [Cached, hself]
    exact hd.cached
  · rw [hself]
    exact hd.type
  · have hwhole := hd.whole
    rw [hself]
    dsimp only
    omega
  · rw [hinum, hslots]
    exact hempty.distinct hd.distinct
  · rw [names, hslots]
    exact hempty.graph_eq hd.distinct

/-- A directory that is still locked, on the same disk. -/
theorem IsDir.of_disk (hok : s.Ok sb lost) (hd : s.IsDir sb dp) (hok' : u.Ok sb lost)
    (hdisk : u.disk = s.disk) (hc : u.Cached dp) (hinum : (u.inode dp).inum = (s.inode dp).inum) :
    u.IsDir sb dp := by
  have hcopy : (u.inode dp).d = (s.inode dp).d := by
    rw [(hok'.loaded hc).copy, (hok.loaded hd.cached).copy, hdisk, hinum]
  have hslot : u.slot sb = s.slot sb := by
    funext i k
    rw [slot, slot, entry_congr hdisk]
  refine ⟨hc, hcopy ▸ hd.type, hcopy ▸ hd.whole, ?_⟩
  rw [hslot, hinum, slots, hdisk]
  exact hd.distinct

/-- Clearing the entry at the offset that `dirlookup` has returned. -/
theorem Finds.clear (hsb : sb.Wf) (hok : s.Ok sb lost) (hno : s.NoHoles sb) (hd : s.IsDir sb dp)
    {off : ℕ} (hf : Finds sb s dp name (some (ip, off)) t) (hok' : u.Ok sb lost)
    (hdisk : u.disk = s.disk) (hc : u.Cached dp) (hinum : (u.inode dp).inum = (s.inode dp).inum) :
    wp (writei sb dp (fun _ => some 0) off 16) (fun r v => r = 16 ∧
      Clears sb dp name (t.inode ip).inum u v) (fun _ _ => False) u := by
  have hd' := hd.of_disk hok hok' hdisk hc hinum
  have hentry : u.entry sb = s.entry sb := entry_congr hdisk
  have hslots : u.slots sb = s.slots sb := by
    funext i
    rw [slots, slots, hdisk]
  obtain ⟨hmem, k, rfl, hk, hkey⟩ := hf.found ip off rfl
  obtain ⟨k', hk', hn, hj⟩ := mem_names_iff.1 hmem
  obtain rfl := (hkey k' hk').1 (pair_fst_eq_iff.2 hn)
  have hku : k' < u.slots sb (u.inode dp).inum := by
    rw [hslots, hinum]
    exact hk
  refine wp_writei_clear hsb hok' (hno.of_disk hdisk) hc ?_ fun v hv => ⟨rfl, ?_⟩
  · rw [(hok'.loaded hc).copy]
    exact lt_slots_iff.1 hku
  · have hnames : (u.entry sb (u.inode dp).inum k').Names name := by rwa [hentry, hinum]
    have hclears := hv.clears hok' hd' rfl hku hnames
    rwa [hentry, hinum, hj] at hclears

end Fs

/-- **A directory is a map.** In a directory of whole entries with distinct names, `dirlookup` finds
    the pair of a name and the place of its only entry; `dirlink` fails and leaves the map if the
    name is there, and otherwise adds the pair in the first empty slot or at the end, or fails and
    leaves the map; and clearing the entry that `dirlookup` has found, while the directory is locked,
    removes the pair. If all entries of the table of inodes are in use, `dirlookup` and `dirlink` of
    a name that is there may end with the panic of `iget` instead. -/
theorem directory_is_map {sb : Superblock} (hsb : sb.Wf) {s : Fs} {lost : Set ℕ}
    (hok : s.Ok sb lost) (hno : s.NoHoles sb) {dp : Fin ninode} (hd : s.IsDir sb dp)
    (name : List UInt8) :
    ((∃ r t, Fs.dirlookup sb dp name s = .ok r t ∧ Fs.Finds sb s dp name r t) ∨
      ∃ e t, Fs.dirlookup sb dp name s = .error e t ∧ e = .igetNoInodes ∧ s.TableFull ∧
        ∃ j, (cstr dirsiz name, j) ∈ s.names sb (s.inode dp).inum) ∧
    (∀ inum, 0 < inum → inum < 2 ^ 16 →
      (∃ r t, Fs.dirlink sb dp name inum s = .ok r t ∧ Fs.Links sb s dp name inum r t) ∨
        ∃ e t, Fs.dirlink sb dp name inum s = .error e t ∧ e = .igetNoInodes ∧ s.TableFull ∧
          ∃ j, (cstr dirsiz name, j) ∈ s.names sb (s.inode dp).inum) ∧
    (∀ ip off t, Fs.dirlookup sb dp name s = .ok (some (ip, off)) t →
      ∀ u : Fs, u.Ok sb lost → u.disk = s.disk → u.Cached dp →
        (u.inode dp).inum = (s.inode dp).inum →
        ∃ r v, Fs.writei sb dp (fun _ => some 0) off 16 u = .ok r v ∧ r = 16 ∧
          Fs.Clears sb dp name (t.inode ip).inum u v) := by
  have hfinds : wp (Fs.dirlookup sb dp name) (Fs.Finds sb s dp name)
      (fun e _ => e = .igetNoInodes ∧ s.TableFull ∧
        ∃ j, (cstr dirsiz name, j) ∈ s.names sb (s.inode dp).inum) s :=
    Fs.wp_dirlookup_finds hok hno hd
  refine ⟨hfinds.ok_or_error, fun inum hi hi' =>
    (Fs.wp_dirlink_links hsb hok hno hd hi hi').ok_or_error, fun ip off t ht u hok' hdisk hc hinum => ?_⟩
  exact ((hfinds.of_ok ht).clear hsb hok hno hd hok' hdisk hc hinum).exists_ok

/-- The root of `tree`, as `ilock` leaves it. -/
theorem isDir_tree {tab : Fin ninode → MemInode} (h : tab 0 = ⟨1, 1, true, treeRoot⟩) :
    (tree tab).IsDir treeSb 0 := by
  have hinode : (tree tab).inode 0 = ⟨1, 1, true, treeRoot⟩ := h
  have hslots : (tree tab).slots treeSb 1 = 3 := by
    rw [Fs.slots, dinode_tree tab (by decide)]
    rfl
  have hkeys : ∀ k < 3, ∀ k' < 3,
      (Fs.Dirent.pair (.ofBytes ((treeEntries.drop (16 * k)).take 16))).map Prod.fst =
        (Fs.Dirent.pair (.ofBytes ((treeEntries.drop (16 * k')).take 16))).map Prod.fst → k = k' := by
    decide
  refine ⟨?_, ?_, ?_, ?_⟩
  · rw [Fs.Cached, hinode]
    exact ⟨Nat.one_pos, rfl⟩
  · rw [hinode]
    rfl
  · rw [hinode]
    decide
  · rw [hinode, hslots]
    intro k hk k' hk' b b' hb hb' hbb
    rw [Fs.slot, entry_tree tab hk] at hb
    rw [Fs.slot, entry_tree tab hk'] at hb'
    exact hkeys k hk k' hk' (by rw [hb, hb', Option.map_some, Option.map_some, hbb])

/-- The root has the name `a`. -/
theorem mem_names_tree (tab : Fin ninode → MemInode) :
    (cstr dirsiz [97], 2) ∈ (tree tab).names treeSb 1 := by
  have hslots : (tree tab).slots treeSb 1 = 3 := by
    rw [Fs.slots, dinode_tree tab (by decide)]
    rfl
  refine Fs.mem_names_iff.2 ⟨2, by rw [hslots]; decide, ?_⟩
  rw [entry_tree tab (by decide)]
  decide

theorem dirlink_tree : wp (Fs.dirlink treeSb 0 [98] 2) (fun r _ => r = 0) (fun _ _ => False)
    (tree rootTab) := by decide +kernel

/-- The name `a` is found in the root, and its entry cleared; and the name `b` is added. -/
theorem directory_is_map_a :
    (∃ ip off t, Fs.dirlookup treeSb 0 [97] (tree rootTab) = .ok (some (ip, off)) t ∧
      Fs.Finds treeSb (tree rootTab) 0 [97] (some (ip, off)) t ∧
      ∃ v, Fs.writei treeSb 0 (fun _ => some 0) off 16 (tree rootTab) = .ok 16 v ∧
        Fs.Clears treeSb 0 [97] (t.inode ip).inum (tree rootTab) v) ∧
    ∃ t, Fs.dirlink treeSb 0 [98] 2 (tree rootTab) = .ok 0 t ∧
      Fs.Links treeSb (tree rootTab) 0 [98] 2 0 t := by
  have hw := wellFormed_rootTab
  have hd : (tree rootTab).IsDir treeSb 0 := isDir_tree rfl
  have hroom : ¬(tree rootTab).TableFull := fun h => absurd (h 1) (by decide)
  obtain ⟨ha, -, hclear⟩ := directory_is_map wf_treeSb hw.ok hw.noHoles hd [97]
  obtain ⟨-, hb, -⟩ := directory_is_map wf_treeSb hw.ok hw.noHoles hd [98]
  constructor
  · obtain ⟨r, t, ht, hr⟩ | ⟨_, _, _, _, hfull, _⟩ := ha
    swap
    · exact absurd hfull hroom
    obtain _ | ⟨ip, off⟩ := r
    · exact absurd (mem_names_tree rootTab) (hr.absent rfl 2)
    · obtain ⟨_, v, hv, rfl, hv'⟩ := hclear ip off t ht (tree rootTab) hw.ok rfl hd.cached rfl
      exact ⟨ip, off, t, ht, hr, v, hv, hv'⟩
  · obtain ⟨r, t, ht, hr⟩ | ⟨_, _, _, _, hfull, _⟩ := hb 2 (by decide) (by decide)
    swap
    · exact absurd hfull hroom
    obtain rfl := dirlink_tree.of_ok ht
    exact ⟨t, ht, hr⟩

/-- A table with all entries in use, one of them for the root but none for its entry `a`. -/
def busyTab (ip : Fin ninode) : MemInode :=
  if ip = 0 then ⟨1, 1, true, treeRoot⟩ else ⟨ip.val + 2, 1, true, emptyDir⟩

theorem wellFormed_busyTab : (tree busyTab).WellFormed treeSb ∅ := by
  have hinum : ∀ ip, (busyTab ip).inum = if ip = 0 then 1 else ip.val + 2 := fun ip => by
    unfold busyTab
    split <;> rfl
  refine wellFormed_tree (fun ip _ => ?_) (fun ip _ _ => ?_) fun ip jp _ _ h => ?_
  · have hlt : ip.val < 50 := ip.isLt
    rw [hinum]
    split
    · decide
    · omega
  · rw [hinum]
    by_cases h0 : ip = 0
    · rw [h0]
      rfl
    · rw [if_neg h0, if_neg (by omega), busyTab, if_neg h0]
  · rw [hinum, hinum] at h
    by_cases hi : ip = 0 <;> by_cases hj : jp = 0
    · rw [hi, hj]
    · rw [if_pos hi, if_neg hj] at h
      omega
    · rw [if_neg hi, if_pos hj] at h
      omega
    · rw [if_neg hi, if_neg hj] at h
      exact Fin.ext (Nat.add_right_cancel h)

/-- If all entries of the table are in use for other inodes, looking up a name that is there ends
    with the panic of `iget`. -/
theorem dirlookup_panics : (tree busyTab).WellFormed treeSb ∅ ∧ (tree busyTab).IsDir treeSb 0 ∧
    (cstr dirsiz [97], 2) ∈ (tree busyTab).names treeSb ((tree busyTab).inode 0).inum ∧
    ∃ t, Fs.dirlookup treeSb 0 [97] (tree busyTab) = .error .igetNoInodes t := by
  have hw := wellFormed_busyTab
  have hd : (tree busyTab).IsDir treeSb 0 := isDir_tree rfl
  have hfull : ∀ ip, 0 < (busyTab ip).ref ∧ (busyTab ip).inum ≠ 2 := by decide
  have hmem := mem_names_tree busyTab
  exact ⟨hw, hd, hmem, hd.dirlookup_full hw.ok hw.noHoles hmem hfull⟩

end Xv6
