import Xv6.Fs.Content
import Xv6.Param

/-!
# How many blocks a write logs

An operation may log `MAXOPBLOCKS` distinct blocks, and `filewrite` cuts what it writes into
chunks for which `writei` stays within this bound: the blocks of the file, a block of the bitmap
for each of them that is allocated, the indirect block and its block of the bitmap, and the block
of the inode.

The bound is met with equality. A chunk that does not start at the beginning of a block touches one
block more than a chunk that does; but this first block then holds a part of the file, and it does
not have to be allocated if there are no holes.
-/

namespace Xv6

namespace Fs

/-- The blocks that were logged from `s` to `t` are in `F`. -/
def Logs (F : Finset ℕ) (s t : Fs) : Prop := ∃ l, t.logged = l ++ s.logged ∧ ∀ b ∈ l, b ∈ F

/-- The number of the indirect block. -/
def ind (s : Fs) (ip : Fin ninode) : ℕ := (s.inode ip).d.addrs (Fin.last ndirect)

/-- The indirect block, if there is one. -/
def inds (s : Fs) (ip : Fin ninode) : Finset ℕ := if s.ind ip = 0 then ∅ else {s.ind ip}

/-- The blocks of `F` were logged from `s` to `t`, and the indirect block; there are `m` blocks in
    `F`, and one more if the indirect block was allocated: its block of the bitmap. -/
structure Spends (ip : Fin ninode) (m : ℕ) (F : Finset ℕ) (s t : Fs) : Prop where
  keep : s.ind ip ≠ 0 → t.ind ip = s.ind ip
  card : F.card ≤ m + if s.ind ip = t.ind ip then 0 else 1
  logs : Logs (t.inds ip ∪ F) s t

variable {sb : Superblock} {s t u : Fs} {ip : Fin ninode} {F G : Finset ℕ} {b c m n off tot : ℕ}
  {k : Fin (ndirect + 1)} {src : ℕ → Option UInt8} {E : FsPanic → Fs → Prop}

theorem Logs.refl (F : Finset ℕ) (s : Fs) : Logs F s s :=
  ⟨[], rfl, fun _ h => absurd h List.not_mem_nil⟩

theorem Logs.of_eq (h : t.logged = s.logged) : Logs F s t :=
  ⟨[], h, fun _ h => absurd h List.not_mem_nil⟩

theorem Logs.mono (h : Logs F s t) (hFG : F ⊆ G) : Logs G s t := by
  obtain ⟨l, hl, hF⟩ := h
  exact ⟨l, hl, fun b hb => hFG (hF b hb)⟩

theorem Logs.trans (h : Logs F s t) (h' : Logs G t u) : Logs (F ∪ G) s u := by
  obtain ⟨l, hl, hF⟩ := h
  obtain ⟨l', hl', hG⟩ := h'
  refine ⟨l' ++ l, by rw [hl', hl, List.append_assoc], fun b hb => ?_⟩
  rcases List.mem_append.1 hb with hb | hb
  · exact Finset.mem_union_right _ (hG b hb)
  · exact Finset.mem_union_left _ (hF b hb)

/-- Nothing was logged but the blocks of `F`, and the indirect block is the same. -/
theorem Spends.of_ind (hind : t.ind ip = s.ind ip) (hcard : F.card ≤ m) (h : Logs F s t) :
    Spends ip m F s t :=
  ⟨fun _ => hind, hcard.trans (Nat.le_add_right ..), h.mono Finset.subset_union_right⟩

theorem Spends.trans (h : Spends ip m F s t) (h' : Spends ip n G t u) :
    Spends ip (m + n) (F ∪ G) s u := by
  have hkeep : s.ind ip ≠ 0 → u.ind ip = s.ind ip := fun hne => by
    rw [h'.keep (by rwa [h.keep hne]), h.keep hne]
  have hcard := h.card
  have hcard' := h'.card
  by_cases htu : t.ind ip = u.ind ip
  · have hinds : t.inds ip = u.inds ip := by rw [inds, inds, htu]
    refine ⟨hkeep, (Finset.card_union_le _ _).trans ?_, (h.logs.trans h'.logs).mono ?_⟩
    · rw [htu] at hcard
      rw [if_pos htu] at hcard'
      omega
    · rw [hinds]
      exact (Finset.union_union_distrib_left _ _ _).superset
  · -- The indirect block was allocated after `t`.
    have ht : t.ind ip = 0 := by
      by_contra hne
      exact htu (h'.keep hne).symm
    have hs : s.ind ip = 0 := by
      by_contra hne
      exact hne (by rw [← h.keep hne, ht])
    have hinds : t.inds ip = ∅ := if_pos ht
    refine ⟨hkeep, (Finset.card_union_le _ _).trans ?_, (h.logs.trans h'.logs).mono ?_⟩
    · rw [hs, ← ht, if_neg htu]
      rw [if_neg htu] at hcard'
      rw [if_pos (hs.trans ht.symm)] at hcard
      omega
    · rw [hinds, Finset.empty_union, Finset.union_left_comm]

theorem Spends.mono {m' : ℕ} (h : Spends ip m F s t) (hm : m ≤ m') : Spends ip m' F s t :=
  ⟨h.keep, h.card.trans (by omega), h.logs⟩

/-! ## Blocks -/

/-- `balloc` logs the block and its block of the bitmap. -/
theorem wp_balloc_logs {Q : ℕ → Fs → Prop}
    (hnone : ∀ t, t.inode = s.inode → Logs ∅ s t → Q 0 t)
    (hsome : ∀ b c t, t.inode = s.inode → Logs {b, c} s t → Q b t) : wp (balloc sb) Q E s := by
  refine wp_balloc_first (fun _ => hnone _ rfl (.of_eq rfl)) fun b _ => ?_
  refine hsome b (sb.bblock b) _ rfl ⟨[b, sb.bblock b], rfl, fun c hc => ?_⟩
  simpa using hc

/-- `bmapAddr` may allocate a block. -/
theorem wp_bmapAddr_logs {Q : ℕ → Fs → Prop}
    (hold : (s.inode ip).d.addrs k ≠ 0 → Q ((s.inode ip).d.addrs k) s)
    (hnone : ∀ b c t, t.inode = s.inode → Logs {b, c} s t → Q 0 t)
    (hsome : ∀ b c t, b ≠ 0 → (s.inode ip).d.addrs k = 0 → Logs {b, c} s t →
      (t.inode ip).d.addrs = Function.update (s.inode ip).d.addrs k b → Q b t) :
    wp (bmapAddr sb ip k) Q E s := by
  simp only [bmapAddr, wp_bind, wp_get]
  split
  next hz =>
    rw [wp_bind]
    refine wp_balloc_logs (fun t ht hl => ?_) fun b c t ht hl => ?_
    · rw [if_pos rfl]
      exact hnone 0 0 t ht (hl.mono (Finset.empty_subset _))
    · split
      next hb => exact hnone b c t ht hl
      next hb =>
        rw [wp_bind]
        refine wp_setDinode fun v _ hlogged _ hself _ => hsome b c v hb hz ?_ ?_
        · obtain ⟨l, hl, hF⟩ := hl
          exact ⟨l, hlogged.trans hl, hF⟩
        · rw [hself, ht]
          rfl
  next hz => exact hold hz

/-- What `bmap` does once there is an indirect block `a`. -/
theorem wp_entry_spends {a j : ℕ} (ha : t.ind ip = a) (hne : a ≠ 0) (hG : Spends ip 0 G s t)
    {Q : ℕ → Fs → Prop} (hnone : ∀ F t, Spends ip 2 F s t → Q 0 t)
    (hsome : ∀ b F t, b ≠ 0 → b ∈ F → Spends ip 2 F s t → Q b t) :
    wp (do
      let s ← get
      if Disk.entry s.disk a j = 0 then do
        let addr ← balloc sb
        if addr = 0 then pure 0
        else do
          let s ← get
          logWrite a ((s.disk a).putLE 4 (4 * j) addr)
          pure addr
      else pure (Disk.entry s.disk a j)) Q E t := by
  simp only [wp_bind, wp_get]
  split
  next =>
    rw [wp_bind]
    refine wp_balloc_logs (fun u hu hl => ?_) fun b c u hu hl => ?_
    · rw [if_pos rfl]
      have hsp : Spends ip 2 ∅ t u := .of_ind (by rw [ind, hu, ind]) (by simp) hl
      exact hnone _ u ((hG.trans hsp).mono (by omega))
    · have hu' : u.ind ip = a := by rw [ind, hu, ← ha, ind]
      have hsp : Spends ip 2 {b, c} t u := .of_ind (hu'.trans ha.symm) Finset.card_le_two hl
      split
      next => exact hnone _ u ((hG.trans hsp).mono (by omega))
      next hb =>
        simp only [wp_bind, wp_get]
        -- The indirect block is logged, too.
        have hw : Spends ip 0 ∅ u { u with
            disk := Function.update u.disk a ((u.disk a).putLE 4 (4 * j) b)
            logged := a :: u.logged } := by
          refine ⟨fun _ => rfl, by simp, ⟨[a], rfl, fun x hx => ?_⟩⟩
          have hinds : u.inds ip = {a} := by rw [inds, hu', if_neg hne]
          have hmem : x ∈ u.inds ip := by rwa [hinds, Finset.mem_singleton, ← List.mem_singleton]
          exact Finset.mem_union_left _ hmem
        have hall := (hG.trans hsp).trans hw
        rw [Finset.union_empty] at hall
        exact hsome b (G ∪ {b, c}) _ hb (by simp) (hall.mono (by omega))
  next hold =>
    refine hsome _ (G ∪ {Disk.entry t.disk a j}) t hold (by simp) ?_
    exact (hG.trans (.of_ind (m := 2) rfl (by simp) (.refl _ _))).mono (by omega)

/-- `bmap` logs two blocks at most, and those that belong to the indirect block. -/
theorem wp_bmap_spends {bn : ℕ} (hbn : bn < maxfile) {Q : ℕ → Fs → Prop}
    (hnone : ∀ F t, Spends ip 2 F s t → Q 0 t)
    (hsome : ∀ b F t, b ≠ 0 → b ∈ F → Spends ip 2 F s t → Q b t) : wp (bmap sb ip bn) Q E s := by
  unfold bmap
  split
  next hd =>
    refine wp_bmapAddr_logs (fun hne => ?_) (fun b c t ht hl => ?_) fun b c t hb hz hl ht => ?_
    · exact hsome _ {(s.inode ip).d.addrs ⟨bn, _⟩} s hne (Finset.mem_singleton_self _)
        (.of_ind rfl (by simp) (.refl _ _))
    · exact hnone _ t (.of_ind (by rw [ind, ht, ind]) Finset.card_le_two hl)
    · refine hsome b {b, c} t hb (Finset.mem_insert_self _ _) (.of_ind ?_ Finset.card_le_two hl)
      rw [ind, ht, Function.update_of_ne, ind]
      exact fun heq => absurd (congrArg Fin.val heq) (by dsimp only [Fin.val_last]; omega)
  next hd =>
    have hj : bn - ndirect < nindirect := by
      have : bn < ndirect + nindirect := hbn
      omega
    rw [if_pos hj, wp_bind]
    refine wp_bmapAddr_logs (fun hne => ?_) (fun b c t ht hl => ?_) fun b c t hb hz hl ht => ?_
    · rw [if_neg hne]
      exact wp_entry_spends (G := ∅) rfl hne (.of_ind rfl (by simp) (.refl _ _)) hnone hsome
    · rw [if_pos rfl]
      exact hnone _ t (.of_ind (by rw [ind, ht, ind]) Finset.card_le_two hl)
    · have hind : t.ind ip = b := by rw [ind, ht, Function.update_self]
      have hs : s.ind ip = 0 := hz
      have hsp : Spends ip 0 {c} s t := by
        refine ⟨fun hne => absurd hs hne, ?_, hl.mono ?_⟩
        · rw [hs, hind, if_neg (Ne.symm hb)]
          simp
        · rw [inds, hind, if_neg hb]
          exact subset_rfl
      rw [if_neg hb]
      exact wp_entry_spends hind hb hsp hnone hsome

/-! ## The write -/

/-- A block of the file is written, or is left half written. -/
theorem Spends.data (h : Spends ip m F s t) (hb : b ∈ F) {blk : Block} :
    Spends ip m F s { t with disk := Function.update t.disk b blk, logged := b :: t.logged } := by
  have hw : Logs {b} t { t with disk := Function.update t.disk b blk, logged := b :: t.logged } :=
    ⟨[b], rfl, fun x hx => by simpa using hx⟩
  refine ⟨h.keep, h.card, (h.logs.trans hw).mono ?_⟩
  exact Finset.union_subset subset_rfl
    (Finset.singleton_subset_iff.2 (Finset.mem_union_right _ hb))

/-- An iteration of the loop of `writei`, once the block is found. -/
theorem wp_writeBlock {fuel : ℕ} (hF : Spends ip m F s t) (hb : b ∈ F)
    (hrest : ∀ u, Spends ip m F s u →
      wp (writeiLoop sb ip src n fuel (tot + min (n - tot) (bsize - off % bsize))
        (off + min (n - tot) (bsize - off % bsize))) (fun _ v => ∃ G, Spends ip c G u v) E u) :
    wp (do
      let s ← get
      let m := min (n - tot) (bsize - off % bsize)
      let data := copyin src tot m
      if data.length < m then do
        setBlock b ((s.disk b).write (off % bsize) data)
        pure (tot, off)
      else do
        logWrite b ((s.disk b).write (off % bsize) data)
        writeiLoop sb ip src n fuel (tot + m) (off + m))
      (fun _ v => ∃ G, Spends ip (m + c) G s v) E t := by
  simp only [wp_bind, wp_get]
  split
  next =>
    have hset : ∀ disk, Spends ip m F s { t with disk := disk } := fun _ =>
      ⟨hF.keep, hF.card, hF.logs⟩
    exact ⟨F, (hset _).mono (Nat.le_add_right ..)⟩
  next =>
    rw [wp_bind]
    refine (hrest _ (hF.data hb)).mono (fun _ v hv => ?_) fun _ _ he => he
    obtain ⟨G, hG⟩ := hv
    exact ⟨F ∪ G, (hF.data hb).trans hG⟩

/-- A write from the beginning of a block on logs two blocks for each block of the file. -/
theorem wp_writeiLoop_spends {fuel : ℕ} (halign : off % bsize = 0 ∨ n ≤ tot) (htot : tot ≤ n)
    (hmax : off + (n - tot) ≤ maxfile * bsize) (hcount : n - tot ≤ c * bsize) :
    wp (writeiLoop sb ip src n fuel tot off) (fun _ t => ∃ F, Spends ip (2 * c) F s t) E s := by
  have hstop : ∃ F, Spends ip (2 * c) F s s := ⟨∅, .of_ind rfl (by simp) (.refl _ _)⟩
  induction fuel generalizing tot off s c with
  | zero => exact hstop
  | succ fuel ih =>
    unfold writeiLoop
    split
    swap
    · exact hstop
    next hlt =>
    have hmod : off % bsize = 0 := halign.resolve_right (Nat.not_le.2 hlt)
    have hbn : off / bsize < maxfile := Nat.div_lt_of_lt_mul (by rw [Nat.mul_comm]; omega)
    obtain ⟨c, rfl⟩ : ∃ c', c = c' + 1 := ⟨c - 1, by rcases c with _ | c <;> omega⟩
    rw [wp_bind]
    refine wp_bmap_spends hbn (fun F t hF => ?_) fun b F t hb hmem hF => ?_
    · rw [if_pos rfl]
      exact ⟨F, hF.mono (by omega)⟩
    · rw [if_neg hb]
      refine (wp_writeBlock (c := 2 * c) hF hmem fun u hu => ?_).mono (fun _ v hv => ?_)
        fun _ _ he => he
      swap
      · obtain ⟨G, hG⟩ := hv
        exact ⟨G, hG.mono (by omega)⟩
      · rw [Nat.add_mul] at hcount
        have hmin : min (n - tot) (bsize - off % bsize) = min (n - tot) bsize := by rw [hmod]; rfl
        rw [hmin]
        refine ih ?_ (by omega) (by omega) (by omega) ⟨∅, .of_ind rfl (by simp) (.refl _ _)⟩
        rcases Nat.lt_or_ge (n - tot) bsize with h | h
        · exact .inr (by omega)
        · rw [min_eq_right h, Nat.add_mod_right]
          exact .inl hmod

/-- A write that starts in the middle of a block finds this block in the file. -/
theorem wp_writeiLoop_unaligned {fuel : ℕ} (hfull : s.Full sb ip) (hoff : off ≤ (s.inode ip).d.size)
    (hmod : off % bsize ≠ 0) (hmax : off + n ≤ maxfile * bsize) (hcount : n ≤ c * bsize) :
    wp (writeiLoop sb ip src n fuel 0 off) (fun _ t => ∃ F, Spends ip (1 + 2 * c) F s t) E s := by
  have hstop : ∃ F, Spends ip (1 + 2 * c) F s s := ⟨∅, .of_ind rfl (by simp) (.refl _ _)⟩
  cases fuel with
  | zero => exact hstop
  | succ fuel =>
    unfold writeiLoop
    split
    swap
    · exact hstop
    next hlt =>
    have hne := hfull (off / bsize) (by
      have := Nat.div_add_mod' off bsize
      omega)
    rw [wp_bind]
    refine wp_bmap_of_ne hne ?_
    rw [if_neg hne]
    refine wp_writeBlock (.of_ind rfl (Finset.card_singleton _).le (.refl _ s))
      (Finset.mem_singleton_self _) fun u hu => ?_
    have hlt' : off % bsize < bsize := Nat.mod_lt _ (by decide)
    refine wp_writeiLoop_spends ?_ (by omega) (by omega) (by omega)
    rcases Nat.lt_or_ge n (bsize - off % bsize) with h | h
    · exact .inr (by omega)
    · refine .inl ?_
      have := Nat.div_add_mod off bsize
      rw [show off + min (n - 0) (bsize - off % bsize) = bsize * (off / bsize) + bsize by omega,
        Nat.add_mod_right, Nat.mul_mod_right]

/-- What `writei` logs. -/
theorem wp_writei_spends (hfull : s.Full sb ip) (hoff : off ≤ (s.inode ip).d.size)
    (hsize : (s.inode ip).d.size < 2 ^ 32) (hcount : n ≤ c * bsize) (hn : n < 2 ^ 32) :
    wp (writei sb ip src off n) (fun _ t => ∃ F, Spends ip (2 + 2 * c) F s t) E s := by
  have hstop : ∃ F, Spends ip (2 + 2 * c) F s s := ⟨∅, .of_ind rfl (by simp) (.refl _ _)⟩
  simp only [writei, wp_bind, wp_get]
  split
  next => exact hstop
  next hok =>
  rw [not_or, add_wraps (by omega) hn, not_le] at hok
  split
  next => exact hstop
  next hmax =>
  rw [Nat.mod_eq_of_lt hok.2, not_lt] at hmax
  have hloop : wp (writeiLoop sb ip src n n 0 off)
      (fun _ t => ∃ F, Spends ip (1 + 2 * c) F s t) E s := by
    by_cases hmod : off % bsize = 0
    · refine (wp_writeiLoop_spends (.inl hmod) (Nat.zero_le _) (by omega) (by omega)).mono
        (fun _ t ht => ?_) fun _ _ he => he
      obtain ⟨F, hF⟩ := ht
      exact ⟨F, hF.mono (Nat.le_add_left ..)⟩
    · exact wp_writeiLoop_unaligned hfull hoff hmod hmax hcount
  rw [wp_bind]
  refine hloop.mono (fun r t ht => ?_) fun _ _ he => he
  obtain ⟨F, hF⟩ := ht
  simp only [wp_bind]
  refine wp_setDinode fun v _ hlogged _ hself _ => ?_
  have hind : v.ind ip = t.ind ip := by rw [ind, hself, ind]
  have hv := hF.trans (Spends.of_ind (m := 0) (F := ∅) hind (by simp) (.of_eq hlogged))
  -- The block of the inode.
  have hw : ∀ blk, Spends ip 1 {sb.iblock (v.inode ip).inum} v { v with
      disk := Function.update v.disk (sb.iblock (v.inode ip).inum) blk
      logged := sb.iblock (v.inode ip).inum :: v.logged } := fun _ =>
    .of_ind rfl (by simp)
      ⟨[sb.iblock (v.inode ip).inum], rfl, fun x hx => by simpa using hx⟩
  exact ⟨_, (hv.trans (hw _)).mono (by omega)⟩

end Fs

/-- **A chunk of a write fits its reservation in the log.** In a file system without holes, writing
    a chunk as long as `filewrite` makes them logs `MAXOPBLOCKS` distinct blocks at most, whatever
    the number of blocks of the bitmap. -/
theorem writei_fits_log {sb : Superblock} {s : Fs} {ip : Fin ninode} {src : ℕ → Option UInt8}
    {off n : ℕ} (hno : s.NoHoles sb) (hl : s.Loaded sb ip) (hoff : off ≤ (s.inode ip).d.size)
    (hn : n ≤ (maxOpBlocks - 1 - 1 - 2) / 2 * bsize) :
    ∃ r t l, Fs.writei sb ip src off n s = .ok r t ∧ t.logged = l ++ s.logged ∧
      l.toFinset.card ≤ maxOpBlocks := by
  have hwp : wp (Fs.writei sb ip src off n) (fun _ t => ∃ F, Fs.Spends ip (2 + 2 * 3) F s t)
      (fun _ _ => False) s :=
    Fs.wp_writei_spends (hno.full_of_loaded hl) hoff (by rw [hl.copy]; exact Fs.size_lt ..) hn
      (hn.trans_lt (by decide))
  obtain ⟨r, t, hr, F, hF⟩ := hwp.exists_ok
  obtain ⟨l, hlog, hmem⟩ := hF.logs
  refine ⟨r, t, l, hr, hlog, ?_⟩
  have hsub : l.toFinset ⊆ t.inds ip ∪ F := fun b hb => hmem b (List.mem_toFinset.1 hb)
  have hinds : (t.inds ip).card ≤ 1 := by
    unfold Fs.inds
    split <;> simp
  have hcard : F.card ≤ 2 + 2 * 3 + 1 := hF.card.trans (by split <;> omega)
  calc l.toFinset.card ≤ (t.inds ip ∪ F).card := Finset.card_le_card hsub
    _ ≤ (t.inds ip).card + F.card := Finset.card_union_le _ _
    _ ≤ maxOpBlocks := by
      change _ ≤ 10
      omega

/-- The empty file of `oneFile`, as `ilock` leaves it. -/
def oneLoaded : Fs :=
  { oneFile with
    inode := fun ip => ⟨1, if ip = 0 then 1 else 0, true, { Dinode.new 2 with nlink := 1 }⟩ }

/-- A chunk of two blocks is written to it. -/
theorem writei_fits_log_two : ∃ r t l,
    Fs.writei smallSb 0 (fun _ => some 65) 0 2048 oneLoaded = .ok r t ∧
      t.logged = l ++ oneLoaded.logged ∧ l.toFinset.card ≤ maxOpBlocks :=
  have hfits : ({ Dinode.new 2 with nlink := 1 } : Dinode).Fits :=
    ⟨(Dinode.fits_new 2).size, (Dinode.fits_new 2).addrs⟩
  writei_fits_log (by decide)
    ⟨by decide, ((Disk.dinode_putDinode hfits).trans (if_pos rfl)).symm, by decide⟩ (Nat.zero_le _)
    (by decide)

end Xv6
