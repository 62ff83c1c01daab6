import Xv6.Fs.Room

/-!
# A write that stops in the middle of a block

`writei` copies from user memory straight into the block in the cache. If a byte of the source
cannot be read, the bytes before it are in the block by then, and the block is neither logged nor
put back: what `writei` reports ends at the beginning of the block, or at the offset at which it
started.

What a later commit writes to the disk are the blocks that were logged, by `writei` or by others,
as they are in the cache. `saved` is the file system in which some set of blocks with those that
`writei` logged has got to the disk; for all the blocks, it is what the cache shows.
-/

namespace Xv6

theorem Bytes.write_nil {n : ℕ} (b : Bytes n) (off : ℕ) : b.write off [] = b := by
  funext k
  exact if_neg fun h => absurd h.1 (Nat.not_le.2 h.2)

namespace Fs

variable {sb : Superblock} {s t u : Fs} {ip : Fin ninode} {i j o m n off tot p : ℕ}
  {lost W X Y : Set ℕ} {src : ℕ → Option UInt8} {E : FsPanic → Fs → Prop}

/-- The blocks that have changed from `s` to `t` were logged, apart from those of `X`. -/
def LogsChanges (X : Set ℕ) (s t : Fs) : Prop :=
  ∃ l, t.logged = l ++ s.logged ∧ ∀ b, b ∉ l → b ∉ X → t.disk b = s.disk b

theorem LogsChanges.of_eq (hl : t.logged = s.logged) (hd : t.disk = s.disk) : LogsChanges X s t :=
  ⟨[], hl, fun _ _ _ => by rw [hd]⟩

theorem LogsChanges.trans (h : LogsChanges X s t) (h' : LogsChanges Y t u) :
    LogsChanges (X ∪ Y) s u := by
  obtain ⟨l, hl, hX⟩ := h
  obtain ⟨l', hl', hY⟩ := h'
  refine ⟨l' ++ l, by rw [hl', hl, List.append_assoc], fun b hb hXY => ?_⟩
  rw [List.mem_append, not_or] at hb
  rw [Set.mem_union, not_or] at hXY
  rw [hY b hb.1 hXY.2, hX b hb.2 hXY.1]

theorem LogsChanges.mono (h : LogsChanges X s t) (hXY : X ⊆ Y) : LogsChanges Y s t := by
  obtain ⟨l, hl, hX⟩ := h
  exact ⟨l, hl, fun b hb hY => hX b hb fun hm => hY (hXY hm)⟩

/-- A block is changed and logged. -/
theorem LogsChanges.log {b : ℕ} {blk : Block} (h : LogsChanges X s t) :
    LogsChanges X s { t with disk := Function.update t.disk b blk, logged := b :: t.logged } := by
  obtain ⟨l, hl, hX⟩ := h
  refine ⟨b :: l, by rw [hl, List.cons_append], fun c hc hcX => ?_⟩
  rw [List.mem_cons, not_or] at hc
  rw [← hX c hc.2 hcX]
  exact Function.update_of_ne hc.1 _ _

/-- A block is changed without being logged. -/
theorem LogsChanges.set {b : ℕ} {blk : Block} (h : LogsChanges X s t) :
    LogsChanges (insert b X) s { t with disk := Function.update t.disk b blk } := by
  obtain ⟨l, hl, hX⟩ := h
  refine ⟨l, hl, fun c hc hcX => ?_⟩
  rw [Set.mem_insert_iff, not_or] at hcX
  rw [← hX c hc hcX.2]
  exact Function.update_of_ne hcX.1 _ _

theorem LogsChanges.setInode {f : MemInode → MemInode} (h : LogsChanges X s t) :
    wp (Fs.setInode ip f) (fun _ => LogsChanges X s) E t := by
  obtain ⟨l, hl, hX⟩ := h
  exact ⟨l, hl, hX⟩

theorem LogsChanges.balloc (h : LogsChanges X s t) :
    wp (Fs.balloc sb) (fun _ => LogsChanges X s) E t := by
  refine wp_balloc_first (fun _ => ?_) fun _ _ => h.log.log
  obtain ⟨l, hl, hX⟩ := h
  exact ⟨l, hl, hX⟩

theorem LogsChanges.bmapAddr {k : Fin (ndirect + 1)} (h : LogsChanges X s t) :
    wp (Fs.bmapAddr sb ip k) (fun _ => LogsChanges X s) E t := by
  simp only [Fs.bmapAddr, wp_bind, wp_get]
  split
  next =>
    rw [wp_bind]
    refine h.balloc.mono (fun addr u hu => ?_) fun _ _ he => he
    split
    next => exact hu
    next =>
      rw [wp_bind]
      exact hu.setInode.mono (fun _ _ hv => hv) fun _ _ he => he
  next => exact h

/-- `bmap` logs what it changes. -/
theorem LogsChanges.bmap {bn : ℕ} (h : LogsChanges X s t) :
    wp (Fs.bmap sb ip bn) (fun _ => LogsChanges X s) (fun _ _ => True) t := by
  unfold Fs.bmap
  split
  next => exact h.bmapAddr
  next =>
  split
  swap
  next => trivial
  next =>
    rw [wp_bind]
    refine h.bmapAddr.mono (fun a u hu => ?_) fun _ _ he => he
    split
    next => exact hu
    next =>
      simp only [wp_bind, wp_get]
      split
      next =>
        rw [wp_bind]
        refine hu.balloc.mono (fun b v hv => ?_) fun _ _ he => he
        split
        next => exact hv
        next =>
          simp only [wp_bind, wp_get]
          exact hv.log
      next => exact hu

theorem LogsChanges.iupdate (h : LogsChanges X s t) :
    wp (Fs.iupdate sb ip) (fun _ => LogsChanges X s) E t := by
  simp only [Fs.iupdate, writeDinode, wp_bind, wp_get]
  exact h.log

/-! ## Where the loop stops -/

/-- The block of the inode to which the last `p` bytes were copied. -/
def halfWritten (sb : Superblock) (t : Fs) (ip : Fin ninode) (off p : ℕ) : Set ℕ :=
  {b | b ≠ 0 ∧ b = t.places sb ip ((t.inode ip).inum, slotOf (off / bsize)) ∧ 0 < p}

/-- What the loop of `writei` has done, from `tot` and `off` to the numbers `r`, where `p` bytes more
    were copied. -/
structure Halted (sb : Superblock) (lost : Set ℕ) (ip : Fin ninode) (src : ℕ → Option UInt8)
    (n tot off : ℕ) (s : Fs) (r : ℕ × ℕ) (p : ℕ) (t : Fs) : Prop where
  le : tot ≤ r.1
  le_n : r.1 + p ≤ n
  off_eq : r.2 + tot = off + r.1
  grows : Grows sb lost ip (Set.Ico off (r.2 + p)) s t
  filled : ∀ o, off ≤ o → o < r.2 + p →
    t.places sb ip ((s.inode ip).inum, slotOf (o / bsize)) ≠ 0
  bytes : ∀ o, off ≤ o → o < r.2 + p →
    some (t.byte sb ip (s.inode ip).inum o) = src (tot + (o - off))
  stop : r.1 = n ∨ src (r.1 + p) = none ∧ r.1 + p < n ∧ r.2 % bsize + p < bsize ∨
    p = 0 ∧ s.places sb ip ((s.inode ip).inum, slotOf (r.2 / bsize)) = 0
  aligned : r.1 = tot ∨ r.1 = n ∨ r.2 % bsize = 0
  changes : LogsChanges (halfWritten sb t ip r.2 p) s t

/-- The loop stops, after `bmap` at most. -/
theorem Halted.halt (h : Grows sb lost ip ∅ s t) (htot : tot ≤ n) (hch : LogsChanges ∅ s t)
    (hstop : tot = n ∨ s.places sb ip ((s.inode ip).inum, slotOf (off / bsize)) = 0) :
    Halted sb lost ip src n tot off s (tot, off) 0 t where
  le := le_rfl
  le_n := htot
  off_eq := rfl
  grows := h.mono (Set.empty_subset _)
  filled _ h₁ h₂ := absurd h₁ (Nat.not_le.2 h₂)
  bytes _ h₁ h₂ := absurd h₁ (Nat.not_le.2 h₂)
  stop := hstop.imp_right fun hz => .inr ⟨rfl, hz⟩
  aligned := .inl rfl
  changes := hch.mono (Set.empty_subset _)

/-- One more block is written. -/
theorem Halted.cons {r : ℕ × ℕ} (hend : tot + m = n ∨ (off + m) % bsize = 0)
    (hg : Grows sb lost ip (Set.Ico off (off + m)) s u) (hch : LogsChanges ∅ s u)
    (hfill : ∀ o, off ≤ o → o < off + m → u.places sb ip ((s.inode ip).inum, slotOf (o / bsize)) ≠ 0)
    (hbytes : ∀ k < m, some (u.byte sb ip (s.inode ip).inum (off + k)) = src (tot + k))
    (h : Halted sb lost ip src n (tot + m) (off + m) u r p t) :
    Halted sb lost ip src n tot off s r p t := by
  have hoff := h.off_eq
  have hle := h.le
  refine ⟨by omega, h.le_n, by omega, (hg.trans h.grows).mono ?_, fun o h₁ h₂ => ?_,
    fun o h₁ h₂ => ?_, ?_, ?_, (hch.trans h.changes).mono (Set.empty_union _).subset⟩
  · rw [Set.Ico_union_Ico_eq_Ico (by omega) (by omega)]
  · by_cases ho : o < off + m
    · rw [h.grows.keep _ (hfill o h₁ ho)]
      exact hfill o h₁ ho
    · rw [← hg.inum]
      exact h.filled o (by omega) h₂
  · by_cases ho : o < off + m
    · have hb := hbytes (o - off) (by omega)
      rw [show off + (o - off) = o by omega] at hb
      rw [h.grows.data _ _ (hfill o h₁ ho), hb]
      intro _ hmem
      exact absurd hmem.1 (by omega)
    · rw [← hg.inum, h.bytes o (by omega) h₂]
      congr 1
      omega
  · rcases h.stop with hstop | hstop | ⟨hp, hz⟩
    · exact .inl hstop
    · exact .inr (.inl hstop)
    · refine .inr (.inr ⟨hp, ?_⟩)
      by_contra hne
      rw [hg.inum, hg.keep _ hne] at hz
      exact hne hz
  · rcases h.aligned with hal | hal
    · rcases hend with hend | hend
      · exact .inr (.inl (by omega))
      · refine .inr (.inr ?_)
        rw [show r.2 = off + m by omega]
        exact hend
    · exact .inr hal

theorem reach_succ (ok : ℕ → Bool) (tot m : ℕ) :
    reach ok tot (m + 1) = if ok tot then reach ok (tot + 1) m + 1 else 0 := by
  rw [reach, List.range'_succ, List.takeWhile_cons, reach]
  split <;> rfl

/-- What stops the copy cannot be accessed. -/
theorem not_ok_reach {ok : ℕ → Bool} (h : reach ok tot m < m) : ok (tot + reach ok tot m) = false := by
  induction m generalizing tot with
  | zero => exact absurd h (Nat.not_lt_zero _)
  | succ m ih =>
    rw [reach_succ] at h ⊢
    split at h
    next hok =>
      rw [if_pos hok, Nat.add_comm _ 1, ← Nat.add_assoc]
      exact ih (Nat.lt_of_succ_lt_succ h)
    next hok =>
      rw [if_neg hok]
      simpa using hok

theorem src_length_copyin (h : (copyin src tot m).length < m) :
    src (tot + (copyin src tot m).length) = none := by
  have hlen : (copyin src tot m).length = reach (fun k => (src k).isSome) tot m := by
    rw [copyin, List.length_map, List.length_range']
  rw [hlen] at h ⊢
  exact Option.isNone_iff_eq_none.1 (by simpa using not_ok_reach h)

/-- The block at the offset is there, or it may be allocated. -/
theorem wp_bmap_changes (hsb : sb.Wf) (h : s.Held sb lost ip) {bn : ℕ} (hbn : bn < maxfile)
    {Q : ℕ → Fs → Prop}
    (hnone : s.places sb ip ((s.inode ip).inum, slotOf bn) = 0 →
      ∀ t, Grows sb lost ip ∅ s t → LogsChanges ∅ s t → Q 0 t)
    (hsome : ∀ t, Grows sb lost ip ∅ s t → LogsChanges ∅ s t →
      t.places sb ip ((s.inode ip).inum, slotOf bn) ≠ 0 →
      Q (t.places sb ip ((s.inode ip).inum, slotOf bn)) t) : wp (bmap sb ip bn) Q E s := by
  have hch : LogsChanges ∅ s s := .of_eq rfl rfl
  by_cases hne : s.places sb ip ((s.inode ip).inum, slotOf bn) = 0
  · have hgrows : wp (bmap sb ip bn) (fun a t => Grows sb lost ip ∅ s t ∧
        (a = 0 ∨ a ≠ 0 ∧ a = t.places sb ip ((s.inode ip).inum, slotOf bn))) E s :=
      wp_bmap hsb h hbn (fun t ht _ => ⟨ht, .inl rfl⟩) fun t ht ha => ⟨ht, .inr ⟨ha, rfl⟩⟩
    refine (hgrows.and hch.bmap).mono (fun a t ht => ?_) fun _ _ he => he.1
    obtain ⟨⟨hg, ha⟩, hl⟩ := ht
    rcases ha with rfl | ⟨ha, rfl⟩
    · exact hnone hne t hg hl
    · exact hsome t hg hl ha
  · exact wp_bmap_of_ne hne (hsome s (.refl h) hch hne)

theorem wp_writeiLoop_halted (hsb : sb.Wf) {fuel : ℕ} (h : s.Held sb lost ip)
    (hfuel : n - tot ≤ fuel) (htot : tot ≤ n) (hmax : off + (n - tot) ≤ maxfile * bsize) :
    wp (writeiLoop sb ip src n fuel tot off)
      (fun r t => ∃ p, Halted sb lost ip src n tot off s r p t) E s := by
  have hhere : tot = n → ∃ p, Halted sb lost ip src n tot off s (tot, off) p s := fun heq =>
    ⟨0, .halt (.refl h) htot (.of_eq rfl rfl) (.inl heq)⟩
  induction fuel generalizing tot off s with
  | zero => exact hhere (by omega)
  | succ fuel ih =>
    unfold writeiLoop
    split
    swap
    next hlt => exact hhere (by omega)
    next hlt =>
    have hbn : off / bsize < maxfile := Nat.div_lt_of_lt_mul (by rw [Nat.mul_comm]; omega)
    rw [wp_bind]
    refine wp_bmap_changes hsb h hbn (fun hz t hg hl => ?_) fun t hg hl hne => ?_
    · rw [if_pos rfl]
      exact ⟨0, .halt hg htot hl (.inr hz)⟩
    rw [if_neg hne, wp_bind, wp_get]
    have hmod : off % bsize < bsize := Nat.mod_lt _ (by decide)
    have hinum := hg.inum
    rw [← hinum] at hne ⊢
    have hle := length_copyin_le src tot (min (n - tot) (bsize - off % bsize))
    have hlen : off % bsize +
        (copyin src tot (min (n - tot) (bsize - off % bsize))).length ≤ bsize := by omega
    have hsame : ∀ k < bsize - off % bsize, (off + k) / bsize = off / bsize := by
      intro k hk
      rw [Nat.add_div_eq_of_add_mod_lt, Nat.div_eq_of_lt (a := k) (by omega), Nat.add_zero]
      rw [Nat.mod_eq_of_lt (a := k) (by omega)]
      omega
    dsimp only
    generalize hdata : copyin src tot (min (n - tot) (bsize - off % bsize)) = data at hle hlen ⊢
    have hget : ∀ k < data.length, some (data.getD k 0) = src (tot + k) := by
      subst hdata
      exact fun _ => copyin_getD
    split
    next hshort =>
      -- The copy stops in the middle of the block.
      obtain ⟨hw, hpl, hbytes⟩ := hg.held.write
        (t := ⟨Function.update t.disk _ _, t.logged, t.printed, t.inode⟩) hsb hne hlen rfl rfl
      rw [wp_bind]
      refine ⟨data.length, le_rfl, by dsimp only; omega, rfl, (hg.trans hw).mono ?_,
        fun o h₁ h₂ => ?_, fun o h₁ h₂ => ?_, .inr (.inl ⟨?_, by dsimp only; omega,
          by dsimp only; omega⟩), .inl rfl, ?_⟩
      · rw [Set.empty_union]
      · dsimp only at h₁ h₂
        rw [hpl, ← hinum, show o = off + (o - off) by omega, hsame _ (by omega)]
        exact hne
      · dsimp only at h₁ h₂
        have hb := hbytes (o - off) (by omega)
        rw [show off + (o - off) = o by omega] at hb
        rw [← hinum, hb, hget _ (by omega)]
      · subst hdata
        exact src_length_copyin hshort
      · rcases Nat.eq_zero_or_pos data.length with hnil | hpos
        · rw [List.eq_nil_of_length_eq_zero hnil, Bytes.write_nil]
          obtain ⟨l, hl, hX⟩ := hl
          refine ⟨l, hl, fun b hb _ => ?_⟩
          rw [← hX b hb (Set.notMem_empty b)]
          exact congrFun (Function.update_eq_self _ _) b
        · refine hl.set.mono fun b hb => ?_
          rw [Set.mem_insert_iff] at hb
          rcases hb with rfl | hb
          · exact ⟨hne, by rw [hpl], hpos⟩
          · cases hb
    next hfull =>
      have hm : data.length = min (n - tot) (bsize - off % bsize) :=
        le_antisymm hle (Nat.not_lt.1 hfull)
      obtain ⟨hw, hpl, hbytes⟩ := hg.held.write
        (t := ⟨Function.update t.disk _ _, _ :: t.logged, t.printed, t.inode⟩) hsb hne hlen rfl rfl
      rw [hm] at hw hbytes hget
      rw [wp_bind]
      have hstep := (hg.trans hw).mono (Set.empty_union _).subset
      refine (ih hstep.held (by omega) (by omega) (by omega) fun heq => ?_).mono (fun r v hv => ?_)
        fun _ _ he => he
      · exact ⟨0, .halt (.refl hstep.held) heq.le (.of_eq rfl rfl) (.inl heq)⟩
      obtain ⟨p, hp⟩ := hv
      refine ⟨p, hp.cons ?_ hstep hl.log (fun o h₁ h₂ => ?_) fun k hk => ?_⟩
      · rcases Nat.lt_or_ge (n - tot) (bsize - off % bsize) with hlast | hlast
        · exact .inl (by omega)
        · refine .inr ?_
          have := Nat.div_add_mod off bsize
          rw [show off + min (n - tot) (bsize - off % bsize) = bsize * (off / bsize) + bsize by omega,
            Nat.add_mod_right, Nat.mul_mod_right]
      · rw [hpl, ← hinum, show o = off + (o - off) by omega, hsame _ (by omega)]
        exact hne
      · rw [← hinum, hbytes k hk, hget k hk]

/-! ## What `writei` reports -/

/-- What `writei` has done when it returns `tot`, where `p` bytes more were copied. -/
structure Reported (sb : Superblock) (lost : Set ℕ) (ip : Fin ninode) (src : ℕ → Option UInt8)
    (off n : ℕ) (s : Fs) (tot p : ℕ) (t : Fs) : Prop where
  written : Written sb lost ip (Set.Ico off (off + tot + p)) (max (s.inode ip).d.size (off + tot)) s t
  bytes : ∀ o, off ≤ o → o < off + tot + p →
    some (t.byteAt sb (s.inode ip).inum o) = src (o - off)
  stop : tot = n ∧ p = 0 ∨ src (tot + p) = none ∧ tot + p < n ∧ (off + tot) % bsize + p < bsize ∨
    p = 0 ∧ s.stores sb ((s.inode ip).inum, slotOf ((off + tot) / bsize)) = 0
  aligned : tot = 0 ∨ tot = n ∨ (off + tot) % bsize = 0
  changes : LogsChanges
    {b | b ≠ 0 ∧ b = t.stores sb ((s.inode ip).inum, slotOf ((off + tot) / bsize)) ∧ 0 < p} s t

theorem wp_writei_reported (hsb : sb.Wf) (h : s.Ok sb lost) (hc : s.Cached ip) (hoff : off < 2 ^ 32)
    (hn : n < 2 ^ 32) {Q : ℤ → Fs → Prop}
    (hrej : ¬Accepts (s.inode ip).d.size off n → Q (-1) s)
    (hacc : Accepts (s.inode ip).d.size off n → ∀ (tot p : ℕ) (t : Fs),
      Reported sb lost ip src off n s tot p t → Q tot t) :
    wp (writei sb ip src off n) Q E s := by
  have hwrap := add_wraps hoff hn
  have hmax : maxfile * bsize < 2 ^ 32 := by decide
  simp only [writei, wp_bind, wp_get]
  -- `writei` checks the offset, the sum of 32 bits and the size of the largest file.
  split
  next hbad =>
    refine hrej fun ha => ?_
    have := ha.1
    have := ha.2
    rw [hwrap] at hbad
    omega
  next hok =>
  rw [hwrap, not_or, not_lt, not_le] at hok
  rw [Nat.mod_eq_of_lt hok.2]
  split
  next hbig => exact hrej fun ha => absurd ha.2 (Nat.not_le.2 hbig)
  next hfit =>
  have ha : Accepts (s.inode ip).d.size off n := ⟨hok.1, Nat.not_lt.1 hfit⟩
  rw [wp_bind]
  refine (wp_writeiLoop_halted hsb (h.held hc) (by omega) (Nat.zero_le n) (by simpa using ha.2)).mono
    (fun r u hu => ?_) fun _ _ he => he
  obtain ⟨p, hu⟩ := hu
  have hr : r.2 = off + r.1 := hu.off_eq
  have hle := hu.le_n
  have hsize : (if r.2 > (s.inode ip).d.size then r.2 else (s.inode ip).d.size) =
      max (s.inode ip).d.size (off + r.1) := by
    rw [hr]
    split <;> omega
  have hlt := h.size_lt hc
  have hsync := hu.grows.written (E := E) hsb h hc
    (f := fun z => if r.2 > z then r.2 else z) (by split <;> omega)
  -- The size and the inode are written also if the loop has stopped early.
  have hlogs : wp (do setDinode ip fun d => { d with size := if r.2 > d.size then r.2 else d.size }
                      iupdate sb ip) (fun _ => LogsChanges (halfWritten sb u ip r.2 p) s) E u := by
    rw [wp_bind]
    exact hu.changes.setInode.mono (fun _ _ hv => hv.iupdate) fun _ _ he => he
  have hboth := hsync.and hlogs
  rw [wp_bind] at hboth
  rw [wp_bind]
  refine hboth.mono (fun _ v hv => ?_) fun _ _ he => he.1
  rw [wp_bind]
  refine hv.mono (fun _ t ht => ?_) fun _ _ he => he.1
  obtain ⟨⟨hwr, hst, -, hby⟩, hch⟩ := ht
  rw [hsize] at hwr
  have hgrows : Grows sb lost ip (Set.Ico off (off + r.1 + p)) s u := hr ▸ hu.grows
  refine hacc ha r.1 p t ⟨hwr _ hgrows, fun o h₁ h₂ => ?_, ?_, ?_, ?_⟩
  · rw [hby o (hu.filled o h₁ (by omega)), hu.bytes o h₁ (by omega), Nat.zero_add]
  · have hstop := hu.stop
    rw [h.places hc, hr] at hstop
    rcases hstop with hstop | hstop
    · exact .inl (by omega)
    · exact .inr hstop
  · have hal := hu.aligned
    rwa [hr] at hal
  · refine hch.mono fun b hb => ⟨hb.1, ?_, hb.2.2⟩
    rw [hst, ← hr, hb.2.1, hu.grows.inum]

/-- The blocks `L` of `t` are on the disk, and the others as they were in `s`. -/
def saved (L : ℕ → Bool) (s t : Fs) : Fs :=
  { t with disk := fun b => if L b then t.disk b else s.disk b }

/-- `writei`, which has logged the blocks `l` and returned `tot`, has written these bytes of the
    source to the file and has changed no other byte that could be read, in the cache and on the
    disk. -/
structure OnlyReported (sb : Superblock) (ip : Fin ninode) (src : ℕ → Option UInt8) (off tot : ℕ)
    (l : List ℕ) (s t : Fs) : Prop where
  bytes : ∀ L : ℕ → Bool, (∀ b ∈ l, L b = true) → ∀ o, off ≤ o → o < off + tot →
    some ((saved L s t).byteAt sb (s.inode ip).inum o) = src (o - off)
  rest : ∀ L : ℕ → Bool, (∀ b ∈ l, L b = true) →
    ∀ j < sb.ninodes, (Disk.dinode sb s.disk j).type ≠ 0 → ∀ o < (Disk.dinode sb s.disk j).size,
    (j = (s.inode ip).inum → ¬(off ≤ o ∧ o < off + tot)) →
    (saved L s t).byteAt sb j o = s.byteAt sb j o

/-- If a byte of the source cannot be read, the bytes before it that belong to the same block are
    those that are in the file, as far as they can be read. -/
def Harmless (sb : Superblock) (s : Fs) (ip : Fin ninode) (src : ℕ → Option UInt8) (off n : ℕ) :
    Prop :=
  ∀ f < n, src f = none → (∀ k < f, src k ≠ none) →
    ∀ o, max off ((off + f) / bsize * bsize) ≤ o → o < off + f → o < (s.inode ip).d.size →
      src (o - off) = some (s.byteAt sb (s.inode ip).inum o)

theorem byteAt_congr_disk (hd : t.disk = s.disk) : t.byteAt sb = s.byteAt sb := by
  funext j o
  rw [byteAt, stores_congr hd, hd, byteAt]

/-- The blocks that are on the disk are all those of `t`, except for one to which bytes were copied
    without its being logged. -/
theorem Reported.saved_cases (h : Reported sb lost ip src off n s tot p t) {l : List ℕ}
    (hl : t.logged = l ++ s.logged) {L : ℕ → Bool} (hL : ∀ b ∈ l, L b = true) :
    (saved L s t).disk = t.disk ∨ ∃ b, b ≠ 0 ∧ 0 < p ∧
      b = t.stores sb ((s.inode ip).inum, slotOf ((off + tot) / bsize)) ∧
      (saved L s t).disk = Function.update t.disk b (s.disk b) := by
  obtain ⟨l', hl', hX⟩ := h.changes
  obtain rfl : l' = l := List.append_cancel_right (hl'.symm.trans hl)
  by_cases hall : ∀ b, L b = false → t.disk b = s.disk b
  · refine .inl (funext fun b => ?_)
    cases hb : L b with
    | true => exact if_pos hb
    | false => rw [hall b hb]; simp [saved, hb]
  · push Not at hall
    obtain ⟨b, hb, hne⟩ := hall
    have hX' : ∀ c, L c = false → t.disk c ≠ s.disk c → c ≠ 0 ∧
        c = t.stores sb ((s.inode ip).inum, slotOf ((off + tot) / bsize)) ∧ 0 < p := by
      intro c hc hcne
      by_contra hnot
      exact hcne (hX c (fun hmem => by rw [hL c hmem] at hc; cases hc) hnot)
    obtain ⟨hb0, hbst, hp⟩ := hX' b hb hne
    refine .inr ⟨b, hb0, hp, hbst, funext fun c => ?_⟩
    by_cases hcb : c = b
    · subst hcb
      rw [Function.update_self]
      simp [saved, hb]
    · rw [Function.update_of_ne hcb]
      cases hc : L c with
      | true => simp [saved, hc]
      | false =>
        by_contra hcne
        refine hcb ((hX' c hc fun heq => hcne ?_).2.1.trans hbst.symm)
        simp [saved, hc, heq]

/-- The bytes of the files, when one of their blocks is replaced. -/
theorem Ok.byteAt_update (hsb : sb.Wf) (h : t.Ok sb lost) {x : ℕ × FileSlot} {bn : ℕ}
    (hx : x = (i, slotOf bn)) (hne : t.stores sb x ≠ 0) {blk : Block}
    (hd : u.disk = Function.update t.disk (t.stores sb x) blk) (j o : ℕ) :
    u.byteAt sb j o = if t.stores sb (j, slotOf (o / bsize)) = t.stores sb x then
      blk.get (o % bsize) else t.byteAt sb j o := by
  have hlo : sb.nmeta ≤ t.stores sb x := (h.owned.range hne).1
  have hdinode : ∀ i < sb.ninodes, Disk.dinode sb u.disk i = Disk.dinode sb t.disk i := by
    intro i hi
    rw [hd, Disk.dinode_update_data hsb hi hlo]
  -- A block of a file is not an indirect block.
  have hstores : u.stores sb = t.stores sb := by
    refine stored_congr hdinode fun k hk hkne => ?_
    rw [hd, Function.update_of_ne]
    intro heq
    have hst : t.stores sb (k, .addr (Fin.last ndirect)) =
        (Disk.dinode sb t.disk k).addrs (Fin.last ndirect) := stored_addr hk
    have hinj := Owned.inj h.owned (k, .addr (Fin.last ndirect)) x
      (by change t.stores sb _ ≠ 0; rw [hst]; exact hkne) (hst.trans heq)
    rw [hx] at hinj
    exact slotOf_ne_last bn (Prod.mk.inj hinj).2.symm
  rw [Fs.byteAt, hstores, hd]
  split
  next heq => rw [heq, Function.update_self]
  next hne' => rw [Function.update_of_ne hne', Fs.byteAt]

/-- Where the copy stops in the middle of a block, the bytes beyond those reported are harmless. -/
theorem Reported.harmless (h : Reported sb lost ip src off n s tot p t)
    (hh : s.Harmless sb ip src off n) (h₁ : off + tot ≤ o) (h₂ : o < off + tot + p)
    (hsize : o < (s.inode ip).d.size) :
    t.byteAt sb (s.inode ip).inum o = s.byteAt sb (s.inode ip).inum o := by
  obtain ⟨hnone, hlt, hin⟩ : src (tot + p) = none ∧ tot + p < n ∧ (off + tot) % bsize + p < bsize := by
    rcases h.stop with hstop | hstop | hstop
    · omega
    · exact hstop
    · omega
  have hbefore : ∀ k < tot + p, src k ≠ none := by
    intro k hk
    have hb := h.bytes (off + k) (by omega) (by omega)
    rw [Nat.add_sub_cancel_left] at hb
    rw [← hb]
    exact Option.some_ne_none _
  have hdiv : (off + (tot + p)) / bsize = (off + tot) / bsize := by
    rw [← Nat.add_assoc, Nat.add_div_eq_of_add_mod_lt, Nat.div_eq_of_lt (a := p) (by omega), Nat.add_zero]
    rw [Nat.mod_eq_of_lt (a := p) (by omega)]
    exact hin
  have hstart : max off ((off + (tot + p)) / bsize * bsize) ≤ o := by
    rw [hdiv]
    have := Nat.div_mul_le_self (off + tot) bsize
    omega
  have hsrc := hh (tot + p) hlt hnone hbefore o hstart (by omega) hsize
  exact Option.some.inj ((h.bytes o (by omega) h₂).trans hsrc)

/-- If the condition holds, `writei` changes only what it reports. -/
theorem Reported.onlyReported (hsb : sb.Wf) (hok : s.Ok sb lost) (hno : s.NoHoles sb)
    (hc : s.Cached ip) (h : Reported sb lost ip src off n s tot p t)
    (hh : s.Harmless sb ip src off n) {l : List ℕ} (hl : t.logged = l ++ s.logged) :
    OnlyReported sb ip src off tot l s t := by
  have hw := h.written
  -- A block that was there is the same.
  have hkeep : ∀ j < sb.ninodes, (Disk.dinode sb s.disk j).type ≠ 0 →
      ∀ o < (Disk.dinode sb s.disk j).size, s.stores sb (j, slotOf (o / bsize)) ≠ 0 ∧
        t.stores sb (j, slotOf (o / bsize)) = s.stores sb (j, slotOf (o / bsize)) := by
    intro j hj htype o ho
    have hne := hno j hj htype (o / bsize) (lt_ceil_iff.2 ((Nat.div_mul_le_self o bsize).trans_lt ho))
    exact ⟨hne, hw.keep _ hne⟩
  have hcopy : (Disk.dinode sb s.disk (s.inode ip).inum).size = (s.inode ip).d.size := by
    rw [hok.table.copy ip hc.1 hc.2]
  -- The bytes as the cache shows them.
  have hcache : ∀ j < sb.ninodes, (Disk.dinode sb s.disk j).type ≠ 0 →
      ∀ o < (Disk.dinode sb s.disk j).size,
      (j = (s.inode ip).inum → ¬(off ≤ o ∧ o < off + tot)) → t.byteAt sb j o = s.byteAt sb j o := by
    intro j hj htype o ho hout
    have hne := (hkeep j hj htype o ho).1
    by_cases hji : j = (s.inode ip).inum
    · subst hji
      by_cases hpart : off + tot ≤ o ∧ o < off + tot + p
      · exact h.harmless hh hpart.1 hpart.2 (by rwa [← hcopy])
      · refine hw.data o hne fun hmem => ?_
        have := hout rfl
        rw [Set.mem_Ico] at hmem
        omega
    · exact hw.others.data j o hji hne
  refine ⟨fun L hL o h₁ h₂ => ?_, fun L hL j hj htype o ho hout => ?_⟩
  · rcases h.saved_cases hl hL with hd | ⟨b, hb, hp, hst, hd⟩
    · rw [byteAt_congr_disk hd, h.bytes o h₁ (by omega)]
    · subst hst
      rw [hw.ok.byteAt_update hsb rfl hb hd, if_neg, h.bytes o h₁ (by omega)]
      -- The block at the end holds nothing that was reported.
      intro heq
      have hinj := Owned.inj hw.ok.owned _ _ hb heq.symm
      have hdiv := slotOf_inj (Prod.mk.inj hinj).2
      have hal : (off + tot) % bsize = 0 := by
        have := h.aligned
        have := h.stop
        omega
      have := Nat.div_add_mod (off + tot) bsize
      have := Nat.div_add_mod o bsize
      have : o % bsize < bsize := Nat.mod_lt _ (by decide)
      rw [hdiv] at *
      omega
  · rw [← hcache j hj htype o ho hout]
    rcases h.saved_cases hl hL with hd | ⟨b, hb, hp, hst, hd⟩
    · rw [byteAt_congr_disk hd]
    · obtain ⟨hne, hsame⟩ := hkeep j hj htype o ho
      subst hst
      rw [hw.ok.byteAt_update hsb rfl hb hd]
      split
      next heq => rw [hcache j hj htype o ho hout, byteAt, ← hsame, heq]
      next => rfl

/-- If `writei` changes only what it reports, the condition holds. -/
theorem Reported.harmless_of_onlyReported (hno : s.NoHoles sb) (hok : s.Ok sb lost)
    (hc : s.Cached ip) (h : Reported sb lost ip src off n s tot p t) {l : List ℕ}
    (hr : OnlyReported sb ip src off tot l s t) : s.Harmless sb ip src off n := by
  intro f hf hnone hbefore o h₁ h₂ hsize
  have hcopy : (Disk.dinode sb s.disk (s.inode ip).inum) = (s.inode ip).d :=
    (hok.table.copy ip hc.1 hc.2).symm
  have hge : tot + p ≤ f := by
    by_contra hlt
    have hb := h.bytes (off + f) (by omega) (by omega)
    rw [Nat.add_sub_cancel_left, hnone] at hb
    cases hb
  have hmul := Nat.div_mul_le_self (off + f) bsize
  obtain ⟨hfp, hin⟩ : f = tot + p ∧ (off + tot) % bsize + p < bsize := by
    rcases h.stop with hstop | ⟨hstop, -, hin⟩ | ⟨-, hz⟩
    · omega
    · refine ⟨?_, hin⟩
      by_contra hne
      exact hbefore (tot + p) (by omega) hstop
    · -- The blocks before the end of the file are there.
      exfalso
      refine hno _ (hok.table.inum ip hc.1) ?_ ((off + tot) / bsize) (lt_ceil_iff.2 ?_) hz
      · rw [hcopy]
        exact hok.table.type ip hc.1 hc.2
      · rw [hcopy]
        have : (off + tot) / bsize * bsize ≤ (off + f) / bsize * bsize :=
          Nat.mul_le_mul_right _ (Nat.div_le_div_right (by omega))
        omega
  subst hfp
  have hlow : off + tot ≤ o := by
    have hdiv : (off + (tot + p)) / bsize = (off + tot) / bsize := by
      rw [← Nat.add_assoc, Nat.add_div_eq_of_add_mod_lt, Nat.div_eq_of_lt (a := p) (by omega),
        Nat.add_zero]
      rw [Nat.mod_eq_of_lt (a := p) (by omega)]
      exact hin
    rw [hdiv] at h₁
    have := Nat.div_add_mod' (off + tot) bsize
    rcases h.aligned with hal | hal | hal <;> omega
  have hrest := hr.rest (fun _ => true) (fun _ _ => rfl) (s.inode ip).inum
    (hok.table.inum ip hc.1) (by rw [hcopy]; exact hok.table.type ip hc.1 hc.2) o
    (by rwa [hcopy]) fun _ => by omega
  have hd : (saved (fun _ => true) s t).disk = t.disk := by
    funext b
    simp [saved]
  rw [byteAt_congr_disk hd] at hrest
  rw [← h.bytes o (by omega) (by omega), hrest]

end Fs

/-- **When `writei` changes only what it reports.** In a file system with its blocks owned and
    without holes, `writei` returns; and if the arguments are accepted, the bytes that it reports
    are those of the source and no other byte that could be read has changed, in the cache or on
    the disk, if and only if the bytes that come right before one that cannot be read, in the same
    block, are the bytes that the file has already. -/
theorem writei_only_reported_iff {sb : Superblock} (hsb : sb.Wf) {s : Fs} {lost : Set ℕ}
    (h : s.Ok sb lost) (hno : s.NoHoles sb) {ip : Fin ninode} (hc : s.Cached ip)
    (src : ℕ → Option UInt8) (off n : UInt32) :
    (∃ r t l, Fs.writei sb ip src off.toNat n.toNat s = .ok r t ∧ t.logged = l ++ s.logged ∧
      (0 ≤ r → Fs.OnlyReported sb ip src off.toNat r.toNat l s t)) ↔
      (Fs.Accepts (s.inode ip).d.size off.toNat n.toNat →
        s.Harmless sb ip src off.toNat n.toNat) := by
  have hwp : wp (Fs.writei sb ip src off.toNat n.toNat) (fun r t =>
      r = -1 ∧ t = s ∧ ¬Fs.Accepts (s.inode ip).d.size off.toNat n.toNat ∨
      ∃ tot p : ℕ, r = tot ∧ Fs.Accepts (s.inode ip).d.size off.toNat n.toNat ∧
        Fs.Reported sb lost ip src off.toNat n.toNat s tot p t) (fun _ _ => False) s :=
    Fs.wp_writei_reported hsb h hc off.toNat_lt n.toNat_lt (fun hrej => .inl ⟨rfl, rfl, hrej⟩)
      fun hacc tot p t ht => .inr ⟨tot, p, rfl, hacc, ht⟩
  obtain ⟨r, t, hrun, hcases⟩ := hwp.exists_ok
  refine ⟨fun hprop hacc => ?_, fun hcond => ?_⟩
  · obtain ⟨r', t', l, hrun', hl, hrep⟩ := hprop
    rw [hrun] at hrun'
    cases hrun'
    rcases hcases with ⟨-, -, hrej⟩ | ⟨tot, p, rfl, -, ht⟩
    · exact absurd hacc hrej
    · exact ht.harmless_of_onlyReported hno h hc (hrep (Int.natCast_nonneg _))
  · rcases hcases with ⟨rfl, rfl, -⟩ | ⟨tot, p, rfl, hacc, ht⟩
    · exact ⟨-1, t, [], hrun, rfl, fun hneg => absurd hneg (by decide)⟩
    · obtain ⟨l, hl, -⟩ := ht.changes
      exact ⟨tot, t, l, hrun, hl, fun _ => ht.onlyReported hsb h hno hc (hcond hacc) hl⟩

theorem ok_oneLoaded : (∃ lost, oneLoaded.Ok smallSb lost) ∧ oneLoaded.NoHoles smallSb ∧
    oneLoaded.Cached 0 := by
  obtain ⟨lost, howned⟩ := blocksApart_oneFile.owned wf_smallSb
  have hfits : ({ Dinode.new 2 with nlink := 1 } : Dinode).Fits :=
    ⟨(Dinode.fits_new 2).size, (Dinode.fits_new 2).addrs⟩
  have hcopy : Disk.dinode smallSb oneLoaded.disk 1 = { Dinode.new 2 with nlink := 1 } :=
    (Disk.dinode_putDinode hfits).trans (if_pos rfl)
  refine ⟨⟨lost, howned, fun ip _ => by change 1 < 3; decide, fun ip jp hi hj _ => ?_,
    fun ip _ _ => hcopy.symm, fun ip _ _ => by change (2 : Int16) ≠ 0; decide⟩, by decide,
    by decide, rfl⟩
  have hone : ∀ kp : Fin ninode, 0 < (oneLoaded.inode kp).ref → kp = 0 := by decide
  rw [hone ip hi, hone jp hj]

/-- Two bytes are written to an empty file, from a source that can be read. -/
theorem writei_only_reported_two : ∃ r t l,
    Fs.writei smallSb 0 (fun _ => some 65) (0 : UInt32).toNat (2 : UInt32).toNat oneLoaded = .ok r t ∧
      t.logged = l ++ oneLoaded.logged ∧
      (0 ≤ r → Fs.OnlyReported smallSb 0 (fun _ => some 65) (0 : UInt32).toNat r.toNat l oneLoaded t) := by
  obtain ⟨⟨lost, h⟩, hno, hc⟩ := ok_oneLoaded
  refine (writei_only_reported_iff wf_smallSb h hno hc (fun _ => some 65) 0 2).2 fun _ f _ hf => ?_
  cases hf

/-- A source of which only the first byte can be read. -/
def oneByte (k : ℕ) : Option UInt8 := if k = 0 then some 9 else none

/-- Two bytes are to be written over the bytes 1 and 2 of a file, but the second one cannot be read.
    `writei` returns `0`, and the first byte has changed. -/
theorem writei_unreported : ∃ s t l, (∃ lost, s.Ok smallSb lost) ∧ s.NoHoles smallSb ∧ s.Cached 0 ∧
    Fs.writei smallSb 0 oneByte 0 2 s = .ok 0 t ∧ t.logged = l ++ s.logged ∧
    s.byteAt smallSb 1 0 = 1 ∧ t.byteAt smallSb 1 0 = 9 ∧
    ¬Fs.OnlyReported smallSb 0 oneByte 0 0 l s t := by
  obtain ⟨⟨lost, h⟩, hno, hc⟩ := ok_oneLoaded
  have hwp : wp (Fs.writei smallSb 0 (fun k => some (UInt8.ofNat (k + 1))) 0 2) (fun _ s =>
      s.Ok smallSb lost ∧ s.NoHoles smallSb ∧ s.Cached 0) (fun _ _ => False) oneLoaded := by
    refine Fs.wp_writei wf_smallSb h hc (by decide) (by decide)
      (fun hrej => absurd (by decide) hrej) fun hacc tot s hs => ?_
    refine ⟨hs.written.ok, hs.noHoles hno h hc hacc.1, ?_⟩
    rw [Fs.Cached, hs.written.inode.self]
    exact hc
  obtain ⟨r, s, hs, hok, hno', hc'⟩ := hwp.exists_ok
  have heval : wp (Fs.writei smallSb 0 (fun k => some (UInt8.ofNat (k + 1))) 0 2)
      (fun _ s => wp (Fs.writei smallSb 0 oneByte 0 2)
        (fun r t => r = 0 ∧ s.byteAt smallSb 1 0 = 1 ∧ t.byteAt smallSb 1 0 = 9 ∧
          (Disk.dinode smallSb s.disk 1).type ≠ 0 ∧ 0 < (Disk.dinode smallSb s.disk 1).size)
        (fun _ _ => False) s) (fun _ _ => False) oneLoaded := by decide
  have heval := heval.of_ok hs
  have hlog : wp (Fs.writei smallSb 0 oneByte 0 2) (fun _ t => ∃ l, t.logged = l ++ s.logged)
      (fun _ _ => False) s := by
    refine Fs.wp_writei_reported wf_smallSb hok hc' (by decide) (by decide) (fun _ => ⟨[], rfl⟩)
      fun _ tot p t ht => ?_
    obtain ⟨l, hl, -⟩ := ht.changes
    exact ⟨l, hl⟩
  obtain ⟨r, t, hrun, l, hl⟩ := hlog.exists_ok
  obtain ⟨rfl, h₁, h₂, htype, hsize⟩ := heval.of_ok hrun
  refine ⟨s, t, l, ⟨lost, hok⟩, hno', hc', hrun, hl, h₁, h₂, fun hrep => ?_⟩
  have hrest := hrep.rest (fun _ => true) (fun _ _ => rfl) 1 (by decide) htype 0 hsize
    fun _ => by omega
  have hd : (Fs.saved (fun _ => true) s t).disk = t.disk := by
    funext b
    simp [Fs.saved]
  rw [Fs.byteAt_congr_disk hd, h₁, h₂] at hrest
  exact absurd hrest (by decide)

end Xv6
