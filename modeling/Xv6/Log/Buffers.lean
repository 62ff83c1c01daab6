import Xv6.Log.Crash

/-!
# Buffers for a commit

While a transaction is committed its home blocks stay pinned, each in a buffer of its own.
Besides them, `commit` needs a buffer at a time, for the block of the log area that it works
on. There is one as long as the transaction has fewer than `nbuf` blocks; but the log has room
for `logBlocks` of them, and that is as many as there are buffers. A full transaction leaves no
buffer for `write_log`, and `bget` panics (`commit_full_panics`).

So `bget` does not panic in `commit` if and only if the transaction is smaller than the cache
(`commit_buffers_iff`). A commit that returns has done all of its writes; and wherever it is
cut off, the recovery leaves either all of the transaction or nothing of it
(`commit_crash_atomic`).
-/

namespace Xv6

variable {s t : Store} {c : ℕ → Block}

/-- No buffer is referenced but those pinned for the transaction. -/
def OnlyPins (s : Store) : Prop :=
  ∀ i ∈ s.cache.lru, (s.cache.buf i).refcnt ≠ 0 →
    ∃ k < s.log.lh.n, s.cache.Holds s.log.dev (s.log.lh.block k) i

/-- The buffer that a block of the transaction is pinned in. -/
theorem CommitReady.exists_buffer (h : CommitReady s c) : ∃ f : ℕ → ℕ, ∀ k < s.log.lh.n,
    f k ∈ s.cache.lru ∧ s.cache.Holds s.log.dev (s.log.lh.block k) (f k) ∧
      (s.cache.buf (f k)).refcnt ≠ 0 := by
  have hex : ∀ k, ∃ i, k < s.log.lh.n → i ∈ s.cache.lru ∧
      s.cache.Holds s.log.dev (s.log.lh.block k) i ∧ (s.cache.buf i).refcnt ≠ 0 := by
    intro k
    by_cases hk : k < s.log.lh.n
    · obtain ⟨i, hi, hh, -, hr, -⟩ := h.pinned k hk
      exact ⟨i, fun _ => ⟨hi, hh, hr.ne'⟩⟩
    · exact ⟨0, fun hk' => absurd hk' hk⟩
  choose f hf using hex
  exact ⟨f, hf⟩

/-- A transaction smaller than the cache leaves a buffer unused. -/
theorem CommitReady.not_full (h : CommitReady s c) (hpins : OnlyPins s) (hn : s.log.lh.n < nbuf) :
    ¬Full s := by
  intro hfull
  obtain ⟨f, hf⟩ := h.exists_buffer
  -- Every buffer would hold a block of the transaction.
  have hsub : Finset.range nbuf ⊆ (Finset.range s.log.lh.n).image f := by
    intro i hi
    have hi' : i ∈ s.cache.lru := h.calm.wf.mem_lru.2 (Finset.mem_range.1 hi)
    obtain ⟨k, hk, hh⟩ := hpins i hi' (hfull i hi')
    refine Finset.mem_image.2 ⟨k, Finset.mem_range.2 hk, ?_⟩
    exact h.calm.wf.eq_of_holds h.calm.dev (hf k hk).1 hi' (hf k hk).2.1 hh
  have hcard := (Finset.card_le_card hsub).trans Finset.card_image_le
  rw [Finset.card_range, Finset.card_range] at hcard
  omega

/-- A transaction as large as the cache fills it. -/
theorem CommitReady.eq_buffer (h : CommitReady s c) (hn : s.log.lh.n = nbuf) {i : ℕ}
    (hi : i ∈ s.cache.lru) : (s.cache.buf i).refcnt ≠ 0 ∧
      ∃ k < s.log.lh.n, s.cache.Holds s.log.dev (s.log.lh.block k) i := by
  obtain ⟨f, hf⟩ := h.exists_buffer
  have hmaps : ∀ k ∈ Finset.range s.log.lh.n, f k ∈ Finset.range nbuf := fun k hk =>
    Finset.mem_range.2 (h.calm.wf.mem_lru.1 (hf k (Finset.mem_range.1 hk)).1)
  have hinj : Set.InjOn f (Finset.range s.log.lh.n) := by
    intro j hj k hk e
    have hj' := Finset.mem_range.1 (Finset.mem_coe.1 hj)
    have hk' := Finset.mem_range.1 (Finset.mem_coe.1 hk)
    have hh := (hf j hj').2.1
    rw [e] at hh
    exact h.distinct j hj' k hk' (hh.2.symm.trans (hf k hk').2.1.2)
  obtain ⟨k, hk, rfl⟩ := Finset.surj_on_of_inj_on_of_card_le (fun k _ => f k) hmaps
    (fun j k hj hk e => hinj (Finset.mem_coe.2 hj) (Finset.mem_coe.2 hk) e)
    (by rw [Finset.card_range, Finset.card_range, hn]) i
    (Finset.mem_range.2 (h.calm.wf.mem_lru.1 hi))
  exact ⟨(hf k (Finset.mem_range.1 hk)).2.2, k, Finset.mem_range.1 hk,
    (hf k (Finset.mem_range.1 hk)).2.1⟩

/-! ## A commit that returns -/

theorem Wrote.not_full {ws : List (ℕ × Block)} (h : Wrote s ws t) (hs : ¬Full s) : ¬Full t := by
  intro hfull
  refine hs fun i hi h0 => hfull i (h.perm.mem_iff.2 hi) ?_
  have := h.refcnt i
  omega

/-- A pinned home block is found even if only one buffer is unused. -/
theorem not_short {b : ℕ} {d : Block} (hs : ¬Full s) (hp : Pinned s b d) : ¬Short s b := by
  rintro (h | ⟨h, -⟩)
  · exact hs h
  · exact h d hp

theorem wp_writeLog_room (h : CommitReady s c) (hs : ¬Full s) :
    wp writeLog (fun _ t => Wrote s (logBlockWrites s.log.start c s.log.lh.n) t)
      (fun _ _ => False) s := by
  rw [writeLog, wp_bind, wp_get]
  refine (wp_forRange (fun k t => Wrote s (logBlockWrites s.log.start c k) t)
    (by exact Wrote.refl h.calm) fun k t _ hk ht => ?_).mono (fun _ t ht => Nat.zero_add s.log.lh.n ▸ ht)
    fun _ _ he => he
  rw [Nat.zero_add] at hk
  have hlog := ht.log
  have hpin := h.pinned_writeLog hk ht
  refine (wp_writeLogBlock ht.calm (hk.trans_le h.count_le)
    (by rw [hlog]; exact h.home k hk) hpin).mono (fun _ u hu => ?_) (fun _ u hu => ?_)
  · rw [hlog] at hu
    rw [logBlockWrites_succ]
    exact ht.trans hu
  · exact not_short (ht.not_full hs) hpin hu.2

theorem wp_installTrans_room (h : CommitReady s c) {ws : List (ℕ × Block)} (hs : Wrote s ws t)
    (hws : ∀ w ∈ ws, InLog s.log.start w.1) (hf : ¬Full t) :
    wp (installTrans false) (fun _ u => ∃ vs, Wrote t vs u) (fun _ _ => False) t := by
  rw [installTrans, wp_bind, wp_get, hs.log]
  refine (wp_forRange (fun k u => ∃ vs, Wrote t vs u ∧ ∀ w ∈ vs, ∃ j < k, w.1 = s.log.lh.block j)
    ⟨[], Wrote.refl hs.calm, fun w hw => absurd hw List.not_mem_nil⟩ fun k u _ hk hu => ?_).mono
    (fun _ u hu => ?_) fun _ _ he => he
  · rw [Nat.zero_add] at hk
    obtain ⟨vs, hu, hvs⟩ := hu
    have hlog := hu.log.trans hs.log
    -- The block is still pinned: only earlier ones have been installed.
    have hpin : Pinned u (u.log.lh.block k) (c k) := by
      rw [hlog]
      refine hu.pinned _ _ (hs.log ▸ h.home k hk) (fun w hw => ?_)
        (hs.pinned _ _ (h.home k hk) (fun w hw => ?_) (h.pinned k hk))
      · obtain ⟨j, hj, hwj⟩ := hvs w hw
        rw [hwj]
        intro e
        exact hj.ne (h.distinct j (hj.trans hk) k hk e)
      · exact (ne_of_inLog (h.home k hk) (hws w hw)).symm
    refine (wp_installBlock hu.calm false (hk.trans_le h.count_le)
      (by rw [hlog]; exact h.home k hk)).mono (fun _ v hv => ?_) (fun _ v hv => ?_)
    · refine ⟨_, hu.trans hv, fun w hw => ?_⟩
      rcases List.mem_append.1 hw with hw | hw
      · obtain ⟨j, hj, hwj⟩ := hvs w hw
        exact ⟨j, Nat.lt_succ_of_lt hj, hwj⟩
      · rw [List.mem_singleton.1 hw, hlog]
        exact ⟨k, Nat.lt_succ_self k, rfl⟩
    · exact not_short (hu.not_full hf) hpin hv.2
  · obtain ⟨vs, hu, -⟩ := hu
    exact ⟨vs, hu⟩

/-- With an unused buffer, `commit` returns. -/
theorem wp_commit_room (h : CommitReady s c) (hs : ¬Full s) :
    wp commit (fun _ _ => True) (fun _ _ => False) s := by
  rw [commit, wp_bind, wp_get]
  split
  · rw [wp_bind]
    refine (wp_writeLog_room h hs).mono (fun _ s₁ h₁ => ?_) fun _ _ he => he
    have hf₁ := h₁.not_full hs
    rw [wp_bind]
    refine (wp_writeHead h₁.calm).mono (fun _ s₂ h₂ => ?_) fun _ _ he => hf₁ he.2
    have hf₂ := h₂.not_full hf₁
    rw [wp_bind]
    refine (wp_installTrans_room h (h₁.trans h₂) ?_ hf₂).mono (fun _ s₃ h₃ => ?_) fun _ _ he => he
    · intro w hw
      rcases List.mem_append.1 hw with hw | hw
      · obtain ⟨k, hk, rfl⟩ := List.mem_map.1 hw
        exact inLog_succ _ ((List.mem_range.1 hk).trans_le h.count_le)
      · rw [List.mem_singleton.1 hw, h₁.log]
        exact inLog_start _
    obtain ⟨vs, h₃⟩ := h₃
    rw [wp_bind, clearLog, wp_modify]
    exact (wp_writeHead (h₃.calm.setHeader _)).mono (fun _ _ _ => trivial)
      fun _ _ he => h₃.not_full hf₂ he.2
  · trivial

/-! ## A commit that panics -/

/-- A transaction that fills the cache leaves no buffer for its first log block. -/
theorem commit_eq_error (h : CommitReady s c) (hn : s.log.lh.n = nbuf) :
    commit s = .error .bget s := by
  have hnone : s.cache.bget s.log.dev (s.log.start + 0 + 1) = none := by
    cases hb : s.cache.bget s.log.dev (s.log.start + 0 + 1) with
    | none => rfl
    | some x =>
      obtain ⟨hi, ⟨hh, -⟩ | ⟨-, h0, -⟩⟩ := s.cache.bget_cases hb
      · obtain ⟨-, k, hk, hh'⟩ := h.eq_buffer hn hi
        refine absurd (hh'.2.symm.trans hh.2) (ne_of_inLog (h.home k hk) ?_)
        exact inLog_succ s.log.start (show 0 < logBlocks by decide)
      · exact absurd h0 (h.eq_buffer hn hi).1
  have hpos : 0 < s.log.lh.n := by
    rw [hn]
    decide
  have hbody : writeLogBlock 0 s = .error .bget s := by
    simp only [writeLogBlock, bread, bget, get, getThe, MonadStateOf.get, bind, EStateM.bind,
      EStateM.get, hnone, throw, throwThe, MonadExceptOf.throw, EStateM.throw]
  have hlog : writeLog s = .error .bget s := by
    obtain ⟨m, hm⟩ := Nat.exists_eq_succ_of_ne_zero hpos.ne'
    simp only [writeLog, get, getThe, MonadStateOf.get, bind, EStateM.bind, EStateM.get, hm,
      forRange, hbody]
  simp only [commit, get, getThe, MonadStateOf.get, bind, EStateM.bind, EStateM.get, hpos, if_true,
    hlog]

/-- **Buffers for a commit.** When the blocks of a transaction are pinned, each in its own
    buffer, and no other buffer is referenced, `bget` does not panic in `commit` if and only
    if the transaction has fewer blocks than there are buffers. -/
theorem commit_buffers_iff (h : CommitReady s c) (hpins : OnlyPins s) :
    (∀ t, commit s ≠ .error .bget t) ↔ s.log.lh.n < nbuf := by
  refine ⟨fun hc => ?_, fun hn t ht => ?_⟩
  · refine lt_of_le_of_ne h.count_le fun hn => ?_
    exact hc s (commit_eq_error h hn)
  · obtain ⟨a, u, hu, -⟩ := (wp_commit_room h (h.not_full hpins hn)).exists_ok
    rw [hu] at ht
    cases ht

theorem onlyPins_oneBlockStore : OnlyPins oneBlockStore := by
  intro i _ hr
  by_cases hi : i = 0
  · subst hi
    exact ⟨0, Nat.one_pos, rfl, rfl⟩
  · rw [oneBlockStore, Bcache.set_buf_of_ne _ _ hi] at hr
    exact absurd rfl hr

/-- A transaction of one block is committed. -/
theorem oneBlockStore_buffers : oneBlockStore.log.lh.n < nbuf ∧
    ∀ t, commit oneBlockStore ≠ .error .bget t :=
  ⟨by decide, (commit_buffers_iff commitReady_oneBlockStore onlyPins_oneBlockStore).2 (by decide)⟩

/-- A transaction that fills the log, over a log that starts at block `2`. -/
def fullStore : Store where
  cache := {
    buf := fun i =>
      { valid := true, dev := rootDev, blockno := 40 + i, locked := false, refcnt := 1, data := .fill 7 }
    lru := List.range nbuf }
  disk := fun _ => .fill 0
  log := { start := 2, outstanding := 0, committing := true, dev := rootDev,
           lh := { n := logBlocks, block := fun k => 40 + k } }
  writes := []

theorem commitReady_fullStore : CommitReady fullStore fun _ => .fill 7 where
  calm := {
    wf := ⟨.refl _, fun i _ j _ _ _ hb => Nat.add_left_cancel hb⟩
    dev := by decide
    unlocked := fun _ _ => rfl
    coherent := fun i _ b hb hh _ => by
      obtain rfl : 40 + i = b := hh.2
      have : 40 + i ≤ 2 + 30 := hb.2
      omega }
  count_le := by decide
  uint k hk := by
    have : k < 30 := hk
    change 40 + k < 2 ^ 32
    omega
  home k _ hb := by
    have : 40 + k ≤ 2 + 30 := hb.2
    omega
  distinct _ _ _ _ e := Nat.add_left_cancel e
  pinned k hk := ⟨k, List.mem_range.2 hk, ⟨rfl, rfl⟩, rfl, Nat.one_pos, rfl⟩
  empty := by decide

/-- Its commit panics: all buffers are pinned, and there is none for the first log block. -/
theorem commit_full_panics : ∃ s : Store, (∃ c, CommitReady s c) ∧ OnlyPins s ∧
    s.log.lh.n ≤ logBlocks ∧ commit s = .error .bget s :=
  ⟨fullStore, ⟨_, commitReady_fullStore⟩, fun i hi _ => ⟨i, List.mem_range.1 hi, rfl, rfl⟩, le_rfl,
    commit_eq_error commitReady_fullStore rfl⟩

/-! ## Crashes -/

/-- **A commit is atomic across crashes.** Cut the writes of `commit` off at any
    point, then run any number of recoveries each cut off at any point, and then a
    complete one. It returns, with an empty log on the disk. If at most the log
    blocks were written, every block outside the log area is as before the
    transaction; if the header was written too, the home blocks of the transaction
    have their logged contents, and all other blocks are as before. A commit that
    returns has issued all of its `2n + 2` writes, and it returns if no other buffer
    is referenced and the transaction is smaller than the cache. -/
theorem commit_crash_atomic (h : CommitReady s c) (k : ℕ) (cuts : List ℕ) :
    (0 < s.log.lh.n → (∃ t, commit s = .ok ⟨⟩ t) →
      (issued commit s).length = 2 * s.log.lh.n + 2) ∧
    (OnlyPins s → s.log.lh.n < nbuf → ∃ t, commit s = .ok ⟨⟩ t) ∧
    ∃ t, recoverFromLog (boot s.log.dev s.log.start
        (cuts.foldl (crashRecover s.log.dev s.log.start) (crash commit s k))) = .ok ⟨⟩ t ∧
      LogHeader.countOf (t.disk s.log.start) = 0 ∧
      (min k (issued commit s).length ≤ s.log.lh.n →
        ∀ b, ¬InLog s.log.start b → t.disk b = s.disk b) ∧
      (s.log.lh.n < min k (issued commit s).length →
        (∀ i < s.log.lh.n, t.disk (s.log.lh.block i) = c i) ∧
        ∀ b, ¬InLog s.log.start b → (∀ i < s.log.lh.n, s.log.lh.block i ≠ b) →
          t.disk b = s.disk b) := by
  obtain ⟨hpre, h0, hall⟩ := issued_commit h
  have hcrash : crash commit s k =
      applyWrites ((commitWrites s c).take (min k (issued commit s).length)) s.disk := by
    have e := List.prefix_iff_eq_take.1 hpre
    rw [crash, ← List.take_take, ← e]
  refine ⟨fun hn hok => ?_, fun hpins hn => ?_, ?_⟩
  · rw [hall hn hok, commitWrites]
    simp [logBlockWrites, homeWrites]
    omega
  · obtain ⟨_, t, ht, -⟩ := (wp_commit_room h (h.not_full hpins hn)).exists_ok
    exact ⟨t, ht⟩
  by_cases hk : min k (issued commit s).length ≤ s.log.lh.n
  · obtain ⟨hwf, hrec⟩ := commit_before_head h hk
    rw [← hcrash] at hwf hrec
    obtain ⟨hwf', hrec'⟩ := recovered_foldl_crashRecover h.calm.dev cuts hwf
    obtain ⟨t, ht, hz, hd⟩ := recover_complete h.calm.dev hwf'
    exact ⟨t, ht, hz, fun _ b hb => (hd b hb).trans ((hrec' b hb).trans (hrec b hb)),
      fun hlt => absurd hk (by omega)⟩
  · obtain ⟨hwf, hrec⟩ := commit_after_head h (Nat.lt_of_not_le hk)
    rw [← hcrash] at hwf hrec
    obtain ⟨hwf', hrec'⟩ := recovered_foldl_crashRecover h.calm.dev cuts hwf
    obtain ⟨t, ht, hz, hd⟩ := recover_complete h.calm.dev hwf'
    refine ⟨t, ht, hz, fun hle => absurd hle hk, fun _ => ⟨fun i hi => ?_, fun b hb hbi => ?_⟩⟩
    · rw [hd _ (h.home i hi), hrec' _ (h.home i hi), hrec _ (h.home i hi)]
      refine applyWrites_of_mem (w := (s.log.lh.block i, c i)) ?_
        (List.mem_map.2 ⟨i, List.mem_range.2 hi, rfl⟩)
      rw [homeWrites, List.map_map]
      refine (List.nodup_range).map_on fun j hj k hk e => ?_
      exact h.distinct j (List.mem_range.1 hj) k (List.mem_range.1 hk) e
    · rw [hd b hb, hrec' b hb, hrec b hb, applyWrites_of_not_mem fun w hw => ?_]
      obtain ⟨i, hi, rfl⟩ := List.mem_map.1 hw
      exact hbi i (List.mem_range.1 hi)

/-- A transaction of the blocks `40`, `41` and `42`, over a log that starts at block `2`. -/
def threeBlockStore : Store where
  cache := {
    buf := fun i =>
      { valid := true, dev := rootDev, blockno := 40 + i, locked := false,
        refcnt := if i < 3 then 1 else 0, data := .fill (UInt8.ofNat (7 + i)) }
    lru := List.range nbuf }
  disk := fun _ => .fill 0
  log := { start := 2, outstanding := 0, committing := true, dev := rootDev,
           lh := { n := 3, block := fun k => 40 + k } }
  writes := []

theorem commitReady_threeBlockStore :
    CommitReady threeBlockStore fun k => .fill (UInt8.ofNat (7 + k)) where
  calm := {
    wf := ⟨.refl _, fun i _ j _ _ _ hb => Nat.add_left_cancel hb⟩
    dev := by decide
    unlocked := fun _ _ => rfl
    coherent := fun i _ b hb hh _ => by
      obtain rfl : 40 + i = b := hh.2
      have : 40 + i ≤ 2 + 30 := hb.2
      omega }
  count_le := by decide
  uint k hk := by
    have : k < 3 := hk
    change 40 + k < 2 ^ 32
    omega
  home k _ hb := by
    have : 40 + k ≤ 2 + 30 := hb.2
    omega
  distinct _ _ _ _ e := Nat.add_left_cancel e
  pinned k hk := by
    have hk' : k < 3 := hk
    have hlt : k < nbuf := hk'.trans (by decide)
    refine ⟨k, List.mem_range.2 hlt, ⟨rfl, rfl⟩, rfl, ?_, rfl⟩
    change 0 < if k < 3 then 1 else 0
    rw [if_pos hk']
    exact Nat.one_pos
  empty := by decide

theorem onlyPins_threeBlockStore : OnlyPins threeBlockStore := by
  intro i _ hr
  by_cases hi : i < 3
  · exact ⟨i, hi, rfl, rfl⟩
  · exact absurd (if_neg hi) hr

/-- Its commit does eight writes. Cut off before the header, and after a first recovery that is cut
    off too, the blocks are as before; cut off after the header, in the middle of the home blocks,
    they have their new contents after two such recoveries. -/
theorem threeBlockStore_crash_atomic :
    (issued commit threeBlockStore).length = 8 ∧
    (∃ t, recoverFromLog (boot rootDev 2
        ([0].foldl (crashRecover rootDev 2) (crash commit threeBlockStore 3))) = .ok ⟨⟩ t ∧
      LogHeader.countOf (t.disk 2) = 0 ∧
      t.disk 40 = .fill 0 ∧ t.disk 41 = .fill 0 ∧ t.disk 42 = .fill 0) ∧
    ∃ t, recoverFromLog (boot rootDev 2
        ([1, 2].foldl (crashRecover rootDev 2) (crash commit threeBlockStore 5))) = .ok ⟨⟩ t ∧
      LogHeader.countOf (t.disk 2) = 0 ∧
      t.disk 40 = .fill 7 ∧ t.disk 41 = .fill 8 ∧ t.disk 42 = .fill 9 ∧ t.disk 43 = .fill 0 := by
  have hready := commitReady_threeBlockStore
  obtain ⟨hlen, hret, t, ht, hz, hbefore, -⟩ := commit_crash_atomic hready 3 [0]
  have hlen' := hlen (by decide) (hret onlyPins_threeBlockStore (by decide))
  have hold := hbefore (Nat.min_le_left _ _)
  obtain ⟨-, -, u, hu, hz', -, hafter⟩ := commit_crash_atomic hready 5 [1, 2]
  obtain ⟨hnew, hsame⟩ := hafter (by rw [hlen']; decide)
  refine ⟨hlen', ⟨t, ht, hz, hold 40 (by decide), hold 41 (by decide), hold 42 (by decide)⟩,
    u, hu, hz', hnew 0 (by decide), hnew 1 (by decide), hnew 2 (by decide),
    hsame 43 (by decide) (by decide)⟩

end Xv6
