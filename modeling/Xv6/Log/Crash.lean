import Xv6.Log.Rest

/-!
# Crashes

Crash atomicity of a commit. In a crash the cache and the log in memory are
lost, and the disk keeps a prefix of the writes issued. The writes of a commit
are, in order, those of the log blocks, of the header, of the home blocks, and
of the header again (`commitWrites`); those of a recovery, the home blocks of
the transaction in the log and the header (`wp_recoverFromLog`).

What a disk means is what a recovery makes of it (`recovered`). The first write
of the header changes that from the contents before the transaction to those
after it; no other write of a commit changes it, and no write of a recovery
does, wherever it is cut off (`commit_before_head`, `commit_after_head`,
`recovered_crashRecover`).
-/

namespace Xv6

variable {s t : Store} {b : ℕ}

/-! ## The loops -/

/-- The first `k` log blocks, written with the contents `c`. -/
def logBlockWrites (start : ℕ) (c : ℕ → Block) (k : ℕ) : List (ℕ × Block) :=
  (List.range k).map fun i => (start + i + 1, c i)

/-- The first `k` home blocks of `lh`, written with the contents `c`. -/
def homeWrites (lh : LogHeader) (c : ℕ → Block) (k : ℕ) : List (ℕ × Block) :=
  (List.range k).map fun i => (lh.block i, c i)

theorem logBlockWrites_succ (start : ℕ) (c : ℕ → Block) (k : ℕ) :
    logBlockWrites start c (k + 1) = logBlockWrites start c k ++ [(start + k + 1, c k)] := by
  simp [logBlockWrites, List.range_succ]

theorem homeWrites_succ (lh : LogHeader) (c : ℕ → Block) (k : ℕ) :
    homeWrites lh c (k + 1) = homeWrites lh c k ++ [(lh.block k, c k)] := by
  simp [homeWrites, List.range_succ]

theorem range_isPrefix {k n : ℕ} (h : k ≤ n) : List.range k <+: List.range n := by
  rw [← Nat.min_eq_left h, ← List.take_range]
  exact List.take_prefix _ _

theorem logBlockWrites_isPrefix (start : ℕ) (c : ℕ → Block) {k n : ℕ} (h : k ≤ n) :
    logBlockWrites start c k <+: logBlockWrites start c n :=
  (range_isPrefix h).map _

theorem homeWrites_isPrefix (lh : LogHeader) (c : ℕ → Block) {k n : ℕ} (h : k ≤ n) :
    homeWrites lh c k <+: homeWrites lh c n :=
  (range_isPrefix h).map _

/-- Writes to home blocks do not change the log area. -/
theorem applyWrites_homeWrites {lh : LogHeader} {c : ℕ → Block} {start k : ℕ} (dk : Disk)
    (hh : ∀ i < k, ¬InLog start (lh.block i)) {b : ℕ} (hb : InLog start b) :
    applyWrites (homeWrites lh c k) dk b = dk b := by
  refine applyWrites_of_not_mem fun w hw => ?_
  obtain ⟨i, hi, rfl⟩ := List.mem_map.1 hw
  exact ne_of_inLog (hh i (List.mem_range.1 hi)) hb

/-- A transaction ready to be committed: it fits in the log, its home blocks are
    distinct and outside the log area, and they are pinned in the cache with the
    contents `c`; the log on the disk is empty. -/
structure CommitReady (s : Store) (c : ℕ → Block) : Prop where
  calm : Calm s
  count_le : s.log.lh.n ≤ logBlocks
  uint : ∀ k < s.log.lh.n, s.log.lh.block k < 2 ^ 32
  home : ∀ k < s.log.lh.n, ¬InLog s.log.start (s.log.lh.block k)
  distinct : ∀ j < s.log.lh.n, ∀ k < s.log.lh.n, s.log.lh.block j = s.log.lh.block k → j = k
  pinned : ∀ k < s.log.lh.n, Pinned s (s.log.lh.block k) (c k)
  empty : LogHeader.countOf (s.disk s.log.start) = 0

variable {c : ℕ → Block}

/-- The blocks of the transaction stay pinned in `write_log`. -/
theorem CommitReady.pinned_writeLog (h : CommitReady s c) {k : ℕ} (hk : k < s.log.lh.n)
    (ht : Wrote s (logBlockWrites s.log.start c k) t) : Pinned t (t.log.lh.block k) (c k) := by
  rw [ht.log]
  refine ht.pinned _ _ (h.home k hk) (fun w hw => ?_) (h.pinned k hk)
  obtain ⟨i, hi, rfl⟩ := List.mem_map.1 hw
  rw [List.mem_range] at hi
  exact (ne_of_inLog (h.home k hk)
    (inLog_succ s.log.start ((hi.trans hk).trans_le h.count_le))).symm

/-- `write_log` copies the transaction to the log. -/
theorem wp_writeLog (h : CommitReady s c) :
    wp writeLog (fun _ t => Wrote s (logBlockWrites s.log.start c s.log.lh.n) t)
      (fun _ t => ∃ ws, ws <+: logBlockWrites s.log.start c s.log.lh.n ∧
        t.writes = s.writes ++ ws) s := by
  rw [writeLog, wp_bind, wp_get]
  refine (wp_forRange (fun k t => Wrote s (logBlockWrites s.log.start c k) t)
    (by exact Wrote.refl h.calm) fun k t _ hk ht => ?_).mono (fun _ t ht => Nat.zero_add s.log.lh.n ▸ ht)
    fun _ _ he => he
  rw [Nat.zero_add] at hk
  have hlog := ht.log
  refine (wp_writeLogBlock ht.calm (hk.trans_le h.count_le) (by rw [hlog]; exact h.home k hk)
    (h.pinned_writeLog hk ht)).mono (fun _ u hu => ?_) (fun _ u hu => ?_)
  · rw [hlog] at hu
    rw [logBlockWrites_succ]
    exact ht.trans hu
  · exact ⟨_, logBlockWrites_isPrefix _ _ hk.le, hu.1.trans ht.writes⟩

/-- `install_trans` copies the blocks of the log to their homes. -/
theorem wp_installTrans (h : Calm s) (recovering : Bool) (hn : s.log.lh.n ≤ logBlocks)
    (hh : ∀ k < s.log.lh.n, ¬InLog s.log.start (s.log.lh.block k)) :
    wp (installTrans recovering)
      (fun _ t => Wrote s
        (homeWrites s.log.lh (fun k => s.disk (s.log.start + k + 1)) s.log.lh.n) t)
      (fun _ t => (∃ ws, ws <+:
        homeWrites s.log.lh (fun k => s.disk (s.log.start + k + 1)) s.log.lh.n ∧
          t.writes = s.writes ++ ws) ∧ ¬Idle s) s := by
  rw [installTrans, wp_bind, wp_get]
  refine (wp_forRange (fun k t => Wrote s
      (homeWrites s.log.lh (fun k => s.disk (s.log.start + k + 1)) k) t)
    (by exact Wrote.refl h) fun k t _ hk ht => ?_).mono (fun _ t ht => Nat.zero_add s.log.lh.n ▸ ht)
    fun _ _ he => he
  rw [Nat.zero_add] at hk
  have hlog := ht.log
  have hk' : k < logBlocks := hk.trans_le hn
  -- The blocks of the log are not overwritten by the installed ones.
  have hd : t.disk (s.log.start + k + 1) = s.disk (s.log.start + k + 1) := by
    rw [ht.disk]
    exact applyWrites_homeWrites _ (fun i hi => hh i (hi.trans hk)) (inLog_succ _ hk')
  refine (wp_installBlock ht.calm recovering hk' (by rw [hlog]; exact hh k hk)).mono
    (fun _ u hu => ?_) (fun _ u hu => ?_)
  · rw [hlog, hd] at hu
    rw [homeWrites_succ]
    exact ht.trans hu
  · exact ⟨⟨_, homeWrites_isPrefix _ _ hk.le, hu.1.trans ht.writes⟩,
      fun hi => hu.2.not_idle ht.calm.wf (ht.idle hi)⟩

/-! ## Committing -/

/-- The writes of a commit: the transaction to the log, the header, the
    transaction to its home blocks, and the header with a count of `0`. -/
def commitWrites (s : Store) (c : ℕ → Block) : List (ℕ × Block) :=
  let lh := s.log.lh
  let head := lh.store (s.disk s.log.start)
  logBlockWrites s.log.start c lh.n ++ (s.log.start, head) ::
    (homeWrites lh c lh.n ++ [(s.log.start, { lh with n := 0 }.store head)])

theorem homeWrites_congr (lh : LogHeader) {c c' : ℕ → Block} {n : ℕ} (h : ∀ k < n, c k = c' k) :
    homeWrites lh c n = homeWrites lh c' n :=
  List.map_congr_left fun i hi => by rw [h i (List.mem_range.1 hi)]

/-- The log blocks do not include the header. -/
theorem applyWrites_logBlockWrites_start (start : ℕ) (c : ℕ → Block) (n : ℕ) (dk : Disk) :
    applyWrites (logBlockWrites start c n) dk start = dk start := by
  refine applyWrites_of_not_mem fun w hw => ?_
  obtain ⟨i, -, rfl⟩ := List.mem_map.1 hw
  dsimp only
  omega

/-- The log blocks, written, hold what was written. -/
theorem applyWrites_logBlockWrites (start : ℕ) (c : ℕ → Block) {n k : ℕ} (dk : Disk)
    (hk : k < n) : applyWrites (logBlockWrites start c n) dk (start + k + 1) = c k := by
  have hmem : (start + k + 1, c k) ∈ logBlockWrites start c n :=
    List.mem_map.2 ⟨k, List.mem_range.2 hk, rfl⟩
  refine applyWrites_of_mem (w := (start + k + 1, c k)) ?_ hmem
  rw [logBlockWrites, List.map_map]
  exact List.nodup_range.map fun i j h => by simp only [Function.comp] at h; omega

/-- `commit` issues its writes in order, all of them if it returns. -/
theorem wp_commit (h : CommitReady s c) (hn : 0 < s.log.lh.n) :
    wp commit (fun _ t => t.writes = s.writes ++ commitWrites s c)
      (fun _ t => ∃ ws, ws <+: commitWrites s c ∧ t.writes = s.writes ++ ws) s := by
  rw [commit, wp_bind, wp_get, if_pos hn, wp_bind]
  refine (wp_writeLog h).mono (fun _ s₁ h₁ => ?_) (fun _ t ⟨ws, hws, ht⟩ => ?_)
  swap
  · exact ⟨ws, hws.trans (List.prefix_append _ _), ht⟩
  have hstart : s₁.disk s.log.start = s.disk s.log.start := by
    rw [h₁.disk, applyWrites_logBlockWrites_start]
  rw [wp_bind]
  refine (wp_writeHead h₁.calm).mono (fun _ s₂ h₂ => ?_) (fun _ t ht => ?_)
  swap
  · exact ⟨_, List.prefix_append _ _, ht.1.trans h₁.writes⟩
  rw [h₁.log, hstart] at h₂
  have h₂' := h₁.trans h₂
  have hlog := h₂'.log
  have hc : ∀ k < s.log.lh.n, s₂.disk (s.log.start + k + 1) = c k := fun k hk => by
    rw [h₂.disk, applyWrites_cons, applyWrites_nil, Function.update_of_ne (by omega), h₁.disk,
      applyWrites_logBlockWrites _ _ _ hk]
  rw [wp_bind]
  refine (wp_installTrans h₂.calm false (by rw [hlog]; exact h.count_le)
    (by rw [hlog]; exact h.home)).mono (fun _ s₃ h₃ => ?_) (fun _ t ht => ?_)
  swap
  · obtain ⟨⟨ws, hws, ht⟩, -⟩ := ht
    rw [hlog, homeWrites_congr _ hc] at hws
    refine ⟨logBlockWrites s.log.start c s.log.lh.n ++
      (s.log.start, s.log.lh.store (s.disk s.log.start)) :: ws, ?_, ?_⟩
    · rw [commitWrites, List.prefix_append_right_inj, List.prefix_cons_inj]
      exact hws.trans (List.prefix_append _ _)
    · rw [ht, h₂'.writes]
      simp
  rw [hlog, homeWrites_congr _ hc] at h₃
  have hstart₃ : s₃.disk s.log.start = s.log.lh.store (s.disk s.log.start) := by
    rw [h₃.disk, applyWrites_homeWrites _ h.home (inLog_start _), h₂.disk]
    simp
  have hlog₃ : s₃.log = s.log := h₃.log.trans hlog
  rw [wp_bind, clearLog, wp_modify]
  refine (wp_writeHead (h₃.calm.setHeader _)).mono (fun _ s₄ h₄ => ?_) (fun _ t ht => ?_)
  · have := h₄.writes
    simp only [hlog₃, hstart₃] at this
    rw [this, h₃.writes, h₂'.writes, commitWrites]
    simp
  · refine ⟨logBlockWrites s.log.start c s.log.lh.n ++
      (s.log.start, s.log.lh.store (s.disk s.log.start)) :: homeWrites s.log.lh c s.log.lh.n,
      ?_, ?_⟩
    · rw [commitWrites, List.prefix_append_right_inj, List.prefix_cons_inj]
      exact List.prefix_append _ _
    · rw [ht.1, h₃.writes, h₂'.writes]
      simp

/-! ## Recovering -/

/-- The store when the system boots on the disk `d`: the cache as `binit` leaves
    it, and the log as `initlog` sets it up. -/
def boot (dev start : ℕ) (d : Disk) : Store where
  cache := .binit
  disk := d
  log := { start := start, outstanding := 0, committing := false, dev := dev,
           lh := { n := 0, block := fun _ => 0 } }
  writes := []

theorem calm_boot {dev : ℕ} (hdev : dev ≠ 0) (start : ℕ) (dk : Disk) :
    Calm (boot dev start dk) where
  wf := Bcache.wf_binit
  dev := hdev
  unlocked _ _ := rfl
  coherent _ _ _ _ hh _ := absurd hh.1.symm hdev

theorem idle_boot (dev start : ℕ) (dk : Disk) : Idle (boot dev start dk) := fun _ _ => rfl

/-- The header block with which a recovery clears the log of `dk`. -/
def clearedHead (start : ℕ) (dk : Disk) : Block :=
  { (LogHeader.load ⟨0, fun _ => 0⟩ (dk start)) with n := 0 }.store (dk start)

theorem countOf_clearedHead (start : ℕ) (dk : Disk) :
    LogHeader.countOf (clearedHead start dk) = 0 :=
  LogHeader.countOf_store (Nat.zero_le _) _

/-- A recovery returns, having installed the transaction in the log and cleared
    it. -/
theorem wp_recoverFromLog {dev start : ℕ} {dk : Disk} (hdev : dev ≠ 0) (hwf : LogWf start dk) :
    wp recoverFromLog (fun _ t =>
      t.writes = logWrites start dk ++ [(start, clearedHead start dk)] ∧
        t.disk = applyWrites (logWrites start dk ++ [(start, clearedHead start dk)]) dk)
      (fun _ _ => False) (boot dev start dk) := by
  have hcalm := calm_boot hdev start dk
  have hidle := idle_boot dev start dk
  rw [recoverFromLog, wp_bind]
  refine (wp_readHead hcalm hidle).mono (fun _ s₁ h₁ => ?_) fun _ _ he => he
  have hlh : s₁.log.lh = LogHeader.load ⟨0, fun _ => 0⟩ (dk start) := by rw [h₁.log]; rfl
  have hstart : s₁.log.start = start := by rw [h₁.log]; rfl
  have hdisk : s₁.disk = dk := h₁.disk
  have hidle₁ : Idle s₁ := h₁.idle hidle
  have hn : s₁.log.lh.n = LogHeader.countOf (dk start) := by rw [hlh]; rfl
  have hblock : ∀ k < s₁.log.lh.n, s₁.log.lh.block k = LogHeader.blockOf (dk start) k :=
    fun k hk => by rw [hlh]; exact if_pos (hn ▸ hk)
  have hhw : homeWrites s₁.log.lh (fun k => s₁.disk (s₁.log.start + k + 1)) s₁.log.lh.n =
      logWrites start dk := by
    rw [homeWrites, logWrites, hn, hdisk, hstart]
    exact List.map_congr_left fun i hi => by rw [hblock i (hn ▸ List.mem_range.1 hi)]
  have hhome : ∀ k < s₁.log.lh.n, ¬InLog s₁.log.start (s₁.log.lh.block k) := fun k hk => by
    rw [hblock k hk, hstart]
    exact hwf.home k (hn ▸ hk)
  rw [wp_bind]
  refine (wp_installTrans h₁.calm true (hn ▸ hwf.count_le) hhome).mono (fun _ s₂ h₂ => ?_)
    fun _ _ he => he.2 hidle₁
  have hstart₂ : s₂.disk start = dk start := by
    rw [h₂.disk, ← hstart, applyWrites_homeWrites _ hhome (inLog_start _), hdisk]
  rw [hhw] at h₂
  rw [wp_bind, clearLog, wp_modify]
  refine (wp_writeHead (h₂.calm.setHeader _)).mono (fun _ s₃ h₃ => ?_)
    fun _ _ he => he.2.not_idle h₂.calm.wf (h₂.idle hidle₁)
  have hw := h₃.writes
  have hd := h₃.disk
  simp only [h₂.log, hstart, hlh, hstart₂] at hw hd
  rw [hw, hd, h₂.writes, h₂.disk, h₁.writes, hdisk, applyWrites_append]
  exact ⟨rfl, rfl⟩

/-! ## Crashes -/

/-- The writes a computation issues, whether it returns or stops before. -/
def issued (m : K PUnit) (s : Store) : List (ℕ × Block) :=
  match m s with
  | .ok _ t => t.writes.drop s.writes.length
  | .error _ t => t.writes.drop s.writes.length

theorem issued_of_ok {m : K PUnit} {a : PUnit} (h : m s = .ok a t) :
    issued m s = t.writes.drop s.writes.length := by
  rw [issued, h]

theorem issued_of_error {m : K PUnit} {e : Stop} (h : m s = .error e t) :
    issued m s = t.writes.drop s.writes.length := by
  rw [issued, h]

/-- The disk after a crash that lets `k` writes of the computation through. -/
def crash (m : K PUnit) (s : Store) (k : ℕ) : Disk := applyWrites ((issued m s).take k) s.disk

/-- The disk after booting on `d`, with a recovery cut off after `k` writes. -/
def crashRecover (dev start : ℕ) (d : Disk) (k : ℕ) : Disk :=
  crash recoverFromLog (boot dev start d) k

variable {dev start : ℕ} {dk : Disk}

theorem issued_recoverFromLog (hdev : dev ≠ 0) (hwf : LogWf start dk) :
    issued recoverFromLog (boot dev start dk) =
      logWrites start dk ++ [(start, clearedHead start dk)] := by
  obtain ⟨_, t, ht, hw, -⟩ := (wp_recoverFromLog hdev hwf).exists_ok
  rw [issued_of_ok ht, ← hw]
  rfl

/-- A complete recovery gives what the disk means. -/
theorem recover_complete (hdev : dev ≠ 0) (hwf : LogWf start dk) :
    ∃ t, recoverFromLog (boot dev start dk) = .ok ⟨⟩ t ∧
      LogHeader.countOf (t.disk start) = 0 ∧
      ∀ b, ¬InLog start b → t.disk b = recovered start dk b := by
  obtain ⟨_, t, ht, -, hd⟩ := (wp_recoverFromLog hdev hwf).exists_ok
  refine ⟨t, ht, ?_, fun b hb => ?_⟩
  · rw [hd, applyWrites_append]
    simp [countOf_clearedHead]
  · rw [hd, applyWrites_append, recovered, applyWrites_cons, applyWrites_nil,
      Function.update_of_ne (ne_of_inLog hb (inLog_start _))]

/-- Installing the transaction in the log and then clearing it does not change what
    the disk means, wherever it is cut off. -/
theorem recovered_install_take (hwf : LogWf start dk) {hd : Block}
    (hhd : LogHeader.countOf hd = 0) (k : ℕ) :
    LogWf start (applyWrites ((logWrites start dk ++ [(start, hd)]).take k) dk) ∧
      ∀ b, ¬InLog start b →
        recovered start (applyWrites ((logWrites start dk ++ [(start, hd)]).take k) dk) b =
          recovered start dk b := by
  rw [List.take_append]
  by_cases hk : k ≤ (logWrites start dk).length
  · -- The header is still that of `dk`.
    rw [Nat.sub_eq_zero_of_le hk, List.take_zero, List.append_nil]
    have hs : applyWrites ((logWrites start dk).take k) dk start = dk start :=
      applyWrites_of_not_mem fun w hw =>
        not_mem_logWrites hwf (inLog_start _) w (List.mem_of_mem_take hw)
    exact ⟨⟨by rw [hs]; exact hwf.count_le, by rw [hs]; exact hwf.home⟩,
      fun b _ => congrFun (recovered_applyWrites_take hwf k) b⟩
  · -- The log has been cleared.
    rw [List.take_of_length_le (by omega), List.take_of_length_le (by simp; omega),
      applyWrites_append]
    have hz : LogHeader.countOf (applyWrites [(start, hd)]
        (applyWrites (logWrites start dk) dk) start) = 0 := by simp [hhd]
    refine ⟨⟨by rw [hz]; exact Nat.zero_le _, fun i hi => ?_⟩, fun b hb => ?_⟩
    · rw [hz] at hi
      exact absurd hi (Nat.not_lt_zero i)
    · rw [recovered_of_count_eq_zero hz, applyWrites_cons, applyWrites_nil,
        Function.update_of_ne (ne_of_inLog hb (inLog_start _)), recovered]

/-- A recovery that is cut off does not change what the disk means. -/
theorem recovered_crashRecover (hdev : dev ≠ 0) (hwf : LogWf start dk) (k : ℕ) :
    LogWf start (crashRecover dev start dk k) ∧
      ∀ b, ¬InLog start b →
        recovered start (crashRecover dev start dk k) b = recovered start dk b := by
  rw [crashRecover, crash, issued_recoverFromLog hdev hwf]
  exact recovered_install_take hwf (countOf_clearedHead _ _) k

/-- Nor do any number of such recoveries. -/
theorem recovered_foldl_crashRecover (hdev : dev ≠ 0) (cuts : List ℕ) (hwf : LogWf start dk) :
    LogWf start (cuts.foldl (crashRecover dev start) dk) ∧
      ∀ b, ¬InLog start b →
        recovered start (cuts.foldl (crashRecover dev start) dk) b = recovered start dk b := by
  induction cuts generalizing dk with
  | nil => exact ⟨hwf, fun _ _ => rfl⟩
  | cons k cuts ih =>
    obtain ⟨hwf', h'⟩ := recovered_crashRecover hdev hwf k
    obtain ⟨h₁, h₂⟩ := ih hwf'
    exact ⟨h₁, fun b hb => (h₂ b hb).trans (h' b hb)⟩

/-- The writes of a commit are those of `commitWrites`, up to some point. -/
theorem issued_commit (h : CommitReady s c) :
    issued commit s <+: commitWrites s c ∧ (s.log.lh.n = 0 → issued commit s = []) ∧
      (0 < s.log.lh.n → (∃ t, commit s = .ok ⟨⟩ t) → issued commit s = commitWrites s c) := by
  by_cases hn : 0 < s.log.lh.n
  · have hw := wp_commit h hn
    rw [wp] at hw
    refine ⟨?_, fun h0 => absurd h0 hn.ne', fun _ hok => ?_⟩
    · split at hw
      · rename_i t ht
        have e : issued commit s = commitWrites s c := by
          rw [issued_of_ok ht, hw, List.drop_left]
        exact e ▸ List.prefix_rfl
      · rename_i t ht
        obtain ⟨ws, hws, e⟩ := hw
        rw [issued_of_error ht, e, List.drop_left]
        exact hws
    · obtain ⟨t, ht⟩ := hok
      rw [ht] at hw
      rw [issued_of_ok ht, hw, List.drop_left]
  · have e : commit s = .ok ⟨⟩ s := by
      simp only [commit, bind, EStateM.bind, get, getThe, MonadStateOf.get, EStateM.get,
        if_neg hn]
      rfl
    have hi : issued commit s = [] := by rw [issued_of_ok e, List.drop_length]
    exact ⟨hi ▸ List.nil_prefix, fun _ => hi, fun h' => absurd h' hn⟩

/-- Before the header is written, a commit does not change what the disk means. -/
theorem commit_before_head (h : CommitReady s c) {k : ℕ} (hk : k ≤ s.log.lh.n) :
    LogWf s.log.start (applyWrites ((commitWrites s c).take k) s.disk) ∧
      ∀ b, ¬InLog s.log.start b →
        recovered s.log.start (applyWrites ((commitWrites s c).take k) s.disk) b = s.disk b := by
  have hlen : (logBlockWrites s.log.start c s.log.lh.n).length = s.log.lh.n := by
    simp [logBlockWrites]
  rw [commitWrites, List.take_append_of_le_length (by rw [hlen]; exact hk)]
  have hin : ∀ w ∈ (logBlockWrites s.log.start c s.log.lh.n).take k,
      InLog s.log.start w.1 ∧ w.1 ≠ s.log.start := fun w hw => by
    obtain ⟨i, hi, rfl⟩ := List.mem_map.1 (List.mem_of_mem_take hw)
    have := h.count_le
    rw [List.mem_range] at hi
    exact ⟨inLog_succ _ (by omega), by dsimp only; omega⟩
  have hz : LogHeader.countOf (applyWrites ((logBlockWrites s.log.start c s.log.lh.n).take k)
      s.disk s.log.start) = 0 := by
    rw [applyWrites_of_not_mem fun w hw => (hin w hw).2, h.empty]
  refine ⟨⟨by rw [hz]; exact Nat.zero_le _, fun i hi => ?_⟩, fun b hb => ?_⟩
  · rw [hz] at hi
    exact absurd hi (Nat.not_lt_zero i)
  · rw [recovered_of_count_eq_zero hz]
    exact applyWrites_of_not_mem fun w hw e => hb (e ▸ (hin w hw).1)

/-- Once the header is written, a disk means the transaction, done. -/
theorem commit_after_head (h : CommitReady s c) {k : ℕ} (hk : s.log.lh.n < k) :
    LogWf s.log.start (applyWrites ((commitWrites s c).take k) s.disk) ∧
      ∀ b, ¬InLog s.log.start b →
        recovered s.log.start (applyWrites ((commitWrites s c).take k) s.disk) b =
          applyWrites (homeWrites s.log.lh c s.log.lh.n) s.disk b := by
  have hlen : (logBlockWrites s.log.start c s.log.lh.n).length = s.log.lh.n := by
    simp [logBlockWrites]
  obtain ⟨j, rfl⟩ : ∃ j, k = s.log.lh.n + (j + 1) := ⟨k - s.log.lh.n - 1, by omega⟩
  -- The disk just after the header is written: its log holds the transaction.
  set head := s.log.lh.store (s.disk s.log.start) with hhead
  set dH := Function.update (applyWrites (logBlockWrites s.log.start c s.log.lh.n) s.disk)
    s.log.start head with hdH
  have hstart : dH s.log.start = head := Function.update_self _ _ _
  have hcount : LogHeader.countOf (dH s.log.start) = s.log.lh.n := by
    rw [hstart, hhead, LogHeader.countOf_store h.count_le]
  have hblock : ∀ i < s.log.lh.n, LogHeader.blockOf (dH s.log.start) i = s.log.lh.block i :=
    fun i hi => by rw [hstart, hhead, LogHeader.blockOf_store h.count_le _ hi (h.uint i hi)]
  have hlog : logWrites s.log.start dH = homeWrites s.log.lh c s.log.lh.n := by
    rw [logWrites, homeWrites, hcount]
    refine List.map_congr_left fun i hi => ?_
    rw [List.mem_range] at hi
    rw [hblock i hi, hdH, Function.update_of_ne (by omega), applyWrites_logBlockWrites _ _ _ hi]
  have hwf : LogWf s.log.start dH :=
    ⟨by rw [hcount]; exact h.count_le, fun i hi => by
      rw [hcount] at hi
      rw [hblock i hi]
      exact h.home i hi⟩
  have htake : applyWrites ((commitWrites s c).take (s.log.lh.n + (j + 1))) s.disk =
      applyWrites ((logWrites s.log.start dH ++
        [(s.log.start, { s.log.lh with n := 0 }.store head)]).take j) dH := by
    rw [commitWrites, List.take_append, hlen, List.take_of_length_le (by rw [hlen]; omega),
      Nat.add_sub_cancel_left, List.take_succ_cons, applyWrites_append, applyWrites_cons, hlog]
  rw [htake]
  obtain ⟨h₁, h₂⟩ := recovered_install_take hwf
    (@LogHeader.countOf_store { s.log.lh with n := 0 } (Nat.zero_le _) head) j
  refine ⟨h₁, fun b hb => ?_⟩
  rw [h₂ b hb, recovered, hlog]
  refine applyWrites_congr (.inr ?_)
  rw [hdH, Function.update_of_ne (ne_of_inLog hb (inLog_start _)),
    applyWrites_of_not_mem fun w hw e => ?_]
  obtain ⟨i, hi, rfl⟩ := List.mem_map.1 hw
  rw [List.mem_range] at hi
  have := h.count_le
  exact hb (e ▸ inLog_succ _ (by omega))

/-- A transaction of one block, block `40`, over a log that starts at block `2`. -/
def oneBlockStore : Store where
  cache := Bcache.binit.set 0 fun _ =>
    { valid := true, dev := rootDev, blockno := 40, locked := false, refcnt := 1, data := .fill 7 }
  disk := fun _ => .fill 0
  log := { start := 2, outstanding := 0, committing := true, dev := rootDev,
           lh := { n := 1, block := fun _ => 40 } }
  writes := []

theorem oneBlockStore_dev {i : ℕ} (h : (oneBlockStore.cache.buf i).dev ≠ 0) : i = 0 := by
  by_contra hi
  exact h (by rw [oneBlockStore, Bcache.set_buf_of_ne _ _ hi]; rfl)

theorem commitReady_oneBlockStore : CommitReady oneBlockStore fun _ => .fill 7 where
  calm := {
    wf := ⟨List.reverse_perm _, fun i _ j _ hi hij _ =>
      (oneBlockStore_dev hi).trans (oneBlockStore_dev (hij ▸ hi)).symm⟩
    dev := by decide
    unlocked := by decide
    coherent := fun i _ b hb hh _ => by
      obtain rfl := oneBlockStore_dev (by rw [hh.1]; decide)
      obtain rfl : 40 = b := hh.2
      exact absurd hb (by decide) }
  count_le := by decide
  uint _ _ := (by decide : 40 < 2 ^ 32)
  home _ _ := (by decide : ¬InLog 2 40)
  distinct j hj k hk _ := by rw [Nat.lt_one_iff.1 hj, Nat.lt_one_iff.1 hk]
  pinned _ _ := ⟨0, by decide, ⟨rfl, rfl⟩, rfl, Nat.one_pos, rfl⟩
  empty := by decide

end Xv6
