import Xv6.Log.Crash
import Xv6.Log.Step

/-!
# Coherence and atomicity of the log system

Two properties of every run of the log system, whatever the interleaving:

* the cache with the log is a coherent store (`bread_eq_lastLogged`): a `bread`
  returns the contents last passed to `log_write`, whether the block stayed in the
  cache, was evicted, or was installed by a commit;
* operations are atomic across crashes (`recover_eq_snapshot`): a crash at any point
  followed by a recovery gives the contents of the file system at an earlier moment
  at which no operation was in progress, the start of the last commit whose header
  was written.

Both come from the invariant, along with what the log on the disk means: only the
first write of the header in a commit changes it (`LogState.Inv.recovered_step`).
-/

namespace Xv6

open Xv6.System (last)

/-! ## Runs -/

/-- The contents last passed to `log_write` in a run, or those of the initial disk. -/
def lastLogged (s₀ : LogState) : List (LogAct × LogState) → Disk
  | [] => s₀.disk
  | (a, _) :: tr => (last s₀ tr).note (lastLogged s₀ tr) a

variable {s₀ : LogState} {tr : List (LogAct × LogState)}

/-- The invariant holds along every run. -/
theorem inv_of_run (h₀ : s₀ ∈ logSystem.init) (h : logSystem.Run s₀ tr) :
    (last s₀ tr).Inv (lastLogged s₀ tr) := by
  induction h with
  | nil => exact LogState.Initial.inv h₀
  | cons _ hstep ih => exact ih.step hstep

/-- **The cache and the log are a coherent store.** When `bread` returns the buffer
    of a block to a process, it is the buffer of that block and holds the contents
    last passed to `log_write` for it, or those of the initial disk. -/
theorem bread_eq_lastLogged (h₀ : s₀ ∈ logSystem.init) {r : Ref} {s : LogState}
    (h : logSystem.Run s₀ ((.fill r, s) :: tr)) (hb : ¬InLog s.log.start r.blockno) :
    s.cache.Holds s.log.dev r.blockno r.idx ∧
      (s.cache.buf r.idx).data = lastLogged s₀ tr r.blockno := by
  obtain _ | ⟨hrun, hstep⟩ := h
  have hinv := inv_of_run h₀ hrun
  have hinv' : s.Inv (lastLogged s₀ tr) := hinv.step hstep
  set r' : Ref := { r with phase := .ready }
  obtain ⟨hr', hnd⟩ : r' ∈ s.refs ∧ r.dirty = false := by
    simp only [logSystem, LogState.exec, LogState.fill] at hstep
    split at hstep
    · rename_i hc
      cases hstep
      exact ⟨List.mem_cons_self, hinv.not_dirty hc.1 (by rw [hc.2]; decide)⟩
    · cases hstep
  obtain ⟨hi, hd, hblock⟩ := hinv'.refs.mem _ hr'
  refine ⟨⟨hd, hblock⟩, ?_⟩
  have hclean := hinv'.data.clean r'.idx hi hd (hinv'.refs.ready r' hr' rfl) (by rwa [hblock])
    (hinv'.not_dirty_of_holding hr' rfl hnd)
  rwa [hblock] at hclean

/-- The log system after booting on an empty disk, with the log at block `2`. -/
def freshState : LogState where
  cache := .binit
  disk := fun _ => .fill 0
  log := { start := 2, outstanding := 0, committing := false, dev := rootDev,
           lh := { n := 0, block := fun _ => 0 } }
  refs := []
  ops := []
  pc := .idle
  committer := 0

theorem freshState_mem_init : freshState ∈ logSystem.init where
  wf := Bcache.wf_binit
  dev := by decide
  unused _ _ := ⟨rfl, rfl⟩
  coherent _ _ _ h := by cases h
  outstanding := rfl
  committing := rfl
  count := rfl
  empty := by decide
  refs := rfl
  ops := rfl
  pc := rfl

/-- `bread` by the process `p` of the block `b`, in the buffer `i`. -/
def breadActs (p b i : ℕ) : List LogAct :=
  [.bget p b, .acquire ⟨p, b, i, .waiting, false⟩, .fill ⟨p, b, i, .locked, false⟩]

/-- `brelse` of it. -/
def brelseActs (p b i : ℕ) : List LogAct :=
  [.unlock ⟨p, b, i, .ready, false⟩, .drop ⟨p, b, i, .released, false⟩]

/-- An operation that logs the block `40`, up to the start of its commit. -/
def writeActs : List LogAct :=
  .beginOp 1 :: breadActs 1 40 0 ++
    [.modify ⟨1, 40, 0, .ready, false⟩ (.fill 7), .logWrite ⟨1, 40, 0, .ready, true⟩] ++
    brelseActs 1 40 0 ++ [.endOp 1]

/-- Its commit, up to the installation of the block. -/
def commitActs : List LogAct :=
  breadActs 1 3 1 ++ breadActs 1 40 0 ++
    .writeLog ⟨1, 3, 1, .ready, false⟩ ⟨1, 40, 0, .ready, false⟩ ::
    brelseActs 1 40 0 ++ brelseActs 1 3 1 ++ breadActs 1 2 2 ++
    .writeHead ⟨1, 2, 2, .ready, false⟩ :: brelseActs 1 2 2 ++ breadActs 1 3 1 ++
    breadActs 1 40 0 ++ [.install ⟨1, 3, 1, .ready, false⟩ ⟨1, 40, 0, .ready, false⟩]

theorem toOption_exec (s : LogState) (a : LogAct) (s' : LogState)
    (h : (s.exec a).toOption = some s') : logSystem.step s a s' := by
  cases hs : s.exec a with
  | error e => rw [hs] at h; cases h
  | ok t => rw [hs] at h; cases h; exact hs

/-- Does the action fill the buffer of the reference? -/
def LogAct.fills (r : Ref) : LogAct → Bool
  | .fill r' => r' = r
  | _ => false

theorem LogAct.eq_fill {r : Ref} {a : LogAct} (h : a.fills r = true) : a = .fill r := by
  cases a with
  | fill r' => rw [of_decide_eq_true h]
  | _ => cases h

/-- The commit reads the block it logged. -/
theorem bread_during_commit : ∃ tr s, logSystem.Run freshState
      ((.fill ⟨1, 40, 0, .locked, false⟩, s) :: tr) ∧ s.pc = .writeLog 0 ∧
    (s.cache.buf 0).data = lastLogged freshState tr 40 := by
  obtain ⟨tr, hrun, hP⟩ := System.exists_run toOption_exec freshState
    (writeActs ++ breadActs 1 40 0)
    (fun tr => tr.head?.any fun x => x.1.fills ⟨1, 40, 0, .locked, false⟩ ∧
      x.2.pc = .writeLog 0 ∧ ¬InLog x.2.log.start 40) (by decide)
  cases tr with
  | nil => cases hP
  | cons x tr =>
    obtain ⟨a, s⟩ := x
    obtain ⟨hf, hpc, hb⟩ : a.fills ⟨1, 40, 0, .locked, false⟩ = true ∧ s.pc = .writeLog 0 ∧
        ¬InLog s.log.start 40 := by simpa using hP
    obtain rfl := LogAct.eq_fill hf
    exact ⟨tr, s, hrun, hpc, (bread_eq_lastLogged freshState_mem_init hrun hb).2⟩

/-! ## What the disk means -/

/-- The logical contents of a block: those of its buffer, or of the disk. -/
def LogState.contents (s : LogState) (b : ℕ) : Block :=
  match s.cache.lookup s.log.dev b with
  | some i => if (s.cache.buf i).valid then (s.cache.buf i).data else s.disk b
  | none => s.disk b

/-- Did the action leading to the state `s` start a commit? -/
def LogState.starts (s : LogState) : LogAct → Bool
  | .endOp _ => s.log.committing
  | _ => false

/-- Did the action leading to the state `s` write the header of a transaction? -/
def LogState.commits (s : LogState) : LogAct → Bool
  | .writeHead _ => s.pc = .install 0
  | _ => false

/-- The run up to the start of the last commit. -/
def commitStart : List (LogAct × LogState) → List (LogAct × LogState)
  | [] => []
  | (a, s) :: tr => if s.starts a then (a, s) :: tr else commitStart tr

/-- The run up to the start of the last commit whose header was written. -/
def snapshot : List (LogAct × LogState) → List (LogAct × LogState)
  | [] => []
  | (a, s) :: tr => if s.commits a then commitStart tr else snapshot tr

theorem commitStart_isSuffix (tr : List (LogAct × LogState)) : commitStart tr <:+ tr := by
  induction tr with
  | nil => exact List.suffix_rfl
  | cons x tr ih =>
    rw [commitStart]
    split
    · exact List.suffix_rfl
    · exact ih.trans (List.suffix_cons _ _)

theorem snapshot_isSuffix (tr : List (LogAct × LogState)) : snapshot tr <:+ tr := by
  induction tr with
  | nil => exact List.suffix_rfl
  | cons x tr ih =>
    rw [snapshot]
    split
    · exact (commitStart_isSuffix tr).trans (List.suffix_cons _ _)
    · exact ih.trans (List.suffix_cons _ _)

/-- No operation is in progress when a commit starts. -/
theorem ops_commitStart (h₀ : s₀ ∈ logSystem.init) (h : logSystem.Run s₀ tr) :
    (last s₀ (commitStart tr)).ops = [] := by
  induction h with
  | nil => exact h₀.ops
  | cons hrun hstep ih =>
    rename_i tr a s
    rw [commitStart]
    split
    · rename_i hs
      have hinv := (inv_of_run h₀ (.cons hrun hstep)).log
      cases a with
      | endOp p => exact hinv.quiet (hinv.committing.1 hs)
      | _ => cases hs
    · exact ih

theorem ops_snapshot (h₀ : s₀ ∈ logSystem.init) (h : logSystem.Run s₀ tr) :
    (last s₀ (snapshot tr)).ops = [] := by
  induction h with
  | nil => exact h₀.ops
  | cons hrun _ ih =>
    rw [snapshot]
    split
    · exact ops_commitStart h₀ hrun
    · exact ih

namespace LogState

variable {s s' : LogState} {a : LogAct} {L : Disk} {b : ℕ}

/-- The log stays where it is. -/
theorem exec_start (hs : s.exec a = .ok s') :
    s'.log.start = s.log.start ∧ s'.log.dev = s.log.dev := by
  cases a <;>
    simp only [exec, bget, acquire, fill, modify, unlock, drop, beginOp, logWrite, endOp, writeLog,
      writeHead, install, clear, finish] at hs <;>
    repeat' split at hs
  all_goals cases hs <;> exact ⟨rfl, rfl⟩

/-- Outside a commit only `end_op` starts one. -/
theorem exec_idle (hs : s.exec a = .ok s') (hpc : s.pc = .idle) (ha : ∀ p, a ≠ .endOp p) :
    s'.pc = .idle := by
  cases a with
  | endOp p => exact absurd rfl (ha p)
  | _ =>
    simp only [exec, bget, acquire, fill, modify, unlock, drop, beginOp, logWrite, writeLog,
      writeHead, install, clear, finish, hpc] at hs
    repeat' split at hs
    all_goals cases hs <;> first | exact hpc | rfl

namespace Inv

/-- Outside a commit, and while the log is written, the disk means what it holds. -/
theorem recovered_of_idle (h : s.Inv L) (hpc : s.pc = .idle ∨ ∃ tail, s.pc = .writeLog tail) :
    recovered s.log.start s.disk = s.disk := by
  have hon := h.log.onDisk
  rcases hpc with hpc | ⟨tail, hpc⟩ <;> rw [hpc] at hon
  exacts [recovered_of_count_eq_zero hon, recovered_of_count_eq_zero hon.2.2.1]

/-- What the disk means changes when the header of a transaction is written, and at
    no other step. -/
theorem recovered_step (h : s.Inv L) (hs : s.exec a = .ok s') (hb : ¬InLog s.log.start b) :
    recovered s'.log.start s'.disk b =
      if s'.commits a then L b else recovered s.log.start s.disk b := by
  have h' := h.step hs
  cases a with
  | writeLog dst src =>
    simp only [exec, LogState.writeLog] at hs
    split at hs
    swap
    · cases hs
    rename_i tail hpc
    split at hs
    swap
    · cases hs
    rename_i hc
    cases hs
    have hcl := h.log.count_le
    have hblock := (h.mem_of_reads hc.2.1).2.2.1
    -- The head counts no block yet.
    rw [h'.recovered_of_idle (.inr ⟨_, rfl⟩), h.recovered_of_idle (.inr ⟨_, hpc⟩)]
    dsimp only [put, commits]
    rw [hblock, Function.update_of_ne (ne_of_inLog hb (inLog_succ _ (by omega)))]
    rfl
  | writeHead r =>
    simp only [exec, LogState.writeHead] at hs
    split at hs
    swap
    · cases hs
    rename_i hr
    have hblock := (h.mem_of_reads hr).2.2.1
    split at hs
    · split at hs
      · cases hs
      · cases hs
        -- The head gets the count: from now on the new contents are recovered.
        exact h'.recovered_of_install rfl hb
    · rename_i hpc
      cases hs
      -- The head is cleared, when all blocks have been copied.
      have hon := h.log.onDisk
      have hon' := h'.log.onDisk
      rw [hpc] at hon
      rw [recovered_of_count_eq_zero hon'.2]
      dsimp only [put, commits]
      rw [hblock, Function.update_of_ne (ne_of_inLog hb (inLog_start _)), hon.2.2 b hb]
      rfl
    · cases hs
  | install src dst =>
    simp only [exec, LogState.install] at hs
    split at hs
    swap
    · cases hs
    rename_i tail hpc
    split at hs
    swap
    · cases hs
    cases hs
    -- The block is copied from the log, and would be again.
    exact (h'.recovered_of_install rfl hb).trans (h.recovered_of_install hpc hb).symm
  | _ =>
    -- No other step writes to the disk.
    simp only [exec, LogState.bget, LogState.acquire, LogState.fill, LogState.modify,
      LogState.unlock, LogState.drop, LogState.beginOp, LogState.logWrite, LogState.endOp,
      LogState.clear, LogState.finish] at hs
    repeat' split at hs
    all_goals cases hs <;> rfl

/-- The logical contents are those last logged, when no operation is in progress. -/
theorem contents_eq (h : s.Inv L) (hops : s.ops = []) (hb : ¬InLog s.log.start b) :
    s.contents b = L b := by
  have hnone : (∀ i ∈ s.cache.lru, s.cache.Holds s.log.dev b i →
      (s.cache.buf i).valid = false) → s.disk b = L b := fun hinv => by
    refine h.data.disk b hb fun hmem => ?_
    obtain ⟨i, hi, hh, hv⟩ := h.refs.cached b hmem
    rw [hinv i hi hh] at hv
    cases hv
  rw [contents]
  split
  · rename_i i hi
    have hmem := List.mem_of_find?_eq_some hi
    have hh : s.cache.Holds s.log.dev b i := by simpa using List.find?_some hi
    split
    · rename_i hv
      rw [h.data.clean i hmem hh.1 hv (hh.2 ▸ hb) fun r hr _ => h.not_dirty_of_quiet hops r hr,
        hh.2]
    · rename_i hv
      refine hnone fun j hj hhj => ?_
      rw [h.refs.wf.eq_of_holds h.refs.dev_ne hj hmem hhj hh]
      simpa using hv
  · rename_i hn
    refine hnone fun j hj hhj => ?_
    have := List.find?_eq_none.1 hn j hj
    simp [hhj] at this

end Inv

end LogState

/-! ## Atomicity -/

/-- The log stays where it is along a run. -/
theorem log_of_run (h : logSystem.Run s₀ tr) :
    (last s₀ tr).log.start = s₀.log.start ∧ (last s₀ tr).log.dev = s₀.log.dev := by
  induction h with
  | nil => exact ⟨rfl, rfl⟩
  | cons _ hstep ih =>
    obtain ⟨h₁, h₂⟩ := LogState.exec_start hstep
    exact ⟨h₁.trans ih.1, h₂.trans ih.2⟩

/-- Nothing is logged during a commit. -/
theorem lastLogged_commitStart (h₀ : s₀ ∈ logSystem.init) (h : logSystem.Run s₀ tr)
    (hpc : (last s₀ tr).pc ≠ .idle) :
    lastLogged s₀ (commitStart tr) = lastLogged s₀ tr := by
  induction h with
  | nil => rfl
  | cons hrun hstep ih =>
    rename_i tr a s
    have hinv := inv_of_run h₀ hrun
    have hinv' := inv_of_run h₀ (.cons hrun hstep)
    rw [commitStart]
    split
    · rfl
    · rename_i hns
      cases a with
      | endOp p => exact absurd (hinv'.log.committing.2 hpc) hns
      | logWrite r =>
        -- An operation is in progress, so there is no commit.
        refine absurd (LogState.exec_idle hstep ?_ fun p e => by cases e) hpc
        simp only [logSystem, LogState.exec, LogState.logWrite] at hstep
        split at hstep
        · rename_i hc
          obtain ⟨-, -, ⟨o, ho, -⟩, -⟩ := hc
          exact hinv.idle_of_op ho
        · cases hstep
      | _ => exact ih fun hidle => hpc (LogState.exec_idle hstep hidle fun p e => by cases e)

/-- A disk means what was logged when the last commit whose header is written
    started. -/
theorem recovered_eq_snapshot (h₀ : s₀ ∈ logSystem.init) (h : logSystem.Run s₀ tr) {b : ℕ}
    (hb : ¬InLog s₀.log.start b) :
    recovered (last s₀ tr).log.start (last s₀ tr).disk b = lastLogged s₀ (snapshot tr) b := by
  induction h with
  | nil => exact congrFun (recovered_of_count_eq_zero h₀.empty) b
  | cons hrun hstep ih =>
    rename_i tr a s
    have hinv := inv_of_run h₀ hrun
    rw [snapshot]
    have hrec := hinv.recovered_step hstep (by rwa [(log_of_run hrun).1])
    refine hrec.trans ?_
    split
    · rename_i hc
      rw [← lastLogged_commitStart h₀ hrun fun hidle => ?_]
      -- The header is not written outside a commit.
      cases a with
      | writeHead r =>
        have := LogState.exec_idle hstep hidle fun p e => by cases e
        simp [LogState.commits, this] at hc
      | _ => cases hc
    · exact ih

/-- **Operations are atomic across crashes.** At any point of any run, a recovery
    after a crash returns, and the blocks outside the log area have the contents of
    the file system at an earlier moment: the start of the last commit whose header
    was written, or the initial state. No operation was in progress at that moment,
    so that what it logged is recovered altogether or not at all. -/
theorem recover_eq_snapshot (h₀ : s₀ ∈ logSystem.init) (h : logSystem.Run s₀ tr) :
    snapshot tr <:+ tr ∧ (last s₀ (snapshot tr)).ops = [] ∧
      ∃ t, recoverFromLog (boot (last s₀ tr).log.dev (last s₀ tr).log.start (last s₀ tr).disk) =
          .ok ⟨⟩ t ∧
        ∀ b, ¬InLog (last s₀ tr).log.start b →
          t.disk b = (last s₀ (snapshot tr)).contents b ∧
            t.disk b = lastLogged s₀ (snapshot tr) b := by
  have hinv := inv_of_run h₀ h
  obtain ⟨t, ht, -, hd⟩ := recover_complete hinv.refs.dev_ne hinv.logWf
  refine ⟨snapshot_isSuffix tr, ops_snapshot h₀ h, t, ht, fun b hb => ?_⟩
  rw [(log_of_run h).1] at hb
  have hrec := (hd b (by rwa [(log_of_run h).1])).trans (recovered_eq_snapshot h₀ h hb)
  have hrun : logSystem.Run s₀ (snapshot tr) := h.suffix (snapshot_isSuffix tr)
  refine ⟨hrec.trans ?_, hrec⟩
  exact ((inv_of_run h₀ hrun).contents_eq (ops_snapshot h₀ h)
    (by rwa [(log_of_run hrun).1])).symm

/-- A crash in the middle of a commit, after the header was written. -/
theorem recover_during_install : ∃ tr, logSystem.Run freshState tr ∧
    (last freshState tr).pc = .install 1 ∧ (last freshState (snapshot tr)).ops = [] ∧
    ∃ t, recoverFromLog (boot (last freshState tr).log.dev (last freshState tr).log.start
        (last freshState tr).disk) = .ok ⟨⟩ t ∧
      t.disk 40 = (last freshState (snapshot tr)).contents 40 := by
  obtain ⟨tr, hrun, hP⟩ := System.exists_run toOption_exec freshState (writeActs ++ commitActs)
    (fun tr => (last freshState tr).pc = .install 1 ∧ (last freshState tr).log.start = 2)
    (by decide)
  obtain ⟨hpc, hstart⟩ := of_decide_eq_true hP
  obtain ⟨-, hops, t, ht, hd⟩ := recover_eq_snapshot freshState_mem_init hrun
  exact ⟨tr, hrun, hpc, hops, t, ht, (hd 40 (by rw [hstart]; decide)).1⟩

end Xv6
