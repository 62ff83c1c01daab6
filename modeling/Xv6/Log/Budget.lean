import Xv6.Log.Reserve

/-!
# Absorbed writes

An operation may log the same block any number of times: `log_write` finds the block in the log,
and takes no further place there. But it looks for room first. When the operations in progress have
used all of the log, each within its share, the panic `too big a transaction` refuses a block that
is in the log already (`log_write_refuses_absorbed`).

This is the only case: within the limit, `log_write` panics for want of room exactly if it is called
for a block of a log that is full (`log_write_within_budget`).
-/

namespace Xv6

open Xv6.System (last)

namespace LogState

/-- The process has the buffer and is in an operation, so that it may call `log_write`. -/
def Logs (s : LogState) (r : Ref) : Prop :=
  r ∈ s.refs ∧ r.phase = .ready ∧ (∃ o ∈ s.ops, o.pid = r.pid) ∧ ¬InLog s.log.start (s.blockOf r)

/-- The block of the buffer is in the log. -/
def Absorbed (s : LogState) (r : Ref) : Prop :=
  ∃ k < s.log.lh.n, s.log.lh.block k = s.blockOf r

instance decidableLogs (s : LogState) (r : Ref) : Decidable (s.Logs r) :=
  inferInstanceAs (Decidable (_ ∧ _))

instance decidableAbsorbed (s : LogState) (r : Ref) : Decidable (s.Absorbed r) :=
  inferInstanceAs (Decidable (∃ k < _, _))

/-- A block that is in the log is logged again only while the log has room for another one. -/
def Fits (s : LogState) : LogAct → Prop
  | .logWrite r => s.Logs r → s.Absorbed r → s.log.lh.n < logBlocks
  | _ => True

variable {s : LogState} {a : LogAct} {r : Ref}

/-- The capacity test of `log_write`. -/
theorem logWrite_eq_tooBig_iff :
    s.logWrite r = .error .panicTooBig ↔ s.Logs r ∧ logBlocks ≤ s.log.lh.n := by
  unfold logWrite
  split_ifs with hlogs hfull hout
  · exact iff_of_true rfl ⟨hlogs, hfull⟩
  · exact iff_of_false (fun h => by cases h) fun h => hfull h.2
  · exact iff_of_false (fun h => by cases h) fun h => hfull h.2
  · exact iff_of_false (fun h => by cases h) fun h => hlogs h.1

/-- No other step has this panic. -/
theorem exec_ne_tooBig (h : ∀ r, a ≠ .logWrite r) : s.exec a ≠ .error .panicTooBig := by
  intro hs
  cases a with
  | logWrite r => exact h r rfl
  | _ =>
    simp only [exec, bget, acquire, fill, modify, unlock, drop, beginOp, endOp, writeLog, writeHead,
      install, clear, finish] at hs
    repeat' split at hs
    all_goals cases hs

end LogState

/-- In every state that operations can reach of which each logs at most `maxOpBlocks` distinct
    blocks, and for every further step within this limit, `log_write` does not panic for want of
    room, unless its block is in the log and the log is full. -/
theorem log_write_within_budget {s : LogState}
    (h : (logSystem.restrict LogState.Within).Reachable s) {a : LogAct} (hw : s.Within a) :
    s.exec a ≠ .error .panicTooBig ↔ s.Fits a := by
  obtain ⟨hres, -⟩ := reserved_of_reachable h
  cases a with
  | logWrite r =>
    rw [LogState.exec, Ne, LogState.logWrite_eq_tooBig_iff]
    constructor
    · exact fun hno hlogs _ => Nat.lt_of_not_le fun hfull => hno ⟨hlogs, hfull⟩
    · rintro hfits ⟨hlogs, hfull⟩
      obtain ⟨o, ho, hpid⟩ := hlogs.2.2.1
      by_cases habs : s.Absorbed r
      · exact absurd (hfits hlogs habs) (Nat.not_lt.2 hfull)
      · -- A new block has its place in the share of the operation.
        have hroom := hres.not_full ho (hw o ho hpid) fun k hk e => habs ⟨k, hk, e⟩
        exact absurd hroom (Nat.not_lt.2 hfull)
  | _ => exact iff_of_true (LogState.exec_ne_tooBig fun r => LogAct.noConfusion) trivial

/-- Three operations, each of which logs ten blocks. -/
def fullActs : List LogAct :=
  [.beginOp 0, .beginOp 1, .beginOp 2] ++
    (List.range logBlocks).flatMap fun i =>
      breadActs (i / maxOpBlocks) (40 + i) i ++ [.logWrite ⟨i / maxOpBlocks, 40 + i, i, .ready, false⟩]

/-- Then the log is full, and the last operation may log its last block again. -/
theorem exists_full_log : ∃ s r, (logSystem.restrict LogState.Within).Reachable s ∧
    s.Within (.logWrite r) ∧ s.Logs r ∧ s.Absorbed r ∧ logBlocks ≤ s.log.lh.n := by
  obtain ⟨tr, hrun, hP⟩ := System.exists_run withinExec_step freshState fullActs
    (fun tr =>
      let s := last freshState tr
      let r : Ref := ⟨2, 69, 29, .ready, false⟩
      (∀ o ∈ s.ops, o.pid = r.pid → s.blockOf r ∈ o.logged) ∧ s.Logs r ∧ s.Absorbed r ∧
        logBlocks ≤ s.log.lh.n)
    (by decide)
  obtain ⟨hw, hlogs, habs, hfull⟩ := of_decide_eq_true hP
  exact ⟨_, _, hrun.reachable freshState_mem_init_restrict, fun o ho hpid => .inl (hw o ho hpid),
    hlogs, habs, hfull⟩

/-- The panic is reached. -/
theorem log_write_within_budget_full : ∃ s a, (logSystem.restrict LogState.Within).Reachable s ∧
    s.Within a ∧ ¬s.Fits a ∧ s.exec a = .error .panicTooBig := by
  obtain ⟨s, r, hreach, hw, hlogs, habs, hfull⟩ := exists_full_log
  have hfits : ¬s.Fits (.logWrite r) := fun h => absurd (h hlogs habs) (Nat.not_lt.2 hfull)
  exact ⟨s, .logWrite r, hreach, hw, hfits,
    of_not_not (mt (log_write_within_budget hreach hw).1 hfits)⟩

/-- A block that is in the log is refused for want of room. -/
theorem log_write_refuses_absorbed : ¬∀ s r, (logSystem.restrict LogState.Within).Reachable s →
    s.Within (.logWrite r) → s.Absorbed r → s.logWrite r ≠ .error .panicTooBig := by
  intro h
  obtain ⟨s, r, hreach, hw, hlogs, habs, hfull⟩ := exists_full_log
  exact h s r hreach hw habs (LogState.logWrite_eq_tooBig_iff.2 ⟨hlogs, hfull⟩)

end Xv6
