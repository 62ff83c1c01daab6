import Mathlib
import Xv6.Log.Atomic

/-!
# Log space

`begin_op` admits an operation only when the log can hold the blocks logged so far
and `maxOpBlocks` more for each operation in progress. For operations that log at
most that many distinct blocks, each operation in progress has the rest of its
share reserved in the log (`LogState.Reserved`), whatever was absorbed and whatever
operations have ended in between. So the log is never full when an operation logs
a new block (`log_space`).
-/

namespace Xv6

open Xv6.System (last)

namespace LogState

variable {s s' : LogState} {a : LogAct} {L : Disk}

/-- What an operation may still log. -/
def room (o : Op) : ℕ := maxOpBlocks - o.logged.length

/-- The action does not make an operation log more than `maxOpBlocks` distinct
    blocks. -/
def Within (s : LogState) : LogAct → Prop
  | .logWrite r => ∀ o ∈ s.ops, o.pid = r.pid →
      s.blockOf r ∈ o.logged ∨ o.logged.length < maxOpBlocks
  | _ => True

/-- The log has room for what the operations in progress may still log. -/
structure Reserved (s : LogState) : Prop where
  fits : s.log.lh.n + (s.ops.map room).sum ≤ logBlocks
  logged : ∀ o ∈ s.ops, ∀ b ∈ o.logged, ∃ k < s.log.lh.n, s.log.lh.block k = b

theorem room_insert_le (o : Op) (b : ℕ) :
    room { o with logged := o.logged.insert b } ≤ room o := by
  have : o.logged.length ≤ (o.logged.insert b).length := List.length_le_length_insert
  simp only [room]
  omega

/-- A new block takes one place of the share of the operation. -/
theorem room_insert_lt {o : Op} {b : ℕ} (hb : b ∉ o.logged) (ho : o.logged.length < maxOpBlocks) :
    room { o with logged := o.logged.insert b } < room o := by
  simp only [room, List.insert_of_not_mem hb, List.length_cons]
  omega

/-- The blocks logged stay those of the transaction if no operation logs. -/
theorem Reserved.of_ops (h : s.Reserved) {ops' : List Op} (hsub : ops'.Sublist s.ops) :
    s.log.lh.n + (ops'.map room).sum ≤ logBlocks ∧
      ∀ o ∈ ops', ∀ b ∈ o.logged, ∃ k < s.log.lh.n, s.log.lh.block k = b := by
  have := (hsub.map room).sum_le_sum fun _ _ => Nat.zero_le _
  exact ⟨(Nat.add_le_add_left this _).trans h.fits, fun o ho => h.logged o (hsub.subset ho)⟩

theorem Reserved.beginOp {p : ℕ} (h : s.Reserved) (hinv : s.Inv L) (hs : s.beginOp p = .ok s') :
    s'.Reserved := by
  unfold LogState.beginOp at hs
  split at hs
  · cases hs
  · rename_i hc
    cases hs
    have hsum : (s.ops.map room).sum ≤ (s.ops.map room).length • maxOpBlocks :=
      List.sum_le_card_nsmul _ maxOpBlocks fun x hx => by
        obtain ⟨o, -, rfl⟩ := List.mem_map.1 hx
        exact Nat.sub_le _ _
    rw [List.length_map, ← hinv.log.outstanding, smul_eq_mul] at hsum
    have hle : s.log.lh.n + (s.log.outstanding + 1) * maxOpBlocks ≤ logBlocks :=
      Nat.le_of_not_lt fun hlt => hc (.inr (.inr hlt))
    refine ⟨?_, fun o ho => ?_⟩
    · have hroom : room ⟨p, []⟩ = maxOpBlocks := rfl
      rw [Nat.succ_mul] at hle
      dsimp only
      rw [List.map_cons, List.sum_cons, hroom]
      omega
    · rcases List.mem_cons.1 ho with rfl | ho
      · exact fun b hb => absurd hb List.not_mem_nil
      · exact h.logged o ho

/-- Logging a block: a new one takes a place that was reserved for it. -/
theorem Reserved.logWrite {r : Ref} (h : s.Reserved) (hw : s.Within (.logWrite r))
    (hs : s.logWrite r = .ok s') : s'.Reserved := by
  unfold LogState.logWrite at hs
  split at hs
  swap
  · cases hs
  rename_i hc
  obtain ⟨-, -, ⟨o, ho, hpid⟩, -⟩ := hc
  split at hs
  · cases hs
  split at hs
  · cases hs
  cases hs
  set b := s.blockOf r
  have hnote : (s.noteLogged r.pid b).map room =
      s.ops.map fun o => if o.pid = r.pid then room { o with logged := o.logged.insert b }
        else room o := by
    rw [noteLogged, List.map_map]
    exact List.map_congr_left fun x _ => by simp only [Function.comp]; split <;> rfl
  have hle : ∀ x ∈ s.ops, (if x.pid = r.pid then room { x with logged := x.logged.insert b }
      else room x) ≤ room x := fun x _ => by
    split
    exacts [room_insert_le x b, le_rfl]
  have hidx := Inv.logIndex_cases s b
  have hlogged : ∀ x ∈ s.noteLogged r.pid b, ∀ c ∈ x.logged,
      ∃ k < if s.logIndex b = s.log.lh.n then s.log.lh.n + 1 else s.log.lh.n,
        Function.update s.log.lh.block (s.logIndex b) b k = c := fun x hx c hcx => by
    have hin : ∀ o ∈ s.ops, c ∈ o.logged → c ∈ (List.range s.log.lh.n).map s.log.lh.block :=
      fun o ho hc => by
        obtain ⟨k, hk, e⟩ := h.logged o ho c hc
        exact List.mem_map.2 ⟨k, List.mem_range.2 hk, e⟩
    have hcase : c = b ∨ c ∈ (List.range s.log.lh.n).map s.log.lh.block := by
      obtain ⟨o', ho', rfl⟩ := List.mem_map.1 hx
      split at hcx
      · exact (List.mem_insert_iff.1 hcx).imp_right (hin o' ho')
      · exact .inr (hin o' ho' hcx)
    have hmem := (Inv.mem_pins_logged s.log.lh hidx c).2 hcase
    obtain ⟨k, hk, e⟩ := List.mem_map.1 hmem
    exact ⟨k, List.mem_range.1 hk, e⟩
  have hold := h.fits
  refine ⟨?_, hlogged⟩
  dsimp only
  rw [hnote]
  rcases hidx with ⟨hi, hnew⟩ | ⟨hi, hin⟩
  · -- The block is in no operation's share yet.
    have hb : b ∉ o.logged := fun hb => by
      obtain ⟨k, hk, e⟩ := h.logged o ho b hb
      exact hnew k hk e
    have hlt := List.sum_lt_sum _ _ hle ⟨o, ho, by
      rw [if_pos hpid]
      exact room_insert_lt hb ((hw o ho hpid).resolve_left hb)⟩
    rw [if_pos hi]
    omega
  · have hsum := List.sum_le_sum hle
    rw [if_neg hi.ne]
    omega

/-- When an operation logs a block that is not in the log, it has a place left of its share,
    so that the log is not full. -/
theorem Reserved.not_full {o : Op} {b : ℕ} (h : s.Reserved) (ho : o ∈ s.ops)
    (hw : b ∈ o.logged ∨ o.logged.length < maxOpBlocks)
    (hnew : ∀ k < s.log.lh.n, s.log.lh.block k ≠ b) : s.log.lh.n < logBlocks := by
  have hb : b ∉ o.logged := fun hb => by
    obtain ⟨k, hk, e⟩ := h.logged o ho _ hb
    exact hnew k hk e
  have hlt := hw.resolve_left hb
  have hle : room o ≤ (s.ops.map room).sum :=
    List.single_le_sum (fun _ _ => Nat.zero_le _) _ (List.mem_map_of_mem ho)
  have := h.fits
  simp only [room] at this hle
  omega

/-- Every step within the limit keeps the reservation. -/
theorem Reserved.step (h : s.Reserved) (hinv : s.Inv L) (hw : s.Within a)
    (hs : s.exec a = .ok s') : s'.Reserved := by
  cases a with
  | beginOp p => exact h.beginOp hinv hs
  | logWrite r => exact h.logWrite hw hs
  | endOp p =>
    simp only [exec, LogState.endOp] at hs
    split at hs
    · cases hs
    · rename_i o ho
      obtain ⟨h₁, h₂⟩ := h.of_ops (List.erase_sublist (a := o) (l := s.ops))
      repeat' split at hs
      all_goals cases hs <;> exact ⟨h₁, h₂⟩
  | clear =>
    simp only [exec, LogState.clear] at hs
    split at hs
    swap
    · cases hs
    rename_i tail hpc
    split at hs
    · cases hs
    · cases hs
      -- No operation is in progress during a commit.
      have hops : s.ops = [] := hinv.log.quiet (by rw [hpc]; exact CommitPc.noConfusion)
      refine ⟨?_, fun o ho => ?_⟩
      · dsimp only
        rw [hops]
        exact Nat.zero_le _
      · dsimp only at ho
        rw [hops] at ho
        cases ho
  | _ =>
    simp only [exec, bget, acquire, fill, modify, unlock, drop, writeLog, writeHead, install,
      finish] at hs
    repeat' split at hs
    all_goals cases hs <;> exact ⟨h.fits, h.logged⟩

end LogState

open LogState in
/-- The reservation holds in every state reachable within the limit. -/
theorem reserved_of_reachable {s : LogState} (h : (logSystem.restrict Within).Reachable s) :
    s.Reserved ∧ ∃ L, s.Inv L := by
  refine h.invariant (P := fun s => s.Reserved ∧ ∃ L, s.Inv L) (fun s hs => ?_)
    (fun s a s' hP hstep => ?_)
  · refine ⟨⟨?_, fun o ho => ?_⟩, s.disk, hs.inv⟩
    · rw [hs.count, hs.ops]
      exact Nat.zero_le _
    · rw [hs.ops] at ho
      cases ho
  · obtain ⟨hres, L, hinv⟩ := hP
    exact ⟨hres.step hinv hstep.2 hstep.1, _, hinv.step hstep.1⟩

/-- The block `b` is pinned in the cache `times` times: its buffer counts so many
    references besides those of the processes. -/
def LogState.PinnedTimes (s : LogState) (b times : ℕ) : Prop :=
  ∃ i ∈ s.cache.lru, s.cache.Holds s.log.dev b i ∧
    (s.cache.buf i).refcnt = s.refs.countP (fun r => r.idx = i) + times

/-- **Log space.** With operations that log at most `maxOpBlocks` distinct blocks,
    whatever the interleaving: the blocks of the transaction and what the operations
    in progress may still log fit in the log; the blocks of the transaction are
    distinct, each pinned exactly once until `install_trans` has installed it; and
    when an operation logs a block that is not in the log, the log is not full. -/
theorem log_space {s : LogState} (h : (logSystem.restrict LogState.Within).Reachable s) :
    s.log.lh.n + (s.ops.map fun o => maxOpBlocks - o.logged.length).sum ≤ logBlocks ∧
      (∀ j < s.log.lh.n, ∀ k < s.log.lh.n, s.log.lh.block j = s.log.lh.block k → j = k) ∧
      (∀ k < s.log.lh.n, s.installed ≤ k → s.PinnedTimes (s.log.lh.block k) 1) ∧
      ∀ r ∈ s.refs, (∃ o ∈ s.ops, o.pid = r.pid) → s.Within (.logWrite r) →
        (∀ k < s.log.lh.n, s.log.lh.block k ≠ s.blockOf r) → s.log.lh.n < logBlocks := by
  obtain ⟨hres, L, hinv⟩ := reserved_of_reachable h
  refine ⟨hres.fits, hinv.log.distinct, fun k hk hki => ?_, fun r hr ⟨o, ho, hpid⟩ hw hnew => ?_⟩
  · have hpin : s.log.lh.block k ∈ s.pins := (LogState.Inv.mem_pins s).2 ⟨k, hki, hk, rfl⟩
    obtain ⟨i, hi, hh, -⟩ := hinv.refs.cached _ hpin
    refine ⟨i, hi, hh, ?_⟩
    rw [hinv.refs.refcnt i hi, if_pos ⟨hh.1, hh.2 ▸ hpin⟩]
  · exact hres.not_full ho (hw o ho hpid) hnew

/-- The steps within the limit, executed. -/
def withinExec (s : LogState) (a : LogAct) : Option LogState :=
  match a with
  | .logWrite r =>
    if ∀ o ∈ s.ops, o.pid = r.pid → s.blockOf r ∈ o.logged ∨ o.logged.length < maxOpBlocks then
      (s.logWrite r).toOption
    else none
  | _ => (s.exec a).toOption

theorem withinExec_step (s : LogState) (a : LogAct) (s' : LogState)
    (h : withinExec s a = some s') : (logSystem.restrict LogState.Within).step s a s' := by
  cases a with
  | logWrite r =>
    simp only [withinExec] at h
    split at h
    · exact ⟨toOption_exec _ _ _ h, by assumption⟩
    · cases h
  | _ => exact ⟨toOption_exec _ _ _ h, trivial⟩

theorem freshState_mem_init_restrict :
    freshState ∈ (logSystem.restrict LogState.Within).init := freshState_mem_init

/-- After an operation that logs one block, the block is pinned once. -/
theorem log_space_after_write : ∃ s, (logSystem.restrict LogState.Within).Reachable s ∧
    s.log.lh.n = 1 ∧ s.PinnedTimes (s.log.lh.block 0) 1 := by
  obtain ⟨tr, hrun, hP⟩ := System.exists_run withinExec_step freshState writeActs
    (fun tr => (last freshState tr).log.lh.n = 1 ∧ (last freshState tr).installed = 0)
    (by decide)
  obtain ⟨hn, hi⟩ := of_decide_eq_true hP
  have hreach := hrun.reachable freshState_mem_init_restrict
  exact ⟨_, hreach, hn, (log_space hreach).2.2.1 0 (hn ▸ Nat.one_pos) hi.le⟩

/-- During `install_trans` the log still counts blocks that it has unpinned. -/
theorem unpinned_during_install : ¬∀ s, (logSystem.restrict LogState.Within).Reachable s →
    ∀ k < s.log.lh.n, s.PinnedTimes (s.log.lh.block k) 1 := by
  intro h
  obtain ⟨tr, hrun, hP⟩ := System.exists_run withinExec_step freshState (writeActs ++ commitActs)
    (fun tr =>
      let s := last freshState tr
      s.log.lh.n = 1 ∧ ∀ i ∈ s.cache.lru, s.cache.Holds s.log.dev (s.log.lh.block 0) i →
        (s.cache.buf i).refcnt ≠ s.refs.countP (fun r => r.idx = i) + 1)
    (by decide)
  obtain ⟨hn, hno⟩ := of_decide_eq_true hP
  obtain ⟨i, hi, hh, e⟩ := h _ (hrun.reachable freshState_mem_init_restrict) 0 (hn ▸ Nat.one_pos)
  exact hno i hi hh e

end Xv6
