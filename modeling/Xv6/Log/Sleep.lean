import Xv6.Log.Atomic

/-!
# Waiting for the log

A process that calls `begin_op` sleeps on `&log` while a commit is in progress, or while the
log might not have room for its operation (`LogState.MustWait`). It is woken by the end of
another operation and by the end of a commit, and then tests again. Here the sleeping processes
are added to the log system: testing and going to sleep is one step under `log.lock`, and so
are the critical sections that wake processes up.

In every run (`log_no_lost_wakeup`), a process that sleeps on `&log` still has to wait, and
nobody sleeps when no operation and no commit is in progress.
-/

namespace Xv6

/-- The log system, and the processes that sleep on `&log`. -/
structure LogProcs where
  state : LogState
  asleep : ℕ → Bool

/-- A step of the log system; or `begin_op` finds that it has to wait; or `kkill` wakes a
    process, which then tests again. -/
inductive SleepAct
  | log (a : LogAct)
  | sleep (p : ℕ)
  | kkill (p : ℕ)

namespace LogState

/-- The condition under which `begin_op` sleeps. -/
def MustWait (s : LogState) : Prop :=
  s.log.committing = true ∨ logBlocks < s.log.lh.n + (s.log.outstanding + 1) * maxOpBlocks

instance (s : LogState) : Decidable s.MustWait := inferInstanceAs (Decidable (_ ∨ _))

/-- The process that takes a step. -/
def actor (s : LogState) : LogAct → ℕ
  | .bget p _ | .beginOp p | .endOp p => p
  | .acquire r | .fill r | .modify r _ | .unlock r | .drop r | .logWrite r => r.pid
  | .writeLog _ _ | .writeHead _ | .install _ _ | .clear | .finish => s.committer

/-- The step calls `wakeup(&log)`: the end of an operation that is not the last one, and the
    end of a commit. -/
def Wakes (s : LogState) : LogAct → Prop
  | .endOp _ => s.log.outstanding - 1 ≠ 0
  | .finish => True
  | _ => False

instance (s : LogState) (a : LogAct) : Decidable (s.Wakes a) := by
  cases a <;> unfold Wakes <;> infer_instance

end LogState

namespace LogProcs

/-- Take a step. A process that sleeps takes none. -/
def exec (s : LogProcs) : SleepAct → Option LogProcs
  | .log a =>
    if s.asleep (s.state.actor a) then none
    else
      match s.state.exec a with
      | .ok t => some ⟨t, if s.state.Wakes a then fun _ => false else s.asleep⟩
      | .error _ => none
  | .sleep p =>
    if s.asleep p = false ∧ (∀ o ∈ s.state.ops, o.pid ≠ p) ∧ s.state.MustWait then
      some { s with asleep := Function.update s.asleep p true }
    else none
  | .kkill p => some { s with asleep := Function.update s.asleep p false }

/-- Who sleeps on `&log` has to wait, and nobody does when nothing is in progress. -/
def NoLostWakeup (s : LogProcs) : Prop :=
  (∀ p, s.asleep p = true → s.state.MustWait) ∧
    (s.state.log.outstanding = 0 → s.state.log.committing = false → ∀ p, s.asleep p = false)

end LogProcs

/-- The log system with its sleeping processes. -/
def sleepSystem : System LogProcs SleepAct where
  init := {s | s.state.Initial ∧ s.asleep = fun _ => false}
  step s a s' := s.exec a = some s'

namespace LogState

variable {s t : LogState} {L : Disk} {a : LogAct}

/-- A step that does not wake the sleeping processes leaves them waiting. -/
theorem MustWait.step (hm : s.MustWait) (hi : s.Inv L) (hs : s.exec a = .ok t) (hw : ¬s.Wakes a) :
    t.MustWait := by
  cases a with
  | bget p b =>
    simp only [exec, bget] at hs
    split at hs
    · split at hs
      · cases hs
      · cases hs
        exact hm
    · cases hs
  | beginOp p =>
    simp only [exec, beginOp] at hs
    split at hs
    · cases hs
    · rename_i hno
      exact absurd hm fun hm => hno (.inr hm)
  | logWrite r =>
    simp only [exec, logWrite] at hs
    split at hs
    · split at hs
      · cases hs
      · split at hs
        · cases hs
        · cases hs
          -- The log only gets fuller.
          refine hm.imp id fun hfull => ?_
          dsimp only
          split <;> omega
    · cases hs
  | endOp p =>
    simp only [exec, endOp] at hs
    split at hs
    · cases hs
    · split at hs
      · cases hs
      · split at hs
        · cases hs
        · split at hs
          · cases hs
            exact .inl rfl
          · rename_i hlast
            exact absurd hlast hw
  | clear =>
    simp only [exec, clear] at hs
    split at hs
    · rename_i tail hpc
      split at hs
      · cases hs
      · cases hs
        refine .inl ((hi.log.committing).2 ?_)
        rw [hpc]
        exact CommitPc.noConfusion
    · cases hs
  | finish => exact absurd trivial hw
  | writeLog dst src =>
    simp only [exec, writeLog] at hs
    split at hs
    · split at hs
      · cases hs
        exact hm
      · cases hs
    · cases hs
  | writeHead r =>
    simp only [exec, writeHead] at hs
    split at hs
    · split at hs
      · split at hs
        · cases hs
        · cases hs
          exact hm
      · cases hs
        exact hm
      · cases hs
    · cases hs
  | install src dst =>
    simp only [exec, install] at hs
    split at hs
    · split at hs
      · cases hs
        exact hm
      · cases hs
    · cases hs
  | acquire r | fill r | modify r d | unlock r | drop r =>
    simp only [exec, acquire, fill, modify, unlock, drop] at hs
    split at hs
    · cases hs
      exact hm
    · cases hs

/-- When nothing is in progress, the log is empty. -/
def Settled (s : LogState) : Prop := s.ops = [] → s.pc = .idle → s.log.lh.n = 0

theorem Settled.step (h : s.Settled) (hi : s.Inv L) (hs : s.exec a = .ok t) : t.Settled := by
  intro hops hpc
  cases a with
  | beginOp p =>
    simp only [exec, beginOp] at hs
    split at hs <;> cases hs
    cases hops
  | logWrite r =>
    simp only [exec, logWrite] at hs
    split at hs
    · rename_i hc
      obtain ⟨-, -, ⟨o, ho, -⟩, -⟩ := hc
      split at hs
      · cases hs
      · split at hs <;> cases hs
        rw [noteLogged, List.map_eq_nil_iff] at hops
        rw [hops] at ho
        cases ho
    · cases hs
  | endOp p =>
    simp only [exec, endOp] at hs
    split at hs
    · cases hs
    · rename_i o ho
      split at hs
      · cases hs
      · split at hs
        · cases hs
        · split at hs
          · cases hs
            dsimp only at hpc
            split at hpc <;> cases hpc
          · rename_i hlast
            cases hs
            -- Another operation is in progress.
            have hlen := List.length_erase_of_mem (List.mem_of_find?_eq_some ho)
            rw [(by exact hops : s.ops.erase o = []), ← hi.log.outstanding] at hlen
            exact absurd hlen.symm hlast
  | finish =>
    simp only [exec, finish] at hs
    split at hs
    · rename_i hfin
      cases hs
      have := hi.log.onDisk
      rw [hfin] at this
      exact this.1
    · cases hs
  | clear =>
    simp only [exec, clear] at hs
    split at hs
    · split at hs <;> cases hs
      rfl
    · cases hs
  | writeLog dst src =>
    simp only [exec, writeLog] at hs
    split at hs
    · split at hs <;> cases hs
      cases hpc
    · cases hs
  | writeHead r =>
    simp only [exec, writeHead] at hs
    split at hs
    · split at hs
      · split at hs <;> cases hs
        cases hpc
      · cases hs
        cases hpc
      · cases hs
    · cases hs
  | install src dst =>
    simp only [exec, install] at hs
    split at hs
    · split at hs <;> cases hs
      cases hpc
    · cases hs
  | bget p b =>
    simp only [exec, bget] at hs
    split at hs
    · split at hs <;> cases hs
      exact h hops hpc
    · cases hs
  | acquire r | fill r | modify r d | unlock r | drop r =>
    simp only [exec, acquire, fill, modify, unlock, drop] at hs
    split at hs <;> cases hs
    exact h hops hpc

end LogState

namespace LogProcs

variable {s t : LogProcs} {a : SleepAct}

/-- The invariant: that of the log, and that the processes that sleep have to wait. -/
structure Inv (s : LogProcs) : Prop where
  log : ∃ L, s.state.Inv L
  settled : s.state.Settled
  waits : ∀ p, s.asleep p = true → s.state.MustWait

theorem Inv.step (h : s.Inv) (hs : s.exec a = some t) : t.Inv := by
  obtain ⟨L, hL⟩ := h.log
  cases a with
  | log a =>
    simp only [exec] at hs
    split at hs
    · cases hs
    · split at hs
      · rename_i u hu
        cases hs
        refine ⟨⟨_, hL.step hu⟩, h.settled.step hL hu, fun p hp => ?_⟩
        dsimp only at hp
        split at hp
        · cases hp
        · rename_i hw
          exact (h.waits p hp).step hL hu hw
      · cases hs
  | sleep p =>
    obtain ⟨⟨-, -, hm⟩, hs⟩ := Option.ite_none_right_eq_some.1 hs
    cases hs
    exact ⟨h.log, h.settled, fun _ _ => hm⟩
  | kkill p =>
    cases hs
    refine ⟨h.log, h.settled, fun q hq => ?_⟩
    change Function.update s.asleep p false q = true at hq
    by_cases hqp : q = p
    · subst hqp
      rw [Function.update_self] at hq
      cases hq
    · rw [Function.update_of_ne hqp] at hq
      exact h.waits q hq

theorem Inv.noLostWakeup (h : s.Inv) : s.NoLostWakeup := by
  refine ⟨h.waits, fun ho hc p => ?_⟩
  obtain ⟨L, hL⟩ := h.log
  have hops : s.state.ops = [] := List.length_eq_zero_iff.1 (hL.log.outstanding.symm.trans ho)
  have hpc : s.state.pc = .idle := by
    by_contra hne
    rw [hL.log.committing.2 hne] at hc
    cases hc
  have hn := h.settled hops hpc
  by_contra hp
  rcases h.waits p (eq_true_of_ne_false hp) with hcom | hfull
  · rw [hc] at hcom
    cases hcom
  · rw [hn, ho] at hfull
    exact absurd hfull (by decide)

end LogProcs

/-- **No lost wakeup in the log.** In every run, a process that sleeps on `&log` has to wait,
    for a commit or for room in the log; and no process sleeps on it when no operation and no
    commit is in progress. -/
theorem log_no_lost_wakeup {s₀ : LogProcs} {tr : List (SleepAct × LogProcs)}
    (h₀ : s₀ ∈ sleepSystem.init) (h : sleepSystem.Run s₀ tr) :
    System.Throughout LogProcs.NoLostWakeup s₀ tr := by
  obtain ⟨hinit, hasleep⟩ := h₀
  refine h.throughout (Q := LogProcs.Inv) (C := fun _ _ => True) ?_ (fun s a t hi hs _ => hi.step hs)
    (fun s hi => hi.noLostWakeup) (System.along_of_forall (fun _ _ => trivial) _ _)
  refine ⟨⟨_, hinit.inv⟩, fun _ _ => hinit.count, fun p hp => ?_⟩
  rw [hasleep] at hp
  cases hp

/-- A process that finds a commit in progress sleeps until it ends. -/
theorem log_no_lost_wakeup_commit : ∃ tr, sleepSystem.Run ⟨freshState, fun _ => false⟩ tr ∧
    (System.last ⟨freshState, fun _ => false⟩ tr).asleep 1 = true ∧
    System.Throughout LogProcs.NoLostWakeup ⟨freshState, fun _ => false⟩ tr := by
  obtain ⟨tr, hrun, hP⟩ := System.exists_run (m := sleepSystem) (fun _ _ _ hs => hs)
    ⟨freshState, fun _ => false⟩ [.log (.beginOp 0), .log (.endOp 0), .sleep 1]
    (fun tr => (System.last ⟨freshState, fun _ => false⟩ tr).asleep 1) (by decide)
  exact ⟨tr, hrun, hP, log_no_lost_wakeup ⟨freshState_mem_init, rfl⟩ hrun⟩

end Xv6
