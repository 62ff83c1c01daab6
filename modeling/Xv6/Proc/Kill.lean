import Xv6.Proc.Wait

/-!
# kill

`kkill` looks for a slot with the given pid, and marks its process as killed. It does not
look at the state of the slot, and a free slot has the pid `0`: `kkill(0)` marks a free slot
and returns `0`. As `allocproc` does not reset the mark, the process that is forked into
the slot next is killed at once (`killed_at_birth`).

`kkill` marks only processes, and processes start unmarked, in exactly the runs in which no
`kkill(0)` finds a free slot (`kill_live_iff`).
-/

namespace Xv6

namespace ProcTable

variable {s t : ProcTable} {p q np : Fin nproc} {a : TableAct}

/-- The action is not a `kkill(0)` that finds a free slot. -/
def KillsLive (s : ProcTable) : TableAct → Prop
  | .kill pid => pid = 0 → ∀ q, s.killTarget 0 = some q → (s.slot q).state ≠ .unused
  | _ => True

instance (s : ProcTable) (a : TableAct) : Decidable (s.KillsLive a) := by
  cases a <;> unfold KillsLive <;> infer_instance

/-- Record for which slots `kkill` was called with the pid of the slot since it was
    allocated. -/
def noteKill (s : ProcTable) (a : TableAct) (hit : Fin nproc → Bool) : Fin nproc → Bool :=
  match a with
  | .fork _ np _ => Function.update hit np false
  | .kill pid => fun q => hit q || decide ((s.slot q).pid = pid)
  | _ => hit

/-- A `kkill` does not change a free slot, and returns `0` only for the pid of a process; and
    a process is not marked as killed when `kfork` makes it runnable, unless there was a
    `kkill` with its pid since it was allocated. -/
def KillOk (hit : Fin nproc → Bool) (s : ProcTable) (a : TableAct) (t : ProcTable) : Prop :=
  match a with
  | .kill pid => (∀ q, (s.slot q).state = .unused → t.slot q = s.slot q) ∧
      ((s.kkill pid).2 = 0 → ∃ q, (s.slot q).state ≠ .unused ∧ (s.slot q).pid = pid)
  | .forkRun p => ∀ np, (s.slot p).pc = .linked np → (t.slot np).killed = true → hit np = true
  | _ => True

instance (hit : Fin nproc → Bool) (s : ProcTable) (a : TableAct) (t : ProcTable) :
    Decidable (KillOk hit s a t) := by
  cases a <;> unfold KillOk <;> infer_instance

/-- The invariant: free slots have the pid `0` and are not marked, and a slot that is being
    forked is marked only by a `kkill` with its pid. -/
structure Marks (s : ProcTable) (hit : Fin nproc → Bool) : Prop where
  family : s.Family
  free : ∀ q, (s.slot q).state = .unused → (s.slot q).pid = 0 ∧ (s.slot q).killed = false
  used : ∀ q, (s.slot q).state = .used → (s.slot q).killed = true → hit q = true

/-- What a step other than `kkill` and `allocproc` does to the slots that are free or being
    forked. -/
def Unmarked (x y : Slot) : Prop :=
  (y.state = .unused → y = .free ∨ x.state = .unused ∧ y.pid = x.pid ∧ y.killed = x.killed) ∧
    (y.state = .used → x.state = .used ∧ y.killed = x.killed)

theorem Unmarked.refl (x : Slot) : Unmarked x x := ⟨fun h => .inr ⟨h, rfl, rfl⟩, fun h => ⟨h, rfl⟩⟩

theorem Unmarked.of_live {x y : Slot} (h : y.state.Live) : Unmarked x y :=
  ⟨fun hy => absurd hy h.ne_unused, fun hy => absurd hy h.ne_used⟩

theorem Unmarked.of_woken {x y : Slot} (h : Woken x y) : Unmarked x y := by
  refine ⟨fun hy => .inr ⟨?_, h.pid, h.killed⟩, fun hy => ⟨?_, h.killed⟩⟩
  · exact (h.state_eq (not_live_of_state (.inl hy))).trans hy
  · exact (h.state_eq (not_live_of_state (.inr (.inl hy)))).trans hy

theorem unmarked_set {x : Slot} (h : Unmarked (s.slot p) x) (q : Fin nproc) :
    Unmarked (s.slot q) ((s.set p x).slot q) := by
  by_cases hq : q = p
  · subst hq
    rwa [set_slot_self]
  · rw [set_slot_of_ne hq]
    exact .refl _

theorem unmarked_kwait {addr : ℕ} {ok : Bool} (hp : (s.slot p).state = .running) (q : Fin nproc) :
    Unmarked (s.slot q) ((s.kwait p addr ok).slot q) := by
  unfold kwait
  split
  · rename_i u _ _ hsc
    rcases s.scan_cases p addr ok with ⟨v, hv, -, hz⟩ | hv | ⟨hv, -⟩
    · rw [hv] at hsc
      cases hsc
      rw [set_goto_slot (ne_of_state hp hz ProcState.noConfusion)]
      split
      · exact .of_live (.inr (.inr hp))
      · split
        · exact ⟨fun _ => .inl rfl, fun h => by cases h⟩
        · exact .refl _
    · rw [hv] at hsc
      cases hsc
    · rw [hv] at hsc
      cases hsc
  · refine unmarked_set (.of_live ?_) q
    exact .inr (.inr hp)
  · exact unmarked_set (.of_live (.inl rfl)) q

/-- The slots that are free or being forked after a step. -/
theorem unmarked_exec (hf : s.Family) (hs : s.exec a = some t) (hk : ∀ pid, a ≠ .kill pid)
    (ha : ∀ p np ok, a ≠ .fork p np ok) (q : Fin nproc) : Unmarked (s.slot q) (t.slot q) := by
  cases a with
  | schedule p =>
    obtain ⟨hp, hs⟩ := Option.ite_none_right_eq_some.1 hs
    cases hs
    exact unmarked_set (.of_live (.inr (.inr rfl))) q
  | yield p =>
    obtain ⟨hp, hs⟩ := Option.ite_none_right_eq_some.1 hs
    cases hs
    exact unmarked_set (.of_live (.inr (.inl rfl))) q
  | sleep p n =>
    obtain ⟨hp, hs⟩ := Option.ite_none_right_eq_some.1 hs
    split at hs <;> cases hs <;> exact unmarked_set (.of_live (.inl rfl)) q
  | wakeup n =>
    cases hs
    exact .of_woken (woken_wakeup s _ _ q)
  | fork p np ok => exact absurd rfl (ha p np ok)
  | forkLink p =>
    obtain ⟨hp, hs⟩ := Option.ite_none_right_eq_some.1 hs
    split at hs
    · rename_i np hpc
      cases hs
      have hnp := hf.forks p np (.inl hpc)
      -- The child is still being made, and gets a parent only.
      rw [forkLink, set_goto_slot (ne_of_state hp hnp ProcState.noConfusion)]
      split
      · exact .of_live (.inr (.inr hp))
      · split
        · rename_i hq
          rw [hq]
          refine ⟨fun h => ?_, fun _ => ⟨hnp, rfl⟩⟩
          rw [hnp] at h
          cases h
        · exact .refl _
    · cases hs
  | forkRun p =>
    obtain ⟨hp, hs⟩ := Option.ite_none_right_eq_some.1 hs
    split at hs
    · rename_i np hpc
      cases hs
      have hnp := hf.forks p np (.inr hpc)
      rw [forkRun, set_goto_slot (ne_of_state hp hnp ProcState.noConfusion)]
      split
      · exact .of_live (.inr (.inr hp))
      · split
        · exact .of_live (.inr (.inl rfl))
        · exact .refl _
    · cases hs
  | exit p status =>
    obtain ⟨⟨hp, -, -⟩, hs⟩ := Option.ite_none_right_eq_some.1 hs
    cases hs
    refine unmarked_set (.of_live ?_) q
    exact .inr (.inr hp)
  | exitZombie p =>
    obtain ⟨hp, hs⟩ := Option.ite_none_right_eq_some.1 hs
    split at hs
    · rename_i status hpc
      cases hs
      have hi : p ≠ s.initproc := by
        rintro rfl
        exact hf.initPc status hpc
      have he := exited_kexit hi status
      -- The zombie is not alive, and the others are woken up at most.
      by_cases hq : q = p
      · rw [hq]
        have hz := he.self.1
        refine ⟨fun h => ?_, fun h => ?_⟩ <;> rw [hz] at h <;> cases h
      · exact .of_woken (he.woken q hq)
    · cases hs
  | wait p addr =>
    obtain ⟨⟨hp, -⟩, hs⟩ := Option.ite_none_right_eq_some.1 hs
    cases hs
    refine unmarked_set (.of_live ?_) q
    exact .inr (.inr hp)
  | scan p ok =>
    obtain ⟨hp, hs⟩ := Option.ite_none_right_eq_some.1 hs
    split at hs
    · cases hs
      exact unmarked_kwait hp q
    · cases hs
  | kill pid => exact absurd rfl (hk pid)
  | setkilled p =>
    obtain ⟨hp, hs⟩ := Option.ite_none_right_eq_some.1 hs
    cases hs
    refine unmarked_set (.of_live ?_) q
    exact .inr (.inr hp)

theorem Marks.unmarked {hit hit' : Fin nproc → Bool} (h : Marks s hit) (ht : t.Family)
    (hm : ∀ q, Unmarked (s.slot q) (t.slot q)) (hh : hit' = hit) : Marks t hit' := by
  subst hh
  refine ⟨ht, fun q hq => ?_, fun q hq hk => ?_⟩
  · rcases (hm q).1 hq with e | ⟨hs, hpid, hkil⟩
    · rw [e]
      exact ⟨rfl, rfl⟩
    · rw [hpid, hkil]
      exact h.free q hs
  · obtain ⟨hs, hkil⟩ := (hm q).2 hq
    exact h.used q hs (hkil ▸ hk)

theorem killTarget_pid {pid : ℤ} (h : s.killTarget pid = some q) : (s.slot q).pid = pid := by
  have := List.find?_some h
  exact of_decide_eq_true this

/-- The slot that `kkill` finds is that of a process. -/
theorem Marks.killTarget {hit : Fin nproc → Bool} {pid : ℤ} (h : Marks s hit)
    (hc : s.KillsLive (.kill pid)) (hq : s.killTarget pid = some q) :
    (s.slot q).state ≠ .unused := by
  by_cases hpid : pid = 0
  · subst hpid
    exact hc rfl q hq
  · intro hu
    exact hpid ((killTarget_pid hq).symm.trans (h.free q hu).1)

/-- A new slot is not marked, as it was free. -/
theorem Marks.forkAlloc {hit : Fin nproc → Bool} {ok : Bool} (h : Marks s hit)
    (ht : (s.forkAlloc p np ok).Family) (hp : (s.slot p).state = .running)
    (hnp : (s.slot np).state = .unused) :
    Marks (s.forkAlloc p np ok) (noteKill s (.fork p np ok) hit) := by
  have hne := ne_of_state hp hnp ProcState.noConfusion
  -- The slots other than `p` and `np`.
  have hother : ∀ q, q ≠ p → q ≠ np → (s.forkAlloc p np ok).slot q = s.slot q := by
    intro q hq hqn
    unfold ProcTable.forkAlloc
    cases ok <;> simp [goto, set, hq, hqn]
  have hself : (s.forkAlloc p np ok).slot p = { s.slot p with pc := ((s.forkAlloc p np ok).slot p).pc } := by
    unfold ProcTable.forkAlloc
    cases ok <;> simp [goto, set, hne.symm]
  have hnew : (s.forkAlloc p np ok).slot np = .free ∨
      (s.forkAlloc p np ok).slot np = { s.slot np with pid := s.nextpid, state := .used } := by
    unfold ProcTable.forkAlloc
    cases ok
    · left
      simp [set]
    · right
      simp [goto, set, hne]
  refine ⟨ht, fun q hq => ?_, fun q hq hk => ?_⟩
  · by_cases hqn : q = np
    · rw [hqn] at hq ⊢
      rcases hnew with e | e
      · rw [e]
        exact ⟨rfl, rfl⟩
      · rw [e] at hq
        cases hq
    · by_cases hqp : q = p
      · rw [hqp, hself] at hq
        rw [hp] at hq
        cases hq
      · rw [hother q hqp hqn] at hq ⊢
        exact h.free q hq
  · by_cases hqn : q = np
    · rw [hqn] at hq hk
      rcases hnew with e | e
      · rw [e] at hq
        cases hq
      · rw [e] at hk
        rw [(h.free np hnp).2] at hk
        cases hk
    · by_cases hqp : q = p
      · rw [hqp, hself] at hq
        rw [hp] at hq
        cases hq
      · rw [hother q hqp hqn] at hq hk
        simp only [noteKill, Function.update_of_ne hqn]
        exact h.used q hq hk

theorem Marks.step {hit : Fin nproc → Bool} (h : Marks s hit) (hs : s.exec a = some t)
    (hc : s.KillsLive a) : Marks t (noteKill s a hit) := by
  have ht : t.Family := h.family.step (h.family.effect hs)
  cases a with
  | kill pid =>
    cases hs
    unfold kkill at ht ⊢
    split
    · rename_i q hq
      have hlive := h.killTarget hc hq
      have hpid := killTarget_pid hq
      simp only [hq] at ht
      refine ⟨ht, fun r hr => ?_, fun r hr hk => ?_⟩
      · by_cases hrq : r = q
        · subst hrq
          rw [set_slot_self] at hr
          dsimp only at hr
          split at hr
          · cases hr
          · exact absurd hr hlive
        · rw [set_slot_of_ne hrq] at hr ⊢
          exact h.free r hr
      · by_cases hrq : r = q
        · subst hrq
          simp [noteKill, hpid]
        · rw [set_slot_of_ne hrq] at hr hk
          simp [noteKill, h.used r hr hk]
    · refine ⟨h.family, h.free, fun q hq hk => ?_⟩
      simp [noteKill, h.used q hq hk]
  | fork p np ok =>
    obtain ⟨⟨hp, -, hnp⟩, hs⟩ := Option.ite_none_right_eq_some.1 hs
    cases hs
    exact h.forkAlloc ht hp hnp
  | _ =>
    exact h.unmarked ht (unmarked_exec h.family hs (fun _ hc => by cases hc)
      fun _ _ _ hc => by cases hc) rfl

theorem Marks.killOk {hit : Fin nproc → Bool} (h : Marks s hit) (hs : s.exec a = some t)
    (hc : s.KillsLive a) : KillOk hit s a t := by
  cases a with
  | kill pid =>
    cases hs
    unfold KillOk
    dsimp only
    unfold kkill
    split
    · rename_i q hq
      have hlive := h.killTarget hc hq
      refine ⟨fun r hr => set_slot_of_ne ?_, fun _ => ⟨q, hlive, killTarget_pid hq⟩⟩
      rintro rfl
      exact hlive hr
    · refine ⟨fun _ _ => rfl, fun hr => ?_⟩
      simp at hr
  | forkRun p =>
    intro np hpc hk
    obtain ⟨hp, hs⟩ := Option.ite_none_right_eq_some.1 hs
    simp only [hpc] at hs
    cases hs
    have hnp := h.family.forks p np (.inr hpc)
    have hne := ne_of_state hp hnp ProcState.noConfusion
    rw [forkRun, set_goto_slot hne, if_neg hne, if_pos rfl] at hk
    exact h.used np hnp hk
  | _ => trivial

/-- A `kkill(0)` that finds a free slot marks it. -/
theorem Marks.not_killOk {hit : Fin nproc → Bool} (h : Marks s hit) (hs : s.exec a = some t)
    (hc : ¬s.KillsLive a) : ¬KillOk hit s a t := by
  cases a with
  | kill pid =>
    cases hs
    simp only [KillsLive, not_forall, not_not] at hc
    obtain ⟨rfl, q, hq, hu⟩ := hc
    rintro ⟨hk, -⟩
    have hkilled := congrArg Slot.killed (hk q hu)
    rw [(h.free q hu).2] at hkilled
    simp [kkill, hq] at hkilled
  | _ => exact absurd trivial hc

theorem marks_boot (p : Fin nproc) : Marks (boot p) fun _ => false := by
  refine ⟨family_boot p, fun q hq => ?_, fun q hq => ?_⟩ <;> by_cases hqp : q = p
  · subst hqp
    simp [boot] at hq
  · simp [boot, hqp, Slot.free]
  · subst hqp
    simp [boot] at hq
  · simp [boot, hqp, Slot.free] at hq

end ProcTable

/-- **kill.** In a run, `kkill` changes no free slot and returns `0` only for the pid of a
    process, and every process starts unmarked but for a `kkill` with its own pid, if and
    only if no `kkill(0)` finds a free slot. -/
theorem kill_live_iff {s₀ : ProcTable} {tr : List (TableAct × ProcTable)}
    (h₀ : s₀ ∈ tableSystem.init) (h : tableSystem.Run s₀ tr) :
    System.StepsWith ProcTable.noteKill (fun _ => false) ProcTable.KillOk s₀ tr ↔
      System.Along ProcTable.KillsLive s₀ tr := by
  obtain ⟨p, rfl⟩ := h₀
  exact h.stepsWith_iff (R := ProcTable.Marks) (ProcTable.marks_boot p)
    (fun s a t hit hm hs hc => hm.step hs hc) (fun s a t hit hm hs hc => hm.killOk hs hc)
    fun s a t hit hm hs hc => hm.not_killOk hs hc

/-- A child is killed while it is being forked, and so it starts marked. -/
theorem kill_live_child : ∃ tr, tableSystem.Run (.boot 0) tr ∧
    ((System.last (.boot 0) tr).slot 1).killed = true ∧
    System.StepsWith ProcTable.noteKill (fun _ => false) ProcTable.KillOk (.boot 0) tr := by
  obtain ⟨tr, hrun, hP⟩ := System.exists_run (m := tableSystem) (fun _ _ _ hs => hs) (.boot 0)
    [.schedule 0, .fork 0 1 true, .kill 2, .forkLink 0, .forkRun 0]
    (fun tr => ((System.last (.boot 0) tr).slot 1).killed = true ∧
      System.Along ProcTable.KillsLive (.boot 0) tr)
    (by decide)
  obtain ⟨hk, hc⟩ := of_decide_eq_true hP
  exact ⟨tr, hrun, hk, (kill_live_iff ⟨0, rfl⟩ hrun).2 hc⟩

/-- The first process calls `kkill(0)`, and the next process that it forks starts marked. -/
theorem killed_at_birth : ∃ tr, tableSystem.Run (.boot 0) tr ∧
    ((System.last (.boot 0) tr).slot 1).killed = true ∧
    ¬System.StepsWith ProcTable.noteKill (fun _ => false) ProcTable.KillOk (.boot 0) tr := by
  obtain ⟨tr, hrun, hP⟩ := System.exists_run (m := tableSystem) (fun _ _ _ hs => hs) (.boot 0)
    [.schedule 0, .kill 0, .fork 0 1 true, .forkLink 0, .forkRun 0]
    (fun tr => ((System.last (.boot 0) tr).slot 1).killed = true ∧
      ¬System.StepsWith ProcTable.noteKill (fun _ => false) ProcTable.KillOk (.boot 0) tr)
    (by decide)
  exact ⟨tr, hrun, of_decide_eq_true hP⟩

end Xv6
