import Xv6.Proc.Kill

/-!
# Process ids

`allocpid` hands out the numbers of the counter `nextpid`, a 32-bit `int` that starts at 1 and is
never compared with the pids in use. As long as it has not wrapped, every pid is new: it is above
all the pids of the table (`PidsBelow`). After `2 ^ 31 - 1` pids the counter is negative, and after
`2 ^ 32 - 1` more it comes around to the pid of `init`, which never exits.
-/

namespace Xv6

namespace ProcTable

/-- The pids of the slots in use are positive and pairwise distinct. -/
structure PidsOk (s : ProcTable) : Prop where
  pos : ∀ q, (s.slot q).state ≠ .unused → 0 < (s.slot q).pid
  distinct : ∀ q r, (s.slot q).state ≠ .unused → (s.slot r).state ≠ .unused →
    (s.slot q).pid = (s.slot r).pid → q = r

/-- And they are below the counter, unless it has wrapped. -/
structure PidsBelow (s : ProcTable) : Prop where
  family : s.Family
  ok : s.PidsOk
  below : ∀ q, (s.slot q).state ≠ .unused → 0 < s.nextpid → (s.slot q).pid < s.nextpid
  int : s.nextpid < 2 ^ 31

/-- A slot that is in use afterwards was in use before, with the same pid. -/
def SamePid (x y : Slot) : Prop := y.state ≠ .unused → x.state ≠ .unused ∧ y.pid = x.pid

variable {s t : ProcTable} {p q : Fin nproc} {a : TableAct} {x : Slot}

theorem SamePid.refl (x : Slot) : SamePid x x := fun h => ⟨h, rfl⟩

theorem SamePid.of_woken {x y : Slot} (h : Woken x y) : SamePid x y := by
  intro hy
  refine ⟨fun hx => ?_, h.pid⟩
  rcases h.state with e | ⟨e, -⟩
  · exact hy (e.trans hx)
  · rw [hx] at e
    cases e

theorem samePid_set (h : SamePid (s.slot p) x) (q : Fin nproc) :
    SamePid (s.slot q) ((s.set p x).slot q) := by
  by_cases hq : q = p
  · subst hq
    rwa [set_slot_self]
  · rw [set_slot_of_ne hq]
    exact .refl _

/-- The slot is in use, and keeps its pid. -/
theorem SamePid.of_state {y : Slot} {st : ProcState} (hx : x.state = st) (hst : st ≠ .unused)
    (hpid : y.pid = x.pid) : SamePid x y := fun _ => ⟨by rwa [hx], hpid⟩

theorem PidsOk.samePid (h : s.PidsOk) (hst : ∀ q, SamePid (s.slot q) (t.slot q)) : t.PidsOk := by
  refine ⟨fun q hq => ?_, fun q r hq hr heq => ?_⟩
  · rw [(hst q hq).2]
    exact h.pos q (hst q hq).1
  · rw [(hst q hq).2, (hst r hr).2] at heq
    exact h.distinct q r (hst q hq).1 (hst r hr).1 heq

@[simp] theorem nextpid_reparent : (s.reparent p).nextpid = s.nextpid := by
  have hslot : ∀ (u : ProcTable) pp, (u.reparentSlot p pp).nextpid = u.nextpid := by
    intro u pp
    unfold reparentSlot
    split <;> rfl
  unfold reparent
  generalize List.finRange nproc = l
  induction l generalizing s with
  | nil => rfl
  | cons pp l ih => rw [List.foldl_cons, ih, hslot]

theorem nextpid_kexit (status : ℤ) : (s.kexit p status).nextpid = s.nextpid := by
  simp [kexit, set, wakeup]

theorem samePid_kwait {addr : ℕ} {ok : Bool} (hp : (s.slot p).state = .running) :
    (s.kwait p addr ok).nextpid = s.nextpid ∧
      ∀ q, SamePid (s.slot q) ((s.kwait p addr ok).slot q) := by
  have hrun : ∀ y : Slot, y.pid = (s.slot p).pid → SamePid (s.slot p) y := fun y hy =>
    .of_state hp ProcState.noConfusion hy
  unfold kwait
  split
  · rename_i r _ _ hsc
    refine ⟨rfl, fun q => ?_⟩
    rcases s.scan_cases p addr ok with ⟨v, hv, -, hz⟩ | hv | ⟨hv, -⟩
    · rw [hv] at hsc
      cases hsc
      rw [set_goto_slot (ne_of_state hp hz ProcState.noConfusion)]
      split
      · rename_i hq
        rw [hq]
        exact hrun _ rfl
      · split
        · exact fun h => absurd rfl h
        · exact .refl _
    · rw [hv] at hsc
      cases hsc
    · rw [hv] at hsc
      cases hsc
  · exact ⟨rfl, samePid_set (hrun _ rfl)⟩
  · exact ⟨rfl, samePid_set (hrun _ rfl)⟩

/-- Only `kfork` takes a number from the counter. -/
theorem samePid_exec (hf : s.Family) (hs : s.exec a = some t)
    (ha : ∀ p np ok, a ≠ .fork p np ok) :
    t.nextpid = s.nextpid ∧ ∀ q, SamePid (s.slot q) (t.slot q) := by
  have hrun : ∀ p, (s.slot p).state = .running → ∀ y : Slot, y.pid = (s.slot p).pid →
      SamePid (s.slot p) y := fun p hp y hy => .of_state hp ProcState.noConfusion hy
  -- The child of a `kfork` that has not returned.
  have hfork : ∀ p np pc (y : Slot), (s.slot p).state = .running → (s.slot np).state = .used →
      y.pid = (s.slot np).pid → ∀ q, SamePid (s.slot q) (((s.set np y).goto p pc).slot q) := by
    intro p np pc y hp hnp hy q
    rw [set_goto_slot (ne_of_state hp hnp ProcState.noConfusion)]
    split
    · rename_i hq
      rw [hq]
      exact hrun p hp _ rfl
    · split
      · rename_i hq
        rw [hq]
        exact .of_state hnp ProcState.noConfusion hy
      · exact .refl _
  cases a with
  | schedule p =>
    obtain ⟨hp, hs⟩ := Option.ite_none_right_eq_some.1 hs
    cases hs
    exact ⟨rfl, samePid_set (.of_state hp ProcState.noConfusion rfl)⟩
  | yield p =>
    obtain ⟨hp, hs⟩ := Option.ite_none_right_eq_some.1 hs
    cases hs
    exact ⟨rfl, samePid_set (hrun p hp _ rfl)⟩
  | sleep p n =>
    obtain ⟨hp, hs⟩ := Option.ite_none_right_eq_some.1 hs
    split at hs <;> cases hs <;> exact ⟨rfl, samePid_set (hrun p hp _ rfl)⟩
  | wakeup n =>
    cases hs
    exact ⟨rfl, fun q => .of_woken (woken_wakeup s _ _ q)⟩
  | fork p np ok => exact absurd rfl (ha p np ok)
  | forkLink p =>
    obtain ⟨hp, hs⟩ := Option.ite_none_right_eq_some.1 hs
    split at hs
    · rename_i np hpc
      cases hs
      exact ⟨rfl, hfork p np _ _ hp (hf.forks p np (.inl hpc)) rfl⟩
    · cases hs
  | forkRun p =>
    obtain ⟨hp, hs⟩ := Option.ite_none_right_eq_some.1 hs
    split at hs
    · rename_i np hpc
      cases hs
      exact ⟨rfl, hfork p np _ _ hp (hf.forks p np (.inr hpc)) rfl⟩
    · cases hs
  | exit p status =>
    obtain ⟨⟨hp, -, -⟩, hs⟩ := Option.ite_none_right_eq_some.1 hs
    cases hs
    exact ⟨rfl, samePid_set (hrun p hp _ rfl)⟩
  | exitZombie p =>
    obtain ⟨hp, hs⟩ := Option.ite_none_right_eq_some.1 hs
    split at hs
    · rename_i status hpc
      cases hs
      have hi : p ≠ s.initproc := by
        rintro rfl
        exact hf.initPc status hpc
      have he := exited_kexit hi status
      refine ⟨nextpid_kexit status, fun q => ?_⟩
      by_cases hq : q = p
      · rw [hq]
        exact hrun p hp _ he.self.2.2.1
      · exact .of_woken (he.woken q hq)
    · cases hs
  | wait p addr =>
    obtain ⟨⟨hp, -⟩, hs⟩ := Option.ite_none_right_eq_some.1 hs
    cases hs
    exact ⟨rfl, samePid_set (hrun p hp _ rfl)⟩
  | scan p ok =>
    obtain ⟨hp, hs⟩ := Option.ite_none_right_eq_some.1 hs
    split at hs
    · cases hs
      exact samePid_kwait hp
    · cases hs
  | kill pid =>
    cases hs
    unfold kkill
    split
    · exact ⟨rfl, samePid_set fun hy => ⟨fun hx => hy (by simp [hx]), rfl⟩⟩
    · exact ⟨rfl, fun q => .refl _⟩
  | setkilled p =>
    obtain ⟨hp, hs⟩ := Option.ite_none_right_eq_some.1 hs
    cases hs
    exact ⟨rfl, samePid_set (hrun p hp _ rfl)⟩

/-- A new process gets the number of the counter, if there is one. -/
theorem forkAlloc_slot {np : Fin nproc} {ok : Bool} (hp : (s.slot p).state = .running)
    (hnp : (s.slot np).state = .unused) (hq : ((s.forkAlloc p np ok).slot q).state ≠ .unused) :
    q = np ∧ ((s.forkAlloc p np ok).slot q).pid = s.nextpid ∨
      (s.slot q).state ≠ .unused ∧ ((s.forkAlloc p np ok).slot q).pid = (s.slot q).pid := by
  have hne : np ≠ p := ne_of_state hp hnp ProcState.noConfusion
  cases ok with
  | true =>
    have hslot : (s.forkAlloc p np true).slot q = if q = p then { s.slot p with pc := .fork np }
        else if q = np then { s.slot np with pid := s.nextpid, state := .used } else s.slot q :=
      set_goto_slot hne q
    rw [hslot] at hq ⊢
    split at hq
    · rename_i hqp
      rw [if_pos hqp, hqp]
      exact .inr ⟨hq, rfl⟩
    · rename_i hqp
      rw [if_neg hqp]
      split at hq
      · rename_i hqn
        rw [if_pos hqn]
        exact .inl ⟨hqn, rfl⟩
      · rename_i hqn
        rw [if_neg hqn]
        exact .inr ⟨hq, rfl⟩
  | false =>
    -- The slot is free again.
    by_cases hqn : q = np
    · subst hqn
      exact absurd (by rw [forkAlloc, if_neg Bool.false_ne_true, set_slot_self]; rfl) hq
    · have hslot : (s.forkAlloc p np false).slot q = s.slot q := by
        rw [forkAlloc, if_neg Bool.false_ne_true, set_slot_of_ne hqn]
        exact set_slot_of_ne hqn
      rw [hslot] at hq ⊢
      exact .inr ⟨hq, rfl⟩

theorem forkAlloc_nextpid {np : Fin nproc} {ok : Bool} :
    (s.forkAlloc p np ok).nextpid = Int.bmod (s.nextpid + 1) (2 ^ 32) := by
  cases ok <;> rfl

/-- The counter goes on to the next number, or it wraps. -/
theorem bmod_succ {n : ℤ} (hpos : 0 < n) (hint : n < 2 ^ 31) :
    Int.bmod (n + 1) (2 ^ 32) = n + 1 ∧ n + 1 < 2 ^ 31 ∨ Int.bmod (n + 1) (2 ^ 32) = -2 ^ 31 := by
  rcases lt_or_ge (n + 1) (2 ^ 31) with hlt | hge
  · exact .inl ⟨Int.bmod_eq_of_le (by omega) (by omega), hlt⟩
  · obtain rfl : n = 2 ^ 31 - 1 := by omega
    exact .inr (by decide)

/-- The number is above all the others. -/
theorem PidsBelow.fork {np : Fin nproc} {ok : Bool} (h : s.PidsBelow)
    (ht : (s.forkAlloc p np ok).Family) (hp : (s.slot p).state = .running)
    (hnp : (s.slot np).state = .unused) (hpos : 0 < s.nextpid) :
    (s.forkAlloc p np ok).PidsBelow := by
  have hnext := bmod_succ hpos h.int
  refine ⟨ht, ⟨fun q hq => ?_, fun q r hq hr heq => ?_⟩, fun q hq hpos' => ?_, ?_⟩
  · rcases forkAlloc_slot hp hnp hq with ⟨-, hpid⟩ | ⟨hs, hpid⟩
    · rwa [hpid]
    · rw [hpid]
      exact h.ok.pos q hs
  · rcases forkAlloc_slot hp hnp hq with ⟨hqn, hpid⟩ | ⟨hs, hpid⟩ <;>
      rcases forkAlloc_slot hp hnp hr with ⟨hrn, hpid'⟩ | ⟨hs', hpid'⟩ <;>
      rw [hpid, hpid'] at heq
    · rw [hqn, hrn]
    · have := h.below r hs' hpos
      omega
    · have := h.below q hs hpos
      omega
    · exact h.ok.distinct q r hs hs' heq
  · rw [forkAlloc_nextpid] at hpos' ⊢
    rcases forkAlloc_slot hp hnp hq with ⟨-, hpid⟩ | ⟨hs, hpid⟩
    · omega
    · have := h.below q hs hpos
      omega
  · rw [forkAlloc_nextpid]
    omega

end ProcTable

/-- The action takes a number from the counter only if it is positive. -/
def TableAct.PidPositive (s : ProcTable) : TableAct → Prop
  | .fork .. => 0 < s.nextpid
  | _ => True

instance decidablePidPositive (s : ProcTable) : (a : TableAct) → Decidable (a.PidPositive s)
  | .fork .. => inferInstanceAs (Decidable (0 < s.nextpid))
  | .schedule _ | .yield _ | .sleep .. | .wakeup _ | .forkLink _ | .forkRun _ | .exit .. |
    .exitZombie _ | .wait .. | .scan .. | .kill _ | .setkilled _ => isTrue trivial

namespace ProcTable

variable {s t : ProcTable} {a : TableAct}

theorem PidsBelow.step (h : s.PidsBelow) (hs : s.exec a = some t) (ha : a.PidPositive s) :
    t.PidsBelow := by
  have hf := h.family.step (h.family.effect hs)
  by_cases hfork : ∃ p np ok, a = .fork p np ok
  · obtain ⟨p, np, ok, rfl⟩ := hfork
    obtain ⟨⟨hp, -, hnp⟩, hs⟩ := Option.ite_none_right_eq_some.1 hs
    cases hs
    exact h.fork hf hp hnp ha
  · obtain ⟨hnext, hst⟩ := samePid_exec h.family hs fun p np ok he => hfork ⟨p, np, ok, he⟩
    refine ⟨hf, h.ok.samePid hst, fun q hq hpos => ?_, by rw [hnext]; exact h.int⟩
    rw [hnext] at hpos ⊢
    rw [(hst q hq).2]
    exact h.below q (hst q hq).1 hpos

theorem pidsBelow_boot (p : Fin nproc) : (boot p).PidsBelow := by
  have hslot : ∀ q, ((boot p).slot q).state ≠ .unused → q = p ∧ ((boot p).slot q).pid = 1 := by
    intro q hq
    by_cases hqp : q = p
    · subst hqp
      exact ⟨rfl, by simp [boot]⟩
    · exact absurd (by simp [boot, hqp, Slot.free]) hq
  have hnext : (boot p).nextpid = 2 := rfl
  refine ⟨family_boot p, ⟨fun q hq => ?_, fun q r hq hr _ => ?_⟩, fun q hq _ => ?_, ?_⟩
  · rw [(hslot q hq).2]
    decide
  · rw [(hslot q hq).1, (hslot r hr).1]
  · rw [(hslot q hq).2, hnext]
    decide
  · rw [hnext]
    decide

end ProcTable

/-- **Process ids are unique until the counter wraps.** In every run in which the counter is
    positive whenever `kfork` takes a number from it, the pids of the slots in use are positive and
    pairwise distinct, in every state. -/
theorem pids_unique {s₀ : ProcTable} {tr : List (TableAct × ProcTable)}
    (h₀ : s₀ ∈ tableSystem.init) (h : tableSystem.Run s₀ tr)
    (hc : System.Along (fun s a => a.PidPositive s) s₀ tr) :
    System.Throughout ProcTable.PidsOk s₀ tr := by
  obtain ⟨p, rfl⟩ := h₀
  exact h.throughout (Q := ProcTable.PidsBelow) (ProcTable.pidsBelow_boot p)
    (fun _ _ _ hq hs ha => hq.step hs ha) (fun _ hq => hq.ok) hc

/-- A process forks, waits, and is scheduled again when its child has exited. -/
theorem pids_unique_child : ∃ tr, tableSystem.Run (.boot 0) tr ∧ tr.length = waitActs.length ∧
    System.Throughout ProcTable.PidsOk (.boot 0) tr := by
  obtain ⟨tr, hrun, hP⟩ := System.exists_run (m := tableSystem) (fun _ _ _ hs => hs) (.boot 0)
    waitActs (fun tr => tr.length = waitActs.length ∧
      System.Along (fun s a => a.PidPositive s) (.boot 0) tr) (by decide +kernel)
  obtain ⟨hlen, hc⟩ := of_decide_eq_true hP
  exact ⟨tr, hrun, hlen, pids_unique ⟨0, rfl⟩ hrun hc⟩

namespace ProcTable

/-- The first process runs, and the counter is at `n`. -/
def counted (n : ℤ) : ProcTable :=
  { (boot 0).set 0 { Slot.free with state := .running, pid := 1 } with nextpid := n }

/-- A `kfork` for which there is no memory takes a number all the same. -/
theorem counted_fork (n : ℤ) :
    (counted n).exec (.fork 0 1 false) = some (counted (Int.bmod (n + 1) (2 ^ 32))) := by
  have hfree : (counted n).slot 1 = .free := rfl
  have hslot : ∀ x, Function.update (Function.update (counted n).slot 1 x) 1 .free =
      (counted n).slot := fun x => by
    rw [Function.update_idem]
    exact Function.update_eq_self_iff.2 hfree.symm
  have hcond : ((counted n).slot 0).state = .running ∧ ((counted n).slot 0).pc = .run ∧
      ((counted n).slot 1).state = .unused := ⟨rfl, rfl, by rw [hfree]; rfl⟩
  rw [exec, if_pos hcond, forkAlloc, if_neg Bool.false_ne_true]
  exact congrArg (fun g => some (ProcTable.mk g (Int.bmod (n + 1) (2 ^ 32)) 0)) (hslot _)

/-- Any number of them. -/
theorem exists_run_counted (k : ℕ) : ∃ tr, tableSystem.Run (.boot 0) tr ∧
    System.last (.boot 0) tr = counted (Int.bmod (2 + k) (2 ^ 32)) := by
  induction k with
  | zero =>
    have hs : (boot 0).exec (.schedule 0) = some (counted 2) := rfl
    exact ⟨_, .cons .nil hs, rfl⟩
  | succ k ih =>
    obtain ⟨tr, hrun, hlast⟩ := ih
    have hs := counted_fork (Int.bmod (2 + k) (2 ^ 32))
    have hb : Int.bmod (Int.bmod (2 + k) (2 ^ 32) + 1) (2 ^ 32) =
        Int.bmod (2 + (k + 1 : ℕ)) (2 ^ 32) := by
      rw [Int.bmod_add_bmod, Nat.cast_succ, add_assoc]
    rw [hb, ← hlast] at hs
    exact ⟨_, .cons hrun hs, rfl⟩

end ProcTable

/-- After `2 ^ 32 - 1` calls of `kfork` that fail, the next child gets the pid of `init`. -/
theorem pids_collide : ∃ tr, tableSystem.Run (.boot 0) tr ∧
    ((System.last (.boot 0) tr).slot 0).pid = 1 ∧ ((System.last (.boot 0) tr).slot 1).pid = 1 ∧
    ¬System.Throughout ProcTable.PidsOk (.boot 0) tr := by
  obtain ⟨tr, hrun, hlast⟩ := ProcTable.exists_run_counted (2 ^ 32 - 1)
  have hone : Int.bmod (2 + (2 ^ 32 - 1 : ℕ)) (2 ^ 32) = 1 := by decide
  rw [hone] at hlast
  have hs : (ProcTable.counted 1).exec (.fork 0 1 true) =
      some ((ProcTable.counted 1).forkAlloc 0 1 true) := by
    rw [ProcTable.exec, if_pos]
    exact ⟨rfl, rfl, rfl⟩
  rw [← hlast] at hs
  refine ⟨_, .cons hrun hs, ?_⟩
  change (((System.last (.boot 0) tr).forkAlloc 0 1 true).slot 0).pid = 1 ∧
    (((System.last (.boot 0) tr).forkAlloc 0 1 true).slot 1).pid = 1 ∧ _
  rw [hlast]
  refine ⟨rfl, rfl, fun hall => ?_⟩
  have hok := hall.1
  exact absurd (hok.distinct 0 1 (by decide) (by decide) rfl) (by decide)

end Xv6
