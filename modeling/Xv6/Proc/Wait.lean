import Xv6.Proc.Table

/-!
# exit and wait

A process that has exited keeps its slot until its parent returns it from `kwait`. Whatever
the order in which processes fork, exit and wait (`exit_wait`):

* no process has a parent that has exited: `reparent` passes its children to the first
  process, which never exits;
* no process sleeps in `kwait` while a child of it has exited;
* `kwait` returns a process that has exited once, to its parent, with the pid and the status
  that it exited with.

What a process that has exited leaves behind until it is returned, and who forked it, is
recorded along the run (`Ledger`).
-/

namespace Xv6

/-- The process is forking the slot `np`. -/
def ProcPc.Forks (pc : ProcPc) (np : Fin nproc) : Prop := pc = .fork np ∨ pc = .linked np

theorem ProcPc.not_forks_run {np : Fin nproc} : ¬ProcPc.run.Forks np := by
  rintro (h | h) <;> cases h

namespace ProcTable

variable {s t : ProcTable} {p q np : Fin nproc} {x : Slot}

@[simp] theorem set_slot_self : (s.set p x).slot p = x := Function.update_self ..

theorem set_slot_of_ne (h : q ≠ p) : (s.set p x).slot q = s.slot q := Function.update_of_ne h ..

@[simp] theorem set_initproc : (s.set p x).initproc = s.initproc := rfl

/-! ## Waking up and passing children on -/

/-- The slots `x` and `y` have the same process, that may have been woken up or have got
    another parent. -/
structure Woken (x y : Slot) : Prop where
  pid : y.pid = x.pid
  killed : y.killed = x.killed
  xstate : y.xstate = x.xstate
  pc : y.pc = x.pc
  chan : y.chan = x.chan
  state : y.state = x.state ∨ x.state = .sleeping ∧ y.state = .runnable

theorem Woken.refl (x : Slot) : Woken x x := ⟨rfl, rfl, rfl, rfl, rfl, .inl rfl⟩

theorem Woken.trans {x y z : Slot} (h : Woken x y) (h' : Woken y z) : Woken x z where
  pid := h'.pid.trans h.pid
  killed := h'.killed.trans h.killed
  xstate := h'.xstate.trans h.xstate
  pc := h'.pc.trans h.pc
  chan := h'.chan.trans h.chan
  state := by
    rcases h'.state with e | ⟨e, e'⟩
    · rw [e]
      exact h.state
    · rcases h.state with d | ⟨-, d⟩
      · exact .inr ⟨d ▸ e, e'⟩
      · rw [d] at e
        cases e

theorem woken_wakeup (s : ProcTable) (me : Option (Fin nproc)) (c : Option Chan) (q : Fin nproc) :
    Woken (s.slot q) ((s.wakeup me c).slot q) := by
  simp only [wakeup]
  split
  · rename_i h
    exact ⟨rfl, rfl, rfl, rfl, rfl, .inr ⟨h.2.1, rfl⟩⟩
  · exact .refl _

@[simp] theorem wakeup_parent {me : Option (Fin nproc)} {c : Option Chan} :
    ((s.wakeup me c).slot q).parent = (s.slot q).parent := by
  simp only [wakeup]
  split <;> rfl

@[simp] theorem wakeup_initproc {me : Option (Fin nproc)} {c : Option Chan} :
    (s.wakeup me c).initproc = s.initproc := rfl

/-- After `wakeup`, only the caller may sleep on the channel. -/
theorem wakeup_chan_ne {me : Option (Fin nproc)} {c : Option Chan} (hq : some q ≠ me)
    (h : ((s.wakeup me c).slot q).state = .sleeping) : ((s.wakeup me c).slot q).chan ≠ c := by
  simp only [wakeup] at h ⊢
  split at h
  · cases h
  · rename_i hn
    rw [if_neg hn]
    exact fun hc => hn ⟨hq, h, hc⟩

/-- The children of `p` among the slots `l` are passed to the first process, which is woken
    up if there are any. -/
structure Passed (s t : ProcTable) (p : Fin nproc) (l : List (Fin nproc)) : Prop where
  initproc : t.initproc = s.initproc
  parent : ∀ q, (t.slot q).parent =
    if q ∈ l ∧ (s.slot q).parent = some p then some s.initproc else (s.slot q).parent
  woken : ∀ q, Woken (s.slot q) (t.slot q)
  awake : (∃ q ∈ l, (s.slot q).parent = some p) → (t.slot s.initproc).state = .sleeping →
    (t.slot s.initproc).chan ≠ some (.proc s.initproc)

theorem passed_reparentSlot (hp : p ≠ s.initproc) (pp : Fin nproc) :
    Passed s (s.reparentSlot p pp) p [pp] := by
  unfold reparentSlot
  split
  · rename_i hpp
    have hne : some s.initproc ≠ some p := fun h => hp (Option.some.inj h).symm
    refine ⟨rfl, fun q => ?_, fun q => ?_, fun _ hs => wakeup_chan_ne hne hs⟩
    · rw [wakeup_parent]
      by_cases hq : q = pp
      · subst hq
        rw [set_slot_self, if_pos ⟨List.mem_singleton_self q, hpp⟩]
      · rw [set_slot_of_ne hq, if_neg fun h => hq (List.mem_singleton.1 h.1)]
    · refine .trans ?_ (woken_wakeup _ _ _ q)
      by_cases hq : q = pp
      · subst hq
        rw [set_slot_self]
        exact ⟨rfl, rfl, rfl, rfl, rfl, .inl rfl⟩
      · rw [set_slot_of_ne hq]
        exact .refl _
  · rename_i hpp
    refine ⟨rfl, fun q => ?_, fun q => .refl _, fun h => ?_⟩
    · rw [if_neg]
      rintro ⟨hq, h⟩
      rw [List.mem_singleton.1 hq] at h
      exact hpp h
    · obtain ⟨q, hq, h⟩ := h
      rw [List.mem_singleton.1 hq] at h
      exact absurd h hpp

theorem Passed.trans {u : ProcTable} {l l' : List (Fin nproc)} (h : Passed s t p l)
    (h' : Passed t u p l') (hp : p ≠ s.initproc) : Passed s u p (l ++ l') := by
  have hne : some s.initproc ≠ some p := fun h => hp (Option.some.inj h).symm
  refine ⟨h'.initproc.trans h.initproc, fun q => ?_, fun q => (h.woken q).trans (h'.woken q),
    fun hex hs => ?_⟩
  · rw [h'.parent, h.parent, h.initproc]
    by_cases hq : (s.slot q).parent = some p
    · by_cases hl : q ∈ l
      · simp [hl, hq]
      · simp [hl, hq]
    · simp [hq]
  · obtain ⟨q, hq, hqp⟩ := hex
    have hw := h'.woken s.initproc
    by_cases hl : q ∈ l
    · -- It was woken up by an earlier iteration, and nobody goes to sleep here.
      rw [hw.chan]
      refine h.awake ⟨q, hl, hqp⟩ ?_
      rcases hw.state with e | ⟨-, e⟩
      · rw [← e]
        exact hs
      · rw [e] at hs
        cases hs
    · have hq' := (List.mem_append.1 hq).resolve_left hl
      have hpar : (t.slot q).parent = some p := by
        rw [h.parent, if_neg fun hc => hl hc.1]
        exact hqp
      have := h'.awake ⟨q, hq', hpar⟩
      rw [h.initproc] at this
      exact this hs

theorem passed_foldl (hp : p ≠ s.initproc) (l : List (Fin nproc)) :
    Passed s (l.foldl (fun s pp => s.reparentSlot p pp) s) p l := by
  induction l generalizing s with
  | nil => exact ⟨rfl, fun q => by simp, fun q => .refl _, fun h => by simp at h⟩
  | cons pp l ih =>
    have h := passed_reparentSlot hp pp
    exact h.trans (ih (h.initproc ▸ hp)) hp

/-- What the section of `kexit` does. -/
structure Exited (s t : ProcTable) (p : Fin nproc) (status : ℤ) : Prop where
  initproc : t.initproc = s.initproc
  parent : ∀ q, (t.slot q).parent =
    if (s.slot q).parent = some p then some s.initproc else (s.slot q).parent
  self : (t.slot p).state = .zombie ∧ (t.slot p).xstate = status ∧
    (t.slot p).pid = (s.slot p).pid ∧ (t.slot p).pc = (s.slot p).pc
  woken : ∀ q, q ≠ p → Woken (s.slot q) (t.slot q)
  initAwake : (∃ q, (s.slot q).parent = some p) → (t.slot s.initproc).state = .sleeping →
    (t.slot s.initproc).chan ≠ some (.proc s.initproc)
  parentAwake : ∀ q, (t.slot p).parent = some q → (t.slot q).state = .sleeping →
    (t.slot q).chan ≠ some (.proc q)

theorem exited_kexit (hp : p ≠ s.initproc) (status : ℤ) : Exited s (s.kexit p status) p status := by
  have hr : Passed s (s.reparent p) p (List.finRange nproc) := passed_foldl hp _
  have hw := woken_wakeup (s.reparent p) (some p) (((s.reparent p).slot p).parent.map .proc)
  have hpar : ∀ q, ((s.kexit p status).slot q).parent = ((s.reparent p).slot q).parent := by
    intro q
    by_cases hq : q = p
    · subst hq
      simp [kexit]
    · simp [kexit, set_slot_of_ne hq]
  have hself := (hr.woken p).trans (hw p)
  have hwoken : ∀ q, q ≠ p → Woken (s.slot q) ((s.kexit p status).slot q) := fun q hq => by
    have := (hr.woken q).trans (hw q)
    rwa [kexit, set_slot_of_ne hq]
  refine ⟨?_, fun q => ?_, ?_, hwoken, fun hex hs => ?_, fun q hq hs => ?_⟩
  · rw [kexit, set_initproc, wakeup_initproc]
    exact hr.initproc
  · rw [hpar, hr.parent]
    simp only [List.mem_finRange, true_and]
  · simp only [kexit, set_slot_self]
    exact ⟨trivial, trivial, hself.pid, hself.pc⟩
  · obtain ⟨q, hq⟩ := hex
    simp only [kexit, set_slot_of_ne hp.symm] at hs ⊢
    rw [(hw _).chan]
    refine hr.awake ⟨q, List.mem_finRange q, hq⟩ ?_
    rcases (hw s.initproc).state with e | ⟨-, e⟩
    · rw [← e]
      exact hs
    · rw [e] at hs
      cases hs
  · have hqp : q ≠ p := by
      rintro rfl
      simp [kexit] at hs
    rw [hpar] at hq
    simp only [kexit, set_slot_of_ne hqp, hq, Option.map_some] at hs ⊢
    exact wakeup_chan_ne (fun h => hqp (Option.some.inj h)) hs

/-! ## The invariant -/

/-- The invariant of the process table. -/
structure Family (s : ProcTable) : Prop where
  init : (s.slot s.initproc).state.Live
  initPc : ∀ status, (s.slot s.initproc).pc ≠ .exit status
  parent : ∀ q p, (s.slot q).parent = some p → (s.slot p).state.Live
  child : ∀ q, (s.slot q).state.Live ∨ (s.slot q).state = .zombie → q ≠ s.initproc →
    (s.slot q).parent ≠ none
  unused : ∀ q, (s.slot q).state = .unused → (s.slot q).parent = none
  idle : ∀ q, (s.slot q).state = .unused ∨ (s.slot q).state = .used → (s.slot q).pc = .run
  zombie : ∀ q, (s.slot q).state = .zombie → ∃ status, (s.slot q).pc = .exit status
  forks : ∀ p np, (s.slot p).pc.Forks np → (s.slot np).state = .used
  unlinked : ∀ p np, (s.slot p).pc = .fork np → (s.slot np).parent = none
  linked : ∀ p np, (s.slot p).pc = .linked np → (s.slot np).parent = some p
  once : ∀ p p' np, (s.slot p).pc.Forks np → (s.slot p').pc.Forks np → p = p'
  asleep : ∀ p addr, (s.slot p).pc = .wait addr → (s.slot p).state = .sleeping →
    (s.slot p).chan = some (.proc p) ∧ ∀ q, (s.slot q).parent = some p → (s.slot q).state ≠ .zombie

/-- A step after which every process has the same parent, and no process has exited or has
    been forked. -/
structure Quiet (s t : ProcTable) : Prop where
  initproc : t.initproc = s.initproc
  parent : ∀ q, (t.slot q).parent = (s.slot q).parent
  exited : ∀ q, (s.slot q).state = .zombie →
    (t.slot q).pid = (s.slot q).pid ∧ (t.slot q).xstate = (s.slot q).xstate
  state : ∀ q, (t.slot q).state = (s.slot q).state ∨ (s.slot q).state.Live ∧ (t.slot q).state.Live
  pc : ∀ q, (t.slot q).pc = (s.slot q).pc ∨ (s.slot q).state.Live ∧
    (∀ np, ¬(t.slot q).pc.Forks np) ∧ ∀ status, (t.slot q).pc = .exit status → q ≠ s.initproc
  asleep : ∀ q addr, (t.slot q).pc = .wait addr → (t.slot q).state = .sleeping →
    (t.slot q).chan = some (.proc q) ∧
      ∀ r, (s.slot r).parent = some q → (s.slot r).state ≠ .zombie

theorem Quiet.live (h : Quiet s t) (hq : (s.slot q).state.Live) : (t.slot q).state.Live := by
  rcases h.state q with e | ⟨-, e⟩
  · rw [ProcState.Live, e]
    exact hq
  · exact e

theorem Quiet.live_of (h : Quiet s t) (hq : (t.slot q).state.Live) : (s.slot q).state.Live := by
  rcases h.state q with e | ⟨e, -⟩
  · rw [ProcState.Live, ← e]
    exact hq
  · exact e

/-- A slot that is not live is as before. -/
theorem Quiet.state_eq (h : Quiet s t) (hq : ¬(t.slot q).state.Live) :
    (s.slot q).state = (t.slot q).state ∧ (t.slot q).pc = (s.slot q).pc := by
  have hn : ¬(s.slot q).state.Live := fun hs => hq (h.live hs)
  refine ⟨?_, ?_⟩
  · rcases h.state q with e | ⟨e, -⟩
    · exact e.symm
    · exact absurd e hn
  · rcases h.pc q with e | ⟨e, -⟩
    · exact e
    · exact absurd e hn

theorem not_live_of_state {y : Slot} (h : y.state = .unused ∨ y.state = .used ∨ y.state = .zombie) :
    ¬y.state.Live := by
  rintro (e | e | e) <;> rw [e] at h <;> simp at h

theorem Quiet.forks (h : Quiet s t) (hp : (t.slot p).pc.Forks np) : (s.slot p).pc = (t.slot p).pc := by
  rcases h.pc p with e | ⟨-, hn, -⟩
  · exact e.symm
  · exact absurd hp (hn np)

theorem Family.quiet (h : s.Family) (hq : Quiet s t) : t.Family where
  init := hq.initproc ▸ hq.live h.init
  initPc := by
    intro status he
    rw [hq.initproc] at he
    rcases hq.pc s.initproc with e | ⟨-, -, hn⟩
    · exact h.initPc status (e ▸ he)
    · exact hn status he rfl
  parent q p hp := hq.live (h.parent q p (hq.parent q ▸ hp))
  child q hl hne := by
    rw [hq.parent]
    refine h.child q ?_ (hq.initproc ▸ hne)
    rcases hl with hl | hz
    · exact .inl (hq.live_of hl)
    · exact .inr ((hq.state_eq (not_live_of_state (.inr (.inr hz)))).1.trans hz)
  unused q hu := by
    rw [hq.parent]
    exact h.unused q ((hq.state_eq (not_live_of_state (.inl hu))).1.trans hu)
  idle q hu := by
    have hn : ¬(t.slot q).state.Live := not_live_of_state (by tauto)
    obtain ⟨hst, hpc⟩ := hq.state_eq hn
    rw [hpc]
    rw [← hst] at hu
    exact h.idle q hu
  zombie q hz := by
    obtain ⟨hst, hpc⟩ := hq.state_eq (not_live_of_state (.inr (.inr hz)))
    rw [hpc]
    exact h.zombie q (hst.trans hz)
  forks p np hp := by
    have hu := h.forks p np (hq.forks hp ▸ hp)
    rcases hq.state np with e | ⟨e, -⟩
    · exact e.trans hu
    · exact absurd hu e.ne_used
  unlinked p np hp := by
    rw [hq.parent]
    exact h.unlinked p np ((hq.forks (.inl hp)).trans hp)
  linked p np hp := by
    rw [hq.parent]
    exact h.linked p np ((hq.forks (.inr hp)).trans hp)
  once p p' np hp hp' := h.once p p' np (hq.forks hp ▸ hp) (hq.forks hp' ▸ hp')
  asleep p addr hp hs := by
    obtain ⟨hc, hz⟩ := hq.asleep p addr hp hs
    refine ⟨hc, fun q hpar hzom => ?_⟩
    rw [hq.parent] at hpar
    exact hz q hpar ((hq.state_eq (not_live_of_state (.inr (.inr hzom)))).1.trans hzom)

/-- Only the slot of a process that stays live, or stays in its state, changes. -/
theorem Family.quiet_set (h : s.Family) (hpar : x.parent = (s.slot p).parent)
    (hz : (s.slot p).state = .zombie → x.pid = (s.slot p).pid ∧ x.xstate = (s.slot p).xstate)
    (hst : x.state = (s.slot p).state ∨ (s.slot p).state.Live ∧ x.state.Live)
    (hpc : x.pc = (s.slot p).pc ∨ (s.slot p).state.Live ∧
      (∀ np, ¬x.pc.Forks np) ∧ ∀ status, x.pc = .exit status → p ≠ s.initproc)
    (hsl : ∀ addr, x.pc = .wait addr → x.state = .sleeping → x.chan = some (.proc p) ∧
      ∀ r, (s.slot r).parent = some p → (s.slot r).state ≠ .zombie) :
    Quiet s (s.set p x) := by
  refine ⟨rfl, fun q => ?_, fun q => ?_, fun q => ?_, fun q => ?_, fun q => ?_⟩ <;>
    by_cases hq : q = p
  · subst hq
    rwa [set_slot_self]
  · rw [set_slot_of_ne hq]
  · subst hq
    rwa [set_slot_self]
  · rw [set_slot_of_ne hq]
    exact fun _ => ⟨rfl, rfl⟩
  · subst hq
    rwa [set_slot_self]
  · rw [set_slot_of_ne hq]
    exact .inl rfl
  · subst hq
    rwa [set_slot_self]
  · rw [set_slot_of_ne hq]
    exact .inl rfl
  · subst hq
    rwa [set_slot_self]
  · rw [set_slot_of_ne hq]
    exact h.asleep q

/-! ## The steps -/

/-- The process `p` goes on to `pc`, and the slot `np` of another one becomes `x`. -/
theorem set_goto_slot (hne : np ≠ p) {pc : ProcPc} (q : Fin nproc) :
    ((s.set np x).goto p pc).slot q =
      if q = p then { s.slot p with pc } else if q = np then x else s.slot q := by
  rw [goto]
  by_cases hq : q = p
  · subst hq
    rw [set_slot_self, if_pos rfl, set_slot_of_ne hne.symm]
  · rw [set_slot_of_ne hq, if_neg hq]
    by_cases hqn : q = np
    · subst hqn
      rw [set_slot_self, if_pos rfl]
    · rw [set_slot_of_ne hqn, if_neg hqn]

theorem ne_of_state {a b : ProcState} (hp : (s.slot p).state = a) (hq : (s.slot q).state = b)
    (hab : a ≠ b) : q ≠ p := by
  rintro rfl
  exact hab (hp.symm.trans hq)

/-- The process `p`, which runs, goes on to `pc`, and the slot `np`, of no live process, becomes
    `x`: what the invariant asks of the step. -/
structure Places (s : ProcTable) (p np : Fin nproc) (x : Slot) (pc : ProcPc) : Prop where
  running : (s.slot p).state = .running
  dead : ¬(s.slot np).state.Live
  /-- Nobody else forks the slot. -/
  own : (s.slot np).state = .used → (s.slot p).pc.Forks np
  idle : x.pc = .run
  not_zombie : x.state ≠ .zombie
  parent : ∀ r, x.parent = some r → r = p ∨ (s.slot np).parent = some r
  child : x.state.Live → x.parent ≠ none
  unused : x.state = .unused → x.parent = none
  forks : ∀ m, pc.Forks m → m = np ∧ x.state = .used
  unlinked : pc = .fork np → x.parent = none
  linked : pc = .linked np → x.parent = some p
  exit : ∀ status, pc ≠ .exit status

theorem Family.set_goto {pc : ProcPc} (h : s.Family) (hx : Places s p np x pc)
    (ht : t.slot = ((s.set np x).goto p pc).slot) (hinit : t.initproc = s.initproc) :
    t.Family := by
  have hne : np ≠ p := by
    rintro rfl
    exact hx.dead (.inr (.inr hx.running))
  have hself : t.slot p = { s.slot p with pc } := by
    rw [ht, set_goto_slot hne, if_pos rfl]
  have hnew : t.slot np = x := by
    rw [ht, set_goto_slot hne, if_neg hne, if_pos rfl]
  have hother : ∀ q, q ≠ p → q ≠ np → t.slot q = s.slot q := fun q hp hn => by
    rw [ht, set_goto_slot hne, if_neg hp, if_neg hn]
  -- But for the slot `np`, only where `p` is changes.
  have hstate : ∀ q, q ≠ np → (t.slot q).state = (s.slot q).state := fun q hn => by
    by_cases hq : q = p
    · rw [hq, hself]
    · rw [hother q hq hn]
  have hparent : ∀ q, q ≠ np → (t.slot q).parent = (s.slot q).parent := fun q hn => by
    by_cases hq : q = p
    · rw [hq, hself]
    · rw [hother q hq hn]
  have hlive : ∀ q, (s.slot q).state.Live → (t.slot q).state.Live := fun q hq => by
    rw [hstate q]
    · exact hq
    · rintro rfl
      exact hx.dead hq
  have hinp : s.initproc ≠ np := fun e => hx.dead (e ▸ h.init)
  -- A slot that another process forks is not `np`.
  have hforked : ∀ r m, r ≠ p → (t.slot r).pc.Forks m → (s.slot r).pc.Forks m ∧ r ≠ np ∧ m ≠ np := by
    intro r m hr hm
    have hrn : r ≠ np := by
      rintro rfl
      rw [hnew, hx.idle] at hm
      exact ProcPc.not_forks_run hm
    rw [hother r hr hrn] at hm
    refine ⟨hm, hrn, ?_⟩
    rintro rfl
    exact hr (h.once r p m hm (hx.own (h.forks r m hm)))
  have hpc : (t.slot p).pc = pc := by rw [hself]
  exact
    { init := by
        rw [hinit]
        exact hlive _ h.init
      initPc := fun status => by
        rw [hinit]
        by_cases hi : s.initproc = p
        · rw [hi, hpc]
          exact hx.exit status
        · rw [hother _ hi hinp]
          exact h.initPc status
      parent := fun q r hr => by
        by_cases hq : q = np
        · rw [hq, hnew] at hr
          rcases hx.parent r hr with rfl | e
          · exact hlive r (.inr (.inr hx.running))
          · exact hlive r (h.parent np r e)
        · rw [hparent q hq] at hr
          exact hlive r (h.parent q r hr)
      child := fun q hq hqi => by
        by_cases hqn : q = np
        · rw [hqn, hnew] at hq ⊢
          exact hq.elim hx.child fun e => absurd e hx.not_zombie
        · rw [hstate q hqn] at hq
          rw [hparent q hqn]
          exact h.child q hq (hinit ▸ hqi)
      unused := fun q hq => by
        by_cases hqn : q = np
        · rw [hqn, hnew] at hq ⊢
          exact hx.unused hq
        · rw [hstate q hqn] at hq
          rw [hparent q hqn]
          exact h.unused q hq
      idle := fun q hq => by
        by_cases hqn : q = np
        · rw [hqn, hnew]
          exact hx.idle
        · rw [hstate q hqn] at hq
          have hqp : q ≠ p := by
            rintro rfl
            rw [hx.running] at hq
            rcases hq with hq | hq <;> cases hq
          rw [hother q hqp hqn]
          exact h.idle q hq
      zombie := fun q hq => by
        have hqn : q ≠ np := by
          rintro rfl
          rw [hnew] at hq
          exact hx.not_zombie hq
        rw [hstate q hqn] at hq
        rw [hother q (ne_of_state hx.running hq ProcState.noConfusion) hqn]
        exact h.zombie q hq
      forks := fun r m hm => by
        by_cases hr : r = p
        · rw [hr, hpc] at hm
          obtain ⟨rfl, hu⟩ := hx.forks m hm
          rwa [hnew]
        · obtain ⟨hm, -, hmn⟩ := hforked r m hr hm
          rw [hstate m hmn]
          exact h.forks r m hm
      unlinked := fun r m hm => by
        by_cases hr : r = p
        · rw [hr, hpc] at hm
          obtain ⟨rfl, -⟩ := hx.forks m (.inl hm)
          rw [hnew]
          exact hx.unlinked hm
        · obtain ⟨-, hrn, hmn⟩ := hforked r m hr (.inl hm)
          rw [hparent m hmn]
          rw [hother r hr hrn] at hm
          exact h.unlinked r m hm
      linked := fun r m hm => by
        by_cases hr : r = p
        · rw [hr, hpc] at hm
          obtain ⟨rfl, -⟩ := hx.forks m (.inr hm)
          rw [hnew, hr]
          exact hx.linked hm
        · obtain ⟨-, hrn, hmn⟩ := hforked r m hr (.inr hm)
          rw [hparent m hmn]
          rw [hother r hr hrn] at hm
          exact h.linked r m hm
      -- Who forks the child of `p` is `p`, and the other children have one parent as before.
      once := fun r r' m hm hm' => by
        have hown : ∀ u, (t.slot p).pc.Forks m → (t.slot u).pc.Forks m → u = p := fun u hp hu => by
          rw [hpc] at hp
          by_contra hup
          exact (hforked u m hup hu).2.2 (hx.forks m hp).1
        by_cases hr : r = p <;> by_cases hr' : r' = p
        · rw [hr, hr']
        · exact absurd (hown r' (hr ▸ hm) hm') hr'
        · exact absurd (hown r (hr' ▸ hm') hm) hr
        · exact h.once r r' m (hforked r m hr hm).1 (hforked r' m hr' hm').1
      -- Neither `p`, which runs, nor the slot `np`, which is idle, is asleep in `kwait`.
      asleep := fun r addr hr hs => by
        have hrn : r ≠ np := by
          rintro rfl
          rw [hnew, hx.idle] at hr
          cases hr
        have hrp : r ≠ p := by
          rintro rfl
          rw [hself] at hs
          cases hx.running.symm.trans hs
        rw [hother r hrp hrn] at hr hs ⊢
        obtain ⟨hc, hz⟩ := h.asleep r addr hr hs
        refine ⟨hc, fun q hq => ?_⟩
        by_cases hqn : q = np
        · rw [hqn, hnew]
          exact hx.not_zombie
        · rw [hparent q hqn] at hq
          rw [hstate q hqn]
          exact hz q hq }

/-- A new slot: its parent is not set, and no other process forks it. -/
theorem Family.forkAlloc (h : s.Family) (hp : (s.slot p).state = .running)
    (hnp : (s.slot np).state = .unused) : (s.forkAlloc p np true).Family := by
  have hpar := h.unused np hnp
  have hx : Places s p np { s.slot np with pid := s.nextpid, state := .used } (.fork np) :=
    { running := hp
      dead := not_live_of_state (.inl hnp)
      own := fun hu => by rw [hnp] at hu; cases hu
      idle := h.idle np (.inl hnp)
      not_zombie := ProcState.noConfusion
      parent := fun r hr => .inr hr
      child := fun hl => absurd rfl hl.ne_used
      unused := fun hu => by cases hu
      forks := fun m hm => by rcases hm with hm | hm <;> cases hm; exact ⟨rfl, rfl⟩
      unlinked := fun _ => hpar
      linked := fun hc => by cases hc
      exit := fun _ => ProcPc.noConfusion }
  exact h.set_goto hx rfl rfl

/-- The slot gets its parent. -/
theorem Family.forkLink (h : s.Family) (hp : (s.slot p).state = .running)
    (hpc : (s.slot p).pc = .fork np) : (s.forkLink p np).Family := by
  have hnp := h.forks p np (.inl hpc)
  have hx : Places s p np { s.slot np with parent := some p } (.linked np) :=
    { running := hp
      dead := not_live_of_state (.inr (.inl hnp))
      own := fun _ => .inl hpc
      idle := h.idle np (.inr hnp)
      not_zombie := by rw [hnp]; exact ProcState.noConfusion
      parent := fun r hr => .inl (Option.some.inj hr).symm
      child := fun _ => Option.some_ne_none p
      unused := fun hu => by rw [hnp] at hu; cases hu
      forks := fun m hm => by rcases hm with hm | hm <;> cases hm; exact ⟨rfl, hnp⟩
      unlinked := fun hc => by cases hc
      linked := fun _ => rfl
      exit := fun _ => ProcPc.noConfusion }
  exact h.set_goto hx rfl rfl

/-- The child is made runnable. -/
theorem Family.forkRun (h : s.Family) (hp : (s.slot p).state = .running)
    (hpc : (s.slot p).pc = .linked np) : (s.forkRun p np).Family := by
  have hnp := h.forks p np (.inr hpc)
  have hx : Places s p np { s.slot np with state := .runnable } .run :=
    { running := hp
      dead := not_live_of_state (.inr (.inl hnp))
      own := fun _ => .inr hpc
      idle := h.idle np (.inr hnp)
      not_zombie := ProcState.noConfusion
      parent := fun r hr => .inr hr
      child := fun _ hc => by cases (h.linked p np hpc).symm.trans hc
      unused := fun hu => by cases hu
      forks := fun m hm => absurd hm ProcPc.not_forks_run
      unlinked := fun hc => by cases hc
      linked := fun hc => by cases hc
      exit := fun _ => ProcPc.noConfusion }
  exact h.set_goto hx rfl rfl

/-- A slot that is freed: as its process has exited, it has no children. -/
theorem Family.reaped (h : s.Family) (hp : (s.slot p).state = .running)
    (hq : (s.slot q).state = .zombie) : ((s.set q .free).goto p .run).Family := by
  have hx : Places s p q .free .run :=
    { running := hp
      dead := not_live_of_state (.inr (.inr hq))
      own := fun hu => by rw [hq] at hu; cases hu
      idle := rfl
      not_zombie := ProcState.noConfusion
      parent := fun r hr => by cases hr
      child := fun hl => absurd rfl hl.ne_unused
      unused := fun _ => rfl
      forks := fun m hm => absurd hm ProcPc.not_forks_run
      unlinked := fun hc => by cases hc
      linked := fun hc => by cases hc
      exit := fun _ => ProcPc.noConfusion }
  exact h.set_goto hx rfl rfl

theorem Woken.live {y : Slot} (h : Woken x y) : y.state.Live ↔ x.state.Live := by
  rcases h.state with e | ⟨e, e'⟩
  · rw [ProcState.Live, ProcState.Live, e]
  · simp [ProcState.Live, e, e']

theorem Woken.state_eq {y : Slot} (h : Woken x y) (hy : ¬y.state.Live) : x.state = y.state := by
  rcases h.state with e | ⟨-, e⟩
  · exact e.symm
  · exact absurd (.inr (.inl e)) hy

theorem Family.exited (h : s.Family) (hp : p ≠ s.initproc) {status : ℤ}
    (hrun : (s.slot p).state = .running) (hpc : (s.slot p).pc = .exit status) (he : Exited s t p status) : t.Family := by
  have hlive : ∀ q, (s.slot q).state.Live → q ≠ p → (t.slot q).state.Live := fun q hq hqp =>
    (he.woken q hqp).live.2 hq
  have hpcs : ∀ q, (t.slot q).pc = (s.slot q).pc := fun q => by
    by_cases hq : q = p
    · rw [hq]
      exact he.self.2.2.2
    · exact (he.woken q hq).pc
  have hstate : ∀ q, q ≠ p → ¬(t.slot q).state.Live → (s.slot q).state = (t.slot q).state :=
    fun q hq => (he.woken q hq).state_eq
  have hne : ∀ {q st}, (t.slot q).state = st → st ≠ .zombie → q ≠ p := by
    rintro q st hq hst rfl
    exact hst (hq.symm.trans he.self.1)
  have hused : ∀ {r np}, (s.slot r).pc.Forks np → np ≠ p := by
    rintro r np hr rfl
    have := h.idle np (.inr (h.forks r np hr))
    rw [hpc] at this
    cases this
  -- A slot that is being forked is no child of `p`, which is in `kexit`.
  have hforked : ∀ {r np}, (s.slot r).pc.Forks np → (t.slot np).parent = (s.slot np).parent := by
    intro r np hr
    rw [he.parent]
    refine if_neg fun hc => ?_
    rcases hr with hr | hr
    · rw [h.unlinked r np hr] at hc
      cases hc
    · rw [h.linked r np hr] at hc
      obtain rfl := Option.some.inj hc
      rw [hpc] at hr
      cases hr
  refine ⟨?_, ?_, fun q r hr => ?_, fun q hq hqi => ?_, fun q hq => ?_, fun q hq => ?_,
    fun q hq => ?_, fun r np hr => ?_, fun r np hr => ?_, fun r np hr => ?_,
    fun r r' np hr hr' => ?_, fun r addr hr hs => ?_⟩
  · rw [he.initproc]
    exact hlive _ h.init hp.symm
  · rw [he.initproc, hpcs]
    exact h.initPc
  · -- The children of `p` are given to `initproc`, which is alive.
    rw [he.parent] at hr
    split at hr
    · rw [← Option.some.inj hr]
      exact hlive _ h.init hp.symm
    · rename_i hqp
      refine hlive r (h.parent q r hr) ?_
      rintro rfl
      exact hqp hr
  · rw [he.parent]
    split
    · exact Option.some_ne_none _
    · rw [he.initproc] at hqi
      refine h.child q ?_ hqi
      by_cases hqp : q = p
      · rw [hqp]
        exact .inl (.inr (.inr hrun))
      · rcases hq with hq | hq
        · exact .inl ((he.woken q hqp).live.1 hq)
        · exact .inr ((hstate q hqp (not_live_of_state (.inr (.inr hq)))).trans hq)
  · -- A slot that is free has no parent, and is nobody's child.
    have hqp := hne hq ProcState.noConfusion
    have hu := (hstate q hqp (not_live_of_state (.inl hq))).trans hq
    rw [he.parent, h.unused q hu]
    exact if_neg fun hc => by cases hc
  · have hqp : q ≠ p := by
      rcases hq with hq | hq <;> exact hne hq ProcState.noConfusion
    rw [hpcs]
    refine h.idle q ?_
    rwa [hstate q hqp (not_live_of_state (by tauto))]
  · rw [hpcs]
    by_cases hqp : q = p
    · exact ⟨status, hqp ▸ hpc⟩
    · exact h.zombie q ((hstate q hqp (not_live_of_state (.inr (.inr hq)))).trans hq)
  · rw [hpcs] at hr
    have hu := h.forks r np hr
    rcases (he.woken np (hused hr)).state with e | ⟨e, -⟩
    · exact e.trans hu
    · rw [e] at hu
      cases hu
  · rw [hpcs] at hr
    rw [hforked (.inl hr)]
    exact h.unlinked r np hr
  · rw [hpcs] at hr
    rw [hforked (.inr hr)]
    exact h.linked r np hr
  · rw [hpcs] at hr hr'
    exact h.once r r' np hr hr'
  · -- A process still asleep has not been woken up, so it got no child that has exited.
    have hrp := hne hs ProcState.noConfusion
    have hw := he.woken r hrp
    have hsl : (s.slot r).state = .sleeping := by
      rcases hw.state with e | ⟨-, e⟩
      · rw [← e]
        exact hs
      · rw [e] at hs
        cases hs
    rw [hpcs] at hr
    obtain ⟨hc, hz⟩ := h.asleep r addr hr hsl
    have hct : (t.slot r).chan = some (.proc r) := hw.chan.trans hc
    refine ⟨hct, fun q hq hzq => ?_⟩
    by_cases hqp : q = p
    · rw [hqp] at hq
      exact he.parentAwake r hq hs hct
    · rw [he.parent] at hq
      split at hq
      · rename_i hpar
        obtain rfl := Option.some.inj hq
        exact he.initAwake ⟨q, hpar⟩ hs hct
      · exact hz q hq ((hstate q hqp (not_live_of_state (.inr (.inr hzq)))).trans hzq)

theorem zombieChild_eq_some (h : s.zombieChild p = some q) :
    (s.slot q).parent = some p ∧ (s.slot q).state = .zombie := by
  have := List.find?_some h
  exact of_decide_eq_true this

theorem zombieChild_eq_none (h : s.zombieChild p = none) (q : Fin nproc)
    (hq : (s.slot q).parent = some p) : (s.slot q).state ≠ .zombie := by
  intro hz
  have := List.find?_eq_none.1 h q (List.mem_finRange q)
  exact this (decide_eq_true ⟨hq, hz⟩)

/-- What a scan of `kwait` comes to. -/
theorem scan_cases (s : ProcTable) (p : Fin nproc) (addr : ℕ) (ok : Bool) :
    (∃ q, s.scan p addr ok = .reaped q (s.slot q).pid (s.slot q).xstate ∧
      (s.slot q).parent = some p ∧ (s.slot q).state = .zombie) ∨
    s.scan p addr ok = .failed ∨
    s.scan p addr ok = .sleeps ∧
      ∀ q, (s.slot q).parent = some p → (s.slot q).state ≠ .zombie := by
  unfold scan
  split
  · rename_i q hq
    split
    · exact .inr (.inl rfl)
    · exact .inl ⟨q, rfl, zombieChild_eq_some hq⟩
  · rename_i hn
    split
    · exact .inr (.inl rfl)
    · exact .inr (.inr ⟨rfl, zombieChild_eq_none hn⟩)

/-- A process that runs goes on, not in `kfork`. -/
theorem Family.quiet_goto (h : s.Family) (hp : (s.slot p).state = .running) {pc : ProcPc}
    (hf : ∀ np, ¬pc.Forks np) (he : ∀ status, pc = .exit status → p ≠ s.initproc) :
    Quiet s (s.goto p pc) :=
  h.quiet_set rfl (fun _ => ⟨rfl, rfl⟩) (.inl rfl) (.inr ⟨.inr (.inr hp), hf, he⟩)
    fun _ _ hs => by
      rw [hp] at hs
      cases hs

/-! ## What the steps do to the processes -/

/-- The process that an action makes exit, its pid and its status. -/
def exits (s : ProcTable) : TableAct → Option (Fin nproc × ℤ × ℤ)
  | .exitZombie p =>
    match (s.slot p).pc with
    | .exit status => some (p, (s.slot p).pid, status)
    | _ => none
  | _ => none

/-- The process whose `kwait` returns by an action, the process that it returns, its pid and
    its status. -/
def returns (s : ProcTable) : TableAct → Option (Fin nproc × Fin nproc × ℤ × ℤ)
  | .scan p ok =>
    match (s.slot p).pc with
    | .wait addr =>
      match s.scan p addr ok with
      | .reaped q pid xstate => some (p, q, pid, xstate)
      | _ => none
    | _ => none
  | _ => none

/-- The process that an action links to a child, and the child. -/
def links (s : ProcTable) : TableAct → Option (Fin nproc × Fin nproc)
  | .forkLink p =>
    match (s.slot p).pc with
    | .fork np => some (p, np)
    | _ => none
  | _ => none

/-- What a step can do. -/
inductive Effect (s : ProcTable) : TableAct → ProcTable → Prop
  | quiet {a : TableAct} {t : ProcTable} : Quiet s t → s.exits a = none → s.returns a = none →
      s.links a = none → Effect s a t
  | fork {p np : Fin nproc} : (s.slot p).state = .running → (s.slot np).state = .unused →
      Effect s (.fork p np true) (s.forkAlloc p np true)
  | link {p np : Fin nproc} : (s.slot p).state = .running → (s.slot p).pc = .fork np →
      Effect s (.forkLink p) (s.forkLink p np)
  | run {p np : Fin nproc} : (s.slot p).state = .running → (s.slot p).pc = .linked np →
      Effect s (.forkRun p) (s.forkRun p np)
  | exit {p : Fin nproc} {status : ℤ} {t : ProcTable} : p ≠ s.initproc →
      (s.slot p).state = .running → (s.slot p).pc = .exit status → Exited s t p status →
      Effect s (.exitZombie p) t
  | reap {p q : Fin nproc} {ok : Bool} : (s.slot p).state = .running →
      s.returns (.scan p ok) = some (p, q, (s.slot q).pid, (s.slot q).xstate) →
      (s.slot q).parent = some p → (s.slot q).state = .zombie →
      Effect s (.scan p ok) ((s.set q .free).goto p .run)

/-- What `kwait` returns is a child that has exited. -/
theorem returns_spec {a : TableAct} {pid xstate : ℤ} (h : s.returns a = some (p, q, pid, xstate)) :
    (s.slot q).parent = some p ∧ (s.slot q).state = .zombie ∧ (s.slot q).pid = pid ∧
      (s.slot q).xstate = xstate := by
  cases a with
  | scan r ok =>
    simp only [returns] at h
    split at h
    · rename_i addr hpc
      rcases s.scan_cases r addr ok with ⟨u, hsc, hpar, hz⟩ | hsc | ⟨hsc, -⟩
      · rw [hsc] at h
        simp only [Option.some.injEq, Prod.mk.injEq] at h
        obtain ⟨rfl, rfl, rfl, rfl⟩ := h
        exact ⟨hpar, hz, rfl, rfl⟩
      · rw [hsc] at h
        cases h
      · rw [hsc] at h
        cases h
    · cases h
  | _ => cases h

theorem Family.effect_scan (h : s.Family) (hp : (s.slot p).state = .running) {addr : ℕ} {ok : Bool}
    (hpc : (s.slot p).pc = .wait addr) : Effect s (.scan p ok) (s.kwait p addr ok) := by
  unfold kwait
  rcases s.scan_cases p addr ok with ⟨q, hsc, hpar, hz⟩ | hsc | ⟨hsc, hz⟩
  · rw [hsc]
    exact .reap hp (by simp only [returns, hpc, hsc]) hpar hz
  · rw [hsc]
    refine .quiet (h.quiet_goto hp (fun np hf => ?_) fun status hs => ?_) rfl
      (by simp only [returns, hpc, hsc]) rfl
    · rcases hf with hf | hf <;> cases hf
    · cases hs
  · rw [hsc]
    refine .quiet (h.quiet_set rfl (fun _ => ⟨rfl, rfl⟩) (.inr ⟨.inr (.inr hp), .inl rfl⟩) (.inl rfl)
      fun _ _ _ => ⟨rfl, hz⟩) rfl (by simp only [returns, hpc, hsc]) rfl

/-- What the slot of a process that does not run, or stops running, may become. -/
theorem Family.quiet_state (h : s.Family) {st : ProcState} {c : Option Chan} {k : Bool}
    (hst : st = (s.slot p).state ∨ (s.slot p).state.Live ∧ (st = .runnable ∨ st = .running))
    (hc : st = .sleeping → c = (s.slot p).chan) :
    Quiet s (s.set p { s.slot p with state := st, chan := c, killed := k }) := by
  refine h.quiet_set rfl (fun _ => ⟨rfl, rfl⟩) ?_ (.inl rfl) fun addr hpc hs => ?_
  · rcases hst with e | ⟨hl, e⟩
    · exact .inl e
    · exact .inr ⟨hl, .inr e⟩
  · obtain rfl : st = .sleeping := hs
    have hsl : (s.slot p).state = .sleeping := by
      rcases hst with e | ⟨-, e | e⟩
      · exact e.symm
      · cases e
      · cases e
    rw [hc rfl]
    exact h.asleep p addr hpc hsl

theorem Family.quiet_kkill (h : s.Family) (pid : ℤ) : Quiet s (s.kkill pid).1 := by
  unfold kkill
  split
  · rename_i q hq
    refine h.quiet_state (c := (s.slot q).chan) ?_ fun _ => rfl
    split
    · rename_i hs
      exact .inr ⟨.inl hs, .inl rfl⟩
    · exact .inl rfl
  · exact ⟨rfl, fun _ => rfl, fun _ _ => ⟨rfl, rfl⟩, fun _ => .inl rfl, fun _ => .inl rfl, h.asleep⟩

theorem Family.quiet_wakeup (h : s.Family) (n : ℕ) :
    Quiet s (s.wakeup none (some (.other n))) := by
  have hw := woken_wakeup s none (some (.other n))
  refine ⟨rfl, fun q => wakeup_parent, fun q _ => ⟨(hw q).pid, (hw q).xstate⟩, fun q => ?_,
    fun q => .inl (hw q).pc, fun q addr hpc hs => ?_⟩
  · rcases (hw q).state with e | ⟨e, e'⟩
    · exact .inl e
    · exact .inr ⟨.inl e, .inr (.inl e')⟩
  · rw [(hw q).pc] at hpc
    rw [(hw q).chan]
    refine h.asleep q addr hpc ?_
    rcases (hw q).state with e | ⟨-, e⟩
    · rw [← e]
      exact hs
    · rw [e] at hs
      cases hs

/-- A slot whose allocation fails is free again. -/
theorem Family.quiet_forkAlloc (h : s.Family) (hnp : (s.slot np).state = .unused) :
    Quiet s (s.forkAlloc p np false) := by
  have hslot : ∀ q, (s.forkAlloc p np false).slot q = (s.set np .free).slot q := by
    intro q
    simp only [ProcTable.forkAlloc, Bool.false_eq_true, if_false]
    by_cases hq : q = np
    · subst hq
      rw [set_slot_self, set_slot_self]
    · rw [set_slot_of_ne hq, set_slot_of_ne hq, set_slot_of_ne hq]
  have hq : Quiet s (s.set np .free) := by
    refine h.quiet_set (h.unused np hnp).symm (fun hz => ?_) (.inl hnp.symm)
      (.inl (h.idle np (.inl hnp)).symm) fun _ hc => ?_
    · rw [hnp] at hz
      cases hz
    · cases hc
  refine ⟨rfl, ?_, ?_, ?_, ?_, ?_⟩ <;> simp only [hslot]
  · exact hq.parent
  · exact hq.exited
  · exact hq.state
  · exact hq.pc
  · exact hq.asleep

theorem Family.effect (h : s.Family) {a : TableAct} (hs : s.exec a = some t) : Effect s a t := by
  cases a with
  | schedule p =>
    obtain ⟨hp, hs⟩ := Option.ite_none_right_eq_some.1 hs
    cases hs
    exact .quiet (h.quiet_state (.inr ⟨.inr (.inl hp), .inr rfl⟩) (fun hc => by cases hc)) rfl rfl rfl
  | yield p =>
    obtain ⟨hp, hs⟩ := Option.ite_none_right_eq_some.1 hs
    cases hs
    exact .quiet (h.quiet_state (.inr ⟨.inr (.inr hp), .inl rfl⟩) (fun hc => by cases hc)) rfl rfl rfl
  | sleep p n =>
    obtain ⟨hp, hs⟩ := Option.ite_none_right_eq_some.1 hs
    -- A process in `kwait` does not sleep here, but in `scan`.
    have hq : (∀ addr, (s.slot p).pc ≠ .wait addr) → Quiet s (s.sleep p (.other n)) := fun hpc =>
      h.quiet_set rfl (fun _ => ⟨rfl, rfl⟩) (.inr ⟨.inr (.inr hp), .inl rfl⟩) (.inl rfl)
        fun addr hc => absurd hc (hpc addr)
    split at hs
    · rename_i hpc
      cases hs
      exact .quiet (hq fun addr hc => by rw [hpc] at hc; cases hc) rfl rfl rfl
    · rename_i hpc
      cases hs
      exact .quiet (hq fun addr hc => by rw [hpc] at hc; cases hc) rfl rfl rfl
    · cases hs
  | wakeup n =>
    cases hs
    exact .quiet (h.quiet_wakeup n) rfl rfl rfl
  | fork p np ok =>
    obtain ⟨⟨hp, -, hnp⟩, hs⟩ := Option.ite_none_right_eq_some.1 hs
    cases hs
    cases ok with
    | false => exact .quiet (h.quiet_forkAlloc hnp) rfl rfl rfl
    | true => exact .fork hp hnp
  | forkLink p =>
    obtain ⟨hp, hs⟩ := Option.ite_none_right_eq_some.1 hs
    split at hs
    · rename_i hpc
      cases hs
      exact .link hp hpc
    · cases hs
  | forkRun p =>
    obtain ⟨hp, hs⟩ := Option.ite_none_right_eq_some.1 hs
    split at hs
    · rename_i hpc
      cases hs
      exact .run hp hpc
    · cases hs
  | exit p status =>
    obtain ⟨⟨hp, -, hi⟩, hs⟩ := Option.ite_none_right_eq_some.1 hs
    cases hs
    refine .quiet (h.quiet_goto hp (fun np hf => ?_) fun _ _ => hi) rfl rfl rfl
    rcases hf with hf | hf <;> cases hf
  | exitZombie p =>
    obtain ⟨hp, hs⟩ := Option.ite_none_right_eq_some.1 hs
    split at hs
    · rename_i status hpc
      cases hs
      have hi : p ≠ s.initproc := by
        rintro rfl
        exact h.initPc status hpc
      exact .exit hi hp hpc (exited_kexit hi status)
    · cases hs
  | wait p addr =>
    obtain ⟨⟨hp, -⟩, hs⟩ := Option.ite_none_right_eq_some.1 hs
    cases hs
    refine .quiet (h.quiet_goto hp (fun np hf => ?_) fun _ hc => by cases hc) rfl rfl rfl
    rcases hf with hf | hf <;> cases hf
  | scan p ok =>
    obtain ⟨hp, hs⟩ := Option.ite_none_right_eq_some.1 hs
    split at hs
    · rename_i hpc
      cases hs
      exact h.effect_scan hp hpc
    · cases hs
  | kill pid =>
    cases hs
    exact .quiet (h.quiet_kkill pid) rfl rfl rfl
  | setkilled p =>
    obtain ⟨hp, hs⟩ := Option.ite_none_right_eq_some.1 hs
    cases hs
    exact .quiet (h.quiet_state (c := (s.slot p).chan) (.inl rfl) (fun _ => rfl)) rfl rfl rfl

theorem Family.step (h : s.Family) {a : TableAct} (he : Effect s a t) : t.Family := by
  cases he with
  | quiet hq => exact h.quiet hq
  | fork hp hnp => exact h.forkAlloc hp hnp
  | link hp hpc => exact h.forkLink hp hpc
  | run hp hpc => exact h.forkRun hp hpc
  | exit hi hp hpc he => exact h.exited hi hp hpc he
  | reap hp _ _ hq => exact h.reaped hp hq

theorem family_boot (p : Fin nproc) : (boot p).Family := by
  have hself : (boot p).slot p = { Slot.free with state := .runnable, pid := 1 } := by simp [boot]
  have hother : ∀ q, q ≠ p → (boot p).slot q = .free := fun q hq => by simp [boot, hq]
  -- Nobody has a parent or is in a call, and only the first slot is used.
  have hall : ∀ q, ((boot p).slot q).parent = none ∧ ((boot p).slot q).pc = .run ∧
      (((boot p).slot q).state = .runnable ∧ q = p ∨ ((boot p).slot q).state = .unused) := by
    intro q
    by_cases hq : q = p
    · rw [hq, hself]
      exact ⟨rfl, rfl, .inl ⟨rfl, rfl⟩⟩
    · rw [hother q hq]
      exact ⟨rfl, rfl, .inr rfl⟩
  have hpar := fun q => (hall q).1
  have hpc := fun q => (hall q).2.1
  have hnf : ∀ q np, ¬((boot p).slot q).pc.Forks np := fun q np => by
    rw [hpc q]
    exact ProcPc.not_forks_run
  exact
    { init := .inr (.inl (congrArg Slot.state hself))
      initPc := fun status hc => by cases (hpc p).symm.trans hc
      parent := fun q r hr => by cases (hpar q).symm.trans hr
      child := fun q hq hne => by
        rcases (hall q).2.2 with ⟨-, e⟩ | e
        · exact absurd e hne
        · rw [e] at hq
          exact absurd hq (by decide)
      unused := fun q _ => hpar q
      idle := fun q _ => hpc q
      zombie := fun q hz => by
        rcases (hall q).2.2 with ⟨e, -⟩ | e <;> cases e.symm.trans hz
      forks := fun r np hr => absurd hr (hnf r np)
      unlinked := fun r np _ => hpar np
      linked := fun r np hr => absurd (.inr hr) (hnf r np)
      once := fun r r' np hr => absurd hr (hnf r np)
      asleep := fun r addr hr => by cases (hpc r).symm.trans hr }

end ProcTable

/-! ## What is left behind -/

/-- What is recorded along a run: for a slot whose process has exited and has not been
    returned yet, the pid and the status that it exited with; and the process that forked
    it, if that has not exited since. -/
structure Ledger where
  pending : Fin nproc → Option (ℤ × ℤ)
  origin : Fin nproc → Option (Fin nproc)

namespace Ledger

/-- At first nothing is recorded. -/
def empty : Ledger where
  pending _ := none
  origin _ := none

/-- Record an action. -/
def note (s : ProcTable) (a : TableAct) (l : Ledger) : Ledger where
  pending :=
    match s.exits a, s.returns a with
    | some (p, pid, status), _ => Function.update l.pending p (some (pid, status))
    | none, some (_, q, _, _) => Function.update l.pending q none
    | none, none => l.pending
  origin :=
    match s.links a, s.exits a with
    | some (p, np), _ => Function.update l.origin np (some p)
    | none, some (p, _, _) => fun q => if l.origin q = some p then none else l.origin q
    | none, none => l.origin

/-- What is recorded in a run. -/
def along (s₀ : ProcTable) (tr : List (TableAct × ProcTable)) : Ledger :=
  System.history note empty s₀ tr

end Ledger

namespace ProcTable

/-- The ledger records what the table holds. -/
structure Booked (s : ProcTable) (l : Ledger) : Prop where
  pending : ∀ q pid xstate, l.pending q = some (pid, xstate) ↔
    (s.slot q).state = .zombie ∧ (s.slot q).pid = pid ∧ (s.slot q).xstate = xstate
  origin : ∀ q p, (s.slot q).parent = some p →
    l.origin q = some p ∨ l.origin q = none ∧ p = s.initproc

variable {s t : ProcTable} {p q np : Fin nproc} {l : Ledger}

/-- The processes that have exited are as before. -/
theorem Booked.of_zombies (h : Booked s l) {l' : Ledger} (hl : l' = l)
    (hz : ∀ q, ((t.slot q).state = .zombie ↔ (s.slot q).state = .zombie) ∧
      ((s.slot q).state = .zombie → (t.slot q).pid = (s.slot q).pid ∧
        (t.slot q).xstate = (s.slot q).xstate))
    (hpar : ∀ q, (t.slot q).parent = (s.slot q).parent) (hi : t.initproc = s.initproc) :
    Booked t l' := by
  subst hl
  refine ⟨fun q pid xstate => ?_, fun q p hp => ?_⟩
  · rw [h.pending, (hz q).1]
    refine and_congr_right fun hq => ?_
    rw [((hz q).2 hq).1, ((hz q).2 hq).2]
  · rw [hi]
    exact h.origin q p (hpar q ▸ hp)

theorem Quiet.zombie_iff (h : Quiet s t) :
    (t.slot q).state = .zombie ↔ (s.slot q).state = .zombie := by
  refine ⟨fun hz => ?_, fun hz => ?_⟩
  · exact (h.state_eq (not_live_of_state (.inr (.inr hz)))).1.trans hz
  · rcases h.state q with e | ⟨e, -⟩
    · exact e.trans hz
    · exact absurd hz e.ne_zombie

/-- The process `p` goes on, and the slot `np` of a process that has not exited changes. -/
theorem zombies_set_goto {x : Slot} {k : ProcPc} (hne : np ≠ p)
    (hnp : (s.slot np).state ≠ .zombie) (hx : x.state ≠ .zombie) (q : Fin nproc) :
    let t := (s.set np x).goto p k
    ((t.slot q).state = .zombie ↔ (s.slot q).state = .zombie) ∧
      ((s.slot q).state = .zombie → (t.slot q).pid = (s.slot q).pid ∧
        (t.slot q).xstate = (s.slot q).xstate) := by
  intro t
  rw [set_goto_slot hne]
  split
  · rename_i hq
    subst hq
    exact ⟨.rfl, fun _ => ⟨rfl, rfl⟩⟩
  · split
    · rename_i hq
      subst hq
      exact ⟨⟨fun hz => absurd hz hx, fun hz => absurd hz hnp⟩, fun hz => absurd hz hnp⟩
    · exact ⟨.rfl, fun _ => ⟨rfl, rfl⟩⟩

/-- The parents, when the process `p` goes on and the slot `np` changes. -/
theorem parent_set_goto {x : Slot} {pc : ProcPc} (hne : np ≠ p)
    (hx : x.parent = (s.slot np).parent) (q : Fin nproc) :
    (((s.set np x).goto p pc).slot q).parent = (s.slot q).parent := by
  rw [set_goto_slot hne]
  split
  · rename_i hq
    rw [hq]
  · split
    · rename_i hq
      rw [hq, hx]
    · rfl

/-- A slot is allocated. -/
theorem Booked.fork (h : Booked s l) (hp : (s.slot p).state = .running)
    (hnp : (s.slot np).state = .unused) :
    Booked (s.forkAlloc p np true) (l.note s (.fork p np true)) := by
  have hne := ne_of_state hp hnp ProcState.noConfusion
  exact h.of_zombies rfl (zombies_set_goto hne (by rw [hnp]; exact ProcState.noConfusion)
    ProcState.noConfusion) (parent_set_goto
      (x := { s.slot np with pid := s.nextpid, state := .used }) hne rfl) rfl

/-- A child gets its parent, and this is recorded. -/
theorem Booked.link (h : Booked s l) (hf : s.Family) (hp : (s.slot p).state = .running)
    (hpc : (s.slot p).pc = .fork np) : Booked (s.forkLink p np) (l.note s (.forkLink p)) := by
  have hnp := hf.forks p np (.inl hpc)
  have hne := ne_of_state hp hnp ProcState.noConfusion
  have hz := zombies_set_goto (s := s) (x := { s.slot np with parent := some p })
    (k := .linked np) hne (by rw [hnp]; exact ProcState.noConfusion)
    (by simp [hnp])
  have hlinks : s.links (.forkLink p) = some (p, np) := by simp only [links, hpc]
  refine ⟨fun q pid xstate => ?_, fun q r hr => ?_⟩
  · refine (h.pending q pid xstate).trans ?_
    rw [ProcTable.forkLink, (hz q).1]
    refine and_congr_right fun hq => ?_
    rw [((hz q).2 hq).1, ((hz q).2 hq).2]
  · simp only [Ledger.note, hlinks]
    rw [ProcTable.forkLink, set_goto_slot hne] at hr
    by_cases hq : q = np
    · subst hq
      rw [if_neg hne, if_pos rfl] at hr
      rw [Function.update_self]
      exact .inl hr
    · -- The other parents are as before.
      rw [Function.update_of_ne hq]
      refine h.origin q r ?_
      split at hr
      · rename_i e
        rw [e]
        exact hr
      · exact hr

/-- A child becomes runnable. -/
theorem Booked.run (h : Booked s l) (hf : s.Family) (hp : (s.slot p).state = .running)
    (hpc : (s.slot p).pc = .linked np) : Booked (s.forkRun p np) (l.note s (.forkRun p)) := by
  have hnp := hf.forks p np (.inr hpc)
  have hne := ne_of_state hp hnp ProcState.noConfusion
  exact h.of_zombies rfl (zombies_set_goto hne (by rw [hnp]; exact ProcState.noConfusion)
    ProcState.noConfusion) (parent_set_goto hne rfl) rfl

/-- A process exits: its pid and its status are recorded, and its children have another parent. -/
theorem Booked.exit {status : ℤ} (h : Booked s l) (hi : p ≠ s.initproc)
    (hpc : (s.slot p).pc = .exit status) (he : Exited s t p status) :
    Booked t (l.note s (.exitZombie p)) := by
  have hexits : s.exits (.exitZombie p) = some (p, (s.slot p).pid, status) := by
    simp only [exits, hpc]
  refine ⟨fun q pid xstate => ?_, fun q r hr => ?_⟩
  · simp only [Ledger.note, hexits]
    by_cases hq : q = p
    · subst hq
      rw [Function.update_self, he.self.1, he.self.2.1, he.self.2.2.1]
      simp
    · -- The others were at most woken up.
      have hw := he.woken q hq
      rw [Function.update_of_ne hq, h.pending, hw.pid, hw.xstate]
      refine and_congr_left fun _ => ⟨fun hz => ?_, fun hz => ?_⟩
      · rcases hw.state with e | ⟨e, -⟩
        · exact e.trans hz
        · rw [e] at hz
          cases hz
      · exact (hw.state_eq (not_live_of_state (.inr (.inr hz)))).trans hz
  · have hnote : (l.note s (.exitZombie p)).origin q =
        if l.origin q = some p then none else l.origin q := by
      simp only [Ledger.note, hexits, links]
    rw [hnote, he.initproc]
    rw [he.parent] at hr
    split at hr
    · -- The children of `p` are passed on.
      rename_i hqp
      obtain rfl := Option.some.inj hr
      rcases h.origin q p hqp with e | ⟨-, e⟩
      · rw [if_pos e]
        exact .inr ⟨rfl, rfl⟩
      · exact absurd e hi
    · rename_i hqp
      have hrp : r ≠ p := by
        rintro rfl
        exact hqp hr
      rcases h.origin q r hr with e | ⟨e, e'⟩
      · rw [if_neg (by rw [e]; exact fun hc => hrp (Option.some.inj hc))]
        exact .inl e
      · rw [if_neg (by rw [e]; exact fun hc => by cases hc)]
        exact .inr ⟨e, e'⟩

/-- A process that has exited is returned, and no longer recorded. -/
theorem Booked.reap {ok : Bool} {pid xstate : ℤ} (h : Booked s l)
    (hp : (s.slot p).state = .running)
    (hret : s.returns (.scan p ok) = some (p, q, pid, xstate))
    (hq : (s.slot q).state = .zombie) :
    Booked ((s.set q .free).goto p .run) (l.note s (.scan p ok)) := by
  have hne := ne_of_state hp hq ProcState.noConfusion
  have hslot : ∀ r, ((s.set q .free).goto p .run).slot r = _ := set_goto_slot hne
  refine ⟨fun r pid xstate => ?_, fun r u hu => ?_⟩
  · have hnote : (l.note s (.scan p ok)).pending = Function.update l.pending q none := by
      simp only [Ledger.note, hret, exits]
    rw [hnote, hslot]
    by_cases hr : r = q
    · subst hr
      rw [Function.update_self, if_neg hne, if_pos rfl]
      simp [Slot.free]
    · rw [Function.update_of_ne hr, h.pending, if_neg hr]
      split
      · rename_i e
        rw [e]
      · rfl
  · -- The parents are as before, but for the slot that is free now.
    refine h.origin r u ?_
    rw [hslot] at hu
    split at hu
    · rename_i e
      rw [e]
      exact hu
    · split at hu
      · cases hu
      · exact hu

/-- The ledger is kept by every step. -/
theorem Booked.step (h : Booked s l) (hf : s.Family) {a : TableAct} (he : Effect s a t) :
    Booked t (l.note s a) := by
  cases he with
  | quiet hq h₁ h₂ h₃ =>
    refine h.of_zombies ?_ (fun q => ⟨hq.zombie_iff, hq.exited q⟩) hq.parent hq.initproc
    simp only [Ledger.note, h₁, h₂, h₃]
  | fork hp hnp => exact h.fork hp hnp
  | link hp hpc => exact h.link hf hp hpc
  | run hp hpc => exact h.run hf hp hpc
  | exit hi _ hpc he => exact h.exit hi hpc he
  | reap hp hret _ hq => exact h.reap hp hret hq

end ProcTable

/-! ## Whole runs -/

/-- How the processes of a run stand at its end. -/
structure ExitWait (s₀ : ProcTable) (tr : List (TableAct × ProcTable)) : Prop where
  /-- No parent has exited. -/
  parent : ∀ q p, ((System.last s₀ tr).slot q).parent = some p →
    ((System.last s₀ tr).slot p).state ≠ .zombie ∧ ((System.last s₀ tr).slot p).state ≠ .unused
  /-- The parent of a process that has exited is the one that forked it, or the first
      process if that has exited since. -/
  zombie : ∀ q, ((System.last s₀ tr).slot q).state = .zombie →
    ∃ p, ((System.last s₀ tr).slot q).parent = some p ∧ ((System.last s₀ tr).slot p).state.Live ∧
      ((Ledger.along s₀ tr).origin q = some p ∨
        (Ledger.along s₀ tr).origin q = none ∧ p = (System.last s₀ tr).initproc)
  /-- No process sleeps in `kwait` while a child of it has exited. -/
  asleep : ∀ p addr, ((System.last s₀ tr).slot p).pc = .wait addr →
    ((System.last s₀ tr).slot p).state = .sleeping →
    ∀ q, ((System.last s₀ tr).slot q).parent = some p → ((System.last s₀ tr).slot q).state ≠ .zombie
  /-- What has exited and has not been returned is kept, with its pid and status. -/
  pending : ∀ q pid xstate, (Ledger.along s₀ tr).pending q = some (pid, xstate) ↔
    ((System.last s₀ tr).slot q).state = .zombie ∧ ((System.last s₀ tr).slot q).pid = pid ∧
      ((System.last s₀ tr).slot q).xstate = xstate
  /-- Whatever `kwait` returns next has exited and has not been returned since, with that pid
      and status, and is a child of the process that waits. -/
  returns : ∀ a p q pid xstate, (System.last s₀ tr).returns a = some (p, q, pid, xstate) →
    (Ledger.along s₀ tr).pending q = some (pid, xstate) ∧
      ((System.last s₀ tr).slot q).parent = some p

theorem booked_boot (p : Fin nproc) : (ProcTable.boot p).Booked .empty := by
  have hslot : ∀ q, ((ProcTable.boot p).slot q).state ≠ .zombie ∧
      ((ProcTable.boot p).slot q).parent = none := by
    intro q
    by_cases hq : q = p
    · subst hq
      simp [ProcTable.boot, Slot.free]
    · simp [ProcTable.boot, hq, Slot.free]
  refine ⟨fun q pid xstate => ?_, fun q r hr => ?_⟩
  · simp [Ledger.empty, (hslot q).1]
  · rw [(hslot q).2] at hr
    cases hr

theorem booked_of_run {s₀ : ProcTable} {tr : List (TableAct × ProcTable)}
    (h₀ : s₀ ∈ tableSystem.init) (h : tableSystem.Run s₀ tr) :
    (System.last s₀ tr).Family ∧ (System.last s₀ tr).Booked (Ledger.along s₀ tr) := by
  obtain ⟨p, rfl⟩ := h₀
  refine h.invariant_history (C := fun _ _ => True) (f := Ledger.note)
    (R := fun s l => s.Family ∧ s.Booked l) ⟨ProcTable.family_boot p, booked_boot p⟩
    (fun s a t l hi hs _ => ?_) (System.along_of_forall (fun _ _ => trivial) _ _)
  have he := hi.1.effect hs
  exact ⟨hi.1.step he, hi.2.step hi.1 he⟩

/-- **exit and wait.** In every run, whatever the order of the steps. -/
theorem exit_wait {s₀ : ProcTable} {tr : List (TableAct × ProcTable)}
    (h₀ : s₀ ∈ tableSystem.init) (h : tableSystem.Run s₀ tr) : ExitWait s₀ tr := by
  obtain ⟨hf, hb⟩ := booked_of_run h₀ h
  refine ⟨fun q p hp => ?_, fun q hq => ?_, fun p addr hpc hs => (hf.asleep p addr hpc hs).2,
    hb.pending, fun a p q pid xstate ha => ?_⟩
  · have hl := hf.parent q p hp
    exact ⟨hl.ne_zombie, hl.ne_unused⟩
  · have hqi : q ≠ (System.last s₀ tr).initproc := by
      rintro rfl
      exact hf.init.ne_zombie hq
    obtain ⟨p, hp⟩ := Option.ne_none_iff_exists'.1 (hf.child q (.inr hq) hqi)
    exact ⟨p, hp, hf.parent q p hp, hb.origin q p hp⟩
  · obtain ⟨hpar, hz, hpid, hx⟩ := ProcTable.returns_spec ha
    exact ⟨(hb.pending q pid xstate).2 ⟨hz, hpid, hx⟩, hpar⟩

/-- The first process sleeps in `kwait`, its child exits, and it is scheduled again. -/
def waitActs : List TableAct :=
  [.schedule 0, .fork 0 1 true, .forkLink 0, .forkRun 0, .schedule 1, .wait 0 0, .scan 0 true,
    .exit 1 7, .exitZombie 1, .schedule 0]

/-- `kwait` returns the child, with its pid and its status. -/
theorem exit_wait_child : ∃ tr, tableSystem.Run (.boot 0) tr ∧ ExitWait (.boot 0) tr ∧
    (System.last (.boot 0) tr).returns (.scan 0 true) = some (0, 1, 2, 7) := by
  obtain ⟨tr, hrun, hP⟩ := System.exists_run (m := tableSystem) (fun _ _ _ hs => hs) (.boot 0)
    waitActs
    (fun tr => (System.last (.boot 0) tr).returns (.scan 0 true) = some (0, 1, 2, 7))
    (by decide +kernel)
  exact ⟨tr, hrun, exit_wait ⟨0, rfl⟩ hrun, of_decide_eq_true hP⟩

end Xv6
