import Mathlib

/-!
# Transition systems

A *system* has a set of initial states and steps labelled by actions. Its runs
are recorded as traces: the actions taken and the states they led to, the last
one first. A property that holds initially and is kept by every step holds of
every reachable state (`Reachable.invariant`); a system may be *restricted* to
the steps meeting a condition on the state before them (`System.restrict`), and
one system may match the runs of another (`Run.simulates`). A system given by a
function that takes its steps can be executed (`System.exists_run`).
-/

namespace Xv6

/-- A transition system on the states `S`, with steps labelled by `A`. -/
structure System (S A : Type*) where
  /-- The initial states. -/
  init : Set S
  /-- The steps: the state before, the action, the state after. -/
  step : S → A → S → Prop

namespace System

variable {S A : Type*} (m : System S A)

/-- The states reachable from an initial state. -/
inductive Reachable : S → Prop
  | init {s : S} : s ∈ m.init → Reachable s
  | step {s s' : S} {a : A} : Reachable s → m.step s a s' → Reachable s'

/-- The last state of a trace starting from `s₀`. -/
def last (s₀ : S) : List (A × S) → S
  | [] => s₀
  | (_, s) :: _ => s

/-- The traces of the runs of `m` from `s₀`, the last step first. -/
inductive Run (s₀ : S) : List (A × S) → Prop
  | nil : Run s₀ []
  | cons {tr : List (A × S)} {a : A} {s : S} :
      Run s₀ tr → m.step (last s₀ tr) a s → Run s₀ ((a, s) :: tr)

/-- The steps of `m` that meet the condition `C` on the state before them. -/
def restrict (C : S → A → Prop) : System S A where
  init := m.init
  step s a s' := m.step s a s' ∧ C s a

variable {m}

/-- What holds initially and is kept by every step holds of every reachable
    state. -/
theorem Reachable.invariant {P : S → Prop} (h₀ : ∀ s ∈ m.init, P s)
    (hs : ∀ s a s', P s → m.step s a s' → P s') {s : S} (h : m.Reachable s) : P s := by
  induction h with
  | init h => exact h₀ _ h
  | step _ hstep ih => exact hs _ _ _ ih hstep

/-- The last state of a run from an initial state is reachable. -/
theorem Run.reachable {s₀ : S} (h₀ : s₀ ∈ m.init) {tr : List (A × S)} (h : m.Run s₀ tr) :
    m.Reachable (last s₀ tr) := by
  induction h with
  | nil => exact .init h₀
  | cons _ hstep ih => exact .step ih hstep

/-- Every earlier part of a run is a run. -/
theorem Run.suffix {s₀ : S} {tr tr' : List (A × S)} (h : m.Run s₀ tr) (hs : tr' <:+ tr) :
    m.Run s₀ tr' := by
  induction h with
  | nil =>
    rw [List.suffix_nil.1 hs]
    exact .nil
  | cons hrun hstep ih =>
    rcases List.suffix_cons_iff.1 hs with rfl | hs
    · exact .cons hrun hstep
    · exact ih hs

/-! ## Properties of runs -/

/-- The property `P` holds in every state of the run. -/
def Throughout (P : S → Prop) (s₀ : S) : List (A × S) → Prop
  | [] => P s₀
  | (_, s) :: tr => P s ∧ Throughout P s₀ tr

instance decidableThroughout (P : S → Prop) [DecidablePred P] (s₀ : S) :
    (tr : List (A × S)) → Decidable (Throughout P s₀ tr)
  | [] => inferInstanceAs (Decidable (P s₀))
  | (_, s) :: tr =>
    have := decidableThroughout P s₀ tr
    inferInstanceAs (Decidable (P s ∧ Throughout P s₀ tr))

/-- Every step of the run meets the condition `C` on the state before it. -/
def Along (C : S → A → Prop) (s₀ : S) : List (A × S) → Prop
  | [] => True
  | (a, _) :: tr => C (last s₀ tr) a ∧ Along C s₀ tr

instance decidableAlong (C : S → A → Prop) [∀ s a, Decidable (C s a)] (s₀ : S) :
    (tr : List (A × S)) → Decidable (Along C s₀ tr)
  | [] => isTrue trivial
  | (a, _) :: tr =>
    have := decidableAlong C s₀ tr
    inferInstanceAs (Decidable (C (last s₀ tr) a ∧ Along C s₀ tr))

/-- Every step of the run satisfies `P`, on the states before and after it. -/
def Steps (P : S → A → S → Prop) (s₀ : S) : List (A × S) → Prop
  | [] => True
  | (a, s) :: tr => P (last s₀ tr) a s ∧ Steps P s₀ tr

/-- What the steps of the run put out, in the order of the steps. -/
def output {B : Type*} (out : S → A → List B) (s₀ : S) : List (A × S) → List B
  | [] => []
  | (a, _) :: tr => output out s₀ tr ++ out (last s₀ tr) a

/-- A quantity that the steps of the run update, from `x₀`. -/
def history {H : Type*} (f : S → A → H → H) (x₀ : H) (s₀ : S) : List (A × S) → H
  | [] => x₀
  | (a, _) :: tr => f (last s₀ tr) a (history f x₀ s₀ tr)

/-- Every step of the run satisfies `T`, on the history before it and on the states before
    and after it. -/
def StepsWith {H : Type*} (f : S → A → H → H) (x₀ : H) (T : H → S → A → S → Prop) (s₀ : S) :
    List (A × S) → Prop
  | [] => True
  | (a, s) :: tr => T (history f x₀ s₀ tr) (last s₀ tr) a s ∧ StepsWith f x₀ T s₀ tr

instance decidableStepsWith {H : Type*} (f : S → A → H → H) (x₀ : H) (T : H → S → A → S → Prop)
    [∀ x s a s', Decidable (T x s a s')] (s₀ : S) :
    (tr : List (A × S)) → Decidable (StepsWith f x₀ T s₀ tr)
  | [] => isTrue trivial
  | (a, s) :: tr =>
    have := decidableStepsWith f x₀ T s₀ tr
    inferInstanceAs (Decidable (T (history f x₀ s₀ tr) (last s₀ tr) a s ∧ StepsWith f x₀ T s₀ tr))

section

variable {P Q : S → Prop} {C : S → A → Prop} {s₀ : S} {tr : List (A × S)}

/-- An invariant kept by the steps that meet `C` holds at the end of a run of such
    steps. -/
theorem Run.invariant (h₀ : Q s₀) (hs : ∀ s a s', Q s → m.step s a s' → C s a → Q s')
    (h : m.Run s₀ tr) (hC : Along C s₀ tr) : Q (last s₀ tr) := by
  induction h with
  | nil => exact h₀
  | cons _ hstep ih => exact hs _ _ _ (ih hC.2) hstep hC.1

/-- And so does what it implies, in every state of the run. -/
theorem Run.throughout (h₀ : Q s₀) (hs : ∀ s a s', Q s → m.step s a s' → C s a → Q s')
    (hP : ∀ s, Q s → P s) (h : m.Run s₀ tr) (hC : Along C s₀ tr) : Throughout P s₀ tr := by
  induction h with
  | nil => exact hP _ h₀
  | cons hrun hstep ih =>
    exact ⟨hP _ (hs _ _ _ (hrun.invariant h₀ hs hC.2) hstep hC.1), ih hC.2⟩

/-- What holds of every step from a state with the invariant holds of every step of such a
    run. -/
theorem Run.steps {T : S → A → S → Prop} (h₀ : Q s₀)
    (hs : ∀ s a s', Q s → m.step s a s' → C s a → Q s')
    (hT : ∀ s a s', Q s → m.step s a s' → C s a → T s a s') (h : m.Run s₀ tr)
    (hC : Along C s₀ tr) : Steps T s₀ tr := by
  induction h with
  | nil => trivial
  | cons hrun hstep ih =>
    exact ⟨hT _ _ _ (hrun.invariant h₀ hs hC.2) hstep hC.1, ih hC.2⟩

/-- An invariant of the state and of a history, kept by the steps that meet `C`, holds at
    the end of a run of such steps. -/
theorem Run.invariant_history {H : Type*} {f : S → A → H → H} {x₀ : H} {R : S → H → Prop}
    (h₀ : R s₀ x₀) (hs : ∀ s a s' x, R s x → m.step s a s' → C s a → R s' (f s a x))
    (h : m.Run s₀ tr) (hC : Along C s₀ tr) : R (last s₀ tr) (history f x₀ s₀ tr) := by
  induction h with
  | nil => exact h₀
  | cons _ hstep ih => exact hs _ _ _ _ (ih hC.2) hstep hC.1

/-- If the steps that meet `C` keep the invariant and satisfy `T`, and the others do not
    satisfy `T`, then the runs whose steps all satisfy `T` are those whose steps meet `C`. -/
theorem Run.stepsWith_iff {H : Type*} {f : S → A → H → H} {x₀ : H} {R : S → H → Prop}
    {T : H → S → A → S → Prop} (h₀ : R s₀ x₀)
    (hs : ∀ s a s' x, R s x → m.step s a s' → C s a → R s' (f s a x))
    (hT : ∀ s a s' x, R s x → m.step s a s' → C s a → T x s a s')
    (hbad : ∀ s a s' x, R s x → m.step s a s' → ¬C s a → ¬T x s a s') (h : m.Run s₀ tr) :
    StepsWith f x₀ T s₀ tr ↔ Along C s₀ tr := by
  induction h with
  | nil => exact Iff.rfl
  | cons hrun hstep ih =>
    refine ⟨fun ht => ?_, fun hC => ?_⟩
    · have hC := ih.1 ht.2
      refine ⟨?_, hC⟩
      by_contra hn
      exact hbad _ _ _ _ (hrun.invariant_history h₀ hs hC) hstep hn ht.1
    · exact ⟨hT _ _ _ _ (hrun.invariant_history h₀ hs hC.2) hstep hC.1, ih.2 hC.2⟩

/-- A condition that holds of every action in every state. -/
theorem along_of_forall (h : ∀ s a, C s a) (s₀ : S) (tr : List (A × S)) : Along C s₀ tr := by
  induction tr with
  | nil => trivial
  | cons x tr ih => exact ⟨h _ _, ih⟩

theorem Along.mono {C' : S → A → Prop} (h : Along C s₀ tr) (hC : ∀ s a, C s a → C' s a) :
    Along C' s₀ tr := by
  induction tr with
  | nil => trivial
  | cons x tr ih => exact ⟨hC _ _ h.1, ih h.2⟩

/-- What holds throughout a run holds before each of its steps. -/
theorem Throughout.along (h : Throughout P s₀ tr) : Along (fun s (_ : A) => P s) s₀ tr := by
  induction tr with
  | nil => trivial
  | cons x tr ih =>
    refine ⟨?_, ih h.2⟩
    cases tr with
    | nil => exact h.2
    | cons y tr => exact h.2.1

/-- If a step that does not meet `C` breaks `P`, then `P` holds throughout exactly the
    runs of steps that meet `C`. -/
theorem Run.throughout_iff (h₀ : Q s₀) (hs : ∀ s a s', Q s → m.step s a s' → C s a → Q s')
    (hP : ∀ s, Q s → P s) (hbad : ∀ s a s', Q s → m.step s a s' → ¬C s a → ¬P s')
    (h : m.Run s₀ tr) : Throughout P s₀ tr ↔ Along C s₀ tr := by
  refine ⟨fun ht => ?_, h.throughout h₀ hs hP⟩
  induction h with
  | nil => trivial
  | cons hrun hstep ih =>
    have hC := ih ht.2
    refine ⟨?_, hC⟩
    by_contra hn
    exact hbad _ _ _ (hrun.invariant h₀ hs hC) hstep hn ht.1

/-- If another system matches every step that meets `C`, keeping the relation `R` of the states,
    then it matches every run of such steps, with the same actions. -/
theorem Run.simulates {S' : Type*} {m' : System S' A} {R : S → S' → Prop} {t₀ : S'} (h₀ : R s₀ t₀)
    (hs : ∀ s a s' t, R s t → m.step s a s' → C s a → ∃ t', m'.step t a t' ∧ R s' t')
    (h : m.Run s₀ tr) (hC : Along C s₀ tr) :
    ∃ tr', m'.Run t₀ tr' ∧ tr'.map Prod.fst = tr.map Prod.fst ∧ R (last s₀ tr) (last t₀ tr') := by
  induction h with
  | nil => exact ⟨[], .nil, rfl, h₀⟩
  | cons _ hstep ih =>
    obtain ⟨tr', hrun, hacts, hR⟩ := ih hC.2
    obtain ⟨t', hstep', hR'⟩ := hs _ _ _ _ hR hstep hC.1
    refine ⟨_, hrun.cons hstep', ?_, hR'⟩
    rw [List.map_cons, List.map_cons, hacts]

/-- The runs of a restricted system are the runs whose steps meet the condition. -/
theorem Run.of_restrict (h : (m.restrict C).Run s₀ tr) : m.Run s₀ tr := by
  induction h with
  | nil => exact .nil
  | cons _ hstep ih => exact .cons ih hstep.1

theorem Run.along (h : (m.restrict C).Run s₀ tr) : Along C s₀ tr := by
  induction h with
  | nil => trivial
  | cons _ hstep ih => exact ⟨hstep.2, ih⟩

end

/-! ## Executing a system -/

/-- The trace of the actions `as` after the trace `tr`, when `exec` executes them
    all. -/
def play (exec : S → A → Option S) (s₀ : S) (tr : List (A × S)) : List A → Option (List (A × S))
  | [] => some tr
  | a :: as =>
    match exec (last s₀ tr) a with
    | none => none
    | some s => play exec s₀ ((a, s) :: tr) as

/-- What is executed is a run, if `exec` only takes steps of the system. -/
theorem Run.play {exec : S → A → Option S} (hexec : ∀ s a s', exec s a = some s' → m.step s a s')
    {s₀ : S} {as : List A} {tr tr' : List (A × S)} (h : m.Run s₀ tr)
    (hp : System.play exec s₀ tr as = some tr') : m.Run s₀ tr' := by
  induction as generalizing tr with
  | nil =>
    cases hp
    exact h
  | cons a as ih =>
    simp only [System.play] at hp
    split at hp
    · cases hp
    · rename_i s hs
      exact ih (.cons h (hexec _ _ _ hs)) hp

/-- The actions of a trace that was played. -/
theorem map_fst_play {exec : S → A → Option S} {s₀ : S} {as : List A} {tr tr' : List (A × S)}
    (hp : System.play exec s₀ tr as = some tr') :
    tr'.map Prod.fst = as.reverse ++ tr.map Prod.fst := by
  induction as generalizing tr with
  | nil =>
    cases hp
    rfl
  | cons a as ih =>
    simp only [System.play] at hp
    split at hp
    · cases hp
    · rw [ih hp, List.reverse_cons, List.append_assoc]
      rfl

/-- A run of given actions, found by executing it. -/
theorem exists_run_of {exec : S → A → Option S}
    (hexec : ∀ s a s', exec s a = some s' → m.step s a s') (s₀ : S) (as : List A)
    (P : List (A × S) → Bool) (h : (System.play exec s₀ [] as).any P = true) :
    ∃ tr, m.Run s₀ tr ∧ tr.map Prod.fst = as.reverse ∧ P tr = true := by
  obtain ⟨tr, htr, hP⟩ := (Option.any_eq_true _ _).1 h
  exact ⟨tr, Run.nil.play hexec htr, (map_fst_play htr).trans (List.append_nil _), hP⟩

/-- A run found by executing it. -/
theorem exists_run {exec : S → A → Option S}
    (hexec : ∀ s a s', exec s a = some s' → m.step s a s') (s₀ : S) (as : List A)
    (P : List (A × S) → Bool) (h : (System.play exec s₀ [] as).any P = true) :
    ∃ tr, m.Run s₀ tr ∧ P tr = true := by
  obtain ⟨tr, htr, -, hP⟩ := exists_run_of hexec s₀ as P h
  exact ⟨tr, htr, hP⟩

end System

end Xv6
