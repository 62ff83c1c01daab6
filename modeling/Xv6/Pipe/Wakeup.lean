import Xv6.Pipe.Basic

/-!
# Wakeups on a pipe

Whether a process sleeps on a pipe for nothing: a reader while there are bytes to
read or no writer left, a writer while there is room or no reader left, the lock
being free (`PipeState.Wakeful`).

`pipewrite` stores bytes and wakes the readers up when it is done, or when the pipe
is full. But it returns at once, without waking anybody up, when it finds itself
killed, also when it has stored bytes since it got the lock. When this happens while
a reader sleeps, the reader is left asleep; no process sleeps for nothing in exactly
the runs in which it does not happen (`wakeful_iff_harmless`).
-/

namespace Xv6

/-- The channel a process sleeps on when it stops at this point. -/
def PipePc.chan : PipePc → Option PipeChan
  | .enterWrite .. => some .nwrite
  | .enterRead _ => some .nread
  | _ => none

namespace PipeState

variable {s s' : PipeState} {p : ℕ} {a : PipeAct}

/-- With the lock free, no process sleeps for nothing. -/
def Wakeful (s : PipeState) : Prop :=
  s.lock = none → ∀ q,
    ((s.proc q).chan = some .nread → s.pipe.nread = s.pipe.nwrite ∧ s.pipe.writeopen = true) ∧
    ((s.proc q).chan = some .nwrite →
      s.pipe.readopen = true ∧ s.pipe.nwrite = s.pipe.nread + pipeSize)

/-- The action is not the early return of a `pipewrite` that has stored bytes since it
    got the lock, while a process sleeps on `&pi->nread`. -/
def Harmless (s : PipeState) : PipeAct → Prop
  | .write p _ =>
    match (s.proc p).pc with
    | .write i n stored =>
      i < n → s.pipe.readopen = false ∨ (s.proc p).killed = true → stored ≠ 0 →
        ∀ q, (s.proc q).chan ≠ some .nread
    | _ => True
  | _ => True

/-! ## The lock -/

/-- One process has the lock at most, and a process sleeps only where it waits for
    the lock. -/
structure Locks (s : PipeState) : Prop where
  lock : ∀ p, (s.proc p).pc.holding = true ↔ s.lock = some p
  asleep : ∀ p c, (s.proc p).chan = some c → (s.proc p).pc.chan = some c

theorem PipePc.chan_of_holding {pc : PipePc} (h : pc.holding = true) : pc.chan = none := by
  cases pc <;> first | rfl | cases h

@[simp] theorem wakeup_pipe (c : PipeChan) : (s.wakeup c).pipe = s.pipe := rfl

@[simp] theorem wakeup_lock (c : PipeChan) : (s.wakeup c).lock = s.lock := rfl

@[simp] theorem wakeup_pc (c : PipeChan) (q : ℕ) : ((s.wakeup c).proc q).pc = (s.proc q).pc := by
  simp only [wakeup]
  split <;> rfl

/-- After `wakeup`, those asleep are the ones that slept on another channel. -/
theorem wakeup_chan {c d : PipeChan} {q : ℕ} :
    ((s.wakeup c).proc q).chan = some d ↔ (s.proc q).chan = some d ∧ d ≠ c := by
  simp only [wakeup]
  split
  · rename_i h
    rw [h]
    simp [eq_comm]
  · rename_i h
    exact ⟨fun e => ⟨e, fun e' => h (e' ▸ e)⟩, fun e => e.1⟩

theorem Locks.wakeup (h : s.Locks) (c : PipeChan) : (s.wakeup c).Locks := by
  refine ⟨fun q => ?_, fun q d hd => ?_⟩
  · rw [wakeup_pc, wakeup_lock]
    exact h.lock q
  · rw [wakeup_pc]
    exact h.asleep q d (wakeup_chan.1 hd).1

/-- A process with the lock is not asleep. -/
theorem Locks.awake (h : s.Locks) (hp : (s.proc p).pc.holding = true) :
    (s.proc p).chan = none := by
  cases hc : (s.proc p).chan with
  | none => rfl
  | some c =>
    have := h.asleep p c hc
    rw [PipePc.chan_of_holding hp] at this
    cases this

/-- No other process has the lock. -/
theorem Locks.not_holding (h : s.Locks) (hp : s.lock = some p) {q : ℕ} (hq : q ≠ p) :
    (s.proc q).pc.holding = false := by
  by_contra hh
  have := (h.lock q).1 (by simpa using hh)
  rw [hp] at this
  exact hq (Option.some.inj this).symm

/-- A process that has the lock, or takes it when it is free, changes and keeps or
    releases it. -/
theorem Locks.update (h : s.Locks) (hl : s.lock = none ∨ s.lock = some p) {x : PipeProc}
    (hc : ∀ c, x.chan = some c → x.pc.chan = some c) (pipe : Pipe) :
    ({ pipe := pipe
       lock := if x.pc.holding then some p else none
       proc := Function.update s.proc p x } : PipeState).Locks := by
  refine ⟨fun q => ?_, fun q c hq => ?_⟩ <;> dsimp only at *
  · by_cases hqp : q = p
    · subst hqp
      rw [Function.update_self]
      split <;> simp_all
    · rw [Function.update_of_ne hqp]
      have hnot : (s.proc q).pc.holding = false := by
        rcases hl with hl | hl
        · have := h.lock q
          simpa [hl] using this
        · exact h.not_holding hl hqp
      rw [hnot]
      split <;> simp [Ne.symm hqp]
  · by_cases hqp : q = p
    · subst hqp
      rw [Function.update_self] at hq ⊢
      exact hc c hq
    · rw [Function.update_of_ne hqp] at hq ⊢
      exact h.asleep q c hq

/-! ## The invariant -/

/-- A process with the lock is in `pipewrite`, and has stored bytes. -/
def Storing (s : PipeState) : Prop := ∃ p i n k, (s.proc p).pc = .write i n (k + 1)

/-- A process with the lock is in the copying loop of `piperead`. -/
def Copying (s : PipeState) : Prop := ∃ p i n, (s.proc p).pc = .copy i n

/-- The invariant of a pipe: a process that sleeps for nothing is about to be woken
    up by the one that has the lock. -/
structure Inv (s : PipeState) : Prop where
  locks : s.Locks
  size : s.pipe.nwrite - s.pipe.nread ≤ pipeSize
  stored : ∀ p i n k, (s.proc p).pc = .write i n (k + 1) →
    s.pipe.readopen = true ∧ s.pipe.nread ≠ s.pipe.nwrite
  readers : ∀ q, (s.proc q).chan = some .nread →
    s.pipe.writeopen = true ∧ (s.pipe.nread = s.pipe.nwrite ∨ s.Storing)
  writers : ∀ q, (s.proc q).chan = some .nwrite →
    s.pipe.readopen = true ∧ (s.pipe.nwrite = s.pipe.nread + pipeSize ∨ s.Copying)

/-- With the lock free, the invariant says that no process sleeps for nothing. -/
theorem Inv.wakeful (h : s.Inv) : s.Wakeful := by
  intro hl q
  have hno : ∀ p, (s.proc p).pc.holding ≠ true := fun p hp => by
    rw [(h.locks.lock p).1 hp] at hl
    cases hl
  refine ⟨fun hq => ?_, fun hq => ?_⟩
  · obtain ⟨hw, hr | ⟨p, i, n, k, hp⟩⟩ := h.readers q hq
    · exact ⟨hr, hw⟩
    · exact absurd (by rw [hp]; rfl) (hno p)
  · obtain ⟨hr, hw | ⟨p, i, n, hp⟩⟩ := h.writers q hq
    · exact ⟨hr, hw⟩
    · exact absurd (by rw [hp]; rfl) (hno p)

/-- The process with the lock is the one storing. -/
theorem Inv.not_storing (h : s.Inv) (hp : (s.proc p).pc.holding = true)
    (hpc : ∀ i n k, (s.proc p).pc ≠ .write i n (k + 1)) : ¬s.Storing := by
  rintro ⟨q, i, n, k, hq⟩
  have hl := (h.locks.lock p).1 hp
  have hl' := (h.locks.lock q).1 (by rw [hq]; rfl)
  rw [hl] at hl'
  obtain rfl := Option.some.inj hl'
  exact hpc i n k hq

/-- The process with the lock is the one copying. -/
theorem Inv.not_copying (h : s.Inv) (hp : (s.proc p).pc.holding = true)
    (hpc : ∀ i n, (s.proc p).pc ≠ .copy i n) : ¬s.Copying := by
  rintro ⟨q, i, n, hq⟩
  have hl := (h.locks.lock p).1 hp
  have hl' := (h.locks.lock q).1 (by rw [hq]; rfl)
  rw [hl] at hl'
  obtain rfl := Option.some.inj hl'
  exact hpc i n hq

theorem Initial.inv (h : s.Initial) : s.Inv := by
  have hpc : ∀ q, (s.proc q).pc = .idle := fun q => (h.idle q).1
  have hchan : ∀ q c, (s.proc q).chan ≠ some c := fun q c => by
    simp [(h.idle q).2]
  refine ⟨⟨fun q => ?_, fun q c hc => absurd hc (hchan q c)⟩, ?_, fun q i n k hq => ?_,
    fun q hq => absurd hq (hchan q _), fun q hq => absurd hq (hchan q _)⟩
  · rw [hpc, h.lock]
    simp [PipePc.holding]
  · rw [h.nread, h.nwrite]
    decide
  · rw [hpc] at hq
    cases hq

/-! ## The steps -/

/-- What `wakeup` keeps. -/
structure Kept (s t : PipeState) : Prop where
  pc : ∀ q, (t.proc q).pc = (s.proc q).pc
  chan : ∀ q c, (t.proc q).chan = some c → (s.proc q).chan = some c

theorem Kept.refl (s : PipeState) : Kept s s := ⟨fun _ => rfl, fun _ _ h => h⟩

theorem Kept.wakeup (s : PipeState) (c : PipeChan) : Kept s (s.wakeup c) :=
  ⟨wakeup_pc c, fun _ _ h => (wakeup_chan.1 h).1⟩

theorem Locks.kept {t : PipeState} (h : s.Locks) (ht : Kept s t) (hl : t.lock = s.lock) :
    t.Locks := by
  refine ⟨fun q => ?_, fun q c hq => ?_⟩
  · rw [ht.pc, hl]
    exact h.lock q
  · rw [ht.pc]
    exact h.asleep q c (ht.chan q c hq)

/-- The process `p`, which has the lock, gives it up: `x` is not at a point that has
    it. Whoever sleeps then must have reason to. -/
theorem Inv.release {t : PipeState} (h : s.Inv) (hp : (s.proc p).pc.holding = true)
    (ht : Kept s t) (hl : t.lock = s.lock) {x : PipeProc} (hx : x.pc.holding = false)
    (hsize : t.pipe.nwrite - t.pipe.nread ≤ pipeSize)
    (hxc : ∀ c, x.chan = some c → x.pc.chan = some c)
    (hread : ∀ q, (Function.update t.proc p x q).chan = some .nread →
      t.pipe.writeopen = true ∧ t.pipe.nread = t.pipe.nwrite)
    (hwrite : ∀ q, (Function.update t.proc p x q).chan = some .nwrite →
      t.pipe.readopen = true ∧ t.pipe.nwrite = t.pipe.nread + pipeSize) :
    ({ t with lock := none, proc := Function.update t.proc p x } : PipeState).Inv := by
  have hlock : t.lock = some p := hl.trans ((h.locks.lock p).1 hp)
  have hlocks := (h.locks.kept ht hl).update (.inr hlock) hxc t.pipe
  rw [hx, if_neg Bool.false_ne_true] at hlocks
  refine ⟨hlocks, hsize, fun q i n k hq => ?_, fun q hq => ?_, fun q hq => ?_⟩
  · -- Nobody has the lock now.
    have := (hlocks.lock q).1 (by rw [hq]; rfl)
    cases this
  · obtain ⟨h₁, h₂⟩ := hread q hq
    exact ⟨h₁, .inl h₂⟩
  · obtain ⟨h₁, h₂⟩ := hwrite q hq
    exact ⟨h₁, .inl h₂⟩

/-- The process `p`, which has the lock, goes on with it, at `pc`. -/
theorem Inv.goOn {pipe : Pipe} {pc : PipePc} (h : s.Inv) (hp : (s.proc p).pc.holding = true)
    (hpc : pc.holding = true) (hsize : pipe.nwrite - pipe.nread ≤ pipeSize)
    (hstored : ∀ i n k, pc = .write i n (k + 1) →
      pipe.readopen = true ∧ pipe.nread ≠ pipe.nwrite)
    (hread : ∀ q, (s.proc q).chan = some .nread → pipe.writeopen = true ∧
      (pipe.nread = pipe.nwrite ∨ ∃ i n k, pc = .write i n (k + 1)))
    (hwrite : ∀ q, (s.proc q).chan = some .nwrite → pipe.readopen = true ∧
      (pipe.nwrite = pipe.nread + pipeSize ∨ ∃ i n, pc = .copy i n)) :
    ({ s with pipe := pipe }.goto p pc).Inv := by
  have hlock := (h.locks.lock p).1 hp
  have hchan := h.locks.awake hp
  have hlocks : ({ s with pipe := pipe }.goto p pc).Locks := by
    have := h.locks.update (x := { s.proc p with pc := pc }) (.inr hlock)
      (fun c hc => by rw [hchan] at hc; cases hc) pipe
    rwa [if_pos hpc, ← hlock] at this
  have hself : (({ s with pipe := pipe }.goto p pc).proc p).pc = pc := by simp [goto]
  have hkeep : ∀ q c, (({ s with pipe := pipe }.goto p pc).proc q).chan = some c →
      (s.proc q).chan = some c := fun q c hq => by
    by_cases hqp : q = p
    · subst hqp
      simpa [goto] using hq
    · simpa [goto, hqp] using hq
  refine ⟨hlocks, hsize, fun q i n k hq => ?_, fun q hq => ?_, fun q hq => ?_⟩
  · -- The process is the only one that has the lock.
    have hqp : q = p := by
      have := (hlocks.lock q).1 (by rw [hq]; rfl)
      rw [hlock] at this
      exact (Option.some.inj this).symm
    rw [hqp, hself] at hq
    exact hstored i n k hq
  · obtain ⟨h₁, h₂ | ⟨i, n, k, e⟩⟩ := hread q (hkeep q _ hq)
    · exact ⟨h₁, .inl h₂⟩
    · exact ⟨h₁, .inr ⟨p, i, n, k, hself.trans e⟩⟩
  · obtain ⟨h₁, h₂ | ⟨i, n, e⟩⟩ := hwrite q (hkeep q _ hq)
    · exact ⟨h₁, .inl h₂⟩
    · exact ⟨h₁, .inr ⟨p, i, n, hself.trans e⟩⟩

/-- The counters after a byte is stored in a pipe that is not full. -/
theorem size_store {r w : UInt32} (h : w - r ≤ pipeSize) (hne : w ≠ r + pipeSize) :
    w + 1 - r ≤ pipeSize ∧ r ≠ w + 1 := by
  simp only [pipeSize, UInt32.le_iff_toNat_le, ne_eq, ← UInt32.toNat_inj, UInt32.toNat_sub,
    UInt32.toNat_add, UInt32.reduceToNat] at *
  have := r.toNat_lt
  have := w.toNat_lt
  omega

/-- The counters after a byte is taken from a pipe that is not empty. -/
theorem size_take {r w : UInt32} (h : w - r ≤ pipeSize) (hne : r ≠ w) :
    w - (r + 1) ≤ pipeSize := by
  simp only [pipeSize, UInt32.le_iff_toNat_le, ne_eq, ← UInt32.toNat_inj, UInt32.toNat_sub,
    UInt32.toNat_add, UInt32.reduceToNat] at *
  have := r.toNat_lt
  have := w.toNat_lt
  omega

theorem update_proc_chan {proc : ℕ → PipeProc} {x : PipeProc} {q : ℕ} {c : PipeChan}
    (h : (Function.update proc p x q).chan = some c) :
    x.chan = some c ∨ (proc q).chan = some c := by
  by_cases hqp : q = p
  · subst hqp
    rw [Function.update_self] at h
    exact .inl h
  · rw [Function.update_of_ne hqp] at h
    exact .inr h

theorem Inv.pipewrite {i : ℕ} {n : ℤ} {k : ℕ} {ch : Option UInt8} (h : s.Inv)
    (hpc : (s.proc p).pc = .write i n k) (hc : s.Harmless (.write p ch)) :
    (s.pipewrite p i n k ch).Inv := by
  have hp : (s.proc p).pc.holding = true := by rw [hpc]; rfl
  have hawake := h.locks.awake hp
  have hnc := h.not_copying hp (by rw [hpc]; exact fun _ _ => PipePc.noConfusion)
  have hwriters : ∀ q, (s.proc q).chan = some .nwrite →
      s.pipe.readopen = true ∧ s.pipe.nwrite = s.pipe.nread + pipeSize := fun q hq => by
    obtain ⟨h₁, h₂⟩ := h.writers q hq
    exact ⟨h₁, h₂.resolve_right hnc⟩
  -- What follows the loop, and `copyin` failing: the readers are woken up.
  have hdone : ((s.wakeup .nread).finish p i).Inv := by
    refine h.release hp (.wakeup s _) rfl (x := { (s.wakeup .nread).proc p with
      pc := .idle, ret := i }) rfl h.size (fun c hc => ?_) (fun q hq => ?_) (fun q hq => ?_)
    · rw [(Kept.wakeup s .nread).chan p c hc] at hawake
      cases hawake
    · rcases update_proc_chan hq with hq | hq
      · exact absurd rfl (wakeup_chan.1 hq).2
      · exact absurd rfl (wakeup_chan.1 hq).2
    · rcases update_proc_chan hq with hq | hq
      · exact hwriters p (wakeup_chan.1 hq).1
      · exact hwriters q (wakeup_chan.1 hq).1
  unfold PipeState.pipewrite
  split
  swap
  · exact hdone
  rename_i hi
  split
  · -- The early return.
    rename_i hearly
    refine h.release hp (.refl s) rfl (x := { s.proc p with pc := .idle, ret := -1 }) rfl h.size
      (fun c hc' => by rw [hawake] at hc'; cases hc') (fun q hq => ?_) (fun q hq => ?_)
    · rcases update_proc_chan hq with hq | hq
      · rw [hawake] at hq
        cases hq
      · simp only [Harmless, hpc] at hc
        have hk : k = 0 := by
          by_contra hk
          exact hc hi hearly hk q hq
        obtain ⟨h₁, h₂⟩ := h.readers q hq
        refine ⟨h₁, h₂.resolve_right (h.not_storing hp fun i' n' k' e => ?_)⟩
        rw [hpc, hk] at e
        cases e
    · rcases update_proc_chan hq with hq | hq
      · rw [hawake] at hq
        cases hq
      · exact hwriters q hq
  rename_i hopen
  rw [not_or] at hopen
  have hro : s.pipe.readopen = true := by simpa using hopen.1
  split
  · -- The pipe is full.
    rename_i hfull
    refine h.release hp (.wakeup s _) rfl (x := { (s.wakeup .nread).proc p with
      pc := .enterWrite i n, chan := some .nwrite }) rfl h.size (fun c hc => hc) (fun q hq => ?_)
      (fun _ _ => ⟨hro, hfull⟩)
    rcases update_proc_chan hq with hq | hq
    · cases hq
    · exact absurd rfl (wakeup_chan.1 hq).2
  · rename_i hroom
    cases ch with
    | none => exact hdone
    | some ch =>
      obtain ⟨hsize, hne⟩ := size_store h.size hroom
      refine h.goOn hp rfl hsize (fun i' n' k' _ => ⟨hro, hne⟩) (fun q hq => ?_) (fun q hq => ?_)
      · exact ⟨(h.readers q hq).1, .inr ⟨i + 1, n, k, rfl⟩⟩
      · exact absurd (hwriters q hq).2 hroom

theorem Inv.piperead {n : ℤ} (h : s.Inv) (hpc : (s.proc p).pc = .read n) :
    (s.piperead p n).Inv := by
  have hp : (s.proc p).pc.holding = true := by rw [hpc]; rfl
  have hawake := h.locks.awake hp
  have hnc := h.not_copying hp (by rw [hpc]; exact fun _ _ => PipePc.noConfusion)
  have hns := h.not_storing hp (by rw [hpc]; exact fun _ _ _ => PipePc.noConfusion)
  have hreaders : ∀ q, (s.proc q).chan = some .nread →
      s.pipe.writeopen = true ∧ s.pipe.nread = s.pipe.nwrite := fun q hq => by
    obtain ⟨h₁, h₂⟩ := h.readers q hq
    exact ⟨h₁, h₂.resolve_right hns⟩
  have hwriters : ∀ q, (s.proc q).chan = some .nwrite →
      s.pipe.readopen = true ∧ s.pipe.nwrite = s.pipe.nread + pipeSize := fun q hq => by
    obtain ⟨h₁, h₂⟩ := h.writers q hq
    exact ⟨h₁, h₂.resolve_right hnc⟩
  unfold PipeState.piperead
  split
  · rename_i hempty
    split
    · refine h.release hp (.refl s) rfl (x := { s.proc p with pc := .idle, ret := -1 }) rfl h.size
        (fun c hc' => by rw [hawake] at hc'; cases hc') (fun q hq => ?_) (fun q hq => ?_) <;>
        rcases update_proc_chan hq with hq | hq
      · rw [hawake] at hq; cases hq
      · exact hreaders q hq
      · rw [hawake] at hq; cases hq
      · exact hwriters q hq
    · refine h.release hp (.refl s) rfl (x := { s.proc p with
        pc := .enterRead n, chan := some .nread }) rfl h.size (fun c hc => hc)
        (fun _ _ => hempty.symm) (fun q hq => ?_)
      rcases update_proc_chan hq with hq | hq
      · cases hq
      · exact hwriters q hq
  · refine h.goOn hp rfl h.size (fun _ _ _ e => by cases e) (fun q hq => ?_) (fun q hq => ?_)
    · obtain ⟨h₁, h₂⟩ := hreaders q hq
      exact ⟨h₁, .inl h₂⟩
    · exact ⟨(hwriters q hq).1, .inr ⟨0, n, rfl⟩⟩

theorem Inv.pipecopy {i : ℕ} {n : ℤ} {ok : Bool} (h : s.Inv) (hpc : (s.proc p).pc = .copy i n) :
    (s.pipecopy p i n ok).Inv := by
  have hp : (s.proc p).pc.holding = true := by rw [hpc]; rfl
  have hawake := h.locks.awake hp
  have hns := h.not_storing hp (by rw [hpc]; exact fun _ _ _ => PipePc.noConfusion)
  have hreaders : ∀ q, (s.proc q).chan = some .nread →
      s.pipe.writeopen = true ∧ s.pipe.nread = s.pipe.nwrite := fun q hq => by
    obtain ⟨h₁, h₂⟩ := h.readers q hq
    exact ⟨h₁, h₂.resolve_right hns⟩
  -- Leaving the loop, the counter `nread` possibly increased: the writers are woken up.
  have hdone : ∀ pipe : Pipe, pipe.nwrite - pipe.nread ≤ pipeSize →
      (∀ q, (s.proc q).chan = some .nread → pipe.writeopen = true ∧ pipe.nread = pipe.nwrite) →
      (({ s with pipe := pipe }.wakeup .nwrite).finish p i).Inv := fun pipe hsize hr => by
    have hkept : Kept s ({ s with pipe := pipe }.wakeup .nwrite) :=
      ⟨(Kept.wakeup { s with pipe := pipe } .nwrite).pc,
        (Kept.wakeup { s with pipe := pipe } .nwrite).chan⟩
    refine h.release hp hkept rfl (x := { ({ s with pipe := pipe }.wakeup .nwrite).proc p with
      pc := .idle, ret := i }) rfl hsize (fun c hc => ?_) (fun q hq => ?_) (fun q hq => ?_)
    · rw [hkept.chan p c hc] at hawake
      cases hawake
    · rcases update_proc_chan hq with hq | hq
      · exact hr p (hkept.chan p _ hq)
      · exact hr q (hkept.chan q _ hq)
    · rcases update_proc_chan hq with hq | hq
      · exact absurd rfl (wakeup_chan.1 hq).2
      · exact absurd rfl (wakeup_chan.1 hq).2
  unfold PipeState.pipecopy
  split
  · rename_i hmore
    have hsize := size_take h.size hmore.2
    have hnone : ∀ q, (s.proc q).chan ≠ some .nread := fun q hq => hmore.2 (hreaders q hq).2
    split
    · exact h.goOn hp rfl hsize (fun _ _ _ e => by cases e) (fun q hq => absurd hq (hnone q))
        fun q hq => ⟨(h.writers q hq).1, .inr ⟨i + 1, n, rfl⟩⟩
    · exact hdone _ hsize fun q hq => absurd hq (hnone q)
  · exact hdone s.pipe h.size hreaders

theorem Inv.pipeclose {w : Bool} (h : s.Inv) (hl : s.lock = none) : (s.pipeclose w).Inv := by
  have hno : ∀ q, (s.proc q).pc.holding ≠ true := fun q hq => by
    rw [(h.locks.lock q).1 hq] at hl
    cases hl
  have hpc : ∀ t : PipeState, Kept s t → ∀ q i n k, (t.proc q).pc ≠ .write i n (k + 1) :=
    fun t ht q i n k e => hno q (by rw [← ht.pc, e]; rfl)
  have hwake := h.wakeful hl
  unfold PipeState.pipeclose
  split
  · set t := { s with pipe := { s.pipe with writeopen := false } }.wakeup .nread
    have ht : Kept s t := ⟨(Kept.wakeup { s with pipe := _ } .nread).pc,
      (Kept.wakeup { s with pipe := _ } .nread).chan⟩
    refine ⟨h.locks.kept ht rfl, h.size, fun q i n k hq => absurd hq (hpc t ht q i n k),
      fun q hq => absurd rfl (wakeup_chan.1 hq).2, fun q hq => ?_⟩
    obtain ⟨h₁, h₂⟩ := (hwake q).2 (ht.chan q _ hq)
    exact ⟨h₁, .inl h₂⟩
  · set t := { s with pipe := { s.pipe with readopen := false } }.wakeup .nwrite
    have ht : Kept s t := ⟨(Kept.wakeup { s with pipe := _ } .nwrite).pc,
      (Kept.wakeup { s with pipe := _ } .nwrite).chan⟩
    refine ⟨h.locks.kept ht rfl, h.size, fun q i n k hq => absurd hq (hpc t ht q i n k),
      fun q hq => ?_, fun q hq => absurd rfl (wakeup_chan.1 hq).2⟩
    obtain ⟨h₁, h₂⟩ := (hwake q).1 (ht.chan q _ hq)
    exact ⟨h₂, .inl h₁⟩

/-- Changes that keep the pipe, the points where processes are, and who is asleep,
    except that some are woken up. -/
theorem Inv.kept {t : PipeState} (h : s.Inv) (ht : Kept s t) (hl : t.lock = s.lock)
    (hpipe : t.pipe = s.pipe) : t.Inv := by
  refine ⟨h.locks.kept ht hl, hpipe ▸ h.size, fun q i n k hq => ?_, fun q hq => ?_,
    fun q hq => ?_⟩ <;> rw [hpipe]
  · exact h.stored q i n k (ht.pc q ▸ hq)
  · obtain ⟨h₁, h₂⟩ := h.readers q (ht.chan q _ hq)
    refine ⟨h₁, h₂.imp_right fun h' => ?_⟩
    obtain ⟨p, i, n, k, hp⟩ := h'
    exact ⟨p, i, n, k, (ht.pc p).trans hp⟩
  · obtain ⟨h₁, h₂⟩ := h.writers q (ht.chan q _ hq)
    refine ⟨h₁, h₂.imp_right fun h' => ?_⟩
    obtain ⟨p, i, n, hp⟩ := h'
    exact ⟨p, i, n, (ht.pc p).trans hp⟩

theorem Inv.kkill (h : s.Inv) (p : ℕ) : (s.kkill p).Inv := by
  refine h.kept ⟨fun q => ?_, fun q c hq => ?_⟩ rfl rfl <;> by_cases hqp : q = p
  · subst hqp
    simp [PipeState.kkill]
  · simp [PipeState.kkill, hqp]
  · subst hqp
    simp [PipeState.kkill] at hq
  · simpa [PipeState.kkill, hqp] using hq

/-- A process that neither has the lock nor sleeps goes on to `pc`, taking the lock
    if it is free and `pc` is a point that has it. -/
theorem Inv.enter (pc : PipePc) (h : s.Inv) (hp : (s.proc p).pc.holding = false)
    (hchan : (s.proc p).chan = none) (hl : pc.holding = true → s.lock = none)
    (hpc : ∀ i n k, pc ≠ .write i n (k + 1)) :
    ({ s.goto p pc with lock := if pc.holding then some p else s.lock } : PipeState).Inv := by
  set t : PipeState := { s.goto p pc with lock := if pc.holding then some p else s.lock } with ht
  have hself : (t.proc p).pc = pc := by simp [ht, goto]
  have hother : ∀ q, q ≠ p → t.proc q = s.proc q := fun q hq => by simp [ht, goto, hq]
  have hsame : ∀ q, (t.proc q).chan = (s.proc q).chan := fun q => by
    by_cases hq : q = p
    · subst hq
      simp [ht, goto]
    · rw [hother q hq]
  -- Whoever has the lock still has it.
  have hkeep : ∀ q, (s.proc q).pc.holding = true → t.proc q = s.proc q := fun q hq =>
    hother q fun e => by rw [e, hp] at hq; cases hq
  refine ⟨⟨fun q => ?_, fun q c hq => ?_⟩, h.size, fun q i n k hq => ?_, fun q hq => ?_,
    fun q hq => ?_⟩
  · have hlock := h.locks.lock q
    by_cases hq : q = p
    · rw [hq, hself]
      rw [hq, hp] at hlock
      simp only [ht]
      split <;> simp_all
    · rw [hother q hq, hlock]
      simp only [ht]
      split
      · rename_i hh
        simp [hl hh, Ne.symm hq]
      · rfl
  · by_cases hqp : q = p
    · rw [hsame, hqp, hchan] at hq
      cases hq
    · rw [hother q hqp] at hq ⊢
      exact h.locks.asleep q c hq
  · by_cases hqp : q = p
    · rw [hqp, hself] at hq
      exact absurd hq (hpc i n k)
    · rw [hother q hqp] at hq
      exact h.stored q i n k hq
  · rw [hsame] at hq
    obtain ⟨h₁, h₂⟩ := h.readers q hq
    refine ⟨h₁, h₂.imp_right fun h' => ?_⟩
    obtain ⟨q', i, n, k, e⟩ := h'
    exact ⟨q', i, n, k, by rw [hkeep q' (by rw [e]; rfl), e]⟩
  · rw [hsame] at hq
    obtain ⟨h₁, h₂⟩ := h.writers q hq
    refine ⟨h₁, h₂.imp_right fun h' => ?_⟩
    obtain ⟨q', i, n, e⟩ := h'
    exact ⟨q', i, n, by rw [hkeep q' (by rw [e]; rfl), e]⟩

/-- A process calls, and will wait for the lock at `pc`. -/
theorem Inv.start (pc : PipePc) (h : s.Inv) (hp : (s.proc p).pc = .idle)
    (hpc : pc.holding = false) : (s.goto p pc).Inv := by
  have hchan : (s.proc p).chan = none := by
    cases hch : (s.proc p).chan with
    | none => rfl
    | some c =>
      have := h.locks.asleep p c hch
      rw [hp] at this
      cases this
  have henter := h.enter pc (by rw [hp]; rfl) hchan (fun e => by rw [hpc] at e; cases e)
    fun i n k e => by rw [e] at hpc; cases hpc
  rw [hpc] at henter
  exact henter

/-- Every harmless step keeps the invariant. -/
theorem Inv.step (h : s.Inv) (hs : s.exec a = some s') (hc : s.Harmless a) : s'.Inv := by
  cases a with
  | startWrite p n =>
    simp only [exec] at hs
    split at hs
    · rename_i hpc
      obtain ⟨-, hs⟩ := Option.ite_none_right_eq_some.1 hs
      cases hs
      exact h.start _ hpc rfl
    · cases hs
  | startRead p n =>
    simp only [exec] at hs
    split at hs
    · rename_i hpc
      obtain ⟨-, hs⟩ := Option.ite_none_right_eq_some.1 hs
      cases hs
      exact h.start _ hpc rfl
    · cases hs
  | enter p =>
    obtain ⟨⟨hchan, hl⟩, hs⟩ := Option.ite_none_right_eq_some.1 hs
    split at hs
    · rename_i i n hpc
      cases hs
      exact h.enter (.write i n 0) (by rw [hpc]; rfl) hchan (fun _ => hl) fun _ _ _ e => by cases e
    · rename_i n hpc
      cases hs
      exact h.enter (.read n) (by rw [hpc]; rfl) hchan (fun _ => hl) fun _ _ _ e => by cases e
    · cases hs
  | write p ch =>
    simp only [exec] at hs
    split at hs
    · rename_i hpc
      cases hs
      exact h.pipewrite hpc hc
    · cases hs
  | read p =>
    simp only [exec] at hs
    split at hs
    · rename_i hpc
      cases hs
      exact h.piperead hpc
    · cases hs
  | copy p ok =>
    simp only [exec] at hs
    split at hs
    · rename_i hpc
      cases hs
      exact h.pipecopy hpc
    · cases hs
  | close w =>
    obtain ⟨⟨hl, -⟩, hs⟩ := Option.ite_none_right_eq_some.1 hs
    cases hs
    exact h.pipeclose hl
  | kill p =>
    cases hs
    exact h.kkill p

end PipeState

/-- After an early return that is not harmless, a reader sleeps for nothing. -/
theorem not_wakeful_of_not_harmless {s s' : PipeState} {a : PipeAct} (h : s.Inv)
    (hs : s.exec a = some s') (hc : ¬s.Harmless a) : ¬s'.Wakeful := by
  cases a with
  | write p ch =>
    simp only [PipeState.exec] at hs
    split at hs
    · rename_i i n k hpc
      cases hs
      simp only [PipeState.Harmless, hpc, not_forall, not_not] at hc
      obtain ⟨hi, hearly, hk, q, hq⟩ := hc
      obtain ⟨k, rfl⟩ := Nat.exists_eq_succ_of_ne_zero hk
      have e : s.pipewrite p i n (k + 1) ch = s.finish p (-1) := by
        unfold PipeState.pipewrite
        rw [if_pos hi, if_pos hearly]
      rw [e]
      have hqp : q ≠ p := by
        rintro rfl
        rw [h.locks.awake (by rw [hpc]; rfl)] at hq
        cases hq
      intro hw
      have hq' : ((s.finish p (-1)).proc q).chan = some .nread := by
        simpa [PipeState.finish, hqp] using hq
      exact (h.stored p i n k hpc).2 ((hw rfl q).1 hq').1
    · cases hs
  | _ => exact absurd trivial hc

/-- **No lost wakeup.** In a run of a pipe no process ever sleeps for nothing, if and
    only if no `pipewrite` that has stored bytes since it got the lock returns early
    while a reader sleeps. -/
theorem wakeful_iff_harmless {s₀ : PipeState} {tr : List (PipeAct × PipeState)}
    (h₀ : s₀ ∈ pipeSystem.init) (h : pipeSystem.Run s₀ tr) :
    System.Throughout PipeState.Wakeful s₀ tr ↔ System.Along PipeState.Harmless s₀ tr :=
  h.throughout_iff (PipeState.Initial.inv h₀) (fun _ _ _ hi hs hc => hi.step hs hc)
    (fun _ hi => hi.wakeful) fun _ _ _ hi hs hc => not_wakeful_of_not_harmless hi hs hc

/-- The process `2` sleeps in `piperead` when the process `1` gets the lock in
    `pipewrite`, and stores a byte of the two it writes. -/
def storeActs : List PipeAct :=
  [.startRead 2 1, .enter 2, .read 2, .startWrite 1 2, .enter 1, .write 1 (some 65)]

/-- Killed then, the process `1` returns, and leaves the process `2` asleep. -/
theorem reader_left_asleep : ¬∀ s, pipeSystem.Reachable s → s.Wakeful := by
  intro h
  obtain ⟨tr, hrun, hP⟩ := System.exists_run (m := pipeSystem) (fun _ _ _ hs => hs) freshPipe
    (storeActs ++ [.kill 1, .write 1 (some 66)])
    (fun tr =>
      let s := System.last freshPipe tr
      s.lock = none ∧ (s.proc 2).chan = some .nread ∧ s.pipe.nread ≠ s.pipe.nwrite)
    (by decide)
  obtain ⟨hl, hq, hne⟩ := of_decide_eq_true hP
  exact hne ((h _ (hrun.reachable freshPipe_mem_init) hl 2).1 hq).1

/-- The steps other than early returns of `pipewrite`, executed. -/
def lateExec (s : PipeState) (a : PipeAct) : Option PipeState :=
  match a with
  | .write p ch =>
    if s.pipe.readopen = false ∨ (s.proc p).killed = true then none else s.exec (.write p ch)
  | a => s.exec a

theorem lateExec_step (s : PipeState) (a : PipeAct) (s' : PipeState)
    (h : lateExec s a = some s') : (pipeSystem.restrict PipeState.Harmless).step s a s' := by
  cases a with
  | write p ch =>
    simp only [lateExec] at h
    split at h
    · cases h
    · rename_i hlate
      refine ⟨h, ?_⟩
      rw [PipeState.Harmless]
      split
      · exact fun _ hearly => absurd hearly hlate
      · trivial
  | _ => exact ⟨h, trivial⟩

/-- If it is not killed, it wakes the process `2` up. -/
theorem wakeful_after_write : ∃ tr, pipeSystem.Run freshPipe tr ∧
    (System.last freshPipe tr).pipe.nread ≠ (System.last freshPipe tr).pipe.nwrite ∧
    System.Throughout PipeState.Wakeful freshPipe tr := by
  obtain ⟨tr, hrun, hP⟩ := System.exists_run lateExec_step freshPipe
    (storeActs ++ [.write 1 (some 66), .write 1 none])
    (fun tr => (System.last freshPipe tr).pipe.nread ≠ (System.last freshPipe tr).pipe.nwrite)
    (by decide)
  exact ⟨tr, hrun.of_restrict, of_decide_eq_true hP,
    (wakeful_iff_harmless freshPipe_mem_init hrun.of_restrict).2 hrun.along⟩

end Xv6
