import Xv6.Pipe.Fifo

/-!
# Reading from a pipe into a bad buffer

A call of `piperead` as a whole, once it has the lock: the waiting loop lets it through, or it
sleeps or returns, and the copying loop then takes bytes out of the pipe one by one and copies
each to user memory, where the copy may fail at any byte. A byte is taken before it is copied, so
that the byte whose copy fails is lost (`pipecopy`); `pipewrite` does it the other way around, and
stores a byte only after it was copied.

`piperead_lossless_iff` says when nothing is lost.
-/

namespace Xv6

namespace PipeState

/-- The iterations of the copying loop of `piperead` that the process `p` does until it returns,
    `fuel` at most; `ok i` says whether `copyout` to the address `addr + i` succeeds. -/
def copyLoop (p : ℕ) (ok : ℕ → Bool) : ℕ → PipeState → PipeState
  | 0, s => s
  | fuel + 1, s =>
    match (s.proc p).pc with
    | .copy i n => copyLoop p ok fuel (s.pipecopy p i n (ok i))
    | _ => s

/-- The bytes that these iterations copy to user memory. -/
def copied (p : ℕ) (ok : ℕ → Bool) : ℕ → PipeState → List UInt8
  | 0, _ => []
  | fuel + 1, s =>
    match (s.proc p).pc with
    | .copy i n => s.delivers (.copy p (ok i)) ++ copied p ok fuel (s.pipecopy p i n (ok i))
    | _ => []

/-- What the process `p`, which has the lock, does in `piperead` until it returns or sleeps. -/
def pipereadCall (s : PipeState) (p : ℕ) (n : ℤ) (ok : ℕ → Bool) : PipeState :=
  copyLoop p ok (n.toNat + 1) (s.piperead p n)

/-- The bytes that it gets. -/
def pipereadBytes (s : PipeState) (p : ℕ) (n : ℤ) (ok : ℕ → Bool) : List UInt8 :=
  copied p ok (n.toNat + 1) (s.piperead p n)

/-- The bytes that a call of `piperead` takes out of the pipe are those that it delivers, the
    count that it returns is their number, and `nread` advances by this count. What comes next in
    the pipe is thus the byte whose delivery failed. -/
structure Lossless (s : PipeState) (p : ℕ) (n : ℤ) (ok : ℕ → Bool) : Prop where
  queued : s.queued = s.pipereadBytes p n ok ++ (s.pipereadCall p n ok).queued
  ret : ((s.pipereadCall p n ok).proc p).pc = .idle → 0 ≤ ((s.pipereadCall p n ok).proc p).ret →
    ((s.pipereadCall p n ok).proc p).ret = (s.pipereadBytes p n ok).length
  nread : (s.pipereadCall p n ok).pipe.nread =
    s.pipe.nread + UInt32.ofNat (s.pipereadBytes p n ok).length

variable {s t : PipeState} {p i : ℕ} {n : ℤ} {ok : ℕ → Bool} {out : List UInt8}

/-- What the copying loop has done from the `i`-th byte on, where `out` are the bytes it copied
    and `lost` those it took without copying them. -/
structure Copied (p i : ℕ) (n : ℤ) (ok : ℕ → Bool) (s t : PipeState) (out lost : List UInt8) :
    Prop where
  pc : (t.proc p).pc = .idle
  ret : (t.proc p).ret = i + out.length
  queued : s.queued = out ++ (lost ++ t.queued)
  nread : t.pipe.nread = s.pipe.nread + UInt32.ofNat (out.length + lost.length)
  lost : lost = [] ↔ ∀ j : ℕ, (i + j : ℤ) < n → j < s.queued.length → ok (i + j) = true

/-- The loop ends as there is nothing more to take. -/
theorem Copied.done (hpc : (t.proc p).pc = .idle) (hret : (t.proc p).ret = i)
    (hpipe : t.pipe = s.pipe) (hi : ¬(i < n ∧ s.pipe.nread ≠ s.pipe.nwrite)) :
    Copied p i n ok s t [] [] := by
  have hq : t.queued = s.queued := by rw [PipeState.queued, hpipe, PipeState.queued]
  refine ⟨hpc, by simpa using hret, by simp [hq], by simp [hpipe], fun _ j hj hlen => ?_, fun _ => rfl⟩
  rw [not_and_or, not_not] at hi
  rcases hi with hi | hi
  · omega
  · rw [PipeState.queued, hi, Ring.contents_self] at hlen
    exact absurd hlen (Nat.not_lt_zero j)

/-- The copy of the next byte fails. -/
theorem Copied.fail (hpc : (t.proc p).pc = .idle) (hret : (t.proc p).ret = i)
    (hpipe : t.pipe = { s.pipe with nread := s.pipe.nread + 1 })
    (hi : i < n ∧ s.pipe.nread ≠ s.pipe.nwrite) (hok : ok i = false) :
    Copied p i n ok s t [] [s.pipe.data (s.pipe.nread % pipeSize)] := by
  have hq : s.queued = s.pipe.data (s.pipe.nread % pipeSize) :: t.queued := by
    rw [PipeState.queued, Ring.contents_pop hi.2, PipeState.queued, hpipe]
  refine ⟨hpc, by simpa using hret, by simp [hq], by simp [hpipe], fun h => ?_, fun h => ?_⟩
  · cases h
  · have := h 0 (by simpa using hi.1) (by rw [hq]; exact Nat.succ_pos _)
    rw [Nat.add_zero, hok] at this
    cases this

/-- The next byte is copied. -/
theorem Copied.cons {u : PipeState} {lost : List UInt8}
    (hpipe : u.pipe = { s.pipe with nread := s.pipe.nread + 1 })
    (hi : i < n ∧ s.pipe.nread ≠ s.pipe.nwrite) (hok : ok i = true)
    (h : Copied p (i + 1) n ok u t out lost) :
    Copied p i n ok s t (s.pipe.data (s.pipe.nread % pipeSize) :: out) lost := by
  have hq : s.queued = s.pipe.data (s.pipe.nread % pipeSize) :: u.queued := by
    rw [PipeState.queued, Ring.contents_pop hi.2, PipeState.queued, hpipe]
  refine ⟨h.pc, ?_, by rw [hq, h.queued, List.cons_append], ?_, h.lost.trans ⟨fun hall j hj hlen => ?_,
    fun hall j hj hlen => ?_⟩⟩
  · rw [h.ret, List.length_cons]
    push_cast
    omega
  · rw [h.nread, hpipe, List.length_cons, Nat.add_right_comm, UInt32.ofNat_add _ 1]
    grind
  · rcases j with _ | j
    · exact hok
    · have := hall j (by push_cast at hj ⊢; omega) (by rw [hq] at hlen; simpa using hlen)
      rwa [Nat.add_right_comm] at this
  · have := hall (j + 1) (by push_cast at hj ⊢; omega) (by rw [hq]; simpa using hlen)
    rwa [Nat.add_right_comm]

theorem copyLoop_of_idle {fuel : ℕ} (hpc : (s.proc p).pc = .idle) : copyLoop p ok fuel s = s := by
  cases fuel with
  | zero => rfl
  | succ fuel => simp only [copyLoop, hpc]

theorem copied_of_idle {fuel : ℕ} (hpc : (s.proc p).pc = .idle) : copied p ok fuel s = [] := by
  cases fuel with
  | zero => rfl
  | succ fuel => simp only [copied, hpc]

theorem finish_idle (r : ℤ) : ((s.finish p r).proc p).pc = .idle ∧ ((s.finish p r).proc p).ret = r := by
  simp [finish]

/-- What the copying loop does. -/
theorem copied_copyLoop (ok : ℕ → Bool) (fuel : ℕ) (hpc : (s.proc p).pc = .copy i n)
    (hfuel : (n - i).toNat < fuel) :
    ∃ lost, Copied p i n ok s (copyLoop p ok fuel s) (copied p ok fuel s) lost := by
  induction fuel generalizing s i with
  | zero => exact absurd hfuel (Nat.not_lt_zero _)
  | succ fuel ih =>
    simp only [copyLoop, copied, hpc]
    by_cases hi : i < n ∧ s.pipe.nread ≠ s.pipe.nwrite
    · rw [pipecopy, if_pos hi]
      cases hok : ok i with
      | false =>
        refine ⟨[s.pipe.data (s.pipe.nread % pipeSize)], ?_⟩
        rw [if_neg Bool.false_ne_true, copyLoop_of_idle (finish_idle _).1,
          copied_of_idle (finish_idle _).1]
        exact .fail (finish_idle _).1 (finish_idle _).2 rfl hi hok
      | true =>
        have hd : s.delivers (.copy p true) = [s.pipe.data (s.pipe.nread % pipeSize)] := by
          simp only [delivers, hpc]
          exact if_pos hi
        rw [if_pos rfl, hd]
        obtain ⟨lost, h⟩ := ih (s := { s with pipe := { s.pipe with nread := s.pipe.nread + 1 } }.goto p
          (.copy (i + 1) n)) (i := i + 1) (by simp [goto]) (by omega)
        exact ⟨lost, h.cons rfl hi hok⟩
    · have hd : s.delivers (.copy p (ok i)) = [] := by
        cases ok i with
        | false => rfl
        | true =>
          simp only [delivers, hpc]
          exact if_neg hi
      rw [pipecopy, if_neg hi, hd]
      refine ⟨[], ?_⟩
      rw [copyLoop_of_idle (finish_idle _).1, copied_of_idle (finish_idle _).1]
      exact .done (finish_idle _).1 (finish_idle _).2 rfl hi

/-- Nothing is taken, and nothing delivered. -/
theorem lossless_of_pipe_eq (hcall : s.pipereadCall p n ok = t) (hbytes : s.pipereadBytes p n ok = [])
    (hpipe : t.pipe = s.pipe) (hret : (t.proc p).pc = .idle → (t.proc p).ret < 0) :
    s.Lossless p n ok := by
  refine ⟨?_, fun hidle hnonneg => ?_, ?_⟩
  · rw [hcall, hbytes, List.nil_append, PipeState.queued, ← hpipe, PipeState.queued]
  · rw [hcall] at hidle hnonneg
    exact absurd (hret hidle) (Int.not_lt.2 hnonneg)
  · rw [hcall, hbytes, hpipe]
    simp

/-- If the waiting loop does not let the process through, nothing is taken. -/
theorem lossless_of_wait (h : s.pipe.nread = s.pipe.nwrite ∧ s.pipe.writeopen = true) :
    s.Lossless p n ok := by
  by_cases hk : (s.proc p).killed
  · have hs : s.piperead p n = s.finish p (-1) := by rw [piperead, if_pos h, if_pos hk]
    refine lossless_of_pipe_eq (t := s.finish p (-1)) ?_ ?_ rfl fun _ => ?_
    · rw [pipereadCall, hs, copyLoop_of_idle (finish_idle _).1]
    · rw [pipereadBytes, hs, copied_of_idle (finish_idle _).1]
    · rw [(finish_idle _).2]
      decide
  · have hs : s.piperead p n = s.sleep p .nread (.enterRead n) := by
      rw [piperead, if_pos h, if_neg hk]
    have hpc : ((s.sleep p .nread (.enterRead n)).proc p).pc = .enterRead n := by simp [sleep]
    refine lossless_of_pipe_eq (t := s.sleep p .nread (.enterRead n)) ?_ ?_ rfl fun hidle => ?_
    · simp only [pipereadCall, hs, copyLoop, hpc]
    · simp only [pipereadBytes, hs, copied, hpc]
    · rw [hpc] at hidle
      cases hidle

/-- A pipe that holds two bytes. -/
def twoBytes : PipeState :=
  { freshPipe with pipe := { freshPipe.pipe with
      data := Function.update (Function.update (fun _ => 0) 0 65) 1 66
      nwrite := 2 } }

end PipeState

/-- **`piperead` loses a byte exactly if a copy fails.** A call of `piperead` takes out of the
    pipe just what it delivers if, and only if, `copyout` succeeds for each of the bytes that it
    comes to: `n` of them, or all those that are in the pipe. -/
theorem piperead_lossless_iff (s : PipeState) (p : ℕ) (n : ℤ) (ok : ℕ → Bool) :
    s.Lossless p n ok ↔ ∀ i : ℕ, (i : ℤ) < n → i < s.queued.length → ok i = true := by
  by_cases h : s.pipe.nread = s.pipe.nwrite ∧ s.pipe.writeopen = true
  · refine iff_of_true (PipeState.lossless_of_wait h) fun i _ hlen => ?_
    rw [PipeState.queued, h.1, Ring.contents_self] at hlen
    exact absurd hlen (Nat.not_lt_zero i)
  have hs : s.piperead p n = s.goto p (.copy 0 n) := by rw [PipeState.piperead, if_neg h]
  obtain ⟨lost, hc⟩ := PipeState.copied_copyLoop (s := s.goto p (.copy 0 n)) (p := p) (i := 0)
    (n := n) ok (n.toNat + 1) (by simp [PipeState.goto]) (by omega)
  have hcall : s.pipereadCall p n ok =
      PipeState.copyLoop p ok (n.toNat + 1) (s.goto p (.copy 0 n)) := by
    rw [PipeState.pipereadCall, hs]
  have hbytes : s.pipereadBytes p n ok =
      PipeState.copied p ok (n.toNat + 1) (s.goto p (.copy 0 n)) := by
    rw [PipeState.pipereadBytes, hs]
  rw [← hcall, ← hbytes] at hc
  have hqueued : s.queued = _ := hc.queued
  have hcond := hc.lost
  simp only [Nat.cast_zero, zero_add] at hcond
  refine Iff.trans ⟨fun hl => ?_, fun hl => ?_⟩ hcond
  · -- The queue has lost as many bytes as were delivered.
    have hlen := congrArg List.length (hl.queued.symm.trans hqueued)
    simp only [List.length_append] at hlen
    exact List.eq_nil_of_length_eq_zero (by omega)
  · subst hl
    exact ⟨hqueued, fun _ _ => by simpa using hc.ret, hc.nread⟩

/-- A process reads two bytes into a buffer that cannot be written: it gets nothing, and the first
    byte is gone. -/
theorem piperead_loses : ¬PipeState.twoBytes.Lossless 0 2 (fun _ => false) ∧
    PipeState.twoBytes.queued = [65, 66] ∧
    ((PipeState.twoBytes.pipereadCall 0 2 fun _ => false).proc 0).ret = 0 ∧
    (PipeState.twoBytes.pipereadCall 0 2 fun _ => false).queued = [66] := by
  refine ⟨fun h => ?_, by decide, by decide +kernel, by decide +kernel⟩
  have := h.nread
  revert this
  decide

end Xv6
