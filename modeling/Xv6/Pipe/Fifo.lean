import Xv6.Lib.Ring
import Xv6.Pipe.Basic

/-!
# A pipe is a queue

The bytes that the writers store in a pipe, in the order they store them, are the bytes
that the readers get, followed by the bytes that are still in the pipe (`pipe_fifo`). The
counters `nread` and `nwrite` wrap at `2 ^ 32`; as `PIPESIZE` divides it, the pipe is a
ring buffer (`Ring`).
-/

namespace Xv6

theorem pipeSize_dvd : pipeSize.toNat ∣ 2 ^ 32 := by decide

namespace PipeState

variable (s : PipeState)

/-- The bytes in the pipe. -/
def queued : List UInt8 := Ring.contents pipeSize s.pipe.data s.pipe.nread s.pipe.nwrite

/-- The byte that an action stores in the pipe. -/
def stores : PipeAct → List UInt8
  | .write p (some ch) =>
    match (s.proc p).pc with
    | .write i n _ =>
      if i < n ∧ ¬(s.pipe.readopen = false ∨ (s.proc p).killed = true) ∧
          s.pipe.nwrite ≠ s.pipe.nread + pipeSize then [ch]
      else []
    | _ => []
  | _ => []

/-- The byte that an action copies to the memory of a reader. -/
def delivers : PipeAct → List UInt8
  | .copy p true =>
    match (s.proc p).pc with
    | .copy i n =>
      if i < n ∧ s.pipe.nread ≠ s.pipe.nwrite then [s.pipe.data (s.pipe.nread % pipeSize)]
      else []
    | _ => []
  | _ => []

end PipeState

/-- The copy to user memory, if the action makes one, succeeds. -/
def PipeAct.CopyoutOk : PipeAct → Prop
  | .copy _ ok => ok = true
  | _ => True

instance : DecidablePred PipeAct.CopyoutOk := fun a => by
  cases a <;> unfold PipeAct.CopyoutOk <;> infer_instance

namespace PipeState

variable {s s' : PipeState} {p : ℕ} {a : PipeAct}

/-- The pipe holds `PIPESIZE` bytes at most. -/
def Bounded (s : PipeState) : Prop := (s.pipe.nwrite - s.pipe.nread).toNat ≤ pipeSize.toNat

/-- What a step from `s` to `s'` does to the queue, when it stores the bytes `xs` and
    delivers the bytes `ys`. -/
def Queues (s s' : PipeState) (xs ys : List UInt8) : Prop :=
  s'.Bounded ∧ s.queued ++ xs = ys ++ s'.queued

theorem queues_of_pipe (hb : s.Bounded) (h : s'.pipe.data = s.pipe.data)
    (hr : s'.pipe.nread = s.pipe.nread) (hw : s'.pipe.nwrite = s.pipe.nwrite) :
    Queues s s' [] [] := by
  refine ⟨?_, ?_⟩
  · rw [Bounded, hr, hw]
    exact hb
  · rw [List.append_nil, List.nil_append, queued, queued, h, hr, hw]

/-- The pipe is not full. -/
theorem Bounded.lt (hb : s.Bounded) (h : s.pipe.nwrite ≠ s.pipe.nread + pipeSize) :
    (s.pipe.nwrite - s.pipe.nread).toNat < pipeSize.toNat := by
  refine lt_of_le_of_ne hb fun he => h ?_
  have := UInt32.toNat_inj.1 he
  grind

theorem queues_pipewrite {i : ℕ} {n : ℤ} {k : ℕ} {ch : Option UInt8} (hb : s.Bounded)
    (hpc : (s.proc p).pc = .write i n k) :
    Queues s (s.pipewrite p i n k ch) (s.stores (.write p ch)) [] := by
  unfold pipewrite
  split
  swap
  · -- What follows the loop.
    rename_i hi
    have hx : s.stores (.write p ch) = [] := by
      cases ch <;> simp [stores, hpc, hi]
    rw [hx]
    exact queues_of_pipe hb rfl rfl rfl
  rename_i hi
  split
  · rename_i hearly
    have hx : s.stores (.write p ch) = [] := by
      cases ch <;> simp [stores, hpc, hearly]
    rw [hx]
    exact queues_of_pipe hb rfl rfl rfl
  rename_i hopen
  split
  · rename_i hfull
    have hx : s.stores (.write p ch) = [] := by
      cases ch <;> simp [stores, hpc, hfull]
    rw [hx]
    exact queues_of_pipe hb rfl rfl rfl
  rename_i hroom
  cases ch with
  | none => exact queues_of_pipe hb rfl rfl rfl
  | some ch =>
    have hlt := hb.lt hroom
    have hx : s.stores (.write p (some ch)) = [ch] := by
      simp only [stores, hpc]
      exact if_pos ⟨hi, hopen, hroom⟩
    rw [hx]
    refine ⟨?_, ?_⟩
    · change (s.pipe.nwrite + 1 - s.pipe.nread).toNat ≤ pipeSize.toNat
      rw [Ring.toNat_push pipeSize_dvd hlt]
      exact hlt
    · exact (Ring.contents_push pipeSize_dvd hlt ch).symm

theorem queues_pipecopy {i : ℕ} {n : ℤ} (hb : s.Bounded) (hpc : (s.proc p).pc = .copy i n) :
    Queues s (s.pipecopy p i n true) [] (s.delivers (.copy p true)) := by
  unfold pipecopy
  split
  · rename_i hi
    have hy : s.delivers (.copy p true) = [s.pipe.data (s.pipe.nread % pipeSize)] := by
      simp only [delivers, hpc]
      exact if_pos hi
    rw [hy, if_pos rfl]
    refine ⟨?_, ?_⟩
    · change (s.pipe.nwrite - (s.pipe.nread + 1)).toNat ≤ pipeSize.toNat
      have hpop := Ring.toNat_pop hi.2
      have hle : (s.pipe.nwrite - s.pipe.nread).toNat ≤ pipeSize.toNat := hb
      omega
    · rw [List.append_nil]
      exact Ring.contents_pop hi.2
  · rename_i hi
    have hy : s.delivers (.copy p true) = [] := by
      simp only [delivers, hpc]
      exact if_neg hi
    rw [hy]
    exact queues_of_pipe hb rfl rfl rfl

/-- What a step does to the queue. -/
theorem queues_exec (hb : s.Bounded) (hs : s.exec a = some s') (ha : a.CopyoutOk) :
    Queues s s' (s.stores a) (s.delivers a) := by
  cases a with
  | startWrite p n =>
    simp only [exec] at hs
    split at hs
    · rw [Option.ite_none_right_eq_some] at hs
      cases hs.2
      exact queues_of_pipe hb rfl rfl rfl
    · cases hs
  | startRead p n =>
    simp only [exec] at hs
    split at hs
    · rw [Option.ite_none_right_eq_some] at hs
      cases hs.2
      exact queues_of_pipe hb rfl rfl rfl
    · cases hs
  | enter p =>
    obtain ⟨-, hs⟩ := Option.ite_none_right_eq_some.1 hs
    split at hs <;> cases hs <;> exact queues_of_pipe hb rfl rfl rfl
  | write p ch =>
    simp only [exec] at hs
    split at hs
    · rename_i hpc
      cases hs
      exact queues_pipewrite hb hpc
    · cases hs
  | read p =>
    simp only [exec] at hs
    split at hs
    · cases hs
      refine queues_of_pipe hb ?_ ?_ ?_ <;> unfold piperead <;> split <;> (try split) <;> rfl
    · cases hs
  | copy p ok =>
    obtain rfl : ok = true := ha
    simp only [exec] at hs
    split at hs
    · rename_i hpc
      cases hs
      exact queues_pipecopy hb hpc
    · cases hs
  | close w =>
    obtain ⟨-, hs⟩ := Option.ite_none_right_eq_some.1 hs
    cases hs
    refine queues_of_pipe hb ?_ ?_ ?_ <;> unfold pipeclose <;> split <;> rfl
  | kill p =>
    cases hs
    exact queues_of_pipe hb rfl rfl rfl

end PipeState

/-- **A pipe is a queue.** In every run in which the copies to user memory succeed, the pipe
    holds `PIPESIZE` bytes at most, and the bytes stored are the bytes delivered followed by
    those in the pipe. -/
theorem pipe_fifo {s₀ : PipeState} {tr : List (PipeAct × PipeState)}
    (h₀ : s₀ ∈ pipeSystem.init) (h : pipeSystem.Run s₀ tr)
    (hc : System.Along (fun _ a => a.CopyoutOk) s₀ tr) :
    (System.last s₀ tr).Bounded ∧
      System.output PipeState.stores s₀ tr =
        System.output PipeState.delivers s₀ tr ++ (System.last s₀ tr).queued := by
  induction h with
  | nil =>
    have hb : s₀.Bounded := by
      rw [PipeState.Bounded, PipeState.Initial.nread h₀, PipeState.Initial.nwrite h₀]
      decide
    refine ⟨hb, ?_⟩
    change [] = s₀.queued
    rw [PipeState.queued, PipeState.Initial.nread h₀, PipeState.Initial.nwrite h₀, Ring.contents_self]
  | cons hrun hstep ih =>
    obtain ⟨hb, hq⟩ := ih hc.2
    obtain ⟨hb', hq'⟩ := PipeState.queues_exec hb hstep hc.1
    refine ⟨hb', ?_⟩
    simp only [System.output]
    rw [hq, List.append_assoc, hq', List.append_assoc]
    rfl

/-- A process stores three bytes, and another one gets the first two of them. -/
theorem pipe_fifo_two_of_three : ∃ tr, pipeSystem.Run freshPipe tr ∧
    System.output PipeState.stores freshPipe tr = [65, 66, 67] ∧
    System.output PipeState.delivers freshPipe tr = [65, 66] ∧
    (System.last freshPipe tr).queued = [67] := by
  obtain ⟨tr, hrun, hP⟩ := System.exists_run (m := pipeSystem) (fun _ _ _ hs => hs) freshPipe
    [.startWrite 1 3, .enter 1, .write 1 (some 65), .write 1 (some 66), .write 1 (some 67),
      .write 1 none, .startRead 2 2, .enter 2, .read 2, .copy 2 true, .copy 2 true, .copy 2 true]
    (fun tr => System.Along (fun _ a => a.CopyoutOk) freshPipe tr ∧
      System.output PipeState.stores freshPipe tr = [65, 66, 67] ∧
      System.output PipeState.delivers freshPipe tr = [65, 66])
    (by decide)
  obtain ⟨hc, hst, hd⟩ := of_decide_eq_true hP
  obtain ⟨-, hq⟩ := pipe_fifo freshPipe_mem_init hrun hc
  rw [hst, hd] at hq
  exact ⟨tr, hrun, hst, hd, by simpa using hq.symm⟩

end Xv6
