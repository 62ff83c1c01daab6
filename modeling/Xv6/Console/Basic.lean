import Mathlib
import Xv6.Lib.System

/-!
# The console

The input side of the console (`console.c`): a buffer of `INPUT_BUF_SIZE` bytes with three indices
that only wrap, the line that is being typed (from `w` to `e`) and the bytes that can be read (from
`r` to `w`). Every access is under `cons.lock`; a step is all of `consoleintr`, for a byte that
the UART has received, or an iteration of the loop of `consoleread`, which gives up the lock when it
sleeps.

What is echoed to the UART and the process list that `^P` prints are left out. A process that
sleeps in `consoleread` takes no step until there is something to read, or it is killed.
-/

namespace Xv6

/-- `INPUT_BUF_SIZE`. -/
def inputBufSize : UInt32 := 128

/-- `C(x)`, the control character of an upper-case letter. -/
abbrev ctrl (x : Char) : UInt8 := UInt8.ofNat (x.toNat - 64)

/-- The input part of `cons`, without the lock. -/
structure Cons where
  buf : UInt32 → UInt8
  /-- The read index. -/
  r : UInt32
  /-- The write index. -/
  w : UInt32
  /-- The edit index. -/
  e : UInt32

namespace Cons

/-- The loop for `^U`, with `fuel` more iterations at most. -/
def killLine : ℕ → Cons → Cons
  | 0, c => c
  | fuel + 1, c =>
    if c.e ≠ c.w ∧ c.buf ((c.e - 1) % inputBufSize) ≠ 10 then killLine fuel { c with e := c.e - 1 }
    else c

/-- `consoleintr`, without the echo. -/
def consoleintr (s : Cons) (c : UInt8) : Cons :=
  if c = ctrl 'P' then s
  else if c = ctrl 'U' then s.killLine (s.e - s.w).toNat
  else if c = ctrl 'H' ∨ c = 0x7f then
    if s.e ≠ s.w then { s with e := s.e - 1 } else s
  else if c ≠ 0 ∧ s.e - s.r < inputBufSize then
    let c := if c = 13 then 10 else c
    let s := { s with buf := Function.update s.buf (s.e % inputBufSize) c, e := s.e + 1 }
    if c = 10 ∨ c = ctrl 'D' ∨ s.e - s.r = inputBufSize then { s with w := s.e } else s
  else s

end Cons

/-- A call of `consoleread`: the `target`, how many bytes are still wanted, and what was copied. -/
structure ConsRead where
  target : ℤ
  n : ℤ
  out : List UInt8
  deriving DecidableEq

/-- The console, the calls of `consoleread` in progress, and what the last call of each process has
    returned. -/
structure ConsState where
  cons : Cons
  read : ℕ → Option ConsRead
  ret : ℕ → Option (ℤ × List UInt8)

/-- What happens at the console. -/
inductive ConsAct
  /-- The UART has received a byte. -/
  | intr (c : UInt8)
  /-- The process calls `consoleread`. -/
  | start (p : ℕ) (n : ℤ)
  /-- An iteration of its loop, or what follows the loop; `ok` says whether the copy of the byte, if
      there is one, succeeds. -/
  | byte (p : ℕ) (ok : Bool)
  /-- The process is killed while it waits. -/
  | kill (p : ℕ)
  deriving DecidableEq

namespace ConsState

variable (s : ConsState) (p : ℕ)

/-- The call of the process returns. -/
def finish (r : ℤ) (out : List UInt8) : ConsState :=
  { s with
    read := Function.update s.read p none
    ret := Function.update s.ret p (some (r, out)) }

/-- An iteration of the loop of `consoleread`, in which there is something to read. -/
def consoleread (rd : ConsRead) (ok : Bool) : ConsState :=
  let c := s.cons.buf (s.cons.r % inputBufSize)
  let s := { s with cons := { s.cons with r := s.cons.r + 1 } }
  if c = ctrl 'D' then
    let s := if rd.n < rd.target then { s with cons := { s.cons with r := s.cons.r - 1 } } else s
    s.finish p (rd.target - rd.n) rd.out
  else if ok = false then s.finish p (rd.target - rd.n) rd.out
  else
    let rd := { rd with n := rd.n - 1, out := rd.out ++ [c] }
    if c = 10 then s.finish p (rd.target - rd.n) rd.out
    else { s with read := Function.update s.read p (some rd) }

/-- Take an action, if it is possible. -/
def exec : ConsAct → Option ConsState
  | .intr c => some { s with cons := s.cons.consoleintr c }
  | .start p n =>
    match s.read p with
    | none => some { s with read := Function.update s.read p (some ⟨n, n, []⟩) }
    | some _ => none
  | .byte p ok =>
    match s.read p with
    | some rd =>
      if 0 < rd.n then if s.cons.r = s.cons.w then none else some (s.consoleread p rd ok)
      else some (s.finish p (rd.target - rd.n) rd.out)
    | none => none
  | .kill p =>
    match s.read p with
    | some rd =>
      if 0 < rd.n ∧ s.cons.r = s.cons.w then some (s.finish p (-1) rd.out) else none
    | none => none

/-- Nothing was typed, and no process reads. -/
structure Initial : Prop where
  r : s.cons.r = 0
  w : s.cons.w = 0
  e : s.cons.e = 0
  read : ∀ p, s.read p = none

end ConsState

/-- The console. -/
def consSystem : System ConsState ConsAct where
  init := {s | s.Initial}
  step s a s' := s.exec a = some s'

end Xv6
