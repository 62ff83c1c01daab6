import Mathlib
import Xv6.Lib.System

/-!
# The allocator of user programs

`malloc` and `free` of `umalloc.c`: free blocks are kept in a circular list, in the order of their
addresses, through the static header `base`; a block is a header of 16 bytes and what follows it,
and its size counts such units. `malloc` searches the list from where the last search ended and
takes the tail of the first block that is large enough; `free` puts a block where it belongs and
joins it with the blocks that it touches.

Memory is seen as headers: the fields `ptr` and `size` of the header at every address. A program
may overwrite what lies inside of its own blocks. `sbrk` is left open: a call fails, or it returns
memory at some distance above the break.
-/

namespace Xv6.Umalloc

/-- `sizeof(Header)`. -/
def hdrSize : ℕ := 16

/-- The variables of the allocator: the headers in memory, and `freep`, where 0 is NULL. -/
structure Heap where
  ptr : ℕ → ℕ
  size : ℕ → ℕ
  freep : ℕ

namespace Heap

/-- The store `p->s.ptr = q`. -/
def setPtr (h : Heap) (p q : ℕ) : Heap := { h with ptr := Function.update h.ptr p q }

/-- The store `p->s.size = n`, to a `uint`. -/
def setSize (h : Heap) (p n : ℕ) : Heap := { h with size := Function.update h.size p (n % 2 ^ 32) }

/-- The pointer `p + p->s.size`. -/
def top (h : Heap) (p : ℕ) : ℕ := p + hdrSize * h.size p

/-- The loop of `free`: the block of the list behind which `bp` belongs. -/
def search (h : Heap) (bp : ℕ) : ℕ → ℕ → Option ℕ
  | 0, _ => none
  | fuel + 1, p =>
    if bp > p ∧ bp < h.ptr p then some p
    else if p ≥ h.ptr p ∧ (bp > p ∨ bp < h.ptr p) then some p
    else search h bp fuel (h.ptr p)

/-- The first half of `free` behind the loop: `bp` is joined with the block above it. -/
def joinUp (h : Heap) (bp p : ℕ) : Heap :=
  if h.top bp = h.ptr p then
    (h.setSize bp (h.size bp + h.size (h.ptr p))).setPtr bp (h.ptr (h.ptr p))
  else h.setPtr bp (h.ptr p)

/-- The second half of `free` behind the loop: `bp` is joined with the block `p` below it. -/
def joinDown (h : Heap) (bp p : ℕ) : Heap :=
  if h.top p = bp then (h.setSize p (h.size p + h.size bp)).setPtr p (h.ptr bp)
  else h.setPtr p bp

/-- `free`, with `fuel` iterations of its loop at most. -/
def free (h : Heap) (fuel ap : ℕ) : Option Heap := do
  let bp := ap - hdrSize
  let p ← h.search bp fuel h.freep
  some { (h.joinUp bp p).joinDown bp p with freep := p }

end Heap

/-- The memory of a program: the allocator's variables, the break, what was obtained from `sbrk` so
    far, addresses with the units that are there, and what `sbrk` will return, a distance from the
    break or an error. -/
structure Arena where
  heap : Heap
  brk : ℕ
  got : List (ℕ × ℕ)
  answers : List (Option ℕ)

namespace Arena

/-- The units obtained from `sbrk`. -/
def units (a : Arena) : ℕ := (a.got.map Prod.snd).sum

/-- The byte at `x` was obtained from `sbrk`. -/
def Obtained (a : Arena) (x : ℕ) : Prop := ∃ r ∈ a.got, r.1 ≤ x ∧ x < r.1 + hdrSize * r.2

/-- `sbrk(n)`, for `n` units of memory. -/
def sbrk (a : Arena) (n : ℕ) : Option ℕ × Arena :=
  match a.answers with
  | some d :: answers =>
    (some (a.brk + d), { a with
      brk := a.brk + d + n * hdrSize
      got := (a.brk + d, n) :: a.got
      answers := answers })
  | none :: answers => (none, { a with answers := answers })
  | [] => (none, a)

/-- `morecore`. -/
def morecore (a : Arena) (nu : ℕ) : Option (ℕ × Arena) :=
  let nu := if nu < 4096 then 4096 else nu
  match a.sbrk nu with
  | (none, a) => some (0, a)
  | (some p, a) => do
    let h ← (a.heap.setSize p nu).free (2 * a.units + 4) (p + hdrSize)
    some (h.freep, { a with heap := h })

/-- The end of a successful search of `malloc`: all of the block `p`, or the tail of it. -/
def take (a : Arena) (nunits prevp p : ℕ) : ℕ × Arena :=
  let h := a.heap
  if h.size p = nunits then
    (p + hdrSize, { a with heap := { h.setPtr prevp (h.ptr p) with freep := prevp } })
  else
    let h := h.setSize p (h.size p - nunits)
    let q := h.top p
    (q + hdrSize, { a with heap := { h.setSize q nunits with freep := prevp } })

/-- The loop of `malloc`. -/
def mallocLoop (nunits : ℕ) : ℕ → ℕ → ℕ → Arena → Option (ℕ × Arena)
  | 0, _, _, _ => none
  | fuel + 1, prevp, p, a =>
    if a.heap.size p ≥ nunits then some (a.take nunits prevp p)
    else if p = a.heap.freep then do
      let (p, a) ← a.morecore nunits
      if p = 0 then some (0, a) else mallocLoop nunits fuel p (a.heap.ptr p) a
    else mallocLoop nunits fuel p (a.heap.ptr p) a

/-- The units that `malloc` looks for. -/
def nunits (nbytes : ℕ) : ℕ := ((nbytes + hdrSize - 1) / hdrSize + 1) % 2 ^ 32

/-- The initialisation of the list by the first `malloc`. -/
def start (base : ℕ) (h : Heap) : Heap :=
  if h.freep = 0 then (({ h with freep := base }).setPtr base base).setSize base 0 else h

/-- `malloc`; 0 is NULL. -/
def malloc (base : ℕ) (a : Arena) (nbytes : ℕ) : Option (ℕ × Arena) :=
  let a := { a with heap := start base a.heap }
  mallocLoop (nunits nbytes) (2 * a.units + 4) a.heap.freep (a.heap.ptr a.heap.freep) a

end Arena

/-- A program that uses the allocator: its memory, and the blocks that `malloc` has returned and
    that were not freed since, with the bytes asked for. -/
structure Prog where
  arena : Arena
  live : List (ℕ × ℕ)

/-- What a program does with the allocator. -/
inductive HeapAct
  /-- A call of `malloc`, and what `sbrk` returns during it. -/
  | malloc (nbytes : ℕ) (answers : List (Option ℕ))
  /-- A call of `free`. -/
  | free (ap : ℕ)
  /-- Stores that change the headers in memory to `ptr` and `size`. -/
  | store (ptr size : ℕ → ℕ)

namespace Prog

/-- The header at `x` overlaps what a program may store to: a live block without its own header. -/
def Writable (s : Prog) (x : ℕ) : Prop :=
  ∃ l ∈ s.live, l.1 < x + hdrSize ∧ x < s.arena.heap.top (l.1 - hdrSize)

/-- A call of `malloc` or `free` that a program may make. A request is such that `sbrk` gets its size
    as an `int`, and only live blocks are freed. -/
def exec (base : ℕ) (s : Prog) : HeapAct → Option Prog
  | .malloc nbytes answers =>
    if Arena.nunits nbytes * hdrSize < 2 ^ 31 ∧ nbytes < 2 ^ 32 then do
      let (ap, a) ← Arena.malloc base { s.arena with answers := answers } nbytes
      some ⟨a, if ap = 0 then s.live else (ap, nbytes) :: s.live⟩
    else none
  | .free ap =>
    if ap ∈ s.live.map Prod.fst then do
      let h ← s.arena.heap.free (2 * s.arena.units + 4) ap
      some ⟨{ s.arena with heap := h }, s.live.eraseP fun l => l.1 = ap⟩
    else none
  | .store _ _ => none

end Prog

/-- The programs that use the allocator, in memory whose static data with `base` in it lies below
    the break. -/
def heapSystem (base : ℕ) : System Prog HeapAct where
  init := { s | 0 < base ∧ base + hdrSize ≤ s.arena.brk ∧ s.arena.heap.freep = 0 ∧
    s.arena.got = [] ∧ s.live = [] }
  step s a s' :=
    match a with
    | .store ptr size =>
      (∀ x, ¬ s.Writable x → ptr x = s.arena.heap.ptr x ∧ size x = s.arena.heap.size x) ∧
        s' = { s with arena.heap.ptr := ptr, arena.heap.size := size }
    | a => s.exec base a = some s'

end Xv6.Umalloc
