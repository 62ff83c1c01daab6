import Xv6.Lib.Wp
import Xv6.Vm.Pte

/-!
# User memory

The page allocator (`kalloc.c`) and the functions on page tables of `vm.c`, on the
physical memory (`Vm`). A page table is the address of its root page; an entry of it
is found by `walk`, as the page of the page table that holds it and its index there.

The code runs in the monad `VmM`: a computation may stop at a panic, or at an access
through a null pointer. Whether a call of `kalloc` finds no memory is left open
(`Vm.fails`), so that it may fail at any call.
-/

namespace Xv6

/-- Why a computation stops. -/
inductive VmPanic
  /-- `kfree` of an address that is not that of a page. -/
  | kfree
  /-- `walk` of an address from `MAXVA` on. -/
  | walk
  /-- `mappages` of addresses that are not aligned, or of none. -/
  | mappages
  /-- `mappages` of a page that is mapped. -/
  | remap
  /-- `uvmunmap` of an address that is not aligned. -/
  | uvmunmap
  /-- `freewalk` meets a leaf. -/
  | freewalk
  /-- `uvmclear` of a page without entry. -/
  | uvmclear
  /-- `loadseg` of a page that is not mapped. -/
  | loadseg
  /-- The first process exits. -/
  | initExiting
  /-- An access through a null pointer. -/
  | null
  /-- A page table deeper than the model follows it. -/
  | depth
  deriving DecidableEq

/-- Where the kernel is in physical memory: the address `end` of the first byte after
    it, and that of the page of the trampoline. -/
structure Kernel where
  kend : ℕ
  trampoline : ℕ
  kend_pos : 0 < kend
  kend_le : kend ≤ physTop
  trampoline_page : PageAddr trampoline

/-- The physical memory and its allocator. -/
structure Vm where
  mem : Mem
  /-- `kmem.freelist`, as a list of pages. -/
  freelist : List ℕ
  /-- The calls of `kalloc` that find no memory, even if some is free. -/
  fails : ℕ → Bool
  /-- The number of calls of `kalloc`. -/
  calls : ℕ
  /-- Has a page been freed that was free? -/
  refreed : Bool

/-- Computations on the memory. -/
abbrev VmM := EStateM VmPanic Vm

/-! ## Pages -/

/-- A page, filled with junk, or `0`. -/
def kalloc : VmM ℕ := do
  let s ← get
  match s.freelist with
  | [] =>
    set { s with calls := s.calls + 1 }
    pure 0
  | r :: rest =>
    if s.fails s.calls then do
      set { s with calls := s.calls + 1 }
      pure 0
    else do
      set { s with
        calls := s.calls + 1, freelist := rest, mem := Function.update s.mem r (.fill 5) }
      pure r

/-- Free a page. -/
def kfree (k : Kernel) (pa : ℕ) : VmM PUnit := do
  if pa % pgsize ≠ 0 ∨ pa < k.kend ∨ physTop ≤ pa then throw .kfree
  else modify fun s =>
    { s with
      mem := Function.update s.mem pa (.fill 1)
      freelist := pa :: s.freelist
      refreed := s.refreed || pa ∈ s.freelist }

/-- `freerange(end, PHYSTOP)`: all pages after the kernel are free. -/
def kinit (k : Kernel) : VmM PUnit :=
  forRange (fun i => kfree k (pgRoundUp k.kend + i * pgsize)) 0
    ((physTop - pgRoundUp k.kend) / pgsize)

/-- `memset(a, v, PGSIZE)`. -/
def memset (a : ℕ) (v : UInt8) : VmM PUnit :=
  modify fun s => { s with mem := Function.update s.mem a (.fill v) }

/-- Store bytes from an offset in a page on. -/
def storePage (a off : ℕ) (bs : List UInt8) : VmM PUnit :=
  modify fun s => { s with mem := Function.update s.mem a ((s.mem a).write off bs) }

/-- `memmove(dst, src, PGSIZE)`. -/
def movePage (dst src : ℕ) : VmM PUnit :=
  modify fun s => { s with mem := Function.update s.mem dst (s.mem src) }

/-- Store the entry `i` of the page `a` of a page table. -/
def setPte (a i v : ℕ) : VmM PUnit := modify fun s => { s with mem := s.mem.setPte a i v }

/-! ## Page tables -/

/-- The loop of `walk`, from a level down to level `0`. -/
def walkFrom (alloc : Bool) (va : ℕ) : ℕ → ℕ → VmM (Option (ℕ × ℕ))
  | 0, pagetable => pure (some (pagetable, px 0 va))
  | level + 1, pagetable => do
    let s ← get
    let pte := s.mem.pte pagetable (px (level + 1) va)
    if pteV pte then walkFrom alloc va level (pteAddr pte)
    else if alloc then do
      let child ← kalloc
      if child = 0 then pure none
      else do
        memset child 0
        setPte pagetable (px (level + 1) va) (mkPte child 0)
        walkFrom alloc va level child
    else pure none

/-- The entry of `va`: the page that holds it and its index, creating the pages of the
    page table it needs if `alloc`. -/
def walk (pagetable va : ℕ) (alloc : Bool) : VmM (Option (ℕ × ℕ)) :=
  if maxVa ≤ va then throw .walk else walkFrom alloc va 2 pagetable

/-- The physical address of a user page, or `0`. -/
def walkaddr (pagetable va : ℕ) : VmM ℕ :=
  if maxVa ≤ va then pure 0
  else do
    match ← walk pagetable va false with
    | none => pure 0
    | some (a, i) =>
      let s ← get
      let pte := s.mem.pte a i
      if pteV pte ∧ pteU pte then pure (pteAddr pte) else pure 0

/-- The loop of `mappages`, for `n` more pages. -/
def mapFrom (pagetable perm : ℕ) : ℕ → ℕ → ℕ → VmM Bool
  | 0, _, _ => pure true
  | n + 1, a, pa => do
    match ← walk pagetable a true with
    | none => pure false
    | some (b, i) =>
      let s ← get
      if pteV (s.mem.pte b i) then throw .remap
      else do
        setPte b i (mkPte pa perm)
        mapFrom pagetable perm n (a + pgsize) ((pa + pgsize) % 2 ^ 64)

/-- Map `size` bytes from `va` on to the physical memory from `pa` on; `false` if a page
    of the page table cannot be allocated. -/
def mappages (pagetable va size pa perm : ℕ) : VmM Bool :=
  if va % pgsize ≠ 0 ∨ size % pgsize ≠ 0 ∨ size = 0 then throw .mappages
  else mapFrom pagetable perm (size / pgsize) va pa

/-- An empty page table, or `0`. -/
def uvmcreate : VmM ℕ := do
  let pagetable ← kalloc
  if pagetable = 0 then pure 0
  else do
    memset pagetable 0
    pure pagetable

/-- An iteration of `uvmunmap`. -/
def unmapPage (k : Kernel) (pagetable : ℕ) (doFree : Bool) (a : ℕ) : VmM PUnit := do
  match ← walk pagetable a false with
  | none => pure ⟨⟩
  | some (b, i) =>
    let s ← get
    let pte := s.mem.pte b i
    if pteV pte then do
      (if doFree then kfree k (pteAddr pte) else pure ⟨⟩)
      setPte b i 0
    else pure ⟨⟩

/-- Remove the mappings of `npages` pages from `va` on, freeing the pages if `doFree`. -/
def uvmunmap (k : Kernel) (pagetable va npages : ℕ) (doFree : Bool) : VmM PUnit :=
  if va % pgsize ≠ 0 then throw .uvmunmap
  else
    let stop := (va + npages * pgsize) % 2 ^ 64
    forRange (fun i => unmapPage k pagetable doFree (va + i * pgsize)) 0 ((stop - va) / pgsize)

/-- Free the user pages between `newsz` and `oldsz`; returns the new size. -/
def uvmdealloc (k : Kernel) (pagetable oldsz newsz : ℕ) : VmM ℕ :=
  if oldsz ≤ newsz then pure oldsz
  else do
    (if pgRoundUp newsz < pgRoundUp oldsz then
      let npages := toInt ((pgRoundUp oldsz - pgRoundUp newsz) / pgsize)
      uvmunmap k pagetable (pgRoundUp newsz) (addInt 0 npages) true
    else pure ⟨⟩)
    pure newsz

/-- The loop of `uvmalloc`, for `n` more pages from `a` on. -/
def allocFrom (k : Kernel) (pagetable oldsz xperm : ℕ) : ℕ → ℕ → VmM Bool
  | 0, _ => pure true
  | n + 1, a => do
    let mem ← kalloc
    if mem = 0 then do
      let _ ← uvmdealloc k pagetable a oldsz
      pure false
    else do
      memset mem 0
      if ← mappages pagetable a pgsize mem (permR ||| permU ||| xperm) then
        allocFrom k pagetable oldsz xperm n (a + pgsize)
      else do
        kfree k mem
        let _ ← uvmdealloc k pagetable a oldsz
        pure false

/-- Allocate the user pages from `oldsz` to `newsz`; returns the new size, or `0`. -/
def uvmalloc (k : Kernel) (pagetable oldsz newsz xperm : ℕ) : VmM ℕ :=
  if newsz < oldsz then pure oldsz
  else do
    let oldsz := pgRoundUp oldsz
    if ← allocFrom k pagetable oldsz xperm ((newsz - oldsz + (pgsize - 1)) / pgsize) oldsz then
      pure newsz
    else pure 0

/-- An iteration of the loop of `freewalk`. -/
def freewalkEntry (rec : ℕ → VmM PUnit) (pagetable i : ℕ) : VmM PUnit := do
  let s ← get
  let pte := s.mem.pte pagetable i
  if pteV pte then
    if pteLeaf pte then throw .freewalk
    else do
      rec (pteAddr pte)
      setPte pagetable i 0
  else pure ⟨⟩

/-- Free the pages of a page table, all leaves of which have been removed. The recursion
    of the code is followed to a depth. -/
def freewalk (k : Kernel) : ℕ → ℕ → VmM PUnit
  | 0, _ => throw .depth
  | depth + 1, pagetable => do
    forRange (freewalkEntry (freewalk k depth) pagetable) 0 512
    kfree k pagetable

/-- Free the user pages below `sz`, and the pages of the page table. -/
def uvmfree (k : Kernel) (pagetable sz : ℕ) : VmM PUnit := do
  (if 0 < sz then uvmunmap k pagetable 0 (pgRoundUp sz / pgsize) true else pure ⟨⟩)
  freewalk k 3 pagetable

/-- An iteration of the loop of `uvmcopy`: `false` if it goes to `err`. -/
def copyPage (k : Kernel) (old new i : ℕ) : VmM Bool := do
  match ← walk old i false with
  | none => pure true
  | some (a, j) =>
    let s ← get
    let pte := s.mem.pte a j
    if pteV pte then do
      let mem ← kalloc
      if mem = 0 then pure false
      else do
        movePage mem (pteAddr pte)
        if ← mappages new i pgsize mem (pteFlags pte) then pure true
        else do
          kfree k mem
          pure false
    else pure true

/-- The loop of `uvmcopy`, for `n` more pages from `i` on. -/
def copyFrom (k : Kernel) (old new : ℕ) : ℕ → ℕ → VmM Bool
  | 0, _ => pure true
  | n + 1, i => do
    if ← copyPage k old new i then copyFrom k old new n (i + pgsize)
    else do
      uvmunmap k new 0 (i / pgsize) true
      pure false

/-- Copy the user pages below `sz` to another page table; `false` if memory runs out, with
    what was copied freed. -/
def uvmcopy (k : Kernel) (old new sz : ℕ) : VmM Bool :=
  copyFrom k old new ((sz + (pgsize - 1)) / pgsize) 0

/-- Make a page inaccessible to the user. -/
def uvmclear (pagetable va : ℕ) : VmM PUnit := do
  match ← walk pagetable va false with
  | none => throw .uvmclear
  | some (a, i) =>
    let s ← get
    setPte a i (clearU (s.mem.pte a i))

/-- Is the page mapped? -/
def ismapped (pagetable va : ℕ) : VmM Bool := do
  match ← walk pagetable va false with
  | none => pure false
  | some (a, i) =>
    let s ← get
    pure (pteV (s.mem.pte a i))

/-- Allocate and map a page below the size `psz` of the process, whose page table is
    `ppt`; the address of the page, or `0`. -/
def vmfault (k : Kernel) (psz ppt pagetable va : ℕ) : VmM ℕ :=
  if psz ≤ va then pure 0
  else do
    let va := pgRoundDown va
    if ← ismapped pagetable va then pure 0
    else do
      let mem ← kalloc
      if mem = 0 then pure 0
      else do
        memset mem 0
        if ← mappages ppt va pgsize mem (permW ||| permU ||| permR) then pure mem
        else do
          kfree k mem
          pure 0

/-! ## Copying to and from user memory -/

/-- The physical page of `va0`, faulted in if needed, or `0`. -/
def userPage (k : Kernel) (psz ppt pagetable va0 : ℕ) : VmM ℕ := do
  let pa0 ← walkaddr pagetable va0
  if pa0 = 0 then vmfault k psz ppt pagetable va0 else pure pa0

/-- The loop of `copyout`: each iteration copies a byte at least. -/
def copyoutLoop (k : Kernel) (psz ppt pagetable : ℕ) : ℕ → ℕ → List UInt8 → VmM Bool
  | 0, _, _ => pure true
  | fuel + 1, dstva, src =>
    if src = [] then pure true
    else
      let va0 := pgRoundDown dstva
      if maxVa ≤ va0 then pure false
      else do
        let pa0 ← userPage k psz ppt pagetable va0
        if pa0 = 0 then pure false
        else
          match ← walk pagetable va0 false with
          | none => throw .null
          | some (a, i) =>
            let s ← get
            if pteW (s.mem.pte a i) = false then pure false
            else do
              let n := min (pgsize - (dstva - va0)) src.length
              storePage pa0 (dstva - va0) (src.take n)
              copyoutLoop k psz ppt pagetable fuel ((va0 + pgsize) % 2 ^ 64) (src.drop n)

/-- Copy `src` to `dstva` in user memory. -/
def copyout (k : Kernel) (psz ppt pagetable dstva : ℕ) (src : List UInt8) : VmM Bool :=
  copyoutLoop k psz ppt pagetable src.length dstva src

/-- The loop of `copyin`: each iteration copies a byte at least. Returns the bytes stored from
    `dst` on, too. -/
def copyinLoop (k : Kernel) (psz ppt pagetable : ℕ) : ℕ → ℕ → ℕ → VmM (Bool × List UInt8)
  | 0, _, _ => pure (true, [])
  | fuel + 1, srcva, len =>
    if len = 0 then pure (true, [])
    else do
      let va0 := pgRoundDown srcva
      let pa0 ← userPage k psz ppt pagetable va0
      if pa0 = 0 then pure (false, [])
      else do
        let n := min (pgsize - (srcva - va0)) len
        let s ← get
        let r ← copyinLoop k psz ppt pagetable fuel ((va0 + pgsize) % 2 ^ 64) (len - n)
        pure (r.1, (s.mem pa0).read (srcva - va0) n ++ r.2)

/-- Copy `len` bytes from `srcva` in user memory; returns whether this succeeds, and the bytes
    stored from `dst` on. -/
def copyin (k : Kernel) (psz ppt pagetable srcva len : ℕ) : VmM (Bool × List UInt8) :=
  copyinLoop k psz ppt pagetable len srcva len

/-! ## Strings -/

/-- The inner loop of `copyinstr`: from the offset `off` of a page, at most `n` bytes up to a
    null byte. Returns whether it was found, and the bytes stored from `dst` on. -/
def copyinstrPage (p : Page) : ℕ → ℕ → Bool × List UInt8
  | 0, _ => (false, [])
  | n + 1, off =>
    if p.get off = 0 then (true, [0])
    else
      let r := copyinstrPage p n (off + 1)
      (r.1, p.get off :: r.2)

/-- The loop of `copyinstr`: each iteration copies a byte at least. -/
def copyinstrLoop (pagetable : ℕ) : ℕ → ℕ → ℕ → VmM (Bool × List UInt8)
  | 0, _, _ => pure (false, [])
  | fuel + 1, srcva, max =>
    if max = 0 then pure (false, [])
    else do
      let va0 := pgRoundDown srcva
      let pa0 ← walkaddr pagetable va0
      if pa0 = 0 then pure (false, [])
      else do
        let n := min (pgsize - (srcva - va0)) max
        let s ← get
        let r := copyinstrPage (s.mem pa0) n (srcva - va0)
        if r.1 then pure r
        else do
          let r' ← copyinstrLoop pagetable fuel ((va0 + pgsize) % 2 ^ 64) (max - n)
          pure (r'.1, r.2 ++ r'.2)

/-- Copy a string from `srcva` in user memory, with its null byte; returns whether this
    succeeds, and the bytes stored from `dst` on. -/
def copyinstr (pagetable srcva max : ℕ) : VmM (Bool × List UInt8) :=
  copyinstrLoop pagetable max srcva max

/-- `strlen`. -/
def strlen (bs : List UInt8) : ℕ := (bs.takeWhile (· ≠ 0)).length

/-- Fetch a string of the process; its length, or `none` for `-1`, and the bytes stored in the
    buffer. -/
def fetchstr (pagetable addr max : ℕ) : VmM (Option ℕ × List UInt8) := do
  let r ← copyinstr pagetable addr max
  pure (if r.1 then some (strlen r.2) else none, r.2)

end Xv6
