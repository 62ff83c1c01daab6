import Xv6.Proc.Basic

/-!
# exec

`kexec` (`exec.c`) builds a new address space from an ELF file and the arguments, and on
success puts it in the place of the old one. The file is given by its bytes; those of the
headers are read as the code reads them into its structures.
-/

namespace Xv6

/-- `USERSTACK`. -/
abbrev userStack : ℕ := 1

/-- `MAXARG`. -/
abbrev maxArg : ℕ := 32

/-- What `readi(ip, 0, dst, off, n)` copies. -/
def readi (file : List UInt8) (off n : ℕ) : List UInt8 :=
  if file.length < off ∨ 2 ^ 32 ≤ off + n then [] else (file.drop off).take n

/-- The integer of `w` bytes at an offset of a structure. -/
def field (bs : List UInt8) (off w : ℕ) : ℕ := ofLe ((bs.drop off).take w)

/-! ## The headers -/

/-- `sizeof(struct elfhdr)`. -/
abbrev elfhdrSize : ℕ := 64

/-- `sizeof(struct proghdr)`. -/
abbrev proghdrSize : ℕ := 56

/-- `ELF_MAGIC`. -/
abbrev elfMagic : ℕ := 0x464C457F

/-- `ELF_PROG_LOAD`. -/
abbrev elfProgLoad : ℕ := 1

/-- The fields of `struct elfhdr` that `kexec` uses. -/
structure Elfhdr where
  magic : ℕ
  entry : ℕ
  phoff : ℕ
  phnum : ℕ

/-- The header at the start of a file. -/
def elfhdr (bs : List UInt8) : Elfhdr where
  magic := field bs 0 4
  entry := field bs 24 8
  phoff := field bs 32 8
  phnum := field bs 56 2

/-- The fields of `struct proghdr` that `kexec` uses. -/
structure Proghdr where
  type : ℕ
  flags : ℕ
  off : ℕ
  vaddr : ℕ
  filesz : ℕ
  memsz : ℕ
  deriving DecidableEq

/-- A program header. -/
def proghdr (bs : List UInt8) : Proghdr where
  type := field bs 0 4
  flags := field bs 4 4
  off := field bs 8 8
  vaddr := field bs 16 8
  filesz := field bs 32 8
  memsz := field bs 40 8

/-- The flags of an entry for the flags of a segment. -/
def flags2perm (flags : ℕ) : ℕ :=
  (if flags.testBit 0 then permX else 0) ||| (if flags.testBit 1 then permW else 0)

/-! ## Loading the segments -/

/-- The loop of `loadseg`, for `n` more pages from `i` on. -/
def loadsegFrom (file : List UInt8) (pagetable va offset sz : ℕ) : ℕ → ℕ → VmM Bool
  | 0, _ => pure true
  | n + 1, i => do
    let pa ← walkaddr pagetable ((va + i) % 2 ^ 64)
    if pa = 0 then throw .loadseg
    else do
      let bs := readi file ((offset + i) % 2 ^ 32) (min (sz - i) pgsize)
      storePage pa 0 bs
      if bs.length = min (sz - i) pgsize then
        loadsegFrom file pagetable va offset sz n (i + pgsize)
      else pure false

/-- Load `sz` bytes of the file from `offset` on to `va`. -/
def loadseg (file : List UInt8) (pagetable va offset sz : ℕ) : VmM Bool :=
  loadsegFrom file pagetable va offset sz ((sz + (pgsize - 1)) / pgsize) 0

/-- The checks of a segment to load. -/
def Proghdr.ok (ph : Proghdr) : Bool :=
  ph.filesz ≤ ph.memsz ∧ ph.vaddr ≤ (ph.vaddr + ph.memsz) % 2 ^ 64 ∧ ph.vaddr % pgsize = 0

/-- The loop over the segments, for `n` more from `off` on. Returns whether it succeeds, and
    the size reached. -/
def loadSegs (k : Kernel) (file : List UInt8) (pagetable : ℕ) : ℕ → ℕ → ℕ → VmM (Bool × ℕ)
  | 0, _, sz => pure (true, sz)
  | n + 1, off, sz => do
    let bs := readi file off proghdrSize
    if bs.length ≠ proghdrSize then pure (false, sz)
    else
      let ph := proghdr bs
      if ph.type ≠ elfProgLoad then
        loadSegs k file pagetable n ((off + proghdrSize) % 2 ^ 32) sz
      else if ph.ok = false then pure (false, sz)
      else do
        let sz1 ← uvmalloc k pagetable sz ((ph.vaddr + ph.memsz) % 2 ^ 64) (flags2perm ph.flags)
        if sz1 = 0 then pure (false, sz)
        else if ← loadseg file pagetable ph.vaddr (ph.off % 2 ^ 32) (ph.filesz % 2 ^ 32) then
          loadSegs k file pagetable n ((off + proghdrSize) % 2 ^ 32) sz1
        else pure (false, sz1)

/-! ## The arguments -/

/-- `sp -= n; sp -= sp % 16`. -/
def pushSp (sp n : ℕ) : ℕ :=
  let sp := (sp + 2 ^ 64 - n) % 2 ^ 64
  sp - sp % 16

/-- The loop that pushes the strings of the arguments. Returns the stack pointer and the
    addresses of the strings. -/
def pushArgs (k : Kernel) (psz ppt pagetable stackbase : ℕ) :
    List (List UInt8) → ℕ → List ℕ → VmM (Option (ℕ × List ℕ))
  | [], sp, ustack => pure (some (sp, ustack))
  | arg :: argv, sp, ustack =>
    if maxArg ≤ ustack.length then pure none
    else
      let sp := pushSp sp (arg.length + 1)
      if sp < stackbase then pure none
      else do
        if ← copyout k psz ppt pagetable sp (arg ++ [0]) then
          pushArgs k psz ppt pagetable stackbase argv sp (ustack ++ [sp])
        else pure none

/-- The bytes of an array of 64-bit numbers. -/
def bytesOf (xs : List ℕ) : List UInt8 := xs.flatMap (le 8)

/-- The stack of the new process: the strings, and the array of pointers to them. Returns
    the stack pointer. -/
def pushStack (k : Kernel) (psz ppt pagetable sz : ℕ) (argv : List (List UInt8)) :
    VmM (Option ℕ) := do
  let stackbase := sz - userStack * pgsize
  match ← pushArgs k psz ppt pagetable stackbase argv sz [] with
  | none => pure none
  | some (sp, ustack) =>
    let sp := pushSp sp ((argv.length + 1) * 8)
    if sp < stackbase then pure none
    else if ← copyout k psz ppt pagetable sp (bytesOf (ustack ++ [0])) then pure (some sp)
    else pure none

/-! ## The new address space -/

/-- What `kexec` builds before it commits: the page table, its size, the stack pointer and
    the entry point. -/
structure Image where
  pagetable : ℕ
  sz : ℕ
  sp : ℕ
  entry : ℕ

/-- The part of `kexec` up to the commit. `psz`, `ppt` and `trapframe` are those of the
    process. -/
def buildImage (k : Kernel) (psz ppt trapframe : ℕ) (file : List UInt8)
    (argv : List (List UInt8)) : VmM (Option Image) := do
  let bs := readi file 0 elfhdrSize
  if bs.length ≠ elfhdrSize then pure none
  else
    let elf := elfhdr bs
    if elf.magic ≠ elfMagic then pure none
    else do
      let pagetable ← procPagetable k trapframe
      if pagetable = 0 then pure none
      else do
        let r ← loadSegs k file pagetable elf.phnum (elf.phoff % 2 ^ 32) 0
        if r.1 = false then do
          procFreepagetable k pagetable r.2
          pure none
        else do
          let sz := pgRoundUp r.2
          let sz1 ← uvmalloc k pagetable sz ((sz + (userStack + 1) * pgsize) % 2 ^ 64) permW
          if sz1 = 0 then do
            procFreepagetable k pagetable sz
            pure none
          else do
            uvmclear pagetable (sz1 - (userStack + 1) * pgsize)
            match ← pushStack k psz ppt pagetable sz1 argv with
            | none => do
              procFreepagetable k pagetable sz1
              pure none
            | some sp => pure (some ⟨pagetable, sz1, sp, elf.entry⟩)

/-- Run a file in the place of the program of the process; the number of arguments, or
    `none` for `-1`. There is no file if `namei` fails. -/
def kexec (k : Kernel) (p : Fin nproc) (file : Option (List UInt8)) (argv : List (List UInt8)) :
    ProcM (Option ℕ) := do
  match file with
  | none => pure none
  | some file =>
    let s ← get
    match ← liftVm (buildImage k (s.proc p).sz (s.proc p).pagetable (s.proc p).trapframe
        file argv) with
    | none => pure none
    | some img => do
      liftVm (storePage (s.proc p).trapframe tfA1 (le 8 img.sp))
      setProc p fun pr => { pr with pagetable := img.pagetable, sz := img.sz }
      liftVm (storePage (s.proc p).trapframe tfEpc (le 8 img.entry))
      liftVm (storePage (s.proc p).trapframe tfSp (le 8 img.sp))
      liftVm (procFreepagetable k (s.proc p).pagetable (s.proc p).sz)
      pure (some argv.length)

end Xv6
