import Xv6.Lib.System
import Mathlib

/-!
# The driver of the disk

`virtio_disk.c`: any number of processes in `virtio_disk_rw`, the interrupt handler
`virtio_disk_intr`, and the device. The driver works under `vdisk_lock`; the device does not,
so that its steps come between any two steps of the driver.

A request is a chain of three descriptors. The driver posts the first one in the ring of
`avail`, and the device answers with it in the ring of `used`. The device is only assumed to
pick every posted chain once, and then to write the status, to store the number of the chain in
the ring of `used` and to increment `used->idx`; it may do so in any order of the chains and at
any time.

A process that sleeps may wake up at any time. A buffer is locked by the process that passes it
to `virtio_disk_rw`, so that no two processes pass the same buffer.
-/

namespace Xv6

/-- `NUM`, the number of descriptors and the size of the rings. -/
abbrev vnum : ℕ := 8

/-- What an address of a descriptor points to. -/
inductive DescAddr (B : Type)
  | null
  /-- `&disk.ops[i]`. -/
  | op (i : ℕ)
  /-- `b->data`. -/
  | data (b : B)
  /-- `&disk.info[i].status`. -/
  | status (i : ℕ)
  deriving DecidableEq

/-- `struct virtq_desc`; the bits `0` and `1` of `flags` are `VRING_DESC_F_NEXT` and
    `VRING_DESC_F_WRITE`. -/
structure Desc (B : Type) where
  addr : DescAddr B
  flags : ℕ
  next : ℕ

/-- Where a process is in `virtio_disk_rw`. -/
inductive RwPc (B : Type)
  | out
  /-- In `alloc3_desc`, with the descriptors that are allocated so far. -/
  | alloc (b : B) (write : Bool) (idx : List ℕ)
  /-- Asleep, for a free descriptor. -/
  | sleepFree (b : B) (write : Bool)
  /-- The chain is stored in the ring, and about to be posted. -/
  | post (b : B) (i0 i1 i2 : ℕ)
  /-- About to test `b->disk`. -/
  | wait (b : B) (i0 i1 i2 : ℕ)
  /-- Asleep, for the device. -/
  | asleep (b : B) (i0 i1 i2 : ℕ)
  deriving DecidableEq

/-- Where the interrupt handler is: not running, about to test `used->idx`, or in the loop. -/
inductive IntrPc
  | idle
  | test
  | body
  deriving DecidableEq

/-- Who holds `vdisk_lock`. -/
inductive Holder (P : Type)
  | proc (p : P)
  | intr
  deriving DecidableEq

/-- The driver and the device, for the processes `P` and the buffers `B`. -/
structure Vdisk (P B : Type) where
  desc : ℕ → Desc B
  availIdx : ℕ
  availRing : ℕ → ℕ
  usedIdx : ℕ
  usedRing : ℕ → ℕ
  free : ℕ → Bool
  /-- `disk.used_idx`. -/
  seen : ℕ
  infoB : ℕ → Option B
  infoStatus : ℕ → ℕ
  /-- `b->disk`. -/
  disk : B → Bool
  lock : Option (Holder P)
  pc : P → RwPc B
  intr : IntrPc
  /-- What the device has seen of the ring of `avail`, -/
  lastAvail : ℕ
  /-- the chains that it has picked, -/
  picked : List ℕ
  /-- those whose status it has written, -/
  written : List ℕ
  /-- and the one that is stored in the ring of `used`, before `used->idx` is incremented. -/
  appending : Option ℕ
  panic : Bool

/-- The steps of the processes, of the device and of the handler. -/
inductive VdiskAct (P B : Type)
  /-- A process calls `virtio_disk_rw`, and acquires the lock. -/
  | call (p : P) (b : B) (write : Bool)
  /-- `alloc_desc`, in `alloc3_desc`; if there is no free descriptor, those allocated so far are
      freed, and the process sleeps. -/
  | allocDesc (p : P)
  /-- Format the descriptors, and store the chain in the ring. -/
  | format (p : P)
  /-- `disk.avail->idx += 1`. -/
  | post (p : P)
  /-- Test `b->disk`: sleep, or free the chain and return. -/
  | test (p : P)
  /-- Wake up, and acquire the lock. -/
  | wake (p : P)
  /-- The device picks a chain, -/
  | devPick
  /-- writes the status, -/
  | devStatus (h : ℕ)
  /-- stores the number of the chain in the ring of `used`, -/
  | devUsed (h : ℕ)
  /-- and increments `used->idx`. -/
  | devIdx
  /-- The handler acquires the lock, -/
  | intr
  /-- tests `used->idx`, -/
  | intrTest
  /-- and marks a buffer as done. -/
  | intrBody

namespace Vdisk

variable {P B : Type} [DecidableEq P] [DecidableEq B] (s : Vdisk P B)

/-- The first free descriptor. -/
def allocDesc : Option ℕ := (List.range vnum).find? fun i => s.free i

/-- Free a descriptor, or panic. -/
def freeDesc (i : ℕ) : Option (Vdisk P B) :=
  if vnum ≤ i then none
  else if s.free i = true then none
  else some { s with
    desc := Function.update s.desc i ⟨.null, 0, 0⟩
    free := Function.update s.free i true }

/-- Free the descriptors of a chain; a chain has no more than `vnum` of them. -/
def freeChain (s : Vdisk P B) : ℕ → ℕ → Option (Vdisk P B)
  | 0, _ => none
  | fuel + 1, i =>
    match s.freeDesc i with
    | none => none
    | some t => if (s.desc i).flags.testBit 0 then freeChain t fuel (s.desc i).next else some t

/-- The loop of `alloc3_desc` that frees what it has allocated. -/
def freeAll (s : Vdisk P B) : List ℕ → Option (Vdisk P B)
  | [] => some s
  | i :: idx =>
    match s.freeDesc i with
    | none => none
    | some t => t.freeAll idx

/-- A process goes on to `k`. -/
def goto (p : P) (k : RwPc B) : Vdisk P B := { s with pc := Function.update s.pc p k }

/-- `release(&disk.vdisk_lock)`, after something that may panic. -/
def release (o : Option (Vdisk P B)) (p : P) (k : RwPc B) : Vdisk P B :=
  match o with
  | some t => { t.goto p k with lock := none }
  | none => { s with panic := true }

/-- Format the descriptors of a request, and store it in the ring. -/
def format (p : P) (b : B) (write : Bool) (i0 i1 i2 : ℕ) : Vdisk P B :=
  { s with
    desc := Function.update (Function.update (Function.update s.desc i0 ⟨.op i0, 1, i1⟩) i1
      ⟨.data b, (if write then 0 else 2) ||| 1, i2⟩) i2 ⟨.status i0, 2, 0⟩
    infoStatus := Function.update s.infoStatus i0 0xff
    disk := Function.update s.disk b true
    infoB := Function.update s.infoB i0 (some b)
    availRing := Function.update s.availRing (s.availIdx % vnum) i0
    pc := Function.update s.pc p (.post b i0 i1 i2) }

/-- Where the chain of the device has its status, and its data. -/
def statusAddr (h : ℕ) : DescAddr B := (s.desc (s.desc (s.desc h).next).next).addr
def dataAddr (h : ℕ) : DescAddr B := (s.desc (s.desc h).next).addr

/-- The device writes the status. -/
def writeStatus (h : ℕ) : Vdisk P B :=
  match s.statusAddr h with
  | .status i => { s with infoStatus := Function.update s.infoStatus i 0 }
  | _ => s

/-- `used->ring[used_idx % NUM].id`. -/
def usedId : ℕ := s.usedRing (s.seen % vnum)

/-- Take a step. -/
def exec : VdiskAct P B → Option (Vdisk P B)
  | .call p b write =>
    match s.pc p with
    | .out => if s.lock = none then some { s.goto p (.alloc b write []) with lock := some (.proc p) }
      else none
    | _ => none
  | .allocDesc p =>
    match s.pc p with
    | .alloc b write idx =>
      if idx.length < 3 then
        match s.allocDesc with
        | some i => some { s.goto p (.alloc b write (idx ++ [i])) with
            free := Function.update s.free i false }
        | none => some (s.release (s.freeAll idx) p (.sleepFree b write))
      else none
    | _ => none
  | .format p =>
    match s.pc p with
    | .alloc b write [i0, i1, i2] => some (s.format p b write i0 i1 i2)
    | _ => none
  | .post p =>
    match s.pc p with
    | .post b i0 i1 i2 => some { s.goto p (.wait b i0 i1 i2) with
        availIdx := (s.availIdx + 1) % 2 ^ 16 }
    | _ => none
  | .test p =>
    match s.pc p with
    | .wait b i0 i1 i2 =>
      if s.disk b = true then some { s.goto p (.asleep b i0 i1 i2) with lock := none }
      else some (s.release
        (freeChain { s with infoB := Function.update s.infoB i0 none } (vnum + 1) i0) p .out)
    | _ => none
  | .wake p =>
    match s.pc p with
    | .sleepFree b write => if s.lock = none then
        some { s.goto p (.alloc b write []) with lock := some (.proc p) } else none
    | .asleep b i0 i1 i2 => if s.lock = none then
        some { s.goto p (.wait b i0 i1 i2) with lock := some (.proc p) } else none
    | _ => none
  | .devPick =>
    if s.lastAvail ≠ s.availIdx then some { s with
      picked := s.availRing (s.lastAvail % vnum) :: s.picked
      lastAvail := (s.lastAvail + 1) % 2 ^ 16 }
    else none
  | .devStatus h =>
    if h ∈ s.picked then some { s.writeStatus h with
      picked := s.picked.erase h
      written := h :: s.written }
    else none
  | .devUsed h =>
    if h ∈ s.written ∧ s.appending = none then some { s with
      written := s.written.erase h
      usedRing := Function.update s.usedRing (s.usedIdx % vnum) h
      appending := some h }
    else none
  | .devIdx =>
    if s.appending ≠ none then some { s with
      usedIdx := (s.usedIdx + 1) % 2 ^ 16
      appending := none }
    else none
  | .intr =>
    if s.intr = .idle ∧ s.lock = none then some { s with intr := .test, lock := some .intr }
    else none
  | .intrTest =>
    if s.intr = .test then
      if s.seen ≠ s.usedIdx then some { s with intr := .body }
      else some { s with intr := .idle, lock := none }
    else none
  | .intrBody =>
    if s.intr = .body then
      if s.infoStatus s.usedId ≠ 0 then some { s with panic := true }
      else
        match s.infoB s.usedId with
        | some b => some { s with
            disk := Function.update s.disk b false
            seen := (s.seen + 1) % 2 ^ 16
            intr := .test }
        -- A null pointer.
        | none => some { s with panic := true }
    else none

/-- The driver after `virtio_disk_init`, and a device that has nothing to do. -/
structure Initial : Prop where
  availIdx : s.availIdx = 0
  usedIdx : s.usedIdx = 0
  free : ∀ i < vnum, s.free i = true
  seen : s.seen = 0
  lock : s.lock = none
  pc : ∀ p, s.pc p = .out
  intr : s.intr = .idle
  lastAvail : s.lastAvail = 0
  picked : s.picked = []
  written : s.written = []
  appending : s.appending = none
  panic : s.panic = false

end Vdisk

/-- The buffer that a process has passed. -/
def RwPc.buf {B : Type} : RwPc B → Option B
  | .out => none
  | .alloc b _ _ | .sleepFree b _ | .post b _ _ _ | .wait b _ _ _ | .asleep b _ _ _ => some b

/-- A process only passes a buffer that no process has passed: it holds its lock. -/
def VdiskAct.Fresh {P B : Type} (s : Vdisk P B) : VdiskAct P B → Prop
  | .call _ b _ => ∀ q, (s.pc q).buf ≠ some b
  | _ => True

/-- The system of the processes `P`, with the buffers `B`. No step is taken after a panic. -/
def vdiskSystem (P B : Type) [DecidableEq P] [DecidableEq B] : System (Vdisk P B) (VdiskAct P B) where
  init := {s | s.Initial}
  step s a t := s.panic = false ∧ s.exec a = some t ∧ a.Fresh s

end Xv6
