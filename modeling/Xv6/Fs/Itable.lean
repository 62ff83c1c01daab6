import Xv6.Fs.Layout
import Xv6.Lib.System
import Xv6.Proc.Basic

/-!
# The table of inodes

The part of `fs.c` that caches inodes in memory: `iget`, `idup`, `ilock`, `iunlock`, `iput`,
`ialloc` and `iupdate`, called by any number of processes at the same time. What happens
under `itable.lock`, or under the lock of one block, is one step; everything else can be
interleaved. So `ialloc` takes two steps (it marks the dinode, and then calls `iget`), and an
`iput` that frees its inode takes eight (`FreeStage`).

A process may lock an inode when it has a reference to it. It may share the reference with
other processes, as forked processes share their open files: references are counted by the
set of processes that share them.
-/

namespace Xv6

/-- The device and the number of an inode. -/
abbrev Ino := UInt32 × UInt32

/-- An entry of the table. `lock` is the process that holds the lock, and `d` the copy of the
    dinode. -/
structure Inode where
  id : Ino
  ref : ℕ
  valid : Bool
  lock : Option (Fin nproc)
  d : Dinode
  deriving DecidableEq

/-- How far `iput` is with freeing an inode. -/
inductive FreeStage
  /-- It has found the last reference to an inode without links, and taken its lock. -/
  | locked
  /-- `itrunc` has emptied the inode in memory, -/
  | emptied
  /-- and has written it. -/
  | flushed
  /-- The type is zero in memory, -/
  | zeroed
  /-- and on disk. -/
  | written
  /-- `valid` is reset, -/
  | invalid
  /-- and the lock released. -/
  | unlocked
  deriving DecidableEq

/-- Where a process is. -/
inductive InodePc
  | idle
  /-- In `ialloc`, before `iget`. -/
  | alloced (i : Ino)
  /-- In `iput`. -/
  | freeing (e : Fin ninode) (st : FreeStage)
  deriving DecidableEq

/-- The inodes on disk, the table, the number of references to every entry that exactly the
    processes of a given set share, and where every process is. -/
structure Itable where
  disk : Ino → Dinode
  inode : Fin ninode → Inode
  held : Finset (Fin nproc) → Fin ninode → ℕ
  pc : Fin nproc → InodePc

/-- The steps, with the process that takes them. -/
inductive ItableAct
  /-- `ialloc` finds the free dinode `i`, and marks it. -/
  | ialloc (p : Fin nproc) (i : Ino) (type : Int16)
  /-- The call of `iget` by `ialloc`. -/
  | iallocGet (p : Fin nproc)
  | iget (p : Fin nproc) (i : Ino)
  /-- `idup`, where the new reference is for `q`. -/
  | idup (p q : Fin nproc) (g : Finset (Fin nproc)) (e : Fin ninode)
  /-- `p` lets `q` share a reference. -/
  | share (p q : Fin nproc) (g : Finset (Fin nproc)) (e : Fin ninode)
  /-- `p` gives up a reference that it shares with others. -/
  | leave (p : Fin nproc) (g : Finset (Fin nproc)) (e : Fin ninode)
  /-- `ilock` takes the lock, -/
  | ilock (p : Fin nproc) (g : Finset (Fin nproc)) (e : Fin ninode)
  /-- and reads the dinode when the entry is not valid. -/
  | load (p : Fin nproc) (e : Fin ninode)
  /-- The process changes the inode in memory. -/
  | change (p : Fin nproc) (e : Fin ninode) (d : Dinode)
  | iupdate (p : Fin nproc) (e : Fin ninode)
  | iunlock (p : Fin nproc) (e : Fin ninode)
  /-- `iput`, up to where it releases `itable.lock`. -/
  | iput (p : Fin nproc) (e : Fin ninode)
  /-- The next step of an `iput` that frees its inode. -/
  | iputNext (p : Fin nproc)
  deriving DecidableEq

namespace Itable

variable (s : Itable)

/-- The table with the entry `e` changed by `f`. -/
def set (e : Fin ninode) (f : Inode → Inode) : Itable :=
  { s with inode := Function.update s.inode e (f (s.inode e)) }

/-- The table when `p` is at `c`. -/
def goto (p : Fin nproc) (c : InodePc) : Itable := { s with pc := Function.update s.pc p c }

/-- The dinode `i` is written. -/
def write (i : Ino) (d : Dinode) : Itable := { s with disk := Function.update s.disk i d }

/-- The processes of `g` share `n` references to `e`. -/
def setHeld (g : Finset (Fin nproc)) (e : Fin ninode) (n : ℕ) : Itable :=
  { s with held := Function.update s.held g (Function.update (s.held g) e n) }

/-- `p` has one more reference to `e`, or one less. -/
def gain (p : Fin nproc) (e : Fin ninode) : Itable := s.setHeld {p} e (s.held {p} e + 1)
def lose (p : Fin nproc) (e : Fin ninode) : Itable := s.setHeld {p} e (s.held {p} e - 1)

/-- A reference to `e` passes from `g` to `g'`. -/
def pass (g g' : Finset (Fin nproc)) (e : Fin ninode) : Itable :=
  (s.setHeld g e (s.held g e - 1)).setHeld g' e (s.held g' e + 1)

/-- The loop of `iget` for an entry of the inode `i`. -/
def lookup (i : Ino) : Option (Fin ninode) :=
  (List.finRange ninode).find? fun e => 0 < (s.inode e).ref ∧ (s.inode e).id = i

/-- The free entry that the loop remembers. -/
def empty : Option (Fin ninode) := (List.finRange ninode).find? fun e => (s.inode e).ref = 0

/-- `iget` by `p`; `none` is its panic. -/
def iget (p : Fin nproc) (i : Ino) : Option Itable :=
  match s.lookup i with
  | some e => some ((s.set e fun x => { x with ref := x.ref + 1 }).gain p e)
  | none =>
    match s.empty with
    | some e => some ((s.set e fun x => { x with id := i, ref := 1, valid := false }).gain p e)
    | none => none

/-- `iupdate`. -/
def iupdate (e : Fin ninode) : Itable := s.write (s.inode e).id (s.inode e).d

/-- `ip->ref--`, by `p`. -/
def unref (p : Fin nproc) (e : Fin ninode) : Itable :=
  (s.set e fun x => { x with ref := x.ref - 1 }).lose p e

/-- The start of `iput`. `acquiresleep` does not return while the lock is taken. -/
def iput (p : Fin nproc) (e : Fin ninode) : Option Itable :=
  if (s.inode e).ref = 1 ∧ (s.inode e).valid = true ∧ (s.inode e).d.nlink = 0 then
    if (s.inode e).lock = none then
      some ((s.set e fun x => { x with lock := some p }).goto p (.freeing e .locked))
    else none
  else some (s.unref p e)

/-- The rest of `iput`. -/
def iputNext (p : Fin nproc) (e : Fin ninode) : FreeStage → Itable
  | .locked => (s.set e fun x => { x with d := x.d.emptied }).goto p (.freeing e .emptied)
  | .emptied => (s.iupdate e).goto p (.freeing e .flushed)
  | .flushed => (s.set e fun x => { x with d := { x.d with type := 0 } }).goto p (.freeing e .zeroed)
  | .zeroed => (s.iupdate e).goto p (.freeing e .written)
  | .written => (s.set e fun x => { x with valid := false }).goto p (.freeing e .invalid)
  | .invalid => (s.set e fun x => { x with lock := none }).goto p (.freeing e .unlocked)
  | .unlocked => (s.unref p e).goto p .idle

/-- Take a step.

    * `ialloc` is called with a type other than `0`, and `iget` for inodes with links;
    * a process locks, shares and duplicates only what it has a reference to;
    * it changes an inode only when it has locked it, does not change its type, and calls
      `iupdate` before it unlocks it;
    * it keeps a reference to what it has locked. -/
def exec : ItableAct → Option Itable
  | .ialloc p i type =>
    if s.pc p = .idle ∧ (s.disk i).type = 0 ∧ type ≠ 0 then
      some ((s.write i (.new type)).goto p (.alloced i))
    else none
  | .iallocGet p =>
    match s.pc p with
    | .alloced i => (s.goto p .idle).iget p i
    | _ => none
  | .iget p i => if s.pc p = .idle ∧ 0 < (s.disk i).nlink then s.iget p i else none
  | .idup p q g e =>
    if s.pc p = .idle ∧ s.pc q = .idle ∧ p ∈ g ∧ 0 < s.held g e then
      some ((s.set e fun x => { x with ref := x.ref + 1 }).gain q e)
    else none
  | .share p q g e =>
    if s.pc p = .idle ∧ s.pc q = .idle ∧ p ∈ g ∧ q ∉ g ∧ 0 < s.held g e then
      some (s.pass g (insert q g) e)
    else none
  | .leave p g e =>
    if s.pc p = .idle ∧ p ∈ g ∧ g ≠ {p} ∧ 0 < s.held g e ∧ (s.inode e).lock ≠ some p then
      some (s.pass g (g.erase p) e)
    else none
  | .ilock p g e =>
    if s.pc p = .idle ∧ p ∈ g ∧ 0 < s.held g e ∧ (s.inode e).lock = none then
      some (s.set e fun x => { x with lock := some p })
    else none
  | .load p e =>
    if s.pc p = .idle ∧ (s.inode e).lock = some p ∧ (s.inode e).valid = false then
      some (s.set e fun x => { x with valid := true, d := s.disk x.id })
    else none
  | .change p e d =>
    if s.pc p = .idle ∧ (s.inode e).lock = some p ∧ (s.inode e).valid = true ∧
        d.type = (s.inode e).d.type then
      some (s.set e fun x => { x with d })
    else none
  | .iupdate p e =>
    if s.pc p = .idle ∧ (s.inode e).lock = some p ∧ (s.inode e).valid = true then
      some (s.iupdate e)
    else none
  | .iunlock p e =>
    if s.pc p = .idle ∧ (s.inode e).lock = some p ∧ (s.inode e).valid = true ∧
        (s.inode e).d = s.disk (s.inode e).id then
      some (s.set e fun x => { x with lock := none })
    else none
  | .iput p e =>
    if s.pc p = .idle ∧ 0 < s.held {p} e ∧ ((s.inode e).lock = some p → 2 ≤ s.held {p} e) then
      s.iput p e
    else none
  | .iputNext p =>
    match s.pc p with
    | .freeing e st => some (s.iputNext p e st)
    | _ => none

/-- The table before any process has called `iget`, with any entries, over the given inodes
    on disk. -/
structure Initial : Prop where
  /-- Free inodes on disk have no links. -/
  free : ∀ i, (s.disk i).type = 0 → (s.disk i).nlink = 0
  ref : ∀ e, (s.inode e).ref = 0
  lock : ∀ e, (s.inode e).lock = none
  held : ∀ g e, s.held g e = 0
  pc : ∀ p, s.pc p = .idle

end Itable

/-- The system of the inode table. -/
def itableSystem : System Itable ItableAct where
  init := { s | s.Initial }
  step s a s' := s.exec a = some s'

end Xv6
