import Xv6.Lib.Wp
import Xv6.Bio
import Xv6.Log.Format

/-!
# Committing and recovering

The code of `log.c` that moves a transaction from the cache to its home blocks,
and the functions of `bio.c` it calls, as run by a single process: `commit`
when the last operation of a transaction ends, and `recoverFromLog` when the
system boots.

The state, `Store`, is the cache, the disk and the log in memory, with a record
of the writes issued to the disk: each `bwrite` is one write of a block, in
program order. A computation may stop, at a panic or at a lock that nobody else
will release; the state it leaves is that of the crash that follows.
-/

namespace Xv6

/-- Why a computation stops. -/
inductive Stop
  /-- `panic` in `bget`: no buffers. -/
  | bget
  /-- `panic` in `bwrite`: the buffer is not locked. -/
  | bwrite
  /-- `panic` in `brelse`: the buffer is not locked. -/
  | brelse
  /-- Waiting for a lock held by the waiting process itself. -/
  | deadlock
  deriving DecidableEq

/-- The log in memory (`struct log`). -/
structure Log where
  start : ℕ
  outstanding : ℕ
  committing : Bool
  dev : ℕ
  lh : LogHeader

/-- The cache, the disk and the log, and the writes issued so far. -/
structure Store where
  cache : Bcache
  disk : Disk
  log : Log
  writes : List (ℕ × Block)

/-- Computations on the store. -/
abbrev K := EStateM Stop Store

/-! ## Buffers -/

/-- `acquiresleep(&b->lock)`, nobody else holding the lock. -/
def acquiresleep (i : ℕ) : K PUnit := do
  let s ← get
  if (s.cache.buf i).locked then throw .deadlock
  else set { s with cache := s.cache.set i fun x => { x with locked := true } }

/-- The locked buffer of a block, its data not necessarily valid. -/
def bget (dev b : ℕ) : K ℕ := do
  let s ← get
  match s.cache.bget dev b with
  | none => throw .bget
  | some (i, c) =>
    set { s with cache := c }
    acquiresleep i
    pure i

/-- `virtio_disk_rw(b, 0)`: fill the buffer from the disk. -/
def diskRead (i : ℕ) : K PUnit :=
  modify fun s => { s with cache := s.cache.set i fun x =>
    { x with data := s.disk x.blockno, valid := true } }

/-- The locked buffer of a block, with its contents. -/
def bread (dev b : ℕ) : K ℕ := do
  let i ← bget dev b
  let s ← get
  (if (s.cache.buf i).valid then pure ⟨⟩ else diskRead i)
  pure i

/-- `virtio_disk_rw(b, 1)`: write the buffer to the disk. -/
def diskWrite (i : ℕ) : K PUnit :=
  modify fun s =>
    let b := s.cache.buf i
    { s with
      disk := Function.update s.disk b.blockno b.data
      writes := s.writes ++ [(b.blockno, b.data)] }

/-- Write a locked buffer to the disk. -/
def bwrite (i : ℕ) : K PUnit := do
  let s ← get
  if (s.cache.buf i).locked then diskWrite i else throw .bwrite

/-- Release a locked buffer. -/
def brelse (i : ℕ) : K PUnit := do
  let s ← get
  if (s.cache.buf i).locked then
    set { s with cache := (s.cache.set i fun x => { x with locked := false }).brelse i }
  else throw .brelse

/-- Unpin a buffer. -/
def bunpin (i : ℕ) : K PUnit := modify fun s => { s with cache := s.cache.bunpin i }

/-- `memmove(dst->data, src->data, BSIZE)`. -/
def copyData (dst src : ℕ) : K PUnit :=
  modify fun s => { s with cache := s.cache.set dst fun x =>
    { x with data := (s.cache.buf src).data } }

/-! ## The log -/

/-- One iteration of `write_log`: copy a modified block from the cache to the
    log. -/
def writeLogBlock (tail : ℕ) : K PUnit := do
  let s ← get
  let dst ← bread s.log.dev (s.log.start + tail + 1)
  let src ← bread s.log.dev (s.log.lh.block tail)
  copyData dst src
  bwrite dst
  brelse src
  brelse dst

/-- Copy the modified blocks from the cache to the log. -/
def writeLog : K PUnit := do
  let s ← get
  forRange writeLogBlock 0 s.log.lh.n

/-- One iteration of `install_trans`: copy a block from the log to its home. -/
def installBlock (recovering : Bool) (tail : ℕ) : K PUnit := do
  let s ← get
  let lbuf ← bread s.log.dev (s.log.start + tail + 1)
  let dbuf ← bread s.log.dev (s.log.lh.block tail)
  copyData dbuf lbuf
  bwrite dbuf
  (if recovering then pure ⟨⟩ else bunpin dbuf)
  brelse lbuf
  brelse dbuf

/-- Copy the committed blocks from the log to their home location. -/
def installTrans (recovering : Bool) : K PUnit := do
  let s ← get
  forRange (installBlock recovering) 0 s.log.lh.n

/-- Read the log header from the disk into the one in memory. -/
def readHead : K PUnit := do
  let s ← get
  let i ← bread s.log.dev s.log.start
  modify fun s => { s with log := { s.log with lh := s.log.lh.load (s.cache.buf i).data } }
  brelse i

/-- Write the log header in memory to the disk: the point at which the current
    transaction commits. -/
def writeHead : K PUnit := do
  let s ← get
  let i ← bread s.log.dev s.log.start
  modify fun s => { s with cache := s.cache.set i fun x => { x with data := s.log.lh.store x.data } }
  bwrite i
  brelse i

/-- `log.lh.n = 0`. -/
def clearLog : K PUnit :=
  modify fun s => { s with log := { s.log with lh := { s.log.lh with n := 0 } } }

/-- Install the transaction that is in the log, if any, and clear the log. -/
def recoverFromLog : K PUnit := do
  readHead
  installTrans true
  clearLog
  writeHead

/-- Commit the transaction: log it, write the header, install it, and clear the
    log. -/
def commit : K PUnit := do
  let s ← get
  if 0 < s.log.lh.n then do
    writeLog
    writeHead
    installTrans false
    clearLog
    writeHead
  else pure ⟨⟩

/-! ## What the functions on buffers do -/

/-- What `bread` does: from the store `s`, it returns the buffer `i` of the block
    `b` in the store `t`. Either the block was cached, or the buffer was recycled;
    the data is the cached one if it was valid, and else that of the disk. -/
structure Bread (s : Store) (dev b i : ℕ) (t : Store) : Prop where
  mem : i ∈ s.cache.lru
  lru : t.cache.lru = s.cache.lru
  disk : t.disk = s.disk
  log : t.log = s.log
  writes : t.writes = s.writes
  wf : t.cache.Wf
  other : ∀ j, j ≠ i → t.cache.buf j = s.cache.buf j
  got : ∃ d, t.cache.buf i =
      { valid := true, dev := dev, blockno := b, locked := true,
        refcnt := (s.cache.buf i).refcnt + 1, data := d } ∧
    ((s.cache.Holds dev b i ∧
        d = if (s.cache.buf i).valid then (s.cache.buf i).data else s.disk b) ∨
      ((∀ j ∈ s.cache.lru, ¬s.cache.Holds dev b j) ∧ (s.cache.buf i).refcnt = 0 ∧
        d = s.disk b))

variable {s : Store} {dev b : ℕ} {E : Stop → Store → Prop}

/-- `bread` returns the buffer of the block, or panics when every buffer is in
    use; it does not wait when neither the buffer of the block nor an unused
    buffer is locked. -/
theorem wp_bread (hwf : s.cache.Wf)
    (hfree : ∀ i ∈ s.cache.lru, s.cache.Holds dev b i ∨ (s.cache.buf i).refcnt = 0 →
      (s.cache.buf i).locked = false) :
    wp (bread dev b) (fun i t => Bread s dev b i t)
      (fun _ t => t = s ∧ (∀ i ∈ s.cache.lru, ¬s.cache.Holds dev b i) ∧
        ∀ i ∈ s.cache.lru, (s.cache.buf i).refcnt ≠ 0) s := by
  simp only [bread, bget, wp_bind, wp_get]
  split
  · rename_i hnone
    exact ⟨rfl, s.cache.bget_eq_none hnone⟩
  · rename_i i c hget
    obtain ⟨hi, ⟨hh, rfl⟩ | ⟨hno, hr, rfl⟩⟩ := s.cache.bget_cases hget
    · have hl := hfree i hi (.inl hh)
      have hw := (hwf.bget hget).set i (f := fun x => { x with locked := true }) rfl rfl
      have hw' := hw.set i (f := fun x => { x with data := s.disk x.blockno, valid := true }) rfl rfl
      simp only [acquiresleep, wp_bind, wp_get, wp_set, wp_pure, Bcache.set_buf_self, hl,
        Bool.false_eq_true, if_false]
      by_cases hv : (s.cache.buf i).valid
      · simp only [hv, if_true, wp_pure]
        refine ⟨hi, rfl, rfl, rfl, rfl, hw, fun j hj => by simp [Bcache.set_buf_of_ne _ _ hj],
          _, ?_, .inl ⟨hh, rfl⟩⟩
        simp [hv, hh.1, hh.2]
      · simp only [hv, Bool.false_eq_true, if_false, diskRead, wp_modify]
        refine ⟨hi, rfl, rfl, rfl, rfl, hw',
          fun j hj => by simp [Bcache.set_buf_of_ne _ _ hj], _, ?_, .inl ⟨hh, rfl⟩⟩
        simp [hv, hh.1, hh.2]
    · have hl := hfree i hi (.inr hr)
      have hw := (hwf.bget hget).set i (f := fun x => { x with locked := true }) rfl rfl
      have hw' := hw.set i (f := fun x => { x with data := s.disk x.blockno, valid := true }) rfl rfl
      simp only [acquiresleep, wp_bind, wp_get, wp_set, wp_pure, Bcache.set_buf_self, hl,
        Bool.false_eq_true, if_false, diskRead, wp_modify]
      refine ⟨hi, rfl, rfl, rfl, rfl, hw',
        fun j hj => by simp [Bcache.set_buf_of_ne _ _ hj], _, ?_, .inr ⟨hno, hr, rfl⟩⟩
      simp [hr]

theorem wp_bwrite {i : ℕ} {Q : PUnit → Store → Prop} (hl : (s.cache.buf i).locked = true) :
    wp (bwrite i) Q E s ↔ Q ⟨⟩ { s with
      disk := Function.update s.disk (s.cache.buf i).blockno (s.cache.buf i).data
      writes := s.writes ++ [((s.cache.buf i).blockno, (s.cache.buf i).data)] } := by
  simp only [bwrite, wp_bind, wp_get, hl, if_true, diskWrite, wp_modify]

theorem wp_brelse {i : ℕ} {Q : PUnit → Store → Prop} (hl : (s.cache.buf i).locked = true) :
    wp (brelse i) Q E s ↔ Q ⟨⟩
      { s with cache := (s.cache.set i fun x => { x with locked := false }).brelse i } := by
  simp only [brelse, wp_bind, wp_get, hl, if_true, wp_set]

end Xv6
