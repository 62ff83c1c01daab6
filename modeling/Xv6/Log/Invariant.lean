import Xv6.Log.Concurrent
import Xv6.Log.Rest

/-!
# The invariant of the log system

What holds between the cache, the disk, the log and the processes in every state
of the log system, in three parts:

* the references (`RefsInv`): a buffer counts the references of the processes to it,
  and one more when its block is pinned; a locked buffer has one process holding it,
  and the blocks pinned are cached;
* the contents (`DataInv`): with respect to the contents `L` most recently passed to
  `log_write`, a valid buffer holds them unless an operation is modifying it, and the
  disk holds them unless the block is pinned; the buffers of the log area are as on
  the disk;
* the log (`LogInv`): what the log in memory and on the disk is at each point of a
  commit. No operation is in progress during a commit.
-/

namespace Xv6

/-- The references to the buffers, with the pinned blocks `pins`. -/
structure RefsInv (c : Bcache) (dev : ℕ) (pins : List ℕ) (refs : List Ref) : Prop where
  wf : c.Wf
  dev_ne : dev ≠ 0
  mem : ∀ r ∈ refs, r.idx ∈ c.lru ∧ c.Holds dev r.blockno r.idx
  refcnt : ∀ i ∈ c.lru, (c.buf i).refcnt = refs.countP (fun r => r.idx = i) +
    if (c.buf i).dev = dev ∧ (c.buf i).blockno ∈ pins then 1 else 0
  lock : ∀ i ∈ c.lru, refs.countP (fun r => r.idx = i ∧ r.phase.holding) =
    if (c.buf i).locked then 1 else 0
  ready : ∀ r ∈ refs, r.phase = .ready → (c.buf r.idx).valid = true
  cached : ∀ b ∈ pins, ∃ i ∈ c.lru, c.Holds dev b i ∧ (c.buf i).valid = true

/-- The contents of the buffers and of the disk. -/
structure DataInv (c : Bcache) (dev start : ℕ) (disk L : Disk) (pins : List ℕ)
    (refs : List Ref) (ops : List Op) : Prop where
  dirty : ∀ r ∈ refs, r.dirty = true → r.phase = .ready ∧ (∃ o ∈ ops, o.pid = r.pid) ∧
    ¬InLog start (c.buf r.idx).blockno
  clean : ∀ i ∈ c.lru, (c.buf i).dev = dev → (c.buf i).valid = true →
    ¬InLog start (c.buf i).blockno → (∀ r ∈ refs, r.idx = i → r.dirty = false) →
    (c.buf i).data = L (c.buf i).blockno
  logbuf : ∀ i ∈ c.lru, (c.buf i).dev = dev → (c.buf i).valid = true →
    InLog start (c.buf i).blockno → (c.buf i).data = disk (c.buf i).blockno
  disk : ∀ b, ¬InLog start b → b ∉ pins → disk b = L b

/-- The log on the disk at each point of a commit. -/
def OnDisk (log : Log) (disk L : Disk) : CommitPc → Prop
  | .idle => LogHeader.countOf (disk log.start) = 0
  | .writeLog tail => 0 < log.lh.n ∧ tail ≤ log.lh.n ∧ LogHeader.countOf (disk log.start) = 0 ∧
      ∀ k < tail, disk (log.start + k + 1) = L (log.lh.block k)
  | .install tail => tail ≤ log.lh.n ∧ LogHeader.countOf (disk log.start) = log.lh.n ∧
      ∀ k < log.lh.n, LogHeader.blockOf (disk log.start) k = log.lh.block k ∧
        disk (log.start + k + 1) = L (log.lh.block k)
  | .clear => log.lh.n = 0 ∧ LogWf log.start disk ∧
      ∀ b, ¬InLog log.start b → recovered log.start disk b = disk b
  | .finish => log.lh.n = 0 ∧ LogHeader.countOf (disk log.start) = 0

/-- The log in memory, and on the disk. -/
structure LogInv (log : Log) (ops : List Op) (pc : CommitPc) (disk L : Disk) : Prop where
  count_le : log.lh.n ≤ logBlocks
  uint : ∀ k < log.lh.n, log.lh.block k < 2 ^ 32
  home : ∀ k < log.lh.n, ¬InLog log.start (log.lh.block k)
  distinct : ∀ j < log.lh.n, ∀ k < log.lh.n, log.lh.block j = log.lh.block k → j = k
  outstanding : log.outstanding = ops.length
  committing : log.committing = true ↔ pc ≠ .idle
  quiet : pc ≠ .idle → ops = []
  onDisk : OnDisk log disk L pc

/-- The invariant of the log system, for the contents `L` last logged. -/
structure LogState.Inv (s : LogState) (L : Disk) : Prop where
  refs : RefsInv s.cache s.log.dev s.pins s.refs
  data : DataInv s.cache s.log.dev s.log.start s.disk L s.pins s.refs s.ops
  log : LogInv s.log s.ops s.pc s.disk L
  uint : ∀ r ∈ s.refs, r.blockno < 2 ^ 32

/-! ## Lists of references -/

variable {refs : List Ref} {r r' : Ref}

/-- Counting after a reference is replaced. -/
theorem countP_setRef (p : Ref → Bool) (r' : Ref) (h : r ∈ refs) :
    (r' :: refs.erase r).countP p + (if p r then 1 else 0) =
      refs.countP p + if p r' then 1 else 0 := by
  rw [(List.perm_cons_erase h).countP_eq p, List.countP_cons, List.countP_cons]
  omega

theorem mem_setRef {x : Ref} (h : x ∈ r' :: refs.erase r) : x = r' ∨ x ∈ refs :=
  (List.mem_cons.1 h).imp_right List.mem_of_mem_erase

variable {c : Bcache} {dev start : ℕ} {pins : List ℕ} {disk L : Disk} {ops : List Op}

/-- Two references holding the same lock are the same one. -/
theorem RefsInv.holding_unique (h : RefsInv c dev pins refs) {x : Ref} (hr : r ∈ refs)
    (hx : x ∈ refs) (hi : x.idx = r.idx) (hhr : r.phase.holding = true)
    (hhx : x.phase.holding = true) : x = r := by
  by_contra hne
  have hl := h.lock r.idx (h.mem r hr).1
  have hx' : x ∈ refs.erase r := (List.mem_erase_of_ne hne).2 hx
  rw [(List.perm_cons_erase hr).countP_eq, List.countP_cons,
    if_pos (by simp [hhr])] at hl
  have hpos : 0 < (refs.erase r).countP (fun x => x.idx = r.idx ∧ x.phase.holding) :=
    List.countP_pos_iff.2 ⟨x, hx', by simp [hi, hhx]⟩
  split at hl <;> omega

/-- A buffer held by a process is locked. -/
theorem RefsInv.locked (h : RefsInv c dev pins refs) (hr : r ∈ refs)
    (hh : r.phase.holding = true) : (c.buf r.idx).locked = true := by
  have hl := h.lock r.idx (h.mem r hr).1
  have hpos : 0 < refs.countP (fun x => x.idx = r.idx ∧ x.phase.holding) :=
    List.countP_pos_iff.2 ⟨r, hr, by simp [hh]⟩
  by_contra hn
  rw [if_neg hn] at hl
  omega

/-- A buffer a process refers to is counted. -/
theorem RefsInv.refcnt_pos (h : RefsInv c dev pins refs) (hr : r ∈ refs) :
    0 < (c.buf r.idx).refcnt := by
  rw [h.refcnt r.idx (h.mem r hr).1]
  have : 0 < refs.countP (fun x => x.idx = r.idx) :=
    List.countP_pos_iff.2 ⟨r, hr, by simp⟩
  omega

/-- The buffer of a pinned block is valid. -/
theorem RefsInv.valid_of_pinned (h : RefsInv c dev pins refs) {i : ℕ} (hi : i ∈ c.lru)
    (hd : (c.buf i).dev = dev) (hb : (c.buf i).blockno ∈ pins) : (c.buf i).valid = true := by
  obtain ⟨j, hj, hh, hv⟩ := h.cached _ hb
  rwa [h.wf.eq_of_holds h.dev_ne hi hj ⟨hd, rfl⟩ hh]

/-! ## Changing a buffer and a reference to it -/

/-- Changing the lock, the data and the phase of a reference, consistently. -/
theorem RefsInv.setRef (h : RefsInv c dev pins refs) (hr : r ∈ refs) (r' : Ref) (f : Buf → Buf)
    (hidx : r'.idx = r.idx) (hblock : r'.blockno = r.blockno)
    (hd : (f (c.buf r.idx)).dev = (c.buf r.idx).dev)
    (hb : (f (c.buf r.idx)).blockno = (c.buf r.idx).blockno)
    (hc : (f (c.buf r.idx)).refcnt = (c.buf r.idx).refcnt)
    (hv : (c.buf r.idx).valid = true → (f (c.buf r.idx)).valid = true)
    (hready : r'.phase = .ready → (f (c.buf r.idx)).valid = true)
    (hlock : (if r'.phase.holding then 1 else 0) + (if (c.buf r.idx).locked then 1 else 0) =
      (if r.phase.holding then 1 else 0) + if (f (c.buf r.idx)).locked then 1 else 0) :
    RefsInv (c.set r.idx f) dev pins (r' :: refs.erase r) := by
  have hbuf : ∀ j, j ≠ r.idx → (c.set r.idx f).buf j = c.buf j :=
    fun j hj => c.set_buf_of_ne f hj
  have hself := c.set_buf_self r.idx f
  refine ⟨h.wf.set r.idx hd hb, h.dev_ne, fun x hx => ?_, fun i hi => ?_, fun i hi => ?_,
    fun x hx hxr => ?_, fun b hbp => ?_⟩
  · rcases mem_setRef hx with rfl | hx
    · rw [Bcache.Holds, hidx, hblock, hself, hd, hb]; exact h.mem r hr
    · by_cases hxi : x.idx = r.idx
      · have hm := h.mem x hx
        rw [hxi] at hm
        rw [Bcache.Holds, hxi, hself, hd, hb]
        exact hm
      · rw [Bcache.Holds, hbuf _ hxi]; exact h.mem x hx
  · have hcount := countP_setRef (fun x => x.idx = i) r' hr
    rw [hidx] at hcount
    have hcnt : (r' :: refs.erase r).countP (fun x => x.idx = i) =
        refs.countP (fun x => x.idx = i) := by omega
    rw [hcnt]
    by_cases hir : i = r.idx
    · subst hir; rw [hself, hd, hb, hc]; exact h.refcnt _ hi
    · rw [hbuf i hir]; exact h.refcnt i hi
  · have hcount := countP_setRef (fun x => x.idx = i ∧ x.phase.holding) r' hr
    by_cases hir : i = r.idx
    · subst hir
      have := h.lock _ hi
      simp only [hidx, true_and, decide_eq_true_eq] at hcount
      rw [hself]
      omega
    · have hri : r.idx ≠ i := fun e => hir e.symm
      rw [hbuf i hir, ← h.lock i hi]
      simpa [hidx, hri] using hcount
  · rcases mem_setRef hx with rfl | hx
    · rw [hidx, hself]; exact hready hxr
    · by_cases hxi : x.idx = r.idx
      · rw [hxi, hself]; exact hv (hxi ▸ h.ready x hx hxr)
      · rw [hbuf _ hxi]; exact h.ready x hx hxr
  · obtain ⟨i, hi, hh, hvi⟩ := h.cached b hbp
    refine ⟨i, hi, ?_⟩
    by_cases hir : i = r.idx
    · subst hir; rw [Bcache.Holds, hself, hd, hb]; exact ⟨hh, hv hvi⟩
    · rw [Bcache.Holds, hbuf i hir]; exact ⟨hh, hvi⟩

/-- Changing at most the data and the counts of the buffers. -/
theorem RefsInv.recount (h : RefsInv c dev pins refs) {c' : Bcache} {pins' : List ℕ} (hwf : c'.Wf)
    (hlru : c'.lru = c.lru)
    (hsame : ∀ j, c'.buf j =
      { c.buf j with refcnt := (c'.buf j).refcnt, data := (c'.buf j).data })
    (hcount : ∀ i ∈ c.lru, (c'.buf i).refcnt = refs.countP (fun r => r.idx = i) +
      if (c.buf i).dev = dev ∧ (c.buf i).blockno ∈ pins' then 1 else 0)
    (hcached : ∀ b ∈ pins', ∃ i ∈ c.lru, c.Holds dev b i ∧ (c.buf i).valid = true) :
    RefsInv c' dev pins' refs := by
  refine ⟨hwf, h.dev_ne, fun x hx => ?_, fun j hj => ?_, fun j hj => ?_,
    fun x hx hxr => ?_, fun b hb => ?_⟩
  · rw [hlru, Bcache.Holds, hsame]; exact h.mem x hx
  · rw [hcount j (hlru ▸ hj), hsame]
  · rw [hsame]; exact h.lock j (hlru ▸ hj)
  · rw [hsame]; exact h.ready x hx hxr
  · obtain ⟨j, hj, hh⟩ := hcached b hb
    exact ⟨j, hlru ▸ hj, by rw [Bcache.Holds, hsame]; exact hh⟩

/-- Only which blocks are pinned matters. -/
theorem RefsInv.congr_pins (h : RefsInv c dev pins refs) {pins' : List ℕ}
    (hp : ∀ b, b ∈ pins' ↔ b ∈ pins) : RefsInv c dev pins' refs :=
  h.recount h.wf rfl (fun _ => rfl) (fun i hi => by simp only [hp]; exact h.refcnt i hi)
    fun b hb => h.cached b ((hp b).1 hb)

/-- A change of one buffer changes at most its data and its count. -/
theorem Bcache.set_same {i : ℕ} {f : Buf → Buf}
    (hf : f (c.buf i) = { c.buf i with refcnt := (f (c.buf i)).refcnt, data := (f (c.buf i)).data })
    (j : ℕ) : (c.set i f).buf j =
      { c.buf j with refcnt := ((c.set i f).buf j).refcnt, data := ((c.set i f).buf j).data } := by
  by_cases hj : j = i
  · subst hj; rw [set_buf_self]; exact hf
  · rw [set_buf_of_ne _ _ hj]

/-- Changing only the data of a buffer. -/
theorem RefsInv.setData (h : RefsInv c dev pins refs) (i : ℕ) (d : Block) :
    RefsInv (c.set i fun x => { x with data := d }) dev pins refs := by
  refine h.recount (h.wf.set i rfl rfl) rfl (Bcache.set_same rfl) (fun j hj => ?_) h.cached
  rw [← h.refcnt j hj]
  by_cases hji : j = i
  · subst hji; rw [Bcache.set_buf_self]
  · rw [Bcache.set_buf_of_ne _ _ hji]

/-- Only one buffer holds the block of the buffer `i`. -/
theorem RefsInv.blockno_ne (h : RefsInv c dev pins refs) {i j : ℕ} (hi : i ∈ c.lru)
    (hd : (c.buf i).dev = dev) (hj : j ∈ c.lru) (hji : j ≠ i) (hdj : (c.buf j).dev = dev) :
    (c.buf j).blockno ≠ (c.buf i).blockno :=
  fun e => hji (h.wf.eq_of_holds h.dev_ne hj hi ⟨hdj, rfl⟩ ⟨hd, e.symm⟩)

/-- Pinning the block of a valid buffer. -/
theorem RefsInv.bpin (h : RefsInv c dev pins refs) {pins' : List ℕ} {i : ℕ} (hi : i ∈ c.lru)
    (hd : (c.buf i).dev = dev) (hv : (c.buf i).valid = true) (hb : (c.buf i).blockno ∉ pins)
    (hp : ∀ b, b ∈ pins' ↔ b = (c.buf i).blockno ∨ b ∈ pins) :
    RefsInv (c.bpin i) dev pins' refs := by
  refine h.recount (h.wf.set i rfl rfl) rfl (Bcache.set_same rfl) (fun j hj => ?_)
    (fun b hbp => ?_)
  · have hr := h.refcnt j hj
    rw [Bcache.bpin]
    by_cases hji : j = i
    · subst hji
      rw [if_neg fun h' => hb h'.2] at hr
      rw [Bcache.set_buf_self, if_pos ⟨hd, (hp _).2 (.inl rfl)⟩, hr]
    · rw [Bcache.set_buf_of_ne _ _ hji, hr]
      congr 1
      exact if_congr (and_congr_right fun hdj => by simp [hp, h.blockno_ne hi hd hj hji hdj])
        rfl rfl
  · rcases (hp b).1 hbp with rfl | hb'
    · exact ⟨i, hi, ⟨hd, rfl⟩, hv⟩
    · exact h.cached b hb'

/-- Unpinning the block of a buffer. -/
theorem RefsInv.bunpin (h : RefsInv c dev pins refs) {pins' : List ℕ} {i : ℕ} (hi : i ∈ c.lru)
    (hd : (c.buf i).dev = dev) (hb : (c.buf i).blockno ∉ pins')
    (hp : ∀ b, b ∈ pins ↔ b = (c.buf i).blockno ∨ b ∈ pins') :
    RefsInv (c.bunpin i) dev pins' refs := by
  refine h.recount (h.wf.set i rfl rfl) rfl (Bcache.set_same rfl) (fun j hj => ?_)
    (fun b hbp => h.cached b ((hp b).2 (.inr hbp)))
  have hr := h.refcnt j hj
  rw [Bcache.bunpin]
  by_cases hji : j = i
  · subst hji
    rw [if_pos ⟨hd, (hp _).2 (.inl rfl)⟩] at hr
    rw [Bcache.set_buf_self, if_neg fun h' => hb h'.2, hr]
    rfl
  · rw [Bcache.set_buf_of_ne _ _ hji, hr]
    congr 1
    exact if_congr (and_congr_right fun hdj => by simp [hp, h.blockno_ne hi hd hj hji hdj])
      rfl rfl

/-- A new reference to a block. -/
theorem RefsInv.bget (h : RefsInv c dev pins refs) {b i p : ℕ} {c' : Bcache}
    (hc : c.bget dev b = some (i, c')) :
    RefsInv c' dev pins (⟨p, b, i, .waiting, false⟩ :: refs) := by
  have hwf := h.wf.bget hc
  have hcount : ∀ j, (⟨p, b, i, .waiting, false⟩ :: refs).countP (fun r => r.idx = j) =
      refs.countP (fun r => r.idx = j) + if i = j then 1 else 0 := fun j => by
    simp [List.countP_cons]
  have hlock : ∀ j, (⟨p, b, i, .waiting, false⟩ :: refs).countP
      (fun r => r.idx = j ∧ r.phase.holding) =
      refs.countP (fun r => r.idx = j ∧ r.phase.holding) := fun j => by
    simp [Phase.holding]
  obtain ⟨hi, ⟨hh, rfl⟩ | ⟨hnone, hr0, rfl⟩⟩ := c.bget_cases hc
  · have key : ∀ j, (c.set i fun x => { x with refcnt := x.refcnt + 1 }).buf j =
        { c.buf j with refcnt := (c.buf j).refcnt + if i = j then 1 else 0 } := fun j => by
      by_cases hj : j = i
      · subst hj; simp
      · simp [Bcache.set_buf_of_ne _ _ hj, Ne.symm hj]
    refine ⟨hwf, h.dev_ne, fun x hx => ?_, fun j hj => ?_, fun j hj => ?_,
      fun x hx hxr => ?_, fun b' hb' => ?_⟩
    · rcases List.mem_cons.1 hx with rfl | hx
      · rw [Bcache.Holds, key]; exact ⟨hi, hh⟩
      · rw [Bcache.Holds, key]; exact h.mem x hx
    · rw [hcount, key]
      have := h.refcnt j hj
      dsimp only
      omega
    · rw [hlock, key]; exact h.lock j hj
    · rcases List.mem_cons.1 hx with rfl | hx
      · cases hxr
      · rw [key]; exact h.ready x hx hxr
    · obtain ⟨j, hj, hhj⟩ := h.cached b' hb'
      exact ⟨j, hj, by rw [Bcache.Holds, key]; exact hhj⟩
  · -- The recycled buffer is not referenced, and neither its old block nor its new
    -- one is pinned.
    have h0 := h.refcnt i hi
    rw [hr0] at h0
    have hc0 : refs.countP (fun r => r.idx = i) = 0 := by omega
    have hno : ∀ x ∈ refs, x.idx ≠ i := fun x hx e => by
      have := List.countP_eq_zero.1 hc0 x hx
      simp [e] at this
    have hbp : b ∉ pins := fun hb => by
      obtain ⟨j, hj, hhj, -⟩ := h.cached b hb
      exact hnone j hj hhj
    set f : Buf → Buf := fun x => { x with dev := dev, blockno := b, valid := false, refcnt := 1 }
    refine ⟨hwf, h.dev_ne, fun x hx => ?_, fun j hj => ?_, fun j hj => ?_,
      fun x hx hxr => ?_, fun b' hb' => ?_⟩
    · rcases List.mem_cons.1 hx with rfl | hx
      · exact ⟨hi, by rw [Bcache.Holds, Bcache.set_buf_self]; exact ⟨rfl, rfl⟩⟩
      · rw [Bcache.Holds, Bcache.set_buf_of_ne _ _ (hno x hx)]; exact h.mem x hx
    · rw [hcount]
      by_cases hji : j = i
      · subst hji
        rw [Bcache.set_buf_self, hc0, if_pos rfl, if_neg fun h' => hbp h'.2]
      · rw [Bcache.set_buf_of_ne _ _ hji, if_neg fun e => hji e.symm]
        exact h.refcnt j hj
    · rw [hlock]
      by_cases hji : j = i
      · subst hji; rw [Bcache.set_buf_self]; exact h.lock j hj
      · rw [Bcache.set_buf_of_ne _ _ hji]; exact h.lock j hj
    · rcases List.mem_cons.1 hx with rfl | hx
      · cases hxr
      · rw [Bcache.set_buf_of_ne _ _ (hno x hx)]; exact h.ready x hx hxr
    · obtain ⟨j, hj, hhj, hvj⟩ := h.cached b' hb'
      have hji : j ≠ i := by
        rintro rfl
        rw [if_pos ⟨hhj.1, hhj.2 ▸ hb'⟩] at h0
        omega
      exact ⟨j, hj, by
        rw [Bcache.Holds, Bcache.set_buf_of_ne _ _ hji]; exact ⟨hhj, hvj⟩⟩

/-- Dropping a reference. -/
theorem RefsInv.brelse (h : RefsInv c dev pins refs) (hr : r ∈ refs)
    (hrel : r.phase = .released) : RefsInv (c.brelse r.idx) dev pins (refs.erase r) := by
  have hi := (h.mem r hr).1
  have hperm := Bcache.lru_brelse_perm hi
  have hcount : ∀ j, refs.countP (fun x => x.idx = j) =
      (refs.erase r).countP (fun x => x.idx = j) + if r.idx = j then 1 else 0 := fun j => by
    rw [(List.perm_cons_erase hr).countP_eq, List.countP_cons]
    simp
  have hlock : ∀ j, refs.countP (fun x => x.idx = j ∧ x.phase.holding) =
      (refs.erase r).countP (fun x => x.idx = j ∧ x.phase.holding) := fun j => by
    rw [(List.perm_cons_erase hr).countP_eq, List.countP_cons]
    simp [hrel, Phase.holding]
  have key : ∀ j, (c.brelse r.idx).buf j =
      { c.buf j with refcnt := (c.buf j).refcnt - if r.idx = j then 1 else 0 } := fun j => by
    rw [Bcache.brelse_buf]
    by_cases hj : j = r.idx
    · subst hj; simp
    · simp [Bcache.set_buf_of_ne _ _ hj, Ne.symm hj]
  refine ⟨h.wf.brelse hi, h.dev_ne, fun x hx => ?_, fun j hj => ?_, fun j hj => ?_,
    fun x hx hxr => ?_, fun b hb => ?_⟩
  · rw [Bcache.Holds, key, hperm.mem_iff]; exact h.mem x (List.mem_of_mem_erase hx)
  · have := h.refcnt j (hperm.mem_iff.1 hj)
    have := hcount j
    rw [key]
    dsimp only
    omega
  · rw [← hlock, key]; exact h.lock j (hperm.mem_iff.1 hj)
  · rw [key]; exact h.ready x (List.mem_of_mem_erase hx) hxr
  · obtain ⟨j, hj, hh⟩ := h.cached b hb
    exact ⟨j, hperm.mem_iff.2 hj, by rw [Bcache.Holds, key]; exact hh⟩

/-! ## Changing the contents of a buffer -/

/-- Changing the buffer `i`, and the disk and the contents logged for its block. -/
theorem DataInv.change (h : DataInv c dev start disk L pins refs ops) (hwf : c.Wf)
    (hdev : dev ≠ 0) {i : ℕ} (hi : i ∈ c.lru) (hid : (c.buf i).dev = dev) (f : Buf → Buf)
    (hd : (f (c.buf i)).dev = (c.buf i).dev) (hb : (f (c.buf i)).blockno = (c.buf i).blockno)
    {disk' L' : Disk} {pins' : List ℕ} {refs' : List Ref} {ops' : List Op}
    (hL : ∀ b, b ≠ (c.buf i).blockno → L' b = L b)
    (hdisk : ∀ b, b ≠ (c.buf i).blockno → disk' b = disk b)
    (hdirty : ∀ r ∈ refs', r.dirty = true → r.phase = .ready ∧ (∃ o ∈ ops', o.pid = r.pid) ∧
      ¬InLog start (c.buf r.idx).blockno)
    (hrefs : ∀ r ∈ refs, r.idx ≠ i → r ∈ refs')
    (hclean : (f (c.buf i)).valid = true → ¬InLog start (c.buf i).blockno →
      (∀ r ∈ refs', r.idx = i → r.dirty = false) → (f (c.buf i)).data = L' (c.buf i).blockno)
    (hlog : (f (c.buf i)).valid = true → InLog start (c.buf i).blockno →
      (f (c.buf i)).data = disk' (c.buf i).blockno)
    (hd' : ∀ b, ¬InLog start b → b ∉ pins' → disk' b = L' b) :
    DataInv (c.set i f) dev start disk' L' pins' refs' ops' := by
  have hself := c.set_buf_self i f
  have hbuf : ∀ j, j ≠ i → (c.set i f).buf j = c.buf j := fun j hj => c.set_buf_of_ne f hj
  have hblock : ∀ j, ((c.set i f).buf j).blockno = (c.buf j).blockno := fun j => by
    by_cases hj : j = i
    · subst hj; rw [hself, hb]
    · rw [hbuf j hj]
  have hne : ∀ j ∈ c.lru, j ≠ i → (c.buf j).dev = dev → (c.buf j).blockno ≠ (c.buf i).blockno :=
    fun j hj hji hdj e => hji (hwf.eq_of_holds hdev hj hi ⟨hdj, rfl⟩ ⟨hid, e.symm⟩)
  refine ⟨fun r hr hrd => ?_, fun j hj hdj hv hl hnd => ?_, fun j hj hdj hv hl => ?_, hd'⟩
  · rw [hblock]; exact hdirty r hr hrd
  · rw [hblock] at hl ⊢
    by_cases hji : j = i
    · subst hji; rw [hself] at hv ⊢; exact hclean hv hl hnd
    · rw [hbuf j hji] at hdj hv ⊢
      rw [hL _ (hne j hj hji hdj)]
      exact h.clean j hj hdj hv hl fun r hr hrj => hnd r (hrefs r hr (hrj ▸ hji)) hrj
  · rw [hblock] at hl ⊢
    by_cases hji : j = i
    · subst hji; rw [hself] at hv ⊢; exact hlog hv hl
    · rw [hbuf j hji] at hdj hv ⊢
      rw [hdisk _ (hne j hj hji hdj)]
      exact h.logbuf j hj hdj hv hl

/-- Replacing a reference leaves those to other buffers. -/
theorem mem_setRef_of_ne {x : Ref} (hx : x ∈ refs) (hne : x.idx ≠ r.idx) :
    x ∈ r' :: refs.erase r :=
  List.mem_cons_of_mem _ ((List.mem_erase_of_ne fun e => hne (congrArg Ref.idx e)).2 hx)

/-- Contents do not depend on the phases of references, without modifications. -/
theorem DataInv.bget (h : DataInv c dev start disk L pins refs ops) {b i p : ℕ} {c' : Bcache}
    (hrefs : RefsInv c dev pins refs) (hc : c.bget dev b = some (i, c')) :
    DataInv c' dev start disk L pins (⟨p, b, i, .waiting, false⟩ :: refs) ops := by
  obtain ⟨hi, ⟨hh, rfl⟩ | ⟨hnone, hr0, rfl⟩⟩ := c.bget_cases hc
  · refine h.change hrefs.wf hrefs.dev_ne hi hh.1 _ rfl rfl (fun _ _ => rfl) (fun _ _ => rfl)
      (fun r hr hd => ?_) (fun r hr _ => List.mem_cons_of_mem _ hr) (fun hv hl hnd => ?_)
      (fun hv hl => h.logbuf i hi hh.1 hv hl) h.disk
    · rcases List.mem_cons.1 hr with rfl | hr
      · cases hd
      · exact h.dirty r hr hd
    · exact h.clean i hi hh.1 hv hl fun r hr => hnd r (List.mem_cons_of_mem _ hr)
  · have hno : ∀ x ∈ refs, x.idx ≠ i := fun x hx e => by
      have := hrefs.refcnt_pos hx
      rw [e] at this
      omega
    refine ⟨fun r hr hd => ?_, fun j hj hdj hv hl hnd => ?_, fun j hj hdj hv hl => ?_, h.disk⟩
    · rcases List.mem_cons.1 hr with rfl | hr
      · cases hd
      · rw [Bcache.set_buf_of_ne _ _ (hno r hr)]; exact h.dirty r hr hd
    · by_cases hji : j = i
      · subst hji; rw [Bcache.set_buf_self] at hv; cases hv
      · rw [Bcache.set_buf_of_ne _ _ hji] at hdj hv hl ⊢
        exact h.clean j hj hdj hv hl fun r hr => hnd r (List.mem_cons_of_mem _ hr)
    · by_cases hji : j = i
      · subst hji; rw [Bcache.set_buf_self] at hv; cases hv
      · rw [Bcache.set_buf_of_ne _ _ hji] at hdj hv hl ⊢
        exact h.logbuf j hj hdj hv hl

/-- Contents after a reference is dropped. -/
theorem DataInv.brelse (h : DataInv c dev start disk L pins refs ops)
    (hrefs : RefsInv c dev pins refs) (hr : r ∈ refs) (hrel : r.phase = .released) :
    DataInv (c.brelse r.idx) dev start disk L pins (refs.erase r) ops := by
  have hperm := Bcache.lru_brelse_perm (hrefs.mem r hr).1
  have key : ∀ j, (c.brelse r.idx).buf j =
      { c.buf j with refcnt := ((c.brelse r.idx).buf j).refcnt } := fun j => by
    rw [Bcache.brelse_buf]
    by_cases hj : j = r.idx
    · subst hj; simp
    · simp [Bcache.set_buf_of_ne _ _ hj]
  have hnd' : r.dirty = false := by
    by_contra hd
    have := (h.dirty r hr (by simpa using hd)).1
    rw [hrel] at this
    cases this
  refine ⟨fun x hx hd => ?_, fun j hj hdj hv hl hnd => ?_, fun j hj hdj hv hl => ?_, h.disk⟩
  · rw [key]; exact h.dirty x (List.mem_of_mem_erase hx) hd
  · rw [key] at hdj hv hl ⊢
    refine h.clean j (hperm.mem_iff.1 hj) hdj hv hl fun x hx hxj => ?_
    by_cases hxr : x = r
    · exact hxr ▸ hnd'
    · exact hnd x ((List.mem_erase_of_ne hxr).2 hx) hxj
  · rw [key] at hdj hv hl ⊢
    exact h.logbuf j (hperm.mem_iff.1 hj) hdj hv hl

end Xv6
