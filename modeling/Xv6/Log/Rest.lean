import Xv6.Log.Commit

/-!
# One write at a time

Between two iterations of its loops, the log code holds no buffer: the store is
*at rest* (`Calm`). An iteration reads a block of the log area and a home block,
writes one of them to the disk and releases both. What it does is stated once
for all of them (`Wrote`): the writes issued, which home blocks are still pinned
in the cache, and that the buffers of the log area are as on the disk again.

* `wp_writeLogBlock`: an iteration of `write_log`;
* `wp_installBlock`: an iteration of `install_trans`;
* `wp_readHead` and `wp_writeHead`: the header.

They panic only when the cache is short of buffers (`Short` and `Full`); it is not when no
buffer is referenced (`Idle`), as at boot.
-/

namespace Xv6

/-- The store between two iterations of the loops of the log: no buffer is
    locked, and the valid buffers of the log area are as on the disk. -/
structure Calm (s : Store) : Prop where
  wf : s.cache.Wf
  dev : s.log.dev ≠ 0
  unlocked : ∀ i ∈ s.cache.lru, (s.cache.buf i).locked = false
  coherent : ∀ i ∈ s.cache.lru, ∀ b, InLog s.log.start b → s.cache.Holds s.log.dev b i →
    (s.cache.buf i).valid = true → (s.cache.buf i).data = s.disk b

/-- The block `b` is pinned in the cache, with the contents `d`. -/
def Pinned (s : Store) (b : ℕ) (d : Block) : Prop :=
  ∃ i ∈ s.cache.lru, s.cache.Holds s.log.dev b i ∧ (s.cache.buf i).valid = true ∧
    0 < (s.cache.buf i).refcnt ∧ (s.cache.buf i).data = d

/-- No buffer of the store is referenced. -/
def Idle (s : Store) : Prop := ∀ i ∈ s.cache.lru, (s.cache.buf i).refcnt = 0

variable {s t : Store} {b b' i : ℕ} {d : Block}

/-- In an idle store there is an unused buffer besides any given one. -/
theorem Idle.exists_unused (h : Idle s) (hwf : s.cache.Wf) (i : ℕ) :
    ∃ j ∈ s.cache.lru, j ≠ i ∧ (s.cache.buf j).refcnt = 0 := by
  have h0 : 0 ∈ s.cache.lru := hwf.mem_lru.2 (by decide)
  have h1 : 1 ∈ s.cache.lru := hwf.mem_lru.2 (by decide)
  by_cases hi : i = 0
  · exact ⟨1, h1, by omega, h 1 h1⟩
  · exact ⟨0, h0, by omega, h 0 h0⟩

/-- Every buffer of the store is referenced. -/
def Full (s : Store) : Prop := ∀ i ∈ s.cache.lru, (s.cache.buf i).refcnt ≠ 0

/-- The cache has no buffers for both a block of the log area and the home block `b`. -/
def Short (s : Store) (b : ℕ) : Prop :=
  Full s ∨ (∀ d, ¬Pinned s b d) ∧
    ∃ i, ∀ j ∈ s.cache.lru, (s.cache.buf j).refcnt = 0 → j = i

theorem Full.not_idle (h : Full s) (hwf : s.cache.Wf) : ¬Idle s := fun hidle => by
  obtain ⟨j, hj, -, h0⟩ := hidle.exists_unused hwf 0
  exact h j hj h0

theorem Short.not_idle (h : Short s b) (hwf : s.cache.Wf) : ¬Idle s := fun hidle => by
  rcases h with h | ⟨-, i, hi⟩
  · exact h.not_idle hwf hidle
  · obtain ⟨j, hj, hji, h0⟩ := hidle.exists_unused hwf i
    exact hji (hi j hj h0)

/-- A buffer in use that holds another block is not taken by `bread`. -/
theorem Bread.ne (h : Bread s s.log.dev b i t) {j : ℕ} (hj : s.cache.Holds s.log.dev b' j)
    (hb : b' ≠ b) (hr : 0 < (s.cache.buf j).refcnt) : j ≠ i := by
  rintro rfl
  obtain ⟨d, -, ⟨hh, -⟩ | ⟨-, h0, -⟩⟩ := h.got
  · exact hb (hj.2.symm.trans hh.2)
  · omega

/-- In a calm store, `bread` does not wait. -/
theorem Calm.free (h : Calm s) :
    ∀ i ∈ s.cache.lru, s.cache.Holds s.log.dev b i ∨ (s.cache.buf i).refcnt = 0 →
      (s.cache.buf i).locked = false :=
  fun i hi _ => h.unlocked i hi

/-- Nor does a second `bread`, of another block. -/
theorem Calm.free_of_bread (h : Calm s) (h₁ : Bread s s.log.dev b i t) (hb : b' ≠ b) :
    ∀ j ∈ t.cache.lru, t.cache.Holds t.log.dev b' j ∨ (t.cache.buf j).refcnt = 0 →
      (t.cache.buf j).locked = false := by
  intro j hj hor
  by_cases hji : j = i
  · subst hji
    obtain ⟨d, hbuf, -⟩ := h₁.got
    rcases hor with hh | h0
    · exact absurd hh.2 (by rw [hbuf]; exact hb.symm)
    · rw [hbuf] at h0; exact absurd h0 (Nat.succ_ne_zero _)
  · rw [h₁.other j hji]
    exact h.unlocked j (h₁.lru ▸ hj)

/-- Reading a block of the log area gives what is on the disk. -/
theorem Calm.bread_log (h : Calm s) (h₁ : Bread s s.log.dev b i t) (hb : InLog s.log.start b) :
    (t.cache.buf i).data = s.disk b := by
  obtain ⟨d, hbuf, ⟨hh, rfl⟩ | ⟨-, -, rfl⟩⟩ := h₁.got
  · rw [hbuf]
    dsimp only
    split
    · rename_i hv
      exact h.coherent i h₁.mem b hb hh hv
    · rfl
  · rw [hbuf]

/-- Reading a pinned block gives its contents. -/
theorem Pinned.bread (h : Pinned s b d) (hwf : s.cache.Wf) (hdev : s.log.dev ≠ 0)
    (h₁ : Bread s s.log.dev b i t) :
    t.cache.buf i =
      { valid := true, dev := s.log.dev, blockno := b, locked := true,
        refcnt := (s.cache.buf i).refcnt + 1, data := d } ∧
      0 < (s.cache.buf i).refcnt ∧ s.cache.Holds s.log.dev b i ∧ (s.cache.buf i).valid = true ∧
      (s.cache.buf i).data = d := by
  obtain ⟨j, hj, hjb, hv, hr, rfl⟩ := h
  obtain ⟨d, hbuf, ⟨hh, rfl⟩ | ⟨hno, -⟩⟩ := h₁.got
  · obtain rfl := hwf.eq_of_holds hdev h₁.mem hj hh hjb
    exact ⟨by rw [hbuf, if_pos hv], hr, hjb, hv, rfl⟩
  · exact absurd hjb (hno j hj)

/-- A block stays pinned while another one is read. -/
theorem Pinned.of_bread (h : Pinned s b' d) (h₁ : Bread s s.log.dev b i t) (hb : b' ≠ b) :
    Pinned t b' d := by
  obtain ⟨j, hj, hjb, hv, hr, hd⟩ := h
  have hji := h₁.ne hjb hb hr
  refine ⟨j, h₁.lru ▸ hj, ?_⟩
  rw [Bcache.Holds, h₁.other j hji, h₁.log]
  exact ⟨hjb, hv, hr, hd⟩

theorem inLog_succ (start : ℕ) {tail : ℕ} (h : tail < logBlocks) : InLog start (start + tail + 1) :=
  ⟨by omega, by omega⟩

theorem inLog_start (start : ℕ) : InLog start start := ⟨Nat.le_refl _, Nat.le_add_right _ _⟩

theorem ne_of_inLog {start : ℕ} (h : ¬InLog start b') (hb : InLog start b) : b' ≠ b :=
  fun e => h (e ▸ hb)

/-- What reading a block of the log area and then a home block gives: two
    buffers, both locked, the other ones as they were. -/
structure Bread₂ (s : Store) (lb hb i₁ i₂ : ℕ) (t : Store) : Prop where
  mem₁ : i₁ ∈ s.cache.lru
  mem₂ : i₂ ∈ s.cache.lru
  ne : i₁ ≠ i₂
  lru : t.cache.lru = s.cache.lru
  disk : t.disk = s.disk
  log : t.log = s.log
  writes : t.writes = s.writes
  wf : t.cache.Wf
  other : ∀ j, j ≠ i₁ → j ≠ i₂ → t.cache.buf j = s.cache.buf j
  /-- The buffer of the log block: it was unused, or held that block. -/
  log_buf : t.cache.buf i₁ =
      { valid := true, dev := s.log.dev, blockno := lb, locked := true,
        refcnt := (s.cache.buf i₁).refcnt + 1, data := s.disk lb } ∧
    (s.cache.Holds s.log.dev lb i₁ ∨ (s.cache.buf i₁).refcnt = 0)
  /-- The buffer of the home block: likewise. -/
  home_buf : ∃ d, t.cache.buf i₂ =
      { valid := true, dev := s.log.dev, blockno := hb, locked := true,
        refcnt := (s.cache.buf i₂).refcnt + 1, data := d } ∧
    (s.cache.Holds s.log.dev hb i₂ ∨ (s.cache.buf i₂).refcnt = 0) ∧
    ∀ D, Pinned s hb D → d = D ∧ 0 < (s.cache.buf i₂).refcnt

theorem wp_bread₂ {lb hb : ℕ} {f : ℕ → ℕ → K PUnit} {Q : PUnit → Store → Prop}
    {E : Stop → Store → Prop} (h : Calm s) (hlb : InLog s.log.start lb)
    (hhb : ¬InLog s.log.start hb)
    (hf : ∀ i₁ i₂ t, Bread₂ s lb hb i₁ i₂ t → wp (f i₁ i₂) Q E t)
    (hE : ∀ e t, t.writes = s.writes → Short s hb → E e t) :
    wp (do let i₁ ← bread s.log.dev lb; let i₂ ← bread s.log.dev hb; f i₁ i₂) Q E s := by
  have hne := ne_of_inLog hhb hlb
  simp only [wp_bind]
  refine (wp_bread h.wf h.free).mono (fun i₁ s₁ h₁ => ?_) (fun e t ht => ?_)
  swap
  · obtain ⟨rfl, -, hr⟩ := ht
    exact hE e t rfl (.inl hr)
  have hfree := h.free_of_bread h₁ hne
  rw [h₁.log] at hfree
  refine (wp_bread h₁.wf hfree).mono (fun i₂ s₂ h₂ => ?_) (fun e t ht => ?_)
  swap
  · obtain ⟨rfl, hno, hr⟩ := ht
    refine hE e t h₁.writes (.inr ⟨fun d hpin => ?_, i₁, fun j hj h0 => ?_⟩)
    · obtain ⟨j, hj, hjb, -⟩ := hpin.of_bread h₁ hne
      exact hno j hj (h₁.log ▸ hjb)
    · by_contra hji
      exact hr j (h₁.lru.symm ▸ hj) (by rw [h₁.other j hji, h0])
  refine hf i₁ i₂ s₂ ?_
  obtain ⟨d₁, hb₁, hor₁⟩ := h₁.got
  obtain ⟨d₂, hb₂, hor₂⟩ := h₂.got
  have hd₁ : d₁ = s.disk lb := by simpa [hb₁] using h.bread_log h₁ hlb
  -- The first buffer is in use and holds another block: the second is not it.
  have hi : i₁ ≠ i₂ := by
    rintro rfl
    rcases hor₂ with ⟨hh, -⟩ | ⟨-, h0, -⟩
    · exact hne (hh.2.symm.trans (by rw [hb₁]))
    · rw [hb₁] at h0; exact Nat.succ_ne_zero _ h0
  have ho₂ := h₁.other i₂ hi.symm
  have hmem₂ : i₂ ∈ s.cache.lru := h₁.lru ▸ h₂.mem
  refine ⟨h₁.mem, hmem₂, hi, h₂.lru.trans h₁.lru, h₂.disk.trans h₁.disk, h₂.log.trans h₁.log,
    h₂.writes.trans h₁.writes, h₂.wf, fun j hj₁ hj₂ => (h₂.other j hj₂).trans (h₁.other j hj₁),
    ⟨by rw [h₂.other i₁ hi, hb₁, hd₁], ?_⟩, d₂, ho₂ ▸ hb₂, ?_, fun D hD => ?_⟩
  · exact hor₁.imp (·.1) (·.2.1)
  · rw [Bcache.Holds, ho₂] at hor₂
    exact hor₂.imp (·.1) (·.2.1)
  · have hD₁ := hD.of_bread h₁ hne
    rw [← h₁.log] at h₂
    obtain ⟨e, hr, -, -, -⟩ := hD₁.bread h₁.wf (h₁.log ▸ h.dev) h₂
    rw [ho₂] at e hr
    rw [hb₂] at e
    exact ⟨(Buf.mk.inj e).2.2.2.2.2, hr⟩

/-- The store `t` after the buffers `i` and `j` of `u` have been released. -/
structure Released (u : Store) (i j : ℕ) (t : Store) : Prop where
  perm : t.cache.lru.Perm u.cache.lru
  disk : t.disk = u.disk
  log : t.log = u.log
  writes : t.writes = u.writes
  wf : t.cache.Wf
  fst : t.cache.buf i =
    { u.cache.buf i with locked := false, refcnt := (u.cache.buf i).refcnt - 1 }
  snd : t.cache.buf j =
    { u.cache.buf j with locked := false, refcnt := (u.cache.buf j).refcnt - 1 }
  other : ∀ k, k ≠ i → k ≠ j → t.cache.buf k = u.cache.buf k

theorem wp_brelse₂ {u : Store} {i j : ℕ} {Q : PUnit → Store → Prop} {E : Stop → Store → Prop}
    (hwf : u.cache.Wf) (hi : i ∈ u.cache.lru) (hj : j ∈ u.cache.lru) (hij : i ≠ j)
    (hli : (u.cache.buf i).locked = true) (hlj : (u.cache.buf j).locked = true)
    (hQ : ∀ t, Released u i j t → Q ⟨⟩ t) : wp (do brelse i; brelse j) Q E u := by
  rw [wp_bind, wp_brelse hli]
  have hp := Bcache.lru_brelse_perm (c := u.cache.set i fun x => { x with locked := false }) hi
  have hj' := hp.mem_iff.2 hj
  rw [wp_brelse (by rw [Bcache.release_buf_of_ne hij.symm]; exact hlj)]
  refine hQ _ ⟨(Bcache.lru_brelse_perm (by exact hj')).trans hp, rfl, rfl, rfl,
    (hwf.release hi).release hj', ?_, ?_, fun k hki hkj => ?_⟩
  · rw [Bcache.release_buf_of_ne hij, Bcache.release_buf_self]
  · rw [Bcache.release_buf_self, Bcache.release_buf_of_ne hij.symm]
  · rw [Bcache.release_buf_of_ne hkj, Bcache.release_buf_of_ne hki]

/-- The store `t` is `s` after the writes `ws`, and at rest again: the home blocks
    that were not written are still pinned. -/
structure Wrote (s : Store) (ws : List (ℕ × Block)) (t : Store) : Prop where
  calm : Calm t
  log : t.log = s.log
  writes : t.writes = s.writes ++ ws
  disk : t.disk = applyWrites ws s.disk
  pinned : ∀ b D, ¬InLog s.log.start b → (∀ w ∈ ws, w.1 ≠ b) → Pinned s b D → Pinned t b D
  perm : t.cache.lru.Perm s.cache.lru
  refcnt : ∀ j, (t.cache.buf j).refcnt ≤ (s.cache.buf j).refcnt

theorem Wrote.idle {ws : List (ℕ × Block)} (h : Wrote s ws t) (hidle : Idle s) : Idle t := by
  intro j hj
  have := hidle j (h.perm.mem_iff.1 hj)
  have := h.refcnt j
  omega

theorem Wrote.refl (h : Calm s) : Wrote s [] s :=
  ⟨h, rfl, (List.append_nil _).symm, rfl, fun _ _ _ _ h => h, .refl _, fun _ => le_rfl⟩

theorem Wrote.trans {u : Store} {ws vs : List (ℕ × Block)} (h₁ : Wrote s ws t)
    (h₂ : Wrote t vs u) : Wrote s (ws ++ vs) u where
  calm := h₂.calm
  log := h₂.log.trans h₁.log
  writes := by rw [h₂.writes, h₁.writes, List.append_assoc]
  disk := by rw [h₂.disk, h₁.disk, applyWrites_append]
  pinned b D hb hw hp := h₂.pinned b D (h₁.log ▸ hb) (fun w h => hw w (List.mem_append_right _ h))
    (h₁.pinned b D hb (fun w h => hw w (List.mem_append_left _ h)) hp)
  perm := h₂.perm.trans h₁.perm
  refcnt j := (h₂.refcnt j).trans (h₁.refcnt j)

/-- Writes are well done when the buffers `T` touched by them are released, those of
    the log area as on the disk, without unpinning other home blocks. -/
theorem Calm.wrote (h : Calm s) {ws : List (ℕ × Block)} (T : ℕ → Prop) (hwf : t.cache.Wf)
    (hperm : t.cache.lru.Perm s.cache.lru) (hlog : t.log = s.log)
    (hwrites : t.writes = s.writes ++ ws) (hdisk : t.disk = applyWrites ws s.disk)
    (hother : ∀ j, ¬T j → t.cache.buf j = s.cache.buf j)
    (hunl : ∀ j, T j → (t.cache.buf j).locked = false)
    (href : ∀ j, T j → (t.cache.buf j).refcnt ≤ (s.cache.buf j).refcnt)
    (hcoh : ∀ j, T j → ∀ b, InLog s.log.start b → t.cache.Holds s.log.dev b j →
      (t.cache.buf j).data = t.disk b)
    (hw : ∀ w ∈ ws, InLog s.log.start w.1 →
      ∃ j ∈ t.cache.lru, T j ∧ t.cache.Holds s.log.dev w.1 j)
    (hpin : ∀ j, T j → ∀ b, ¬InLog s.log.start b → (∀ w ∈ ws, w.1 ≠ b) →
      s.cache.Holds s.log.dev b j → 0 < (s.cache.buf j).refcnt →
      t.cache.Holds s.log.dev b j ∧ (t.cache.buf j).valid = (s.cache.buf j).valid ∧
        0 < (t.cache.buf j).refcnt ∧ (t.cache.buf j).data = (s.cache.buf j).data) :
    Wrote s ws t := by
  refine ⟨⟨hwf, hlog ▸ h.dev, fun j hj => ?_, fun j hj b hb hh hv => ?_⟩, hlog, hwrites, hdisk,
    fun b D hbl hbw ⟨j, hj, hh, hv, hr, hd⟩ => ?_, hperm, fun j => ?_⟩
  · by_cases hT : T j
    · exact hunl j hT
    · rw [hother j hT]
      exact h.unlocked j (hperm.mem_iff.1 hj)
  · rw [hlog] at hb hh
    by_cases hT : T j
    · exact hcoh j hT b hb hh
    · -- Another buffer of the log area: its block is not the one written.
      have hbw : ∀ w ∈ ws, w.1 ≠ b := by
        rintro w hwm rfl
        obtain ⟨k, hk, hTk, hhk⟩ := hw w hwm hb
        exact hT (hwf.eq_of_holds h.dev hj hk hh hhk ▸ hTk)
      rw [Bcache.Holds, hother j hT] at hh
      rw [hother j hT] at hv ⊢
      rw [hdisk, applyWrites_of_not_mem hbw]
      exact h.coherent j (hperm.mem_iff.1 hj) b hb hh hv
  · refine ⟨j, hperm.mem_iff.2 hj, ?_⟩
    rw [hlog]
    by_cases hT : T j
    · obtain ⟨hh', hv', hr', hd'⟩ := hpin j hT b hbl hbw hh hr
      exact ⟨hh', hv'.trans hv, hr', hd'.trans hd⟩
    · rw [Bcache.Holds, hother j hT]
      exact ⟨hh, hv, hr, hd⟩
  · by_cases hT : T j
    · exact href j hT
    · rw [hother j hT]

/-- The store after a log block and a home block have been read, one of them has
    been written, and both have been released. -/
theorem Bread₂.wrote {lb hb i₁ i₂ w r₁ r₂ : ℕ} {d₁ d₂ : Block} {s₂ : Store}
    (h₂ : Bread₂ s lb hb i₁ i₂ s₂) (h : Calm s) (hlb : InLog s.log.start lb)
    (hhb : ¬InLog s.log.start hb) (hwf : t.cache.Wf) (hperm : t.cache.lru.Perm s.cache.lru)
    (hlog : t.log = s.log) (hwrites : t.writes = s.writes ++ [(w, d)])
    (hdisk : t.disk = Function.update s.disk w d)
    (hb₁ : t.cache.buf i₁ = ⟨true, s.log.dev, lb, false, r₁, d₁⟩)
    (hb₂ : t.cache.buf i₂ = ⟨true, s.log.dev, hb, false, r₂, d₂⟩)
    (hr₁ : r₁ ≤ (s.cache.buf i₁).refcnt) (hr₂ : r₂ ≤ (s.cache.buf i₂).refcnt)
    (hother : ∀ j, j ≠ i₁ → j ≠ i₂ → t.cache.buf j = s.cache.buf j)
    (hw : (w = lb ∧ d₁ = d ∧ d₂ = d ∧ r₂ = (s.cache.buf i₂).refcnt ∧ Pinned s hb d) ∨
      (w = hb ∧ d₁ = s.disk lb)) :
    Wrote s [(w, d)] t := by
  have hin₁ : i₁ ∈ t.cache.lru := hperm.mem_iff.2 h₂.mem₁
  have hd₁ : d₁ = t.disk lb := by
    rw [hdisk]
    rcases hw with ⟨rfl, rfl, -⟩ | ⟨rfl, rfl⟩
    · rw [Function.update_self]
    · rw [Function.update_of_ne (ne_of_inLog hhb hlb).symm]
  refine h.wrote (fun j => j = i₁ ∨ j = i₂) hwf hperm hlog hwrites hdisk
    (fun j hj => hother j (fun e => hj (.inl e)) fun e => hj (.inr e)) ?_ ?_ ?_ ?_ ?_
  · rintro j (rfl | rfl)
    · rw [hb₁]
    · rw [hb₂]
  · rintro j (rfl | rfl)
    · rw [hb₁]; exact hr₁
    · rw [hb₂]; exact hr₂
  · rintro j (rfl | rfl) b hbl hh
    · rw [← hh.2, hb₁]; exact hd₁
    · rw [Bcache.Holds, hb₂] at hh
      exact absurd hbl (hh.2 ▸ hhb)
  · intro v hv hin
    obtain rfl := List.mem_singleton.1 hv
    refine ⟨i₁, hin₁, .inl rfl, ?_⟩
    rcases hw with ⟨rfl, -⟩ | ⟨rfl, -⟩
    · rw [Bcache.Holds, hb₁]; exact ⟨rfl, rfl⟩
    · exact absurd hin hhb
  · rintro j (rfl | rfl) b hbl hbw hh hr
    · exact absurd hh.2 (h₂.log_buf.2.elim (fun h' e => ne_of_inLog hbl hlb (e.symm.trans h'.2))
        fun h' => by omega)
    · -- The home block itself, which was only copied.
      obtain ⟨d', -, hor, -⟩ := h₂.home_buf
      obtain rfl : b = hb := hor.elim (fun h' => hh.2.symm.trans h'.2) fun h' => by omega
      obtain ⟨-, -, rfl, rfl, k, hk, hhk, hvk, -, hdk⟩ :=
        hw.resolve_right fun h' => hbw _ List.mem_cons_self h'.1
      obtain rfl := h.wf.eq_of_holds h.dev h₂.mem₂ hk hh hhk
      rw [Bcache.Holds, hb₂]
      exact ⟨⟨rfl, rfl⟩, hvk.symm, hr, hdk.symm⟩

/-- An iteration of `write_log` copies a pinned block to the log. -/
theorem wp_writeLogBlock {tail : ℕ} (h : Calm s) (ht : tail < logBlocks)
    (hb : ¬InLog s.log.start (s.log.lh.block tail)) (hp : Pinned s (s.log.lh.block tail) d) :
    wp (writeLogBlock tail) (fun _ t => Wrote s [(s.log.start + tail + 1, d)] t)
      (fun _ t => t.writes = s.writes ∧ Short s (s.log.lh.block tail)) s := by
  have hlb := inLog_succ s.log.start ht
  rw [writeLogBlock, wp_bind, wp_get]
  refine wp_bread₂ h hlb hb (fun i₁ i₂ s₂ h₂ => ?_) (fun _ _ hw hi => ⟨hw, hi⟩)
  obtain ⟨hb₁, -⟩ := h₂.log_buf
  obtain ⟨d₂, hb₂, -, hpin⟩ := h₂.home_buf
  obtain ⟨rfl, hr⟩ := hpin d hp
  have hne := h₂.ne
  have hi₁ : i₁ ∈ s₂.cache.lru := h₂.lru ▸ h₂.mem₁
  have hi₂ : i₂ ∈ s₂.cache.lru := h₂.lru ▸ h₂.mem₂
  rw [wp_bind, copyData, wp_modify, wp_bind, wp_bwrite (by simp [hb₁])]
  refine wp_brelse₂ (h₂.wf.set i₁ (f := fun x => { x with data := _ }) rfl rfl) hi₂ hi₁ hne.symm
    (by simp [Bcache.set_buf_of_ne _ _ hne.symm, hb₂]) (by simp [hb₁]) (fun t ht => ?_)
  have hfst := ht.fst
  have hsnd := ht.snd
  have hdisk := ht.disk
  have hwrites := ht.writes
  simp only [Bcache.set_buf_self, Bcache.set_buf_of_ne _ _ hne.symm, hb₁, hb₂, Nat.add_sub_cancel,
    h₂.disk, h₂.writes] at hfst hsnd hdisk hwrites
  refine h₂.wrote h hlb hb ht.wf (ht.perm.trans (by rw [Bcache.set_lru, h₂.lru]))
    (ht.log.trans h₂.log) hwrites hdisk hsnd hfst le_rfl le_rfl (fun j hj₁ hj₂ => ?_)
    (.inl ⟨rfl, rfl, rfl, rfl, hp⟩)
  rw [ht.other j hj₂ hj₁, Bcache.set_buf_of_ne _ _ hj₁, h₂.other j hj₁ hj₂]

/-- An iteration of `install_trans` copies a block of the log to its home. -/
theorem wp_installBlock {tail : ℕ} (h : Calm s) (recovering : Bool) (ht : tail < logBlocks)
    (hb : ¬InLog s.log.start (s.log.lh.block tail)) :
    wp (installBlock recovering tail)
      (fun _ t => Wrote s [(s.log.lh.block tail, s.disk (s.log.start + tail + 1))] t)
      (fun _ t => t.writes = s.writes ∧ Short s (s.log.lh.block tail)) s := by
  have hlb := inLog_succ s.log.start ht
  rw [installBlock, wp_bind, wp_get]
  refine wp_bread₂ h hlb hb (fun i₁ i₂ s₂ h₂ => ?_) (fun _ _ hw hi => ⟨hw, hi⟩)
  obtain ⟨hb₁, -⟩ := h₂.log_buf
  obtain ⟨d₂, hb₂, -, -⟩ := h₂.home_buf
  have hne := h₂.ne
  rw [wp_bind, copyData, wp_modify, wp_bind, wp_bwrite (by simp [hb₂]), wp_bind]
  have hwf := h₂.wf.set i₂ (f := fun x => { x with data := (s₂.cache.buf i₁).data }) rfl rfl
  have hou : ∀ j, j ≠ i₁ → j ≠ i₂ →
      (s₂.cache.set i₂ fun x => { x with data := (s₂.cache.buf i₁).data }).buf j = s.cache.buf j :=
    fun j hj₁ hj₂ => by rw [Bcache.set_buf_of_ne _ _ hj₂, h₂.other j hj₁ hj₂]
  -- The buffers are released from the store `u`: unpinning the home block only
  -- changes the references to it.
  have key : ∀ u : Store, u.cache.Wf → u.cache.lru = s.cache.lru → u.log = s.log →
      u.writes = s.writes ++ [(s.log.lh.block tail, s.disk (s.log.start + tail + 1))] →
      u.disk = Function.update s.disk (s.log.lh.block tail) (s.disk (s.log.start + tail + 1)) →
      u.cache.buf i₁ = s₂.cache.buf i₁ →
      (∃ r, u.cache.buf i₂ = ⟨true, s.log.dev, s.log.lh.block tail, true, r,
        s.disk (s.log.start + tail + 1)⟩ ∧ r ≤ (s.cache.buf i₂).refcnt + 1) →
      (∀ j, j ≠ i₁ → j ≠ i₂ → u.cache.buf j = s.cache.buf j) →
      wp (do brelse i₁; brelse i₂)
        (fun _ t => Wrote s [(s.log.lh.block tail, s.disk (s.log.start + tail + 1))] t)
        (fun _ t => t.writes = s.writes ∧ Short s (s.log.lh.block tail)) u := by
    rintro u hu hlru hlogu hwu hdu hu₁ ⟨r, hu₂, hr⟩ hou
    rw [hb₁] at hu₁
    refine wp_brelse₂ hu (hlru ▸ h₂.mem₁) (hlru ▸ h₂.mem₂) hne (by rw [hu₁]) (by rw [hu₂])
      (fun t ht => ?_)
    have hfst := ht.fst
    have hsnd := ht.snd
    simp only [hu₁, hu₂, Nat.add_sub_cancel] at hfst hsnd
    exact h₂.wrote h hlb hb ht.wf (hlru ▸ ht.perm) (ht.log.trans hlogu) (ht.writes.trans hwu)
      (ht.disk.trans hdu) hfst hsnd le_rfl (by omega)
      (fun j hj₁ hj₂ => (ht.other j hj₁ hj₂).trans (hou j hj₁ hj₂)) (.inr ⟨rfl, rfl⟩)
  cases recovering
  · simp only [Bool.false_eq_true, if_false, bunpin, wp_modify]
    refine key _ (hwf.set i₂ (f := fun x => { x with refcnt := x.refcnt - 1 }) rfl rfl) h₂.lru
      h₂.log ?_ ?_ ?_ ⟨(s.cache.buf i₂).refcnt, ?_, Nat.le_succ _⟩ fun j hj₁ hj₂ => ?_
    · simp [hb₁, hb₂, h₂.writes]
    · simp [hb₁, hb₂, h₂.disk]
    · simp [Bcache.bunpin, Bcache.set_buf_of_ne _ _ hne]
    · simp [Bcache.bunpin, hb₁, hb₂]
    · simp only [Bcache.bunpin]
      rw [Bcache.set_buf_of_ne _ _ hj₂, hou j hj₁ hj₂]
  · simp only [if_true, wp_pure]
    refine key _ hwf h₂.lru h₂.log ?_ ?_ ?_ ⟨(s.cache.buf i₂).refcnt + 1, ?_, le_rfl⟩ hou
    · simp [hb₁, hb₂, h₂.writes]
    · simp [hb₁, hb₂, h₂.disk]
    · simp [Bcache.set_buf_of_ne _ _ hne]
    · simp [hb₁, hb₂]

/-- `write_head` writes the header in memory over the one on the disk. -/
theorem wp_writeHead (h : Calm s) :
    wp writeHead (fun _ t => Wrote s [(s.log.start, s.log.lh.store (s.disk s.log.start))] t)
      (fun _ t => t.writes = s.writes ∧ Full s) s := by
  have hlb := inLog_start s.log.start
  rw [writeHead, wp_bind, wp_get, wp_bind]
  refine (wp_bread h.wf h.free).mono (fun i s₁ h₁ => ?_) (fun e t ht => ?_)
  swap
  · obtain ⟨rfl, -, hr⟩ := ht
    exact ⟨rfl, hr⟩
  have hd := h.bread_log h₁ hlb
  obtain ⟨d, hb, hor⟩ := h₁.got
  obtain rfl : d = s.disk s.log.start := by simpa [hb] using hd
  have hi : i ∈ s₁.cache.lru := h₁.lru ▸ h₁.mem
  have hwf := h₁.wf.set i (f := fun x => { x with data := s₁.log.lh.store x.data }) rfl rfl
  rw [wp_bind, wp_modify, wp_bind, wp_bwrite (by simp [hb]), wp_brelse (by simp [hb])]
  simp only [Bcache.set_buf_self, hb, h₁.log, h₁.disk, h₁.writes]
  rw [h₁.log] at hwf
  have hself := Bcache.release_buf_self
    (c := s₁.cache.set i fun x => { x with data := s.log.lh.store x.data }) i
  rw [Bcache.set_buf_self, hb] at hself
  refine h.wrote (fun j => j = i) (hwf.release (i := i) hi)
    ((Bcache.lru_brelse_perm (by exact hi)).trans (.of_eq h₁.lru)) rfl rfl rfl
    (fun j hj => ?_) ?_ ?_ ?_ ?_ ?_
  · dsimp only
    rw [Bcache.release_buf_of_ne hj, Bcache.set_buf_of_ne _ _ hj, h₁.other j hj]
  · rintro j rfl
    rw [hself]
  · rintro j rfl
    rw [hself]
    exact le_rfl
  · rintro j rfl b - hh
    rw [Bcache.Holds, hself] at hh
    rw [hself, ← hh.2]
    simp
  · intro w hw _
    obtain rfl := List.mem_singleton.1 hw
    refine ⟨i, (Bcache.lru_brelse_perm (by exact hi)).mem_iff.2 hi, rfl, ?_⟩
    rw [Bcache.Holds, hself]
    exact ⟨rfl, rfl⟩
  · rintro j rfl b hbl - hh hr
    exact absurd hh.2 (hor.elim (fun h' e => ne_of_inLog hbl hlb (e.symm.trans h'.1.2))
      fun h' => by omega)

/-- The rest of the header in memory does not matter to a store at rest. -/
theorem Calm.setHeader (h : Calm s) (lh : LogHeader) :
    Calm { s with log := { s.log with lh := lh } } :=
  ⟨h.wf, h.dev, h.unlocked, h.coherent⟩

/-- `read_head` loads the header from the disk. -/
theorem wp_readHead (h : Calm s) (hidle : Idle s) :
    wp readHead (fun _ t => Wrote
      { s with log := { s.log with lh := s.log.lh.load (s.disk s.log.start) } } [] t)
      (fun _ _ => False) s := by
  have hlb := inLog_start s.log.start
  rw [readHead, wp_bind, wp_get, wp_bind]
  refine (wp_bread h.wf h.free).mono (fun i s₁ h₁ => ?_) (fun e t ht => ?_)
  swap
  · obtain ⟨j, hj, -, h0⟩ := hidle.exists_unused h.wf 0
    exact ht.2.2 j hj h0
  have hd := h.bread_log h₁ hlb
  obtain ⟨d, hb, hor⟩ := h₁.got
  obtain rfl : d = s.disk s.log.start := by simpa [hb] using hd
  have hi : i ∈ s₁.cache.lru := h₁.lru ▸ h₁.mem
  rw [wp_bind, wp_modify, wp_brelse (by simp [hb])]
  have hself := Bcache.release_buf_self (c := s₁.cache) i
  rw [hb] at hself
  refine (h.setHeader _).wrote (fun j => j = i) (h₁.wf.release hi)
    ((Bcache.lru_brelse_perm (by exact hi)).trans (.of_eq h₁.lru)) ?_ ?_ h₁.disk
    (fun j hj => ?_) ?_ ?_ ?_ (fun _ hw => absurd hw List.not_mem_nil) ?_
  · simp [hb, h₁.log]
  · simp [h₁.writes]
  · dsimp only
    rw [Bcache.release_buf_of_ne hj, h₁.other j hj]
  · rintro j rfl
    rw [hself]
  · rintro j rfl
    rw [hself]
    exact le_rfl
  · rintro j rfl b - hh
    rw [Bcache.Holds, hself] at hh
    rw [hself, ← hh.2, h₁.disk]
  · rintro j rfl b hbl - hh hr
    exact absurd (hidle j h₁.mem) (Nat.ne_of_gt hr)

end Xv6
