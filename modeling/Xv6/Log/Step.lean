import Xv6.Log.Invariant

/-!
# The steps of the log system

Every step of the log system keeps its invariant (`LogState.Inv.step`), the
contents last logged being updated by `log_write` alone (`LogState.note`).
-/

namespace Xv6

/-- The contents last logged after an action is taken in `s`: `log_write` logs the
    contents of the buffer. -/
def LogState.note (s : LogState) (L : Disk) : LogAct → Disk
  | .logWrite r => Function.update L (s.blockOf r) (s.cache.buf r.idx).data
  | _ => L

namespace LogState.Inv

variable {s s' : LogState} {L : Disk} {r : Ref}

/-! ## Buffers -/

theorem blockOf_eq (h : s.Inv L) (hr : r ∈ s.refs) : s.blockOf r = r.blockno :=
  (h.refs.mem r hr).2.2

/-- A reference that is not ready has not been modified. -/
theorem not_dirty (h : s.Inv L) (hr : r ∈ s.refs) (hp : r.phase ≠ .ready) : r.dirty = false := by
  by_contra hd
  exact hp (h.data.dirty r hr (by simpa using hd)).1

/-- Nobody modifies a buffer that another process holds. -/
theorem not_dirty_of_holding (h : s.Inv L) (hr : r ∈ s.refs) (hh : r.phase.holding = true)
    (hd : r.dirty = false) : ∀ x ∈ s.refs, x.idx = r.idx → x.dirty = false := fun x hx hxi => by
  by_contra hxd
  have hxp := (h.data.dirty x hx (by simpa using hxd)).1
  have := h.refs.holding_unique hr hx hxi hh (by rw [hxp]; rfl)
  rw [this, hd] at hxd
  exact hxd rfl

/-- Outside operations nothing is modified. -/
theorem not_dirty_of_quiet (h : s.Inv L) (hops : s.ops = []) : ∀ r ∈ s.refs, r.dirty = false :=
  fun r hr => by
    by_contra hd
    obtain ⟨-, ⟨o, ho, -⟩, -⟩ := h.data.dirty r hr (by simpa using hd)
    rw [hops] at ho
    cases ho

/-- Changing the lock or the validity of a buffer and the reference to it. -/
theorem setRef (h : s.Inv L) (hr : r ∈ s.refs) (r' : Ref) (f : Buf → Buf)
    (hidx : r'.idx = r.idx) (hblock : r'.blockno = r.blockno) (hnd : r.dirty = false)
    (hnd' : r'.dirty = false) (hd : (f (s.cache.buf r.idx)).dev = (s.cache.buf r.idx).dev)
    (hb : (f (s.cache.buf r.idx)).blockno = (s.cache.buf r.idx).blockno)
    (hc : (f (s.cache.buf r.idx)).refcnt = (s.cache.buf r.idx).refcnt)
    (hv : (s.cache.buf r.idx).valid = true →
      (f (s.cache.buf r.idx)).valid = true ∧
        (f (s.cache.buf r.idx)).data = (s.cache.buf r.idx).data)
    (hnv : (s.cache.buf r.idx).valid = false → (f (s.cache.buf r.idx)).valid = true →
      (f (s.cache.buf r.idx)).data = s.disk (s.cache.buf r.idx).blockno)
    (hready : r'.phase = .ready → (f (s.cache.buf r.idx)).valid = true)
    (hlock : (if r'.phase.holding then 1 else 0) + (if (s.cache.buf r.idx).locked then 1 else 0) =
      (if r.phase.holding then 1 else 0) + if (f (s.cache.buf r.idx)).locked then 1 else 0) :
    ({ s with cache := s.cache.set r.idx f, refs := s.setRef r r' } : LogState).Inv L := by
  obtain ⟨hi, hid, -⟩ := h.refs.mem r hr
  refine ⟨h.refs.setRef hr r' f hidx hblock hd hb hc (fun e => (hv e).1) hready hlock, ?_, h.log, ?_⟩
  · refine h.data.change h.refs.wf h.refs.dev_ne hi hid f hd hb (fun _ _ => rfl) (fun _ _ => rfl)
      (fun x hx hxd => ?_) (fun x hx hne => mem_setRef_of_ne hx hne) (fun hv' hl hall => ?_)
      (fun hv' hl => ?_) h.data.disk
    · rcases mem_setRef hx with rfl | hx
      · rw [hnd'] at hxd; cases hxd
      · exact h.data.dirty x hx hxd
    · -- All references to the buffer are clean, the replaced one too.
      have hall' : ∀ x ∈ s.refs, x.idx = r.idx → x.dirty = false := fun x hx hxi => by
        by_cases hxr : x = r
        · rw [hxr, hnd]
        · exact hall x (List.mem_cons_of_mem _ ((List.mem_erase_of_ne hxr).2 hx)) hxi
      cases hval : (s.cache.buf r.idx).valid with
      | true => rw [(hv hval).2]; exact h.data.clean _ hi hid hval hl hall'
      | false =>
        rw [hnv hval hv']
        refine h.data.disk _ hl fun hp => ?_
        rw [h.refs.valid_of_pinned hi hid hp] at hval
        cases hval
    · cases hval : (s.cache.buf r.idx).valid with
      | true => rw [(hv hval).2]; exact h.data.logbuf _ hi hid hval hl
      | false => exact hnv hval hv'
  · intro x hx
    rcases mem_setRef hx with rfl | hx
    · rw [hblock]; exact h.uint r hr
    · exact h.uint x hx

theorem bget {p b : ℕ} (h : s.Inv L) (hs : s.bget p b = .ok s') : s'.Inv L := by
  unfold LogState.bget at hs
  split at hs
  · rename_i hb
    split at hs
    · cases hs
    · rename_i i c hc
      cases hs
      refine ⟨h.refs.bget hc, h.data.bget h.refs hc, h.log, fun x hx => ?_⟩
      rcases List.mem_cons.1 hx with rfl | hx
      · exact hb.1
      · exact h.uint x hx
  · cases hs

theorem acquire (h : s.Inv L) (hs : s.acquire r = .ok s') : s'.Inv L := by
  unfold LogState.acquire at hs
  split at hs
  · rename_i hc
    obtain ⟨hr, hp, hl⟩ := hc
    cases hs
    have hnd := h.not_dirty hr (by rw [hp]; decide)
    exact h.setRef hr _ _ rfl rfl hnd hnd rfl rfl rfl (fun e => ⟨e, rfl⟩)
      (fun e e' => absurd (e.symm.trans e') (by decide)) (fun e => by cases e)
      (by simp [hp, hl, Phase.holding])
  · cases hs

theorem fill (h : s.Inv L) (hs : s.fill r = .ok s') : s'.Inv L := by
  unfold LogState.fill at hs
  split at hs
  · rename_i hc
    obtain ⟨hr, hp⟩ := hc
    cases hs
    have hnd := h.not_dirty hr (by rw [hp]; decide)
    have hl := h.refs.locked hr (by rw [hp]; rfl)
    cases hv : (s.cache.buf r.idx).valid <;>
      refine h.setRef hr _ _ rfl rfl hnd hnd ?_ ?_ ?_ ?_ ?_ ?_ ?_ <;>
        simp [hv, hp, hl, Phase.holding]
  · cases hs

theorem unlock (h : s.Inv L) (hs : s.unlock r = .ok s') : s'.Inv L := by
  unfold LogState.unlock at hs
  split at hs
  · rename_i hc
    obtain ⟨hr, hp, hnd⟩ := hc
    cases hs
    have hl := h.refs.locked hr (by rw [hp]; rfl)
    exact h.setRef hr _ _ rfl rfl hnd hnd rfl rfl rfl (fun e => ⟨e, rfl⟩)
      (fun e e' => absurd (e.symm.trans e') (by decide)) (fun e => by cases e)
      (by simp [hp, hl, Phase.holding])
  · cases hs

theorem drop (h : s.Inv L) (hs : s.drop r = .ok s') : s'.Inv L := by
  unfold LogState.drop at hs
  split at hs
  · rename_i hc
    obtain ⟨hr, hp⟩ := hc
    cases hs
    exact ⟨h.refs.brelse hr hp, h.data.brelse h.refs hr hp, h.log,
      fun x hx => h.uint x (List.mem_of_mem_erase hx)⟩
  · cases hs

theorem modify {d : Block} (h : s.Inv L) (hs : s.modify r d = .ok s') : s'.Inv L := by
  unfold LogState.modify at hs
  split at hs
  · rename_i hc
    obtain ⟨hr, hp, hop, hhome⟩ := hc
    cases hs
    obtain ⟨hi, hid, -⟩ := h.refs.mem r hr
    have hv := h.refs.ready r hr hp
    refine ⟨h.refs.setRef hr { r with dirty := true } (fun x => { x with data := d }) rfl rfl
      rfl rfl rfl id (fun _ => hv) rfl, ?_, h.log, ?_⟩
    · refine h.data.change h.refs.wf h.refs.dev_ne hi hid (fun x => { x with data := d }) rfl rfl
        (fun _ _ => rfl) (fun _ _ => rfl) (fun x hx hxd => ?_) (fun x hx hne => mem_setRef_of_ne hx hne)
        (fun _ _ hall => ?_) (fun _ hl => absurd hl hhome) h.data.disk
      · rcases mem_setRef hx with rfl | hx
        · exact ⟨hp, hop, hhome⟩
        · exact h.data.dirty x hx hxd
      · exact absurd (hall _ (List.mem_cons_self ..) rfl) (by simp)
    · intro x hx
      rcases mem_setRef hx with rfl | hx
      · exact h.uint r hr
      · exact h.uint x hx
  · cases hs

/-! ## Operations -/

/-- Outside a commit, the blocks of the transaction are pinned. -/
theorem pins_eq (hpc : s.pc = .idle) : s.pins = (List.range s.log.lh.n).map s.log.lh.block := by
  rw [pins, installed, hpc]
  rfl

theorem mem_pins (s : LogState) {b : ℕ} :
    b ∈ s.pins ↔ ∃ k, s.installed ≤ k ∧ k < s.log.lh.n ∧ s.log.lh.block k = b := by
  rw [pins, List.range_eq_range', List.drop_range', List.mem_map]
  refine exists_congr fun k => ?_
  rw [List.mem_range'_1, ← and_assoc]
  exact and_congr_left fun _ => by omega

/-- An operation is in progress only outside a commit. -/
theorem idle_of_op (h : s.Inv L) {o : Op} (ho : o ∈ s.ops) : s.pc = .idle := by
  by_contra hpc
  rw [h.log.quiet hpc] at ho
  cases ho

/-- The index at which `log_write` stops. -/
theorem logIndex_cases (s : LogState) (b : ℕ) :
    (s.logIndex b = s.log.lh.n ∧ ∀ k < s.log.lh.n, s.log.lh.block k ≠ b) ∨
      (s.logIndex b < s.log.lh.n ∧ s.log.lh.block (s.logIndex b) = b) := by
  rw [logIndex]
  cases hf : (List.range s.log.lh.n).find? fun i => s.log.lh.block i = b with
  | none => exact .inl ⟨rfl, by simpa using List.find?_eq_none.1 hf⟩
  | some i =>
    exact .inr ⟨List.mem_range.1 (List.mem_of_find?_eq_some hf), by simpa using List.find?_some hf⟩

/-- The operations in progress are of the same processes after one of them logs. -/
theorem exists_noteLogged {p b q : ℕ} :
    (∃ o ∈ s.noteLogged p b, o.pid = q) ↔ ∃ o ∈ s.ops, o.pid = q := by
  simp only [noteLogged, List.mem_map, exists_exists_and_eq_and]
  refine exists_congr fun o => and_congr_right fun _ => ?_
  split <;> rfl

theorem beginOp {p : ℕ} (h : s.Inv L) (hs : s.beginOp p = .ok s') : s'.Inv L := by
  unfold LogState.beginOp at hs
  split at hs
  · cases hs
  · rename_i hc
    cases hs
    have hidle : s.pc = .idle := by
      by_contra hpc
      exact hc (.inr (.inl (h.log.committing.2 hpc)))
    have hlog := h.log
    refine ⟨h.refs, ⟨fun r hr hd => ?_, h.data.clean, h.data.logbuf, h.data.disk⟩,
      ⟨hlog.count_le, hlog.uint, hlog.home, hlog.distinct, ?_, hlog.committing,
        fun hpc => absurd hidle hpc, ?_⟩, h.uint⟩
    · obtain ⟨hp, ⟨o, ho, e⟩, hl⟩ := h.data.dirty r hr hd
      exact ⟨hp, ⟨o, List.mem_cons_of_mem _ ho, e⟩, hl⟩
    · rw [List.length_cons, hlog.outstanding]
    · have := hlog.onDisk
      rw [hidle] at this ⊢
      exact this

/-- The blocks pinned after the block `b` is logged at the index `i`. -/
theorem mem_pins_logged (lh : LogHeader) {b i : ℕ}
    (hi : (i = lh.n ∧ ∀ k < lh.n, lh.block k ≠ b) ∨ (i < lh.n ∧ lh.block i = b)) (x : ℕ) :
    x ∈ (List.range (if i = lh.n then lh.n + 1 else lh.n)).map (Function.update lh.block i b) ↔
      x = b ∨ x ∈ (List.range lh.n).map lh.block := by
  rcases hi with ⟨rfl, -⟩ | ⟨hlt, hb⟩
  · rw [if_pos rfl, List.range_succ, List.map_append, List.mem_append, or_comm]
    refine or_congr (by simp) ?_
    have hk : ∀ k ∈ List.range lh.n, Function.update lh.block lh.n b k = lh.block k :=
      fun k hk => Function.update_of_ne (List.mem_range.1 hk).ne _ _
    rw [List.map_congr_left hk]
  · have hu : Function.update lh.block i b = lh.block := Function.update_eq_self_iff.2 hb.symm
    rw [if_neg hlt.ne, hu, iff_or_self]
    rintro rfl
    exact List.mem_map.2 ⟨i, List.mem_range.2 hlt, hb⟩

/-- The contents after a buffer is logged, and pinned or not. -/
theorem data_logWrite (h : s.Inv L) (hr : r ∈ s.refs)
    (hhome : ¬InLog s.log.start (s.blockOf r)) (f : Buf → Buf)
    (hf : f (s.cache.buf r.idx) = { s.cache.buf r.idx with
      refcnt := (f (s.cache.buf r.idx)).refcnt }) {pins' : List ℕ}
    (hpins : ∀ x, x ∈ pins' ↔ x = s.blockOf r ∨ x ∈ s.pins) :
    DataInv (s.cache.set r.idx f) s.log.dev s.log.start s.disk
      (Function.update L (s.blockOf r) (s.cache.buf r.idx).data) pins'
      (s.setRef r { r with dirty := false }) (s.noteLogged r.pid (s.blockOf r)) := by
  obtain ⟨hi, hid, -⟩ := h.refs.mem r hr
  refine h.data.change h.refs.wf h.refs.dev_ne hi hid f (by rw [hf]) (by rw [hf])
    (fun b hb => Function.update_of_ne hb _ _) (fun _ _ => rfl) (fun x hx hxd => ?_)
    (fun x hx hne => mem_setRef_of_ne hx hne) (fun _ _ _ => ?_) (fun _ hl => absurd hl hhome)
    (fun b hb hbp => ?_)
  · rcases mem_setRef hx with rfl | hx
    · cases hxd
    · rw [exists_noteLogged]
      exact h.data.dirty x hx hxd
  · rw [hf]
    exact (Function.update_self (s.blockOf r) _ L).symm
  · rw [hpins, not_or] at hbp
    rw [Function.update_of_ne hbp.1]
    exact h.data.disk b hb hbp.2

/-- The transaction after a block is logged. -/
theorem log_logWrite (h : s.Inv L) (hpc : s.pc = .idle) {b : ℕ} (hb : b < 2 ^ 32)
    (hhome : ¬InLog s.log.start b) (hn : s.log.lh.n < logBlocks) (L' : Disk) (ops' : List Op)
    (hops : ops'.length = s.ops.length) :
    LogInv { s.log with lh :=
      { n := if s.logIndex b = s.log.lh.n then s.log.lh.n + 1 else s.log.lh.n
        block := Function.update s.log.lh.block (s.logIndex b) b } } ops' s.pc s.disk L' := by
  have hlog := h.log
  have hdisk : LogHeader.countOf (s.disk s.log.start) = 0 := by
    have := hlog.onDisk
    rwa [hpc] at this
  rcases logIndex_cases s b with ⟨hi, hnew⟩ | ⟨hi, hold⟩
  · rw [if_pos hi, hi]
    -- The index of the new block is the last one.
    have hcase : ∀ k < s.log.lh.n + 1, (k = s.log.lh.n ∧
        Function.update s.log.lh.block s.log.lh.n b k = b) ∨ (k < s.log.lh.n ∧
        Function.update s.log.lh.block s.log.lh.n b k = s.log.lh.block k) := fun k hk => by
      rcases Nat.lt_succ_iff_lt_or_eq.1 hk with hk | rfl
      · exact .inr ⟨hk, Function.update_of_ne hk.ne _ _⟩
      · exact .inl ⟨rfl, Function.update_self ..⟩
    refine ⟨hn, fun k hk => ?_, fun k hk => ?_, fun j hj k hk e => ?_,
      hlog.outstanding.trans hops.symm, hlog.committing, fun hpc' => absurd hpc hpc', ?_⟩
    · rcases hcase k hk with ⟨-, e⟩ | ⟨hk, e⟩ <;> dsimp only <;> rw [e]
      exacts [hb, hlog.uint k hk]
    · rcases hcase k hk with ⟨-, e⟩ | ⟨hk, e⟩ <;> dsimp only <;> rw [e]
      exacts [hhome, hlog.home k hk]
    · dsimp only at e
      rcases hcase j hj with ⟨rfl, ej⟩ | ⟨hj, ej⟩ <;> rcases hcase k hk with ⟨rfl, ek⟩ | ⟨hk, ek⟩
      · rfl
      · rw [ej, ek] at e; exact absurd e.symm (hnew k hk)
      · rw [ej, ek] at e; exact absurd e (hnew j hj)
      · rw [ej, ek] at e; exact hlog.distinct j hj k hk e
    · rw [hpc]; exact hdisk
  · rw [if_neg hi.ne, Function.update_eq_self_iff.2 hold.symm]
    exact ⟨hlog.count_le, hlog.uint, hlog.home, hlog.distinct, hlog.outstanding.trans hops.symm,
      hlog.committing, fun hpc' => absurd hpc hpc', by rw [hpc]; exact hdisk⟩

theorem logWrite (h : s.Inv L) (hs : s.logWrite r = .ok s') :
    s'.Inv (Function.update L (s.blockOf r) (s.cache.buf r.idx).data) := by
  unfold LogState.logWrite at hs
  split at hs
  · rename_i hc
    obtain ⟨hr, hp, ⟨o, ho, ho'⟩, hhome⟩ := hc
    split at hs
    · cases hs
    rename_i hn
    split at hs
    · cases hs
    cases hs
    have hpc := h.idle_of_op ho
    have hb : s.blockOf r < 2 ^ 32 := h.blockOf_eq hr ▸ h.uint r hr
    obtain ⟨hi, hid, -⟩ := h.refs.mem r hr
    have hidx := logIndex_cases s (s.blockOf r)
    have hpins := mem_pins_logged s.log.lh hidx
    rw [← pins_eq hpc] at hpins
    have hrefs := h.refs.setRef hr { r with dirty := false } id rfl rfl rfl rfl rfl id
      (fun _ => h.refs.ready r hr hp) rfl
    rw [Bcache.set_id] at hrefs
    have huint : ∀ x ∈ s.setRef r { r with dirty := false }, x.blockno < 2 ^ 32 := fun x hx => by
      rcases mem_setRef hx with rfl | hx
      · exact h.uint r hr
      · exact h.uint x hx
    have hlog := h.log_logWrite hpc hb hhome (Nat.lt_of_not_le hn)
      (Function.update L (s.blockOf r) (s.cache.buf r.idx).data)
      (s.noteLogged r.pid (s.blockOf r)) (by simp [noteLogged])
    rcases hidx with ⟨e, hnew⟩ | ⟨hlt, hold⟩
    · -- The block is new in the log: it is pinned.
      have hnp : s.blockOf r ∉ s.pins := fun hmem => by
        rw [pins_eq hpc] at hmem
        obtain ⟨k, hk, e'⟩ := List.mem_map.1 hmem
        exact hnew k (List.mem_range.1 hk) e'
      refine ⟨?_, ?_, hlog, huint⟩ <;> dsimp only <;> rw [if_pos e, pins_eq]
      exacts [hrefs.bpin hi hid (h.refs.ready r hr hp) hnp hpins, hpc,
        h.data_logWrite hr hhome _ rfl hpins, hpc]
    · -- The block is absorbed.
      have hmem : s.blockOf r ∈ s.pins := by
        rw [pins_eq hpc]
        exact List.mem_map.2 ⟨_, List.mem_range.2 hlt, hold⟩
      have hdata := h.data_logWrite hr hhome id rfl hpins
      rw [Bcache.set_id] at hdata
      refine ⟨?_, ?_, hlog, huint⟩ <;> dsimp only <;> rw [if_neg hlt.ne, pins_eq]
      exacts [hrefs.congr_pins fun x => (hpins x).trans (or_iff_right_of_imp fun e => e ▸ hmem),
        hpc, hdata, hpc]
  · cases hs

theorem endOp {p : ℕ} (h : s.Inv L) (hs : s.endOp p = .ok s') : s'.Inv L := by
  unfold LogState.endOp at hs
  split at hs
  · cases hs
  rename_i o ho
  have hmem := List.mem_of_find?_eq_some ho
  have hpid : o.pid = p := by simpa using List.find?_some ho
  have hidle := h.idle_of_op hmem
  have hlog := h.log
  have hlen : (s.ops.erase o).length = s.log.outstanding - 1 := by
    rw [List.length_erase_of_mem hmem, hlog.outstanding]
  have hzero : LogHeader.countOf (s.disk s.log.start) = 0 := by
    have := hlog.onDisk
    rwa [hidle] at this
  split at hs
  · cases hs
  rename_i hclean
  split at hs
  · cases hs
  have hdata : DataInv s.cache s.log.dev s.log.start s.disk L s.pins s.refs (s.ops.erase o) := by
    refine ⟨fun r hr hd => ?_, h.data.clean, h.data.logbuf, h.data.disk⟩
    obtain ⟨hp, ⟨o', ho', e⟩, hl⟩ := h.data.dirty r hr hd
    -- The modified buffers are those of other operations.
    have hne : o' ≠ o := fun e' => hclean ⟨r, hr, by rw [← e, e', hpid], hd⟩
    exact ⟨hp, ⟨o', (List.mem_erase_of_ne hne).2 ho', e⟩, hl⟩
  split at hs
  · rename_i hlast
    have hnil : s.ops.erase o = [] := List.eq_nil_of_length_eq_zero (hlen.trans hlast)
    cases hs
    have hinst : (installed { s with pc := if 0 < s.log.lh.n then .writeLog 0 else .finish }) =
        s.installed := by
      rw [installed, installed, hidle]
      dsimp only
      split
      · rename_i htail
        split at htail <;> cases htail
      · rfl
    have hpins : (pins { s with pc := if 0 < s.log.lh.n then .writeLog 0 else .finish }) =
        s.pins := by
      rw [pins, pins, hinst]
    refine ⟨hpins.symm ▸ h.refs, hpins.symm ▸ hdata, ⟨hlog.count_le, hlog.uint, hlog.home,
      hlog.distinct, hlen.symm, ⟨fun _ => ?_, fun _ => rfl⟩, fun _ => hnil, ?_⟩, h.uint⟩
    · dsimp only
      split <;> exact CommitPc.noConfusion
    · dsimp only
      split
      · rename_i hn
        exact ⟨hn, Nat.zero_le _, hzero, fun k hk => absurd hk (Nat.not_lt_zero k)⟩
      · rename_i hn
        exact ⟨Nat.eq_zero_of_not_pos hn, hzero⟩
  · cases hs
    refine ⟨h.refs, hdata, ⟨hlog.count_le, hlog.uint, hlog.home, hlog.distinct, hlen.symm,
      hlog.committing, fun hpc => absurd hidle hpc, ?_⟩, h.uint⟩
    rw [hidle]
    exact hzero

/-! ## Committing -/

theorem mem_of_reads {b : ℕ} (h : s.Inv L) (hr : s.Reads r b) :
    r.idx ∈ s.cache.lru ∧ (s.cache.buf r.idx).dev = s.log.dev ∧
      (s.cache.buf r.idx).blockno = b ∧ (s.cache.buf r.idx).valid = true :=
  ⟨(h.refs.mem r hr.1).1, hr.2.2.2.1, hr.2.2.2.2, h.refs.ready r hr.1 hr.2.1⟩

/-- The contents of a home block read during a commit are those logged. -/
theorem data_of_reads {b : ℕ} (h : s.Inv L) (hpc : s.pc ≠ .idle) (hr : s.Reads r b)
    (hb : ¬InLog s.log.start b) : (s.cache.buf r.idx).data = L b := by
  obtain ⟨hi, hd, rfl, hv⟩ := h.mem_of_reads hr
  exact h.data.clean _ hi hd hv hb fun x hx _ => h.not_dirty_of_quiet (h.log.quiet hpc) x hx

/-- Writing a block of the log area. -/
theorem put_log {b : ℕ} (h : s.Inv L) (hr : s.Reads r b) (hb : InLog s.log.start b) (d : Block) :
    RefsInv (s.put r.idx d).cache s.log.dev s.pins s.refs ∧
      DataInv (s.put r.idx d).cache s.log.dev s.log.start (s.put r.idx d).disk L s.pins s.refs
        s.ops := by
  obtain ⟨hi, hd, rfl, hv⟩ := h.mem_of_reads hr
  refine ⟨h.refs.setData _ _, h.data.change h.refs.wf h.refs.dev_ne hi hd
    (fun x => { x with data := d }) rfl rfl (fun _ _ => rfl)
    (fun x hx => Function.update_of_ne hx _ _) h.data.dirty (fun x hx _ => hx)
    (fun _ hl => absurd hb hl)
    (fun _ _ => (Function.update_self (s.cache.buf r.idx).blockno d s.disk).symm)
    fun x hx hxp => ?_⟩
  exact (Function.update_of_ne (ne_of_inLog hx hb) _ _).trans (h.data.disk x hx hxp)

theorem writeLog {dst src : Ref} (h : s.Inv L) (hs : s.writeLog dst src = .ok s') : s'.Inv L := by
  unfold LogState.writeLog at hs
  split at hs
  swap
  · cases hs
  rename_i tail hpc
  split at hs
  swap
  · cases hs
  rename_i hc
  obtain ⟨ht, hdst, hsrc⟩ := hc
  cases hs
  have hlog := h.log
  have hcl := hlog.count_le
  have hin : InLog s.log.start (s.log.start + tail + 1) := inLog_succ _ (by omega)
  have hne : s.pc ≠ .idle := by rw [hpc]; exact CommitPc.noConfusion
  have hdata := h.data_of_reads hne hsrc (hlog.home tail ht)
  obtain ⟨hrefs, hput⟩ := h.put_log hdst hin (s.cache.buf src.idx).data
  have hpins : pins { s.put dst.idx (s.cache.buf src.idx).data with
      pc := .writeLog (tail + 1) } = s.pins := by
    rw [pins, pins, installed, installed, hpc]
    rfl
  refine ⟨hpins.symm ▸ hrefs, hpins.symm ▸ hput, ⟨hcl, hlog.uint, hlog.home, hlog.distinct,
    hlog.outstanding, ⟨fun _ => CommitPc.noConfusion, fun _ => hlog.committing.2 hne⟩,
    fun _ => hlog.quiet hne, ?_⟩, h.uint⟩
  have hon := hlog.onDisk
  rw [hpc] at hon
  obtain ⟨hn, -, hz, hk⟩ := hon
  have hblock := (h.mem_of_reads hdst).2.2.1
  refine ⟨hn, ht, ?_, fun k hkt => ?_⟩ <;> dsimp only [put] <;> rw [hblock]
  · rw [Function.update_of_ne (by omega)]
    exact hz
  · rcases Nat.lt_succ_iff_lt_or_eq.1 hkt with hkt | rfl
    · rw [Function.update_of_ne (by omega)]
      exact hk k hkt
    · rw [Function.update_self, hdata]

theorem writeHead (h : s.Inv L) (hs : s.writeHead r = .ok s') : s'.Inv L := by
  unfold LogState.writeHead at hs
  split at hs
  swap
  · cases hs
  rename_i hr
  have hlog := h.log
  have hcl := hlog.count_le
  obtain ⟨hrefs, hput⟩ := h.put_log hr (inLog_start _) (s.log.lh.store (s.cache.buf r.idx).data)
  have hblock := (h.mem_of_reads hr).2.2.1
  have hon := hlog.onDisk
  split at hs
  · -- The first one: the log blocks are written.
    rename_i tail hpc
    split at hs
    · cases hs
    rename_i ht
    cases hs
    have hne : s.pc ≠ .idle := by rw [hpc]; exact CommitPc.noConfusion
    have hpins : pins { s.put r.idx (s.log.lh.store (s.cache.buf r.idx).data) with
        pc := .install 0 } = s.pins := by
      rw [pins, pins, installed, installed, hpc]
      rfl
    rw [hpc] at hon
    obtain ⟨hn, hle, -, hk⟩ := hon
    obtain rfl : tail = s.log.lh.n := by omega
    refine ⟨hpins.symm ▸ hrefs, hpins.symm ▸ hput, ⟨hcl, hlog.uint, hlog.home, hlog.distinct,
      hlog.outstanding, ⟨fun _ => CommitPc.noConfusion, fun _ => hlog.committing.2 hne⟩,
      fun _ => hlog.quiet hne, Nat.zero_le _, ?_, fun k hkn => ⟨?_, ?_⟩⟩, h.uint⟩ <;>
      dsimp only [put] <;> rw [hblock]
    · rw [Function.update_self, LogHeader.countOf_store hcl]
    · rw [Function.update_self, LogHeader.blockOf_store hcl _ hkn (hlog.uint k hkn)]
    · rw [Function.update_of_ne (by omega)]
      exact hk k hkn
  · -- The second one: the log is cleared.
    rename_i hpc
    cases hs
    have hne : s.pc ≠ .idle := by rw [hpc]; exact CommitPc.noConfusion
    have hpins : pins { s.put r.idx (s.log.lh.store (s.cache.buf r.idx).data) with
        pc := .finish } = s.pins := by
      rw [pins, pins, installed, installed, hpc]
      rfl
    rw [hpc] at hon
    refine ⟨hpins.symm ▸ hrefs, hpins.symm ▸ hput, ⟨hcl, hlog.uint, hlog.home, hlog.distinct,
      hlog.outstanding, ⟨fun _ => CommitPc.noConfusion, fun _ => hlog.committing.2 hne⟩,
      fun _ => hlog.quiet hne, hon.1, ?_⟩, h.uint⟩
    dsimp only [put]
    rw [hblock, Function.update_self, LogHeader.countOf_store hcl]
    exact hon.1
  · cases hs

theorem install {src dst : Ref} (h : s.Inv L) (hs : s.install src dst = .ok s') : s'.Inv L := by
  unfold LogState.install at hs
  split at hs
  swap
  · cases hs
  rename_i tail hpc
  split at hs
  swap
  · cases hs
  rename_i hc
  obtain ⟨ht, hsrc, hdst⟩ := hc
  cases hs
  have hlog := h.log
  have hcl := hlog.count_le
  have hne : s.pc ≠ .idle := by rw [hpc]; exact CommitPc.noConfusion
  have hon := hlog.onDisk
  rw [hpc] at hon
  obtain ⟨-, hcount, hk⟩ := hon
  have hhome := hlog.home tail ht
  obtain ⟨hi, hd, hblock, hv⟩ := h.mem_of_reads hdst
  -- The log block holds the contents logged.
  have hdata : (s.cache.buf src.idx).data = L (s.log.lh.block tail) := by
    obtain ⟨hi', hd', hb', hv'⟩ := h.mem_of_reads hsrc
    rw [h.data.logbuf _ hi' hd' hv' (hb' ▸ inLog_succ _ (by omega)), hb']
    exact (hk tail ht).2
  rw [hdata]
  set t : LogState :=
    { s.put dst.idx (L (s.log.lh.block tail)) with
      cache := (s.put dst.idx (L (s.log.lh.block tail))).cache.bunpin dst.idx
      pc := .install (tail + 1) } with ht'
  have hinst : s.installed = tail := by rw [installed, hpc]
  have hnp : (s.cache.buf dst.idx).blockno ∉ t.pins := fun hmem => by
    obtain ⟨k, hkt, hkn, e⟩ := (mem_pins t).1 hmem
    have hkt' : tail + 1 ≤ k := hkt
    have := hlog.distinct k hkn tail ht (e.trans hblock)
    omega
  have hp : ∀ b, b ∈ s.pins ↔ b = (s.cache.buf dst.idx).blockno ∨ b ∈ t.pins := fun b => by
    rw [mem_pins, mem_pins, hinst, hblock]
    constructor
    · rintro ⟨k, hk₁, hk₂, rfl⟩
      rcases Nat.eq_or_lt_of_le hk₁ with rfl | hlt
      · exact .inl rfl
      · exact .inr ⟨k, hlt, hk₂, rfl⟩
    · rintro (rfl | ⟨k, hk₁, hk₂, e⟩)
      · exact ⟨tail, le_rfl, ht, rfl⟩
      · exact ⟨k, Nat.le_of_succ_le hk₁, hk₂, e⟩
  have hset : t.cache = s.cache.set dst.idx fun x =>
      { x with data := L (s.log.lh.block tail), refcnt := x.refcnt - 1 } := by
    simp [ht', put, Bcache.bunpin, Bcache.set]
  have hdisk : t.disk = Function.update s.disk (s.cache.buf dst.idx).blockno
      (L (s.log.lh.block tail)) := rfl
  have htlog : t.log = s.log := rfl
  have hlogdisk : ∀ b, InLog s.log.start b → t.disk b = s.disk b := fun b hb => by
    rw [hdisk, hblock, Function.update_of_ne (ne_of_inLog hhome hb).symm]
  refine ⟨?_, ?_, ⟨hcl, hlog.uint, hlog.home, hlog.distinct, hlog.outstanding,
    ⟨fun _ => CommitPc.noConfusion, fun _ => hlog.committing.2 hne⟩, fun _ => hlog.quiet hne, ht,
    ?_, fun k hkn => ?_⟩, h.uint⟩
  · refine (h.refs.setData dst.idx (L (s.log.lh.block tail))).bunpin hi ?_ ?_ fun b => ?_ <;>
      rw [Bcache.set_buf_self]
    exacts [hd, hnp, hp b]
  · rw [hset]
    refine h.data.change h.refs.wf h.refs.dev_ne hi hd _ rfl rfl (fun _ _ => rfl)
      (fun x hx => Function.update_of_ne hx _ _) h.data.dirty (fun x hx _ => hx)
      (fun _ _ _ => by rw [hblock]) (fun _ hl => absurd (hblock ▸ hl) hhome) fun b hb hbp => ?_
    by_cases hbd : b = (s.cache.buf dst.idx).blockno
    · rw [hdisk, hbd, Function.update_self, hblock]
    · refine (Function.update_of_ne hbd _ _).trans (h.data.disk b hb fun hmem => ?_)
      rcases (hp b).1 hmem with e | hmem
      exacts [hbd e, hbp hmem]
  · rw [htlog, hlogdisk _ (inLog_start _)]
    exact hcount
  · rw [htlog, hlogdisk _ (inLog_start _), hlogdisk _ (inLog_succ _ (hkn.trans_le hcl))]
    exact hk k hkn

/-- While a transaction is installed, the disk means what was logged. -/
theorem recovered_of_install {tail b : ℕ} (h : s.Inv L) (hpc : s.pc = .install tail)
    (hb : ¬InLog s.log.start b) : recovered s.log.start s.disk b = L b := by
  have hlog := h.log
  have hon := hlog.onDisk
  rw [hpc] at hon
  obtain ⟨-, hcount, hk⟩ := hon
  have hw : logWrites s.log.start s.disk =
      (List.range s.log.lh.n).map fun k => (s.log.lh.block k, L (s.log.lh.block k)) := by
    rw [logWrites, hcount]
    exact List.map_congr_left fun k hkn => by
      obtain ⟨e₁, e₂⟩ := hk k (List.mem_range.1 hkn)
      rw [e₁, e₂]
  rw [recovered, hw]
  by_cases hin : ∃ k < s.log.lh.n, s.log.lh.block k = b
  · obtain ⟨k, hkn, rfl⟩ := hin
    refine applyWrites_of_mem (w := (s.log.lh.block k, L (s.log.lh.block k))) ?_
      (List.mem_map.2 ⟨k, List.mem_range.2 hkn, rfl⟩)
    rw [List.map_map]
    exact List.nodup_range.map_on fun i hi j hj e =>
      hlog.distinct i (List.mem_range.1 hi) j (List.mem_range.1 hj) e
  · rw [applyWrites_of_not_mem fun w hw' e => ?_]
    · refine h.data.disk b hb fun hmem => ?_
      obtain ⟨k, -, hkn, e⟩ := (mem_pins s).1 hmem
      exact hin ⟨k, hkn, e⟩
    · obtain ⟨k, hkn, rfl⟩ := List.mem_map.1 hw'
      exact hin ⟨k, List.mem_range.1 hkn, e⟩

/-- The log on the disk is well formed. -/
theorem logWf (h : s.Inv L) : LogWf s.log.start s.disk := by
  have hlog := h.log
  have hzero : LogHeader.countOf (s.disk s.log.start) = 0 → LogWf s.log.start s.disk := fun hz =>
    ⟨hz ▸ Nat.zero_le _, fun i hi => absurd (hz ▸ hi) (Nat.not_lt_zero i)⟩
  have hon := hlog.onDisk
  cases hpc : s.pc with
  | idle => rw [hpc] at hon; exact hzero hon
  | writeLog tail => rw [hpc] at hon; exact hzero hon.2.2.1
  | install tail =>
    rw [hpc] at hon
    obtain ⟨-, hcount, hk⟩ := hon
    exact ⟨hcount ▸ hlog.count_le, fun i hi => (hk i (hcount ▸ hi)).1 ▸ hlog.home i (hcount ▸ hi)⟩
  | clear => rw [hpc] at hon; exact hon.2.1
  | finish => rw [hpc] at hon; exact hzero hon.2

theorem clear (h : s.Inv L) (hs : s.clear = .ok s') : s'.Inv L := by
  unfold LogState.clear at hs
  split at hs
  swap
  · cases hs
  rename_i tail hpc
  split at hs
  · cases hs
  rename_i ht
  cases hs
  have hlog := h.log
  have hne : s.pc ≠ .idle := by rw [hpc]; exact CommitPc.noConfusion
  -- Every block is installed: none is pinned any more.
  have hnil : ∀ b, b ∉ s.pins := fun b hmem => by
    obtain ⟨k, hk, hkn, -⟩ := (mem_pins s).1 hmem
    rw [installed, hpc] at hk
    exact ht (Nat.lt_of_le_of_lt hk hkn)
  set t : LogState :=
    { s with log := { s.log with lh := { s.log.lh with n := 0 } }, pc := .clear }
  have hnil' : ∀ b, b ∉ t.pins := fun b hmem => List.not_mem_nil hmem
  have hlt : ∀ k, ¬k < t.log.lh.n := Nat.not_lt_zero
  refine ⟨h.refs.congr_pins fun b => iff_of_false (hnil' b) (hnil b),
    ⟨h.data.dirty, h.data.clean, h.data.logbuf, fun b hb _ => h.data.disk b hb (hnil b)⟩,
    ⟨Nat.zero_le _, fun k hk => absurd hk (hlt k), fun k hk => absurd hk (hlt k),
      fun k hk => absurd hk (hlt k), hlog.outstanding,
      ⟨fun _ => CommitPc.noConfusion, fun _ => hlog.committing.2 hne⟩, fun _ => hlog.quiet hne,
      rfl, h.logWf, fun b hb => ?_⟩, h.uint⟩
  exact (h.recovered_of_install hpc hb).trans (h.data.disk b hb (hnil b)).symm

theorem finish (h : s.Inv L) (hs : s.finish = .ok s') : s'.Inv L := by
  unfold LogState.finish at hs
  split at hs
  swap
  · cases hs
  rename_i hpc
  cases hs
  have hlog := h.log
  have hne : s.pc ≠ .idle := by rw [hpc]; exact CommitPc.noConfusion
  have hon := hlog.onDisk
  rw [hpc] at hon
  have hpins : pins { s with log := { s.log with committing := false }, pc := .idle } =
      s.pins := by
    rw [pins, pins, installed, installed, hpc]
  exact ⟨hpins.symm ▸ h.refs, hpins.symm ▸ h.data,
    ⟨hlog.count_le, hlog.uint, hlog.home, hlog.distinct, hlog.outstanding,
      ⟨fun e => Bool.noConfusion e, fun e => absurd rfl e⟩, fun e => absurd rfl e, hon.2⟩, h.uint⟩

/-- Every step keeps the invariant. -/
theorem step {a : LogAct} (h : s.Inv L) (hs : s.exec a = .ok s') : s'.Inv (s.note L a) := by
  cases a with
  | bget p b => exact h.bget hs
  | acquire r => exact h.acquire hs
  | fill r => exact h.fill hs
  | modify r d => exact h.modify hs
  | unlock r => exact h.unlock hs
  | drop r => exact h.drop hs
  | beginOp p => exact h.beginOp hs
  | logWrite r => exact h.logWrite hs
  | endOp p => exact h.endOp hs
  | writeLog dst src => exact h.writeLog hs
  | writeHead r => exact h.writeHead hs
  | install src dst => exact h.install hs
  | clear => exact h.clear hs
  | finish => exact h.finish hs

end LogState.Inv

/-- The invariant holds initially, the contents last logged being those of the
    disk. -/
theorem LogState.Initial.inv {s : LogState} (h : s.Initial) : s.Inv s.disk := by
  have hpins : s.pins = [] := by simp [pins, h.count]
  have hno : ∀ r, r ∉ s.refs := by rw [h.refs]; exact fun _ => List.not_mem_nil
  have hlt : ∀ k, ¬k < s.log.lh.n := by rw [h.count]; exact Nat.not_lt_zero
  refine ⟨⟨h.wf, h.dev, fun r hr => absurd hr (hno r), fun i hi => ?_, fun i hi => ?_,
      fun r hr => absurd hr (hno r), fun b hb => ?_⟩,
    ⟨fun r hr => absurd hr (hno r), fun i hi hd hv _ _ => h.coherent i hi hd hv,
      fun i hi hd hv _ => h.coherent i hi hd hv, fun _ _ _ => rfl⟩,
    ⟨h.count ▸ Nat.zero_le _, fun k hk => absurd hk (hlt k), fun k hk => absurd hk (hlt k),
      fun k hk => absurd hk (hlt k), ?_, ?_, fun hpc => absurd h.pc hpc, ?_⟩,
    fun r hr => absurd hr (hno r)⟩
  · rw [(h.unused i hi).1, h.refs, hpins]
    simp
  · rw [(h.unused i hi).2, h.refs]
    simp
  · rw [hpins] at hb
    cases hb
  · rw [h.outstanding, h.ops]
    rfl
  · rw [h.committing, h.pc]
    simp
  · rw [h.pc]
    exact h.empty

end Xv6
