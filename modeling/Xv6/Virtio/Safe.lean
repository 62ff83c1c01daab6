import Xv6.Lib.Queue
import Xv6.Virtio.Basic

/-!
# The request protocol of the disk

In every run (`virtio_protocol`), whatever the order in which the device completes the requests
and however often the indices wrap: the requests in flight occupy disjoint chains of three
descriptors that are not free, and every other descriptor is free, except those that
`alloc3_desc` holds; there is no panic; and the handler marks a buffer as done once for each
request, after the device has completed it.

The invariant accounts for every posted chain: it is in the ring of `avail`, picked by the
device, in the ring of `used`, or done.
-/

namespace Xv6

namespace RwPc

variable {B : Type}

/-- The descriptors that a process holds. -/
@[grind] def idx : RwPc B → List ℕ
  | .out | .sleepFree _ _ => []
  | .alloc _ _ idx => idx
  | .post _ i0 i1 i2 | .wait _ i0 i1 i2 | .asleep _ i0 i1 i2 => [i0, i1, i2]

/-- The buffer and the chain of a request in flight. -/
@[grind] def req : RwPc B → Option (B × ℕ × ℕ × ℕ)
  | .out | .alloc _ _ _ | .sleepFree _ _ => none
  | .post b i0 i1 i2 | .wait b i0 i1 i2 | .asleep b i0 i1 i2 => some (b, i0, i1, i2)

/-- The buffer and the first descriptor of a request that is posted. -/
@[grind] def posted : RwPc B → Option (B × ℕ)
  | .out | .alloc _ _ _ | .sleepFree _ _ | .post _ _ _ _ => none
  | .wait b i0 _ _ | .asleep b i0 _ _ => some (b, i0)

/-- The process holds the lock. -/
@[grind] def holds : RwPc B → Bool
  | .alloc _ _ _ | .post _ _ _ _ | .wait _ _ _ _ => true
  | .out | .sleepFree _ _ | .asleep _ _ _ _ => false

attribute [grind] buf

end RwPc

/-- How far the request of a buffer is: the device has it, or has completed it. -/
inductive Stage
  | none
  | posted
  | completed
  deriving DecidableEq

namespace Vdisk

variable {P B : Type}

/-- The descriptors of a request in flight are formatted as a chain. -/
structure Chain (desc : ℕ → Desc B) (b : B) (i0 i1 i2 : ℕ) : Prop where
  next0 : (desc i0).flags.testBit 0 = true ∧ (desc i0).next = i1
  next1 : (desc i1).flags.testBit 0 = true ∧ (desc i1).next = i2
  next2 : (desc i2).flags.testBit 0 = false
  data : (desc i1).addr = .data b
  status : (desc i2).addr = .status i0

/-- The requests in flight occupy disjoint chains of descriptors that are not free, and every
    other descriptor is free, except those held in `alloc3_desc`. -/
structure Occupied (s : Vdisk P B) : Prop where
  chain : ∀ p b i0 i1 i2, (s.pc p).req = some (b, i0, i1, i2) → Chain s.desc b i0 i1 i2
  distinct : ∀ p b i0 i1 i2, (s.pc p).req = some (b, i0, i1, i2) →
    i0 ≠ i1 ∧ i0 ≠ i2 ∧ i1 ≠ i2 ∧ i0 < vnum ∧ i1 < vnum ∧ i2 < vnum
  disjoint : ∀ p q, p ≠ q → List.Disjoint (s.pc p).idx (s.pc q).idx
  used : ∀ p, ∀ i ∈ (s.pc p).idx, s.free i = false
  free : ∀ i < vnum, (∀ p, i ∉ (s.pc p).idx) → s.free i = true

/-- The buffer that the handler finds. -/
def StepOk (H : B → Stage) (s : Vdisk P B) (a : VdiskAct P B) (_ : Vdisk P B) : Prop :=
  match a with
  | .intrBody => ∃ b, s.infoB s.usedId = some b ∧ s.disk b = true ∧ H b = .completed
  | _ => True

/-- How far the requests are after a step. -/
def stage [DecidableEq B] (s : Vdisk P B) (a : VdiskAct P B) (H : B → Stage) : B → Stage :=
  match a with
  | .post p =>
    match s.pc p with
    | .post b _ _ _ => Function.update H b .posted
    | _ => H
  | .devIdx =>
    match s.appending with
    | some h =>
      match s.dataAddr h with
      | .data b => Function.update H b .completed
      | _ => H
    | none => H
  | .intrBody =>
    match s.infoB s.usedId with
    | some b => Function.update H b .none
    | none => H
  | _ => H

/-- How often the chain is in the rings and in the device. -/
def inDev (s : Vdisk P B) (U V : List ℕ) (h : ℕ) : ℕ :=
  U.count h + s.picked.count h + s.written.count h + s.appending.toList.count h + V.count h

/-- The chain is posted, and its buffer is not done. -/
def Busy (s : Vdisk P B) (h : ℕ) : Prop :=
  ∃ p b, (s.pc p).posted = some (b, h) ∧ s.disk b = true

/-- The lock is held by the process or the handler that works under it. -/
structure Locks (lock : Option (Holder P)) (intr : IntrPc) (pc : P → RwPc B) : Prop where
  proc : ∀ p, lock = some (.proc p) ↔ (pc p).holds = true
  intr : lock = some .intr ↔ intr ≠ .idle

/-- The descriptors belong to the processes that hold them. -/
structure Descs (free : ℕ → Bool) (desc : ℕ → Desc B) (info : ℕ → Option B) (pc : P → RwPc B) :
    Prop where
  lt : ∀ p, ∀ i ∈ (pc p).idx, i < vnum
  nodup : ∀ p, (pc p).idx.Nodup
  disj : ∀ p q i, i ∈ (pc p).idx → i ∈ (pc q).idx → p = q
  used : ∀ p, ∀ i ∈ (pc p).idx, free i = false
  free : ∀ i < vnum, (∀ p, i ∉ (pc p).idx) → free i = true
  bufs : ∀ p q b, (pc p).buf = some b → (pc q).buf = some b → p = q
  chain : ∀ p b i0 i1 i2, (pc p).req = some (b, i0, i1, i2) → Chain desc b i0 i1 i2
  info : ∀ p b i0 i1 i2, (pc p).req = some (b, i0, i1, i2) → info i0 = some b

/-- The chains that are posted are in the rings or in the device until they are done; `U` is
    what the device has not picked yet, and `V` what the handler has not seen yet. -/
structure Posted (s : Vdisk P B) (H : B → Stage) (U V : List ℕ) : Prop where
  avail : Queue vnum (2 ^ 16) s.availRing s.lastAvail s.availIdx U
  used : Queue vnum (2 ^ 16) s.usedRing s.seen s.usedIdx V
  counters : s.lastAvail < 2 ^ 16 ∧ s.seen < 2 ^ 16
  once : ∀ h, s.inDev U V h ≤ 1
  busy : ∀ h, 0 < s.inDev U V h ↔ s.Busy h
  post : ∀ p b i0 i1 i2, s.pc p = .post b i0 i1 i2 →
    s.disk b = true ∧ s.availRing (s.availIdx % vnum) = i0
  status : ∀ h, h ∈ s.written ∨ s.appending = some h ∨ h ∈ V → s.infoStatus h = 0
  appended : ∀ h, s.appending = some h → s.usedRing (s.usedIdx % vnum) = h
  done : ∀ p b h, (s.pc p).posted = some (b, h) → h ∈ V → H b = .completed
  body : s.intr = .body → s.seen ≠ s.usedIdx

/-- The invariant. -/
structure Inv (s : Vdisk P B) (H : B → Stage) : Prop where
  ok : s.panic = false
  locks : Locks s.lock s.intr s.pc
  descs : Descs s.free s.desc s.infoB s.pc
  posted : ∃ U V, s.Posted H U V

variable {s t : Vdisk P B} {H : B → Stage} {U V : List ℕ} {p q : P} {b : B} {i0 i1 i2 h : ℕ}
  {lock lock' : Option (Holder P)} {intr : IntrPc} {pc : P → RwPc B} {free : ℕ → Bool}
  {desc : ℕ → Desc B} {info : ℕ → Option B} {k : RwPc B}

/-- A request that is posted is in flight. -/
theorem req_of_posted (hk : k.posted = some (b, h)) : ∃ i1 i2, k.req = some (b, h, i1, i2) := by
  cases k <;> cases hk
  · exact ⟨_, _, rfl⟩
  · exact ⟨_, _, rfl⟩

theorem idx_of_req (hk : k.req = some (b, i0, i1, i2)) : k.idx = [i0, i1, i2] := by
  cases k <;> cases hk <;> rfl

theorem buf_of_req (hk : k.req = some (b, i0, i1, i2)) : k.buf = some b := by
  cases k <;> cases hk <;> rfl

/-- One process at a time works under the lock. -/
theorem Locks.unique (hl : Locks lock intr pc) (hp : (pc p).holds = true)
    (hq : (pc q).holds = true) : p = q := by
  have h := ((hl.proc p).2 hp).symm.trans ((hl.proc q).2 hq)
  cases h
  rfl

theorem Descs.distinct (hd : Descs free desc info pc) (hreq : (pc p).req = some (b, i0, i1, i2)) :
    i0 ≠ i1 ∧ i0 ≠ i2 ∧ i1 ≠ i2 ∧ i0 < vnum ∧ i1 < vnum ∧ i2 < vnum := by
  have hidx := idx_of_req hreq
  have hnd := hd.nodup p
  have hlt := hd.lt p
  rw [hidx] at hnd hlt
  simp only [List.nodup_cons, List.mem_cons, not_or, List.not_mem_nil, not_false_eq_true,
    List.nodup_nil, and_true] at hnd
  exact ⟨hnd.1.1, hnd.1.2, hnd.2, hlt _ (by simp), hlt _ (by simp), hlt _ (by simp)⟩

theorem Inv.occupied (hi : s.Inv H) : s.Occupied :=
  ⟨hi.descs.chain, fun _ _ _ _ _ hreq => hi.descs.distinct hreq,
    fun p q hpq i hp hq => hpq (hi.descs.disj p q i hp hq), hi.descs.used, hi.descs.free⟩

section

variable [DecidableEq P]

/-! ## Steps of a process -/

/-- A process takes the lock. -/
theorem Locks.take (hl : Locks none intr pc) (hk : k.holds = true) :
    Locks (some (.proc p)) intr (Function.update pc p k) := by
  obtain ⟨h1, h2⟩ := hl
  refine ⟨fun q => ?_, by simpa using h2⟩
  rw [Function.update_apply]
  have := h1 q
  grind

/-- A process gives up the lock. -/
theorem Locks.drop (hl : Locks lock intr pc) (hp : (pc p).holds = true) (hk : k.holds = false) :
    Locks none intr (Function.update pc p k) := by
  have hlock := (hl.proc p).2 hp
  obtain ⟨h1, h2⟩ := hl
  refine ⟨fun q => ?_, by simpa [hlock] using h2⟩
  rw [Function.update_apply]
  have := h1 q
  grind

/-- A process keeps the lock. -/
theorem Locks.keep (hl : Locks lock intr pc) (hp : (pc p).holds = true) (hk : k.holds = true) :
    Locks lock intr (Function.update pc p k) := by
  refine ⟨fun q => ?_, hl.intr⟩
  rw [Function.update_apply]
  split
  · subst_vars
    rw [hl.proc, hp, hk]
  · exact hl.proc q

/-- A process keeps its descriptors. -/
theorem Descs.move (hd : Descs free desc info pc) (hidx : k.idx = (pc p).idx)
    (hreq : k.req = (pc p).req)
    (hbuf : k.buf = (pc p).buf ∨ ∀ q b, k.buf = some b → (pc q).buf ≠ some b) :
    Descs free desc info (Function.update pc p k) := by
  have hidx' : ∀ q, (Function.update pc p k q).idx = (pc q).idx := by
    intro q
    rw [Function.update_apply]
    split
    · rw [hidx, ‹q = p›]
    · rfl
  have hreq' : ∀ q, (Function.update pc p k q).req = (pc q).req := by
    intro q
    rw [Function.update_apply]
    split
    · rw [hreq, ‹q = p›]
    · rfl
  refine ⟨?_, ?_, ?_, ?_, ?_, fun q q' b => ?_, ?_, ?_⟩
  · simpa only [hidx'] using hd.lt
  · simpa only [hidx'] using hd.nodup
  · simpa only [hidx'] using hd.disj
  · simpa only [hidx'] using hd.used
  · simpa only [hidx'] using hd.free
  · have := hd.bufs q q' b
    rw [Function.update_apply, Function.update_apply]
    grind
  · simpa only [hreq'] using hd.chain
  · simpa only [hreq'] using hd.info

/-- A process with a free descriptor more. -/
theorem Descs.alloc (hd : Descs free desc info pc) {i : ℕ} (hi : i < vnum) (hf : free i = true)
    (hidx : k.idx = (pc p).idx ++ [i]) (hreq : k.req = none) (hbuf : k.buf = (pc p).buf) :
    Descs (Function.update free i false) desc info (Function.update pc p k) := by
  have hnot : ∀ q, i ∉ (pc q).idx := fun q hq => by
    have := hd.used q i hq
    rw [hf] at this
    cases this
  refine ⟨fun q j => ?_, fun q => ?_, fun q q' j => ?_, fun q j => ?_, fun j hj hq => ?_,
    fun q q' b => ?_, fun q b i0 i1 i2 => ?_, fun q b i0 i1 i2 => ?_⟩
  · have := hd.lt q j
    have := hd.lt p j
    rw [Function.update_apply]
    grind
  · have := hd.nodup q
    rw [Function.update_apply]
    split
    · subst_vars
      rw [hidx]
      exact List.nodup_append.2 ⟨this, List.nodup_singleton i, by grind⟩
    · exact this
  · have := hd.disj q q' j
    have := hd.disj p q' j
    have := hd.disj q p j
    rw [Function.update_apply, Function.update_apply]
    grind
  · have := hd.used q j
    have := hd.used p j
    rw [Function.update_apply, Function.update_apply]
    grind
  · have hp := hq p
    rw [Function.update_self, hidx] at hp
    rw [Function.update_of_ne (by grind)]
    refine hd.free j hj fun q hmem => ?_
    have hq := hq q
    rw [Function.update_apply] at hq
    grind
  · have := hd.bufs q q' b
    rw [Function.update_apply, Function.update_apply]
    grind
  · have := hd.chain q b i0 i1 i2
    rw [Function.update_apply]
    grind
  · have := hd.info q b i0 i1 i2
    rw [Function.update_apply]
    grind

/-- A process gives up its descriptors. -/
theorem Descs.free_all {free' : ℕ → Bool} {desc' : ℕ → Desc B} {info' : ℕ → Option B}
    (hd : Descs free desc info pc) (hidx : k.idx = []) (hreq : k.req = none)
    (hbuf : k.buf = (pc p).buf ∨ k.buf = none)
    (hfree : ∀ i, free' i = if i ∈ (pc p).idx then true else free i)
    (hdesc : ∀ i, i ∉ (pc p).idx → desc' i = desc i)
    (hinfo : ∀ i, i ∉ (pc p).idx → info' i = info i) :
    Descs free' desc' info' (Function.update pc p k) := by
  -- The chains of the others are elsewhere.
  have hother : ∀ q b i0 i1 i2, (Function.update pc p k q).req = some (b, i0, i1, i2) →
      (pc q).req = some (b, i0, i1, i2) ∧ ∀ i ∈ [i0, i1, i2], i ∉ (pc p).idx := by
    intro q b i0 i1 i2 h
    rw [Function.update_apply] at h
    split at h
    · rw [hreq] at h
      cases h
    · refine ⟨h, fun i hi hp => ?_⟩
      rw [← idx_of_req h] at hi
      exact absurd (hd.disj q p i hi hp) ‹_›
  refine ⟨fun q j => ?_, fun q => ?_, fun q q' j => ?_, fun q j => ?_, fun j hj hq => ?_,
    fun q q' b => ?_, fun q b i0 i1 i2 h => ?_, fun q b i0 i1 i2 h => ?_⟩
  · have := hd.lt q j
    rw [Function.update_apply]
    grind
  · have := hd.nodup q
    rw [Function.update_apply]
    split
    · rw [hidx]
      exact List.nodup_nil
    · exact this
  · have := hd.disj q q' j
    rw [Function.update_apply, Function.update_apply]
    grind
  · have := hd.used q j
    have := hd.disj p q j
    rw [Function.update_apply, hfree]
    grind
  · rw [hfree]
    split
    · rfl
    · refine hd.free j hj fun q hmem => ?_
      have hq := hq q
      rw [Function.update_apply] at hq
      grind
  · have := hd.bufs q q' b
    rw [Function.update_apply, Function.update_apply]
    grind
  · obtain ⟨hq, hnot⟩ := hother q b i0 i1 i2 h
    have hc := hd.chain q b i0 i1 i2 hq
    obtain ⟨h1, h2, h3, h4, h5⟩ := hc
    have e0 := hdesc i0 (hnot i0 (by simp))
    have e1 := hdesc i1 (hnot i1 (by simp))
    have e2 := hdesc i2 (hnot i2 (by simp))
    exact ⟨by rwa [e0], by rwa [e1], by rwa [e2], by rwa [e1], by rwa [e2]⟩
  · obtain ⟨hq, hnot⟩ := hother q b i0 i1 i2 h
    rw [hinfo i0 (hnot i0 (by simp))]
    exact hd.info q b i0 i1 i2 hq

/-- A process has formatted its descriptors. -/
theorem Descs.format (hd : Descs free desc info pc) (write : Bool)
    (hpc : pc p = .alloc b write [i0, i1, i2]) :
    Descs free (Function.update (Function.update (Function.update desc i0 ⟨.op i0, 1, i1⟩) i1
        ⟨.data b, (if write then 0 else 2) ||| 1, i2⟩) i2 ⟨.status i0, 2, 0⟩)
      (Function.update info i0 (some b)) (Function.update pc p (.post b i0 i1 i2)) := by
  have hidx : (pc p).idx = [i0, i1, i2] := by rw [hpc]; rfl
  have hidx' : ∀ q, (Function.update pc p (.post b i0 i1 i2) q).idx = (pc q).idx := by
    intro q
    rw [Function.update_apply]
    split
    · rw [‹q = p›, hidx]
      rfl
    · rfl
  have hnd := hd.nodup p
  rw [hidx] at hnd
  have hne : i0 ≠ i1 ∧ i0 ≠ i2 ∧ i1 ≠ i2 := by grind
  -- The chains of the others are elsewhere.
  have hother : ∀ q b' j0 j1 j2, q ≠ p → (pc q).req = some (b', j0, j1, j2) →
      ∀ j ∈ [j0, j1, j2], j ≠ i0 ∧ j ≠ i1 ∧ j ≠ i2 := by
    intro q b' j0 j1 j2 hq hreq j hj
    have hdisj := hd.disj q p j (by rwa [idx_of_req hreq])
    rw [hidx] at hdisj
    grind
  refine ⟨?_, ?_, ?_, ?_, ?_, fun q q' b' => ?_, fun q b' j0 j1 j2 hreq => ?_,
    fun q b' j0 j1 j2 hreq => ?_⟩
  · simpa only [hidx'] using hd.lt
  · simpa only [hidx'] using hd.nodup
  · simpa only [hidx'] using hd.disj
  · simpa only [hidx'] using hd.used
  · simpa only [hidx'] using hd.free
  · have := hd.bufs q q' b'
    have hbuf : (pc p).buf = some b := by rw [hpc]; rfl
    rw [Function.update_apply, Function.update_apply]
    grind
  · rw [Function.update_apply] at hreq
    split at hreq
    · cases hreq
      refine ⟨?_, ?_, ?_, ?_, ?_⟩
      · simp [Function.update_of_ne hne.2.1, Function.update_of_ne hne.1]
      · cases write <;> simp [Function.update_of_ne hne.2.2, Nat.testBit]
      · simp [Nat.testBit]
      · simp [Function.update_of_ne hne.2.2]
      · simp
    · have h := hother q b' j0 j1 j2 ‹_› hreq
      have heq : ∀ j ∈ [j0, j1, j2], Function.update (Function.update (Function.update desc i0
          ⟨.op i0, 1, i1⟩) i1 ⟨.data b, (if write then 0 else 2) ||| 1, i2⟩) i2 ⟨.status i0, 2, 0⟩ j =
          desc j := by
        intro j hj
        obtain ⟨h0, h1, h2⟩ := h j hj
        rw [Function.update_of_ne h2, Function.update_of_ne h1, Function.update_of_ne h0]
      obtain ⟨h1, h2, h3, h4, h5⟩ := hd.chain q b' j0 j1 j2 hreq
      have e0 := heq j0 (by simp)
      have e1 := heq j1 (by simp)
      have e2 := heq j2 (by simp)
      exact ⟨by rwa [e0], by rwa [e1], by rwa [e2], by rwa [e1], by rwa [e2]⟩
  · rw [Function.update_apply] at hreq
    split at hreq
    · cases hreq
      exact Function.update_self ..
    · rw [Function.update_of_ne (hother q b' j0 j1 j2 ‹_› hreq j0 (by simp)).1]
      exact hd.info q b' j0 j1 j2 hreq

end

/-- Freeing descriptors that are not free. -/
theorem freeAll_eq {l : List ℕ} (hl : l.Nodup) (hlt : ∀ i ∈ l, i < vnum)
    (hf : ∀ i ∈ l, s.free i = false) :
    ∃ free' desc', s.freeAll l = some { s with desc := desc', free := free' } ∧
      (∀ i, free' i = if i ∈ l then true else s.free i) ∧ ∀ i, i ∉ l → desc' i = s.desc i := by
  induction l generalizing s with
  | nil => exact ⟨s.free, s.desc, rfl, by simp, fun _ _ => rfl⟩
  | cons i l ih =>
    rw [List.nodup_cons] at hl
    have hi : s.freeDesc i = some { s with
        desc := Function.update s.desc i ⟨.null, 0, 0⟩
        free := Function.update s.free i true } := by
      rw [freeDesc, if_neg (Nat.not_le.2 (hlt i (by simp))), if_neg (by simp [hf i])]
    obtain ⟨free', desc', heq, hfree, hdesc⟩ := ih (s := { s with
        desc := Function.update s.desc i ⟨.null, 0, 0⟩
        free := Function.update s.free i true }) hl.2 (fun j hj => hlt j (by simp [hj])) (by
      intro j hj
      dsimp only
      rw [Function.update_of_ne (by grind)]
      exact hf j (by simp [hj]))
    refine ⟨free', desc', ?_, fun j => ?_, fun j hj => ?_⟩
    · rw [freeAll, hi]
      exact heq
    · rw [hfree]
      dsimp only
      rw [Function.update_apply]
      grind
    · rw [List.mem_cons, not_or] at hj
      rw [hdesc j hj.2]
      exact Function.update_of_ne hj.1 _ _

theorem desc_freeDesc {i j : ℕ} (h : s.freeDesc i = some t) (hj : j ≠ i) : t.desc j = s.desc j := by
  unfold freeDesc at h
  split at h
  · cases h
  split at h
  · cases h
  cases h
  exact Function.update_of_ne hj _ _

/-- Freeing a chain frees its descriptors. -/
theorem freeChain_eq (hc : Chain s.desc b i0 i1 i2) (hne : i0 ≠ i1 ∧ i0 ≠ i2 ∧ i1 ≠ i2)
    (n : ℕ) : s.freeChain (n + 3) i0 = s.freeAll [i0, i1, i2] := by
  rw [freeChain, freeAll]
  cases h0 : s.freeDesc i0 with
  | none => rfl
  | some t =>
    have ht1 := desc_freeDesc h0 hne.1.symm
    have ht2 := desc_freeDesc h0 hne.2.1.symm
    dsimp only
    rw [if_pos hc.next0.1, hc.next0.2, freeChain, freeAll]
    cases h1 : t.freeDesc i1 with
    | none => rfl
    | some u =>
      have hu2 := desc_freeDesc h1 hne.2.2.symm
      dsimp only
      rw [ht1, if_pos hc.next1.1, hc.next1.2, freeChain, freeAll]
      cases h2 : u.freeDesc i2 with
      | none => rfl
      | some v =>
        dsimp only
        rw [hu2, ht2, if_neg (by simp [hc.next2])]
        rfl

/-! ## The chains that are posted -/

section

variable [DecidableEq P]

/-- A process goes on with the same request, or gives up one that is done. -/
theorem Posted.move (hp : s.Posted H U V)
    (hk : k.posted = (s.pc p).posted ∨
      k.posted = none ∧ ∀ b h, (s.pc p).posted = some (b, h) → s.disk b = false)
    (hpost : ∀ b i0 i1 i2, k ≠ .post b i0 i1 i2) (l : Option (Holder P)) (free' : ℕ → Bool)
    (desc' : ℕ → Desc B) (info' : ℕ → Option B) :
    Posted { s with
      pc := Function.update s.pc p k, lock := l, free := free', desc := desc', infoB := info' }
      H U V := by
  have hsub : ∀ q b h, (Function.update s.pc p k q).posted = some (b, h) →
      (s.pc q).posted = some (b, h) := by
    intro q b h
    rw [Function.update_apply]
    grind
  have hsup : ∀ q b h, (s.pc q).posted = some (b, h) → s.disk b = true →
      (Function.update s.pc p k q).posted = some (b, h) := by
    intro q b h
    rw [Function.update_apply]
    grind
  refine ⟨hp.avail, hp.used, hp.counters, hp.once, fun h => ?_, fun q b i0 i1 i2 hq => ?_, hp.status,
    hp.appended, fun q b h hq => hp.done q b h (hsub q b h hq), hp.body⟩
  · refine (hp.busy h).trans ⟨?_, ?_⟩
    · rintro ⟨q, b, hq, hb⟩
      exact ⟨q, b, hsup q b h hq hb, hb⟩
    · rintro ⟨q, b, hq, hb⟩
      exact ⟨q, b, hsub q b h hq, hb⟩
  · change Function.update s.pc p k q = _ at hq
    rw [Function.update_apply] at hq
    split at hq
    · exact absurd hq (hpost b i0 i1 i2)
    · exact hp.post q b i0 i1 i2 hq

end

/-- A chain in the rings or in the device is a request in flight. -/
theorem Posted.exists_req (hp : s.Posted H U V) (hh : 0 < s.inDev U V h) :
    ∃ p b i1 i2, (s.pc p).req = some (b, h, i1, i2) ∧ (s.pc p).posted = some (b, h) ∧
      s.disk b = true ∧ h ∈ (s.pc p).idx := by
  obtain ⟨p, b, hpo, hb⟩ := (hp.busy h).1 hh
  obtain ⟨i1, i2, hreq⟩ := req_of_posted hpo
  exact ⟨p, b, i1, i2, hreq, hpo, hb, by simp [idx_of_req hreq]⟩

theorem Posted.lt (hp : s.Posted H U V) (hd : Descs s.free s.desc s.infoB s.pc)
    (hh : 0 < s.inDev U V h) : h < vnum := by
  obtain ⟨p, -, -, -, -, -, -, hmem⟩ := hp.exists_req hh
  exact hd.lt p h hmem

theorem length_lt_vnum {l : List ℕ} (hnd : ∀ i, l.count i ≤ 1) (hlt : ∀ i ∈ l, i < vnum)
    (hi : h < vnum) (hl : h ∉ l) : l.length < vnum := by
  have hnd' : (h :: l).Nodup := List.nodup_cons.2 ⟨hl, List.nodup_iff_count_le_one.2 hnd⟩
  have hsub : h :: l ⊆ List.range vnum := by
    intro i hmem
    rw [List.mem_range]
    rcases List.mem_cons.1 hmem with rfl | hmem
    · exact hi
    · exact hlt i hmem
  simpa using (hnd'.subperm hsub).length_le

theorem length_le_vnum {l : List ℕ} (hnd : ∀ i, l.count i ≤ 1) (hlt : ∀ i ∈ l, i < vnum) :
    l.length ≤ vnum := by
  have hsub : l ⊆ List.range vnum := fun i hi => List.mem_range.2 (hlt i hi)
  simpa using ((List.nodup_iff_count_le_one.2 hnd).subperm hsub).length_le

theorem count_le_inDev : U.count h ≤ s.inDev U V h ∧ V.count h ≤ s.inDev U V h ∧
    s.picked.count h ≤ s.inDev U V h ∧ s.written.count h ≤ s.inDev U V h := by
  unfold inDev
  omega

theorem Posted.length_le (hp : s.Posted H U V) (hd : Descs s.free s.desc s.infoB s.pc) :
    U.length ≤ vnum ∧ V.length ≤ vnum := by
  have hpos : ∀ {l : List ℕ} {i : ℕ}, i ∈ l → 0 < l.count i := List.count_pos_iff.2
  refine ⟨length_le_vnum (fun i => ?_) fun i hi => ?_, length_le_vnum (fun i => ?_) fun i hi => ?_⟩
  · exact (count_le_inDev (s := s) (U := U) (V := V)).1.trans (hp.once i)
  · exact hp.lt hd ((hpos hi).trans_le (count_le_inDev (s := s) (U := U) (V := V)).1)
  · exact (count_le_inDev (s := s) (U := U) (V := V)).2.1.trans (hp.once i)
  · exact hp.lt hd ((hpos hi).trans_le (count_le_inDev (s := s) (U := U) (V := V)).2.1)

theorem inDev_pos (hh : h ∈ s.written ∨ s.appending = some h ∨ h ∈ V) : 0 < s.inDev U V h := by
  unfold inDev
  rcases hh with hh | hh | hh
  · have := List.count_pos_iff.2 hh
    omega
  · rw [hh]
    simp
  · have := List.count_pos_iff.2 hh
    omega

/-- The chain of a process that has not posted it is nowhere. -/
theorem Posted.inDev_eq_zero (hp : s.Posted H U V) (hd : Descs s.free s.desc s.infoB s.pc)
    (hmem : h ∈ (s.pc p).idx) (hpo : (s.pc p).posted = none) : s.inDev U V h = 0 := by
  refine Nat.eq_zero_of_not_pos fun hpos => ?_
  obtain ⟨q, b, i1, i2, -, hq, -, hmem'⟩ := hp.exists_req hpos
  rw [hd.disj p q h hmem hmem', hq] at hpo
  cases hpo

section

variable [DecidableEq P] [DecidableEq B]

/-- A process stores its chain in the ring. -/
theorem Posted.format (hp : s.Posted H U V) (hl : Locks s.lock s.intr s.pc)
    (hd : Descs s.free s.desc s.infoB s.pc) (write : Bool)
    (hpc : s.pc p = .alloc b write [i0, i1, i2]) : Posted (s.format p b write i0 i1 i2) H U V := by
  have hmem : i0 ∈ (s.pc p).idx := by rw [hpc]; simp [RwPc.idx]
  have h0 := hp.inDev_eq_zero hd hmem (by rw [hpc]; rfl)
  have hU : i0 ∉ U := fun hi => by
    have := List.count_pos_iff.2 hi
    have := (count_le_inDev (s := s) (U := U) (V := V) (h := i0)).1
    omega
  have hlen : U.length < vnum := by
    refine length_lt_vnum (fun i => ?_) (fun i hi => ?_) (hd.lt p i0 hmem) hU
    · exact (count_le_inDev (s := s) (U := U) (V := V)).1.trans (hp.once i)
    · exact hp.lt hd ((List.count_pos_iff.2 hi).trans_le
        (count_le_inDev (s := s) (U := U) (V := V)).1)
  have hbuf : (s.pc p).buf = some b := by rw [hpc]; rfl
  have hposted : ∀ q b' h, ((s.format p b write i0 i1 i2).pc q).posted = some (b', h) ↔
      (s.pc q).posted = some (b', h) := by
    intro q b' h
    change (Function.update s.pc p (.post b i0 i1 i2) q).posted = _ ↔ _
    rw [Function.update_apply]
    split
    · rw [‹q = p›, hpc]
      rfl
    · rfl
  -- The buffers of the requests that are posted are other ones.
  have hdisk : ∀ q b' h, (s.pc q).posted = some (b', h) →
      (s.format p b write i0 i1 i2).disk b' = s.disk b' := by
    intro q b' h hq
    refine Function.update_of_ne ?_ _ _
    rintro rfl
    obtain ⟨j1, j2, hreq⟩ := req_of_posted hq
    rw [hd.bufs q p b' (buf_of_req hreq) hbuf, hpc] at hq
    cases hq
  refine ⟨hp.avail.store (by norm_num) hlen, hp.used, hp.counters, hp.once, fun h => ?_,
    fun q b' j0 j1 j2 hq => ?_, fun h hh => ?_, hp.appended, fun q b' h hq => ?_, hp.body⟩
  · refine (hp.busy h).trans (exists_congr fun q => exists_congr fun b' => ?_)
    rw [hposted]
    exact and_congr_right fun hq => by rw [hdisk q b' h hq]
  · change Function.update s.pc p (.post b i0 i1 i2) q = _ at hq
    rw [Function.update_apply] at hq
    split at hq
    · cases hq
      exact ⟨Function.update_self .., Function.update_self ..⟩
    · exact absurd (hl.unique (p := q) (q := p) (by rw [hq]; rfl) (by rw [hpc]; rfl)) ‹_›
  · change Function.update s.infoStatus i0 0xff h = 0
    rw [Function.update_of_ne]
    · exact hp.status h hh
    · rintro rfl
      have := inDev_pos (s := s) (U := U) hh
      omega
  · exact hp.done q b' h ((hposted q b' h).1 hq)

/-- A process posts its chain. -/
theorem Posted.submit (hp : s.Posted H U V) (hl : Locks s.lock s.intr s.pc)
    (hd : Descs s.free s.desc s.infoB s.pc) (hpc : s.pc p = .post b i0 i1 i2) :
    Posted { s.goto p (.wait b i0 i1 i2) with availIdx := (s.availIdx + 1) % 2 ^ 16 }
      (Function.update H b .posted) (U ++ [i0]) V := by
  have hmem : i0 ∈ (s.pc p).idx := by rw [hpc]; simp [RwPc.idx]
  have h0 := hp.inDev_eq_zero hd hmem (by rw [hpc]; rfl)
  obtain ⟨hb, hring⟩ := hp.post p b i0 i1 i2 hpc
  have hbuf : (s.pc p).buf = some b := by rw [hpc]; rfl
  -- The chain of `i0` is the only one that becomes posted.
  have hposted : ∀ q b' h, (Function.update s.pc p (.wait b i0 i1 i2) q).posted = some (b', h) ↔
      (q = p ∧ b' = b ∧ h = i0) ∨ (s.pc q).posted = some (b', h) := by
    intro q b' h
    rw [Function.update_apply]
    split
    · subst_vars
      rw [hpc]
      simp [RwPc.posted, eq_comm]
    · simp [*]
  -- The device has it once more.
  have hin : ∀ h, inDev { s.goto p (.wait b i0 i1 i2) with
      availIdx := (s.availIdx + 1) % 2 ^ 16 } (U ++ [i0]) V h =
      s.inDev U V h + if h = i0 then 1 else 0 := by
    intro h
    change (U ++ [i0]).count h + s.picked.count h + s.written.count h +
      s.appending.toList.count h + V.count h = _
    unfold inDev
    rw [List.count_append, List.count_singleton]
    simp only [beq_iff_eq, eq_comm (a := i0)]
    omega
  refine ⟨hp.avail.push (by norm_num) hring, hp.used, hp.counters, fun h => ?_, fun h => ?_,
    fun q b' j0 j1 j2 hq => ?_, hp.status, hp.appended, fun q b' h hq hV => ?_, hp.body⟩
  · rw [hin]
    have := hp.once h
    split
    · subst_vars
      omega
    · exact this
  · rw [hin]
    by_cases hh : h = i0
    · subst hh
      simp only [if_pos, Nat.zero_lt_succ, true_iff]
      exact ⟨p, b, (hposted p b h).2 (.inl ⟨rfl, rfl, rfl⟩), hb⟩
    · rw [if_neg hh, Nat.add_zero, hp.busy]
      refine exists_congr fun q => exists_congr fun b' => and_congr_left fun _ => ?_
      refine Iff.trans ?_ (hposted q b' h).symm
      simp [hh]
  · -- No other process is about to post, since `p` has the lock.
    change Function.update s.pc p (.wait b i0 i1 i2) q = _ at hq
    rw [Function.update_apply] at hq
    split at hq
    · cases hq
    · exact absurd (hl.unique (p := q) (q := p) (by rw [hq]; rfl) (by rw [hpc]; rfl)) ‹_›
  · rcases (hposted q b' h).1 hq with ⟨-, -, rfl⟩ | hq'
    · have := inDev_pos (s := s) (U := U) (.inr (.inr hV))
      omega
    · rw [Function.update_of_ne]
      · exact hp.done q b' h hq' hV
      · rintro rfl
        obtain ⟨j1, j2, hreq⟩ := req_of_posted hq'
        rw [hd.bufs q p b' (buf_of_req hreq) hbuf, hpc] at hq'
        cases hq'

end

/-! ## Steps of the device -/

/-- The device picks a chain. -/
theorem Posted.pick (hp : s.Posted H U V) (hd : Descs s.free s.desc s.infoB s.pc)
    (hne : s.lastAvail ≠ s.availIdx) :
    ∃ U', Posted { s with
      picked := s.availRing (s.lastAvail % vnum) :: s.picked
      lastAvail := (s.lastAvail + 1) % 2 ^ 16 } H U' V := by
  have hlen := (hp.length_le hd).1
  rcases U with _ | ⟨h, U⟩
  · exact absurd ((hp.avail.eq_nil_iff hp.counters.1 (by norm_num)).2 rfl) hne
  obtain ⟨hring, hq⟩ := hp.avail.pop (by norm_num)
  have hin : ∀ h', inDev { s with
      picked := s.availRing (s.lastAvail % vnum) :: s.picked
      lastAvail := (s.lastAvail + 1) % 2 ^ 16 } U V h' = s.inDev (h :: U) V h' := by
    intro h'
    simp only [inDev, hring, List.count_cons]
    omega
  refine ⟨U, hq, hp.used, ⟨Nat.mod_lt _ (by norm_num), hp.counters.2⟩, fun h' => ?_, fun h' => ?_,
    hp.post, hp.status, hp.appended, hp.done, hp.body⟩
  · rw [hin]
    exact hp.once h'
  · rw [hin]
    exact hp.busy h'

/-- The device writes the status of a chain that it has picked. -/
theorem Posted.writeStatus (hp : s.Posted H U V) (hd : Descs s.free s.desc s.infoB s.pc)
    (hh : h ∈ s.picked) : Posted { s.writeStatus h with
      picked := s.picked.erase h
      written := h :: s.written } H U V := by
  have hpos : 0 < s.inDev U V h :=
    (List.count_pos_iff.2 hh).trans_le (count_le_inDev (s := s) (U := U) (V := V)).2.2.1
  obtain ⟨p, b, i1, i2, hreq, -⟩ := hp.exists_req hpos
  have hc := hd.chain p b h i1 i2 hreq
  have haddr : s.statusAddr h = .status h := by
    rw [statusAddr, hc.next0.2, hc.next1.2, hc.status]
  have hin : ∀ h', inDev { s with
      infoStatus := Function.update s.infoStatus h 0
      picked := s.picked.erase h
      written := h :: s.written } U V h' = s.inDev U V h' := by
    intro h'
    have := List.count_pos_iff.2 hh
    simp only [inDev, List.count_cons, List.count_erase, beq_iff_eq]
    split
    · subst_vars
      omega
    · omega
  rw [Vdisk.writeStatus, haddr]
  refine ⟨hp.avail, hp.used, hp.counters, fun h' => ?_, fun h' => ?_, hp.post, fun h' hh' => ?_,
    hp.appended, hp.done, hp.body⟩
  · rw [hin]
    exact hp.once h'
  · rw [hin]
    exact hp.busy h'
  · change Function.update s.infoStatus h 0 h' = 0
    by_cases heq : h' = h
    · rw [heq, Function.update_self]
    · rw [Function.update_of_ne heq]
      refine hp.status h' ?_
      rcases hh' with hh' | hh'
      · exact .inl ((List.mem_cons.1 hh').resolve_left heq)
      · exact .inr hh'

/-- The device stores a chain in the ring of `used`. -/
theorem Posted.store (hp : s.Posted H U V) (hd : Descs s.free s.desc s.infoB s.pc)
    (hh : h ∈ s.written) (ha : s.appending = none) : Posted { s with
      written := s.written.erase h
      usedRing := Function.update s.usedRing (s.usedIdx % vnum) h
      appending := some h } H U V := by
  have hcount := List.count_pos_iff.2 hh
  have hpos : 0 < s.inDev U V h := inDev_pos (.inl hh)
  have hV : h ∉ V := fun hV => by
    have h1 := List.count_pos_iff.2 hV
    have h2 := hp.once h
    unfold inDev at h2
    omega
  have hlen : V.length < vnum := by
    refine length_lt_vnum (fun i => ?_) (fun i hi => ?_) (hp.lt hd hpos) hV
    · exact (count_le_inDev (s := s) (U := U) (V := V)).2.1.trans (hp.once i)
    · exact hp.lt hd (inDev_pos (.inr (.inr hi)))
  have hin : ∀ h', inDev { s with
      written := s.written.erase h
      usedRing := Function.update s.usedRing (s.usedIdx % vnum) h
      appending := some h } U V h' = s.inDev U V h' := by
    intro h'
    simp only [inDev, ha, List.count_erase, Option.toList_some, Option.toList_none, List.count_nil,
      List.count_singleton, beq_iff_eq]
    split
    · subst_vars
      omega
    · omega
  refine ⟨hp.avail, hp.used.store (by norm_num) hlen, hp.counters, fun h' => ?_, fun h' => ?_, hp.post,
    fun h' hh' => hp.status h' ?_, fun h' hh' => ?_, hp.done, hp.body⟩
  · rw [hin]
    exact hp.once h'
  · rw [hin]
    exact hp.busy h'
  · rcases hh' with hh' | hh' | hh'
    · exact .inl (List.mem_of_mem_erase hh')
    · cases hh'
      exact .inl hh
    · exact .inr (.inr hh')
  · cases hh'
    exact Function.update_self ..

section

variable [DecidableEq B]

/-- The device completes a request. -/
theorem Posted.complete (hp : s.Posted H U V) (hd : Descs s.free s.desc s.infoB s.pc)
    (ha : s.appending = some h) : ∃ b, s.dataAddr h = .data b ∧ Posted { s with
      usedIdx := (s.usedIdx + 1) % 2 ^ 16
      appending := none } (Function.update H b .completed) U (V ++ [h]) := by
  have hpos : 0 < s.inDev U V h := inDev_pos (.inr (.inl ha))
  obtain ⟨p, b, i1, i2, hreq, hpo, -, hmem⟩ := hp.exists_req hpos
  have hc := hd.chain p b h i1 i2 hreq
  have hq := hp.used.push (by norm_num) (hp.appended h ha)
  have hlen : V.length ≤ 8 := (hp.length_le hd).2
  have hin : ∀ h', inDev { s with
      usedIdx := (s.usedIdx + 1) % 2 ^ 16
      appending := none } U (V ++ [h]) h' = s.inDev U V h' := by
    intro h'
    simp only [inDev, ha, List.count_append, Option.toList_some, Option.toList_none, List.count_nil]
    omega
  refine ⟨b, ?_, hp.avail, hq, hp.counters, fun h' => ?_, fun h' => ?_, hp.post, fun h' hh' => ?_,
    fun h' hh' => (by cases hh'), fun q b' h' hq' hV => ?_, fun _ heq => ?_⟩
  · rw [dataAddr, hc.next0.2, hc.data]
  · rw [hin]
    exact hp.once h'
  · rw [hin]
    exact hp.busy h'
  · refine hp.status h' ?_
    rcases hh' with hh' | hh' | hh'
    · exact .inl hh'
    · cases hh'
    · rcases List.mem_append.1 hh' with hh' | hh'
      · exact .inr (.inr hh')
      · rw [List.mem_singleton.1 hh']
        exact .inr (.inl ha)
  · rw [Function.update_apply]
    split
    · rfl
    rcases List.mem_append.1 hV with hV | hV
    · exact hp.done q b' h' hq' hV
    · -- It is the request that the device has completed.
      rw [List.mem_singleton.1 hV] at hq'
      obtain ⟨j1, j2, hreq'⟩ := req_of_posted hq'
      have hqp := hd.disj q p h (by simp [idx_of_req hreq']) hmem
      rw [hqp, hpo] at hq'
      cases hq'
      exact absurd rfl ‹_›
  · have hnil := (hq.eq_nil_iff hp.counters.2 (by simp; omega)).1 heq
    exact absurd hnil (by simp)

/-- The handler finds a request that the device has completed, and marks its buffer as done. -/
theorem Posted.handle (hp : s.Posted H U V) (hd : Descs s.free s.desc s.infoB s.pc)
    (hbody : s.intr = .body) : ∃ b, s.infoB s.usedId = some b ∧ s.infoStatus s.usedId = 0 ∧
      s.disk b = true ∧ H b = .completed ∧ ∃ V', Posted { s with
        disk := Function.update s.disk b false
        seen := (s.seen + 1) % 2 ^ 16
        intr := .test } (Function.update H b .none) U V' := by
  have hne := hp.body hbody
  rcases V with _ | ⟨h, V⟩
  · exact absurd ((hp.used.eq_nil_iff hp.counters.2 (by norm_num)).2 rfl) hne
  obtain ⟨hid, hq⟩ := hp.used.pop (by norm_num)
  change s.usedId = h at hid
  have hpos : 0 < s.inDev U (h :: V) h := inDev_pos (.inr (.inr (by simp)))
  obtain ⟨p, b, i1, i2, hreq, hpo, hb, hmem⟩ := hp.exists_req hpos
  have hin : ∀ h', inDev { s with
      disk := Function.update s.disk b false
      seen := (s.seen + 1) % 2 ^ 16
      intr := .test } U V h' + (if h' = h then 1 else 0) = s.inDev U (h :: V) h' := by
    intro h'
    simp only [inDev, List.count_cons, beq_iff_eq, eq_comm (a := h)]
    omega
  -- The other requests have other buffers and other chains.
  have hother : ∀ q b' h', (s.pc q).posted = some (b', h') → (b' = b ↔ h' = h) := by
    intro q b' h' hq'
    obtain ⟨j1, j2, hreq'⟩ := req_of_posted hq'
    constructor
    · rintro rfl
      rw [hd.bufs q p b' (buf_of_req hreq') (buf_of_req hreq), hpo] at hq'
      cases hq'
      rfl
    · rintro rfl
      rw [hd.disj q p h' (by simp [idx_of_req hreq']) hmem, hpo] at hq'
      cases hq'
      rfl
  have honce := hp.once h
  have hinh := hin h
  rw [if_pos rfl] at hinh
  refine ⟨b, ?_, ?_, hb, hp.done p b h hpo (by simp), V, hp.avail, hq,
    ⟨hp.counters.1, Nat.mod_lt _ (by norm_num)⟩, fun h' => ?_, fun h' => ?_,
    fun q b' j0 j1 j2 hq' => ?_, fun h' hh' => hp.status h' ?_, hp.appended, fun q b' h' hq' hV => ?_,
    fun hintr => (by cases hintr)⟩
  · rw [hid]
    exact hd.info p b h i1 i2 hreq
  · rw [hid]
    exact hp.status h (.inr (.inr (by simp)))
  · have := hin h'
    have := hp.once h'
    omega
  · have hin' := hin h'
    by_cases hh : h' = h
    · subst hh
      refine ⟨fun hpos => by omega, ?_⟩
      rintro ⟨q, b', hq', hb'⟩
      rw [(hother q b' h' hq').2 rfl] at hb'
      change Function.update s.disk b false b = true at hb'
      rw [Function.update_self] at hb'
      cases hb'
    · rw [if_neg hh, Nat.add_zero] at hin'
      rw [hin', hp.busy]
      refine exists_congr fun q => exists_congr fun b' => and_congr_right fun hq' => ?_
      change _ ↔ Function.update s.disk b false b' = true
      rw [Function.update_of_ne fun he => hh ((hother q b' h' hq').1 he)]
  · obtain ⟨hb', hring⟩ := hp.post q b' j0 j1 j2 hq'
    refine ⟨?_, hring⟩
    change Function.update s.disk b false b' = true
    rw [Function.update_of_ne, hb']
    rintro rfl
    have hqp := hd.bufs q p b' (by rw [hq']; rfl) (buf_of_req hreq)
    rw [← hqp, hq'] at hpo
    cases hpo
  · rcases hh' with hh' | hh' | hh'
    · exact .inl hh'
    · exact .inr (.inl hh')
    · exact .inr (.inr (List.mem_cons_of_mem _ hh'))
  · rw [Function.update_of_ne]
    · exact hp.done q b' h' hq' (List.mem_cons_of_mem _ hV)
    · intro he
      rw [(hother q b' h' hq').1 he] at hV
      have := List.count_pos_iff.2 hV
      simp only [inDev, List.count_cons_self] at honce
      omega

end

/-! ## Runs -/

theorem allocDesc_eq_some {i : ℕ} (h : s.allocDesc = some i) : i < vnum ∧ s.free i = true := by
  have hmem := List.mem_of_find?_eq_some h
  have hfree := List.find?_some h
  exact ⟨List.mem_range.1 hmem, hfree⟩

theorem Initial.inv (hs : s.Initial) : s.Inv H := by
  have hidx : ∀ p, (s.pc p).idx = [] := fun p => by rw [hs.pc]; rfl
  have hreq : ∀ p, (s.pc p).req = none := fun p => by rw [hs.pc]; rfl
  have hpo : ∀ p, (s.pc p).posted = none := fun p => by rw [hs.pc]; rfl
  have hin : ∀ h, s.inDev [] [] h = 0 := fun h => by
    simp [inDev, hs.picked, hs.written, hs.appending]
  refine ⟨hs.panic, ⟨fun p => ?_, by simp [hs.lock, hs.intr]⟩, ?_, [], [], ?_⟩
  · simp [hs.lock, hs.pc, RwPc.holds]
  · refine ⟨fun p => ?_, fun p => ?_, fun p => ?_, fun p => ?_, fun i hi _ => hs.free i hi,
      fun p => ?_, fun p => ?_, fun p => ?_⟩
    · simp [hidx]
    · simp [hidx]
    · simp [hidx]
    · simp [hidx]
    · simp [hs.pc, RwPc.buf]
    · simp [hreq]
    · simp [hreq]
  · refine ⟨⟨?_, by simp⟩, ⟨?_, by simp⟩, ?_, fun h => ?_, fun h => ?_, fun p => ?_, fun h => ?_,
      fun h => ?_, fun p => ?_, fun hb => ?_⟩
    · simp [hs.lastAvail, hs.availIdx]
    · simp [hs.seen, hs.usedIdx]
    · simp [hs.seen, hs.lastAvail]
    · simp [hin]
    · simp [hin, Busy, hpo]
    · simp [hs.pc]
    · simp [hs.written, hs.appending]
    · simp [hs.appending]
    · simp [hpo]
    · rw [hs.intr] at hb
      cases hb

section

variable [DecidableEq P] [DecidableEq B] {a : VdiskAct P B}

/-- Every step preserves the invariant. -/
theorem Inv.step (hi : s.Inv H) (hs : s.exec a = some t) (hfresh : a.Fresh s) :
    t.Inv (s.stage a H) := by
  obtain ⟨hok, hl, hd, U, V, hp⟩ := hi
  cases a with
  | call p b write =>
    simp only [exec] at hs
    split at hs
    next hpc =>
      obtain ⟨hlock, hs⟩ := Option.ite_none_right_eq_some.1 hs
      cases hs
      -- No other process has a request for the buffer.
      refine ⟨hok, (hlock ▸ hl).take rfl,
        hd.move (by rw [hpc]; rfl) (by rw [hpc]; rfl) (.inr fun q b' hb' => ?_), U, V,
        hp.move (.inl (by rw [hpc]; rfl)) (by rintro _ _ _ _ ⟨⟩) _ _ _ _⟩
      cases hb'
      exact hfresh q
    next => cases hs
  | allocDesc p =>
    simp only [exec] at hs
    split at hs
    next b write idx hpc =>
      obtain ⟨-, hs⟩ := Option.ite_none_right_eq_some.1 hs
      have hholds : (s.pc p).holds = true := by rw [hpc]; rfl
      split at hs
      next i hi =>
        cases hs
        obtain ⟨hlt, hf⟩ := allocDesc_eq_some hi
        refine ⟨hok, hl.keep hholds rfl,
          hd.alloc hlt hf (by rw [hpc]; rfl) rfl (by rw [hpc]; rfl), U, V,
          hp.move (.inl (by rw [hpc]; rfl)) (by rintro _ _ _ _ ⟨⟩) _ _ _ _⟩
      next =>
        -- None is free: those that it has are given back, and it sleeps.
        cases hs
        have hidx : (s.pc p).idx = idx := by rw [hpc]; rfl
        obtain ⟨free', desc', heq, hfree, hdesc⟩ := freeAll_eq (hidx ▸ hd.nodup p)
          (hidx ▸ hd.lt p) (hidx ▸ hd.used p)
        rw [heq]
        refine ⟨hok, hl.drop hholds rfl,
          hd.free_all rfl rfl (.inl (by rw [hpc]; rfl)) (by rwa [hidx]) (by rwa [hidx])
            (fun _ _ => rfl), U, V,
          hp.move (.inl (by rw [hpc]; rfl)) (by rintro _ _ _ _ ⟨⟩) _ _ _ _⟩
    next => cases hs
  | format p =>
    simp only [exec] at hs
    split at hs
    next b write i0 i1 i2 hpc =>
      cases hs
      have hholds : (s.pc p).holds = true := by rw [hpc]; rfl
      exact ⟨hok, hl.keep hholds rfl, hd.format write hpc, U, V, hp.format hl hd write hpc⟩
    next => cases hs
  | post p =>
    simp only [exec] at hs
    split at hs
    next b i0 i1 i2 hpc =>
      cases hs
      have hholds : (s.pc p).holds = true := by rw [hpc]; rfl
      -- The request is staged, in the next entry of the available ring.
      rw [stage, hpc]
      exact ⟨hok, hl.keep hholds rfl,
        hd.move (by rw [hpc]; rfl) (by rw [hpc]; rfl) (.inl (by rw [hpc]; rfl)), _, V,
        hp.submit hl hd hpc⟩
    next => cases hs
  | test p =>
    simp only [exec] at hs
    split at hs
    next b i0 i1 i2 hpc =>
      have hholds : (s.pc p).holds = true := by rw [hpc]; rfl
      have hreq : (s.pc p).req = some (b, i0, i1, i2) := by rw [hpc]; rfl
      split at hs
      next =>
        -- The device has not completed it.
        cases hs
        exact ⟨hok, hl.drop hholds rfl,
          hd.move (by rw [hpc]; rfl) (by rw [hpc]; rfl) (.inl (by rw [hpc]; rfl)), U, V,
          hp.move (.inl (by rw [hpc]; rfl)) (by rintro _ _ _ _ ⟨⟩) _ _ _ _⟩
      next hdisk =>
        -- It has: the three descriptors are freed.
        cases hs
        have hidx := idx_of_req hreq
        have hne := hd.distinct hreq
        obtain ⟨free', desc', heq, hfree, hdesc⟩ :=
          freeAll_eq (s := { s with infoB := Function.update s.infoB i0 none })
            (hidx ▸ hd.nodup p) (hidx ▸ hd.lt p) (hidx ▸ hd.used p)
        rw [freeChain_eq (s := { s with infoB := Function.update s.infoB i0 none })
          (hd.chain p b i0 i1 i2 hreq) ⟨hne.1, hne.2.1, hne.2.2.1⟩ 6, heq]
        refine ⟨hok, hl.drop hholds rfl,
          hd.free_all rfl rfl (.inr rfl) (by rwa [hidx]) (by rwa [hidx]) (fun i hi => ?_), U, V,
          hp.move (.inr ⟨rfl, fun b' h' hb' => ?_⟩) (by rintro _ _ _ _ ⟨⟩) _ _ _ _⟩
        · refine Function.update_of_ne ?_ _ _
          rintro rfl
          exact hi (by simp [hidx])
        · rw [hpc] at hb'
          cases hb'
          exact eq_false_of_ne_true hdisk
    next => cases hs
  | wake p =>
    simp only [exec] at hs
    split at hs
    next b write hpc =>
      -- From the sleep for a descriptor, or below for the end of the request.
      obtain ⟨hlock, hs⟩ := Option.ite_none_right_eq_some.1 hs
      cases hs
      exact ⟨hok, (hlock ▸ hl).take rfl,
        hd.move (by rw [hpc]; rfl) (by rw [hpc]; rfl) (.inl (by rw [hpc]; rfl)), U, V,
        hp.move (.inl (by rw [hpc]; rfl)) (by rintro _ _ _ _ ⟨⟩) _ _ _ _⟩
    next b i0 i1 i2 hpc =>
      obtain ⟨hlock, hs⟩ := Option.ite_none_right_eq_some.1 hs
      cases hs
      exact ⟨hok, (hlock ▸ hl).take rfl,
        hd.move (by rw [hpc]; rfl) (by rw [hpc]; rfl) (.inl (by rw [hpc]; rfl)), U, V,
        hp.move (.inl (by rw [hpc]; rfl)) (by rintro _ _ _ _ ⟨⟩) _ _ _ _⟩
    next => cases hs
  | devPick =>
    obtain ⟨hne, hs⟩ := Option.ite_none_right_eq_some.1 hs
    cases hs
    obtain ⟨U', hp'⟩ := hp.pick hd hne
    exact ⟨hok, hl, hd, U', V, hp'⟩
  | devStatus h =>
    obtain ⟨hh, hs⟩ := Option.ite_none_right_eq_some.1 hs
    cases hs
    have hp' := hp.writeStatus hd hh
    unfold Vdisk.writeStatus at hp' ⊢
    split at hp'
    · exact ⟨hok, hl, hd, U, V, hp'⟩
    · exact ⟨hok, hl, hd, U, V, hp'⟩
  | devUsed h =>
    obtain ⟨⟨hh, ha⟩, hs⟩ := Option.ite_none_right_eq_some.1 hs
    cases hs
    exact ⟨hok, hl, hd, U, V, hp.store hd hh ha⟩
  | devIdx =>
    -- The device shows the entry of the used ring that it has stored.
    obtain ⟨ha, hs⟩ := Option.ite_none_right_eq_some.1 hs
    cases hs
    obtain ⟨h, ha⟩ := Option.ne_none_iff_exists'.1 ha
    obtain ⟨b, hb, hp'⟩ := hp.complete hd ha
    simp only [stage, ha, hb]
    exact ⟨hok, hl, hd, U, _, hp'⟩
  | intr =>
    obtain ⟨⟨hidle, hlock⟩, hs⟩ := Option.ite_none_right_eq_some.1 hs
    cases hs
    refine ⟨hok, ⟨fun q => ?_, by simp⟩, hd, U, V, hp.avail, hp.used, hp.counters, hp.once, hp.busy,
      hp.post, hp.status, hp.appended, hp.done, fun h => by cases h⟩
    have := hl.proc q
    simp_all
  | intrTest =>
    obtain ⟨htest, hs⟩ := Option.ite_none_right_eq_some.1 hs
    have hlock := hl.intr.2 (by rw [htest]; decide)
    split at hs
    next hne =>
      -- An entry of the used ring that was not handled.
      cases hs
      exact ⟨hok, ⟨hl.proc, by simp [hlock]⟩, hd, U, V, hp.avail, hp.used, hp.counters, hp.once,
        hp.busy, hp.post, hp.status, hp.appended, hp.done, fun _ => hne⟩
    next =>
      -- None is left, and the lock is released.
      cases hs
      refine ⟨hok, ⟨fun q => ?_, by simp⟩, hd, U, V, hp.avail, hp.used, hp.counters, hp.once, hp.busy,
        hp.post, hp.status, hp.appended, hp.done, fun h => by cases h⟩
      have := hl.proc q
      simp_all
  | intrBody =>
    obtain ⟨hbody, hs⟩ := Option.ite_none_right_eq_some.1 hs
    have hlock := hl.intr.2 (by rw [hbody]; decide)
    obtain ⟨b, hb, hst, -, -, V', hp'⟩ := hp.handle hd hbody
    -- The status is that of a success, so there is no panic.
    rw [if_neg (by simp [hst]), hb] at hs
    cases hs
    simp only [stage, hb]
    exact ⟨hok, ⟨hl.proc, by simp [hlock]⟩, hd, U, V', hp'⟩

theorem Inv.stepOk (hi : s.Inv H) (hs : s.exec a = some t) : StepOk H s a t := by
  obtain ⟨hok, hl, hd, U, V, hp⟩ := hi
  cases a with
  | intrBody =>
    obtain ⟨hbody, -⟩ := Option.ite_none_right_eq_some.1 hs
    obtain ⟨b, hb, -, hdisk, hst, -⟩ := hp.handle hd hbody
    exact ⟨b, hb, hdisk, hst⟩
  | _ => trivial

end

end Vdisk

/-- **The request protocol.** In every run of any number of processes, of the handler and of the
    device: there is no panic, the requests in flight occupy disjoint chains of descriptors, and
    every other descriptor is free, except those held in `alloc3_desc`; and whenever the handler
    marks a buffer as done, it finds a buffer whose request the device has completed since it
    was posted, and marks it once. -/
theorem virtio_protocol {P B : Type} [DecidableEq P] [DecidableEq B] {s₀ : Vdisk P B}
    {tr : List (VdiskAct P B × Vdisk P B)} (h₀ : s₀ ∈ (vdiskSystem P B).init)
    (h : (vdiskSystem P B).Run s₀ tr) :
    System.Throughout (fun s => s.panic = false ∧ s.Occupied) s₀ tr ∧
      System.StepsWith Vdisk.stage (fun _ => .none) Vdisk.StepOk s₀ tr := by
  have hall : System.Along (fun _ _ => True) s₀ tr := System.along_of_forall (fun _ _ => trivial) _ _
  refine ⟨h.throughout (Q := fun s => ∃ H, s.Inv H) ⟨fun _ => .none, Vdisk.Initial.inv h₀⟩ ?_ ?_ hall,
    (h.stepsWith_iff (R := Vdisk.Inv) (Vdisk.Initial.inv h₀) ?_ ?_ ?_).2 hall⟩
  · rintro s a t ⟨H, hi⟩ ⟨-, hs, hfresh⟩ -
    exact ⟨_, hi.step hs hfresh⟩
  · rintro s ⟨H, hi⟩
    exact ⟨hi.ok, hi.occupied⟩
  · rintro s a t H hi ⟨-, hs, hfresh⟩ -
    exact hi.step hs hfresh
  · rintro s a t H hi ⟨-, hs, -⟩ -
    exact hi.stepOk hs
  · intro s a t H _ _ hn
    exact absurd trivial hn

/-- The driver of two processes, and two buffers. -/
def idleDisk : Vdisk (Fin 2) (Fin 2) where
  desc := fun _ => ⟨.null, 0, 0⟩
  availIdx := 0
  availRing := fun _ => 0
  usedIdx := 0
  usedRing := fun _ => 0
  free := fun _ => true
  seen := 0
  infoB := fun _ => none
  infoStatus := fun _ => 0
  disk := fun _ => false
  lock := none
  pc := fun _ => .out
  intr := .idle
  lastAvail := 0
  picked := []
  written := []
  appending := none
  panic := false

theorem idleDisk_mem_init : idleDisk ∈ (vdiskSystem (Fin 2) (Fin 2)).init :=
  ⟨rfl, rfl, fun _ _ => rfl, rfl, rfl, fun _ => rfl, rfl, rfl, rfl, rfl, rfl, rfl⟩

instance decidableFresh (s : Vdisk (Fin 2) (Fin 2)) : (a : VdiskAct (Fin 2) (Fin 2)) → Decidable (a.Fresh s)
  | .call _ b _ => inferInstanceAs (Decidable (∀ q, (s.pc q).buf ≠ some b))
  | .allocDesc _ | .format _ | .post _ | .test _ | .wake _ | .devPick | .devStatus _ | .devUsed _
  | .devIdx | .intr | .intrTest | .intrBody => isTrue trivial

/-- Two requests, which the device completes in the other order. -/
theorem virtio_protocol_two : ∃ tr, (vdiskSystem (Fin 2) (Fin 2)).Run idleDisk tr ∧
    (System.last idleDisk tr).pc 1 = .out ∧ (System.last idleDisk tr).disk 0 = true ∧
    System.Throughout (fun s => s.panic = false ∧ s.Occupied) idleDisk tr ∧
      System.StepsWith Vdisk.stage (fun _ => .none) Vdisk.StepOk idleDisk tr := by
  obtain ⟨tr, hrun, hP⟩ := System.exists_run (m := vdiskSystem (Fin 2) (Fin 2))
    (fun s a t (hs : (if s.panic = false ∧ a.Fresh s then s.exec a else none) = some t) => by
      obtain ⟨⟨hp, hf⟩, hs⟩ := Option.ite_none_right_eq_some.1 hs
      exact ⟨hp, hs, hf⟩) idleDisk
    [.call 0 0 true, .allocDesc 0, .allocDesc 0, .allocDesc 0, .format 0, .post 0, .devPick, .test 0,
      .call 1 1 false, .allocDesc 1, .allocDesc 1, .allocDesc 1, .format 1, .post 1, .devPick,
      .devStatus 3, .test 1, .devUsed 3, .devIdx, .intr, .intrTest, .intrBody, .intrTest, .wake 1,
      .test 1]
    (fun tr => decide ((System.last idleDisk tr).pc 1 = .out ∧ (System.last idleDisk tr).disk 0 = true))
    (by decide)
  obtain ⟨h1, h2⟩ := of_decide_eq_true hP
  exact ⟨tr, hrun, h1, h2, virtio_protocol idleDisk_mem_init hrun⟩

end Xv6
