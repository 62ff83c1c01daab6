import Xv6.Fs.Ops

/-!
# Files are byte arrays

The content of a file is the list of its bytes, as many as its size. `writei` overwrites and
extends it, and stops early only if the disk is full; `readi` returns a part of it, `itrunc`
empties it, and no operation changes the content of another file; `filewrite`, which calls
`writei` chunk by chunk, overwrites it as one write would.

For this, the bitmap has to mark the blocks of the files, but it may mark others as well.
-/

namespace Xv6

/-! ## Byte arrays -/

/-- The bytes `l` with `data` at the offset `off`. -/
def overwrite (l : List UInt8) (off : ℕ) (data : List UInt8) : List UInt8 :=
  l.take off ++ data ++ l.drop (off + data.length)

section

variable {l data : List UInt8} {off : ℕ}

@[simp] theorem overwrite_nil (l : List UInt8) (off : ℕ) : overwrite l off [] = l := by
  simp [overwrite]

theorem length_overwrite (h : off ≤ l.length) :
    (overwrite l off data).length = max l.length (off + data.length) := by
  simp only [overwrite, List.length_append, List.length_take, List.length_drop]
  omega

/-- The byte `o` after an overwrite. -/
theorem getElem?_overwrite (h : off ≤ l.length) (o : ℕ) :
    (overwrite l off data)[o]? =
      if off ≤ o ∧ o < off + data.length then data[o - off]? else l[o]? := by
  have htake : (l.take off).length = off := by
    rw [List.length_take]
    omega
  unfold overwrite
  by_cases h₁ : o < off
  · rw [if_neg (by omega), List.getElem?_append_left (by rw [List.length_append]; omega),
      List.getElem?_append_left (by omega), List.getElem?_take_of_lt h₁]
  · by_cases h₂ : o < off + data.length
    · rw [if_pos (by omega), List.getElem?_append_left (by rw [List.length_append]; omega),
        List.getElem?_append_right (by omega), htake]
    · rw [if_neg (by omega), List.getElem?_append_right (by rw [List.length_append]; omega),
        List.getElem?_drop, List.length_append, htake]
      congr 1
      omega

/-- Two writes, one behind the other. -/
theorem overwrite_overwrite (h : off ≤ l.length) (data' : List UInt8) :
    overwrite (overwrite l off data) (off + data.length) data' = overwrite l off (data ++ data') := by
  apply List.ext_getElem?
  intro o
  have hlen : (overwrite l off data).length = _ := length_overwrite h
  rw [getElem?_overwrite (by omega), getElem?_overwrite h, getElem?_overwrite h,
    List.length_append]
  by_cases h₁ : off ≤ o
  · by_cases h₂ : o < off + data.length
    · rw [if_neg (by omega), if_pos ⟨h₁, h₂⟩, if_pos (by omega),
        List.getElem?_append_left (by omega)]
    · by_cases h₃ : o < off + data.length + data'.length
      · rw [if_pos (by omega), if_pos (by omega), List.getElem?_append_right (by omega)]
        congr 1
        omega
      · rw [if_neg (by omega), if_neg (by omega), if_neg (by omega)]
  · rw [if_neg (by omega), if_neg (by omega), if_neg (by omega)]

end

namespace Fs

/-- The content of the file of the inode `i`. -/
def content (sb : Superblock) (s : Fs) (i : ℕ) : List UInt8 :=
  (List.range (Disk.dinode sb s.disk i).size).map (s.byteAt sb i)

variable {sb : Superblock} {s t u : Fs} {ip : Fin ninode} {i j off n tot : ℕ} {lost : Set ℕ}
  {E : FsPanic → Fs → Prop} {src : ℕ → UInt8} {c c' : List UInt8}

@[simp] theorem length_content (sb : Superblock) (s : Fs) (i : ℕ) :
    (s.content sb i).length = (Disk.dinode sb s.disk i).size := by
  simp [content]

theorem content_congr (hd : t.disk = s.disk) : t.content sb = s.content sb := by
  funext i
  rw [content, content, hd]
  apply List.map_congr_left
  intro o _
  rw [byteAt, stores_congr hd, hd, byteAt]

/-- The files of other inodes. -/
theorem Others.content (ho : Others sb i s t) (hno : s.NoHoles sb)
    (hj : Alloced sb (Disk.dinode sb s.disk) j) (hji : j ≠ i) : t.content sb j = s.content sb j := by
  rw [Fs.content, Fs.content, ho.dinode j hj.1 hji]
  apply List.map_congr_left
  intro o ho'
  rw [List.mem_range] at ho'
  refine ho.data j o hji (hno j hj.1 hj.2 _ (lt_ceil_iff.2 ?_))
  exact (Nat.div_mul_le_self o bsize).trans_lt ho'

/-- One file was changed, to the content `c`. -/
structure Updates (sb : Superblock) (lost : Set ℕ) (ip : Fin ninode) (c : List UInt8) (s t : Fs) :
    Prop where
  ok : t.Ok sb lost
  noHoles : t.NoHoles sb
  inum : (t.inode ip).inum = (s.inode ip).inum
  others : Others sb (s.inode ip).inum s t
  content : t.content sb (s.inode ip).inum = c

theorem Updates.of_disk (h : t.Ok sb lost) (hno : s.NoHoles sb) (hd : t.disk = s.disk)
    (hinum : (t.inode ip).inum = (s.inode ip).inum) :
    Updates sb lost ip (s.content sb (s.inode ip).inum) s t :=
  ⟨h, hno.of_disk hd, hinum, .of_disk hd, by rw [content_congr hd]⟩

theorem Updates.trans (h : Updates sb lost ip c s t) (h' : Updates sb lost ip c' t u) :
    Updates sb lost ip c' s u := by
  refine ⟨h'.ok, h'.noHoles, h'.inum.trans h.inum, h.others.trans ?_, ?_⟩
  · rw [← h.inum]
    exact h'.others
  · rw [← h.inum]
    exact h'.content

/-- The size of the file that is in memory. -/
theorem Ok.length_content (h : s.Ok sb lost) (hc : s.Cached ip) :
    (s.content sb (s.inode ip).inum).length = (s.inode ip).d.size := by
  rw [Fs.length_content, ← h.table.copy ip hc.1 hc.2]

/-- The first `tot` bytes of the source. -/
def bytesOf (src : ℕ → UInt8) (tot : ℕ) : List UInt8 := (List.range tot).map src

/-- `writei` overwrites the file. -/
theorem Stored.updates (h : s.Ok sb lost) (hno : s.NoHoles sb) (hc : s.Cached ip)
    (hoff : off ≤ (s.inode ip).d.size)
    (hs : Stored sb lost ip (fun k => some (src k)) off n s tot t) :
    Updates sb lost ip (overwrite (s.content sb (s.inode ip).inum) off (bytesOf src tot)) s t := by
  have hw := hs.exact fun _ => rfl
  have hct : t.Cached ip := by
    rw [Cached, hw.inode.self]
    exact hc
  have hsize : (Disk.dinode sb t.disk (s.inode ip).inum).size =
      max (s.inode ip).d.size (off + tot) := by
    rw [← hw.inode.inum, ← hw.ok.table.copy ip hct.1 hct.2, hw.inode.self]
  have hlen := h.length_content hc
  refine ⟨hw.ok, hs.noHoles hno h hc hoff, hw.inode.inum, hw.others, ?_⟩
  apply List.ext_getElem?
  intro o
  rw [getElem?_overwrite (by omega), bytesOf, List.length_map, List.length_range, content,
    List.getElem?_map, hsize]
  by_cases hin : off ≤ o ∧ o < off + tot
  · rw [if_pos hin, List.getElem?_range (by omega), List.getElem?_map,
      List.getElem?_range (by omega), Option.map_some, Option.map_some, hs.bytes o hin.1 hin.2]
  · rw [if_neg hin]
    by_cases hold : o < (s.inode ip).d.size
    · have hne := hno.full h hc (o / bsize) ((Nat.div_mul_le_self o bsize).trans_lt hold)
      rw [h.places hc] at hne
      rw [List.getElem?_range (by omega), content, List.getElem?_map,
        List.getElem?_range (by rw [← h.table.copy ip hc.1 hc.2]; exact hold), Option.map_some,
        Option.map_some, hw.data o hne fun hmem => hin ⟨hmem.1, hmem.2⟩]
    · rw [List.getElem?_eq_none (by rw [List.length_range]; omega),
        List.getElem?_eq_none (by omega), Option.map_none]

theorem Truncated.updates (hno : s.NoHoles sb) (hc : s.Cached ip) (ht : Truncated sb lost ip s t) :
    Updates sb lost ip [] s t := by
  have hct : t.Cached ip := by
    rw [Cached, ht.inode.self]
    exact hc
  refine ⟨ht.ok, ht.noHoles hno hc, ht.inode.inum, ht.others, ?_⟩
  apply List.eq_nil_of_length_eq_zero
  rw [length_content, ← ht.inode.inum, ← ht.ok.table.copy ip hct.1 hct.2, ht.inode.self]
  rfl

/-- `readi` returns a part of the content. -/
theorem slice_eq (h : s.Ok sb lost) (hc : s.Cached ip) (hn : off + n ≤ (s.inode ip).d.size) :
    s.slice sb ip off n = ((s.content sb (s.inode ip).inum).drop off).take n := by
  have hlen := h.length_content hc
  apply List.ext_getElem?
  intro o
  rw [slice, List.getElem?_map, h.byte hc]
  by_cases ho : o < n
  · rw [List.getElem?_range ho, List.getElem?_take_of_lt ho, List.getElem?_drop, content,
      List.getElem?_map, List.getElem?_range, Option.map_some, Option.map_some]
    rw [← h.table.copy ip hc.1 hc.2]
    omega
  · rw [List.getElem?_eq_none (by rw [List.length_range]; omega), Option.map_none,
      List.getElem?_eq_none (by rw [List.length_take]; omega)]

/-! ## `filewrite` -/

/-- The number of bytes that `filewrite` writes in one transaction. -/
abbrev chunk : ℕ := (maxOpBlocks - 1 - 1 - 2) / 2 * bsize

/-- The loop of `filewrite`, with `fuel` more iterations at most: the number of bytes of the
    chunks that were written as a whole, and the offset of the file. -/
def filewriteLoop (sb : Superblock) (ip : Fin ninode) (src : ℕ → Option UInt8) (n : ℤ) :
    ℕ → ℕ → ℕ → FsM (ℕ × ℕ)
  | 0, i, off => pure (i, off)
  | fuel + 1, i, off =>
    if (i : ℤ) < n then do
      let n₁ := if n - i > chunk then chunk else (n - i).toNat
      ilock sb ip
      let r ← writei sb ip (fun k => src (i + k)) off n₁
      let off := if 0 < r then (off + r.toNat) % 2 ^ 32 else off
      if r ≠ n₁ then pure (i, off) else filewriteLoop sb ip src n fuel (i + r.toNat) off
    else pure (i, off)

/-- Write to the file of an inode, at the offset `off`: `n` or `-1`, and the offset after it. -/
def filewrite (sb : Superblock) (ip : Fin ninode) (src : ℕ → Option UInt8) (off : ℕ) (n : ℤ) :
    FsM (ℤ × ℕ) := do
  let (i, off) ← filewriteLoop sb ip src n n.toNat 0 off
  pure (if i = n then n else -1, off)

theorem bytesOf_add (src : ℕ → UInt8) (i m : ℕ) :
    bytesOf src (i + m) = bytesOf src i ++ bytesOf (fun k => src (i + k)) m := by
  simp only [bytesOf, List.range_add, List.map_append, List.map_map]
  rfl

@[simp] theorem length_bytesOf (src : ℕ → UInt8) (tot : ℕ) : (bytesOf src tot).length = tot := by
  simp [bytesOf]

/-- The content after `tot` bytes of a write at the offset `off` of the content `c`. -/
structure FileWritten (sb : Superblock) (lost : Set ℕ) (ip : Fin ninode) (src : ℕ → UInt8)
    (off : ℕ) (c : List UInt8) (s : Fs) (tot : ℕ) (t : Fs) : Prop where
  updates : Updates sb lost ip (overwrite c off (bytesOf src tot)) s t
  fits : tot = 0 ∨ off ≤ c.length ∧ off + tot ≤ maxfile * bsize

theorem FileWritten.cons {m : ℕ} (h : FileWritten sb lost ip src off c s i t)
    (hoff : off ≤ c.length) (hmax : off + i + m ≤ maxfile * bsize)
    (h' : Updates sb lost ip (overwrite (overwrite c off (bytesOf src i)) (off + i)
      (bytesOf (fun k => src (i + k)) m)) t u) :
    FileWritten sb lost ip src off c s (i + m) u := by
  have hover : overwrite (overwrite c off (bytesOf src i)) (off + (bytesOf src i).length) _ = _ :=
    overwrite_overwrite hoff (bytesOf (fun k => src (i + k)) m)
  rw [length_bytesOf] at hover
  rw [hover, ← bytesOf_add] at h'
  exact ⟨h.updates.trans h', .inr ⟨hoff, by omega⟩⟩

/-- `ilock` does not change the file. -/
theorem wp_ilock_updates {Q : PUnit → Fs → Prop} (h : s.Ok sb lost) (hno : s.NoHoles sb)
    (hQ : ∀ t, t.Cached ip → Updates sb lost ip (s.content sb (s.inode ip).inum) s t →
      t.disk = s.disk → Q ⟨⟩ t)
    (hE : ∀ e t, E e t) : wp (ilock sb ip) Q E s := by
  refine wp_ilock h (fun t ht hd _ _ hc _ hself => hQ t hc ?_ hd) fun e t _ => hE e t
  exact .of_disk ht hno hd (by rw [hself])

/-- The next chunk cannot be written: the disk is full, the offset is beyond the file, or the
    chunk does not fit a file. -/
def WriteStops (full : Prop) (off : ℕ) (c : List UInt8) (n : ℤ) (tot : ℕ) : Prop :=
  full ∨ c.length < off ∨ maxfile * bsize < off + tot + min chunk (n - tot).toNat

/-- The chunks add up to one write, of all the bytes if it returns `n`, and otherwise of those
    before a chunk that cannot be written. -/
theorem wp_filewriteLoop (hsb : sb.Wf) {fuel : ℕ} {n : ℤ} (hn : n < 2 ^ 31)
    (hfuel : n - i ≤ fuel) (hin : i ≤ n ∨ i = 0) (hoff : off < 2 ^ 32) (hE : ∀ e t, E e t)
    (h : FileWritten sb lost ip src off c s i t) :
    wp (filewriteLoop sb ip (fun k => some (src k)) n fuel i (off + i)) (fun r u =>
      ∃ tot, FileWritten sb lost ip src off c s tot u ∧ r.2 = off + tot ∧
        (r.1 = n ↔ tot = n) ∧ (tot ≤ n ∨ tot = 0) ∧
        ((tot : ℤ) < n → WriteStops (u.DiskFull sb) off c n tot)) E t := by
  induction fuel generalizing i t with
  | zero => exact ⟨i, h, rfl, Iff.rfl, hin, fun hlt => absurd hlt (by omega)⟩
  | succ fuel ih =>
    unfold filewriteLoop
    split
    swap
    next hge => exact ⟨i, h, rfl, Iff.rfl, hin, fun hlt => absurd hlt hge⟩
    next hlt =>
    have hn₁ : ∃ m : ℕ, (if n - i > chunk then chunk else (n - i).toNat) = m ∧ 0 < m ∧
        (i : ℤ) + m ≤ n ∧ m = min chunk (n - i).toNat := by
      refine ⟨_, rfl, ?_, ?_, ?_⟩
      · split
        · decide
        · omega
      · split <;> omega
      · split <;> omega
    obtain ⟨m, hm, hmpos, hmn, hmin⟩ := hn₁
    dsimp only
    rw [hm, wp_bind]
    refine wp_ilock_updates h.updates.ok h.updates.noHoles (fun t₁ hc hlock _ => ?_) hE
    rw [h.updates.inum, h.updates.content] at hlock
    replace h : FileWritten sb lost ip src off c s i t₁ := ⟨h.updates.trans hlock, h.fits⟩
    have hlen := h.updates.ok.length_content hc
    rw [h.updates.inum, h.updates.content] at hlen
    rw [wp_bind]
    have hi32 : off + i < 2 ^ 32 := by
      rcases h.fits with rfl | hf
      · exact hoff
      · have : maxfile * bsize < 2 ^ 32 := by decide
        omega
    refine wp_writei hsb h.updates.ok hc hi32 (by omega) (fun hrej => ?_) fun ha r u hu => ?_
    · -- `writei` has rejected the chunk.
      rw [if_pos (show (-1 : ℤ) ≠ m by omega), if_neg (by decide)]
      refine ⟨i, h, rfl, Iff.rfl, hin, fun _ => .inr ?_⟩
      rw [← hmin]
      by_contra hno
      rw [not_or, not_lt, not_lt] at hno
      rw [length_overwrite hno.1] at hlen
      exact hrej ⟨by rw [← hlen, length_bytesOf]; exact le_max_right .., hno.2⟩
    · have hup := hu.updates h.updates.ok h.updates.noHoles hc ha.1
      rw [h.updates.inum, h.updates.content] at hup
      have hoffc : off ≤ c.length := by
        rcases h.fits with rfl | hf
        · rw [bytesOf, List.range_zero, List.map_nil, overwrite_nil] at hlen
          rw [hlen]
          exact ha.1
        · exact hf.1
      have hle := hu.le
      have hmax : off + i + r ≤ maxfile * bsize := (by omega : _ ≤ off + i + m).trans ha.2
      have hcons := h.cons hoffc hmax hup
      have hoff' : (if 0 < (r : ℤ) then (off + i + (r : ℤ).toNat) % 2 ^ 32 else off + i) =
          off + (i + r) := by
        have : maxfile * bsize < 2 ^ 32 := by decide
        split
        · rw [Int.toNat_natCast, Nat.mod_eq_of_lt (by omega), Nat.add_assoc]
        · omega
      rw [hoff']
      split
      next hne =>
        refine ⟨i + r, hcons, rfl, by dsimp only; omega, .inl (by omega), fun _ => .inl ?_⟩
        exact hu.stopped (fun _ => rfl) (by omega)
      next heq =>
        rw [Int.toNat_natCast]
        exact ih (by omega) (.inl (by omega)) hcons

end Fs

/-! ## Sequences of reads and writes -/

/-- An operation on the content of a file. -/
inductive ContentOp
  | writei (ip : Fin ninode) (src : ℕ → UInt8) (off n : UInt32)
  | filewrite (ip : Fin ninode) (src : ℕ → UInt8) (off : UInt32) (n : Int32)
  | readi (ip : Fin ninode) (off n : UInt32)
  | itrunc (ip : Fin ninode)

/-- What an operation returns: a number, the offset of the file and the bytes that were read. -/
structure Outcome where
  ret : ℤ
  off : ℕ := 0
  data : List UInt8 := []

namespace ContentOp

/-- The inode of an operation. -/
def ip : ContentOp → Fin ninode
  | writei ip _ _ _ | filewrite ip _ _ _ | readi ip _ _ | itrunc ip => ip

/-- The code of an operation. -/
def run (sb : Superblock) : ContentOp → FsM Outcome
  | writei ip src off n => do
    Fs.ilock sb ip
    let r ← Fs.writei sb ip (fun k => some (src k)) off.toNat n.toNat
    pure { ret := r }
  | filewrite ip src off n => do
    let r ← Fs.filewrite sb ip (fun k => some (src k)) off.toNat n.toInt
    pure { ret := r.1, off := r.2 }
  | readi ip off n => do
    Fs.ilock sb ip
    let r ← Fs.readi sb ip (fun _ => true) off.toNat n.toNat
    pure { ret := r.1, data := r.2 }
  | itrunc ip => do
    Fs.ilock sb ip
    Fs.itrunc sb ip
    pure { ret := 0 }

/-- What an operation does to the content `c` of its file: the content is `c'` then, and `out` is
    returned. A write that is not rejected stops early only if the disk is full then (`full`). -/
def Spec (full : Prop) (c : List UInt8) (c' : List UInt8) (out : Outcome) : ContentOp → Prop
  | writei _ src off n =>
    if off.toNat ≤ c.length ∧ off.toNat + n.toNat < 2 ^ 32 ∧
        off.toNat + n.toNat ≤ maxfile * bsize then
      ∃ tot : ℕ, tot ≤ n.toNat ∧ out.ret = tot ∧
        c' = overwrite c off.toNat (Fs.bytesOf src tot) ∧ (tot < n.toNat → full)
    else out.ret = -1 ∧ c' = c
  | filewrite _ src off n =>
    ∃ tot : ℕ, c' = overwrite c off.toNat (Fs.bytesOf src tot) ∧
      (tot = 0 ∨ off.toNat ≤ c.length ∧ (tot : ℤ) ≤ n.toInt ∧ off.toNat + tot ≤ maxfile * bsize) ∧
      out.off = off.toNat + tot ∧ (out.ret = if tot = n.toInt then n.toInt else -1) ∧
      ((tot : ℤ) < n.toInt → Fs.WriteStops full off.toNat c n.toInt tot)
  | readi _ off n => c' = c ∧
    if off.toNat ≤ c.length ∧ off.toNat + n.toNat < 2 ^ 32 then
      out.data = (c.drop off.toNat).take n.toNat ∧ out.ret = out.data.length
    else out.data = [] ∧ out.ret = 0
  | itrunc _ => c' = []

end ContentOp

/-- The operations that return, with what they return. -/
def contentSystem (sb : Superblock) : System Fs (ContentOp × Outcome) where
  init := Set.univ
  step s a t := a.1.run sb s = .ok a.2 t

namespace Fs

/-- No block is stored in two places, or before the data, and the bitmap marks the blocks in use. -/
structure BlocksApart (sb : Superblock) (s : Fs) : Prop where
  range : ∀ x, s.stores sb x ≠ 0 → sb.nmeta ≤ s.stores sb x ∧ s.stores sb x < sb.size
  once : ∀ x y, s.stores sb x ≠ 0 → s.stores sb x = s.stores sb y → x = y
  bitmap : ∀ b < sb.size, b < sb.nmeta ∨ (∃ x, s.stores sb x = b) → Disk.marked sb s.disk b = true

variable {sb : Superblock} {s t : Fs} {ip : Fin ninode} {lost : Set ℕ} {c : List UInt8}

/-- The other blocks that the bitmap marks are lost. -/
theorem BlocksApart.owned (hsb : sb.Wf) (h : s.BlocksApart sb) :
    ∃ lost, BlocksOwned sb (Disk.dinode sb s.disk) s.disk lost := by
  have hpos : 0 < sb.nmeta := (Nat.zero_le _).trans_lt hsb.bmapstart_lt
  refine ⟨{ b | Disk.marked sb s.disk b = true ∧ ∀ x, s.stores sb x ≠ b }, hpos, h.range, h.once,
    fun x _ hl => hl.2 x rfl, fun b hb => ⟨fun hm => ?_, ?_⟩⟩
  · by_cases hx : ∃ x, s.stores sb x = b
    · exact .inr (.inr hx)
    · exact .inr (.inl ⟨hm, not_exists.1 hx⟩)
  · rintro (hlo | hl | hx)
    · exact h.bitmap b hb (.inl hlo)
    · exact hl.1
    · exact h.bitmap b hb (.inr hx)

/-- What an operation does: its file is updated as specified, and the others stay. The disk is
    full if `balloc` finds no block. -/
structure Refines (sb : Superblock) (op : ContentOp) (s : Fs) (out : Outcome) (t : Fs) : Prop where
  spec : op.Spec (t.DiskFull sb) (s.content sb (s.inode op.ip).inum)
    (t.content sb (s.inode op.ip).inum) out
  others : ∀ j, Alloced sb (Disk.dinode sb s.disk) j → j ≠ (s.inode op.ip).inum →
    Alloced sb (Disk.dinode sb t.disk) j ∧ t.content sb j = s.content sb j

theorem Updates.refines {op : ContentOp} {out : Outcome} (ip : Fin ninode) (hip : op.ip = ip)
    (hno : s.NoHoles sb) (h : Updates sb lost ip c s t)
    (hspec : op.Spec (t.DiskFull sb) (s.content sb (s.inode ip).inum) c out) :
    (t.Ok sb lost ∧ t.NoHoles sb) ∧ Refines sb op s out t := by
  subst hip
  refine ⟨⟨h.ok, h.noHoles⟩, by rw [h.content]; exact hspec, fun j hj hji => ⟨⟨hj.1, ?_⟩, ?_⟩⟩
  · rw [h.others.dinode j hj.1 hji]
    exact hj.2
  · exact h.others.content hno hj hji

theorem wp_contentOp (hsb : sb.Wf) (h : s.Ok sb lost) (hno : s.NoHoles sb) (op : ContentOp) :
    wp (op.run sb) (fun out t => (t.Ok sb lost ∧ t.NoHoles sb) ∧ Refines sb op s out t)
      (fun _ _ => True) s := by
  cases op with
  | writei ip src off n =>
    rw [ContentOp.run, wp_bind]
    refine wp_ilock_updates h hno (fun t hc hlock hd => ?_) fun _ _ => trivial
    have hlen := hlock.ok.length_content hc
    rw [hlock.inum, hlock.content] at hlen
    rw [wp_bind]
    refine wp_writei hsb hlock.ok hc off.toNat_lt n.toNat_lt (fun hrej => ?_) fun ha tot u hu => ?_
    · refine Updates.refines ip rfl hno hlock ?_
      rw [ContentOp.Spec, if_neg]
      · exact ⟨rfl, rfl⟩
      · rw [hlen]
        exact fun hacc => hrej ⟨hacc.1, hacc.2.2⟩
    · have hup := hu.updates hlock.ok hlock.noHoles hc ha.1
      rw [hlock.inum, hlock.content] at hup
      refine Updates.refines ip rfl hno (hlock.trans hup) ?_
      rw [ContentOp.Spec, if_pos]
      · exact ⟨tot, hu.le, rfl, rfl, hu.stopped fun _ => rfl⟩
      · have : maxfile * bsize < 2 ^ 32 := by decide
        rw [hlen]
        exact ⟨ha.1, ha.2.trans_lt this, ha.2⟩
  | filewrite ip src off n =>
    rw [ContentOp.run, wp_bind, filewrite, wp_bind]
    have hstart : FileWritten sb lost ip src off.toNat (s.content sb (s.inode ip).inum) s 0 s :=
      ⟨by simpa [bytesOf] using Updates.of_disk h hno rfl rfl, .inl rfl⟩
    refine (wp_filewriteLoop hsb (n := n.toInt) (i := 0) n.toInt_lt (by omega) (.inr rfl)
      off.toNat_lt (fun _ _ => trivial) hstart).mono (fun r t ht => ?_) fun _ _ he => he
    obtain ⟨tot, hw, hoff, hret, htot, hstop⟩ := ht
    refine Updates.refines ip rfl hno hw.updates ?_
    refine ⟨tot, rfl, ?_, hoff, ?_, hstop⟩
    · rcases hw.fits with hz | hf
      · exact .inl hz
      · rcases htot with hle | hz
        · exact .inr ⟨hf.1, hle, hf.2⟩
        · exact .inl hz
    · simp only [hret]
  | readi ip off n =>
    rw [ContentOp.run, wp_bind]
    refine wp_ilock_updates h hno (fun t hc hlock hd => ?_) fun _ _ => trivial
    have hlen := hlock.ok.length_content hc
    rw [hlock.inum, hlock.content] at hlen
    rw [wp_bind]
    refine wp_readi (hlock.noHoles.full hlock.ok hc) off.toNat_lt n.toNat_lt (fun hrej => ?_)
      fun hoff hn r hr => ?_
    · refine Updates.refines ip rfl hno hlock ⟨rfl, ?_⟩
      rw [if_neg]
      · exact ⟨rfl, rfl⟩
      · rw [hlen]
        omega
    · refine Updates.refines ip rfl hno hlock ⟨rfl, ?_⟩
      rw [if_pos ⟨by rw [hlen]; exact hoff, hn⟩, hr fun _ => rfl]
      dsimp only
      rw [slice_eq hlock.ok hc (by omega), hlock.inum, hlock.content]
      constructor
      · rw [List.take_eq_take_iff, List.length_drop, hlen]
        omega
      · rw [List.length_take, List.length_drop, hlen]
        omega
  | itrunc ip =>
    rw [ContentOp.run, wp_bind]
    refine wp_ilock_updates h hno (fun t hc hlock hd => ?_) fun _ _ => trivial
    rw [wp_bind]
    refine (wp_itrunc_ok hsb hlock.ok hc).mono (fun _ u hu => ?_) fun _ _ he => he
    exact Updates.refines ip rfl hno
      (hlock.trans (hu.updates hlock.noHoles hc)) rfl

end Fs

/-- From every state in which no block is stored in two places, the bitmap marks the blocks in use
    and no file has a hole, every operation of every sequence does to the content of its file what
    it does to a byte array, and leaves the other files alone. -/
theorem files_are_bytes {sb : Superblock} (hsb : sb.Wf) {s₀ : Fs}
    {tr : List ((ContentOp × Outcome) × Fs)}
    (htable : Fs.TableOk sb (Disk.dinode sb s₀.disk) s₀.inode) (hapart : s₀.BlocksApart sb)
    (hno : s₀.NoHoles sb) (hrun : (contentSystem sb).Run s₀ tr) :
    System.Steps (fun s a t => Fs.Refines sb a.1 s a.2 t) s₀ tr := by
  obtain ⟨lost, howned⟩ := hapart.owned hsb
  refine System.Run.steps (Q := fun s => s.Ok sb lost ∧ s.NoHoles sb) (C := fun _ _ => True)
    ⟨⟨howned, htable⟩, hno⟩ ?_ ?_ hrun (System.along_of_forall (fun _ _ => trivial) s₀ tr)
  · rintro s ⟨op, out⟩ t h hstep -
    exact ((Fs.wp_contentOp hsb h.1 h.2 op).of_ok hstep).1
  · rintro s ⟨op, out⟩ t h hstep -
    exact ((Fs.wp_contentOp hsb h.1 h.2 op).of_ok hstep).2

/-- A disk with one empty file, to which there is one reference. -/
def oneFile : Fs :=
  { blank with
    disk := Disk.putDinode smallSb blank.disk 1 { Dinode.new 2 with nlink := 1 }
    inode := fun ip => ⟨1, if ip = 0 then 1 else 0, false, Dinode.new 0⟩ }

theorem stores_oneFile (x : ℕ × FileSlot) : oneFile.stores smallSb x = 0 := by
  have hfits : ({ Dinode.new 2 with nlink := 1 } : Dinode).Fits :=
    ⟨(Dinode.fits_new 2).size, (Dinode.fits_new 2).addrs⟩
  have hsw := Fs.BlocksOwned.swapped (u := oneFile) (i := 1) wf_smallSb
    ((Fs.ownsBlocks_iff wf_smallSb).1 ownsBlocks_blank) (by decide)
    (fun sl => stores_blank (1, sl)) hfits (fun _ => rfl) rfl
  rw [hsw.stores]
  exact stores_blank x

theorem blocksApart_oneFile : oneFile.BlocksApart smallSb := by
  have hmarked : ∀ b < 4, Disk.marked smallSb oneFile.disk b = true := by decide
  refine ⟨fun x hx => absurd (stores_oneFile x) hx, fun x _ hx => absurd (stores_oneFile x) hx, ?_⟩
  rintro b hb (hlt | ⟨x, hx⟩)
  · exact hmarked b hlt
  · rw [stores_oneFile] at hx
    exact hmarked b (by omega)

theorem written_oneFile : wp (ContentOp.run smallSb (.writei 0 (fun k => UInt8.ofNat k) 0 5))
    (fun out t => out.ret = 5 ∧ wp (ContentOp.run smallSb (.readi 0 0 9))
      (fun out' _ => out'.data = [0, 1, 2, 3, 4]) (fun _ _ => False) t)
    (fun _ _ => False) oneFile := by decide

/-- Five bytes are written to the file, and read again. -/
theorem files_are_bytes_written : ∃ out out' t u, (contentSystem smallSb).Run oneFile
      [((.readi 0 0 9, out'), u), ((.writei 0 (fun k => UInt8.ofNat k) 0 5, out), t)] ∧
    out.ret = 5 ∧ out'.data = [0, 1, 2, 3, 4] ∧
    System.Steps (fun s a t => Fs.Refines smallSb a.1 s a.2 t) oneFile
      [((.readi 0 0 9, out'), u), ((.writei 0 (fun k => UInt8.ofNat k) 0 5, out), t)] := by
  have htable : Fs.TableOk smallSb (Disk.dinode smallSb oneFile.disk) oneFile.inode := by
    refine ⟨fun ip _ => by change 1 < 3; decide, fun ip jp hi hj _ => ?_, fun ip _ hv => ?_,
      fun ip _ hv => ?_⟩
    · have hone : ∀ kp : Fin ninode, 0 < (oneFile.inode kp).ref → kp = 0 := by decide
      rw [hone ip hi, hone jp hj]
    · cases hv
    · cases hv
  obtain ⟨out, t, hwrite, hret, hread⟩ := written_oneFile.exists_ok
  obtain ⟨out', u, hread, hdata⟩ := hread.exists_ok
  have htr : (contentSystem smallSb).Run oneFile
      [((.readi 0 0 9, out'), u), ((.writei 0 (fun k => UInt8.ofNat k) 0 5, out), t)] :=
    .cons (.cons .nil hwrite) hread
  exact ⟨out, out', t, u, htr, hret, hdata, files_are_bytes wf_smallSb htable blocksApart_oneFile
    (by decide) htr⟩

end Xv6
