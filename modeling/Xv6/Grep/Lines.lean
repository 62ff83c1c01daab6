import Xv6.Grep.Match
import Xv6.Str.Move

/-!
# The lines that grep prints

`grep` reads a file in pieces into a buffer of 1024 bytes, behind what is left of the last piece,
and cuts the buffer into lines. The model keeps the buffer in memory, where `memmove` of the user
library moves the rest of a piece to its start. How many bytes a `read` returns is left open.

What is left in the buffer and what has not been read are, together, the lines that `grep` has not
seen yet (`grepLoop_eq`). A line that does not fit into the buffer is never complete: `grep` fills
the buffer with it, asks `read` for no bytes, and takes the answer for the end of the file. It
prints the matching lines before the first such line (`grep_eq`), so that it prints all of them
exactly if there are none from there on (`grep_lines`).
-/

namespace Xv6.Grep

open Str

/-- `sizeof(buf)`. -/
def bufSize : ℕ := 1024

/-- The byte that ends a line. -/
def newline : UInt8 := 10

/-- A file that is read: what is left of it, and bounds for the next reads. -/
structure Input where
  bytes : List UInt8
  sizes : ℕ → ℕ

/-- How many bytes the next `read` for at most `n` bytes returns: none at the end of the file, else
    at least one. -/
def Input.count (inp : Input) (n : ℕ) : ℕ := min (max 1 (inp.sizes 0)) (min n inp.bytes.length)

/-- The address of `buf[i]`. -/
def addr (buf : Addr) (i : ℕ) : Addr := buf + BitVec.ofNat 64 i

/-- The `len` bytes from `buf[i]` on. -/
def slice (buf : Addr) (m : Mem) (i len : ℕ) : List UInt8 :=
  (List.range len).map fun k => m (addr buf (i + k))

/-- The memory with `bytes` stored from `buf[i]` on. -/
def store (buf : Addr) (m : Mem) (i : ℕ) (bytes : List UInt8) : Mem := fun a =>
  if (a - addr buf i).toNat < bytes.length then bytes.getD (a - addr buf i).toNat 0 else m a

/-- The store `buf[i] = c`. -/
def setByte (buf : Addr) (m : Mem) (i : ℕ) (c : UInt8) : Option Mem :=
  if i < bufSize then some (Function.update m (addr buf i) c) else none

/-- `strchr`: the distance to the first `c`. -/
def strchr (c : UInt8) : List UInt8 → Option (Option ℕ)
  | [] => none
  | a :: s =>
    if a = 0 then some none
    else if a = c then some (some 0)
    else (strchr c s).map (Option.map (· + 1))

section Code

variable (pat : List UInt8) (buf : Addr)

/-- The loop over the lines of the buffer, from `p` on. -/
def lineLoop : ℕ → ℕ → Mem → List UInt8 → Option (ℕ × Mem × List UInt8)
  | 0, _, _, _ => none
  | fuel + 1, p, m, out => do
    let found ← strchr newline (slice buf m p (bufSize - p))
    match found with
    | none => some (p, m, out)
    | some k => do
      let q := p + k
      let m ← setByte buf m q 0
      if ← match_ pat (slice buf m p (bufSize - p)) then do
        let m ← setByte buf m q newline
        lineLoop fuel (q + 1) m (out ++ slice buf m p (q + 1 - p))
      else lineLoop fuel (q + 1) m out

/-- The loop of `grep` that reads the file. -/
def grepLoop : ℕ → ℕ → Input → Mem → List UInt8 → Option (List UInt8)
  | 0, _, _, _, _ => none
  | fuel + 1, m, inp, mem, out => do
    let n := inp.count (bufSize - m - 1)
    if n > 0 then do
      let mem := store buf mem m (inp.bytes.take n)
      let inp : Input := ⟨inp.bytes.drop n, fun k => inp.sizes (k + 1)⟩
      let m := m + n
      let mem ← setByte buf mem m 0
      let (p, mem, out) ← lineLoop pat buf (bufSize + 1) 0 mem out
      if m > 0 then
        let m := m - p
        grepLoop fuel m inp (Ulib.memmove buf (addr buf p) (BitVec.ofNat 32 m) mem).2 out
      else grepLoop fuel m inp mem out
    else some out

/-- `grep`, and what it writes. -/
def grep (fuel : ℕ) (inp : Input) (mem : Mem) : Option (List UInt8) :=
  grepLoop pat buf fuel 0 inp mem []

end Code

/-! ## Lines -/

/-- The lines `ls`, each with its newline. -/
def text (ls : List (List UInt8)) : List UInt8 := ls.flatMap (· ++ [newline])

/-- The lines are lines: they contain no newline, and no NUL. -/
def IsLines (ls : List (List UInt8)) : Prop := ∀ l ∈ ls, newline ∉ l ∧ 0 ∉ l

/-- A line that fits into the buffer with its newline and a NUL. -/
def fits (l : List UInt8) : Bool := l.length + 2 ≤ bufSize

variable {pat : List UInt8} {buf : Addr} {m : Mem} {i j n fuel : ℕ} {c : UInt8}
  {u v l rest o : List UInt8} {ls ls' : List (List UInt8)}

@[simp] theorem text_nil : text [] = [] := rfl

@[simp] theorem text_cons : text (l :: ls) = l ++ newline :: text ls := by
  rw [text, List.flatMap_cons, List.append_assoc]
  rfl

@[simp] theorem text_append : text (ls ++ ls') = text ls ++ text ls' := List.flatMap_append

/-- A beginning of a text is a number of lines, and a beginning of the next one. -/
theorem text_split (hls : IsLines ls) (h : u ++ v = text ls) :
    ∃ ls₁ ls₂ l, ls = ls₁ ++ ls₂ ∧ u = text ls₁ ++ l ∧ l ++ v = text ls₂ ∧ newline ∉ l ∧ 0 ∉ l := by
  induction ls generalizing u with
  | nil =>
    obtain ⟨rfl, rfl⟩ := List.append_eq_nil_iff.1 h
    exact ⟨[], [], [], rfl, rfl, rfl, List.not_mem_nil, List.not_mem_nil⟩
  | cons l ls ih =>
    obtain ⟨hl, hls⟩ := List.forall_mem_cons.1 hls
    rw [text_cons] at h
    rcases List.append_eq_append_iff.1 h with ⟨a, rfl, hv⟩ | ⟨a, rfl, ha⟩
    · refine ⟨[], (u ++ a) :: ls, u, rfl, rfl, by rw [h, text_cons], ?_, ?_⟩
      · exact fun h => hl.1 (List.mem_append_left _ h)
      · exact fun h => hl.2 (List.mem_append_left _ h)
    · cases a with
      | nil =>
        rw [List.append_nil] at h ⊢
        exact ⟨[], l :: ls, l, rfl, rfl, by rw [h, text_cons], hl⟩
      | cons b a =>
        obtain ⟨rfl, hav⟩ := List.cons.inj ha
        obtain ⟨ls₁, ls₂, l', rfl, rfl, hv, hl'⟩ := ih hls hav.symm
        exact ⟨l :: ls₁, ls₂, l', rfl, by simp, hv, hl'⟩

/-- Nothing is left of a text if what is left contains no newline. -/
theorem text_eq_of_not_mem (hl : newline ∉ l) (h : l = text ls) : ls = [] := by
  cases ls with
  | nil => rfl
  | cons l' ls =>
    rw [h, text_cons] at hl
    exact absurd (List.mem_append_right _ List.mem_cons_self) hl

/-! ## The buffer -/

/-- The bytes `u` are in the buffer from `buf[i]` on. -/
def Holds (buf : Addr) (m : Mem) (i : ℕ) (u : List UInt8) : Prop :=
  i + u.length ≤ bufSize ∧ ∀ k, (h : k < u.length) → m (addr buf (i + k)) = u[k]

theorem addr_inj (hi : i < 2 ^ 64) (hj : j < 2 ^ 64) (h : addr buf i = addr buf j) : i = j := by
  have := congrArg BitVec.toNat (add_left_cancel h)
  rwa [BitVec.toNat_ofNat, BitVec.toNat_ofNat, Nat.mod_eq_of_lt hi, Nat.mod_eq_of_lt hj] at this

theorem addr_sub (hij : i ≤ j) : addr buf j - addr buf i = BitVec.ofNat 64 (j - i) := by
  rw [addr, addr, ← Nat.add_sub_of_le hij, BitVec.ofNat_add, ← add_assoc, Nat.add_sub_cancel_left]
  exact add_sub_cancel_left _ _

theorem holds_append : Holds buf m i (u ++ v) ↔ Holds buf m i u ∧ Holds buf m (i + u.length) v := by
  simp only [Holds, List.length_append]
  constructor
  · rintro ⟨hlen, h⟩
    refine ⟨⟨by omega, fun k hk => ?_⟩, by omega, fun k hk => ?_⟩
    · rw [h k (by omega), List.getElem_append_left hk]
    · rw [add_assoc, h (u.length + k) (by omega), List.getElem_append_right (by omega)]
      congr 1
      omega
  · rintro ⟨⟨-, hu⟩, hlen, hv⟩
    refine ⟨by omega, fun k hk => ?_⟩
    by_cases h : k < u.length
    · rw [hu k h, List.getElem_append_left h]
    · have := hv (k - u.length) (by omega)
      rw [List.getElem_append_right (by omega), ← this]
      congr 2
      omega

theorem holds_nil (h : i ≤ bufSize) : Holds buf m i [] :=
  ⟨h, fun _ hk => absurd hk (Nat.not_lt_zero _)⟩

theorem holds_singleton : Holds buf m i [c] ↔ i < bufSize ∧ m (addr buf i) = c := by
  constructor
  · exact fun h => ⟨h.1, h.2 0 Nat.one_pos⟩
  · rintro ⟨h, rfl⟩
    refine ⟨h, fun k hk => ?_⟩
    obtain rfl : k = 0 := Nat.lt_one_iff.1 hk
    rfl

/-- Only the bytes of the range count. -/
theorem Holds.congr {m' : Mem} (h : Holds buf m i u)
    (hm : ∀ k, i ≤ k → k < i + u.length → m' (addr buf k) = m (addr buf k)) : Holds buf m' i u :=
  ⟨h.1, fun k hk => (hm _ (by omega) (by omega)).trans (h.2 k hk)⟩

theorem update_addr_of_ne (hi : i < bufSize) (hj : j < bufSize) (h : i ≠ j) :
    Function.update m (addr buf j) c (addr buf i) = m (addr buf i) := by
  rw [bufSize] at hi hj
  exact Function.update_of_ne (fun he => h (addr_inj (by omega) (by omega) he)) _ _

/-- A store outside of the range. -/
theorem Holds.update (h : Holds buf m i u) (hj : j < bufSize) (hout : j < i ∨ i + u.length ≤ j) :
    Holds buf (Function.update m (addr buf j) c) i u :=
  h.congr fun k _ _ => update_addr_of_ne (by have := h.1; omega) hj (by omega)

theorem Holds.slice_eq (h : Holds buf m i u) : slice buf m i u.length = u := by
  refine List.ext_getElem (by simp [slice]) fun k hk hk' => ?_
  simp only [slice, List.getElem_map, List.getElem_range, h.2 k hk']

theorem slice_add : slice buf m i (j + n) = slice buf m i j ++ slice buf m (i + j) n := by
  rw [slice, List.range_add, List.map_append, List.map_map, slice, slice]
  refine congrArg _ (List.map_congr_left fun k _ => ?_)
  rw [Function.comp, add_assoc]

/-- The bytes from `buf[i]` to the end of the buffer. -/
theorem Holds.slice_rest (h : Holds buf m i u) :
    ∃ rest, slice buf m i (bufSize - i) = u ++ rest := by
  have hlen := h.1
  have hsplit : bufSize - i = u.length + (bufSize - i - u.length) := by omega
  exact ⟨_, by rw [hsplit, slice_add, h.slice_eq]⟩

/-- The bytes that `read` has stored. -/
theorem holds_store (h : i + u.length ≤ bufSize) : Holds buf (store buf m i u) i u := by
  refine ⟨h, fun k hk => ?_⟩
  have hsub : (addr buf (i + k) - addr buf i).toNat = k := by
    rw [addr_sub (by omega), BitVec.toNat_ofNat, Nat.add_sub_cancel_left,
      Nat.mod_eq_of_lt (by rw [bufSize] at h; omega)]
  rw [store, hsub, if_pos hk, List.getD_eq_getElem?_getD, List.getElem?_eq_getElem hk,
    Option.getD_some]

/-- They are behind what was there. -/
theorem Holds.store (h : Holds buf m i u) (hv : i + u.length + v.length ≤ bufSize) :
    Holds buf (store buf m (i + u.length) v) i (u ++ v) := by
  refine holds_append.2 ⟨h.congr fun k hik hk => ?_, holds_store hv⟩
  have hsub : ¬(addr buf k - addr buf (i + u.length)).toNat < v.length := by
    have : addr buf k - addr buf (i + u.length) = -BitVec.ofNat 64 (i + u.length - k) := by
      rw [← addr_sub hk.le, neg_sub]
    rw [this, BitVec.toNat_neg, BitVec.toNat_ofNat]
    rw [bufSize] at hv
    omega
  rw [Grep.store, if_neg hsub]

/-- `memmove` to the start of the buffer. -/
theorem Holds.memmove (h : Holds buf m i u) (hbuf : buf.toNat + bufSize ≤ 2 ^ 64) :
    Holds buf (Ulib.memmove buf (addr buf i) (BitVec.ofNat 32 u.length) m).2 0 u := by
  have hlen := h.1
  rw [bufSize] at hlen hbuf
  have haddr : ∀ k < bufSize, (addr buf k).toNat = buf.toNat + k := fun k hk => by
    rw [bufSize] at hk
    rw [addr, BitVec.toNat_add, BitVec.toNat_ofNat, Nat.mod_eq_of_lt (by omega : k < 2 ^ 64),
      Nat.mod_eq_of_lt (by omega)]
  have hn : (BitVec.ofNat 32 u.length).toNat = u.length := by
    rw [BitVec.toNat_ofNat, Nat.mod_eq_of_lt (by omega)]
  have hsrc : (addr buf i).toNat + u.length ≤ 2 ^ 64 := by
    rcases Nat.lt_or_ge i bufSize with hi | hi
    · rw [haddr i hi]
      omega
    · have := (addr buf i).isLt
      rw [bufSize] at hi
      omega
  rw [Mem.ulib_memmove_eq m (by omega) (by omega) (by omega), hn]
  refine ⟨by rw [bufSize]; omega, fun k hk => ?_⟩
  have hk' : k < bufSize := by
    rw [bufSize]
    omega
  have hoff : addr buf i + (addr buf k - buf) = addr buf (i + k) := by
    rw [addr, addr, addr, add_sub_cancel_left, BitVec.ofNat_add, add_assoc]
  dsimp only
  rw [Nat.zero_add, Mem.moved, if_pos (by rw [haddr k hk']; omega), hoff]
  exact h.2 k hk

/-! ## The loops -/

theorem strchr_found (hl : c ∉ l) (h0 : 0 ∉ l) (hc : c ≠ 0) :
    strchr c (l ++ c :: rest) = some (some l.length) := by
  induction l with
  | nil => rw [List.nil_append, strchr, if_neg hc, if_pos rfl, List.length_nil]
  | cons a l ih =>
    rw [List.mem_cons, not_or] at hl h0
    rw [List.cons_append, strchr, if_neg (Ne.symm h0.1), if_neg (Ne.symm hl.1), ih hl.2 h0.2]
    rfl

theorem strchr_none (hl : c ∉ l) (h0 : 0 ∉ l) : strchr c (l ++ 0 :: rest) = some none := by
  induction l with
  | nil => rw [List.nil_append, strchr, if_pos rfl]
  | cons a l ih =>
    rw [List.mem_cons, not_or] at hl h0
    rw [List.cons_append, strchr, if_neg (Ne.symm h0.1), if_neg (Ne.symm hl.1), ih hl.2 h0.2]
    rfl

theorem length_le_text : ls.length ≤ (text ls).length := by
  induction ls with
  | nil => exact le_rfl
  | cons l ls ih =>
    rw [text_cons, List.length_append, List.length_cons, List.length_cons]
    omega

/-- The loop over the buffer prints the matching lines in it, and leaves what follows them. -/
theorem lineLoop_eq (hpat : 0 ∉ pat) (hls : IsLines ls) (hl : newline ∉ l) (h0 : 0 ∉ l)
    (hfuel : ls.length < fuel) (h : Holds buf m i (text ls ++ l ++ [0])) :
    ∃ m', lineLoop (pat ++ [0]) buf fuel i m o =
        some (i + (text ls).length, m', o ++ text (ls.filter (isMatch pat))) ∧
      Holds buf m' (i + (text ls).length) l := by
  induction ls generalizing fuel i m o with
  | nil =>
    obtain ⟨fuel, rfl⟩ : ∃ k, fuel = k + 1 := ⟨fuel - 1, by omega⟩
    rw [text_nil, List.nil_append] at h
    obtain ⟨rest, hrest⟩ := h.slice_rest
    rw [List.append_assoc] at hrest
    refine ⟨m, ?_, (holds_append.1 h).1⟩
    rw [lineLoop, hrest, List.singleton_append, strchr_none hl h0]
    simp
  | cons l' ls ih =>
    obtain ⟨fuel, rfl⟩ : ∃ k, fuel = k + 1 := ⟨fuel - 1, by omega⟩
    obtain ⟨hl', hls⟩ := List.forall_mem_cons.1 hls
    have hfuel : ls.length < fuel := Nat.lt_of_succ_lt_succ hfuel
    have hsplit : text (l' :: ls) ++ l ++ [0] = l' ++ ([newline] ++ (text ls ++ l ++ [0])) := by simp
    rw [hsplit, holds_append, holds_append] at h
    obtain ⟨hline, hnl, hrest⟩ := h
    have hq : i + l'.length < bufSize := (holds_singleton.1 hnl).1
    -- The line is found, and ended by a NUL.
    obtain ⟨r, hr⟩ := (holds_append.2 ⟨hline, hnl⟩).slice_rest
    rw [List.append_assoc, List.singleton_append] at hr
    have hline' : Holds buf (Function.update m (addr buf (i + l'.length)) 0) i (l' ++ [0]) :=
      holds_append.2 ⟨hline.update hq (.inr le_rfl),
        holds_singleton.2 ⟨hq, Function.update_self ..⟩⟩
    have hrest' := hrest.update (c := 0) hq (.inl (by simp))
    obtain ⟨r', hr'⟩ := hline'.slice_rest
    rw [List.append_assoc, List.singleton_append] at hr'
    have hnext : i + l'.length + [newline].length + (text ls).length =
        i + (text (l' :: ls)).length := by
      simp
      omega
    rw [lineLoop, hr, Option.bind_eq_bind, strchr_found hl'.1 hl'.2 (by decide), Option.bind_some]
    simp only [setByte, if_pos hq, Option.bind_eq_bind, Option.bind_some, hr',
      match_eq_isMatch hpat hl'.2]
    by_cases hmatch : isMatch pat l' = true
    · have hline'' := holds_append.2 ⟨(holds_append.1 hline').1.update (c := newline) hq
        (.inr le_rfl), holds_singleton.2 ⟨hq, Function.update_self ..⟩⟩
      have hprinted := hline''.slice_eq
      rw [List.length_append, List.length_singleton] at hprinted
      obtain ⟨m', hm', hl₂⟩ := ih hls hfuel (hrest'.update (c := newline) hq (.inl (by simp)))
        (o := o ++ (l' ++ [newline]))
      rw [hnext] at hm' hl₂
      refine ⟨m', ?_, hl₂⟩
      rw [if_pos hmatch, Nat.add_assoc i, Nat.add_sub_cancel_left, hprinted, List.filter_cons_of_pos hmatch,
        text_cons, ← Nat.add_assoc i]
      refine hm'.trans ?_
      simp
    · obtain ⟨m', hm', hl₂⟩ := ih hls hfuel hrest' (o := o)
      rw [hnext] at hm' hl₂
      refine ⟨m', ?_, hl₂⟩
      rw [if_neg hmatch, List.filter_cons_of_neg hmatch]
      exact hm'

theorem fits_of_mem (h : l ∈ ls) (hlen : (text ls).length < bufSize) : fits l = true := by
  obtain ⟨ls₁, ls₂, rfl⟩ := List.append_of_mem h
  rw [text_append, text_cons, List.length_append, List.length_append, List.length_cons] at hlen
  exact decide_eq_true (by omega)

/-- If the buffer is full and has no newline, the next line does not fit. -/
theorem takeWhile_fits_of_full (hl : newline ∉ l) (hlen : bufSize ≤ l.length + 1)
    (h : l ++ v = text ls) : ls.takeWhile fits = [] := by
  cases ls with
  | nil => rfl
  | cons l' ls =>
    have hle : l.length ≤ l'.length := by
      rw [text_cons] at h
      rcases List.append_eq_append_iff.1 h with ⟨a, rfl, -⟩ | ⟨a, rfl, ha⟩
      · exact (List.length_append ▸ Nat.le_add_right _ _)
      · cases a with
        | nil => rw [List.append_nil]
        | cons b a =>
          exact absurd (List.mem_append_right _ ((List.cons.inj ha).1 ▸ List.mem_cons_self)) hl
    have hfits : ¬fits l' = true := fun hf => by
      have := of_decide_eq_true hf
      omega
    exact List.takeWhile_cons_of_neg hfits

/-- What is in the buffer and what has not been read are the lines `ls`: `grep` prints those of
    them that match, up to the first one that does not fit. -/
theorem grepLoop_eq (hpat : 0 ∉ pat) (hbuf : buf.toNat + bufSize ≤ 2 ^ 64) (hls : IsLines ls)
    (hl : newline ∉ l) (hlen : l.length < bufSize) {inp : Input}
    (hfuel : inp.bytes.length < fuel) (hin : l ++ inp.bytes = text ls) (h : Holds buf m 0 l) :
    grepLoop (pat ++ [0]) buf fuel l.length inp m o =
      some (o ++ text ((ls.takeWhile fits).filter (isMatch pat))) := by
  induction fuel generalizing ls l inp m o with
  | zero => exact absurd hfuel (Nat.not_lt_zero _)
  | succ fuel ih =>
    have hcount : inp.count (bufSize - l.length - 1) ≤ bufSize - l.length - 1 ∧
        inp.count (bufSize - l.length - 1) ≤ inp.bytes.length ∧
        (inp.count (bufSize - l.length - 1) = 0 →
          bufSize - l.length - 1 = 0 ∨ inp.bytes.length = 0) := by
      rw [Input.count]
      omega
    rw [grepLoop]
    generalize inp.count (bufSize - l.length - 1) = n at hcount
    obtain ⟨hroom, hn, hzero⟩ := hcount
    rcases Nat.eq_zero_or_pos n with rfl | hpos
    · -- No more bytes: the end of the file, or a full buffer.
      have hnone : ls.takeWhile fits = [] := by
        rcases hzero rfl with hfull | hend
        · exact takeWhile_fits_of_full hl (by omega) hin
        · rw [List.length_eq_zero_iff.1 hend, List.append_nil] at hin
          rw [text_eq_of_not_mem hl hin, List.takeWhile_nil]
      rw [hnone]
      simp
    · have htake : (inp.bytes.take n).length = n := List.length_take_of_le hn
      have hread : (l ++ inp.bytes.take n) ++ inp.bytes.drop n = text ls := by
        rw [List.append_assoc, List.take_append_drop, hin]
      obtain ⟨ls₁, ls₂, l₂, rfl, hu, hrest, hl₂, h0⟩ := text_split hls hread
      have hsize : (text ls₁).length + l₂.length = l.length + n := by
        rw [← List.length_append, ← hu, List.length_append, htake]
      obtain ⟨hls₁, hls₂⟩ := List.forall_mem_append.1 hls
      have hfits : ∀ l ∈ ls₁, fits l = true := fun l hl => fits_of_mem hl (by omega)
      have hstored := h.store (v := inp.bytes.take n) (by omega)
      rw [hu, Nat.zero_add] at hstored
      have hend : 0 + (text ls₁ ++ l₂).length = l.length + n := by
        rw [List.length_append, hsize, Nat.zero_add]
      have hended : Holds buf (Function.update (store buf m l.length (inp.bytes.take n))
          (addr buf (l.length + n)) 0) 0 (text ls₁ ++ l₂ ++ [0]) := by
        refine holds_append.2 ⟨hstored.update (by omega) (.inr hend.le), ?_⟩
        rw [hend]
        exact holds_singleton.2 ⟨by omega, Function.update_self ..⟩
      have hfuel₁ : ls₁.length < bufSize + 1 := by
        have : ls₁.length ≤ (text ls₁).length := length_le_text
        omega
      obtain ⟨m', hlines, hleft⟩ := lineLoop_eq (o := o) hpat hls₁ hl₂ h0 hfuel₁ hended
      rw [Nat.zero_add] at hlines hleft
      simp only [if_pos hpos, setByte, if_pos (by omega : l.length + n < bufSize),
        Option.bind_eq_bind, Option.bind_some, hlines, if_pos (by omega : l.length + n > 0)]
      have hm : l.length + n - (text ls₁).length = l₂.length := by omega
      rw [hm, ih hls₂ hl₂ (by omega) (by
        rw [List.length_drop]
        omega) hrest (hleft.memmove hbuf), List.takeWhile_append_of_pos hfits, List.filter_append,
        text_append, List.append_assoc]

/-- `grep` prints the matching lines up to the first one that does not fit into the buffer. -/
theorem grep_eq (hpat : 0 ∉ pat) (hbuf : buf.toNat + bufSize ≤ 2 ^ 64) (hls : IsLines ls)
    (sizes : ℕ → ℕ) (hfuel : (text ls).length < fuel) :
    grep (pat ++ [0]) buf fuel ⟨text ls, sizes⟩ m =
      some (text ((ls.takeWhile fits).filter (isMatch pat))) :=
  grepLoop_eq (l := []) hpat hbuf hls List.not_mem_nil (by decide) hfuel rfl
    (holds_nil (by decide))

theorem text_eq_nil : text ls = [] ↔ ls = [] := by
  cases ls with
  | nil => exact iff_of_true rfl rfl
  | cons l ls => simp

/-- However the file is cut into pieces, `grep` ends. It prints the matching lines, in order, each
    once, exactly if no line matches from the first one on that does not fit into the buffer. -/
theorem grep_lines (pat : List UInt8) (hpat : 0 ∉ pat) (buf : Addr)
    (hbuf : buf.toNat + bufSize ≤ 2 ^ 64) (ls : List (List UInt8)) (hls : IsLines ls)
    (sizes : ℕ → ℕ) (m : Mem) :
    ∃ out, (∀ fuel > (text ls).length,
        grep (pat ++ [0]) buf fuel ⟨text ls, sizes⟩ m = some out) ∧
      (out = text (ls.filter (isMatch pat)) ↔
        ∀ l ∈ ls.dropWhile fits, isMatch pat l = false) := by
  refine ⟨_, fun fuel hfuel => grep_eq hpat hbuf hls sizes hfuel, ?_⟩
  have hall : text (ls.filter (isMatch pat)) = text ((ls.takeWhile fits).filter (isMatch pat)) ++
      text ((ls.dropWhile fits).filter (isMatch pat)) := by
    rw [← text_append, ← List.filter_append, List.takeWhile_append_dropWhile]
  rw [hall, List.self_eq_append_right, text_eq_nil, List.filter_eq_nil_iff]
  simp only [Bool.not_eq_true]

/-- Two lines, of which one matches, in pieces of three bytes. -/
theorem grep_lines_two :
    ∃ out, (∀ fuel > 6, grep ([98] ++ [0]) 4096 fuel ⟨[97, 98, 10, 97, 99, 10], fun _ => 3⟩
        (fun _ => 0) = some out) ∧
      (out = text ([[97, 98], [97, 99]].filter (isMatch [98])) ↔
        ∀ l ∈ [[97, 98], [97, 99]].dropWhile fits, isMatch [98] l = false) :=
  grep_lines [98] (by decide) 4096 (by decide) [[97, 98], [97, 99]] (by simp [IsLines, newline])
    (fun _ => 3) (fun _ => 0)

/-- A line of `n + 1` letters. -/
def longLine (n : ℕ) : List UInt8 := 97 :: List.replicate n 97

theorem length_longLine : (longLine n).length = n + 1 := by
  rw [longLine, List.length_cons, List.length_replicate]

theorem isLines_longLine : IsLines [longLine n] := by
  intro l hl
  rw [List.mem_singleton.1 hl]
  simp [longLine, newline, List.mem_replicate]

theorem isMatch_longLine : isMatch [97] (longLine n) = true := by
  have hhere : matchhere [97, 0] (97 :: (List.replicate n 97 ++ [0])) = some true := by
    rw [matchhere_cons (by decide) (by decide), if_neg (by decide), if_pos (by decide),
      matchhere_end]
  simp [isMatch, longLine, match_, matchFrom, hhere, caret]

/-- A line that is too long by one byte is not printed, though it matches. -/
theorem grep_skips_long_line :
    grep ([97] ++ [0]) 4096 2000 ⟨text [longLine 1022], fun _ => 512⟩ (fun _ => 0) = some [] ∧
      text ([longLine 1022].filter (isMatch [97])) = longLine 1022 ++ [newline] := by
  have hfits : ¬fits (longLine 1022) = true := by
    rw [fits, length_longLine]
    decide
  have hlen : (text [longLine 1022]).length < 2000 := by
    rw [text_cons, text_nil, List.length_append, length_longLine]
    decide
  constructor
  · rw [grep_eq (by decide) (by decide) isLines_longLine _ hlen,
      List.takeWhile_cons_of_neg hfits, List.filter_nil, text_nil]
  · rw [List.filter_cons_of_pos isMatch_longLine, List.filter_nil, text_cons, text_nil]

end Xv6.Grep
