import Mathlib

/-!
# memmove

`memmove` of the kernel (`string.c`) and of the user library (`ulib.c`) move a range of bytes to
another one, which it may overlap. Both copy byte by byte, up or down, and differ in how they choose
the direction: the kernel goes down only if the source starts below the destination and reaches into
it, the library whenever the source does not start above the destination.

A copy upwards is right unless the destination starts inside of the source (`copyUp_eq`), and one
downwards unless the source starts inside of the destination (`copyDown_eq`): a loop then has read
every byte of the source before it overwrites it. Both functions choose a right direction
(`memmove_moved`).
-/

namespace Xv6.Str

/-- A pointer, which wraps at the end of the address space. -/
abbrev Addr := BitVec 64

/-- The bytes at all addresses. -/
abbrev Mem := Addr → UInt8

namespace Mem

/-- The memory `m` with the `n` bytes at `dst` replaced by those at `src`. -/
def moved (m : Mem) (dst src : Addr) (n : ℕ) : Mem := fun a =>
  if dst.toNat ≤ a.toNat ∧ a.toNat < dst.toNat + n then m (src + (a - dst)) else m a

/-- The loop `while(n-- > 0) *d++ = *s++`. -/
def copyUp : ℕ → Addr → Addr → Mem → Mem
  | 0, _, _, m => m
  | n + 1, d, s, m => copyUp n (d + 1) (s + 1) (Function.update m d (m s))

/-- The loop `while(n-- > 0) *--d = *--s`. -/
def copyDown : ℕ → Addr → Addr → Mem → Mem
  | 0, _, _, m => m
  | n + 1, d, s, m => copyDown n (d - 1) (s - 1) (Function.update m (d - 1) (m (s - 1)))

/-- `memmove` of the kernel, where `n` is a `uint`. -/
def memmove (dst src : Addr) (n : BitVec 32) (m : Mem) : Addr × Mem :=
  if n = 0 then (dst, m)
  else
    let s := src
    let d := dst
    if s < d ∧ s + n.setWidth 64 > d then
      (dst, copyDown n.toNat (d + n.setWidth 64) (s + n.setWidth 64) m)
    else (dst, copyUp n.toNat d s m)

end Mem

end Xv6.Str

namespace Xv6.Ulib

open Str

/-- `memmove` of the user library, where `n` is an `int`. -/
def memmove (vdst vsrc : Addr) (n : BitVec 32) (m : Mem) : Addr × Mem :=
  let dst := vdst
  let src := vsrc
  if src > dst then (vdst, m.copyUp n.toInt.toNat dst src)
  else (vdst, m.copyDown n.toInt.toNat (dst + n.signExtend 64) (src + n.signExtend 64))

end Xv6.Ulib

namespace Xv6.Str.Mem

variable {m : Mem} {d s : Addr} {n : ℕ}

theorem moved_zero : m.moved d s 0 = m := by
  funext a
  rw [moved, if_neg (by omega)]

/-- An upward copy, of a source into which the destination does not start. -/
theorem copyUp_eq (hd : d.toNat + n ≤ 2 ^ 64) (hs : s.toNat + n ≤ 2 ^ 64)
    (h : ¬(s.toNat < d.toNat ∧ d.toNat < s.toNat + n)) : m.copyUp n d s = m.moved d s n := by
  induction n generalizing m d s with
  | zero => rw [copyUp, moved_zero]
  | succ n ih =>
    have hd1 : (d + 1).toNat = (d.toNat + 1) % 2 ^ 64 := BitVec.toNat_add ..
    have hs1 : (s + 1).toNat = (s.toNat + 1) % 2 ^ 64 := BitVec.toNat_add ..
    rw [copyUp, ih (by omega) (by omega) (by omega)]
    funext a
    have hoff : s + 1 + (a - (d + 1)) = s + (a - d) := by ring
    by_cases ha : a = d
    · -- The byte of this iteration, which the rest of the loop does not touch.
      subst ha
      rw [moved, if_neg (by omega), Function.update_self, moved, if_pos (by omega), sub_self,
        add_zero]
    · have hne : a.toNat ≠ d.toNat := fun h => ha (BitVec.eq_of_toNat_eq h)
      by_cases hin : d.toNat ≤ a.toNat ∧ a.toNat < d.toNat + (n + 1)
      · -- A source byte that is still to be read, and is not the one written here.
        have hsub : (a - d).toNat = a.toNat - d.toNat := BitVec.toNat_sub_of_le hin.1
        have hadd : (s + (a - d)).toNat = s.toNat + (a.toNat - d.toNat) := by
          rw [BitVec.toNat_add, hsub, Nat.mod_eq_of_lt (by omega)]
        have hread : s + (a - d) ≠ d := fun h => by
          rw [h] at hadd
          omega
        rw [moved, if_pos (by omega), hoff, Function.update_of_ne hread, moved, if_pos hin]
      · rw [moved, if_neg (by omega), Function.update_of_ne ha, moved, if_neg hin]

/-- A downward copy, to a destination into which the source does not start. -/
theorem copyDown_eq (hd : d.toNat + n ≤ 2 ^ 64) (hs : s.toNat + n ≤ 2 ^ 64)
    (h : ¬(d.toNat < s.toNat ∧ s.toNat < d.toNat + n)) :
    m.copyDown n (d + BitVec.ofNat 64 n) (s + BitVec.ofNat 64 n) = m.moved d s n := by
  induction n generalizing m with
  | zero => rw [copyDown, moved_zero]
  | succ n ih =>
    have hpred : ∀ x : Addr, x + BitVec.ofNat 64 (n + 1) - 1 = x + BitVec.ofNat 64 n := fun x => by
      rw [BitVec.ofNat_add, ← add_assoc]
      exact add_sub_cancel_right _ _
    have hlast : ∀ x : Addr, x.toNat + (n + 1) ≤ 2 ^ 64 →
        (x + BitVec.ofNat 64 n).toNat = x.toNat + n := fun x hx => by
      rw [BitVec.toNat_add, BitVec.toNat_ofNat, Nat.mod_eq_of_lt (by omega : n < 2 ^ 64),
        Nat.mod_eq_of_lt (by omega)]
    have hdn := hlast d hd
    have hsn := hlast s hs
    rw [copyDown, hpred, hpred, ih (by omega) (by omega) (by omega)]
    funext a
    by_cases ha : a = d + BitVec.ofNat 64 n
    · subst ha
      have hoff : s + (d + BitVec.ofNat 64 n - d) = s + BitVec.ofNat 64 n := by ring
      rw [moved, if_neg (by omega), Function.update_self, moved, if_pos (by omega), hoff]
    · have hne : a.toNat ≠ (d + BitVec.ofNat 64 n).toNat := fun h => ha (BitVec.eq_of_toNat_eq h)
      by_cases hin : d.toNat ≤ a.toNat ∧ a.toNat < d.toNat + n
      · have hsub : (a - d).toNat = a.toNat - d.toNat := BitVec.toNat_sub_of_le hin.1
        have hadd : (s + (a - d)).toNat = s.toNat + (a.toNat - d.toNat) := by
          rw [BitVec.toNat_add, hsub, Nat.mod_eq_of_lt (by omega)]
        have hread : s + (a - d) ≠ d + BitVec.ofNat 64 n := fun h => by
          rw [h, hdn] at hadd
          omega
        rw [moved, if_pos hin, Function.update_of_ne hread, moved, if_pos (by omega)]
      · rw [moved, if_neg hin, Function.update_of_ne ha, moved, if_neg (by omega)]

theorem memmove_eq (m : Mem) {dst src : Addr} {n : BitVec 32}
    (hd : dst.toNat + n.toNat ≤ 2 ^ 64) (hs : src.toNat + n.toNat ≤ 2 ^ 64) :
    memmove dst src n m = (dst, m.moved dst src n.toNat) := by
  have hzero : n.setWidth 64 = BitVec.ofNat 64 n.toNat := by
    apply BitVec.eq_of_toNat_eq
    rw [BitVec.toNat_setWidth, BitVec.toNat_ofNat]
  rw [memmove]
  dsimp only
  split_ifs with h0 h
  · subst h0
    exact congrArg _ moved_zero.symm
  · -- The source starts below the destination: its end does not wrap.
    rw [hzero, copyDown_eq hd hs fun h' => (BitVec.lt_def.1 h.1).not_gt h'.1]
  · refine congrArg _ (copyUp_eq hd hs fun h' => h ⟨BitVec.lt_def.2 h'.1, ?_⟩)
    rw [hzero, gt_iff_lt, BitVec.lt_def, BitVec.toNat_add, BitVec.toNat_ofNat,
      Nat.mod_eq_of_lt (by omega : n.toNat < 2 ^ 64), Nat.mod_eq_of_lt (by omega)]
    exact h'.2

theorem ulib_memmove_eq (m : Mem) {dst src : Addr} {n : BitVec 32} (hn : n.toNat < 2 ^ 31)
    (hd : dst.toNat + n.toNat ≤ 2 ^ 64) (hs : src.toNat + n.toNat ≤ 2 ^ 64) :
    Ulib.memmove dst src n m = (dst, m.moved dst src n.toNat) := by
  have hint : n.toInt = n.toNat := BitVec.toInt_eq_toNat_of_lt (by omega)
  have hsign : n.signExtend 64 = BitVec.ofNat 64 n.toNat := by
    rw [BitVec.signExtend, hint, BitVec.ofInt_natCast]
  rw [Ulib.memmove, hint, Int.toNat_natCast, hsign]
  split_ifs with h
  · rw [copyUp_eq hd hs fun h' => (BitVec.lt_def.1 h).not_gt h'.1]
  · rw [copyDown_eq hd hs fun h' => h (BitVec.lt_def.2 h'.1)]

/-- `memmove` replaces the destination by the source, however they overlap. -/
theorem memmove_moved (m : Mem) (dst src : Addr) (n : BitVec 32) (hn : n.toNat < 2 ^ 31)
    (hd : dst.toNat + n.toNat ≤ 2 ^ 64) (hs : src.toNat + n.toNat ≤ 2 ^ 64) :
    memmove dst src n m = (dst, m.moved dst src n.toNat) ∧
      Ulib.memmove dst src n m = (dst, m.moved dst src n.toNat) :=
  ⟨memmove_eq m hd hs, ulib_memmove_eq m hn hd hs⟩

/-- Four bytes are moved by two, up and down. -/
theorem memmove_moved_overlap :
    memmove 4098 4096 4 (fun a => UInt8.ofNat a.toNat) =
        (4098, moved (fun a => UInt8.ofNat a.toNat) 4098 4096 4) ∧
      Ulib.memmove 4096 4098 4 (fun a => UInt8.ofNat a.toNat) =
        (4096, moved (fun a => UInt8.ofNat a.toNat) 4096 4098 4) :=
  ⟨(memmove_moved _ 4098 4096 4 (by decide) (by decide) (by decide)).1,
    (memmove_moved _ 4096 4098 4 (by decide) (by decide) (by decide)).2⟩

end Xv6.Str.Mem
