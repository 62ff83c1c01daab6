import Xv6.Lib.Bytes

/-!
# Bitmaps

An array of bytes overlaid with bits: bit `i` is bit `i % 8` of byte `i / 8`. The code tests,
sets and clears a bit with a mask.

Setting or clearing a bit changes this bit only (`bit_setBit`, `bit_clearBit`).
-/

namespace Xv6

/-- The mask of a bit in its byte. -/
def bitMask (i : ℕ) : UInt8 := 1 <<< UInt8.ofNat (i % 8)

theorem toNat_bitMask (i : ℕ) : (bitMask i).toNat = 2 ^ (i % 8) := by
  have hi : i % 8 < 8 := Nat.mod_lt _ (by decide)
  have hpow : 2 ^ (i % 8) < 2 ^ 8 := Nat.pow_lt_pow_right (by decide) hi
  rw [bitMask, UInt8.toNat_shiftLeft, UInt8.toNat_ofNat']
  rw [Nat.mod_eq_of_lt (a := i % 8) (b := 2 ^ 8) (by omega), Nat.mod_eq_of_lt hi]
  rw [UInt8.toNat_one, Nat.one_shiftLeft, Nat.mod_eq_of_lt hpow]

/-- A mask selects its bit. -/
theorem and_bitMask_ne_zero (x : UInt8) (i : ℕ) :
    x &&& bitMask i ≠ 0 ↔ x.toNat.testBit (i % 8) = true := by
  rw [Ne, ← UInt8.toNat_inj, UInt8.toNat_and, toNat_bitMask, Nat.and_two_pow]
  cases x.toNat.testBit (i % 8) <;> simp

namespace Bytes

variable {n : ℕ} (b : Bytes n) {i j : ℕ}

/-- The bit `i`. -/
def bit (i : ℕ) : Bool := b.get (i / 8) &&& bitMask i ≠ 0

/-- The array with the bit `i` set. -/
def setBit (i : ℕ) : Bytes n := b.write (i / 8) [b.get (i / 8) ||| bitMask i]

/-- The array with the bit `i` cleared. -/
def clearBit (i : ℕ) : Bytes n := b.write (i / 8) [b.get (i / 8) &&& ~~~bitMask i]

theorem bit_eq_testBit : b.bit i = (b.get (i / 8)).toNat.testBit (i % 8) := by
  rw [Bool.eq_iff_iff, bit, decide_eq_true_iff, and_bitMask_ne_zero]

/-- A bit of another byte, or of the byte that is written. -/
theorem bit_write_singleton (x : UInt8) (hi : i / 8 < n) :
    (b.write (i / 8) [x]).bit j = if j / 8 = i / 8 then x.toNat.testBit (j % 8) else b.bit j := by
  rw [bit_eq_testBit, bit_eq_testBit]
  split
  next h =>
    rw [h, get_write b _ _ hi, if_pos (by simp)]
    simp
  next h =>
    rw [get_write_of_not_mem]
    simp only [List.length_singleton]
    omega

/-- Setting a bit. -/
theorem bit_setBit (hi : i / 8 < n) : (b.setBit i).bit j = if j = i then true else b.bit j := by
  rw [setBit, bit_write_singleton b _ hi]
  split
  next h =>
    rw [UInt8.toNat_or, Nat.testBit_or, toNat_bitMask, Nat.testBit_two_pow]
    by_cases hij : j = i
    · simp [hij]
    · rw [if_neg hij, bit_eq_testBit, h]
      have hne : i % 8 ≠ j % 8 := by omega
      simp [hne]
  next h => rw [if_neg fun hij => h (by rw [hij])]

/-- Clearing a bit. -/
theorem bit_clearBit (hi : i / 8 < n) : (b.clearBit i).bit j = if j = i then false else b.bit j := by
  have hj8 : j % 8 < 8 := Nat.mod_lt _ (by decide)
  rw [clearBit, bit_write_singleton b _ hi]
  split
  next h =>
    rw [UInt8.toNat_and, Nat.testBit_and, UInt8.toNat_not, toNat_bitMask]
    have hcompl : (UInt8.size - 1 - 2 ^ (i % 8)).testBit (j % 8) = !decide (i % 8 = j % 8) := by
      have hsub : UInt8.size - 1 - 2 ^ (i % 8) = 2 ^ 8 - (2 ^ (i % 8) + 1) := by
        change 256 - 1 - 2 ^ (i % 8) = 256 - (2 ^ (i % 8) + 1)
        omega
      rw [hsub, Nat.testBit_two_pow_sub_succ (Nat.pow_lt_pow_right (by decide)
        (Nat.mod_lt _ (by decide))), Nat.testBit_two_pow]
      simp [hj8]
    rw [hcompl]
    by_cases hij : j = i
    · simp [hij]
    · rw [if_neg hij, bit_eq_testBit, h]
      have hne : i % 8 ≠ j % 8 := by omega
      simp [hne]
  next h => rw [if_neg fun hij => h (by rw [hij])]

@[simp] theorem bit_fill_zero : (fill 0 : Bytes n).bit i = false := by
  rw [bit_eq_testBit]
  unfold get fill
  split <;> simp

end Bytes

end Xv6
