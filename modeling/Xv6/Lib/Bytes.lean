import Mathlib

/-!
# Byte arrays

The blocks of a disk and the pages of a memory are arrays of bytes, in which
the code overlays little-endian integers. An array of `n` bytes is a function
on `Fin n`; `Bytes.read` and `Bytes.write` move a range of bytes out of it and
into it (a `memmove`), and `Bytes.getLE` and `Bytes.putLE` access an integer of
`w` bytes at an offset.

Reading back what was written gives it back (`read_write_self`,
`getLE_putLE_self`), and a write does not change what is read from a disjoint
range (`read_write_disjoint`, `getLE_write_disjoint`).
-/

namespace Xv6

/-- The little-endian encoding of `v` in `w` bytes. -/
def le : ℕ → ℕ → List UInt8
  | 0, _ => []
  | w + 1, v => UInt8.ofNat v :: le w (v / 256)

/-- The number a list of bytes encodes, little-endian. -/
def ofLe : List UInt8 → ℕ
  | [] => 0
  | d :: ds => d.toNat + 256 * ofLe ds

@[simp] theorem length_le (w v : ℕ) : (le w v).length = w := by
  induction w generalizing v with
  | zero => rfl
  | succ w ih => simp [le, ih]

/-- Decoding an encoding gives the value back, modulo the width. -/
theorem ofLe_le (w v : ℕ) : ofLe (le w v) = v % 256 ^ w := by
  induction w generalizing v with
  | zero => simp [le, ofLe, Nat.mod_one]
  | succ w ih =>
    have hd : (UInt8.ofNat v).toNat = v % 256 := by simp
    rw [le, ofLe, ih, hd, Nat.pow_succ', Nat.mod_mul]

/-- A list of `w` bytes encodes a number of `w` bytes. -/
theorem ofLe_lt (l : List UInt8) : ofLe l < 256 ^ l.length := by
  induction l with
  | nil => simp [ofLe]
  | cons d ds ih =>
    have := d.toNat_lt
    rw [ofLe, List.length_cons, Nat.pow_succ]
    omega

/-- An array of `n` bytes. -/
abbrev Bytes (n : ℕ) := Fin n → UInt8

namespace Bytes

variable {n : ℕ}

/-- The array filled with the byte `v`: a `memset`. -/
def fill (v : UInt8) : Bytes n := fun _ => v

/-- The byte at offset `k`. -/
def get (b : Bytes n) (k : ℕ) : UInt8 := if h : k < n then b ⟨k, h⟩ else 0

/-- The `len` bytes from the offset `off` on. -/
def read (b : Bytes n) (off len : ℕ) : List UInt8 :=
  (List.range len).map fun i => b.get (off + i)

/-- The array with the bytes `src` moved to the offset `off`. -/
def write (b : Bytes n) (off : ℕ) (src : List UInt8) : Bytes n :=
  fun k => if off ≤ k.1 ∧ k.1 < off + src.length then src.getD (k.1 - off) 0 else b k

/-- The integer of `w` bytes at the offset `off`. -/
def getLE (b : Bytes n) (w off : ℕ) : ℕ := ofLe (b.read off w)

/-- The array with the integer `v` stored in `w` bytes at the offset `off`. -/
def putLE (b : Bytes n) (w off v : ℕ) : Bytes n := b.write off (le w v)

@[simp] theorem length_read (b : Bytes n) (off len : ℕ) : (b.read off len).length = len := by
  simp [read]

theorem get_of_lt (b : Bytes n) {k : ℕ} (h : k < n) : b.get k = b ⟨k, h⟩ := by
  simp [get, h]

theorem get_write (b : Bytes n) (off : ℕ) (src : List UInt8) {k : ℕ} (hk : k < n) :
    (b.write off src).get k =
      if off ≤ k ∧ k < off + src.length then src.getD (k - off) 0 else b.get k := by
  simp [get, hk, write]

/-- Bytes outside the range written keep their value. -/
theorem get_write_of_not_mem (b : Bytes n) {off k : ℕ} {src : List UInt8}
    (h : k < off ∨ off + src.length ≤ k) : (b.write off src).get k = b.get k := by
  by_cases hk : k < n
  · rw [get_write b off src hk, if_neg (by omega)]
  · simp [get, hk]

/-- What was written is read back. -/
theorem read_write_self (b : Bytes n) {off : ℕ} {src : List UInt8} (h : off + src.length ≤ n) :
    (b.write off src).read off src.length = src := by
  apply List.ext_getElem (by simp)
  intro i hi₁ hi₂
  simp only [read, List.getElem_map, List.getElem_range]
  rw [get_write _ _ _ (by omega), if_pos (by omega), Nat.add_sub_cancel_left]
  simp [List.getD_eq_getElem?_getD, hi₂]

/-- A write does not change what is read from a range disjoint from it. -/
theorem read_write_disjoint (b : Bytes n) {off off' len : ℕ} {src : List UInt8}
    (h : off' + len ≤ off ∨ off + src.length ≤ off') :
    (b.write off src).read off' len = b.read off' len := by
  apply List.map_congr_left
  intro i hi
  rw [List.mem_range] at hi
  exact get_write_of_not_mem b (by omega)

/-- An integer is read back as it was stored, modulo the width. -/
theorem getLE_putLE_self (b : Bytes n) {w off : ℕ} (v : ℕ) (h : off + w ≤ n) :
    (b.putLE w off v).getLE w off = v % 256 ^ w := by
  have hw : (b.write off (le w v)).read off (le w v).length = le w v :=
    read_write_self b (by simpa using h)
  rw [length_le] at hw
  rw [getLE, putLE, hw, ofLe_le]

/-- A write does not change an integer stored outside its range. -/
theorem getLE_write_disjoint (b : Bytes n) {w off off' : ℕ} {src : List UInt8}
    (h : off' + w ≤ off ∨ off + src.length ≤ off') :
    (b.write off src).getLE w off' = b.getLE w off' := by
  rw [getLE, read_write_disjoint b h, getLE]

/-- Storing an integer does not change one stored outside its range. -/
theorem getLE_putLE_disjoint (b : Bytes n) {w w' off off' : ℕ} (v : ℕ)
    (h : off' + w' ≤ off ∨ off + w ≤ off') : (b.putLE w off v).getLE w' off' = b.getLE w' off' :=
  getLE_write_disjoint b (by simpa using h)

/-- An integer of `w` bytes is below `256 ^ w`. -/
theorem getLE_lt (b : Bytes n) (w off : ℕ) : b.getLE w off < 256 ^ w := by
  have := ofLe_lt (b.read off w)
  rwa [length_read] at this

end Bytes

end Xv6
