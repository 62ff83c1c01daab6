import Mathlib
import Xv6.Lib.Bytes

/-!
# Page table entries

Addresses, pages and page table entries (`riscv.h`, `memlayout.h`). Addresses and
entries are numbers below `2 ^ 64`; physical memory is given page by page, by the
addresses of the pages. A page of a page table holds `512` entries of 8 bytes.

An entry made from the address of a page and flags gives them back (`pteAddr_mkPte`,
`testBit_mkPte`), and an entry is read back as it was stored (`Mem.pte_setPte_self`).
-/

namespace Xv6

/-- The `int` of the low 32 bits of a number. -/
def toInt (x : ℕ) : ℤ := (BitVec.ofNat 32 x).toInt

theorem toInt_of_lt {n : ℕ} (h : n < 2 ^ 31) : toInt n = n := by
  have hn : (BitVec.ofNat 32 n).toNat = n := by
    rw [BitVec.toNat_ofNat, Nat.mod_eq_of_lt (by omega)]
  rw [toInt, BitVec.toInt_eq_toNat_of_lt (by omega), hn]

/-- A number that is no `int` becomes a smaller one. -/
theorem toInt_lt_of_le {n : ℕ} (h : 2 ^ 31 ≤ n) : toInt n < n := by
  rw [toInt, BitVec.toInt_eq_toNat_cond, BitVec.toNat_ofNat]
  split_ifs <;> omega

/-- `x + n` on 64 bits, for an `int` `n`. -/
def addInt (x : ℕ) (n : ℤ) : ℕ := ((x + n) % 2 ^ 64).toNat

/-- `PGSIZE`. -/
abbrev pgsize : ℕ := 4096

/-- `PGROUNDUP`, on 64 bits. -/
def pgRoundUp (x : ℕ) : ℕ := (x + (pgsize - 1)) % 2 ^ 64 / pgsize * pgsize

/-- `PGROUNDDOWN`. -/
def pgRoundDown (x : ℕ) : ℕ := x / pgsize * pgsize

/-- `MAXVA`. -/
abbrev maxVa : ℕ := 2 ^ 38

/-- `TRAMPOLINE`. -/
abbrev trampolineVa : ℕ := maxVa - pgsize

/-- `TRAPFRAME`. -/
abbrev trapframeVa : ℕ := trampolineVa - pgsize

/-- `PHYSTOP`. -/
abbrev physTop : ℕ := 0x80000000 + 128 * 1024 * 1024

/-- `PX`: the index of an address in a page of the page table at a level. -/
def px (level va : ℕ) : ℕ := va >>> (12 + 9 * level) % 512

/-! ## Entries -/

/-- `PTE_V`: the entry is valid. -/
def pteV (pte : ℕ) : Bool := pte.testBit 0

/-- `PTE_R`. -/
def pteR (pte : ℕ) : Bool := pte.testBit 1

/-- `PTE_W`. -/
def pteW (pte : ℕ) : Bool := pte.testBit 2

/-- `PTE_X`. -/
def pteX (pte : ℕ) : Bool := pte.testBit 3

/-- `PTE_U`: the user can access the page. -/
def pteU (pte : ℕ) : Bool := pte.testBit 4

/-- The entry maps a page, rather than pointing to a page of the page table. -/
def pteLeaf (pte : ℕ) : Bool := pteR pte || pteW pte || pteX pte

/-- The flags, as numbers. -/
abbrev permR : ℕ := 2
@[inherit_doc permR] abbrev permW : ℕ := 4
@[inherit_doc permR] abbrev permX : ℕ := 8
@[inherit_doc permR] abbrev permU : ℕ := 16

/-- `PA2PTE(pa) | perm | PTE_V`. -/
def mkPte (pa perm : ℕ) : ℕ := (pa >>> 12) <<< 10 ||| perm ||| 1

/-- `PTE2PA`. -/
def pteAddr (pte : ℕ) : ℕ := (pte >>> 10) <<< 12 % 2 ^ 64

/-- `PTE_FLAGS`. -/
def pteFlags (pte : ℕ) : ℕ := pte % 1024

/-- `pte & ~PTE_U`. -/
def clearU (pte : ℕ) : ℕ := pte &&& (2 ^ 64 - 1 - permU)

/-- The address of a page of physical memory. -/
structure PageAddr (a : ℕ) : Prop where
  aligned : a % pgsize = 0
  pos : 0 < a
  lt : a < 2 ^ 56

theorem mkPte_lt {pa perm : ℕ} (ha : pa < 2 ^ 64) (hp : perm < 1024) : mkPte pa perm < 2 ^ 64 := by
  have h₁ : (pa >>> 12) <<< 10 < 2 ^ 64 := by
    rw [Nat.shiftRight_eq_div_pow, Nat.shiftLeft_eq]
    omega
  exact Nat.or_lt_two_pow (Nat.or_lt_two_pow h₁ (by omega)) (by omega)

/-- The flags of an entry. -/
theorem testBit_mkPte {pa perm k : ℕ} (hk : k < 10) :
    (mkPte pa perm).testBit k = (perm.testBit k || decide (k = 0)) := by
  have h₁ : Nat.testBit 1 k = decide (k = 0) := by
    rw [Bool.eq_iff_iff, Nat.testBit_one_eq_true_iff_self_eq_zero, decide_eq_true_iff]
  rw [mkPte, Nat.testBit_or, Nat.testBit_or, Nat.testBit_shiftLeft, h₁]
  simp [show ¬10 ≤ k by omega]

@[simp] theorem pteV_mkPte (pa perm : ℕ) : pteV (mkPte pa perm) = true := by
  rw [pteV, testBit_mkPte (by omega)]
  simp

theorem pteLeaf_mkPte (pa perm : ℕ) : pteLeaf (mkPte pa perm) = pteLeaf perm := by
  simp [pteLeaf, pteR, pteW, pteX, testBit_mkPte]

theorem pteR_mkPte (pa perm : ℕ) : pteR (mkPte pa perm) = pteR perm := by
  simp [pteR, testBit_mkPte]

theorem pteW_mkPte (pa perm : ℕ) : pteW (mkPte pa perm) = pteW perm := by
  simp [pteW, testBit_mkPte]

theorem pteX_mkPte (pa perm : ℕ) : pteX (mkPte pa perm) = pteX perm := by
  simp [pteX, testBit_mkPte]

theorem pteU_mkPte (pa perm : ℕ) : pteU (mkPte pa perm) = pteU perm := by
  simp [pteU, testBit_mkPte]

theorem pteR_or (p q : ℕ) : pteR (p ||| q) = (pteR p || pteR q) := Nat.testBit_or p q 1

theorem pteW_or (p q : ℕ) : pteW (p ||| q) = (pteW p || pteW q) := Nat.testBit_or p q 2

theorem pteX_or (p q : ℕ) : pteX (p ||| q) = (pteX p || pteX q) := Nat.testBit_or p q 3

theorem pteU_or (p q : ℕ) : pteU (p ||| q) = (pteU p || pteU q) := Nat.testBit_or p q 4

theorem pteFlags_lt (pte : ℕ) : pteFlags pte < 1024 := Nat.mod_lt _ (by omega)

theorem testBit_pteFlags {pte k : ℕ} (hk : k < 10) : (pteFlags pte).testBit k = pte.testBit k := by
  rw [pteFlags, show 1024 = 2 ^ 10 by norm_num, Nat.testBit_mod_two_pow]
  simp [hk]

theorem pteR_pteFlags (pte : ℕ) : pteR (pteFlags pte) = pteR pte := testBit_pteFlags (by omega)

theorem pteU_pteFlags (pte : ℕ) : pteU (pteFlags pte) = pteU pte := testBit_pteFlags (by omega)

/-- The address of an entry: `PTE2PA` undoes `PA2PTE`. -/
theorem pteAddr_mkPte_of_aligned {pa perm : ℕ} (h : pa % pgsize = 0) (hlt : pa < 2 ^ 64)
    (hp : perm < 1024) : pteAddr (mkPte pa perm) = pa := by
  have hz : (perm ||| 1) >>> 10 = 0 := by
    rw [Nat.shiftRight_eq_div_pow]
    exact Nat.div_eq_of_lt (Nat.or_lt_two_pow (n := 10) hp (by omega))
  rw [pteAddr, mkPte, Nat.or_assoc, Nat.shiftRight_or_distrib, Nat.shiftLeft_shiftRight, hz,
    Nat.or_zero, Nat.shiftRight_eq_div_pow, Nat.shiftLeft_eq]
  simp only [pgsize] at h
  omega

theorem pteAddr_mkPte {pa perm : ℕ} (ha : PageAddr pa) (hp : perm < 1024) :
    pteAddr (mkPte pa perm) = pa :=
  pteAddr_mkPte_of_aligned ha.aligned (ha.lt.trans (by norm_num)) hp

/-- The flags of an entry, as a number. -/
theorem pteFlags_mkPte {pa perm : ℕ} (hp : perm < 1024) :
    pteFlags (mkPte pa perm) = perm ||| 1 := by
  have h₁ : (perm ||| 1) < 1024 := Nat.or_lt_two_pow (n := 10) hp (by omega)
  rw [pteFlags, mkPte, Nat.or_assoc, show 1024 = 2 ^ 10 by norm_num, Nat.or_mod_two_pow,
    Nat.shiftLeft_eq, Nat.mul_mod_left, Nat.zero_or, Nat.mod_eq_of_lt h₁]

@[simp] theorem pteV_zero : pteV 0 = false := by simp [pteV]

@[simp] theorem pteLeaf_zero : pteLeaf 0 = false := by simp [pteLeaf, pteR, pteW, pteX]

theorem clearU_lt {pte : ℕ} (h : pte < 2 ^ 64) : clearU pte < 2 ^ 64 :=
  Nat.lt_of_le_of_lt Nat.and_le_left h

/-- Clearing `PTE_U` keeps the other flags. -/
theorem testBit_clearU {pte k : ℕ} (hk : k < 10) (hne : k ≠ 4) :
    (clearU pte).testBit k = pte.testBit k := by
  have h : (2 ^ 64 - 1 - permU).testBit k = true := by
    interval_cases k <;> first | rfl | omega
  rw [clearU, Nat.testBit_and, h, Bool.and_true]

theorem pteV_clearU (pte : ℕ) : pteV (clearU pte) = pteV pte :=
  testBit_clearU (by omega) (by omega)

theorem pteR_clearU (pte : ℕ) : pteR (clearU pte) = pteR pte :=
  testBit_clearU (by omega) (by omega)

theorem pteU_clearU (e : ℕ) : pteU (clearU e) = false := by
  have h : (2 ^ 64 - 1 - permU).testBit 4 = false := by decide
  rw [pteU, clearU, Nat.testBit_and, h, Bool.and_false]

/-- And the address. -/
theorem pteAddr_clearU {pte : ℕ} (h : pte < 2 ^ 64) : pteAddr (clearU pte) = pteAddr pte := by
  have hc : clearU pte >>> 10 = pte >>> 10 := by
    rw [clearU, Nat.shiftRight_and_distrib]
    exact Nat.and_two_pow_sub_one_of_lt_two_pow (n := 54)
      (by rw [Nat.shiftRight_eq_div_pow]; omega)
  rw [pteAddr, hc, pteAddr]

/-! ## Physical memory -/

/-- The contents of a page. -/
abbrev Page := Bytes pgsize

/-- Physical memory: the contents of each page, by its address. -/
abbrev Mem := ℕ → Page

/-- The entry `i` of the page `a` of a page table. -/
def Mem.pte (m : Mem) (a i : ℕ) : ℕ := (m a).getLE 8 (8 * i)

/-- Storing the entry `i` of the page `a`. -/
def Mem.setPte (m : Mem) (a i v : ℕ) : Mem :=
  Function.update m a ((m a).putLE 8 (8 * i) v)

namespace Mem

variable {m m' : Mem} {a b i j v : ℕ}

theorem pte_lt (m : Mem) (a i : ℕ) : m.pte a i < 2 ^ 64 := by
  have := Bytes.getLE_lt (m a) 8 (8 * i)
  rwa [show 256 ^ 8 = 2 ^ 64 by norm_num] at this

theorem pte_setPte_self (hi : i < 512) (hv : v < 2 ^ 64) : (m.setPte a i v).pte a i = v := by
  rw [pte, setPte, Function.update_self, Bytes.getLE_putLE_self _ _ (by simp only [pgsize]; omega),
    show 256 ^ 8 = 2 ^ 64 by norm_num, Nat.mod_eq_of_lt hv]

theorem pte_setPte_of_ne (h : j ≠ i) : (m.setPte a i v).pte a j = m.pte a j := by
  rw [pte, setPte, Function.update_self, Bytes.getLE_putLE_disjoint _ _ (by omega), pte]

theorem setPte_of_ne (h : b ≠ a) : m.setPte a i v b = m b := Function.update_of_ne h _ _

theorem pte_congr (h : m' a = m a) (i : ℕ) : m'.pte a i = m.pte a i := by rw [pte, h, pte]

/-- A page of zeros holds no valid entry. -/
theorem pte_of_fill_zero (h : m a = .fill 0) (i : ℕ) : m.pte a i = 0 := by
  rw [pte, h]
  simp [Bytes.getLE, Bytes.read, Bytes.get, Bytes.fill, List.range_succ, ofLe]

end Mem

-- Entries are used through the lemmas above only.
attribute [irreducible] Mem.pte Mem.setPte mkPte pteAddr pteFlags clearU pteV pteR pteW pteX pteU
  pteLeaf

end Xv6
