import Mathlib

/-!
# Printing integers

`printint` of the kernel (`printf.c`) and of the user library (`printf.c` there). Both write the
digits of a number to a buffer of 20 bytes, the lowest first, then a sign, and print the buffer
backwards. They differ only in the digits above nine. A store outside of the buffer and a digit
that does not exist are errors, so that a run that ends with a text has made neither.

What is printed is the numeral of `Nat.digits` (`printint_numeral`); the longest ones, of the
largest unsigned number and of the most negative one, just fit.
-/

namespace Xv6

namespace Print

/-- `sizeof(buf)`. -/
def bufSize : ℕ := 20

/-- The store `buf[i++] = c`, where `i` is the number of bytes stored so far. -/
def store (buf : List Char) (c : Char) : Option (List Char) :=
  if buf.length < bufSize then some (buf ++ [c]) else none

/-- The loop that stores the digits of `x`. The fuel is more than fits into the buffer. -/
def storeDigits (digits : List Char) (base : BitVec 64) :
    ℕ → BitVec 64 → List Char → Option (List Char)
  | 0, _, _ => none
  | fuel + 1, x, buf => do
    let c ← digits[(x % base).toNat]?
    let buf ← store buf c
    let x := x / base
    if x ≠ 0 then storeDigits digits base fuel x buf else some buf

/-- The loop `while(--i >= 0)` that prints the buffer from its end. -/
def putBack (buf : List Char) : ℕ → Option (List Char)
  | 0 => some []
  | i + 1 => do
    let c ← buf[i]?
    let cs ← putBack buf i
    some (c :: cs)

/-- What the two functions do, up to their digits. -/
def printintWith (digits : List Char) (xx : BitVec 64) (base : BitVec 32) (sign : Bool) :
    Option (List Char) := do
  let neg := sign && xx.slt 0
  let x := if neg then -xx else xx
  let buf ← storeDigits digits (base.signExtend 64) (bufSize + 1) x []
  let buf ← if neg then store buf '-' else some buf
  putBack buf buf.length

/-- `digits` of the kernel. -/
def digits : List Char := "0123456789abcdef".toList

/-- `printint` of the kernel: the text given to `consputc`. -/
def printint (xx : BitVec 64) (base : BitVec 32) (sign : Bool) : Option (List Char) :=
  printintWith digits xx base sign

end Print

namespace Ulib

/-- `digits` of the user library. -/
def digits : List Char := "0123456789ABCDEF".toList

/-- `printint` of the user library: the text given to `putc`. -/
def printint (xx : BitVec 64) (base : BitVec 32) (sgn : Bool) : Option (List Char) :=
  Print.printintWith digits xx base sgn

end Ulib

namespace Print

/-- `ds` is the numeral of `v`, the highest digit first: it has no leading zeros. -/
structure IsNumeral (base v : ℕ) (ds : List ℕ) : Prop where
  lt : ∀ d ∈ ds, d < base
  ne_nil : ds ≠ []
  head : ds.head? = some 0 → ds = [0]
  value : Nat.ofDigits base ds.reverse = v

/-- The digits of `v` in the order in which they are stored. -/
def lowFirst (base v : ℕ) : List ℕ := if v = 0 then [0] else Nat.digits base v

/-- A text with the sign of `v`. -/
def signed (v : ℤ) (text : List Char) : List Char := if v < 0 then '-' :: text else text

variable {b v : ℕ}

theorem lowFirst_ne_nil : lowFirst b v ≠ [] := by
  rw [lowFirst]
  split_ifs with h
  · exact List.cons_ne_nil _ _
  · exact Nat.digits_ne_nil_iff_ne_zero.2 h

theorem lowFirst_lt (hb : 1 < b) {d : ℕ} (hd : d ∈ lowFirst b v) : d < b := by
  rw [lowFirst] at hd
  split_ifs at hd with h
  · rw [List.mem_singleton.1 hd]
    omega
  · exact Nat.digits_lt_base hb hd

/-- One iteration of the loop stores the lowest digit. -/
theorem lowFirst_eq (hb : 1 < b) :
    lowFirst b v = v % b :: if v / b = 0 then [] else lowFirst b (v / b) := by
  rcases Nat.eq_zero_or_pos v with rfl | hv
  · rw [Nat.zero_div, if_pos rfl, lowFirst, if_pos rfl, Nat.zero_mod]
  · rw [lowFirst, if_neg hv.ne', Nat.digits_def' hb hv]
    by_cases h : v / b = 0
    · rw [if_pos h, h, Nat.digits_zero]
    · rw [if_neg h, lowFirst, if_neg h]

theorem length_lowFirst_le (hb : 1 < b) {k : ℕ} (hk : 0 < k) (h : v < b ^ k) :
    (lowFirst b v).length ≤ k := by
  rw [lowFirst]
  split_ifs
  · exact hk
  · exact (Nat.digits_length_le_iff hb v).2 h

theorem isNumeral_lowFirst (hb : 1 < b) : IsNumeral b v (lowFirst b v).reverse where
  lt d hd := lowFirst_lt hb (List.mem_reverse.1 hd)
  ne_nil h := lowFirst_ne_nil (List.reverse_eq_nil_iff.1 h)
  head h := by
    rw [List.head?_reverse] at h
    rw [lowFirst] at h ⊢
    split_ifs at h ⊢ with hv
    · rfl
    · rw [List.getLast?_eq_some_getLast (Nat.digits_ne_nil_iff_ne_zero.2 hv)] at h
      exact absurd (Option.some.inj h) (Nat.getLast_digit_ne_zero b hv)
  value := by
    rw [List.reverse_reverse, lowFirst]
    split_ifs with hv
    · rw [hv, Nat.ofDigits_singleton]
    · exact Nat.ofDigits_digits b v

section Loop

variable {digits : List Char} {base x : BitVec 64} {buf : List Char}

/-- The loop stores the digits of `x`, if they fit. -/
theorem storeDigits_eq (hb : 1 < base.toNat) (hd : base.toNat ≤ digits.length) {fuel : ℕ}
    (hfuel : (lowFirst base.toNat x.toNat).length ≤ fuel)
    (hfit : buf.length + (lowFirst base.toNat x.toNat).length ≤ bufSize) :
    storeDigits digits base fuel x buf =
      some (buf ++ (lowFirst base.toNat x.toNat).map (digits.getD · ' ')) := by
  induction fuel generalizing x buf with
  | zero => exact absurd (List.length_eq_zero_iff.1 (Nat.le_zero.1 hfuel)) lowFirst_ne_nil
  | succ fuel ih =>
    have hlt : (x % base).toNat < digits.length := by
      rw [BitVec.toNat_umod]
      exact (Nat.mod_lt _ (by omega)).trans_le hd
    have hdigit : digits[(x % base).toNat]? = some (digits.getD (x.toNat % base.toNat) ' ') := by
      rw [← BitVec.toNat_umod, List.getD_eq_getElem?_getD, List.getElem?_eq_getElem hlt,
        Option.getD_some]
    have hzero : x / base ≠ 0 ↔ x.toNat / base.toNat ≠ 0 := by
      rw [Ne, Ne, ← BitVec.toNat_udiv, ← BitVec.toNat_inj]
      rfl
    rw [lowFirst_eq hb] at hfuel hfit ⊢
    rw [List.length_cons] at hfuel hfit
    have hstore : ∀ c, store buf c = some (buf ++ [c]) := fun c => if_pos (by omega)
    rw [storeDigits, hdigit, Option.bind_eq_bind, Option.bind_some, hstore, Option.bind_eq_bind,
      Option.bind_some]
    dsimp only
    by_cases h : x.toNat / base.toNat = 0
    · rw [if_neg (fun h' => hzero.1 h' h), if_pos h]
      rfl
    · rw [if_neg h] at hfuel hfit
      have hq : (x / base).toNat = x.toNat / base.toNat := BitVec.toNat_udiv
      rw [if_pos (hzero.2 h), if_neg h, ih (by rw [hq]; omega) (by
        rw [hq, List.length_append, List.length_singleton]
        omega), hq, List.map_cons, List.append_assoc, List.singleton_append]

theorem putBack_eq {i : ℕ} (h : i ≤ buf.length) : putBack buf i = some (buf.take i).reverse := by
  induction i with
  | zero => rfl
  | succ i ih =>
    rw [putBack, List.getElem?_eq_getElem (by omega), Option.bind_eq_bind, Option.bind_some,
      ih (by omega), Option.bind_eq_bind, Option.bind_some, List.take_succ_eq_append_getElem (by omega),
      List.reverse_append, List.reverse_singleton, List.singleton_append]

end Loop

/-- The number that `xx` stands for. -/
def value (xx : BitVec 64) (sign : Bool) : ℤ := if sign then xx.toInt else xx.toNat

theorem value_neg (xx : BitVec 64) (sign : Bool) : value xx sign < 0 ↔ (sign && xx.slt 0) = true := by
  cases sign
  · simp [value]
  · simp [value, BitVec.slt]

/-- The magnitude that `printint` computes is that of its argument, also where the negation
    wraps. -/
theorem toNat_magnitude (xx : BitVec 64) (sign : Bool) :
    (if sign && xx.slt 0 then -xx else xx).toNat = (value xx sign).natAbs := by
  have hlt := xx.isLt
  by_cases h : (sign && xx.slt 0) = true
  · have hneg := (value_neg xx sign).2 h
    rw [Bool.and_eq_true] at h
    rw [value, if_pos h.1, BitVec.toInt_eq_toNat_cond] at hneg ⊢
    rw [h.1, h.2, Bool.and_true, if_pos rfl, BitVec.toNat_neg]
    split_ifs at hneg ⊢ <;> omega
  · have hpos := mt (value_neg xx sign).1 h
    rw [if_neg h]
    cases sign with
    | false => rfl
    | true =>
      rw [value, if_pos rfl, BitVec.toInt_eq_toNat_cond] at hpos ⊢
      split_ifs at hpos ⊢ <;> omega

/-- A numeral and its sign fit into the buffer. -/
theorem length_signed_le (xx : BitVec 64) (sign : Bool) {b : ℕ} (hb : b = 10 ∨ b = 16) :
    (lowFirst b (value xx sign).natAbs).length + (if value xx sign < 0 then 1 else 0) ≤ bufSize := by
  have hlt := xx.isLt
  have hb1 : 1 < b := by omega
  have hpow : 10 ^ 19 ≤ b ^ 19 := Nat.pow_le_pow_left (by omega) 19
  have hpow' : 10 ^ 20 ≤ b ^ 20 := Nat.pow_le_pow_left (by omega) 20
  by_cases h : value xx sign < 0
  · have habs : (value xx sign).natAbs ≤ 2 ^ 63 := by
      have hs := (Bool.and_eq_true _ _ ▸ (value_neg xx sign).1 h).1
      rw [value, if_pos hs, BitVec.toInt_eq_toNat_cond] at h ⊢
      split_ifs at h ⊢ <;> omega
    have hlen : (lowFirst b (value xx sign).natAbs).length ≤ 19 :=
      length_lowFirst_le hb1 (by decide) (by omega)
    rw [if_pos h]
    exact Nat.succ_le_succ hlen
  · have habs : (value xx sign).natAbs < 2 ^ 64 := by
      rw [← toNat_magnitude]
      exact BitVec.isLt _
    rw [if_neg h]
    exact length_lowFirst_le hb1 (by decide) (by
      have : (2 : ℕ) ^ 64 < 10 ^ 20 := by norm_num
      exact habs.trans (this.trans_le hpow'))

theorem printintWith_eq {digits : List Char} (hd : digits.length = 16) (xx : BitVec 64)
    {base : BitVec 32} (hbase : base = 10 ∨ base = 16) (sign : Bool) :
    printintWith digits xx base sign = some (signed (value xx sign)
      ((lowFirst base.toNat (value xx sign).natAbs).reverse.map (digits.getD · ' '))) := by
  have hb : (base.signExtend 64).toNat = base.toNat ∧ (base.toNat = 10 ∨ base.toNat = 16) := by
    rcases hbase with rfl | rfl <;> decide
  have hfit := length_signed_le xx sign hb.2
  have hstored : storeDigits digits (base.signExtend 64) (bufSize + 1)
      (if sign && xx.slt 0 then -xx else xx) [] =
      some ((lowFirst base.toNat (value xx sign).natAbs).map (digits.getD · ' ')) := by
    have h : storeDigits digits (base.signExtend 64) (bufSize + 1)
        (if sign && xx.slt 0 then -xx else xx) [] = _ :=
      storeDigits_eq (by omega) (by omega) (by rw [hb.1, toNat_magnitude]; omega)
        (by rw [hb.1, toNat_magnitude, List.length_nil]; omega)
    rwa [hb.1, toNat_magnitude] at h
  have hput : ∀ buf : List Char, putBack buf buf.length = some buf.reverse := fun buf => by
    rw [putBack_eq le_rfl, List.take_length]
  simp only [printintWith, hstored, signed, Option.bind_eq_bind, Option.bind_some]
  by_cases h : value xx sign < 0
  · rw [if_pos h] at hfit ⊢
    rw [if_pos ((value_neg xx sign).1 h), store, if_pos (by rw [List.length_map]; omega),
      Option.bind_some, hput, List.reverse_append, List.map_reverse, List.reverse_singleton,
      List.singleton_append]
  · rw [if_neg h, if_neg fun h' => h ((value_neg xx sign).2 h'), hput, List.map_reverse]

theorem toUpper_digits : ∀ d < 16, (digits.getD d ' ').toUpper = Ulib.digits.getD d ' ' := by
  decide

/-- Both implementations print the canonical numeral of the number, with its sign, within the
    buffer; they differ in the case of the digits. -/
theorem printint_numeral (xx : BitVec 64) (base : BitVec 32) (hbase : base = 10 ∨ base = 16)
    (sign : Bool) :
    (∃ ds, IsNumeral base.toNat (value xx sign).natAbs ds ∧
      ds.length + (if value xx sign < 0 then 1 else 0) ≤ bufSize ∧
      printint xx base sign = some (signed (value xx sign) (ds.map (digits.getD · ' '))) ∧
      Ulib.printint xx base sign =
        some (signed (value xx sign) (ds.map (Ulib.digits.getD · ' ')))) ∧
    Ulib.printint xx base sign = (printint xx base sign).map (List.map Char.toUpper) := by
  have hb : base.toNat = 10 ∨ base.toNat = 16 := by rcases hbase with rfl | rfl <;> decide
  have hnum := isNumeral_lowFirst (b := base.toNat) (v := (value xx sign).natAbs) (by omega)
  have hk : printint xx base sign = _ := printintWith_eq (by decide) xx hbase sign
  have hu : Ulib.printint xx base sign = _ := printintWith_eq (by decide) xx hbase sign
  refine ⟨⟨_, hnum, ?_, hk, hu⟩, ?_⟩
  · rw [List.length_reverse]
    exact length_signed_le xx sign hb
  · have hmap : ∀ ds : List ℕ, (∀ d ∈ ds, d < base.toNat) →
        (ds.map (digits.getD · ' ')).map Char.toUpper = ds.map (Ulib.digits.getD · ' ') :=
      fun ds hds => by
        rw [List.map_map]
        refine List.map_congr_left fun d hd => toUpper_digits d ?_
        have := hds d hd
        omega
    rw [hk, hu, Option.map_some, signed, signed]
    split_ifs with h
    · rw [List.map_cons, hmap _ hnum.lt]
      rfl
    · rw [hmap _ hnum.lt]

/-- The most negative number. -/
theorem printint_numeral_min :
    (∃ ds, IsNumeral 10 (2 ^ 63) ds ∧ printint (BitVec.intMin 64) 10 true =
      some ('-' :: ds.map (digits.getD · ' '))) ∧
    Ulib.printint (BitVec.intMin 64) 10 true =
      (printint (BitVec.intMin 64) 10 true).map (List.map Char.toUpper) := by
  obtain ⟨⟨ds, hds, -, hk, -⟩, hu⟩ := printint_numeral (BitVec.intMin 64) 10 (.inl rfl) true
  exact ⟨⟨ds, hds, hk⟩, hu⟩

example : printint (BitVec.intMin 64) 10 true = some "-9223372036854775808".toList := by decide

end Print
end Xv6
