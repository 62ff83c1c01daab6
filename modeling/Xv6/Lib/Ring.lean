import Mathlib

/-!
# Ring buffers

A ring of `n` cells addressed by two counters that only increase, modulo `2 ^ 32`: elements
are stored at the counter `w` and taken at the counter `r`, each at the cell given by the
counter modulo `n`. If `n` divides `2 ^ 32`, the ring is a queue of up to `n` elements
(`contents`), also when the counters have wrapped (`contents_push`, `contents_pop`). Several
counters may share a ring: what lies between two of them is cut in two by a third one
(`contents_append`).
-/

namespace Xv6

namespace Ring

variable {α : Type*} {n r w : UInt32} {data : UInt32 → α}

/-- The elements from the counter `r` up to the counter `w`. -/
def contents (n : UInt32) (data : UInt32 → α) (r w : UInt32) : List α :=
  (List.range (w - r).toNat).map fun i => data ((r + UInt32.ofNat i) % n)

@[simp] theorem length_contents : (contents n data r w).length = (w - r).toNat := by
  simp [contents]

@[simp] theorem contents_self : contents n data r r = [] := by simp [contents]

/-- The `i`-th cell from the counter `r`. -/
theorem toNat_cell (hn : n.toNat ∣ 2 ^ 32) (r : UInt32) (i : ℕ) :
    ((r + UInt32.ofNat i) % n).toNat = (r.toNat + i) % n.toNat := by
  rw [UInt32.toNat_mod, UInt32.toNat_add, UInt32.toNat_ofNat', Nat.mod_mod_of_dvd _ hn,
    Nat.add_mod, Nat.mod_mod_of_dvd _ hn, ← Nat.add_mod]

/-- Less than `n` cells apart, two cells differ. -/
theorem cell_ne (hn : n.toNat ∣ 2 ^ 32) {i j : ℕ} (hij : i < j) (hj : j - i < n.toNat) :
    (r + UInt32.ofNat i) % n ≠ (r + UInt32.ofNat j) % n := by
  intro h
  have hmod := congrArg UInt32.toNat h
  rw [toNat_cell hn, toNat_cell hn] at hmod
  have hdvd := (Nat.modEq_iff_dvd' (by omega)).1 hmod
  have := Nat.le_of_dvd (by omega) hdvd
  omega

/-- The counter `w`, from the counter `r`. -/
theorem add_size (r w : UInt32) : r + UInt32.ofNat (w - r).toNat = w := by
  rw [UInt32.ofNat_toNat]
  grind

/-- The size after an element is stored. -/
theorem toNat_push (hn : n.toNat ∣ 2 ^ 32) (h : (w - r).toNat < n.toNat) :
    (w + 1 - r).toNat = (w - r).toNat + 1 := by
  have hle := Nat.le_of_dvd (by norm_num) hn
  have hlt := (w - r).toNat_lt
  rw [show w + 1 - r = w - r + 1 by grind, UInt32.toNat_add]
  refine Nat.mod_eq_of_lt ?_
  -- `n` itself is below `2 ^ 32`.
  have := n.toNat_lt
  change (w - r).toNat + 1 < 2 ^ 32
  omega

/-- The size after an element is taken. -/
theorem toNat_pop (h : r ≠ w) : (w - r).toNat = (w - (r + 1)).toNat + 1 := by
  have hne : w - r ≠ 0 := by grind
  rw [show w - (r + 1) = w - r - 1 by grind]
  have hpos : (w - r).toNat ≠ 0 := fun h₀ => hne (UInt32.toNat_inj.1 h₀)
  have hle : (1 : UInt32) ≤ w - r :=
    UInt32.le_iff_toNat_le.2 (Nat.one_le_iff_ne_zero.2 hpos)
  rw [UInt32.toNat_sub_of_le _ _ hle]
  exact (Nat.succ_pred hpos).symm

/-- An element is stored in a ring that is not full. -/
theorem contents_push (hn : n.toNat ∣ 2 ^ 32) (h : (w - r).toNat < n.toNat) (x : α) :
    contents n (Function.update data (w % n) x) r (w + 1) = contents n data r w ++ [x] := by
  rw [contents, toNat_push hn h, List.range_succ, List.map_append, contents]
  congr 1
  · refine List.map_congr_left fun i hi => Function.update_of_ne ?_ _ _
    have := cell_ne (r := r) hn (List.mem_range.1 hi) (by omega)
    rwa [add_size] at this
  · rw [List.map_singleton, add_size, Function.update_self]

/-- An element is taken from a ring that is not empty. -/
theorem contents_pop (h : r ≠ w) :
    contents n data r w = data (r % n) :: contents n data (r + 1) w := by
  rw [contents, toNat_pop h, List.range_succ_eq_map, List.map_cons, List.map_map, contents]
  congr 1
  · simp
  · refine List.map_congr_left fun i _ => ?_
    simp only [Function.comp_apply, Nat.succ_eq_add_one, UInt32.ofNat_add, UInt32.ofNat_one]
    rw [show r + (UInt32.ofNat i + 1) = r + 1 + UInt32.ofNat i by grind]

/-- The last element is taken back. -/
theorem contents_dropLast (h : r ≠ w) :
    contents n data r w = contents n data r (w - 1) ++ [data ((w - 1) % n)] := by
  have hsize : (w - r).toNat = (w - 1 - r).toNat + 1 := by
    rw [toNat_pop h]
    congr 2
    grind
  rw [contents, hsize, List.range_succ, List.map_append, contents, List.map_singleton, add_size]

section

variable {e : UInt32}

/-- The sizes of the two parts of a ring. -/
theorem toNat_append (h : (w - r).toNat + (e - w).toNat < 2 ^ 32) :
    (e - r).toNat = (w - r).toNat + (e - w).toNat := by
  rw [show e - r = (w - r) + (e - w) by grind, UInt32.toNat_add]
  exact Nat.mod_eq_of_lt h

/-- The two parts of a ring. -/
theorem contents_append (h : (w - r).toNat + (e - w).toNat < 2 ^ 32) :
    contents n data r e = contents n data r w ++ contents n data w e := by
  rw [contents, toNat_append h, List.range_add, List.map_append, List.map_map, contents, contents]
  congr 1
  refine List.map_congr_left fun i _ => ?_
  rw [Function.comp_apply, UInt32.ofNat_add, ← add_assoc, add_size]

/-- An element is stored at the end of the second part. -/
theorem contents_push_append (hn : n.toNat ∣ 2 ^ 32)
    (h : (w - r).toNat + (e - w).toNat < n.toNat) (x : α) :
    contents n (Function.update data (e % n) x) r w = contents n data r w ∧
      contents n (Function.update data (e % n) x) w (e + 1) = contents n data w e ++ [x] := by
  have hle := n.toNat_lt
  have hpush : contents n (Function.update data (e % n) x) r (e + 1) = contents n data r e ++ [x] := by
    refine contents_push hn ?_ x
    rw [toNat_append (w := w) (by omega)]
    exact h
  have hsize := toNat_push (r := w) (w := e) hn (by omega)
  have hold : contents n data r e = contents n data r w ++ contents n data w e :=
    contents_append (by omega)
  rw [contents_append (w := w) (by omega), hold, List.append_assoc] at hpush
  exact List.append_inj hpush (by simp)

end

end Ring

end Xv6
