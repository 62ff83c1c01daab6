import Xv6.Fs.Alloc

/-!
# The bitmap

`balloc` of `fs.c` walks over the bitmap with variables of type `int`. `balloc32` is this walk on
32 bits, and `wp_balloc32` says that it does not overflow, and is the `balloc` of the other modules,
as long as the disk ends a block of the bitmap below `2 ^ 31`.

`balloc` takes the first block whose bit is clear, and `bfree` clears the bit again
(`bitmap_allocator`). It also zeroes the block it takes, which must not be one of the bitmap: where
the bitmap marks itself as free, `balloc` erases it (`balloc_erases_bitmap`).
-/

namespace Xv6.Fs

/-- `sb.size`, a `uint`. -/
def size32 (sb : Superblock) : BitVec 32 := BitVec.ofNat 32 sb.size

/-- `BPB`, an `int`. -/
def bpb32 : BitVec 32 := BitVec.ofNat 32 bpb

/-- The loop of `balloc` over the bits of a block of the bitmap. -/
def scanBits (size b : BitVec 32) (blk : Block) : ℕ → BitVec 32 → Option (Option (BitVec 32))
  | 0, _ => none
  | fuel + 1, bi =>
    if bi.slt bpb32 ∧ (b + bi).ult size then
      if blk.bit bi.toNat = false then some (some bi) else scanBits size b blk fuel (bi + 1)
    else some none

/-- The loop of `balloc` over the blocks of the bitmap. -/
def scanBlocks (sb : Superblock) : ℕ → BitVec 32 → FsM (Option (BitVec 32))
  | 0, _ => pure none
  | fuel + 1, b =>
    if b.ult (size32 sb) then do
      let s ← get
      let blk := s.disk (sb.bblock b.toNat)
      match scanBits (size32 sb) b blk (bpb + 1) 0 with
      | none => pure none
      | some none => scanBlocks sb fuel (b + bpb32)
      | some (some bi) => do
        logWrite (sb.bblock b.toNat) (blk.setBit bi.toNat)
        bzero (b + bi).toNat
        pure (some (b + bi))
    else do
      printf "balloc: out of blocks\n"
      pure (some 0)

/-- `balloc` on 32 bits, with at most `fuel` blocks of the bitmap; `none` if these are too few. -/
def balloc32 (sb : Superblock) (fuel : ℕ) : FsM (Option (BitVec 32)) := scanBlocks sb fuel 0

variable {sb : Superblock} {s t : Fs} {E : FsPanic → Fs → Prop} {b bi k n fuel : ℕ} {blk : Block}

/-! ## The walk on 32 bits -/

theorem toNat_small (h : n < 2 ^ 31) : (BitVec.ofNat 32 n).toNat = n := by
  rw [BitVec.toNat_ofNat, Nat.mod_eq_of_lt (by omega)]

theorem slt_bpb32 (h : n < 2 ^ 31) : (BitVec.ofNat 32 n).slt bpb32 = true ↔ n < bpb := by
  have hb : bpb32.toInt = (bpb : ℤ) := by decide
  rw [BitVec.slt_iff_toInt_lt, hb, BitVec.toInt_eq_toNat_of_lt (by rw [toNat_small h]; omega),
    toNat_small h]
  exact Int.ofNat_lt

theorem ult_size32 (hs : sb.size < 2 ^ 31) (h : n < 2 ^ 31) :
    (BitVec.ofNat 32 n).ult (size32 sb) = true ↔ n < sb.size := by
  rw [BitVec.ult_iff_lt, BitVec.lt_def, toNat_small h, size32, toNat_small hs]

/-- The walk over a block of the bitmap finds what `List.find?` finds. -/
theorem scanBits_eq (hs : sb.size < 2 ^ 31) (hb : b + bpb < 2 ^ 31) (hbi : bi ≤ bpb)
    (hfuel : bpb - bi < fuel) :
    scanBits (size32 sb) (BitVec.ofNat 32 b) blk fuel (BitVec.ofNat 32 bi) =
      some (((List.range' bi (bpb - bi)).find? fun i =>
        b + i < sb.size ∧ blk.bit i = false).map (BitVec.ofNat 32)) := by
  induction fuel generalizing bi with
  | zero => omega
  | succ fuel ih =>
    have hadd : BitVec.ofNat 32 b + BitVec.ofNat 32 bi = BitVec.ofNat 32 (b + bi) :=
      (BitVec.ofNat_add _ _).symm
    have hsucc : BitVec.ofNat 32 bi + 1 = BitVec.ofNat 32 (bi + 1) := (BitVec.ofNat_add _ _).symm
    have hcond : (BitVec.ofNat 32 bi).slt bpb32 = true ∧
        (BitVec.ofNat 32 (b + bi)).ult (size32 sb) = true ↔ bi < bpb ∧ b + bi < sb.size :=
      and_congr (slt_bpb32 (by omega)) (ult_size32 hs (by omega))
    rw [scanBits, hadd, toNat_small (by omega : bi < 2 ^ 31), hsucc]
    by_cases h : bi < bpb ∧ b + bi < sb.size
    · have hsplit : List.range' bi (bpb - bi) = bi :: List.range' (bi + 1) (bpb - (bi + 1)) := by
        rw [← List.range'_succ]
        congr 1
        omega
      rw [if_pos (hcond.2 h), hsplit]
      by_cases hbit : blk.bit bi = false
      · rw [if_pos hbit, List.find?_cons_of_pos (by simpa using ⟨h.2, hbit⟩), Option.map_some]
      · rw [if_neg hbit, List.find?_cons_of_neg (by simp [hbit]), ih (by omega) (by omega)]
    · have hnone : (List.range' bi (bpb - bi)).find? (fun i =>
          b + i < sb.size ∧ blk.bit i = false) = none := by
        rw [List.find?_range'_eq_none]
        intro i hi hi'
        have : ¬b + i < sb.size := by omega
        simp [this]
      rw [if_neg fun h' => h (hcond.1 h'), hnone, Option.map_none]

theorem scanBits_zero (hs : sb.size < 2 ^ 31) (hb : b + bpb < 2 ^ 31) :
    scanBits (size32 sb) (BitVec.ofNat 32 b) blk (bpb + 1) 0 =
      some (((List.range' 0 bpb).find? fun i =>
        b + i < sb.size ∧ blk.bit i = false).map (BitVec.ofNat 32)) := by
  have h := @scanBits_eq sb b 0 (bpb + 1) blk hs hb (Nat.zero_le _) (Nat.lt_succ_self _)
  rw [Nat.sub_zero] at h
  exact h

/-- The walk over the bitmap does what the loop of `balloc` does. -/
theorem wp_scanBlocks {Q : Option (BitVec 32) → Fs → Prop} (hs : sb.size + bpb < 2 ^ 31)
    (hk : k + n = (sb.size + (bpb - 1)) / bpb) (hfuel : n < fuel)
    (h : wp (ballocLoop sb (List.range' k n)) (fun b t => Q (some (BitVec.ofNat 32 b)) t) E s) :
    wp (scanBlocks sb fuel (BitVec.ofNat 32 (k * bpb))) Q E s := by
  have hdiv := Nat.div_add_mod (sb.size + (bpb - 1)) bpb
  have hmod := Nat.mod_lt (sb.size + (bpb - 1)) (by decide : 0 < bpb)
  rw [← hk, Nat.mul_comm, Nat.add_mul] at hdiv
  induction n generalizing k fuel with
  | zero =>
    obtain ⟨fuel, rfl⟩ : ∃ f, fuel = f + 1 := ⟨fuel - 1, by omega⟩
    have hend : ¬(BitVec.ofNat 32 (k * bpb)).ult (size32 sb) = true := fun h' => by
      have := (ult_size32 (by omega) (by omega)).1 h'
      omega
    rw [scanBlocks, if_neg hend]
    exact h
  | succ n ih =>
    obtain ⟨fuel, rfl⟩ : ∃ f, fuel = f + 1 := ⟨fuel - 1, by omega⟩
    rw [Nat.add_one_mul n bpb] at hdiv
    have hlt : k * bpb < sb.size := by omega
    have hs31 : sb.size < 2 ^ 31 := by omega
    have hb31 : k * bpb + bpb < 2 ^ 31 := (Nat.add_lt_add_right hlt bpb).trans hs
    have hnat : (BitVec.ofNat 32 (k * bpb)).toNat = k * bpb := toNat_small (hlt.trans hs31)
    have hblock : sb.bblock (k * bpb + 0) = sb.bmapstart + k :=
      (marked_block sb k (by decide : 0 < bpb) s.disk).1
    rw [scanBlocks, if_pos ((ult_size32 hs31 (hlt.trans hs31)).2 hlt), wp_bind, wp_get]
    dsimp only
    rw [hnat, ← Nat.add_zero (k * bpb), hblock, Nat.add_zero, scanBits_zero hs31 hb31]
    rw [List.range'_succ] at h
    simp only [ballocLoop, wp_bind, wp_get] at h
    split at h
    next bi hbi =>
      have hmem : bi < bpb := by
        have := List.mem_of_find?_eq_some hbi
        simpa using this
      have hadd : BitVec.ofNat 32 (k * bpb) + BitVec.ofNat 32 bi = BitVec.ofNat 32 (k * bpb + bi) :=
        (BitVec.ofNat_add _ _).symm
      rw [hbi, Option.map_some]
      dsimp only
      have hsum : k * bpb + bi < 2 ^ 31 := (Nat.add_lt_add_left hmem _).trans hb31
      rw [hadd, toNat_small ((Nat.le_add_left _ _).trans_lt hsum), toNat_small hsum]
      exact h
    next hbi =>
      rw [hbi, Option.map_none]
      dsimp only
      have hadd : BitVec.ofNat 32 (k * bpb) + bpb32 = BitVec.ofNat 32 ((k + 1) * bpb) := by
        rw [bpb32, Nat.add_one_mul k bpb]
        exact (BitVec.ofNat_add _ _).symm
      rw [hadd]
      have hk' : k + 1 + n = (sb.size + (bpb - 1)) / bpb := by
        rw [← hk, Nat.add_right_comm, Nat.add_assoc]
      have hdiv' : (k + 1) * bpb + n * bpb + (sb.size + (bpb - 1)) % bpb =
          sb.size + (bpb - 1) := by
        refine Eq.trans ?_ hdiv
        rw [Nat.add_one_mul k bpb, Nat.add_assoc (k * bpb), Nat.add_comm bpb]
      exact ih hk' (by omega) h hdiv'

/-- `balloc32` is `balloc`, on a disk that is not too large. -/
theorem wp_balloc32 {Q : Option (BitVec 32) → Fs → Prop} (hs : sb.size < 2 ^ 31 - bpb)
    (hfuel : sb.size / bpb + 1 < fuel)
    (h : wp (balloc sb) (fun b t => Q (some (BitVec.ofNat 32 b)) t) E s) :
    wp (balloc32 sb fuel) Q E s := by
  refine wp_scanBlocks (k := 0) (Nat.add_lt_of_lt_sub hs) (Nat.zero_add _) ?_ h
  have : (sb.size + (bpb - 1)) / bpb ≤ (sb.size + bpb) / bpb := Nat.div_le_div_right (by omega)
  rw [Nat.add_div_right _ (by decide)] at this
  omega

/-! ## The allocator -/

/-- The number of bits in the blocks of the bitmap that `balloc` reads. -/
def nbits (sb : Superblock) : ℕ := (sb.size + (bpb - 1)) / bpb * bpb

/-- The bitmap has the blocks that it consists of in use. -/
def MapUsed (sb : Superblock) (d : Disk) : Prop :=
  ∀ c < nbits sb, sb.bblock c < sb.size → Disk.marked sb d (sb.bblock c) = true

/-- The block `b` has been taken: its bit is set, it is zero, and nothing else has changed. -/
structure Taken (sb : Superblock) (b : ℕ) (s t : Fs) : Prop where
  bits : ∀ c < nbits sb, Disk.marked sb t.disk c = if c = b then true else Disk.marked sb s.disk c
  zero : t.disk b = Bytes.fill 0
  other : ∀ x, x ≠ sb.bblock b → x ≠ b → t.disk x = s.disk x
  inode : t.inode = s.inode

/-- The block `b` has been released: its bit is clear, and nothing else has changed. -/
structure BlockReleased (sb : Superblock) (b : ℕ) (s t : Fs) : Prop where
  bits : ∀ c, Disk.marked sb t.disk c = if c = b then false else Disk.marked sb s.disk c
  other : ∀ x, x ≠ sb.bblock b → t.disk x = s.disk x
  inode : t.inode = s.inode

theorem lt_nbits (h : b < sb.size) : b < nbits sb := by
  have := Nat.div_add_mod (sb.size + (bpb - 1)) bpb
  have := Nat.mod_lt (sb.size + (bpb - 1)) (by decide : 0 < bpb)
  rw [nbits, Nat.mul_comm]
  omega

theorem FirstFree.unique {b' : ℕ} (h : FirstFree sb s.disk b) (h' : FirstFree sb s.disk b') :
    b = b' := by
  rcases Nat.lt_trichotomy b b' with hlt | heq | hlt
  · exact absurd (h'.first b hlt) (by rw [h.free]; decide)
  · exact heq
  · exact absurd (h.first b' hlt) (by rw [h'.free]; decide)

/-- The block that is taken is none of the bitmap. -/
theorem FirstFree.taken (h : FirstFree sb s.disk b) (hmap : MapUsed sb s.disk)
    (ht : t.disk = Disk.take sb s.disk b) (hi : t.inode = s.inode) : Taken sb b s t where
  bits c hc := by
    have hne : sb.bblock c ≠ b := fun he => by
      have := hmap c hc (he ▸ h.lt)
      rw [he, h.free] at this
      exact Bool.false_ne_true this
    rw [ht, ← Disk.marked_mark, Disk.take, Disk.marked, Function.update_of_ne hne, Disk.marked]
  zero := by
    rw [ht, Disk.take, Function.update_self]
  other x hx hb := by
    rw [ht, Disk.take, Function.update_of_ne hb, Disk.mark, Function.update_of_ne hx]
  inode := hi

theorem wp_balloc_taken (hmap : MapUsed sb s.disk) (h : FirstFree sb s.disk b) :
    wp (balloc sb) (fun r t => r = b ∧ Taken sb b s t) E s :=
  wp_balloc_first (fun hall => absurd (hall b h.lt) (by rw [h.free]; decide)) fun b' hb' => by
    obtain rfl := h.unique hb'
    exact ⟨rfl, h.taken hmap rfl rfl⟩

theorem wp_bfree_released (h : Disk.marked sb s.disk b = true) :
    wp (bfree sb b) (fun _ t => BlockReleased sb b s t) E s := by
  refine wp_bfree h fun l => ⟨fun c => Disk.marked_unmark, fun x hx => ?_, rfl⟩
  dsimp only
  rw [Disk.unmark, Function.update_of_ne hx]

/-- The bitmap allocator, on a disk of any size below `2 ^ 31 - BPB` and for any contents of a
    bitmap that has its own blocks in use.

    * `balloc` returns the first block whose bit is clear, sets this bit only, and zeroes the
      block.
    * It returns `0` and changes nothing if every bit is set, and, if the bit of block `0` is
      set, only then.
    * `bfree` clears the bit of its block only, if it is set.
    * `bfree` undoes `balloc`, and `balloc` undoes `bfree` of a block below which none is free. -/
theorem bitmap_allocator (sb : Superblock) (hs : sb.size < 2 ^ 31 - bpb) (s : Fs)
    (hmap : MapUsed sb s.disk) (fuel : ℕ) (hfuel : sb.size / bpb + 1 < fuel) :
    (∀ b, FirstFree sb s.disk b →
      wp (balloc32 sb fuel) (fun r t => r = some (BitVec.ofNat 32 b) ∧ Taken sb b s t)
        (fun _ _ => False) s) ∧
    ((∀ c < sb.size, Disk.marked sb s.disk c = true) →
      wp (balloc32 sb fuel) (fun r t => r = some 0 ∧ t.disk = s.disk ∧ t.inode = s.inode ∧
        t.logged = s.logged) (fun _ _ => False) s) ∧
    (Disk.marked sb s.disk 0 = true →
      wp (balloc32 sb fuel) (fun r _ => r = some 0 →
        ∀ c < sb.size, Disk.marked sb s.disk c = true) (fun _ _ => False) s) ∧
    (∀ b, Disk.marked sb s.disk b = true →
      wp (bfree sb b) (fun _ t => BlockReleased sb b s t) (fun _ _ => False) s) ∧
    (∀ b, FirstFree sb s.disk b →
      wp (do let _ ← balloc32 sb fuel; bfree sb b) (fun _ u =>
        ∀ c < nbits sb, Disk.marked sb u.disk c = Disk.marked sb s.disk c)
        (fun _ _ => False) s) ∧
    (∀ b < sb.size, (∀ c ≤ b, Disk.marked sb s.disk c = true) → (∀ c < nbits sb, sb.bblock c ≠ b) →
      wp (do bfree sb b; balloc32 sb fuel) (fun r u => r = some (BitVec.ofNat 32 b) ∧
        ∀ c < nbits sb, Disk.marked sb u.disk c = Disk.marked sb s.disk c)
        (fun _ _ => False) s) := by
  have htake : ∀ b s, MapUsed sb s.disk → FirstFree sb s.disk b →
      wp (balloc32 sb fuel) (fun r t => r = some (BitVec.ofNat 32 b) ∧ Taken sb b s t)
        (fun _ _ => False) s := fun b s hmap hb => by
    refine wp_balloc32 hs hfuel ((wp_balloc_taken hmap hb).mono (fun r t ht => ?_) fun _ _ he => he)
    exact ⟨congrArg _ (congrArg _ ht.1), ht.2⟩
  refine ⟨fun b => htake b s hmap, fun hall => ?_, fun h0 => ?_, fun b hb => wp_bfree_released hb,
    fun b hb => ?_, fun b hlt hall hnot => ?_⟩
  · refine wp_balloc32 hs hfuel (wp_balloc_first (fun _ => ⟨rfl, rfl, rfl, rfl⟩) fun b hb => ?_)
    exact absurd (hall b hb.lt) (by rw [hb.free]; decide)
  · refine wp_balloc32 hs hfuel (wp_balloc_first (fun hall _ => hall) fun b hb he => ?_)
    -- The block found is not block 0, and is below 2 ^ 32.
    have hb0 : b = 0 := by
      have := congrArg BitVec.toNat (Option.some.inj he)
      rw [toNat_small (hb.lt.trans (hs.trans_le (Nat.sub_le _ _)))] at this
      exact this
    rw [← hb0, hb.free] at h0
    exact absurd h0 Bool.false_ne_true
  · rw [wp_bind]
    refine (htake b s hmap hb).mono (fun r t ht => ?_) fun _ _ he => he
    have hm : Disk.marked sb t.disk b = true := by
      rw [ht.2.bits b (lt_nbits hb.lt), if_pos rfl]
    refine (wp_bfree_released hm).mono (fun _ u hu c hc => ?_) fun _ _ he => he
    rw [hu.bits c]
    split_ifs with h
    · rw [h, hb.free]
    · rw [ht.2.bits c hc, if_neg h]
  · rw [wp_bind]
    refine (wp_bfree_released (hall b le_rfl)).mono (fun _ t ht => ?_) fun _ _ he => he
    have hfree : FirstFree sb t.disk b := by
      refine ⟨hlt, by rw [ht.bits, if_pos rfl], fun c hc => ?_⟩
      rw [ht.bits, if_neg hc.ne, hall c hc.le]
    have hmap' : MapUsed sb t.disk := fun c hc hlt => by
      rw [ht.bits, if_neg (hnot c hc), hmap c hc hlt]
    refine (htake b t hmap' hfree).mono (fun r u hu => ⟨hu.1, fun c hc => ?_⟩) fun _ _ he => he
    rw [hu.2.bits c hc]
    split_ifs with h
    · rw [h, hall b le_rfl]
    · rw [ht.bits, if_neg h]

/-- A disk of ten blocks, with the bitmap in block 1. -/
def tinySb : Superblock where
  magic := 0
  size := 10
  nblocks := 8
  ninodes := 0
  nlog := 0
  logstart := 0
  inodestart := 0
  bmapstart := 1

/-- It is empty but for a bitmap. -/
def tinyFs (map : Block) : Fs where
  disk := fun _ => map
  logged := []
  printed := []
  inode := fun _ => ⟨0, 0, false, Dinode.new 0⟩

/-- A bitmap with the bits 0 and 1 set. -/
def tinyMap : Block := ((Bytes.fill 0).setBit 0).setBit 1

theorem bit_tinyMap (c : ℕ) : tinyMap.bit c = if c = 1 then true else if c = 0 then true else false := by
  rw [tinyMap, Bytes.bit_setBit _ (by decide), Bytes.bit_setBit _ (by decide), Bytes.bit_fill_zero]

/-- Block 2 is taken. -/
theorem bitmap_allocator_tiny :
    wp (balloc32 tinySb 3) (fun r t => r = some (BitVec.ofNat 32 2) ∧
      Taken tinySb 2 (tinyFs tinyMap) t) (fun _ _ => False) (tinyFs tinyMap) := by
  have hmap : MapUsed tinySb (tinyFs tinyMap).disk := fun c hc _ => by
    have hb : tinySb.bblock c = 1 := congrArg (· + 1) (Nat.div_eq_of_lt hc)
    rw [hb]
    exact (bit_tinyMap 1).trans (if_pos rfl)
  have hfree : FirstFree tinySb (tinyFs tinyMap).disk 2 := by
    refine ⟨by decide, (bit_tinyMap 2).trans rfl, fun c hc => ?_⟩
    have hmod : c % bpb = c := Nat.mod_eq_of_lt (hc.trans (by decide))
    have hbit : Disk.marked tinySb (tinyFs tinyMap).disk c = tinyMap.bit c := congrArg tinyMap.bit hmod
    rw [hbit, bit_tinyMap]
    split_ifs <;> first | rfl | omega
  exact (bitmap_allocator tinySb (by decide) _ hmap 3 (by decide)).1 2 hfree

/-- Where the bitmap has its own block as free, `balloc` takes this block, and clears every bit
    of it. -/
theorem balloc_erases_bitmap :
    FirstFree tinySb (tinyFs ((Bytes.fill 0).setBit 0)).disk 1 ∧
      wp (balloc32 tinySb 3) (fun r t => r = some 1 ∧ Disk.marked tinySb t.disk 1 = false ∧
        Disk.marked tinySb t.disk 0 = false) (fun _ _ => False)
        (tinyFs ((Bytes.fill 0).setBit 0)) := by
  have hbit : ∀ c < 2, Disk.marked tinySb (tinyFs ((Bytes.fill 0).setBit 0)).disk c =
      if c = 0 then true else false := fun c hc => by
    have hmod : c % bpb = c := Nat.mod_eq_of_lt (hc.trans (by decide))
    refine (congrArg ((Bytes.fill 0).setBit 0 : Block).bit hmod).trans ?_
    rw [Bytes.bit_setBit _ (by decide), Bytes.bit_fill_zero]
  have hfree : FirstFree tinySb (tinyFs ((Bytes.fill 0).setBit 0)).disk 1 := by
    refine ⟨by decide, hbit 1 (by decide), fun c hc => ?_⟩
    rw [hbit c (by omega), if_pos (by omega)]
  have hblock : ∀ c < 2, tinySb.bblock c = 1 := fun c hc =>
    congrArg (· + 1) (Nat.div_eq_of_lt (hc.trans (by decide)))
  refine ⟨hfree, wp_balloc32 (by decide) (by decide) (wp_balloc_first (fun hall => ?_) fun b hb => ?_)⟩
  · exact absurd (hall 1 hfree.lt) (by rw [hfree.free]; decide)
  · obtain rfl := hfree.unique hb
    have hclear : ∀ c < 2, Disk.marked tinySb
        (Disk.take tinySb (tinyFs ((Bytes.fill 0).setBit 0)).disk 1) c = false := fun c hc => by
      rw [Disk.marked, Disk.take, hblock c hc, Function.update_self, Bytes.bit_fill_zero]
    exact ⟨rfl, hclear 1 (by decide), hclear 0 (by decide)⟩

end Xv6.Fs
