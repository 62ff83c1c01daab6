import Xv6.Fs.Trunc

/-!
# Writing to an inode

`writei` writes block by block, and takes the blocks it needs from `bmap`. It may stop early:
when there is no free block, or when a byte of the source cannot be read. The blocks that were
added until then stay with the inode, and its size covers what was written.
-/

namespace Xv6

namespace Fs

variable {sb : Superblock} {s t u : Fs} {ip : Fin ninode} {i j o : ℕ} {lost W : Set ℕ}
  {E : FsPanic → Fs → Prop}

/-- Bytes are written to a block of the file. -/
theorem Held.write (hsb : sb.Wf) (h : s.Held sb lost ip) {data : List UInt8}
    (hne : s.places sb ip ((s.inode ip).inum, slotOf (o / bsize)) ≠ 0)
    (hlen : o % bsize + data.length ≤ bsize)
    (hdisk : t.disk = Function.update s.disk
      (s.places sb ip ((s.inode ip).inum, slotOf (o / bsize)))
      ((s.disk (s.places sb ip ((s.inode ip).inum, slotOf (o / bsize)))).write (o % bsize) data))
    (hinode : t.inode = s.inode) :
    Grows sb lost ip (Set.Ico o (o + data.length)) s t ∧ t.places sb ip = s.places sb ip ∧
      ∀ k < data.length, t.byte sb ip (s.inode ip).inum (o + k) = data.getD k 0 := by
  have hrange := h.range hne
  have hdinode : ∀ i < sb.ninodes, Disk.dinode sb t.disk i = Disk.dinode sb s.disk i := by
    intro i hi
    rw [hdisk, Disk.dinode_update_data hsb hi hrange.1]
  have hview : ∀ i < sb.ninodes, t.view sb ip i = s.view sb ip i := by
    intro i hi
    by_cases hii : i = (s.inode ip).inum
    · rw [hii, view_self, ← hinode, view_self]
    · rw [view_of_ne hii, view_of_ne (by rwa [hinode]), hdinode i hi]
  -- A block of a file is not an indirect block.
  have hplaces : t.places sb ip = s.places sb ip := by
    refine stored_congr hview fun i hi hine => ?_
    rw [hdisk, Function.update_of_ne]
    intro heq
    have hst : s.places sb ip (i, .addr (Fin.last ndirect)) =
        (s.view sb ip i).addrs (Fin.last ndirect) := Xv6.stored_addr hi
    have hinj := h.inj (by rw [hst]; exact hine) (hst.trans heq)
    exact slotOf_ne_last _ (Prod.mk.inj hinj).2.symm
  have howned : BlocksOwned sb (t.view sb ip) t.disk lost := by
    have hst : stored sb (t.view sb ip) t.disk = s.places sb ip := hplaces
    unfold BlocksOwned
    rw [hst]
    refine Owned.congr h.owned fun b hb => ?_
    rw [hdisk, Disk.marked_update_data hsb hb hrange.1]
  refine ⟨⟨⟨by rw [hinode]; exact h.inum, by rw [hinode]; exact h.type, howned⟩,
    fun jp _ => by rw [hinode], by rw [hinode], hdinode, fun x _ => by rw [hplaces],
    fun _ _ _ => by rw [hplaces], fun j o' hx ho => ?_⟩, hplaces, fun k hk => ?_⟩
  · by_cases hsame : s.places sb ip (j, slotOf (o' / bsize)) =
        s.places sb ip ((s.inode ip).inum, slotOf (o / bsize))
    · have hinj := h.inj hx hsame
      have hdiv := slotOf_inj (Prod.mk.inj hinj).2
      have hout := ho (Prod.mk.inj hinj).1
      rw [byte, byte, hplaces, hsame, hdisk, Function.update_self, Bytes.get_write_of_not_mem]
      rw [Set.mem_Ico, not_and_or, not_le, not_lt] at hout
      have := Nat.div_add_mod o bsize
      have := Nat.div_add_mod o' bsize
      rw [hdiv] at this
      omega
    · refine byte_congr (by rw [hplaces]) ?_
      rw [hdisk, Function.update_of_ne hsame]
  · have hmod : (o + k) % bsize = o % bsize + k := by
      rw [Nat.add_mod, Nat.mod_eq_of_lt (a := k) (by omega), Nat.mod_eq_of_lt (by omega)]
    have hdiv : (o + k) / bsize = o / bsize := by
      rw [Nat.add_div_eq_of_add_mod_lt, Nat.div_eq_of_lt (a := k) (by omega), Nat.add_zero]
      rw [Nat.mod_eq_of_lt (a := k) (by omega)]
      omega
    rw [byte, hplaces, hdiv, hdisk, Function.update_self, hmod, Bytes.get_write _ _ _ (by omega),
      if_pos (by omega), Nat.add_sub_cancel_left]

/-! ## The source -/

variable {src : ℕ → Option UInt8} {n m tot off : ℕ}

theorem reach_le (ok : ℕ → Bool) (tot m : ℕ) : reach ok tot m ≤ m := by
  have := (List.takeWhile_sublist ok (l := List.range' tot m)).length_le
  rwa [List.length_range'] at this

theorem reach_eq {ok : ℕ → Bool} (h : ∀ k, tot ≤ k → k < tot + m → ok k = true) :
    reach ok tot m = m := by
  unfold reach
  rw [List.takeWhile_eq_self_iff.2, List.length_range']
  intro k hk
  rw [List.mem_range'_1] at hk
  exact h k hk.1 hk.2

/-- The bytes that are reached can be accessed. -/
theorem of_lt_reach {ok : ℕ → Bool} {k : ℕ} (h : k < reach ok tot m) : ok (tot + k) = true := by
  have htake := List.prefix_iff_eq_take.1 (List.takeWhile_prefix ok (l := List.range' tot m))
  have hmem : tot + k ∈ (List.range' tot m).takeWhile ok := by
    have hle : ((List.range' tot m).takeWhile ok).length ≤ m := reach_le ok tot m
    rw [htake, List.take_range'_of_length_ge hle, List.mem_range'_1]
    exact ⟨Nat.le_add_right .., Nat.add_lt_add_left h tot⟩
  exact List.mem_takeWhile_imp hmem

theorem length_copyin_le (src : ℕ → Option UInt8) (tot m : ℕ) : (copyin src tot m).length ≤ m := by
  rw [copyin, List.length_map, List.length_range']
  exact reach_le _ _ _

/-- The bytes that were copied are those of the source. -/
theorem copyin_getD {k : ℕ} (h : k < (copyin src tot m).length) :
    some ((copyin src tot m).getD k 0) = src (tot + k) := by
  have hk : k < reach (fun k => (src k).isSome) tot m := by
    rwa [copyin, List.length_map, List.length_range'] at h
  have hsome := of_lt_reach hk
  rw [List.getD_eq_getElem _ _ h]
  simp only [copyin, List.getElem_map, List.getElem_range', Nat.one_mul]
  obtain ⟨v, hv⟩ := Option.isSome_iff_exists.1 hsome
  rw [hv, Option.getD_some]

theorem length_copyin (h : ∀ k, tot ≤ k → k < tot + m → (src k).isSome = true) :
    (copyin src tot m).length = m := by
  rw [copyin, List.length_map, List.length_range', reach_eq h]

/-! ## The loop -/

/-- What the loop of `writei` has done, from `tot` and `off` to the numbers `r`. -/
structure Wrote (sb : Superblock) (lost : Set ℕ) (ip : Fin ninode) (src : ℕ → Option UInt8)
    (n tot off : ℕ) (s : Fs) (r : ℕ × ℕ) (t : Fs) : Prop where
  le : tot ≤ r.1
  le_n : r.1 ≤ n
  off_eq : r.2 + tot = off + r.1
  grows : Grows sb lost ip (Set.Ico off (off + (n - tot))) s t
  exact : (∀ k, (src k).isSome = true) → Grows sb lost ip (Set.Ico off r.2) s t
  filled : ∀ o, off ≤ o → o < r.2 → t.places sb ip ((s.inode ip).inum, slotOf (o / bsize)) ≠ 0
  bytes : ∀ o, off ≤ o → o < r.2 →
    some (t.byte sb ip (s.inode ip).inum o) = src (tot + (o - off))
  /-- If the source can be read, the loop stops early only for want of a block. -/
  stopped : (∀ k, (src k).isSome = true) → r.1 < n → t.DiskFull sb

/-- The loop stops, after `bmap` at most. -/
theorem Wrote.stop (h : Grows sb lost ip ∅ s t) (htot : tot ≤ n)
    (hstop : tot < n → t.DiskFull sb) :
    Wrote sb lost ip src n tot off s (tot, off) t where
  le := le_rfl
  le_n := htot
  off_eq := rfl
  grows := h.mono (Set.empty_subset _)
  exact _ := h.mono (Set.empty_subset _)
  filled _ h₁ h₂ := absurd h₁ (Nat.not_le.2 h₂)
  bytes _ h₁ h₂ := absurd h₁ (Nat.not_le.2 h₂)
  stopped _ hlt := hstop hlt

/-- One more block is written. -/
theorem Wrote.cons {r : ℕ × ℕ} (htot : tot + m ≤ n)
    (hg : Grows sb lost ip (Set.Ico off (off + m)) s u)
    (hfill : ∀ o, off ≤ o → o < off + m → u.places sb ip ((s.inode ip).inum, slotOf (o / bsize)) ≠ 0)
    (hbytes : ∀ k < m, some (u.byte sb ip (s.inode ip).inum (off + k)) = src (tot + k))
    (h : Wrote sb lost ip src n (tot + m) (off + m) u r t) :
    Wrote sb lost ip src n tot off s r t := by
  have hoff := h.off_eq
  have hle := h.le
  refine ⟨by omega, h.le_n, by omega, (hg.trans h.grows).mono ?_, fun hsrc =>
    (hg.trans (h.exact hsrc)).mono ?_, fun o h₁ h₂ => ?_, fun o h₁ h₂ => ?_, h.stopped⟩
  · rw [Set.Ico_union_Ico_eq_Ico (by omega) (by omega)]
    exact Set.Ico_subset_Ico_right (by omega)
  · rw [Set.Ico_union_Ico_eq_Ico (by omega) (by omega)]
  · by_cases ho : o < off + m
    · rw [h.grows.keep _ (hfill o h₁ ho)]
      exact hfill o h₁ ho
    · rw [← hg.inum]
      exact h.filled o (by omega) h₂
  · by_cases ho : o < off + m
    · have hb := hbytes (o - off) (by omega)
      rw [show off + (o - off) = o by omega] at hb
      rw [h.grows.data _ _ (hfill o h₁ ho), hb]
      intro _ hmem
      exact absurd hmem.1 (by omega)
    · rw [← hg.inum, h.bytes o (by omega) h₂]
      congr 1
      omega

theorem wp_writeiLoop (hsb : sb.Wf) {fuel : ℕ} (h : s.Held sb lost ip) (hfuel : n - tot ≤ fuel)
    (htot : tot ≤ n) (hmax : off + (n - tot) ≤ maxfile * bsize) :
    wp (writeiLoop sb ip src n fuel tot off) (Wrote sb lost ip src n tot off s) E s := by
  induction fuel generalizing tot off s with
  | zero => exact .stop (.refl h) htot fun hlt => absurd hlt (by omega)
  | succ fuel ih =>
    unfold writeiLoop
    split
    swap
    next hge => exact .stop (.refl h) htot fun hlt => absurd hlt hge
    next hlt =>
    have hbn : off / bsize < maxfile := Nat.div_lt_of_lt_mul (by rw [Nat.mul_comm]; omega)
    rw [wp_bind]
    refine wp_bmap hsb h hbn (fun t hg hfull => ?_) fun t hg hne => ?_
    · rw [if_pos rfl]
      exact .stop hg htot fun _ => hfull
    rw [if_neg hne, wp_bind, wp_get]
    have hmod : off % bsize < bsize := Nat.mod_lt _ (by decide)
    rw [← hg.inum] at hne ⊢
    have hlen : off % bsize +
        (copyin src tot (min (n - tot) (bsize - off % bsize))).length ≤ bsize := by
      have := length_copyin_le src tot (min (n - tot) (bsize - off % bsize))
      omega
    dsimp only
    split
    next hshort =>
      -- The copy stops in the middle of the block.
      obtain ⟨hw, hpl, -⟩ := hg.held.write (t := ⟨Function.update t.disk _ _, t.logged, t.printed, t.inode⟩)
        hsb hne hlen rfl rfl
      rw [wp_bind]
      have hcopied : ¬∀ k, (src k).isSome = true := fun hsrc => by
        rw [length_copyin fun k _ _ => hsrc k] at hshort
        exact absurd hshort (lt_irrefl _)
      refine ⟨le_rfl, htot, rfl, (hg.trans hw).mono ?_, fun hsrc => absurd hsrc hcopied,
        fun _ h₁ h₂ => absurd h₁ (Nat.not_le.2 h₂), fun _ h₁ h₂ => absurd h₁ (Nat.not_le.2 h₂),
        fun hsrc => absurd hsrc hcopied⟩
      rw [Set.empty_union]
      exact Set.Ico_subset_Ico_right (by omega)
    next hfull =>
      have hm := le_antisymm (length_copyin_le src tot _) (Nat.not_lt.1 hfull)
      have hget : ∀ k < (copyin src tot (min (n - tot) (bsize - off % bsize))).length,
          some ((copyin src tot (min (n - tot) (bsize - off % bsize))).getD k 0) = src (tot + k) :=
        fun _ => copyin_getD
      obtain ⟨hw, hpl, hbytes⟩ := hg.held.write
        (t := ⟨Function.update t.disk _ _, _ :: t.logged, t.printed, t.inode⟩) hsb hne hlen rfl rfl
      rw [hm] at hw hbytes hget
      rw [wp_bind]
      have hstep := (hg.trans hw).mono (Set.empty_union _).subset
      refine (ih hstep.held (by omega) (by omega) (by omega)).mono (fun r v hv => ?_)
        fun _ _ he => he
      refine .cons (by omega) hstep (fun o h₁ h₂ => ?_) (fun k hk => ?_) hv
      · have hdiv : o / bsize = off / bsize := by
          have h₃ : o - off < bsize - off % bsize := by omega
          rw [show o = off + (o - off) by omega, Nat.add_div_eq_of_add_mod_lt,
            Nat.div_eq_of_lt (a := o - off) (by omega), Nat.add_zero]
          rw [Nat.mod_eq_of_lt (a := o - off) (by omega)]
          omega
        rw [hpl, ← hg.inum, hdiv]
        exact hne
      · rw [← hg.inum, hbytes k hk, hget k hk]

end Fs

end Xv6
