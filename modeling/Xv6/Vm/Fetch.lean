import Xv6.Vm.Copy

/-!
# Fetching strings

`copyinstr` and `fetchstr` read the bytes that the user can access, from an address on, up
to a null byte (`strAt`). They look at nothing else, and change nothing (`copyinstr_eq`):
a string is found where it ends within the bytes allowed and all of it is in pages mapped
with `PTE_V` and `PTE_U`. Pages are not faulted in.
-/

namespace Xv6

/-- The byte at an address, if its page is mapped with `PTE_V` and `PTE_U`. -/
def userAt (m : Mem) (pt a : ℕ) : Option UInt8 :=
  let e := mapping m pt (a / pgsize)
  if a / pgsize < maxVpn ∧ pteV e = true ∧ pteU e = true then
    some ((m (pteAddr e)).get (a % pgsize))
  else none

/-- The bytes from `a` on, at most `n` of them, up to a null byte or to the first byte that
    cannot be accessed; and whether there is a null byte. -/
def strAt (u : ℕ → Option UInt8) : ℕ → ℕ → Bool × List UInt8
  | _, 0 => (false, [])
  | a, n + 1 =>
    match u a with
    | none => (false, [])
    | some c =>
      if c = 0 then (true, [0])
      else
        let r := strAt u (a + 1) n
        (r.1, c :: r.2)

/-- The string at `a` has `k` bytes before its null byte. -/
def StringAt (u : ℕ → Option UInt8) (a k : ℕ) : Prop :=
  ∀ i ≤ k, ∃ c, u (a + i) = some c ∧ (c = 0 ↔ i = k)

variable {s : Vm} {pt a n k v srcva max : ℕ} {u : ℕ → Option UInt8}

theorem strAt_none (h : u a = none) : strAt u a n = (false, []) := by
  cases n with
  | zero => rfl
  | succ n => rw [strAt, h]

theorem strAt_zero (h : u a = some 0) : strAt u a (n + 1) = (true, [0]) := by
  rw [strAt, h]
  exact if_pos rfl

theorem strAt_succ {c : UInt8} (h : u a = some c) (hc : c ≠ 0) :
    strAt u a (n + 1) = ((strAt u (a + 1) n).1, c :: (strAt u (a + 1) n).2) := by
  rw [strAt, h]
  exact if_neg hc

theorem length_strAt_le (u : ℕ → Option UInt8) (a n : ℕ) : (strAt u a n).2.length ≤ n := by
  induction n generalizing a with
  | zero => exact le_rfl
  | succ n ih =>
    rw [strAt]
    split
    · exact Nat.zero_le _
    · split
      · simp
      · simpa using ih (a + 1)

/-- There is one string at an address. -/
theorem StringAt.unique {k' : ℕ} (h : StringAt u a k) (h' : StringAt u a k') : k = k' := by
  have hle : ∀ {k k' : ℕ}, StringAt u a k → StringAt u a k' → k ≤ k' := by
    intro k k' h h'
    by_contra hlt
    obtain ⟨c, hc, hz⟩ := h k' (by omega)
    obtain ⟨c', hc', hz'⟩ := h' k' le_rfl
    rw [hc, Option.some.injEq] at hc'
    exact hlt (hz.1 (hc' ▸ hz'.2 rfl)).ge
  exact Nat.le_antisymm (hle h h') (hle h' h)

/-- A string that does not begin with a null byte goes on after its first byte. -/
theorem stringAt_succ {c : UInt8} (h : u a = some c) (hc : c ≠ 0) :
    StringAt u a (k + 1) ↔ StringAt u (a + 1) k := by
  constructor
  · intro hs i hi
    obtain ⟨d, hd, hz⟩ := hs (i + 1) (by omega)
    exact ⟨d, by rw [← hd, show a + 1 + i = a + (i + 1) by omega], by rw [hz]; omega⟩
  · intro hs i hi
    cases i with
    | zero => exact ⟨c, h, iff_of_false hc (by omega)⟩
    | succ i =>
      obtain ⟨d, hd, hz⟩ := hs i (by omega)
      exact ⟨d, by rw [← hd, show a + 1 + i = a + (i + 1) by omega], by rw [hz]; omega⟩

/-- There is a null byte if and only if there is a string. -/
theorem strAt_found : (strAt u a n).1 = true ↔ ∃ k < n, StringAt u a k := by
  induction n generalizing a with
  | zero => simp [strAt]
  | succ n ih =>
    cases ha : u a with
    | none =>
      rw [strAt_none ha]
      refine iff_of_false (by simp) fun ⟨k, _, hs⟩ => ?_
      obtain ⟨c, hc, -⟩ := hs 0 (Nat.zero_le k)
      rw [Nat.add_zero, ha] at hc
      cases hc
    | some c =>
      by_cases hc : c = 0
      · subst hc
        rw [strAt_zero ha]
        refine iff_of_true rfl ⟨0, Nat.succ_pos n, fun i hi => ⟨0, ?_, ?_⟩⟩
        · rw [Nat.le_zero.1 hi, Nat.add_zero, ha]
        · exact iff_of_true rfl (Nat.le_zero.1 hi)
      · rw [strAt_succ ha hc, ih]
        constructor
        · rintro ⟨k, hk, hs⟩
          exact ⟨k + 1, by omega, (stringAt_succ ha hc).2 hs⟩
        · rintro ⟨k, hk, hs⟩
          cases k with
          | zero =>
            obtain ⟨d, hd, hz⟩ := hs 0 le_rfl
            rw [Nat.add_zero, ha, Option.some.injEq] at hd
            exact absurd (hd.trans (hz.2 rfl)) hc
          | succ k => exact ⟨k, by omega, (stringAt_succ ha hc).1 hs⟩

/-- The string that is found: its bytes, and its null byte. -/
theorem strAt_of_stringAt (hs : StringAt u a k) (hk : k < n) :
    (strAt u a n).2 = (List.range (k + 1)).map (fun i => (u (a + i)).getD 0) ∧
      strlen (strAt u a n).2 = k := by
  induction n generalizing a k with
  | zero => omega
  | succ n ih =>
    cases k with
    | zero =>
      obtain ⟨c, hc, hz⟩ := hs 0 le_rfl
      rw [Nat.add_zero, hz.2 rfl] at hc
      rw [strAt_zero hc]
      simp [strlen, hc]
    | succ k =>
      obtain ⟨c, hc, hz⟩ := hs 0 (Nat.zero_le _)
      have hc0 : c ≠ 0 := fun h => by simpa using hz.1 h
      rw [Nat.add_zero] at hc
      obtain ⟨hb, hl⟩ := ih ((stringAt_succ hc hc0).1 hs) (by omega)
      rw [strAt_succ hc hc0]
      constructor
      · rw [List.range_succ_eq_map, List.map_cons, List.map_map]
        simp only [Nat.add_zero, hc, hb, Option.getD_some]
        refine congrArg (c :: ·) (List.map_congr_left fun i _ => ?_)
        simp only [Function.comp, Nat.succ_eq_add_one]
        rw [show a + 1 + i = a + (i + 1) by omega]
      · rw [strlen, List.takeWhile_cons, if_pos (by simpa using hc0), List.length_cons, ← strlen, hl]

/-- Reading on after `m` bytes that can be accessed. -/
theorem strAt_add {m : ℕ} (h : ∀ i < m, (u (a + i)).isSome) :
    strAt u a (m + n) = if (strAt u a m).1 then strAt u a m
      else ((strAt u (a + m) n).1, (strAt u a m).2 ++ (strAt u (a + m) n).2) := by
  induction m generalizing a with
  | zero => simp [strAt]
  | succ m ih =>
    obtain ⟨c, hc⟩ := Option.isSome_iff_exists.1 (h 0 (by omega))
    rw [Nat.add_zero] at hc
    rw [show m + 1 + n = m + n + 1 by omega]
    by_cases hc0 : c = 0
    · subst hc0
      rw [strAt_zero hc, strAt_zero hc]
      rfl
    · rw [strAt_succ hc hc0, strAt_succ hc hc0, ih fun i hi => ?_]
      · rw [show a + 1 + m = a + (m + 1) by omega]
        split <;> rfl
      · rw [show a + 1 + i = a + (i + 1) by omega]
        exact h (i + 1) (by omega)

/-! ## The code -/

/-- The inner loop reads on in the page. -/
theorem copyinstrPage_eq {p : Page} {off : ℕ} (h : ∀ i < n, u (a + i) = some (p.get (off + i))) :
    copyinstrPage p n off = strAt u a n := by
  induction n generalizing a off with
  | zero => rfl
  | succ n ih =>
    have h0 := h 0 (by omega)
    rw [Nat.add_zero, Nat.add_zero] at h0
    rw [copyinstrPage, strAt, h0]
    dsimp only
    rw [ih fun i hi => ?_]
    rw [show a + 1 + i = a + (i + 1) by omega, show off + 1 + i = off + (i + 1) by omega]
    exact h (i + 1) (by omega)

theorem walkaddr_eq (s : Vm) (pt v : ℕ) :
    walkaddr pt (v * pgsize) s = .ok (if v < maxVpn ∧ pteV (mapping s.mem pt v) = true ∧
      pteU (mapping s.mem pt v) = true then pteAddr (mapping s.mem pt v) else 0) s := by
  have hwp : wp (walkaddr pt (v * pgsize)) (fun r t => r = (if v < maxVpn ∧
      pteV (mapping s.mem pt v) = true ∧ pteU (mapping s.mem pt v) = true then
      pteAddr (mapping s.mem pt v) else 0) ∧ t = s) (fun _ _ => False) s :=
    wp_walkaddr.2 ⟨rfl, rfl⟩
  obtain ⟨r, t, hr, rfl, rfl⟩ := hwp.exists_ok
  exact hr

/-- The pages mapped for the user are pages of memory. -/
def UserBacked (m : Mem) (pt : ℕ) : Prop :=
  ∀ v < maxVpn, pteV (mapping m pt v) = true → pteU (mapping m pt v) = true →
    pteAddr (mapping m pt v) ≠ 0

/-- If something is left to read after a page, the next page begins where this one ends. -/
theorem nextPage_eq_add (hv : a / pgsize < maxVpn)
    (h : 0 < n - min (pgsize - (a - a / pgsize * pgsize)) n) :
    (a / pgsize * pgsize + pgsize) % 2 ^ 64 =
      a + min (pgsize - (a - a / pgsize * pgsize)) n := by
  simp only [maxVpn, maxVa, pgsize] at *
  omega

theorem copyinstrLoop_eq {fuel : ℕ} (hpa : UserBacked s.mem pt) (hfuel : max ≤ fuel) :
    copyinstrLoop pt fuel srcva max s = .ok (strAt (userAt s.mem pt) srcva max) s := by
  induction fuel generalizing srcva max with
  | zero =>
    obtain rfl : max = 0 := by omega
    rfl
  | succ fuel ih =>
    rw [copyinstrLoop]
    split
    · rename_i h0
      rw [h0]
      rfl
    · rename_i h0
      simp only [pgRoundDown, bind, EStateM.bind, walkaddr_eq]
      split
      · rename_i hm
        have hne := hpa _ hm.1 hm.2.1 hm.2.2
        have hv := hm.1
        have hat : ∀ b, b / pgsize = srcva / pgsize → userAt s.mem pt b =
            some ((s.mem (pteAddr (mapping s.mem pt (srcva / pgsize)))).get (b % pgsize)) := by
          intro b hb
          rw [userAt, hb]
          exact if_pos hm
        rw [if_neg hne]
        simp only [get, getThe, MonadStateOf.get, EStateM.bind, EStateM.get]
        set n₀ := min (pgsize - (srcva - srcva / pgsize * pgsize)) max with hn₀
        have hsame : ∀ i < n₀, (srcva + i) / pgsize = srcva / pgsize ∧
            (srcva + i) % pgsize = srcva - srcva / pgsize * pgsize + i := by
          intro i hi
          simp only [pgsize] at *
          omega
        have hpos : 0 < n₀ := by
          simp only [pgsize] at hn₀
          omega
        have hpage : copyinstrPage (s.mem (pteAddr (mapping s.mem pt (srcva / pgsize)))) n₀
            (srcva - srcva / pgsize * pgsize) = strAt (userAt s.mem pt) srcva n₀ :=
          copyinstrPage_eq fun i hi => by rw [hat _ (hsame i hi).1, (hsame i hi).2]
        have hadd := strAt_add (u := userAt s.mem pt) (a := srcva) (m := n₀) (n := max - n₀)
          fun i hi => by rw [hat _ (hsame i hi).1]; rfl
        rw [show n₀ + (max - n₀) = max by omega] at hadd
        rw [hpage, hadd]
        split
        · rfl
        · simp only [EStateM.bind]
          rw [ih (by omega)]
          -- The next page begins where this one ends, unless nothing is left to read.
          have hnext : strAt (userAt s.mem pt) ((srcva / pgsize * pgsize + pgsize) % 2 ^ 64)
              (max - n₀) = strAt (userAt s.mem pt) (srcva + n₀) (max - n₀) := by
            by_cases hz : max - n₀ = 0
            · rw [hz, strAt, strAt]
            · rw [nextPage_eq_add (n := max) hv (Nat.pos_of_ne_zero hz)]
          rw [hnext]
          rfl
      · rename_i hm
        have hnone : userAt s.mem pt srcva = none := if_neg hm
        rw [if_pos rfl, strAt_none hnone]
        rfl

theorem copyinstr_eq (hpa : UserBacked s.mem pt) (srcva max : ℕ) :
    copyinstr pt srcva max s = .ok (strAt (userAt s.mem pt) srcva max) s :=
  copyinstrLoop_eq hpa le_rfl

/-- `copyinstr` succeeds if and only if there is a string at the address that ends before `max`
    bytes, in pages mapped with `PTE_V` and `PTE_U`. It then stores the string with its null
    byte, and `fetchstr` returns its length. It never stores more than `max` bytes, changes
    nothing in memory, and looks at the bytes in such pages only: in a memory where they are the
    same, it comes to the same. -/
theorem copyinstr_fetches_string {s : Vm} {pt : ℕ} (hpa : UserBacked s.mem pt)
    (srcva max : ℕ) :
    ∃ r, copyinstr pt srcva max s = .ok r s ∧
      (r.1 = true ↔ ∃ k < max, StringAt (userAt s.mem pt) srcva k) ∧
      (∀ k < max, StringAt (userAt s.mem pt) srcva k →
        r.2 = (List.range (k + 1)).map (fun i => (userAt s.mem pt (srcva + i)).getD 0) ∧
        fetchstr pt srcva max s = .ok (some k, r.2) s) ∧
      (r.1 = false → fetchstr pt srcva max s = .ok (none, r.2) s) ∧
      r.2.length ≤ max ∧
      ∀ s' : Vm, UserBacked s'.mem pt → userAt s'.mem pt = userAt s.mem pt →
        copyinstr pt srcva max s' = .ok r s' := by
  have hfetch : fetchstr pt srcva max s = .ok
      (if (strAt (userAt s.mem pt) srcva max).1 then
        some (strlen (strAt (userAt s.mem pt) srcva max).2) else none,
        (strAt (userAt s.mem pt) srcva max).2) s := by
    simp only [fetchstr, bind, EStateM.bind, copyinstr_eq hpa]
    rfl
  refine ⟨_, copyinstr_eq hpa srcva max, strAt_found, fun k hk hs => ?_, fun h => ?_,
    length_strAt_le _ _ _, fun s' hpa' he => ?_⟩
  · obtain ⟨hb, hl⟩ := strAt_of_stringAt hs hk
    rw [hfetch, if_pos (strAt_found.2 ⟨k, hk, hs⟩), hl]
    exact ⟨hb, rfl⟩
  · rw [hfetch, if_neg (by simp [h])]
  · rw [copyinstr_eq hpa', he]

/-- The pages mapped for the user in an address space are pages of the allocator. -/
theorem Space.userBacked {k : Kernel} {U R : Multiset ℕ} {f : ℕ → ℕ} (h : Space U R pt f s)
    (hU : Managed k U) (hf : UserOnly f) : UserBacked s.mem pt := by
  intro v hv hV hUs
  rw [h.map v (lt_leafVpn hv)] at hV hUs ⊢
  have hvu : v < userVpn := by
    by_contra hge
    rw [hf v (by omega) hv] at hUs
    cases hUs
  exact (hU.pageAddr (Multiset.mem_of_le h.frames_le (pteAddr_mem_frames hvu hV))).pos.ne'

set_option maxRecDepth 100000 in
theorem userAt_filledVm : (List.range 4).map (fun i => userAt filledVm.mem 0x80007000 (4094 + i)) =
    [some 120, some 118, some 54, some 0] := by
  decide +kernel

/-- The string of `filledVm`, which crosses the end of a page. -/
theorem stringAt_filledVm : StringAt (userAt filledVm.mem 0x80007000) 4094 k ↔ k = 3 := by
  have hbytes := userAt_filledVm
  simp only [List.range_succ, List.range_zero, List.map_cons, List.map_nil, List.nil_append,
    List.cons_append, List.cons.injEq] at hbytes
  obtain ⟨h₀, h₁, h₂, h₃, -⟩ := hbytes
  have hs : StringAt (userAt filledVm.mem 0x80007000) 4094 3 := by
    intro i hi
    interval_cases i
    · exact ⟨120, h₀, by decide⟩
    · exact ⟨118, h₁, by decide⟩
    · exact ⟨54, h₂, by decide⟩
    · exact ⟨0, h₃, by decide⟩
  refine ⟨fun h => ?_, fun h => h ▸ hs⟩
  exact h.unique hs

/-- It is fetched to a buffer that it fits in, and not to one that is a byte too short. -/
theorem copyinstr_fetches_string_filledVm :
    copyinstr 0x80007000 4094 128 filledVm = .ok (true, [120, 118, 54, 0]) filledVm ∧
      fetchstr 0x80007000 4094 128 filledVm = .ok (some 3, [120, 118, 54, 0]) filledVm ∧
      ∃ bs, fetchstr 0x80007000 4094 3 filledVm = .ok (none, bs) filledVm ∧ bs.length ≤ 3 := by
  obtain ⟨hs, hf, -⟩ := space_filledVm
  have hpa := hs.userBacked managed_freePages hf
  have hstr := stringAt_filledVm.2 rfl
  obtain ⟨r, hr, hfound, hbytes, -⟩ := copyinstr_fetches_string hpa 4094 128
  obtain ⟨hb, hfetch⟩ := hbytes 3 (by decide) hstr
  have hb' : r.2 = [120, 118, 54, 0] := by
    have hmap := congrArg (List.map fun c => c.getD 0) userAt_filledVm
    rw [List.map_map] at hmap
    exact hb.trans hmap
  have hr' : r = (true, [120, 118, 54, 0]) := Prod.ext (hfound.2 ⟨3, by decide, hstr⟩) hb'
  rw [hr'] at hr hfetch
  obtain ⟨r', -, hfound', -, hnone, hlen, -⟩ := copyinstr_fetches_string hpa 4094 3
  refine ⟨hr, hfetch, r'.2, hnone ?_, hlen⟩
  refine Bool.eq_false_iff.2 fun h => ?_
  obtain ⟨k, hk, hs⟩ := hfound'.1 h
  exact hk.ne (stringAt_filledVm.1 hs)

end Xv6
