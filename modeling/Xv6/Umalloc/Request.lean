import Xv6.Umalloc.Safe
import Xv6.Vm.Pte

/-!
# Requests of every size

`malloc` takes a `uint`, rounds it up to units, and `morecore` passes their size, a product of 64
bits, to `sbrk`, which takes an `int`. The kernel takes a negative size for a wish to give memory
back: the break goes down, or stays where it is, and the call succeeds. Here the allocator runs on
this `sbrk`, with the memory that the machine has. The header that `morecore` stores may then lie
beyond the pages that are mapped, and the page fault kills the process.

A request is served right exactly if its size is an `int`, or if `sbrk` fails (`malloc_request`).
The search for a free block does not depend on `sbrk`, so that everything before and after the call
of `morecore` is as before.
-/

namespace Xv6.Umalloc

/-- The bytes of memory of the machine, `PHYSTOP - KERNBASE`. -/
def physMem : ℕ := 128 * 1024 * 1024

namespace Arena

/-- `sbrk(n)` and `growproc(n)`: there is not more memory than the machine has, and a size that is
    not positive lowers the break, unless it is below `-brk`. -/
def sbrkInt (a : Arena) (n : ℤ) : Option ℕ × Arena :=
  if 0 < n then
    if a.units * hdrSize + n.toNat ≤ physMem then a.sbrk (n.toNat / hdrSize)
    else (none, { a with answers := a.answers.tail })
  else (some a.brk, { a with brk := if -n ≤ a.brk then (a.brk + n).toNat else a.brk })

/-- The end of the memory that is mapped: the pages up to the break. -/
def mapped (a : Arena) : ℕ := (a.brk + (pgsize - 1)) / pgsize * pgsize

/-- `morecore`; `none` if the store of the header faults, which kills the process. If `sbrk`
    succeeds, the third component has the argument of `sbrk`, and the bytes that the header
    records. -/
def morecoreInt (a : Arena) (nu : ℕ) : Option (ℕ × Arena × List (ℤ × ℕ)) :=
  let nu := if nu < 4096 then 4096 else nu
  let n := toInt (nu * hdrSize)
  match a.sbrkInt n with
  | (none, a) => some (0, a, [])
  | (some p, a) =>
    if p + hdrSize ≤ a.mapped then do
      let h ← (a.heap.setSize p nu).free (2 * a.units + 4) (p + hdrSize)
      some (h.freep, { a with heap := h }, [(n, nu * hdrSize)])
    else none

/-- The loop of `malloc`. -/
def mallocLoopInt (nunits : ℕ) : ℕ → ℕ → ℕ → Arena → List (ℤ × ℕ) →
    Option (ℕ × Arena × List (ℤ × ℕ))
  | 0, _, _, _, _ => none
  | fuel + 1, prevp, p, a, asked =>
    if a.heap.size p ≥ nunits then
      some ((a.take nunits prevp p).1, (a.take nunits prevp p).2, asked)
    else if p = a.heap.freep then do
      let (p, a, asked') ← a.morecoreInt nunits
      if p = 0 then some (0, a, asked ++ asked')
      else mallocLoopInt nunits fuel p (a.heap.ptr p) a (asked ++ asked')
    else mallocLoopInt nunits fuel p (a.heap.ptr p) a asked

/-- `malloc`; `none` if it does not return. -/
def mallocInt (base : ℕ) (a : Arena) (nbytes : ℕ) : Option (ℕ × Arena × List (ℤ × ℕ)) :=
  let a := { a with heap := start base a.heap }
  mallocLoopInt (nunits nbytes) (2 * a.units + 4) a.heap.freep (a.heap.ptr a.heap.freep) a []

/-- What `malloc` does behind the first round of its search. -/
def growInt (nunits fuel : ℕ) (a : Arena) (asked : List (ℤ × ℕ)) :
    Option (ℕ × Arena × List (ℤ × ℕ)) := do
  let (p, a, asked') ← a.morecoreInt nunits
  if p = 0 then some (0, a, asked ++ asked')
  else mallocLoopInt nunits fuel p (a.heap.ptr p) a (asked ++ asked')

/-- What `malloc` does where its search ends. -/
def finishInt (nunits : ℕ) (a : Arena) (asked : List (ℤ × ℕ)) :
    Found → Option (ℕ × Arena × List (ℤ × ℕ))
  | .block prevp p => some ((a.take nunits prevp p).1, (a.take nunits prevp p).2, asked)
  | .round k => a.growInt nunits k asked

end Arena

/-- A call of `malloc` in the state `s` is served right: it returns NULL, or a new live block for
    the bytes asked for, all of them obtained from `sbrk` and below the break; the heap can be used
    further; and every header records no more than `sbrk` was asked for. -/
def Served (base : ℕ) (s : Prog) (n : ℕ) (answers : List (Option ℕ)) : Prop :=
  ∃ r, Arena.mallocInt base { s.arena with answers := answers } n = some r ∧
    (∀ c ∈ r.2.2, (c.2 : ℤ) ≤ c.1) ∧ r.2.1.units * hdrSize ≤ physMem ∧
    (r.1 = 0 ∧ HeapSound base ⟨r.2.1, s.live⟩ ∨
      r.1 ≠ 0 ∧ HeapSound base ⟨r.2.1, (r.1, n) :: s.live⟩ ∧
        ∀ k < n, r.2.1.Obtained (r.1 + k) ∧ r.1 + k < r.2.1.brk)

variable {base k n x p nunits fuel : ℕ} {a : Arena} {s : Prog} {bs ls : List Blk}
  {asked : List (ℤ × ℕ)} {r : ℕ × Arena × List (ℤ × ℕ)}

theorem mallocLoopInt_eq_find (nunits n x p : ℕ) : Arena.mallocLoopInt nunits n x p a asked =
    (a.heap.find nunits n x p).bind (a.finishInt nunits asked) := by
  induction n generalizing x p with
  | zero => rfl
  | succ n ih =>
    rw [Arena.mallocLoopInt, Heap.find]
    split_ifs with hfit hend
    · rfl
    · rfl
    · exact ih p _

/-- What was asked for stays on record. -/
theorem asked_subset (h : Arena.mallocLoopInt nunits fuel x p a asked = some r) :
    ∀ c ∈ asked, c ∈ r.2.2 := by
  induction fuel generalizing x p a asked with
  | zero => cases h
  | succ fuel ih =>
    rw [Arena.mallocLoopInt] at h
    split_ifs at h with hfit hend
    · cases h
      exact fun _ hc => hc
    · obtain ⟨⟨q, a', asked'⟩, -, h⟩ := Option.bind_eq_some_iff.1 h
      dsimp only at h
      split_ifs at h
      · cases h
        exact fun _ hc => List.mem_append_left _ hc
      · exact fun c hc => ih h c (List.mem_append_left _ hc)
    · exact ih h

/-! ## The size of a request -/

/-- The requests whose size is an `int`. -/
theorem nunits_lt_iff (hn : n < 2 ^ 32) : Arena.nunits n * hdrSize < 2 ^ 31 ↔ n + 31 < 2 ^ 31 := by
  rw [nunits_eq hn, hdrSize]
  omega

/-- The units of a free block were obtained from `sbrk`. -/
theorem ArenaOk.size_le (h : ArenaOk base a bs ls) {b : Blk} (hb : b ∈ bs) : b.size ≤ a.units := by
  have hsum := h.units
  have hle : b.size ≤ Umalloc.units bs := List.single_le_sum (fun _ _ => Nat.zero_le _) _
    (List.mem_map_of_mem hb)
  rw [units_append] at hsum
  omega

/-! ## A call of `malloc` -/

/-- What `malloc` returns is right if the blocks of the memory are. -/
theorem served_of_mallocOk {answers : List (Option ℕ)} (hn : n < 2 ^ 32) (hown : Owns s ls)
    (hr : Arena.mallocInt base { s.arena with answers := answers } n = some r)
    (hasked : ∀ c ∈ r.2.2, (c.2 : ℤ) ≤ c.1) (hmem : r.2.1.units * hdrSize ≤ physMem)
    (hok : MallocOk base (Arena.nunits n) ls (r.1, r.2.1)) : Served base s n answers := by
  refine ⟨r, hr, hasked, hmem, ?_⟩
  rcases hok with ⟨hz, bs, hok⟩ | ⟨q, bs, hq, hsize, hok⟩
  · exact .inl ⟨hz, .inr ⟨bs, ls, hok, hown⟩⟩
  · have hne : r.1 ≠ 0 := by
      have := hq
      dsimp only at this
      rw [hdrSize] at this
      omega
    refine .inr ⟨hne, .inr ⟨bs, q :: ls, hok, .cons ⟨hq, hsize ▸ le_nunits hn⟩ hown⟩, fun k hk => ?_⟩
    have hle : n + hdrSize ≤ hdrSize * q.size := hsize ▸ le_nunits hn
    have hhas : q.Has (r.1 + k) := by
      dsimp only at hq
      rw [Blk.Has, Blk.top, hq]
      omega
    exact ⟨hok.inside q (by simp) _ hhas, hhas.2.trans_le (hok.top q (by simp))⟩

theorem sbrkInt_of_lt (hn : n * hdrSize < 2 ^ 31) (hpos : 0 < n) :
    a.sbrkInt (toInt (n * hdrSize)) = if a.units * hdrSize + n * hdrSize ≤ physMem then a.sbrk n
      else (none, { a with answers := a.answers.tail }) := by
  have hdiv : n * hdrSize / hdrSize = n := Nat.mul_div_cancel _ (by decide)
  have hnat : 0 < n * hdrSize := Nat.mul_pos hpos (by decide)
  rw [toInt_of_lt hn, Arena.sbrkInt, if_pos (by exact_mod_cast hnat), Int.toNat_natCast, hdiv]

/-- The answer of `sbrk` does not depend on the heap. -/
theorem sbrkInt_heap (a : Arena) (h : Heap) (m : ℤ) :
    (({ a with heap := h } : Arena).sbrkInt m).1 = (a.sbrkInt m).1 := by
  unfold Arena.sbrkInt Arena.sbrk Arena.units
  dsimp only
  split_ifs
  · cases a.answers with
    | nil => rfl
    | cons d _ => cases d <;> rfl
  all_goals rfl

theorem ArenaOk.sbrkInt_fail {m : ℤ} (h : ArenaOk base a bs ls) (hf : (a.sbrkInt m).1 = none) :
    ArenaOk base (a.sbrkInt m).2 bs ls ∧ (a.sbrkInt m).2.units = a.units := by
  rw [Arena.sbrkInt] at hf ⊢
  split_ifs at hf ⊢
  · refine ⟨h.sbrk_fail hf, ?_⟩
    unfold Arena.sbrk at hf ⊢
    split at hf
    · cases hf
    · rfl
    · rfl
  · exact ⟨h.answers _, rfl⟩

/-- `sbrk` has failed, and nothing has changed. -/
theorem growInt_of_fail (hf : (a.sbrkInt (toInt (coreUnits nunits * hdrSize))).1 = none) :
    a.growInt nunits k asked =
      some (0, (a.sbrkInt (toInt (coreUnits nunits * hdrSize))).2, asked) := by
  rw [Arena.growInt, Arena.morecoreInt, ← coreUnits]
  dsimp only
  generalize a.sbrkInt (toInt (coreUnits nunits * hdrSize)) = r at hf
  obtain ⟨p, a'⟩ := r
  subst hf
  simp [bind]

/-- The memory below the break is mapped. -/
theorem le_mapped (a : Arena) : a.brk ≤ a.mapped := by
  rw [Arena.mapped, show pgsize = 4096 from rfl]
  omega

/-- A request for more memory whose size is an `int`. -/
theorem ArenaOk.growInt (h : ArenaOk base a bs ls) (hb : 0 < base) (hn : 0 < nunits)
    (hk : bs.length + 2 ≤ k) (hmem : a.units * hdrSize ≤ physMem)
    (hsize : coreUnits nunits * hdrSize < 2 ^ 31) :
    ∃ r, a.growInt nunits k [] = some r ∧ (∀ c ∈ r.2.2, (c.2 : ℤ) ≤ c.1) ∧
      r.2.1.units * hdrSize ≤ physMem ∧ MallocOk base nunits ls (r.1, r.2.1) := by
  obtain ⟨hcore, hmin⟩ := le_coreUnits nunits
  rcases Option.eq_none_or_eq_some (a.sbrkInt (toInt (coreUnits nunits * hdrSize))).1 with
    hf | ⟨p, hp⟩
  · obtain ⟨hok, hunits⟩ := h.sbrkInt_fail hf
    refine ⟨_, growInt_of_fail hf, fun c hc => absurd hc List.not_mem_nil, ?_, .inl ⟨rfl, bs, hok⟩⟩
    rw [hunits]
    exact hmem
  · have hsbrk := sbrkInt_of_lt (a := a) hsize (by omega)
    by_cases hfit : a.units * hdrSize + coreUnits nunits * hdrSize ≤ physMem
    · rw [if_pos hfit] at hsbrk
      rw [hsbrk] at hp
      obtain ⟨d, answers, hans⟩ : ∃ d answers, a.answers = some d :: answers := by
        unfold Arena.sbrk at hp
        split at hp
        next d answers hans => exact ⟨d, answers, hans⟩
        all_goals cases hp
      have hu : a.units + coreUnits nunits < 2 ^ 32 := by
        rw [hdrSize, physMem] at hfit
        omega
      obtain ⟨h', prevp, q, hfree, hne, hfind, hrok⟩ := h.core hb hn hk hu d answers
      generalize hres : Arena.take _ nunits prevp q = res at hrok
      refine ⟨(res.1, res.2, [(toInt (coreUnits nunits * hdrSize), coreUnits nunits * hdrSize)]),
        ?_, ?_, ?_, hrok⟩
      · -- The header is below the new break.
        have hmapped : a.brk + d + hdrSize ≤ Arena.mapped ⟨a.heap,
            a.brk + d + coreUnits nunits * hdrSize, (a.brk + d, coreUnits nunits) :: a.got,
            answers⟩ := by
          refine le_trans ?_ (le_mapped _)
          exact Nat.add_le_add_left (Nat.le_mul_of_pos_left _ (by omega)) _
        rw [Arena.growInt, Arena.morecoreInt, ← coreUnits, ← hres]
        simp only [hsbrk, Arena.sbrk, hans, if_pos hmapped, hfree, Option.bind_some, bind, if_neg hne,
          mallocLoopInt_eq_find, hfind, Arena.finishInt, List.nil_append]
      · intro c hc
        rw [List.mem_singleton.1 hc, toInt_of_lt hsize]
      · rw [← hres, units_take, units_got, Nat.add_mul]
        exact hfit
    · rw [if_neg hfit] at hsbrk
      rw [hsbrk] at hp
      cases hp

/-- A request for more memory whose size is no `int` is not served right, unless `sbrk` fails. -/
theorem asked_of_growInt (hsize : 2 ^ 31 ≤ coreUnits nunits * hdrSize)
    (hs : (a.sbrkInt (toInt (coreUnits nunits * hdrSize))).1 ≠ none)
    (hr : a.growInt nunits k [] = some r) : ∃ c ∈ r.2.2, c.1 < (c.2 : ℤ) := by
  refine ⟨(toInt (coreUnits nunits * hdrSize), coreUnits nunits * hdrSize), ?_, toInt_lt_of_le hsize⟩
  rw [Arena.growInt, Arena.morecoreInt, ← coreUnits] at hr
  dsimp only at hr
  generalize hres : a.sbrkInt (toInt (coreUnits nunits * hdrSize)) = res at hr hs
  obtain ⟨p, a'⟩ := res
  cases p with
  | none => exact absurd rfl hs
  | some p =>
    dsimp only at hr
    obtain ⟨⟨q, a₁, asked₁⟩, hm, hr⟩ := Option.bind_eq_some_iff.1 hr
    split_ifs at hm
    obtain ⟨h', -, hm⟩ := Option.bind_eq_some_iff.1 hm
    cases hm
    dsimp only at hr
    split_ifs at hr
    · cases hr
      exact List.mem_singleton_self _
    · exact asked_subset hr _ (List.mem_singleton_self _)

/-- A call of `malloc` that `sbrk` has taken for a smaller one. -/
theorem not_served {answers : List (Option ℕ)}
    (hr : Arena.mallocInt base { s.arena with answers := answers } n =
      a.growInt (Arena.nunits n) k []) (hsize : 2 ^ 31 ≤ coreUnits (Arena.nunits n) * hdrSize)
    (hs : (a.sbrkInt (toInt (coreUnits (Arena.nunits n) * hdrSize))).1 ≠ none) :
    ¬ Served base s n answers := by
  rintro ⟨r, hcall, hasked, -⟩
  obtain ⟨c, hc, hlt⟩ := asked_of_growInt hsize hs (hr.symm.trans hcall)
  exact absurd (hasked c hc) (not_le.2 hlt)

/-- A call of `malloc`, in any state of the heap and for any answer of `sbrk`, is served right
    exactly if its size, rounded to units, is an `int`, or if `sbrk` fails. -/
theorem malloc_request (base : ℕ) (s : Prog) (hb : 0 < base) (hs : HeapSound base s)
    (hmem : s.arena.units * hdrSize ≤ physMem) (n : ℕ) (hn : n < 2 ^ 32)
    (answers : List (Option ℕ)) :
    Served base s n answers ↔ n + 31 < 2 ^ 31 ∨
      (({ s.arena with answers := answers } : Arena).sbrkInt
        (toInt (coreUnits (Arena.nunits n) * hdrSize))).1 = none := by
  obtain ⟨bs, ls, hok, hown⟩ := hs.start hb answers
  generalize ha : ({ s.arena with heap := Arena.start base s.arena.heap, answers := answers } :
    Arena) = a at hok
  have hunits : a.units = s.arena.units := by
    rw [← ha]
    rfl
  rw [← hunits] at hmem
  have hpos := nunits_pos hn
  have hu : a.units < 2 ^ 23 + 1 := by
    rw [hdrSize, physMem] at hmem
    omega
  have hcall : Arena.mallocInt base { s.arena with answers := answers } n =
      (a.heap.find (Arena.nunits n) (2 * a.units + 4) a.heap.freep (a.heap.ptr a.heap.freep)).bind
        (a.finishInt (Arena.nunits n) []) := by
    rw [Arena.mallocInt, mallocLoopInt_eq_find, ← ha]
  have hsbrk : (({ s.arena with answers := answers } : Arena).sbrkInt
      (toInt (coreUnits (Arena.nunits n) * hdrSize))).1 =
      (a.sbrkInt (toInt (coreUnits (Arena.nunits n) * hdrSize))).1 := by
    rw [← ha]
    exact (sbrkInt_heap _ _ _).symm
  have hlen := hok.list.length_le
  have hsum := hok.units
  rw [units_append] at hsum
  obtain ⟨k, hk⟩ : ∃ k, 2 * a.units + 4 = k + bs.length + 1 := ⟨2 * a.units + 3 - bs.length, by omega⟩
  rw [hk] at hcall
  rw [hsbrk]
  rcases hok.list.find_round hpos k with ⟨pre, c, post, rfl, hc, heq⟩ | ⟨-, heq⟩
  · -- A free block is large enough.
    have hle := hok.size_le (List.mem_append_right pre List.mem_cons_self)
    have hlt : n + 31 < 2 ^ 31 := by
      rw [← nunits_lt_iff hn, hdrSize]
      omega
    obtain ⟨q, h', bs', htake, hq, hqok⟩ := hok.take (by omega) hpos hc
    rw [heq, Option.bind_some, Arena.finishInt, htake] at hcall
    refine iff_of_true ?_ (.inl hlt)
    exact served_of_mallocOk hn hown hcall (fun c hc => absurd hc List.not_mem_nil) hmem
      (.inr ⟨q, bs', rfl, hq, hqok⟩)
  · rw [heq, Option.bind_some, Arena.finishInt] at hcall
    obtain ⟨hcore, hmin⟩ := le_coreUnits (Arena.nunits n)
    rcases lt_or_ge (coreUnits (Arena.nunits n) * hdrSize) (2 ^ 31) with hsize | hsize
    · have hlt : n + 31 < 2 ^ 31 := by
        rw [← nunits_lt_iff hn]
        exact (Nat.mul_le_mul_right _ hcore).trans_lt hsize
      obtain ⟨r, hr, hasked, hrmem, hrok⟩ := hok.growInt hb hpos (k := k) (by omega) hmem hsize
      exact iff_of_true (served_of_mallocOk hn hown (hcall.trans hr) hasked hrmem hrok) (.inl hlt)
    · by_cases hf : (a.sbrkInt (toInt (coreUnits (Arena.nunits n) * hdrSize))).1 = none
      · obtain ⟨hfok, hfu⟩ := hok.sbrkInt_fail hf
        refine iff_of_true ?_ (.inr hf)
        refine served_of_mallocOk hn hown (hcall.trans (growInt_of_fail hf))
          (fun c hc => absurd hc List.not_mem_nil) ?_ (.inl ⟨rfl, bs, hfok⟩)
        rw [hfu]
        exact hmem
      · refine iff_of_false (not_served hcall hsize hf) ?_
        rintro (hlt | hnone)
        · rw [← nunits_lt_iff hn] at hlt
          rw [coreUnits, hdrSize] at hsize
          rw [hdrSize] at hlt
          split_ifs at hsize <;> omega
        · exact hf hnone

/-- A hundred bytes on a fresh heap. -/
theorem malloc_request_hundred : Served 16 freshProg 100 [some 0] :=
  (malloc_request 16 freshProg (by decide) (.inl ⟨rfl, rfl, rfl, by decide⟩) (by decide) 100
    (by decide) [some 0]).2 (.inl (by decide))

/-- A program that was just started, with the break at the end of a page. -/
def startedProg : Prog := ⟨⟨⟨fun _ => 0, fun _ => 0, 0⟩, 5 * pgsize, [], []⟩, []⟩

theorem mallocInt_started : Arena.mallocInt 16 { startedProg.arena with answers := [] } (2 ^ 31) =
    none := by
  decide

theorem mallocInt_fresh : (Arena.mallocInt 16 { freshProg.arena with answers := [] } (2 ^ 31)).map
    (fun r => (r.1, r.2.1.got, r.2.2)) = some (48, [], [(-2147483632, 2147483664)]) := by
  decide

/-- A call for 2 GiB: `sbrk` is asked for `-2147483632` bytes, and succeeds. If the break is at the
    end of a page, the store of the header kills the process; and otherwise the bytes that the
    pointer leads to were never obtained. -/
theorem malloc_shrinks :
    (HeapSound 16 startedProg ∧ startedProg.arena.units * hdrSize ≤ physMem ∧
      Arena.mallocInt 16 { startedProg.arena with answers := [] } (2 ^ 31) = none ∧
      ¬ Served 16 startedProg (2 ^ 31) []) ∧
    HeapSound 16 freshProg ∧ freshProg.arena.units * hdrSize ≤ physMem ∧
      (∃ r, Arena.mallocInt 16 { freshProg.arena with answers := [] } (2 ^ 31) = some r ∧
        r.1 = 48 ∧ r.2.2 = [(-2147483632, 2147483664)] ∧ ¬ r.2.1.Obtained 48) ∧
      ¬ Served 16 freshProg (2 ^ 31) [] := by
  refine ⟨⟨.inl ⟨rfl, rfl, rfl, by decide⟩, by decide, mallocInt_started, ?_⟩,
    .inl ⟨rfl, rfl, rfl, by decide⟩, by decide, ?_⟩
  · rintro ⟨r, hr, -⟩
    rw [mallocInt_started] at hr
    cases hr
  · obtain ⟨r, hr, heq⟩ := Option.map_eq_some_iff.1 mallocInt_fresh
    obtain ⟨hp, hgot, hasked⟩ : r.1 = 48 ∧ r.2.1.got = [] ∧ r.2.2 = [(-2147483632, 2147483664)] := by
      simpa using heq
    refine ⟨⟨r, hr, hp, hasked, ?_⟩, ?_⟩
    · rintro ⟨x, hx, -⟩
      rw [hgot] at hx
      cases hx
    · rintro ⟨r', hr', hle, -⟩
      cases hr.symm.trans hr'
      exact absurd (hle (-2147483632, 2147483664) (by rw [hasked]; simp)) (by decide)

end Xv6.Umalloc
