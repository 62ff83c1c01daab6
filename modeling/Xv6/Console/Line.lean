import Xv6.Console.Basic
import Xv6.Lib.Ring

/-!
# The line discipline

What the console is for, as an abstract machine (`Line`): a queue of bytes that can be read, and a
line that is being edited and moves to the end of the queue when it is complete. The three indices
into the ring buffer implement it (`console_refines`), also when they have wrapped. So no byte of
the queue is changed by what is typed later, and the bytes that are read are those that were put
into the queue, in their order.
-/

namespace Xv6

/-- The console as a queue and a line. -/
@[ext] structure Line where
  /-- The bytes that can be read. -/
  queue : List UInt8
  /-- The line that is being edited. -/
  edit : List UInt8
  /-- The reads in progress: the number of bytes that are wanted, and those that were got. -/
  read : ℕ → Option (ℤ × List UInt8)
  /-- What the last read of each process has returned. -/
  ret : ℕ → Option (ℤ × List UInt8)

namespace Line

variable (s : Line) (p : ℕ)

/-- A byte is typed that is not a command, or it is ignored as there is no room for it. The line is
    complete at the end of a line, at the end of the file, and when the buffer is full. -/
def append (c : UInt8) : Line :=
  if s.queue.length + s.edit.length = inputBufSize.toNat then s
  else
    let c := if c = 13 then 10 else c
    if c = 10 ∨ c = ctrl 'D' ∨ s.queue.length + s.edit.length + 1 = inputBufSize.toNat then
      { s with queue := s.queue ++ (s.edit ++ [c]), edit := [] }
    else { s with edit := s.edit ++ [c] }

/-- A byte is typed. -/
def intr (c : UInt8) : Line :=
  if c = ctrl 'P' ∨ c = 0 then s
  else if c = ctrl 'U' then { s with edit := [] }
  else if c = ctrl 'H' ∨ c = 0x7f then { s with edit := s.edit.dropLast }
  else s.append c

/-- The read of the process returns. -/
def finish (r : ℤ) (got : List UInt8) : Line :=
  { s with
    read := Function.update s.read p none
    ret := Function.update s.ret p (some (r, got)) }

/-- A byte is read from the front of the queue. The end of the file ends the read; it is left in the
    queue if the read has got something, so that the next one gets nothing. -/
def take (n : ℤ) (got : List UInt8) (c : UInt8) (queue : List UInt8) : Line :=
  if c = ctrl 'D' then
    if got = [] then { s with queue := queue }.finish p 0 [] else s.finish p got.length got
  else if c = 10 then
    { s with queue := queue }.finish p (got.length + 1) (got ++ [c])
  else { s with queue := queue, read := Function.update s.read p (some (n, got ++ [c])) }

/-- Take an action, if it is possible. -/
def exec : ConsAct → Option Line
  | .intr c => some (s.intr c)
  | .start p n =>
    match s.read p with
    | none => some { s with read := Function.update s.read p (some (n, [])) }
    | some _ => none
  | .byte p _ =>
    match s.read p with
    | some (n, got) =>
      if (got.length : ℤ) < n then
        match s.queue with
        | [] => none
        | c :: queue => some (s.take p n got c queue)
      else some (s.finish p got.length got)
    | none => none
  | .kill p =>
    match s.read p with
    | some (n, got) =>
      if (got.length : ℤ) < n ∧ s.queue = [] then some (s.finish p (-1) got) else none
    | none => none

/-- The bytes that an action puts into the queue. -/
def commits : ConsAct → List UInt8
  | .intr c => (s.intr c).queue.drop s.queue.length
  | _ => []

/-- The byte that an action takes from the queue. -/
def takes : ConsAct → List UInt8
  | .byte p _ =>
    match s.read p, s.queue with
    | some (n, got), c :: _ =>
      if (got.length : ℤ) < n ∧ (c = ctrl 'D' → got = []) then [c] else []
    | _, _ => []
  | _ => []

/-- The byte that an action delivers to the process. -/
def delivers : ConsAct → List UInt8
  | .byte p _ =>
    match s.read p, s.queue with
    | some (n, got), c :: _ => if (got.length : ℤ) < n ∧ c ≠ ctrl 'D' then [c] else []
    | _, _ => []
  | _ => []

end Line

/-- The abstract console. -/
def lineSystem : System Line ConsAct where
  init := {s | s.queue = [] ∧ s.edit = [] ∧ ∀ p, s.read p = none}
  step s a s' := s.exec a = some s'

/-! ## What an abstract step does to the queue -/

namespace Line

variable {s t : Line} {a : ConsAct} {c : UInt8}

/-- What is typed only comes to the end of the queue. -/
theorem queue_intr (s : Line) (c : UInt8) : s.queue ++ s.commits (.intr c) = (s.intr c).queue := by
  have hpre : s.queue <+: (s.intr c).queue := by
    unfold intr append
    dsimp only
    split_ifs <;> first | exact List.prefix_refl _ | exact List.prefix_append ..
  obtain ⟨l, hl⟩ := hpre
  rw [commits, ← hl, List.drop_left]

/-- What is put into the queue comes to its end, and what is taken comes from its front. -/
theorem queue_exec (hs : s.exec a = some t) : s.queue ++ s.commits a = s.takes a ++ t.queue := by
  cases a with
  | intr c =>
    cases hs
    exact queue_intr s c
  | start p n =>
    simp only [exec] at hs
    split at hs
    · cases hs
      exact List.append_nil _
    · cases hs
  | byte p ok =>
    rw [show s.commits (.byte p ok) = [] from rfl, List.append_nil]
    cases hr : s.read p with
    | none =>
      simp only [exec, hr] at hs
      cases hs
    | some x =>
      obtain ⟨n, got⟩ := x
      simp only [exec, hr] at hs
      split at hs
      next hlt =>
        cases hq : s.queue with
        | nil =>
          rw [hq] at hs
          cases hs
        | cons c q =>
          rw [hq] at hs
          cases hs
          simp only [takes, hr, hq, take]
          by_cases hc : c = ctrl 'D'
          · by_cases hg : got = []
            · rw [if_pos hc, if_pos hg, if_pos ⟨hlt, fun _ => hg⟩]
              rfl
            · rw [if_pos hc, if_neg hg, if_neg fun h => hg (h.2 hc)]
              exact hq.symm
          · rw [if_neg hc, if_pos ⟨hlt, fun h => absurd h hc⟩]
            split <;> rfl
      next hlt =>
        cases hs
        have htakes : s.takes (.byte p ok) = [] := by
          simp only [takes, hr]
          split
          · rename_i heq _
            cases heq
            exact if_neg fun h => hlt h.1
          · rfl
        rw [htakes]
        rfl
  | kill p =>
    simp only [exec] at hs
    split at hs
    · split at hs
      · cases hs
        exact List.append_nil _
      · cases hs
    · cases hs

/-- All that is taken is delivered, except for the end of the file. -/
theorem delivers_eq (s : Line) (a : ConsAct) :
    s.delivers a = (s.takes a).filter (· ≠ ctrl 'D') := by
  cases a with
  | byte p ok =>
    simp only [delivers, takes]
    split
    · rename_i n got c q _ _
      by_cases hc : c = ctrl 'D'
      · rw [if_neg fun h => h.2 hc]
        split
        · rw [List.filter_cons_of_neg (by simp [hc])]
          rfl
        · rfl
      · by_cases hlt : (got.length : ℤ) < n
        · rw [if_pos ⟨hlt, hc⟩, if_pos ⟨hlt, fun h => absurd h hc⟩]
          refine (List.filter_eq_self.2 fun x hx => ?_).symm
          rw [List.mem_singleton.1 hx]
          exact decide_eq_true hc
        · rw [if_neg fun h => hlt h.1, if_neg fun h => hlt h.1]
          rfl
    · rfl
  | _ => rfl

end Line

/-! ## The refinement -/

theorem inputBufSize_dvd : inputBufSize.toNat ∣ 2 ^ 32 := by decide

namespace ConsState

/-- The queue and the line that the ring buffer holds. -/
def abs (s : ConsState) : Line where
  queue := Ring.contents inputBufSize s.cons.buf s.cons.r s.cons.w
  edit := Ring.contents inputBufSize s.cons.buf s.cons.w s.cons.e
  read p := (s.read p).map fun rd => (rd.target, rd.out)
  ret := s.ret

/-- There is room for the queue and the line, the line is not complete, and the reads count what
    they get. -/
structure Inv (s : ConsState) : Prop where
  room : (s.cons.w - s.cons.r).toNat + (s.cons.e - s.cons.w).toNat ≤ inputBufSize.toNat
  edit : 10 ∉ Ring.contents inputBufSize s.cons.buf s.cons.w s.cons.e
  read : ∀ p rd, s.read p = some rd → rd.target - rd.n = rd.out.length

variable {s t : ConsState} {a : ConsAct} {p : ℕ}

theorem Inv.room' (h : s.Inv) :
    (s.cons.e - s.cons.r).toNat = s.abs.queue.length + s.abs.edit.length := by
  have hroom := h.room
  rw [abs, Ring.length_contents, Ring.length_contents]
  refine Ring.toNat_append (hroom.trans_lt (by decide))

/-! ### `consoleintr` -/

/-- The loop for `^U` empties the line. -/
theorem killLine_eq {fuel : ℕ} {c : Cons} (hfuel : (c.e - c.w).toNat ≤ fuel)
    (hedit : 10 ∉ Ring.contents inputBufSize c.buf c.w c.e) :
    c.killLine fuel = { c with e := c.w } := by
  obtain ⟨buf, r, w, e⟩ := c
  dsimp only at hfuel hedit ⊢
  induction fuel generalizing e with
  | zero =>
    obtain rfl : e = w := by
      have h₀ : e - w = 0 := UInt32.toNat_inj.1 (Nat.le_zero.1 hfuel)
      grind
    rfl
  | succ fuel ih =>
    by_cases he : e = w
    · subst he
      simp [Cons.killLine]
    · have hne : w ≠ e := fun h => he h.symm
      rw [Ring.contents_dropLast hne, List.mem_append, not_or, List.mem_singleton] at hedit
      have hsize := Ring.toNat_pop hne
      rw [show e - (w + 1) = e - 1 - w by grind] at hsize
      rw [Cons.killLine, if_pos ⟨he, fun h => hedit.2 h.symm⟩]
      exact ih (e - 1) (by omega) hedit.1

theorem Inv.lt_iff (h : s.Inv) : s.cons.e - s.cons.r < inputBufSize ↔
    s.abs.queue.length + s.abs.edit.length ≠ inputBufSize.toNat := by
  have hroom := h.room
  rw [UInt32.lt_iff_toNat_lt, h.room']
  rw [abs, Ring.length_contents, Ring.length_contents]
  omega

theorem Inv.room_of_lt (h : s.Inv) (hlt : s.cons.e - s.cons.r < inputBufSize) :
    (s.cons.w - s.cons.r).toNat + (s.cons.e - s.cons.w).toNat < inputBufSize.toNat := by
  rw [UInt32.lt_iff_toNat_lt, h.room', abs, Ring.length_contents, Ring.length_contents] at hlt
  exact hlt

theorem Inv.push (h : s.Inv) (hlt : s.cons.e - s.cons.r < inputBufSize) (c : UInt8) :
    Ring.contents inputBufSize (Function.update s.cons.buf (s.cons.e % inputBufSize) c) s.cons.r
        s.cons.w = s.abs.queue ∧
      Ring.contents inputBufSize (Function.update s.cons.buf (s.cons.e % inputBufSize) c) s.cons.w
        (s.cons.e + 1) = s.abs.edit ++ [c] ∧
      (s.cons.e + 1 - s.cons.w).toNat = (s.cons.e - s.cons.w).toNat + 1 := by
  have hroom := h.room_of_lt hlt
  obtain ⟨hqueue, hedit⟩ := Ring.contents_push_append inputBufSize_dvd hroom c
  exact ⟨hqueue, hedit, Ring.toNat_push inputBufSize_dvd (by omega)⟩

/-- A byte is stored at the end of the line. -/
theorem abs_store (h : s.Inv) (hlt : s.cons.e - s.cons.r < inputBufSize) {c : UInt8} (hc : c ≠ 10)
    (ht : t = { s with cons := { s.cons with
      buf := Function.update s.cons.buf (s.cons.e % inputBufSize) c
      e := s.cons.e + 1 } }) :
    t.Inv ∧ t.abs = { s.abs with edit := s.abs.edit ++ [c] } := by
  have hroom := h.room_of_lt hlt
  obtain ⟨hqueue, hedit, hsize⟩ := h.push hlt c
  subst ht
  refine ⟨⟨?_, ?_, h.read⟩, Line.ext hqueue hedit rfl rfl⟩
  · change (s.cons.w - s.cons.r).toNat + (s.cons.e + 1 - s.cons.w).toNat ≤ _
    omega
  · rw [hedit, List.mem_append, not_or, List.mem_singleton]
    exact ⟨h.edit, Ne.symm hc⟩

/-- A byte is stored that completes the line. -/
theorem abs_commit (h : s.Inv) (hlt : s.cons.e - s.cons.r < inputBufSize) {c : UInt8}
    (ht : t = { s with cons := { s.cons with
      buf := Function.update s.cons.buf (s.cons.e % inputBufSize) c
      w := s.cons.e + 1
      e := s.cons.e + 1 } }) :
    t.Inv ∧ t.abs = { s.abs with queue := s.abs.queue ++ (s.abs.edit ++ [c]), edit := [] } := by
  have hroom := h.room_of_lt hlt
  have hle : inputBufSize.toNat < 2 ^ 32 := by decide
  obtain ⟨hqueue, hedit, hsize⟩ := h.push hlt c
  have hall := Ring.toNat_append (r := s.cons.r) (w := s.cons.w) (e := s.cons.e + 1) (by omega)
  have hself : (s.cons.e + 1 - (s.cons.e + 1)).toNat = 0 := by simp
  subst ht
  refine ⟨⟨?_, ?_, h.read⟩, Line.ext ?_ Ring.contents_self rfl rfl⟩
  · change (s.cons.e + 1 - s.cons.r).toNat + (s.cons.e + 1 - (s.cons.e + 1)).toNat ≤ _
    omega
  · change 10 ∉ Ring.contents _ _ (s.cons.e + 1) (s.cons.e + 1)
    rw [Ring.contents_self]
    exact List.not_mem_nil
  · change Ring.contents _ _ s.cons.r (s.cons.e + 1) = _
    rw [Ring.contents_append (w := s.cons.w) (by omega), hqueue, hedit]

/-- `^U` drops the line. -/
theorem abs_killLine (h : s.Inv)
    (ht : t = { s with cons := s.cons.killLine (s.cons.e - s.cons.w).toNat }) :
    t.Inv ∧ t.abs = { s.abs with edit := [] } := by
  have hroom := h.room
  have hself : (s.cons.w - s.cons.w).toNat = 0 := by simp
  rw [killLine_eq le_rfl h.edit] at ht
  subst ht
  refine ⟨⟨?_, ?_, h.read⟩, Line.ext rfl Ring.contents_self rfl rfl⟩
  · change (s.cons.w - s.cons.r).toNat + (s.cons.w - s.cons.w).toNat ≤ _
    omega
  · change 10 ∉ Ring.contents _ _ s.cons.w s.cons.w
    rw [Ring.contents_self]
    exact List.not_mem_nil

/-- A backspace drops the last byte of the line. -/
theorem abs_backspace (h : s.Inv)
    (ht : t = { s with cons := if s.cons.e ≠ s.cons.w then { s.cons with e := s.cons.e - 1 }
      else s.cons }) : t.Inv ∧ t.abs = { s.abs with edit := s.abs.edit.dropLast } := by
  by_cases he : s.cons.e = s.cons.w
  · have hnil : s.abs.edit = [] := by
      change Ring.contents _ _ _ _ = _
      rw [he, Ring.contents_self]
    rw [if_neg (not_not.2 he)] at ht
    subst ht
    refine ⟨h, Line.ext rfl ?_ rfl rfl⟩
    change s.abs.edit = s.abs.edit.dropLast
    rw [hnil]
    rfl
  · have hne : s.cons.w ≠ s.cons.e := fun h => he h.symm
    have hdrop : s.abs.edit = Ring.contents inputBufSize s.cons.buf s.cons.w (s.cons.e - 1) ++ _ :=
      Ring.contents_dropLast hne
    have hsize := Ring.toNat_pop hne
    rw [show s.cons.e - (s.cons.w + 1) = s.cons.e - 1 - s.cons.w by grind] at hsize
    have hroom := h.room
    rw [if_pos he] at ht
    subst ht
    refine ⟨⟨?_, fun hmem => h.edit ?_, h.read⟩, Line.ext rfl ?_ rfl rfl⟩
    · change (s.cons.w - s.cons.r).toNat + (s.cons.e - 1 - s.cons.w).toNat ≤ _
      omega
    · change 10 ∈ s.abs.edit
      rw [hdrop]
      exact List.mem_append_left _ hmem
    · change Ring.contents _ _ s.cons.w (s.cons.e - 1) = s.abs.edit.dropLast
      rw [hdrop, List.dropLast_concat]

/-- Any other byte is appended to the line if there is room for it. -/
theorem abs_append (h : s.Inv) (hlt : s.cons.e - s.cons.r < inputBufSize) {c : UInt8} (hc : c ≠ 13)
    (ht : t = { s with cons :=
      if c = 10 ∨ c = ctrl 'D' ∨ s.cons.e + 1 - s.cons.r = inputBufSize then { s.cons with
        buf := Function.update s.cons.buf (s.cons.e % inputBufSize) c
        w := s.cons.e + 1
        e := s.cons.e + 1 }
      else { s.cons with
        buf := Function.update s.cons.buf (s.cons.e % inputBufSize) c
        e := s.cons.e + 1 } }) : t.Inv ∧ t.abs = s.abs.append c := by
  have hfull : s.cons.e + 1 - s.cons.r = inputBufSize ↔
      s.abs.queue.length + s.abs.edit.length + 1 = inputBufSize.toNat := by
    have hsize := Ring.toNat_push inputBufSize_dvd (UInt32.lt_iff_toNat_lt.1 hlt)
    rw [← UInt32.toNat_inj, hsize, h.room']
  rw [Line.append, if_neg (h.lt_iff.1 hlt)]
  dsimp only
  rw [if_neg hc]
  split at ht
  next hdone =>
    rw [hfull] at hdone
    rw [if_pos hdone]
    exact abs_commit h hlt ht
  next hdone =>
    rw [hfull] at hdone
    rw [if_neg hdone]
    exact abs_store h hlt (fun h10 => hdone (.inl h10)) ht

/-- `consoleintr` does what typing a byte does. -/
theorem abs_consoleintr (h : s.Inv) {c : UInt8}
    (ht : t = { s with cons := s.cons.consoleintr c }) : t.Inv ∧ t.abs = s.abs.intr c := by
  unfold Cons.consoleintr at ht
  unfold Line.intr
  split at ht
  next hP =>
    rw [if_pos (.inl hP)]
    exact ht ▸ ⟨h, rfl⟩
  next hP =>
  split at ht
  next hU =>
    have h0 : ¬(c = ctrl 'P' ∨ c = 0) := by
      rw [hU]
      decide
    rw [if_neg h0, if_pos hU]
    exact abs_killLine h ht
  next hU =>
  split at ht
  next hH =>
    have h0 : ¬(c = ctrl 'P' ∨ c = 0) := by rcases hH with rfl | rfl <;> decide
    rw [if_neg h0, if_neg hU, if_pos hH]
    exact abs_backspace h ht
  next hH =>
  split at ht
  next hc =>
    rw [if_neg (not_or.2 ⟨hP, hc.1⟩), if_neg hU, if_neg hH]
    by_cases hcr : c = 13
    · have happ : s.abs.append c = s.abs.append 10 := by
        rw [hcr]
        rfl
      rw [happ]
      exact abs_append h hc.2 (by decide) (by simpa [hcr] using ht)
    · rw [if_neg hcr] at ht
      exact abs_append h hc.2 hcr ht
  next hc =>
    by_cases h0 : c = 0
    · rw [if_pos (.inr h0)]
      exact ht ▸ ⟨h, rfl⟩
    · rw [if_neg (not_or.2 ⟨hP, h0⟩), if_neg hU, if_neg hH, Line.append,
        if_pos (not_not.1 (mt h.lt_iff.2 fun hlt => hc ⟨h0, hlt⟩))]
      exact ht ▸ ⟨h, rfl⟩

/-! ### `consoleread` -/

/-- A process starts, goes on with or ends a read. -/
theorem abs_read (h : s.Inv) {x : Option ConsRead}
    (hx : ∀ rd, x = some rd → rd.target - rd.n = rd.out.length)
    (ret : ℕ → Option (ℤ × List UInt8)) :
    ({ s with read := Function.update s.read p x, ret := ret } : ConsState).Inv ∧
      ({ s with read := Function.update s.read p x, ret := ret } : ConsState).abs =
        { s.abs with
          read := Function.update s.abs.read p (x.map fun rd => (rd.target, rd.out))
          ret := ret } := by
  refine ⟨⟨h.room, h.edit, fun q rd hq => ?_⟩, Line.ext rfl rfl (funext fun q => ?_) rfl⟩
  · by_cases hqp : q = p
    · subst hqp
      dsimp only at hq
      rw [Function.update_self] at hq
      exact hx rd hq
    · dsimp only at hq
      rw [Function.update_of_ne hqp] at hq
      exact h.read q rd hq
  · by_cases hqp : q = p
    · subst hqp
      simp [abs]
    · simp [abs, hqp]

theorem abs_finish (h : s.Inv) (r : ℤ) (out : List UInt8) :
    (s.finish p r out).Inv ∧ (s.finish p r out).abs = s.abs.finish p r out :=
  abs_read h (fun _ hx => by cases hx) _

/-- A byte is taken from the queue. -/
theorem abs_pop (h : s.Inv) (hne : s.cons.r ≠ s.cons.w)
    (ht : t = { s with cons := { s.cons with r := s.cons.r + 1 } }) :
    t.Inv ∧ s.abs.queue = s.cons.buf (s.cons.r % inputBufSize) :: t.abs.queue ∧
      t.abs = { s.abs with queue := t.abs.queue } := by
  have hroom := h.room
  have hpop := Ring.toNat_pop hne
  subst ht
  refine ⟨⟨?_, h.edit, h.read⟩, Ring.contents_pop hne, rfl⟩
  change (s.cons.w - (s.cons.r + 1)).toNat + (s.cons.e - s.cons.w).toNat ≤ _
  omega

/-- An iteration of the loop of `consoleread` does what reading a byte does. -/
theorem abs_consoleread (h : s.Inv) {rd : ConsRead} (hrd : s.read p = some rd)
    (hne : s.cons.r ≠ s.cons.w) :
    (s.consoleread p rd true).Inv ∧ ∃ c q, s.abs.queue = c :: q ∧
      (s.consoleread p rd true).abs = s.abs.take p rd.target rd.out c q := by
  have hcount := h.read p rd hrd
  obtain ⟨hinv, hqueue, habs⟩ := abs_pop h hne rfl
  unfold consoleread
  dsimp only
  generalize s.cons.buf (s.cons.r % inputBufSize) = c at hqueue ⊢
  by_cases hD : c = ctrl 'D'
  · rw [if_pos hD]
    by_cases hn : rd.n < rd.target
    · -- The end of the file is put back.
      have hgot : rd.out ≠ [] := by
        intro hnil
        rw [hnil, List.length_nil] at hcount
        omega
      have hback : s.cons.r + 1 - 1 = s.cons.r := by grind
      rw [if_pos hn, hback, hcount]
      refine ⟨(abs_finish h _ _).1, c, _, hqueue, ?_⟩
      rw [Line.take, if_pos hD, if_neg hgot]
      exact (abs_finish h _ _).2
    · have hnil : rd.out = [] := List.eq_nil_of_length_eq_zero (by omega)
      rw [if_neg hn, hcount, hnil]
      refine ⟨(abs_finish hinv _ _).1, c, _, hqueue, ?_⟩
      rw [Line.take, if_pos hD, if_pos rfl, ← habs]
      exact (abs_finish hinv _ _).2
  · rw [if_neg hD, if_neg Bool.false_ne_true.symm]
    by_cases hLF : c = 10
    · have hlen : rd.target - (rd.n - 1) = rd.out.length + 1 := by omega
      rw [if_pos hLF, hlen]
      refine ⟨(abs_finish hinv _ _).1, c, _, hqueue, ?_⟩
      rw [Line.take, if_neg hD, if_pos hLF, ← habs]
      exact (abs_finish hinv _ _).2
    · have hlen : rd.target - (rd.n - 1) = ((rd.out ++ [c]).length : ℤ) := by
        rw [List.length_append, List.length_singleton]
        push_cast
        omega
      have hread := abs_read (p := p) hinv (x := some ⟨rd.target, rd.n - 1, rd.out ++ [c]⟩)
        (fun _ hx => by cases hx; exact hlen) s.ret
      rw [if_neg hLF]
      refine ⟨hread.1, c, _, hqueue, ?_⟩
      rw [Line.take, if_neg hD, if_neg hLF]
      exact hread.2.trans (by rw [habs]; rfl)

end ConsState

/-- The copy to user memory, if the action makes one, succeeds. -/
def ConsAct.CopyOk : ConsAct → Prop
  | .byte _ ok => ok = true
  | _ => True

instance decidableCopyOk : (a : ConsAct) → Decidable a.CopyOk
  | .byte _ ok => inferInstanceAs (Decidable (ok = true))
  | .intr _ | .start .. | .kill _ => isTrue trivial

namespace ConsState

variable {s t : ConsState} {a : ConsAct} {p : ℕ}

theorem abs_read_eq (s : ConsState) (p : ℕ) :
    s.abs.read p = (s.read p).map fun rd => (rd.target, rd.out) := rfl

theorem queue_eq_nil_iff (h : s.Inv) : s.abs.queue = [] ↔ s.cons.r = s.cons.w := by
  refine ⟨fun hq => ?_, fun hrw => ?_⟩
  · by_contra hne
    have hpop := (abs_pop h hne rfl).2.1
    rw [hq] at hpop
    cases hpop
  · change Ring.contents _ _ _ _ = _
    rw [hrw, Ring.contents_self]

/-- Every step of the console is a step of the abstract machine. -/
theorem abs_exec (h : s.Inv) (hs : s.exec a = some t) (ha : a.CopyOk) :
    t.Inv ∧ s.abs.exec a = some t.abs := by
  cases a with
  | intr c =>
    cases hs
    obtain ⟨hinv, habs⟩ := abs_consoleintr h rfl
    exact ⟨hinv, by rw [habs]; rfl⟩
  | start p n =>
    simp only [exec, Line.exec, abs_read_eq] at hs ⊢
    cases hr : s.read p with
    | some rd =>
      rw [hr] at hs
      cases hs
    | none =>
      rw [hr] at hs
      cases hs
      obtain ⟨hinv, habs⟩ := abs_read (p := p) h (x := some ⟨n, n, []⟩)
        (fun _ hx => by cases hx; exact sub_self _) s.ret
      exact ⟨hinv, congrArg some habs.symm⟩
  | byte p ok =>
    obtain rfl : ok = true := ha
    simp only [exec, Line.exec, abs_read_eq] at hs ⊢
    cases hr : s.read p with
    | none =>
      rw [hr] at hs
      cases hs
    | some rd =>
      have hcount := h.read p rd hr
      rw [hr] at hs
      dsimp only [Option.map_some] at hs ⊢
      split at hs
      next hn =>
        rw [if_pos (by omega)]
        split at hs
        · -- No byte is there yet, and the call waits.
          cases hs
        · rename_i hne
          cases hs
          obtain ⟨hinv, c, q, hq, habs⟩ := abs_consoleread h hr hne
          rw [hq]
          exact ⟨hinv, congrArg some habs.symm⟩
      -- All bytes are read.
      next hn =>
        cases hs
        rw [if_neg (by omega), hcount]
        obtain ⟨hinv, habs⟩ := abs_finish (p := p) h rd.out.length rd.out
        exact ⟨hinv, congrArg some habs.symm⟩
  | kill p =>
    simp only [exec, Line.exec, abs_read_eq] at hs ⊢
    cases hr : s.read p with
    | none =>
      rw [hr] at hs
      cases hs
    | some rd =>
      have hcount := h.read p rd hr
      rw [hr] at hs
      dsimp only [Option.map_some] at hs ⊢
      split at hs
      next hn =>
        cases hs
        rw [if_pos ⟨by omega, (queue_eq_nil_iff h).2 hn.2⟩]
        obtain ⟨hinv, habs⟩ := abs_finish (p := p) h (-1) rd.out
        exact ⟨hinv, congrArg some habs.symm⟩
      next => cases hs

theorem Initial.inv (h : s.Initial) : s.Inv ∧ s.abs ∈ lineSystem.init := by
  have hself : Ring.contents inputBufSize s.cons.buf 0 0 = [] := Ring.contents_self
  refine ⟨⟨?_, ?_, fun p rd hp => ?_⟩, ?_, ?_, fun p => ?_⟩
  · rw [h.r, h.w, h.e]
    decide
  · rw [h.w, h.e, hself]
    exact List.not_mem_nil
  · rw [h.read p] at hp
    cases hp
  · change Ring.contents _ _ _ _ = _
    rw [h.r, h.w, hself]
  · change Ring.contents _ _ _ _ = _
    rw [h.w, h.e, hself]
  · rw [abs_read_eq, h.read p]
    rfl

end ConsState

/-- In every run of the abstract machine, what was put into the queue is what was taken from it,
    followed by what is in it. -/
theorem Line.queue_of_run {s₀ : Line} {tr : List (ConsAct × Line)} (h₀ : s₀ ∈ lineSystem.init)
    (h : lineSystem.Run s₀ tr) : System.output Line.commits s₀ tr =
      System.output Line.takes s₀ tr ++ (System.last s₀ tr).queue := by
  induction h with
  | nil => exact h₀.1.symm
  | cons hrun hstep ih =>
    simp only [System.output]
    rw [ih, List.append_assoc, List.append_assoc]
    congr 1
    exact Line.queue_exec hstep

/-- What was delivered is what was taken, without the ends of the file. -/
theorem Line.delivers_of_run (s₀ : Line) (tr : List (ConsAct × Line)) :
    System.output Line.delivers s₀ tr =
      (System.output Line.takes s₀ tr).filter (· ≠ ctrl 'D') := by
  induction tr with
  | nil => rfl
  | cons x tr ih =>
    obtain ⟨a, s⟩ := x
    simp only [System.output]
    rw [ih, Line.delivers_eq, List.filter_append]

/-- A trace of the console, as one of the abstract machine. -/
def ConsState.absTrace (tr : List (ConsAct × ConsState)) : List (ConsAct × Line) :=
  tr.map fun x => (x.1, x.2.abs)

theorem ConsState.last_absTrace (s₀ : ConsState) (tr : List (ConsAct × ConsState)) :
    System.last s₀.abs (absTrace tr) = (System.last s₀ tr).abs := by
  cases tr <;> rfl

/-- **The console is a line discipline.** Every run of the console in which the copies to user
    memory succeed is, through the queue and the line that the ring buffer holds, a run of the
    abstract machine; the two never hold more than `INPUT_BUF_SIZE` bytes. What was put into the
    queue is what was taken from it, in this order, followed by what is in it, and all that was
    taken was delivered, except for the ends of the file. -/
theorem console_refines {s₀ : ConsState} {tr : List (ConsAct × ConsState)}
    (h₀ : s₀ ∈ consSystem.init) (h : consSystem.Run s₀ tr)
    (hc : System.Along (fun _ a => a.CopyOk) s₀ tr) :
    s₀.abs ∈ lineSystem.init ∧ lineSystem.Run s₀.abs (ConsState.absTrace tr) ∧
      System.Throughout (fun s => s.abs.queue.length + s.abs.edit.length ≤ inputBufSize.toNat)
        s₀ tr ∧
      System.output Line.commits s₀.abs (ConsState.absTrace tr) =
        System.output Line.takes s₀.abs (ConsState.absTrace tr) ++
          (System.last s₀ tr).abs.queue ∧
      System.output Line.delivers s₀.abs (ConsState.absTrace tr) =
        (System.output Line.takes s₀.abs (ConsState.absTrace tr)).filter (· ≠ ctrl 'D') := by
  obtain ⟨hinv₀, habs₀⟩ := ConsState.Initial.inv h₀
  have hstep : ∀ s a t, s.Inv → consSystem.step s a t → a.CopyOk → t.Inv := fun s a t hs hst ha =>
    (ConsState.abs_exec hs hst ha).1
  have hrun : lineSystem.Run s₀.abs (ConsState.absTrace tr) := by
    induction h with
    | nil => exact .nil
    | cons hrun hs ih =>
      refine .cons (ih hc.2) ?_
      change lineSystem.step (System.last s₀.abs (ConsState.absTrace _)) _ _
      rw [ConsState.last_absTrace]
      exact (ConsState.abs_exec (hrun.invariant hinv₀ hstep hc.2) hs hc.1).2
  refine ⟨habs₀, hrun, h.throughout hinv₀ hstep (fun s hs => ?_) hc, ?_, Line.delivers_of_run _ _⟩
  · rw [← hs.room', Ring.toNat_append (hs.room.trans_lt (by decide))]
    exact hs.room
  · rw [← ConsState.last_absTrace]
    exact Line.queue_of_run habs₀ hrun

/-- Nothing was typed. -/
def freshCons : ConsState where
  cons := ⟨fun _ => 0, 0, 0, 0⟩
  read := fun _ => none
  ret := fun _ => none

theorem freshCons_mem_init : freshCons ∈ consSystem.init := ⟨rfl, rfl, rfl, fun _ => rfl⟩

/-- `a`, `b`, a backspace, `c` and a carriage return are typed, and a process reads `ac` and the end
    of the line. -/
theorem console_refines_line : ∃ tr, consSystem.Run freshCons tr ∧
    (System.last freshCons tr).ret 1 = some (3, [97, 99, 10]) ∧
    System.output Line.commits freshCons.abs (ConsState.absTrace tr) =
      System.output Line.takes freshCons.abs (ConsState.absTrace tr) ++
        (System.last freshCons tr).abs.queue := by
  obtain ⟨tr, hrun, hP⟩ := System.exists_run (m := consSystem) (fun _ _ _ hs => hs) freshCons
    [.start 1 8, .intr 97, .intr 98, .intr (ctrl 'H'), .intr 99, .intr 13, .byte 1 true,
      .byte 1 true, .byte 1 true]
    (fun tr => System.Along (fun _ a => a.CopyOk) freshCons tr ∧
      (System.last freshCons tr).ret 1 = some (3, [97, 99, 10])) (by decide)
  obtain ⟨hc, hret⟩ := of_decide_eq_true hP
  obtain ⟨-, -, -, hq, -⟩ := console_refines freshCons_mem_init hrun hc
  exact ⟨tr, hrun, hret, hq⟩

/-- `^P` is not appended to the line, although it is none of the bytes that edit it, and there is
    room. -/
theorem console_drops_ctrl_p : ∃ t, freshCons.exec (.intr (ctrl 'P')) = some t ∧
    t.abs.queue = [] ∧ t.abs.edit = [] ∧ (freshCons.abs.append (ctrl 'P')).edit = [ctrl 'P'] :=
  ⟨_, rfl, by decide, by decide +kernel, by decide +kernel⟩

end Xv6
