import Mathlib

/-!
# The matcher of grep

`match`, `matchhere` and `matchstar` of `grep.c` walk over a pattern and a text with pointers. A
pointer into a string is the list of the bytes of its object from there on; the NUL that ends the
string is one of them, and a read behind the last byte is an error.

A pattern denotes a language: an optional `^`, a list of items (`Item`), each a byte or a byte with
a star behind it, and an optional `$`. `Here` states that a text starts with a word of the language,
by which `matchhere` is specified (`matchhere_iff`), with an induction on the pattern, and inside of
it, for `matchstar`, on the text. `match_iff` is the result for the whole matcher: it terminates,
reads nothing behind the two NULs, and finds the substrings that are in the language.
-/

namespace Xv6.Grep

/-- The characters that mean something in a pattern. -/
def star : UInt8 := 42
@[inherit_doc star] def dot : UInt8 := 46
@[inherit_doc star] def dollar : UInt8 := 36
@[inherit_doc star] def caret : UInt8 := 94

mutual

/-- `matchhere`. -/
def matchhere : List UInt8 → List UInt8 → Option Bool
  | [], _ => none
  | c :: re, text =>
    if c = 0 then some true
    else match re with
      | [] => none
      | c' :: re' =>
        if c' = star then matchstar c re' text
        else match text with
          | [] => none
          | t :: text' =>
            if c = dollar ∧ c' = 0 then some (t == 0)
            else if t ≠ 0 ∧ (c = dot ∨ c = t) then matchhere (c' :: re') text'
            else some false
termination_by re => (re.length, 0, 0)

/-- `matchstar`. -/
def matchstar (c : UInt8) (re text : List UInt8) : Option Bool := do
  if ← matchhere re text then some true
  else match text with
    | [] => none
    | t :: text' => if t ≠ 0 ∧ (t = c ∨ c = dot) then matchstar c re text' else some false
termination_by (re.length, 1, text.length)

end

/-- The loop of `match`. -/
def matchFrom (re : List UInt8) : List UInt8 → Option Bool
  | [] => do if ← matchhere re [] then some true else none
  | t :: text => do
    if ← matchhere re (t :: text) then some true
    else if t ≠ 0 then matchFrom re text else some false

/-- `match`. -/
def match_ (re text : List UInt8) : Option Bool :=
  match re with
  | [] => none
  | c :: re' => if c = caret then matchhere re' text else matchFrom re text

/-! ## Patterns -/

/-- A part of a pattern: a byte, or any number of them. -/
inductive Item
  | one (x : UInt8)
  | many (x : UInt8)
  deriving DecidableEq, Repr

/-- `x` stands for the byte `a`. -/
def Accepts (x a : UInt8) : Prop := x = dot ∨ x = a

/-- The words that an item stands for. -/
def Item.language : Item → Language UInt8
  | one x => {w | ∃ a, Accepts x a ∧ w = [a]}
  | many x => KStar.kstar {w | ∃ a, Accepts x a ∧ w = [a]}

/-- What a pattern denotes: it may be bound to the beginning and to the end of the text. -/
structure Pattern where
  bol : Bool
  items : List Item
  eol : Bool
  deriving DecidableEq, Repr

/-- The words of a list of items, one word for each. -/
def language (items : List Item) : Language UInt8 := (items.map Item.language).prod

/-- The items of a pattern behind `^`, and whether it ends in `$`. -/
def items : List UInt8 → List Item × Bool
  | [] => ([], false)
  | [x] => if x = dollar then ([], true) else ([.one x], false)
  | x :: y :: re =>
    if y = star then ((.many x :: (items re).1), (items re).2)
    else ((.one x :: (items (y :: re)).1), (items (y :: re)).2)

/-- The pattern of a string. -/
def pattern (re : List UInt8) : Pattern :=
  match re with
  | [] => ⟨false, [], false⟩
  | c :: re' =>
    if c = caret then ⟨true, (items re').1, (items re').2⟩
    else ⟨false, (items re).1, (items re).2⟩

/-- The text starts with a word of the items, and ends there if it has to. -/
def Here (is : List Item × Bool) (text : List UInt8) : Prop :=
  ∃ w post, text = w ++ post ∧ w ∈ language is.1 ∧ (is.2 = true → post = [])

/-- A part of the text is a word of the pattern. -/
def Pattern.Matches (p : Pattern) (text : List UInt8) : Prop :=
  ∃ pre w post, text = pre ++ w ++ post ∧ w ∈ language p.items ∧ (p.bol = true → pre = []) ∧
    (p.eol = true → post = [])

variable {x a t : UInt8} {is : List Item} {eol b : Bool} {text re j k : List UInt8}

theorem here_nil : Here ([], eol) text ↔ (eol = true → text = []) := by
  constructor
  · rintro ⟨w, post, rfl, hw, he⟩ h
    rw [he h, List.append_nil]
    exact hw
  · exact fun h => ⟨[], text, rfl, rfl, h⟩

theorem here_one : Here (.one x :: is, eol) text ↔
    ∃ a text', text = a :: text' ∧ Accepts x a ∧ Here (is, eol) text' := by
  constructor
  · rintro ⟨w, post, rfl, hw, he⟩
    obtain ⟨u, ⟨a, ha, rfl⟩, v, hv, rfl⟩ := Language.mem_mul.1 hw
    exact ⟨a, v ++ post, rfl, ha, v, post, rfl, hv, he⟩
  · rintro ⟨a, _, rfl, ha, v, post, rfl, hv, he⟩
    exact ⟨a :: v, post, rfl, Language.mem_mul.2 ⟨[a], ⟨a, ha, rfl⟩, v, hv, rfl⟩, he⟩

/-- A star is nothing, or one byte and the star again. -/
theorem here_many : Here (.many x :: is, eol) text ↔ Here (is, eol) text ∨
    ∃ a text', text = a :: text' ∧ Accepts x a ∧ Here (.many x :: is, eol) text' := by
  have hstar : (Item.many x).language = 1 + (Item.one x).language * (Item.many x).language :=
    (Language.one_add_self_mul_kstar_eq_kstar _).symm
  have hunroll : language (.many x :: is) =
      language is + (Item.one x).language * language (.many x :: is) := by
    have hcons : language (.many x :: is) = (Item.many x).language * language is := rfl
    rw [hcons]
    nth_rewrite 1 [hstar]
    rw [add_mul, one_mul, mul_assoc]
  constructor
  · rintro ⟨w, post, rfl, hw, he⟩
    rw [hunroll] at hw
    rcases hw with hw | hw
    · exact .inl ⟨w, post, rfl, hw, he⟩
    · obtain ⟨u, ⟨a, ha, rfl⟩, v, hv, rfl⟩ := Language.mem_mul.1 hw
      exact .inr ⟨a, v ++ post, rfl, ha, v, post, rfl, hv, he⟩
  · rintro (⟨w, post, rfl, hw, he⟩ | ⟨a, _, rfl, ha, v, post, rfl, hv, he⟩)
    · refine ⟨w, post, rfl, ?_, he⟩
      rw [hunroll]
      exact .inl hw
    · refine ⟨a :: v, post, rfl, ?_, he⟩
      rw [hunroll]
      exact .inr (Language.mem_mul.2 ⟨[a], ⟨a, ha, rfl⟩, v, hv, rfl⟩)

/-! ## The matcher -/

/-- The call returns, and says whether `P` holds. -/
def Decides (r : Option Bool) (P : Prop) : Prop := ∃ b, r = some b ∧ (b = true ↔ P)

theorem Decides.congr {r : Option Bool} {P Q : Prop} (h : Decides r P) (hPQ : P ↔ Q) :
    Decides r Q := by
  obtain ⟨b, hb, hP⟩ := h
  exact ⟨b, hb, hP.trans hPQ⟩

theorem decides_true {P : Prop} (h : P) : Decides (some true) P := ⟨true, rfl, iff_of_true rfl h⟩

theorem decides_false {P : Prop} (h : ¬P) : Decides (some false) P :=
  ⟨false, rfl, iff_of_false Bool.false_ne_true h⟩

/-- A first attempt that is followed by another one if it fails. -/
theorem Decides.orElse {r r' : Option Bool} {P Q : Prop} (h : Decides r P) (h' : Decides r' Q) :
    Decides (do if ← r then some true else r') (P ∨ Q) := by
  obtain ⟨b, rfl, hP⟩ := h
  cases b with
  | false =>
    have hnP : ¬P := fun h => Bool.false_ne_true (hP.2 h)
    exact h'.congr (or_iff_right hnP).symm
  | true => exact decides_true (.inl (hP.1 rfl))

@[simp] theorem matchhere_end : matchhere (0 :: j) text = some true := by
  rw [matchhere.eq_def]
  exact if_pos rfl

theorem matchhere_star {c : UInt8} (hc : c ≠ 0) :
    matchhere (c :: star :: re) text = matchstar c re text := by
  rw [matchhere.eq_def]
  exact (if_neg hc).trans (if_pos rfl)

theorem matchhere_cons {c c' : UInt8} (hc : c ≠ 0) (hstar : c' ≠ star) :
    matchhere (c :: c' :: re) (t :: text) = if c = dollar ∧ c' = 0 then some (t == 0)
      else if t ≠ 0 ∧ (c = dot ∨ c = t) then matchhere (c' :: re) text else some false := by
  rw [matchhere.eq_def]
  exact (if_neg hc).trans (if_neg hstar)

/-- A single byte of the pattern. -/
theorem matchhere_one {c c' : UInt8} {P : List UInt8 → Prop} (h0 : 0 ∉ text) (hc : c ≠ 0)
    (hstar : c' ≠ star) (hend : ¬(c = dollar ∧ c' = 0))
    (ih : ∀ text, 0 ∉ text → Decides (matchhere (c' :: re) (text ++ 0 :: k)) (P text)) :
    Decides (matchhere (c :: c' :: re) (text ++ 0 :: k))
      (∃ a text', text = a :: text' ∧ Accepts c a ∧ P text') := by
  cases text with
  | nil =>
    rw [List.nil_append, matchhere_cons hc hstar, if_neg hend, if_neg fun h => h.1 rfl]
    exact decides_false fun ⟨_, _, h, _⟩ => List.cons_ne_nil _ _ h.symm
  | cons t text =>
    rw [List.mem_cons, not_or] at h0
    rw [List.cons_append, matchhere_cons hc hstar, if_neg hend]
    by_cases h : c = dot ∨ c = t
    · rw [if_pos ⟨Ne.symm h0.1, h⟩]
      refine (ih text h0.2).congr ⟨fun hP => ⟨t, text, rfl, h, hP⟩, ?_⟩
      rintro ⟨_, _, he, -, hP⟩
      rwa [(List.cons.inj he).2]
    · rw [if_neg fun h' => h h'.2]
      refine decides_false ?_
      rintro ⟨_, _, he, ha, -⟩
      rw [Accepts, ← (List.cons.inj he).1] at ha
      exact h ha

/-- `matchstar`, by induction on the text. -/
theorem matchstar_iff (h0 : 0 ∉ text)
    (ih : ∀ text, 0 ∉ text → Decides (matchhere re (text ++ 0 :: k)) (Here (is, eol) text)) :
    Decides (matchstar x re (text ++ 0 :: k)) (Here (.many x :: is, eol) text) := by
  induction text with
  | nil =>
    rw [matchstar.eq_def]
    refine ((ih [] h0).orElse ?_).congr here_many.symm
    rw [List.nil_append]
    dsimp only
    rw [if_neg fun h => h.1 rfl]
    exact decides_false fun ⟨_, _, h, _⟩ => List.cons_ne_nil _ _ h.symm
  | cons t text iht =>
    rw [matchstar.eq_def]
    refine ((ih _ h0).orElse ?_).congr here_many.symm
    rw [List.mem_cons, not_or] at h0
    rw [List.cons_append]
    dsimp only
    by_cases h : t = x ∨ x = dot
    · rw [if_pos ⟨Ne.symm h0.1, h⟩]
      refine (iht h0.2).congr ⟨fun hP => ⟨t, text, rfl, h.symm.imp_right Eq.symm, hP⟩, ?_⟩
      rintro ⟨_, _, he, -, hP⟩
      rwa [(List.cons.inj he).2]
    · rw [if_neg fun h' => h h'.2]
      refine decides_false ?_
      rintro ⟨_, _, he, ha, -⟩
      rw [Accepts, ← (List.cons.inj he).1] at ha
      exact h (ha.symm.imp_left Eq.symm)

/-- `matchhere`, by induction on the items of the pattern. -/
theorem matchhere_iff (hre : 0 ∉ re) (h0 : 0 ∉ text) :
    Decides (matchhere (re ++ 0 :: j) (text ++ 0 :: k)) (Here (items re) text) := by
  induction re using items.induct generalizing text with
  | case1 =>
    rw [List.nil_append, matchhere_end, items]
    exact decides_true (here_nil.2 fun h => absurd h Bool.false_ne_true)
  | case2 =>
    -- `$` as the last byte.
    rw [items, if_pos rfl]
    refine Decides.congr ?_ (here_nil.trans (forall_prop_of_true rfl)).symm
    cases text with
    | nil =>
      rw [List.singleton_append, List.nil_append, matchhere_cons (by decide) (by decide),
        if_pos ⟨rfl, rfl⟩]
      exact decides_true rfl
    | cons t text =>
      rw [List.mem_cons, not_or] at h0
      rw [List.singleton_append, List.cons_append, matchhere_cons (by decide) (by decide),
        if_pos ⟨rfl, rfl⟩, beq_false_of_ne (Ne.symm h0.1)]
      exact decides_false (List.cons_ne_nil _ _)
  | case3 x hx =>
    rw [items, if_neg hx]
    refine (matchhere_one h0 (fun h => hre (h ▸ List.mem_cons_self)) (by decide)
      (fun h => hx h.1) fun text _ => ?_).congr here_one.symm
    rw [matchhere_end]
    exact decides_true (here_nil.2 fun h => absurd h Bool.false_ne_true)
  | case4 x re ih =>
    rw [List.mem_cons, List.mem_cons, not_or, not_or] at hre
    rw [List.cons_append, List.cons_append, matchhere_star (Ne.symm hre.1), items, if_pos rfl]
    exact matchstar_iff h0 fun text h => ih hre.2.2 h
  | case5 x y re hy ih =>
    rw [List.mem_cons, not_or] at hre
    rw [List.cons_append, List.cons_append, items, if_neg hy]
    exact (matchhere_one h0 (Ne.symm hre.1) hy (fun h => hre.2 (h.2 ▸ List.mem_cons_self))
      fun text h => ih hre.2 h).congr here_one.symm

/-- The loop of `match` tries every suffix of the text. -/
theorem matchFrom_iff (hre : 0 ∉ re) (h0 : 0 ∉ text) :
    Decides (matchFrom (re ++ 0 :: j) (text ++ 0 :: k))
      (∃ pre post, text = pre ++ post ∧ Here (items re) post) := by
  induction text with
  | nil =>
    rw [List.nil_append, matchFrom]
    refine ((matchhere_iff hre h0).orElse (decides_false id)).congr ?_
    rw [or_false]
    constructor
    · exact fun h => ⟨[], [], rfl, h⟩
    · rintro ⟨pre, post, he, h⟩
      rwa [(List.append_eq_nil_iff.1 he.symm).2] at h
  | cons t text ih =>
    have hhere := matchhere_iff hre (j := j) (k := k) h0
    rw [List.mem_cons, not_or] at h0
    rw [List.cons_append] at hhere ⊢
    rw [matchFrom, if_pos (Ne.symm h0.1)]
    refine (hhere.orElse (ih h0.2)).congr ⟨?_, ?_⟩
    · rintro (h | ⟨pre, post, rfl, h⟩)
      · exact ⟨[], _, rfl, h⟩
      · exact ⟨t :: pre, post, rfl, h⟩
    · rintro ⟨pre, post, he, h⟩
      cases pre with
      | nil => exact .inl (he ▸ h)
      | cons a pre => exact .inr ⟨pre, post, (List.cons.inj he).2, h⟩

theorem matches_iff {p : Pattern} : p.Matches text ↔
    ∃ pre post, text = pre ++ post ∧ (p.bol = true → pre = []) ∧ Here (p.items, p.eol) post := by
  constructor
  · rintro ⟨pre, w, post, rfl, hw, hbol, heol⟩
    exact ⟨pre, w ++ post, List.append_assoc .., hbol, w, post, rfl, hw, heol⟩
  · rintro ⟨pre, _, rfl, hbol, w, post, rfl, hw, heol⟩
    exact ⟨pre, w, post, (List.append_assoc ..).symm, hw, hbol, heol⟩

theorem match_decides (hre : 0 ∉ re) (h0 : 0 ∉ text) :
    Decides (match_ (re ++ 0 :: j) (text ++ 0 :: k)) ((pattern re).Matches text) := by
  have hfree : Decides (matchFrom (re ++ 0 :: j) (text ++ 0 :: k))
      ((⟨false, (items re).1, (items re).2⟩ : Pattern).Matches text) := by
    refine (matchFrom_iff hre h0).congr (Iff.symm (matches_iff.trans ?_))
    simp only [Bool.false_eq_true, false_imp_iff, true_and]
  cases re with
  | nil => exact hfree
  | cons c re =>
    rw [List.cons_append, match_, pattern]
    split_ifs with hc
    · rw [List.mem_cons, not_or] at hre
      refine (matchhere_iff hre.2 h0).congr (Iff.symm (matches_iff.trans ?_))
      constructor
      · rintro ⟨pre, post, rfl, hbol, h⟩
        rwa [hbol rfl]
      · exact fun h => ⟨[], text, rfl, fun _ => rfl, h⟩
    · exact hfree

/-- `match(re, text)`, as a condition on the two strings. -/
def isMatch (re text : List UInt8) : Bool := match_ (re ++ [0]) (text ++ [0]) == some true

/-- What follows the two strings in memory does not matter. -/
theorem match_eq_isMatch (hre : 0 ∉ re) (h0 : 0 ∉ text) :
    match_ (re ++ 0 :: j) (text ++ 0 :: k) = some (isMatch re text) := by
  obtain ⟨b, hb, hP⟩ := match_decides (j := j) (k := k) hre h0
  obtain ⟨b', hb', hP'⟩ := match_decides (j := []) (k := []) hre h0
  rw [hb, isMatch, hb', Bool.eq_iff_iff.2 (hP.trans hP'.symm)]
  cases b' <;> rfl

/-- `match` returns, whatever follows the two strings in memory, and finds the parts of the text
    that are words of the pattern. -/
theorem match_iff (re text : List UInt8) (hre : 0 ∉ re) (h0 : 0 ∉ text) :
    ∃ b, (∀ j k, match_ (re ++ 0 :: j) (text ++ 0 :: k) = some b) ∧
      (b = true ↔ (pattern re).Matches text) := by
  obtain ⟨b, hb, hP⟩ := match_decides (j := []) (k := []) hre h0
  have hmatch : b = isMatch re text := Option.some.inj (hb.symm.trans (match_eq_isMatch hre h0))
  exact ⟨b, fun j k => hmatch ▸ match_eq_isMatch hre h0, hP⟩

/-- `a.*c$` in `xabc`. -/
theorem match_iff_star :
    ∃ b, (∀ j k, match_ ([97, 46, 42, 99, 36] ++ 0 :: j) ([120, 97, 98, 99] ++ 0 :: k) = some b) ∧
      (b = true ↔ (⟨false, [.one 97, .many 46, .one 99], true⟩ : Pattern).Matches
        [120, 97, 98, 99]) := by
  have := match_iff [97, 46, 42, 99, 36] [120, 97, 98, 99] (by decide) (by decide)
  have hp : pattern [97, 46, 42, 99, 36] = ⟨false, [.one 97, .many 46, .one 99], true⟩ := by
    simp [pattern, items, caret, star, dollar]
  rwa [hp] at this

end Xv6.Grep
