import Mathlib

/-!
# The lexer of the shell

`gettoken` and `peek` of `sh.c` walk over the bytes of a command line with a pointer that the whole
parser shares. The model keeps the memory of the line, its bytes and the NUL that ends them, as a
list, and a pointer is an index of it: a read at any other index is an error of its own.

What the two functions are for is said on lists of tokens. `tokens` splits a line into its tokens,
and `At s i ts` states that the tokens from index `i` of `s` on are `ts`; `peek` then looks at the
head of `ts` (`peek_at`) and `gettoken` removes it (`gettoken_cons`).
-/

namespace Xv6.Sh

/-- What ends a run of the parser other than a return: a call of `panic`, an access outside the
    line or outside an `argv` array, and a loop or recursion that goes on for longer than the fuel
    of the model. -/
inductive ShErr
  | panic (msg : String)
  | outside
  | fuel
  deriving DecidableEq, Repr

/-- The byte of a character. -/
def ascii (c : Char) : UInt8 := UInt8.ofNat c.toNat

/-- `whitespace`: blank, tab, return, newline and vertical tab. -/
def whitespace : List UInt8 := [32, 9, 13, 10, 11]

/-- `symbols`. -/
def symbols : List UInt8 := ['<', '|', '>', '&', ';', '(', ')'].map ascii

/-- `strchr` as a condition, on the bytes of a string. The NUL that ends a string is not found. -/
def strchr (s : List UInt8) (c : UInt8) : Bool := s.contains c

/-- A read through a pointer. -/
def load (m : List UInt8) (i : ℕ) : Except ShErr UInt8 :=
  match m[i]? with
  | some c => .ok c
  | none => .error .outside

/-- `strlen`. -/
def strlen (m : List UInt8) : ℕ := m.findIdx (· == 0)

section Lexer

variable (m : List UInt8) (es : ℕ)

/-- The loop `while(s < es && p(*s)) s++`. -/
def scan (p : UInt8 → Bool) : ℕ → ℕ → Except ShErr ℕ
  | 0, _ => .error .fuel
  | fuel + 1, s =>
    if s < es then do
      let c ← load m s
      if p c then scan p fuel (s + 1) else return s
    else return s

/-- The loop that skips white space. -/
def skip (s : ℕ) : Except ShErr ℕ := scan m es (strchr whitespace) (es + 1) s

/-- A byte that is neither white space nor a symbol. -/
def wordByte (c : UInt8) : Bool := !strchr whitespace c && !strchr symbols c

/-- What `gettoken` finds: the token's code, where it starts and ends, and the new `*ps`. -/
structure Lexeme where
  ret : UInt8
  q : ℕ
  eq : ℕ
  s : ℕ
  deriving DecidableEq, Repr

/-- The `switch` of `gettoken`: the code of the token at `s`, and its end. -/
def token (s : ℕ) : Except ShErr (UInt8 × ℕ) := do
  let c ← load m s
  if c = 0 then
    return (c, s)
  else if c ∈ ['|', '(', ')', ';', '&', '<'].map ascii then
    return (c, s + 1)
  else if c = ascii '>' then
    let c' ← load m (s + 1)
    if c' = ascii '>' then return (ascii '+', s + 2) else return (c, s + 1)
  else
    let s ← scan m es wordByte (es + 1) s
    return (ascii 'a', s)

/-- `gettoken`. -/
def gettoken (s : ℕ) : Except ShErr Lexeme := do
  let q ← skip m es s
  let (ret, eq) ← token m es q
  let s ← skip m es eq
  return ⟨ret, q, eq, s⟩

/-- `peek`, with the new `*ps`. -/
def peek (s : ℕ) (toks : List UInt8) : Except ShErr (Bool × ℕ) := do
  let s ← skip m es s
  let c ← load m s
  return (c ≠ 0 ∧ strchr toks c, s)

end Lexer

/-! ### Tokens -/

/-- The symbols of a command line. -/
inductive Sym
  | bar
  | lpar
  | rpar
  | semi
  | amp
  | lt
  | gt
  | gtgt
  deriving DecidableEq, Repr

/-- The first byte of a symbol. -/
def Sym.byte : Sym → UInt8
  | .bar => ascii '|'
  | .lpar => ascii '('
  | .rpar => ascii ')'
  | .semi => ascii ';'
  | .amp => ascii '&'
  | .lt => ascii '<'
  | .gt => ascii '>'
  | .gtgt => ascii '>'

/-- A token: a symbol, or a word with its span in the line. -/
inductive Tok
  | sym (y : Sym)
  | word (q eq : ℕ)
  deriving DecidableEq, Repr

/-- The code that `gettoken` returns for a token. -/
def Tok.code : Tok → UInt8
  | .sym .gtgt => ascii '+'
  | .sym y => y.byte
  | .word _ _ => ascii 'a'

/-- The symbol of one byte that `c` is, if any. -/
def symbolOf (c : UInt8) : Option Sym :=
  [Sym.bar, .lpar, .rpar, .semi, .amp, .lt, .gt].find? (fun y => y.byte == c)

/-- The tokens of the bytes `cs`, the first of which stands at index `i`: white space separates
    tokens, `>>` is a token, every other symbol is a token, and a maximal run of other bytes is a
    word. -/
def tokens (i : ℕ) : List UInt8 → List Tok
  | [] => []
  | c :: cs =>
    if strchr whitespace c then tokens (i + 1) cs
    else if c = ascii '>' ∧ cs.head? = some (ascii '>') then .sym .gtgt :: tokens (i + 2) cs.tail
    else match symbolOf c with
      | some y => .sym y :: tokens (i + 1) cs
      | none =>
        let n := (cs.takeWhile wordByte).length
        .word i (i + 1 + n) :: tokens (i + 1 + n) (cs.drop n)
  termination_by cs => cs.length
  decreasing_by all_goals simp; try omega

/-- A string of C: bytes none of which is NUL. -/
structure CString where
  bytes : List UInt8
  nul_free : 0 ∉ bytes

/-- The memory of a string: its bytes, and the NUL that ends them. -/
def CString.mem (s : CString) : List UInt8 := s.bytes ++ [0]

/-- The tokens of `s` from index `i` on are `ts`. -/
structure At (s : CString) (i : ℕ) (ts : List Tok) : Prop where
  le : i ≤ s.bytes.length
  eq : tokens i (s.bytes.drop i) = ts

/-! ### The loops -/

variable {s : CString} {i j : ℕ} {ts : List Tok} {t : Tok}

/-- `strlen` finds the end of a string. -/
theorem strlen_mem (s : CString) : strlen s.mem = s.bytes.length := by
  have h : s.bytes.findIdx (· == 0) = s.bytes.length := by
    rw [List.findIdx_eq_length]
    intro c hc
    simp only [beq_eq_false_iff_ne, ne_eq]
    rintro rfl
    exact s.nul_free hc
  rw [strlen, CString.mem, List.findIdx_append, h]
  simp

/-- A read at an index of the string, or at the NUL, is inside the memory. -/
theorem load_mem (hi : i ≤ s.bytes.length) : load s.mem i = .ok (s.bytes[i]?.getD 0) := by
  rcases hi.lt_or_eq with h | rfl
  · simp [load, CString.mem, h, List.getElem?_append_left]
  · simp [load, CString.mem]

/-- The loop stops behind the bytes that satisfy `p`. -/
theorem scan_eq (p : UInt8 → Bool) (n : ℕ) (hi : i ≤ s.bytes.length)
    (hn : s.bytes.length < i + n) :
    scan s.mem s.bytes.length p n i = .ok (i + ((s.bytes.drop i).takeWhile p).length) := by
  induction n generalizing i with
  | zero => omega
  | succ n ih =>
    rcases hi.lt_or_eq with h | rfl
    · rw [scan, if_pos h, load_mem hi, List.drop_eq_getElem_cons h]
      simp only [bind, Except.bind, h, List.getElem?_eq_getElem, Option.getD_some,
        List.takeWhile_cons]
      split
      · have hrest := ih (i := i + 1) h (by omega)
        rw [hrest, List.length_cons]
        congr 1
        omega
      · rfl
    · rw [scan, if_neg (lt_irrefl _)]
      simp [pure, Except.pure]

theorem takeWhile_length_le (p : UInt8 → Bool) (hi : i ≤ s.bytes.length) :
    i + ((s.bytes.drop i).takeWhile p).length ≤ s.bytes.length := by
  have h := (List.takeWhile_prefix (l := s.bytes.drop i) p).length_le
  rw [List.length_drop] at h
  omega

/-- White space before the first token does not change the tokens. -/
theorem tokens_skip (i : ℕ) (cs : List UInt8) :
    tokens (i + (cs.takeWhile (strchr whitespace)).length)
      (cs.drop (cs.takeWhile (strchr whitespace)).length) = tokens i cs := by
  induction cs generalizing i with
  | nil => simp
  | cons c cs ih =>
    rw [List.takeWhile_cons]
    split
    case isTrue h =>
      rw [tokens, if_pos h, ← ih (i + 1), List.length_cons, List.drop_succ_cons]
      congr 1
      omega
    case isFalse => simp

theorem getElem?_takeWhile_length {p : UInt8 → Bool} {l : List UInt8} {c : UInt8}
    (h : l[(l.takeWhile p).length]? = some c) : p c = false := by
  induction l with
  | nil => simp at h
  | cons d l ih =>
    rw [List.takeWhile_cons] at h
    split at h
    case isTrue => exact ih (by simpa using h)
    case isFalse hd =>
      obtain rfl : d = c := by simpa using h
      simpa using hd

/-- The index `j` is at the end of the string or at the first byte of a token. -/
def Stop (s : CString) (j : ℕ) : Prop := ∀ c, s.bytes[j]? = some c → strchr whitespace c = false

/-- The loop that skips white space keeps the tokens, and stops at the end or at a token. -/
theorem skip_at (h : At s i ts) :
    ∃ j, skip s.mem s.bytes.length i = .ok j ∧ At s j ts ∧ Stop s j := by
  refine ⟨_, scan_eq _ _ h.le (by omega), ⟨takeWhile_length_le _ h.le, ?_⟩, ?_⟩
  · rw [← List.drop_drop, tokens_skip, h.eq]
  · intro c hc
    rw [← List.getElem?_drop] at hc
    exact getElem?_takeWhile_length hc

/-! ### The functions, on tokens -/

/-- A byte that is no symbol of one byte is no symbol. -/
theorem symbolOf_eq_none {c : UInt8} : symbolOf c = none ↔ c ∉ symbols := by
  simp only [symbolOf, symbols, List.find?_eq_none, List.mem_map, beq_iff_eq]
  constructor
  · rintro h ⟨d, hd, rfl⟩
    revert d
    simp_all [Sym.byte]
  · intro h y _ rfl
    cases y <;> simp [Sym.byte] at h

theorem byte_of_symbolOf {c : UInt8} {y : Sym} (h : symbolOf c = some y) :
    y.byte = c ∧ y ≠ .gtgt := by
  have hy := List.mem_of_find?_eq_some h
  refine ⟨by simpa using List.find?_some h, ?_⟩
  rintro rfl
  simp at hy

/-- At a token, the string goes on with a byte that is neither white space nor NUL. -/
theorem At.cons_of_lt (h : At s j ts) (hs : Stop s j) (hj : j < s.bytes.length) :
    ∃ c, load s.mem j = .ok c ∧ c ≠ 0 ∧ strchr whitespace c = false ∧
      s.bytes.drop j = c :: s.bytes.drop (j + 1) := by
  refine ⟨s.bytes[j], ?_, ?_, ?_, ?_⟩
  · rw [load_mem h.le]
    simp [hj]
  · intro h0
    exact s.nul_free (h0 ▸ List.getElem_mem hj)
  · exact hs _ (List.getElem?_eq_getElem hj)
  · exact List.drop_eq_getElem_cons hj

/-- Without tokens, a pointer behind the white space is at the end. -/
theorem At.eq_length (h : At s j []) (hs : Stop s j) : j = s.bytes.length := by
  by_contra hne
  obtain ⟨c, -, -, hc, hdrop⟩ := h.cons_of_lt hs (lt_of_le_of_ne h.le hne)
  have ht := h.eq
  rw [hdrop, tokens, if_neg (by simp [hc])] at ht
  split at ht
  · cases ht
  · split at ht <;> cases ht

theorem At.lt_length (h : At s j (t :: ts)) : j < s.bytes.length := by
  refine lt_of_le_of_ne h.le ?_
  rintro rfl
  have := h.eq
  simp [tokens] at this

/-- The `switch` of `gettoken` finds the first token, and its end. -/
theorem token_at (h : At s j (t :: ts)) (hs : Stop s j) :
    ∃ e, token s.mem s.bytes.length j = .ok (t.code, e) ∧ At s e ts ∧
      ∀ q eq, t = .word q eq → q = j ∧ eq = e := by
  have hj := h.lt_length
  obtain ⟨c, hload, h0, hc, hdrop⟩ := h.cons_of_lt hs hj
  have ht := h.eq
  rw [hdrop, tokens, if_neg (by simp [hc])] at ht
  simp only [token, hload, bind, Except.bind, h0, if_false]
  split at ht
  case isTrue hgt =>
    -- `>>`.
    obtain ⟨rfl, hnext⟩ := hgt
    obtain ⟨rfl, hts⟩ := List.cons.inj ht
    rw [List.head?_drop] at hnext
    have hj' : j + 1 < s.bytes.length := (List.getElem?_eq_some_iff.mp hnext).1
    rw [if_neg (by decide), if_pos rfl, load_mem hj, hnext]
    refine ⟨j + 2, rfl, ⟨hj', ?_⟩, by rintro q eq ⟨⟩⟩
    rwa [List.tail_drop] at hts
  case isFalse hgt =>
    split at ht
    next y hy =>
      -- A symbol of one byte.
      obtain ⟨rfl, hts⟩ := List.cons.inj ht
      obtain ⟨rfl, hne⟩ := byte_of_symbolOf hy
      refine ⟨j + 1, ?_, ⟨hj, hts⟩, by rintro q eq ⟨⟩⟩
      cases y
      case gtgt => exact absurd rfl hne
      case gt =>
        have hnext : s.bytes[j + 1]?.getD 0 ≠ ascii '>' := by
          intro hn
          refine hgt ⟨rfl, ?_⟩
          rw [List.head?_drop]
          cases hb : s.bytes[j + 1]? with
          | none => rw [hb] at hn; cases hn
          | some b => rw [hb] at hn; rw [← hn]; rfl
        rw [if_neg (by decide), if_pos (by decide), load_mem hj]
        exact if_neg hnext
      all_goals rfl
    next hy =>
      -- A word.
      obtain ⟨rfl, hts⟩ := List.cons.inj ht
      have hsym := symbolOf_eq_none.mp hy
      have hsym' : strchr symbols c = false := by simpa [strchr] using hsym
      have hw : wordByte c = true := by simp [wordByte, hc, hsym']
      have hsub : c ∉ ['|', '(', ')', ';', '&', '<'].map ascii := by
        intro hmem
        apply hsym
        revert hmem
        simp [symbols]
        tauto
      have hngt : c ≠ ascii '>' := by
        rintro rfl
        exact hsym (by decide)
      have hlen : ((s.bytes.drop j).takeWhile wordByte).length =
          1 + ((s.bytes.drop (j + 1)).takeWhile wordByte).length := by
        rw [hdrop, List.takeWhile_cons_of_pos hw, List.length_cons, Nat.add_comm]
      have hle := takeWhile_length_le wordByte h.le
      rw [if_neg hsub, if_neg hngt, scan_eq _ _ h.le (by omega), hlen, ← Nat.add_assoc]
      rw [hlen, ← Nat.add_assoc] at hle
      refine ⟨_, rfl, ⟨hle, ?_⟩, ?_⟩
      · rw [← hts, List.drop_drop]
      · rintro q eq ⟨⟩
        exact ⟨rfl, rfl⟩

/-- Without tokens, `gettoken` returns 0. -/
theorem gettoken_nil (h : At s i []) : ∃ l, gettoken s.mem s.bytes.length i = .ok l ∧
    l.ret = 0 ∧ At s l.s [] := by
  obtain ⟨j, hskip, hat, hstop⟩ := skip_at h
  obtain rfl := hat.eq_length hstop
  have htok : token s.mem s.bytes.length s.bytes.length = .ok (0, s.bytes.length) := by
    simp [token, load_mem, bind, Except.bind, pure, Except.pure]
  obtain ⟨e, hskip', hat', -⟩ := skip_at hat
  refine ⟨⟨0, s.bytes.length, s.bytes.length, e⟩, ?_, rfl, hat'⟩
  simp [gettoken, hskip, htok, hskip', bind, Except.bind, pure, Except.pure]

/-- `gettoken` returns the code of the first token, with its span if it is a word, and goes on
    behind it. -/
theorem gettoken_cons (h : At s i (t :: ts)) : ∃ l, gettoken s.mem s.bytes.length i = .ok l ∧
    l.ret = t.code ∧ At s l.s ts ∧ ∀ q eq, t = .word q eq → l.q = q ∧ l.eq = eq := by
  obtain ⟨j, hskip, hat, hstop⟩ := skip_at h
  obtain ⟨e, htok, hat', hspan⟩ := token_at hat hstop
  obtain ⟨k, hskip', hat'', -⟩ := skip_at hat'
  refine ⟨⟨t.code, j, e, k⟩, ?_, rfl, hat'', ?_⟩
  · simp [gettoken, hskip, htok, hskip', bind, Except.bind, pure, Except.pure]
  · intro q eq hw
    obtain ⟨rfl, rfl⟩ := hspan q eq hw
    exact ⟨rfl, rfl⟩

/-- The first token is a symbol with its first byte in `toks`. -/
def starts (toks : List UInt8) : List Tok → Bool
  | .sym y :: _ => strchr toks y.byte
  | _ => false

/-- Whether the first token starts with one of the symbols `toks` is decided by its first byte. -/
theorem starts_tokens {toks : List UInt8} (htoks : toks ⊆ symbols) {c : UInt8} {cs : List UInt8}
    (hc : strchr whitespace c = false) : starts toks (tokens j (c :: cs)) = strchr toks c := by
  rw [tokens, if_neg (by simp [hc])]
  split
  case isTrue h => rw [h.1]; rfl
  case isFalse =>
    split
    next y hy => rw [starts, (byte_of_symbolOf hy).1]
    next hy =>
      have hmem : c ∉ toks := fun hmem => symbolOf_eq_none.mp hy (htoks hmem)
      simp [starts, strchr, hmem]

/-- `peek` tells whether the first token starts with one of the symbols `toks`; it keeps the
    tokens. -/
theorem peek_at (toks : List UInt8) (htoks : toks ⊆ symbols) (h : At s i ts) :
    ∃ j, peek s.mem s.bytes.length i toks = .ok (starts toks ts, j) ∧ At s j ts ∧
      (j = s.bytes.length ↔ ts = []) := by
  obtain ⟨j, hskip, hat, hstop⟩ := skip_at h
  refine ⟨j, ?_, hat, ?_⟩
  · rcases hat.le.lt_or_eq with hj | rfl
    · obtain ⟨c, hload, h0, hc, hdrop⟩ := hat.cons_of_lt hstop hj
      rw [← hat.eq, hdrop, starts_tokens htoks hc]
      simp [peek, hskip, hload, h0, bind, Except.bind, pure, Except.pure]
    · have hload : load s.mem s.bytes.length = .ok 0 := by simp [load_mem]
      rw [← hat.eq]
      simp [peek, hskip, hload, bind, Except.bind, pure, Except.pure, tokens, starts]
  · constructor
    · rintro rfl
      rw [← hat.eq]
      simp [tokens]
    · rintro rfl
      exact hat.eq_length hstop

end Xv6.Sh
