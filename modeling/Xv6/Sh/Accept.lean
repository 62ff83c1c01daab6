import Mathlib
import Xv6.Sh.Parse

/-!
# The language of the shell

The parser finds the tree of every line of the grammar and calls `panic` on everything else
(`parsecmd_iff_derives`): what it returns is derived from the tokens that it has read (`sound`), and
of a line that something follows which cannot go on with it, it reads all and nothing more
(`complete`). The loops and the recursion end, since every one of them reads a token.
-/

namespace Xv6.Sh

/-! ### Runs that may panic -/

/-- A run returns a value that satisfies `Q`, or calls `panic`. -/
def Safe {α : Type} (Q : α → Prop) : Except ShErr α → Prop
  | .ok a => Q a
  | .error (.panic _) => True
  | .error _ => False

theorem safe_bind {α β : Type} {Q : β → Prop} {x : Except ShErr α} {f : α → Except ShErr β} :
    Safe Q (x >>= f) ↔ Safe (fun a => Safe Q (f a)) x := by
  cases x with
  | ok a => rfl
  | error e => cases e <;> rfl

theorem Safe.mono {α : Type} {Q Q' : α → Prop} {x : Except ShErr α} (h : Safe Q x)
    (hQ : ∀ a, Q a → Q' a) : Safe Q' x := by
  cases x with
  | ok a => exact hQ a h
  | error e => cases e <;> exact h

variable {s : CString} {i n : ℕ} {ts ts₁ ts₂ : List Tok} {ws : List (ℕ × ℕ)} {rs : List Redir}

/-- A token takes a byte at least. -/
theorem length_tokens_le (i : ℕ) (cs : List UInt8) : (tokens i cs).length ≤ cs.length := by
  fun_induction tokens i cs with
  | case1 => simp
  | case2 i c cs h ih => simp only [List.length_cons]; omega
  | case3 i c cs h hgt ih => simp only [List.length_cons, List.length_tail] at ih ⊢; omega
  | case4 i c cs h hgt y hy ih => simp only [List.length_cons]; omega
  | case5 i c cs h hgt hy n ih =>
    simp only [List.length_cons, List.length_drop] at ih ⊢
    omega

/-- There are never more tokens than the loops have fuel. -/
theorem At.length_lt (h : At s i ts) : ts.length < s.bytes.length + 1 := by
  have := length_tokens_le i (s.bytes.drop i)
  rw [h.eq, List.length_drop] at this
  omega

/-! ### Redirections and arguments -/

/-- One iteration of `parseredirs`. -/
theorem parseredirs_cons (cmd : Cmd) {y : Sym} {q eq mode fd : ℕ}
    (hy : y.redirection = some (mode, fd)) (h : At s i (.sym y :: .word q eq :: ts)) :
    ∃ j, At s j ts ∧ parseredirs s.mem s.bytes.length (n + 1) cmd i =
      parseredirs s.mem s.bytes.length n (.redir cmd q eq mode fd) j := by
  obtain ⟨j, hpeek, hj, -⟩ := peek_at [ascii '<', ascii '>'] (by decide) h
  obtain ⟨tok, htok, hret, hat, -⟩ := gettoken_cons hj
  obtain ⟨file, hfile, hret', hat', hspan⟩ := gettoken_cons hat
  obtain ⟨hq, heq⟩ := hspan q eq rfl
  refine ⟨file.s, hat', ?_⟩
  cases y <;> cases hy <;>
    simp +decide [parseredirs, hpeek, starts, Sym.byte, strchr, htok, hfile, hret, hret', hq, heq,
      Tok.code, bind, Except.bind]

/-- `parseredirs` returns the command as it is when no redirection follows. -/
theorem parseredirs_nil (cmd : Cmd) (h : At s i ts)
    (hts : starts [ascii '<', ascii '>'] ts = false) :
    ∃ j, At s j ts ∧ parseredirs s.mem s.bytes.length (n + 1) cmd i = .ok (cmd, j) := by
  obtain ⟨j, hpeek, hj, -⟩ := peek_at [ascii '<', ascii '>'] (by decide) h
  refine ⟨j, hj, ?_⟩
  simp [parseredirs, hpeek, hts, bind, Except.bind, pure, Except.pure]

/-- Of a list of redirections with something else behind it, `parseredirs` reads the list. -/
theorem parseredirs_eq (cmd : Cmd) (hr : Redirs ts₁ rs) (h : At s i (ts₁ ++ ts₂))
    (hn : (ts₁ ++ ts₂).length < n) (hts : starts [ascii '<', ascii '>'] ts₂ = false) :
    ∃ j, At s j ts₂ ∧
      parseredirs s.mem s.bytes.length n cmd i = .ok (redirect cmd rs, j) := by
  induction hr generalizing i n cmd with
  | nil =>
    obtain ⟨n, rfl⟩ := Nat.exists_eq_succ_of_ne_zero (Nat.ne_zero_of_lt hn)
    exact parseredirs_nil cmd h hts
  | cons hy hr ih =>
    obtain ⟨n, rfl⟩ := Nat.exists_eq_succ_of_ne_zero (Nat.ne_zero_of_lt hn)
    obtain ⟨j, hj, heq⟩ := parseredirs_cons (n := n) cmd hy h
    simp only [List.cons_append, List.length_cons] at hn
    rw [Nat.succ_eq_add_one, heq]
    exact ih _ hj (by omega)

/-- A symbol with its first byte among `<>` is that of a redirection. -/
theorem exists_redirection {y : Sym} (h : strchr [ascii '<', ascii '>'] y.byte = true) :
    ∃ mode fd, y.redirection = some (mode, fd) := by
  cases y
  case lt => exact ⟨_, _, rfl⟩
  case gt => exact ⟨_, _, rfl⟩
  case gtgt => exact ⟨_, _, rfl⟩
  all_goals exact absurd h (by decide)

/-- A token with the code of a word is a word. -/
theorem exists_word {t : Tok} (h : t.code = ascii 'a') : ∃ q eq, t = .word q eq := by
  cases t with
  | word q eq => exact ⟨q, eq, rfl⟩
  | sym y => cases y <;> exact absurd h (by decide)

/-- `parseredirs` panics at a redirection without a file. -/
theorem parseredirs_panic (cmd : Cmd) {y : Sym} (hy : strchr [ascii '<', ascii '>'] y.byte = true)
    (h : At s i (.sym y :: ts)) (hts : ∀ q eq ts', ts ≠ .word q eq :: ts') :
    parseredirs s.mem s.bytes.length (n + 1) cmd i = .error (.panic "重定向缺少文件名") := by
  obtain ⟨j, hpeek, hj, -⟩ := peek_at [ascii '<', ascii '>'] (by decide) h
  obtain ⟨tok, htok, -, hat, -⟩ := gettoken_cons hj
  have hfile : ∃ file, gettoken s.mem s.bytes.length tok.s = .ok file ∧ file.ret ≠ ascii 'a' := by
    cases ts with
    | nil =>
      obtain ⟨file, hfile, hret, -⟩ := gettoken_nil hat
      exact ⟨file, hfile, by rw [hret]; decide⟩
    | cons t ts =>
      obtain ⟨file, hfile, hret, -⟩ := gettoken_cons hat
      refine ⟨file, hfile, fun hw => ?_⟩
      obtain ⟨q, eq, rfl⟩ := exists_word (hret.symm.trans hw)
      exact hts q eq ts rfl
  obtain ⟨file, hfile, hret⟩ := hfile
  simp [parseredirs, hpeek, starts, hy, htok, hfile, hret, bind, Except.bind]

/-- `parseredirs` reads a list of redirections, or panics. -/
theorem safe_parseredirs (cmd : Cmd) (h : At s i ts) (hn : ts.length < n) :
    Safe (fun r => ∃ ts₁ ts₂ rs, ts = ts₁ ++ ts₂ ∧ Redirs ts₁ rs ∧ r.1 = redirect cmd rs ∧
      At s r.2 ts₂) (parseredirs s.mem s.bytes.length n cmd i) := by
  induction n generalizing i ts cmd with
  | zero => omega
  | succ n ih =>
    cases hts : starts [ascii '<', ascii '>'] ts with
    | false =>
      obtain ⟨j, hj, heq⟩ := parseredirs_nil (n := n) cmd h hts
      rw [heq]
      exact ⟨[], ts, [], rfl, .nil, rfl, hj⟩
    | true =>
      obtain ⟨y, ts', rfl, hy⟩ : ∃ y ts', ts = .sym y :: ts' ∧
          strchr [ascii '<', ascii '>'] y.byte = true := by
        match ts, hts with
        | .sym y :: ts', hts => exact ⟨y, ts', rfl, hts⟩
      by_cases hw : ∃ q eq ts'', ts' = .word q eq :: ts''
      · obtain ⟨q, eq, ts'', rfl⟩ := hw
        obtain ⟨mode, fd, hmode⟩ := exists_redirection hy
        obtain ⟨j, hj, heq⟩ := parseredirs_cons (n := n) cmd hmode h
        simp only [List.length_cons] at hn
        rw [heq]
        refine (ih _ hj (by omega)).mono ?_
        rintro r ⟨ts₁, ts₂, rs, rfl, hrs, hr, hat⟩
        exact ⟨_, ts₂, _, rfl, .cons hmode hrs, hr, hat⟩
      · push Not at hw
        rw [parseredirs_panic cmd hy h hw]
        trivial

/-- The stores to the innermost node commute with the redirections around it. -/
theorem setArg_redirect (k : ℕ) (q eq : Option ℕ) {cmd cmd' : Cmd}
    (h : cmd.setArg k q eq = .ok cmd') :
    (redirect cmd rs).setArg k q eq = .ok (redirect cmd' rs) := by
  induction rs generalizing cmd cmd' with
  | nil => exact h
  | cons r rs ih =>
    refine ih ?_
    simp [Cmd.setArg, h, bind, Except.bind, pure, Except.pure]

theorem nullEnded_set_some (ps : List ℕ) (p : ℕ) (h : ps.length < maxArgs) :
    (nullEnded ps).set ps.length (some p) = nullEnded (ps ++ [p]) := by
  obtain ⟨k, hk⟩ := Nat.exists_eq_add_of_lt h
  have hrep : maxArgs - ps.length = k + 1 := by omega
  have hrep' : maxArgs - (ps ++ [p]).length = k := by
    rw [List.length_append, List.length_singleton]
    omega
  rw [nullEnded, nullEnded, hrep, hrep', List.set_append_right _ _ (by simp)]
  simp [List.replicate_succ]

theorem nullEnded_set_none (ps : List ℕ) :
    (nullEnded ps).set ps.length none = nullEnded ps := by
  rw [nullEnded, List.set_append_right _ _ (by simp)]
  cases hk : maxArgs - ps.length <;> simp [List.replicate_succ]

theorem length_nullEnded (ps : List ℕ) (h : ps.length ≤ maxArgs) :
    (nullEnded ps).length = maxArgs := by
  simp only [nullEnded, List.length_append, List.length_map, List.length_replicate]
  omega

/-- The stores of an argument. -/
theorem setArg_some (h : ws.length < maxArgs) (q eq : ℕ) :
    (redirect (execOf ws) rs).setArg ws.length (some q) (some eq) =
      .ok (redirect (execOf (ws ++ [(q, eq)])) rs) := by
  refine setArg_redirect _ _ _ ?_
  have h₁ := nullEnded_set_some (ws.map Prod.fst) q (by simpa using h)
  have h₂ := nullEnded_set_some (ws.map Prod.snd) eq (by simpa using h)
  rw [List.length_map] at h₁ h₂
  rw [execOf, Cmd.setArg, if_pos, h₁, h₂]
  · simp [execOf]
  · rw [length_nullEnded _ (by simpa using h.le), length_nullEnded _ (by simpa using h.le)]
    exact ⟨h, h⟩

/-- The stores behind the last argument. -/
theorem setArg_none (h : ws.length < maxArgs) :
    (redirect (execOf ws) rs).setArg ws.length none none = .ok (redirect (execOf ws) rs) := by
  refine setArg_redirect _ _ _ ?_
  have h₁ := nullEnded_set_none (ws.map Prod.fst)
  have h₂ := nullEnded_set_none (ws.map Prod.snd)
  rw [List.length_map] at h₁ h₂
  rw [execOf, Cmd.setArg, if_pos, h₁, h₂]
  rw [length_nullEnded _ (by simpa using h.le), length_nullEnded _ (by simpa using h.le)]
  exact ⟨h, h⟩

/-- What can follow a command of a category. -/
def follow : Cat → List Tok → Bool
  | _, [] => true
  | .line, t :: _ => t = .sym .rpar
  | .pipe, t :: _ => t = .sym .rpar ∨ t = .sym .amp ∨ t = .sym .semi
  | .exec, t :: _ => t = .sym .rpar ∨ t = .sym .amp ∨ t = .sym .semi ∨ t = .sym .bar

/-- The loop over the arguments ends at what can follow a command. -/
theorem parseargs_nil (ws : List (ℕ × ℕ)) (rs : List Redir) (h : At s i ts)
    (hts : follow .exec ts = true) (hws : ws.length < maxArgs) :
    ∃ j, At s j ts ∧ parseargs s.mem s.bytes.length (n + 1) (redirect (execOf ws) rs) ws.length i =
      .ok (redirect (execOf ws) rs, j) := by
  obtain ⟨j, hpeek, hj, -⟩ :=
    peek_at [ascii '|', ascii ')', ascii '&', ascii ';'] (by decide) h
  cases ts with
  | nil =>
    obtain ⟨tok, htok, hret, hat⟩ := gettoken_nil hj
    refine ⟨tok.s, hat, ?_⟩
    simp [parseargs, hpeek, starts, htok, hret, setArg_none hws, bind, Except.bind, pure,
      Except.pure]
  | cons t ts =>
    refine ⟨j, hj, ?_⟩
    have hstart : starts [ascii '|', ascii ')', ascii '&', ascii ';'] (t :: ts) = true := by
      simp only [follow, decide_eq_true_eq] at hts
      rcases hts with rfl | rfl | rfl | rfl <;> rfl
    simp [parseargs, hpeek, hstart, setArg_none hws, bind, Except.bind, pure, Except.pure]

/-- An iteration of the loop over the arguments, at a word. -/
theorem parseargs_word (ws : List (ℕ × ℕ)) (rs : List Redir) {q eq : ℕ}
    (h : At s i (.word q eq :: ts)) (hws : ws.length < maxArgs) :
    ∃ j, At s j ts ∧ parseargs s.mem s.bytes.length (n + 1) (redirect (execOf ws) rs) ws.length i =
      if ws.length + 1 ≥ maxArgs then .error (.panic "参数过多")
      else parseredirs s.mem s.bytes.length (s.bytes.length + 1)
        (redirect (execOf (ws ++ [(q, eq)])) rs) j >>= fun r =>
          parseargs s.mem s.bytes.length n r.1 (ws.length + 1) r.2 := by
  obtain ⟨j, hpeek, hj, -⟩ :=
    peek_at [ascii '|', ascii ')', ascii '&', ascii ';'] (by decide) h
  obtain ⟨tok, htok, hret, hat, hspan⟩ := gettoken_cons hj
  obtain ⟨rfl, rfl⟩ := hspan q eq rfl
  refine ⟨tok.s, hat, ?_⟩
  simp +decide only [parseargs, hpeek, starts, htok, hret, Tok.code, setArg_some hws, bind,
    Except.bind, if_false]

/-- At a symbol that can neither follow a command nor start a redirection, the loop over the
    arguments panics. -/
theorem parseargs_panic (cmd : Cmd) {y : Sym} (h : At s i (.sym y :: ts))
    (hy : follow .exec (.sym y :: ts) = false) (argc : ℕ) :
    parseargs s.mem s.bytes.length (n + 1) cmd argc i = .error (.panic "语法错误") := by
  obtain ⟨j, hpeek, hj, -⟩ :=
    peek_at [ascii '|', ascii ')', ascii '&', ascii ';'] (by decide) h
  obtain ⟨tok, htok, hret, -, -⟩ := gettoken_cons hj
  cases y <;>
    simp +decide [parseargs, hpeek, starts, Sym.byte, strchr, htok, hret, Tok.code, bind,
      Except.bind, follow] at hy ⊢

/-- The tokens of arguments do not start with a redirection. -/
theorem Args.starts_eq {ws : List (ℕ × ℕ)} (h : Args ts₁ ws rs) (hts : follow .exec ts₂ = true) :
    starts [ascii '<', ascii '>'] (ts₁ ++ ts₂) = false := by
  cases h with
  | cons => rfl
  | nil =>
    cases ts₂ with
    | nil => rfl
    | cons t ts =>
      simp only [follow, decide_eq_true_eq] at hts
      rcases hts with rfl | rfl | rfl | rfl <;> rfl

/-- Of arguments with something behind them that can follow a command, the loop reads all. -/
theorem parseargs_eq (ws : List (ℕ × ℕ)) (rs : List Redir) {ws' : List (ℕ × ℕ)}
    {rs' : List Redir} (ha : Args ts₁ ws' rs') (h : At s i (ts₁ ++ ts₂))
    (hn : (ts₁ ++ ts₂).length < n) (hts : follow .exec ts₂ = true)
    (hws : (ws ++ ws').length ≤ maxArgs - 1) :
    ∃ j, At s j ts₂ ∧
      parseargs s.mem s.bytes.length n (redirect (execOf ws) rs) ws.length i =
        .ok (redirect (execOf (ws ++ ws')) (rs ++ rs'), j) := by
  induction ha generalizing i n ws rs with
  | nil =>
    obtain ⟨n, rfl⟩ := Nat.exists_eq_succ_of_ne_zero (Nat.ne_zero_of_lt hn)
    simp only [List.append_nil] at hws ⊢
    exact parseargs_nil ws rs h hts (by rw [maxArgs] at hws ⊢; omega)
  | @cons q eq ts ts' ws' rs₁ rs₂ hr ha ih =>
    obtain ⟨n, rfl⟩ := Nat.exists_eq_succ_of_ne_zero (Nat.ne_zero_of_lt hn)
    have hlt : ws.length + 1 < maxArgs := by
      rw [List.length_append, List.length_cons] at hws
      rw [maxArgs] at hws ⊢
      omega
    rw [List.append_assoc, List.cons_append] at h
    obtain ⟨j, hj, heq⟩ := parseargs_word (n := n) ws rs h (by omega)
    obtain ⟨k, hk, hredirs⟩ := parseredirs_eq (redirect (execOf (ws ++ [(q, eq)])) rs) hr hj
      hj.length_lt (ha.starts_eq hts)
    obtain ⟨e, he, hrest⟩ := ih (n := n) (ws ++ [(q, eq)]) (rs ++ rs₁) hk
      (by simp at hn ⊢; omega) (by simpa using hws)
    refine ⟨e, he, ?_⟩
    rw [Nat.succ_eq_add_one, heq, if_neg (by omega), hredirs]
    simpa [bind, Except.bind, redirect] using hrest

/-- The loop over the arguments reads arguments, or panics. -/
theorem safe_parseargs (ws : List (ℕ × ℕ)) (rs : List Redir) (h : At s i ts)
    (hn : ts.length < n) (hws : ws.length ≤ maxArgs - 1) :
    Safe (fun r => ∃ ts₁ ts₂ ws' rs', ts = ts₁ ++ ts₂ ∧ Args ts₁ ws' rs' ∧
      (ws ++ ws').length ≤ maxArgs - 1 ∧ r.1 = redirect (execOf (ws ++ ws')) (rs ++ rs') ∧
      At s r.2 ts₂) (parseargs s.mem s.bytes.length n (redirect (execOf ws) rs) ws.length i) := by
  induction n generalizing i ts ws rs with
  | zero => omega
  | succ n ih =>
    have hlt : ws.length < maxArgs := by
      rw [maxArgs] at hws ⊢
      omega
    cases hts : follow .exec ts with
    | true =>
      obtain ⟨j, hj, heq⟩ := parseargs_nil (n := n) ws rs h hts hlt
      rw [heq]
      exact ⟨[], ts, [], [], rfl, .nil, by simpa using hws, by simp, hj⟩
    | false =>
      match ts, h, hn, hts with
      | .sym y :: ts, h, hn, hts =>
        rw [parseargs_panic _ h hts]
        trivial
      | .word q eq :: ts, h, hn, hts =>
        obtain ⟨j, hj, heq⟩ := parseargs_word (n := n) ws rs h hlt
        rw [heq]
        split
        · trivial
        next hmax =>
          rw [safe_bind]
          refine (safe_parseredirs _ hj hj.length_lt).mono ?_
          rintro ⟨cmd, k⟩ ⟨ts₁, ts₂, rs', rfl, hrs, hcmd, hk⟩
          simp only at hcmd hk
          have hred : cmd = redirect (execOf (ws ++ [(q, eq)])) (rs ++ rs') := by
            simp [hcmd, redirect]
          have hrest := ih (ws ++ [(q, eq)]) (rs ++ rs') hk (by simp at hn; omega)
            (by simp; omega)
          rw [List.length_append, List.length_singleton, ← hred] at hrest
          refine hrest.mono ?_
          rintro r ⟨ts₃, ts₄, ws', rs'', rfl, ha, hlen, hr, hat⟩
          refine ⟨_, ts₄, (q, eq) :: ws', rs' ++ rs'', by simp, .cons hrs ha, ?_, ?_, hat⟩
          · simpa using hlen
          · simpa using hr

/-! ### Soundness -/

/-- `peek` for a symbol that is there, and the `gettoken` that removes it. -/
theorem peek_sym (y : Sym) (h : At s i (.sym y :: ts)) :
    ∃ j l, peek s.mem s.bytes.length i [y.byte] = .ok (true, j) ∧ At s j (.sym y :: ts) ∧
      gettoken s.mem s.bytes.length j = .ok l ∧ At s l.s ts := by
  obtain ⟨j, hpeek, hj, -⟩ := peek_at [y.byte] (by cases y <;> decide) h
  obtain ⟨l, hl, -, hat, -⟩ := gettoken_cons hj
  refine ⟨j, l, ?_, hj, hl, hat⟩
  rw [hpeek]
  simp [starts, strchr]

/-- `peek` for a symbol that is not there. -/
theorem peek_none (y : Sym) (h : At s i ts) (hts : starts [y.byte] ts = false) :
    ∃ j, peek s.mem s.bytes.length i [y.byte] = .ok (false, j) ∧ At s j ts := by
  obtain ⟨j, hpeek, hj, -⟩ := peek_at [y.byte] (by cases y <;> decide) h
  exact ⟨j, hts ▸ hpeek, hj⟩

/-- The only symbol that starts with the byte of a symbol other than `>` is the symbol itself. -/
theorem eq_cons_of_starts {y : Sym} (hy : y.byte ≠ ascii '>') (h : starts [y.byte] ts = true) :
    ∃ ts', ts = .sym y :: ts' := by
  match ts, h with
  | .sym z :: ts', h =>
    have hz : z.byte = y.byte := by simpa [starts, strchr] using h
    refine ⟨ts', ?_⟩
    cases y <;> cases z <;> first | rfl | exact absurd hz (by decide) | exact absurd rfl hy

/-- The loop over `&` reads all of them. -/
theorem parsebacks_eq (k : ℕ) (cmd : Cmd) (h : At s i (List.replicate k (.sym .amp) ++ ts))
    (hn : (List.replicate k (Tok.sym .amp) ++ ts).length < n)
    (hts : starts [ascii '&'] ts = false) :
    ∃ j, At s j ts ∧ parsebacks s.mem s.bytes.length n cmd i = .ok (Cmd.back^[k] cmd, j) := by
  induction k generalizing i n cmd with
  | zero =>
    obtain ⟨n, rfl⟩ := Nat.exists_eq_succ_of_ne_zero (Nat.ne_zero_of_lt hn)
    obtain ⟨j, hpeek, hj⟩ := peek_none .amp h hts
    rw [Sym.byte] at hpeek
    refine ⟨j, hj, ?_⟩
    simp [parsebacks, hpeek, bind, Except.bind, pure, Except.pure]
  | succ k ih =>
    obtain ⟨n, rfl⟩ := Nat.exists_eq_succ_of_ne_zero (Nat.ne_zero_of_lt hn)
    rw [List.replicate_succ, List.cons_append] at h
    obtain ⟨j, l, hpeek, -, htok, hat⟩ := peek_sym .amp h
    rw [Sym.byte] at hpeek
    obtain ⟨e, he, heq⟩ := ih (n := n) (.back cmd) hat
      (by simp [List.replicate_succ] at hn ⊢; omega)
    refine ⟨e, he, ?_⟩
    simp [parsebacks, hpeek, htok, heq, bind, Except.bind]

/-- A list of tokens starts with a number of `&`. -/
theorem exists_amps (ts : List Tok) : ∃ k ts', ts = List.replicate k (.sym .amp) ++ ts' ∧
    starts [ascii '&'] ts' = false := by
  induction ts with
  | nil => exact ⟨0, [], rfl, rfl⟩
  | cons t ts ih =>
    by_cases ht : t = .sym .amp
    · obtain ⟨k, ts', rfl, hts⟩ := ih
      exact ⟨k + 1, ts', by simp [List.replicate_succ, ht], hts⟩
    · refine ⟨0, t :: ts, rfl, ?_⟩
      by_contra hstart
      rw [Bool.not_eq_false] at hstart
      obtain ⟨ts', h⟩ := eq_cons_of_starts (y := .amp) (by decide) hstart
      exact ht (List.cons.inj h).1

/-- The result `r` of a parse stems from a derivation of the tokens that were read, from the front
    of `ts`. -/
def Reads (s : CString) (x : Cat) (ts : List Tok) (r : Cmd × ℕ) : Prop :=
  ∃ ts₁ ts₂, ts = ts₁ ++ ts₂ ∧ Derives x ts₁ r.1 ∧ At s r.2 ts₂

/-- With `n` fuel, each function reads what it is for or panics, if the fuel is enough for the
    number of tokens. A call of one function by another that has read no token in between takes
    fuel, too: hence four times the number. -/
structure Sound (s : CString) (n : ℕ) : Prop where
  line : ∀ i ts, At s i ts → 4 * ts.length + 4 ≤ n →
    Safe (Reads s .line ts) (parseline s.mem s.bytes.length n i)
  pipe : ∀ i ts, At s i ts → 4 * ts.length + 3 ≤ n →
    Safe (Reads s .pipe ts) (parsepipe s.mem s.bytes.length n i)
  exec : ∀ i ts, At s i ts → 4 * ts.length + 2 ≤ n →
    Safe (Reads s .exec ts) (parseexec s.mem s.bytes.length n i)
  block : ∀ i ts, At s i ts → 4 * ts.length + 1 ≤ n →
    Safe (Reads s .exec ts) (parseblock s.mem s.bytes.length n i)

theorem Sound.line_succ (h : Sound s n) (hat : At s i ts) (hn : 4 * ts.length + 4 ≤ n + 1) :
    Safe (Reads s .line ts) (parseline s.mem s.bytes.length (n + 1) i) := by
  rw [parseline, safe_bind]
  refine (h.pipe i ts hat (by omega)).mono ?_
  rintro ⟨c, j⟩ ⟨ts₁, ts₂, rfl, hc, hj⟩
  obtain ⟨k, ts', rfl, hts'⟩ := exists_amps ts₂
  obtain ⟨e, he, hbacks⟩ := parsebacks_eq k c hj hj.length_lt hts'
  simp only [hbacks, bind, Except.bind]
  cases hsemi : starts [ascii ';'] ts' with
  | false =>
    obtain ⟨e', hpeek, he'⟩ := peek_none .semi he hsemi
    rw [Sym.byte] at hpeek
    rw [hpeek]
    exact ⟨_, ts', by simp, .line k hc, he'⟩
  | true =>
    obtain ⟨ts'', rfl⟩ := eq_cons_of_starts (y := .semi) (by decide) hsemi
    obtain ⟨e', l, hpeek, -, htok, hl⟩ := peek_sym .semi he
    rw [Sym.byte] at hpeek
    simp only [hpeek, htok, if_true]
    simp only [List.length_append, List.length_replicate, List.length_cons] at hn
    refine safe_bind.mpr ((h.line l.s ts'' hl (by omega)).mono ?_)
    rintro ⟨c', o⟩ ⟨ts₃, ts₄, rfl, hc', ho⟩
    exact ⟨_, ts₄, by simp, .list k hc hc', ho⟩

theorem Sound.pipe_succ (h : Sound s n) (hat : At s i ts) (hn : 4 * ts.length + 3 ≤ n + 1) :
    Safe (Reads s .pipe ts) (parsepipe s.mem s.bytes.length (n + 1) i) := by
  rw [parsepipe, safe_bind]
  refine (h.exec i ts hat (by omega)).mono ?_
  rintro ⟨c, j⟩ ⟨ts₁, ts₂, rfl, hc, hj⟩
  dsimp only at hj
  cases hbar : starts [ascii '|'] ts₂ with
  | false =>
    obtain ⟨e, hpeek, he⟩ := peek_none .bar hj hbar
    rw [Sym.byte] at hpeek
    simp only [hpeek, bind, Except.bind]
    exact ⟨ts₁, ts₂, rfl, .exec hc, he⟩
  | true =>
    obtain ⟨ts', rfl⟩ := eq_cons_of_starts (y := .bar) (by decide) hbar
    obtain ⟨e, l, hpeek, -, htok, hl⟩ := peek_sym .bar hj
    rw [Sym.byte] at hpeek
    simp only [hpeek, htok, bind, Except.bind, if_true]
    simp only [List.length_append, List.length_cons] at hn
    refine safe_bind.mpr ((h.pipe l.s ts' hl (by omega)).mono ?_)
    rintro ⟨c', o⟩ ⟨ts₃, ts₄, rfl, hc', ho⟩
    exact ⟨_, ts₄, by simp, .pipe hc hc', ho⟩

theorem Sound.exec_succ (h : Sound s n) (hat : At s i ts) (hn : 4 * ts.length + 2 ≤ n + 1) :
    Safe (Reads s .exec ts) (parseexec s.mem s.bytes.length (n + 1) i) := by
  rw [parseexec]
  cases hlpar : starts [ascii '('] ts with
  | true =>
    obtain ⟨ts', rfl⟩ := eq_cons_of_starts (y := .lpar) (by decide) hlpar
    obtain ⟨e, l, hpeek, he, -, -⟩ := peek_sym .lpar hat
    rw [Sym.byte] at hpeek
    simp only [hpeek, bind, Except.bind, if_true]
    exact h.block e _ he (by omega)
  | false =>
    obtain ⟨e, hpeek, he⟩ := peek_none .lpar hat hlpar
    rw [Sym.byte] at hpeek
    simp only [hpeek, bind, Except.bind, Bool.false_eq_true, if_false]
    refine safe_bind.mpr ((safe_parseredirs execcmd he he.length_lt).mono ?_)
    rintro ⟨c, j⟩ ⟨ts₁, ts₂, rs, rfl, hrs, hc, hj⟩
    dsimp only at hc hj
    subst hc
    refine (safe_parseargs [] rs hj hj.length_lt (Nat.zero_le _)).mono ?_
    rintro r ⟨ts₃, ts₄, ws, rs', rfl, ha, hws, hr, hat'⟩
    exact ⟨ts₁ ++ ts₃, ts₄, by simp, hr ▸ .words hrs ha hws, hat'⟩

theorem Sound.block_succ (h : Sound s n) (hat : At s i ts) (hn : 4 * ts.length + 1 ≤ n + 1) :
    Safe (Reads s .exec ts) (parseblock s.mem s.bytes.length (n + 1) i) := by
  rw [parseblock]
  cases hlpar : starts [ascii '('] ts with
  | false =>
    obtain ⟨e, hpeek, -⟩ := peek_none .lpar hat hlpar
    rw [Sym.byte] at hpeek
    simp only [hpeek, bind, Except.bind]
    trivial
  | true =>
    obtain ⟨ts', rfl⟩ := eq_cons_of_starts (y := .lpar) (by decide) hlpar
    obtain ⟨e, l, hpeek, -, htok, hl⟩ := peek_sym .lpar hat
    rw [Sym.byte] at hpeek
    simp only [hpeek, htok, bind, Except.bind, Bool.not_true, Bool.false_eq_true, if_false]
    simp only [List.length_cons] at hn
    refine safe_bind.mpr ((h.line l.s ts' hl (by omega)).mono ?_)
    rintro ⟨c, j⟩ ⟨ts₁, ts₂, rfl, hc, hj⟩
    dsimp only at hc hj
    cases hrpar : starts [ascii ')'] ts₂ with
    | false =>
      obtain ⟨o, hpeek', -⟩ := peek_none .rpar hj hrpar
      rw [Sym.byte] at hpeek'
      simp only [hpeek']
      trivial
    | true =>
      obtain ⟨ts'', rfl⟩ := eq_cons_of_starts (y := .rpar) (by decide) hrpar
      obtain ⟨o, l', hpeek', -, htok', hl'⟩ := peek_sym .rpar hj
      rw [Sym.byte] at hpeek'
      simp only [hpeek', htok', Bool.not_true, Bool.false_eq_true, if_false]
      refine (safe_parseredirs c hl' hl'.length_lt).mono ?_
      rintro r ⟨ts₃, ts₄, rs, rfl, hrs, hr, hat'⟩
      refine ⟨.sym .lpar :: ts₁ ++ .sym .rpar :: ts₃, ts₄, by simp, ?_, hat'⟩
      rw [hr]
      exact .block hc hrs

/-- Each function reads what it is for or panics. -/
theorem sound (s : CString) (n : ℕ) : Sound s n := by
  induction n with
  | zero =>
    constructor
    all_goals
      intro i ts _ hn
      omega
  | succ n ih =>
    exact ⟨fun _ _ => ih.line_succ, fun _ _ => ih.pipe_succ, fun _ _ => ih.exec_succ,
      fun _ _ => ih.block_succ⟩

/-! ### Completeness -/

/-- The function that reads a category. -/
def parse (m : List UInt8) (es : ℕ) : Cat → ℕ → ℕ → Except ShErr (Cmd × ℕ)
  | .line => parseline m es
  | .pipe => parsepipe m es
  | .exec => parseexec m es

/-- The fuel with which a category is read from `k` tokens. -/
def need (k : ℕ) : Cat → ℕ
  | .line => 4 * k + 4
  | .pipe => 4 * k + 3
  | .exec => 4 * k + 2

/-- What follows a line has no `;` in front, and so on. -/
theorem starts_of_follow {x : Cat} {y : Sym} (hts : follow x ts = true)
    (hy : follow x [.sym y] = false) (hgt : y.byte ≠ ascii '>') : starts [y.byte] ts = false := by
  by_contra hstart
  rw [Bool.not_eq_false] at hstart
  obtain ⟨ts', rfl⟩ := eq_cons_of_starts hgt hstart
  cases x <;> simp_all [follow]

/-- What can follow a line, or a `&`, can follow a pipeline. -/
theorem follow_amps (k : ℕ) (hts : follow .line ts = true) :
    follow .pipe (List.replicate k (.sym .amp) ++ ts) = true := by
  cases k with
  | succ k => rfl
  | zero =>
    cases ts with
    | nil => rfl
    | cons t ts => simp_all [follow]

/-- What can follow a pipeline can follow a command. -/
theorem follow_exec (hts : follow .pipe ts = true) : follow .exec ts = true := by
  cases ts with
  | nil => rfl
  | cons t ts =>
    simp only [follow, decide_eq_true_eq] at hts ⊢
    tauto

/-- What can follow a command is no redirection. -/
theorem starts_redir_of_follow (hts : follow .exec ts = true) :
    starts [ascii '<', ascii '>'] ts = false :=
  Args.starts_eq .nil hts

/-- What starts like a command without parentheses does not start with one. -/
theorem starts_lpar {ts' : List Tok} {rs' : List Redir} (hr : Redirs ts rs) (ha : Args ts' ws rs')
    (hts : follow .exec ts₂ = true) : starts [ascii '('] (ts ++ ts' ++ ts₂) = false := by
  cases hr with
  | @cons y _ _ _ _ _ _ hy _ =>
    cases y <;> first | rfl | cases hy
  | nil =>
    cases ha with
    | cons => rfl
    | nil => exact starts_of_follow (y := .lpar) hts rfl (by decide)

theorem exists_succ_of_need {k : ℕ} {x : Cat} (hn : need k x ≤ n) : ∃ n', n = n' + 1 := by
  refine Nat.exists_eq_succ_of_ne_zero ?_
  cases x <;> simp only [need] at hn <;> omega

/-- Of a derivation with something behind it that can follow, the parser reads the tokens, and it
    returns the tree. -/
theorem complete {x : Cat} {c : Cmd} (hd : Derives x ts₁ c) (h : At s i (ts₁ ++ ts₂))
    (hts : follow x ts₂ = true) (hn : need ts₁.length x ≤ n) :
    ∃ j, At s j ts₂ ∧ parse s.mem s.bytes.length x n i = .ok (c, j) := by
  -- By induction on the derivation: each rule is one call of the parser, and the symbol behind it
  -- is none at which this call would go on.
  induction hd generalizing i n ts₂ with
  | @line ts c k hp ih =>
    obtain ⟨n, rfl⟩ := exists_succ_of_need hn
    simp only [need, List.length_append, List.length_replicate] at hn ih
    rw [List.append_assoc] at h
    obtain ⟨j, hj, hpipe⟩ := ih (n := n) h (follow_amps k hts) (by omega)
    obtain ⟨e, he, hbacks⟩ := parsebacks_eq k c hj hj.length_lt
      (starts_of_follow (y := .amp) hts rfl (by decide))
    obtain ⟨o, hpeek, ho⟩ := peek_none .semi he (starts_of_follow (y := .semi) hts rfl (by decide))
    rw [parse] at hpipe
    rw [Sym.byte] at hpeek
    exact ⟨o, ho, by simp [parse, parseline, hpipe, hbacks, hpeek, bind, Except.bind, pure,
      Except.pure]⟩
  | @list ts ts' c c' k hp hl ih ih' =>
    obtain ⟨n, rfl⟩ := exists_succ_of_need hn
    simp only [need, List.length_append, List.length_replicate, List.length_cons] at hn ih ih'
    rw [List.append_assoc, List.append_assoc] at h
    obtain ⟨j, hj, hpipe⟩ := ih (n := n) h (by cases k <;> rfl) (by omega)
    obtain ⟨e, he, hbacks⟩ := parsebacks_eq k c hj hj.length_lt rfl
    obtain ⟨e', l, hpeek, -, htok, hl⟩ := peek_sym .semi he
    obtain ⟨o, ho, hline⟩ := ih' (n := n) hl hts (by omega)
    simp only [parse] at hpipe hline
    rw [Sym.byte] at hpeek
    exact ⟨o, ho, by simp [parse, parseline, hpipe, hbacks, hpeek, htok, hline, bind, Except.bind,
      pure, Except.pure]⟩
  | exec he ih =>
    obtain ⟨n, rfl⟩ := exists_succ_of_need hn
    simp only [need] at hn ih
    obtain ⟨j, hj, hexec⟩ := ih (n := n) h (follow_exec hts) (by omega)
    obtain ⟨o, hpeek, ho⟩ := peek_none .bar hj (starts_of_follow (y := .bar) hts rfl (by decide))
    rw [parse] at hexec
    rw [Sym.byte] at hpeek
    exact ⟨o, ho, by simp [parse, parsepipe, hexec, hpeek, bind, Except.bind, pure, Except.pure]⟩
  | pipe he hp ih ih' =>
    obtain ⟨n, rfl⟩ := exists_succ_of_need hn
    simp only [need, List.length_append, List.length_cons] at hn ih ih'
    rw [List.append_assoc] at h
    obtain ⟨j, hj, hexec⟩ := ih (n := n) h rfl (by omega)
    obtain ⟨e, l, hpeek, -, htok, hl⟩ := peek_sym .bar hj
    obtain ⟨o, ho, hpipe⟩ := ih' (n := n) hl hts (by omega)
    simp only [parse] at hexec hpipe
    rw [Sym.byte] at hpeek
    exact ⟨o, ho, by simp [parse, parsepipe, hexec, hpeek, htok, hpipe, bind, Except.bind, pure,
      Except.pure]⟩
  | @block ts ts' c rs hl hr ih =>
    obtain ⟨n, rfl⟩ := exists_succ_of_need hn
    simp only [need, List.length_append, List.length_cons] at hn ih
    obtain ⟨n, rfl⟩ : ∃ n', n = n' + 1 := Nat.exists_eq_succ_of_ne_zero (by omega)
    rw [List.append_assoc, List.cons_append] at h
    obtain ⟨j, -, hpeek, hj, -, -⟩ := peek_sym .lpar h
    obtain ⟨j', l, hpeek', -, htok, hl⟩ := peek_sym .lpar hj
    obtain ⟨e, he, hline⟩ := ih (n := n) hl rfl (by omega)
    obtain ⟨e', l', hpeek'', -, htok', hl'⟩ := peek_sym .rpar he
    obtain ⟨o, ho, hredirs⟩ := parseredirs_eq c hr hl' hl'.length_lt (starts_redir_of_follow hts)
    rw [parse] at hline
    simp only [Sym.byte] at hpeek hpeek' hpeek''
    exact ⟨o, ho, by simp [parse, parseexec, parseblock, hpeek, hpeek', htok, hline, hpeek'', htok',
      hredirs, bind, Except.bind]⟩
  | @words ts ts' ws rs rs' hr ha hws =>
    obtain ⟨n, rfl⟩ := exists_succ_of_need hn
    obtain ⟨j, hpeek, hj⟩ := peek_none .lpar h (starts_lpar hr ha hts)
    rw [List.append_assoc] at hj
    obtain ⟨e, he, hredirs⟩ := parseredirs_eq execcmd hr hj hj.length_lt (ha.starts_eq hts)
    obtain ⟨o, ho, hargs⟩ := parseargs_eq [] rs ha he he.length_lt hts hws
    rw [execOf_nil] at hargs
    rw [Sym.byte] at hpeek
    exact ⟨o, ho, by simpa [parse, parseexec, hpeek, hredirs, bind, Except.bind] using hargs⟩

/-! ### The end of the words -/

/-- The memory `m'` is `m` with a NUL at the end of each word of `ts`. -/
structure Nulled (ts : List Tok) (m m' : List UInt8) : Prop where
  length : m'.length = m.length
  ends : ∀ q e, .word q e ∈ ts → m'[e]? = some 0
  rest : ∀ i, (∀ q, .word q i ∉ ts) → m'[i]? = m[i]?

/-- The words of `ts` end inside of a memory of `k` bytes. -/
def Inside (k : ℕ) (ts : List Tok) : Prop := ∀ q e, .word q e ∈ ts → e < k

theorem Nulled.trans {m m₁ m₂ : List UInt8} (h₁ : Nulled ts₁ m m₁) (h₂ : Nulled ts₂ m₁ m₂)
    (hts : ∀ q e, .word q e ∈ ts ↔ .word q e ∈ ts₁ ∨ .word q e ∈ ts₂) : Nulled ts m m₂ := by
  refine ⟨h₂.length.trans h₁.length, ?_, ?_⟩
  · intro q e he
    by_cases h : ∃ q', .word q' e ∈ ts₂
    · obtain ⟨q', hq⟩ := h
      exact h₂.ends q' e hq
    · push Not at h
      rw [h₂.rest e h]
      exact h₁.ends q e (((hts q e).mp he).resolve_right (h q))
  · intro i hi
    rw [h₂.rest i fun q hq => hi q ((hts q i).mpr (.inr hq)),
      h₁.rest i fun q hq => hi q ((hts q i).mpr (.inl hq))]

/-- `nulterminate` on `c` ends the words of `ts` in every memory of `k` bytes. -/
def Ends (k : ℕ) (c : Cmd) (ts : List Tok) : Prop :=
  ∀ m : List UInt8, m.length = k → ∃ m', nulterminate c m = .ok m' ∧ Nulled ts m m'

theorem Ends.congr {k : ℕ} {c : Cmd} (h : Ends k c ts₁)
    (hts : ∀ q e, .word q e ∈ ts ↔ .word q e ∈ ts₁) : Ends k c ts := by
  intro m hm
  obtain ⟨m', hm', hn⟩ := h m hm
  exact ⟨m', hm', hn.length, fun q e hq => hn.ends q e ((hts q e).mp hq),
    fun i hi => hn.rest i fun q hq => hi q ((hts q i).mpr hq)⟩

theorem nul_eq {m : List UInt8} {q e : ℕ} (he : e < m.length) :
    nul m e = .ok (m.set e 0) ∧ Nulled [.word q e] m (m.set e 0) := by
  refine ⟨if_pos he, by simp, ?_, ?_⟩
  · intro q' e' h
    obtain ⟨rfl, rfl⟩ : q' = q ∧ e' = e := by simpa using h
    simp [he]
  · intro i hi
    rw [List.getElem?_set_ne]
    rintro rfl
    exact hi q (by simp)

/-- Two commands one after the other. -/
theorem Ends.bind {k : ℕ} {c c' : Cmd} (h : Ends k c ts₁) (h' : Ends k c' ts₂)
    (hts : ∀ q e, .word q e ∈ ts ↔ .word q e ∈ ts₁ ∨ .word q e ∈ ts₂) {m : List UInt8}
    (hm : m.length = k) :
    ∃ m', (do let m ← nulterminate c m; nulterminate c' m) = .ok m' ∧ Nulled ts m m' := by
  obtain ⟨m₁, h₁, hn₁⟩ := h m hm
  obtain ⟨m₂, h₂, hn₂⟩ := h' m₁ (hn₁.length.trans hm)
  exact ⟨m₂, by simp [h₁, h₂, Bind.bind, Except.bind], hn₁.trans hn₂ hts⟩

/-- The redirections of a command. -/
theorem Ends.redirect {k : ℕ} {c : Cmd} (h : Ends k c ts₁) (hr : Redirs ts₂ rs)
    (hin : Inside k ts₂) : Ends k (redirect c rs) (ts₁ ++ ts₂) := by
  induction hr generalizing c ts₁ with
  | nil => simpa [Sh.redirect] using h
  | @cons y q eq mode fd ts rs hy hr ih =>
    have hstep : Ends k (.redir c q eq mode fd) (ts₁ ++ [.word q eq]) := by
      intro m hm
      obtain ⟨m₁, h₁, hn₁⟩ := h m hm
      obtain ⟨h₂, hn₂⟩ := nul_eq (m := m₁) (q := q) (e := eq)
        (by rw [hn₁.length, hm]; exact hin q eq (by simp))
      refine ⟨_, ?_, hn₁.trans hn₂ (by simp)⟩
      simp [nulterminate, h₁, h₂, Bind.bind, Except.bind]
    have hrest := ih hstep fun q' e' hq => hin q' e' (by simp [hq])
    exact hrest.congr (by simp)

/-- The loop over the arguments of an `execcmd`, up to the NULL behind them. -/
theorem nulArgs_eq (ws : List (ℕ × ℕ)) (as bs : List (Option ℕ)) {m : List UInt8}
    (hin : ∀ w ∈ ws, w.2 < m.length) :
    ∃ m', nulArgs (ws.map (some ∘ Prod.fst) ++ none :: as) (ws.map (some ∘ Prod.snd) ++ bs) m =
      .ok m' ∧ Nulled (ws.map fun w => .word w.1 w.2) m m' := by
  induction ws generalizing m with
  | nil => exact ⟨m, rfl, rfl, by simp, by simp⟩
  | cons w ws ih =>
    obtain ⟨h₁, hn₁⟩ := nul_eq (m := m) (q := w.1) (e := w.2) (hin w (by simp))
    obtain ⟨m₂, h₂, hn₂⟩ := ih (m := m.set w.2 0) fun w' hw' => by
      rw [List.length_set]
      exact hin w' (List.mem_cons_of_mem _ hw')
    refine ⟨m₂, ?_, hn₁.trans hn₂ (by simp)⟩
    simpa [nulArgs, h₁, Bind.bind, Except.bind] using h₂

/-- The words of an `execcmd`. -/
theorem ends_execOf {k : ℕ} (hws : ws.length ≤ maxArgs - 1) (hin : ∀ w ∈ ws, w.2 < k) :
    Ends k (execOf ws) (ws.map fun w => .word w.1 w.2) := by
  intro m hm
  obtain ⟨r, hr⟩ : ∃ r, maxArgs - ws.length = r + 1 :=
    Nat.exists_eq_succ_of_ne_zero (by rw [maxArgs] at hws ⊢; omega)
  obtain ⟨m', hm', hn⟩ := nulArgs_eq ws (List.replicate r none) (List.replicate (r + 1) none)
    (m := m) (by rwa [hm])
  refine ⟨m', ?_, hn⟩
  rw [execOf, nulterminate, nullEnded, nullEnded, List.length_map, List.length_map, hr,
    List.map_map, List.map_map]
  exact hm'

/-- The words of arguments. -/
theorem Args.word_mem (ha : Args ts ws rs) : ∀ w ∈ ws, .word w.1 w.2 ∈ ts := by
  induction ha with
  | nil => simp
  | cons hr ha ih =>
    intro w hw
    rcases List.mem_cons.mp hw with rfl | hw
    · simp
    · simp [ih w hw]

/-- The redirections among the arguments of a command. -/
theorem Ends.args {k : ℕ} {c : Cmd} (h : Ends k c ts₁) (ha : Args ts₂ ws rs) (hin : Inside k ts₂)
    (hws : ∀ w ∈ ws, .word w.1 w.2 ∈ ts₁) : Ends k (Sh.redirect c rs) (ts₁ ++ ts₂) := by
  induction ha generalizing c ts₁ with
  | nil => simpa [Sh.redirect] using h
  | @cons q eq ts ts' ws rs rs' hr ha ih =>
    have hredir := h.redirect hr fun q' e hq => hin q' e (by simp [hq])
    have hrest := ih hredir (fun q' e hq => hin q' e (by simp [hq]))
      fun w hw => by simp [hws w (List.mem_cons_of_mem _ hw)]
    have hword : .word q eq ∈ ts₁ := hws (q, eq) (by simp)
    rw [Sh.redirect, Sh.redirect, ← List.foldl_append] at hrest
    refine hrest.congr fun q' e => ?_
    simp only [List.mem_append, List.mem_cons]
    constructor
    · rintro (h | (h | h) | h)
      · simp [h]
      · simp [h, hword]
      · simp [h]
      · simp [h]
    · rintro ((h | h) | h) <;> simp [h]

theorem nulterminate_back (k : ℕ) (c : Cmd) (m : List UInt8) :
    nulterminate (Cmd.back^[k] c) m = nulterminate c m := by
  induction k with
  | zero => rfl
  | succ k ih => rw [Function.iterate_succ_apply', nulterminate, ih]

/-- `nulterminate` on the tree of a derivation ends all its words. -/
theorem Derives.ends {k : ℕ} {x : Cat} {c : Cmd} (hd : Derives x ts c) (hin : Inside k ts) :
    Ends k c ts := by
  induction hd with
  | line n hp ih =>
    intro m hm
    rw [nulterminate_back]
    exact (ih fun q e hq => hin q e (by simp [hq])).congr (by simp) m hm
  | list n hp hl ih ih' =>
    intro m hm
    have h := ih fun q e hq => hin q e (by simp [hq])
    have h' := ih' fun q e hq => hin q e (by simp [hq])
    rw [nulterminate]
    simp only [nulterminate_back]
    exact h.bind h' (by simp) hm
  | exec he ih => exact ih hin
  | pipe he hp ih ih' =>
    intro m hm
    have h := ih fun q e hq => hin q e (by simp [hq])
    have h' := ih' fun q e hq => hin q e (by simp [hq])
    exact h.bind h' (by simp) hm
  | block hl hr ih =>
    have h := ih fun q e hq => hin q e (by simp [hq])
    exact (h.redirect hr fun q e hq => hin q e (by simp [hq])).congr (by simp)
  | @words ts ts' ws rs rs' hr ha hws =>
    have hmem := ha.word_mem
    have hexec : Ends k (execOf ws) (ws.map fun w => .word w.1 w.2) :=
      ends_execOf hws fun w hw => hin w.1 w.2 (by simp [hmem w hw])
    have h := (hexec.redirect hr fun q e hq => hin q e (by simp [hq])).args ha
      (fun q e hq => hin q e (by simp [hq]))
      fun w hw => List.mem_append_left _ (List.mem_map_of_mem hw)
    rw [Sh.redirect, Sh.redirect, ← List.foldl_append] at h
    refine h.congr fun q e => ?_
    simp only [List.mem_append, List.mem_map, Tok.word.injEq]
    constructor
    · rintro (h | h) <;> simp [h]
    · rintro ((⟨w, hw, rfl, rfl⟩ | h) | h)
      · exact .inr (hmem w hw)
      · exact .inl h
      · exact .inr h

/-- A word ends inside of the line, or at its end. -/
theorem end_le_of_mem_tokens (i : ℕ) (cs : List UInt8) {q e : ℕ} (h : .word q e ∈ tokens i cs) :
    e ≤ i + cs.length := by
  fun_induction tokens i cs with
  | case1 => simp at h
  | case2 i c cs hc ih =>
    have := ih h
    simp only [List.length_cons]
    omega
  | case3 i c cs hc hgt ih =>
    have := ih (by simpa using h)
    have hpos : 0 < cs.length := List.length_pos_iff.mpr fun h0 => by simp [h0] at hgt
    simp only [List.length_cons, List.length_tail] at this ⊢
    omega
  | case4 i c cs hc hgt y hy ih =>
    have := ih (by simpa using h)
    simp only [List.length_cons]
    omega
  | case5 i c cs hc hgt hy n ih =>
    have hlen := (List.takeWhile_prefix (l := cs) wordByte).length_le
    rcases List.mem_cons.mp h with h | h
    · cases h
      simp only [List.length_cons]
      omega
    · have := ih h
      simp only [List.length_cons, List.length_drop] at this ⊢
      omega

theorem inside_tokens (s : CString) : Inside s.mem.length (tokens 0 s.bytes) := by
  intro q e h
  have := end_le_of_mem_tokens 0 s.bytes h
  simp only [CString.mem, List.length_append, List.length_singleton]
  omega

/-! ### The whole line -/

/-- There is one memory with the ends of the words set to NUL. -/
theorem Nulled.unique {m m₁ m₂ : List UInt8} (h₁ : Nulled ts m m₁) (h₂ : Nulled ts m m₂) :
    m₁ = m₂ := by
  refine List.ext_getElem? fun i => ?_
  by_cases hi : ∃ q, .word q i ∈ ts
  · obtain ⟨q, hq⟩ := hi
    rw [h₁.ends q i hq, h₂.ends q i hq]
  · push Not at hi
    rw [h₁.rest i hi, h₂.rest i hi]

theorem at_zero (s : CString) : At s 0 (tokens 0 s.bytes) := ⟨Nat.zero_le _, by simp⟩

theorem length_tokens_zero (s : CString) : (tokens 0 s.bytes).length ≤ s.bytes.length :=
  length_tokens_le 0 s.bytes

/-- A line of the grammar is parsed. -/
theorem parsecmd_of_derives {c : Cmd} (hd : Derives .line (tokens 0 s.bytes) c) :
    ∃ m', parsecmd s.mem = .ok (c, m') ∧ Nulled (tokens 0 s.bytes) s.mem m' := by
  have hlen := length_tokens_zero s
  have hat := at_zero s
  rw [← List.append_nil (tokens 0 s.bytes)] at hat
  obtain ⟨j, hj, hline⟩ := complete hd hat rfl
    (show need _ .line ≤ 4 * s.bytes.length + 4 by simp only [need]; omega)
  obtain ⟨e, hpeek, -, he⟩ := peek_at [] (by simp) hj
  obtain ⟨m', hm', hn⟩ := hd.ends (inside_tokens s) s.mem rfl
  refine ⟨m', ?_, hn⟩
  rw [parse] at hline
  simp [parsecmd, strlen_mem, hline, hpeek, he.mpr rfl, hm', Bind.bind, Except.bind, pure,
    Except.pure]

/-- `parsecmd` returns the tree of a line, or panics. -/
theorem safe_parsecmd (s : CString) :
    Safe (fun r => Derives .line (tokens 0 s.bytes) r.1 ∧ Nulled (tokens 0 s.bytes) s.mem r.2)
      (parsecmd s.mem) := by
  have hlen := length_tokens_zero s
  rw [parsecmd, strlen_mem]
  refine safe_bind.mpr (((sound s _).line 0 _ (at_zero s) (by omega)).mono ?_)
  rintro ⟨c, j⟩ ⟨ts₁, ts₂, hts, hd, hj⟩
  dsimp only at hd hj ⊢
  obtain ⟨e, hpeek, -, he⟩ := peek_at [] (by simp) hj
  simp only [hpeek, Bind.bind, Except.bind]
  split
  · trivial
  next hes =>
    obtain rfl := he.mp (not_not.mp hes)
    rw [List.append_nil] at hts
    obtain ⟨m', hm', hn⟩ := (hts ▸ hd).ends (inside_tokens s) s.mem rfl
    rw [hm']
    exact ⟨hts ▸ hd, hn⟩

/-- The parser accepts exactly its grammar: for every string, `parsecmd` returns the tree of the
    derivation of its tokens as a line, with the words ended in place, if there is one; otherwise
    it panics. It neither runs on nor accesses anything outside the string and the `argv` arrays. -/
theorem parsecmd_iff_derives (s : CString) :
    (∀ c m', parsecmd s.mem = .ok (c, m') ↔
      Derives .line (tokens 0 s.bytes) c ∧ Nulled (tokens 0 s.bytes) s.mem m') ∧
    ((∃ c, Derives .line (tokens 0 s.bytes) c) ∨ ∃ msg, parsecmd s.mem = .error (.panic msg)) := by
  have hsafe := safe_parsecmd s
  constructor
  · intro c m'
    constructor
    · intro h
      rw [h] at hsafe
      exact hsafe
    · rintro ⟨hd, hn⟩
      obtain ⟨m₁, h₁, hn₁⟩ := parsecmd_of_derives hd
      rw [h₁, hn₁.unique hn]
  · match h : parsecmd s.mem with
    | .ok (c, m') =>
      rw [h] at hsafe
      exact .inl ⟨c, hsafe.1⟩
    | .error (.panic msg) => exact .inr ⟨msg, rfl⟩
    | .error .outside => rw [h] at hsafe; exact hsafe.elim
    | .error .fuel => rw [h] at hsafe; exact hsafe.elim

end Xv6.Sh
