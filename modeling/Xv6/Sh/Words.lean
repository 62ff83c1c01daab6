import Xv6.Sh.Accept

/-!
# The words of a command

`nulterminate` writes a NUL at the end of every word, into the line in which the other words still
stand. The byte at the end of a word is white space, a symbol or the NUL of the line, and no byte
inside of a word is (`WordAt`), so that it never writes into a word. The strings that the tree of a
line points to are then the texts of its tokens (`parsecmd_strings`).
-/

namespace Xv6.Sh

/-- The bytes of the string at the start of a memory, if a NUL ends it. -/
def readString : List UInt8 → Option (List UInt8)
  | [] => none
  | c :: m => if c = 0 then some [] else (readString m).map (c :: ·)

/-- The pointers to strings in a tree: the entries of `argv`, and the files of redirections. -/
def Cmd.strings : Cmd → List ℕ
  | .exec argv _ => argv.filterMap id
  | .redir cmd file _ _ _ => file :: cmd.strings
  | .pipe left right | .list left right => left.strings ++ right.strings
  | .back cmd => cmd.strings

variable {s : CString} {cmd : Cmd} {ts : List Tok} {ws : List (ℕ × ℕ)} {rs : List Redir}
  {q e i : ℕ}

/-! ### Pointers to words -/

/-- The pointers of the tree point to words. -/
def Points (cmd : Cmd) (ts : List Tok) : Prop := ∀ q ∈ cmd.strings, ∃ e, .word q e ∈ ts

theorem strings_execOf : (execOf ws).strings = ws.map Prod.fst := by
  rw [execOf, Cmd.strings, nullEnded, List.filterMap_append, List.filterMap_map]
  simp

theorem strings_back (k : ℕ) (c : Cmd) : (Cmd.back^[k] c).strings = c.strings := by
  induction k generalizing c with
  | zero => rfl
  | succ k ih => exact ih (.back c)

theorem mem_strings_redirect :
    q ∈ (redirect cmd rs).strings ↔ q ∈ cmd.strings ∨ ∃ r ∈ rs, r.file = q := by
  induction rs generalizing cmd with
  | nil => simp [redirect]
  | cons r rs ih =>
    refine Iff.trans (ih : q ∈ (redirect (.redir cmd r.file r.efile r.mode r.fd) rs).strings ↔ _) ?_
    rw [Cmd.strings, List.mem_cons, List.exists_mem_cons_iff, eq_comm (a := q)]
    tauto

/-- The file of a redirection is a word. -/
theorem Redirs.file_mem (h : Redirs ts rs) : ∀ r ∈ rs, .word r.file r.efile ∈ ts := by
  induction h with
  | nil => simp
  | cons hy h ih =>
    intro r hr
    rcases List.mem_cons.1 hr with rfl | hr
    · simp
    · simp [ih r hr]

theorem Args.file_mem (h : Args ts ws rs) : ∀ r ∈ rs, .word r.file r.efile ∈ ts := by
  induction h with
  | nil => simp
  | cons hr ha ih =>
    intro r hmem
    rcases List.mem_append.1 hmem with hmem | hmem
    · simp [hr.file_mem r hmem]
    · simp [ih r hmem]

/-- In the tree of a derivation, every pointer points to a word. -/
theorem Derives.points {x : Cat} (h : Derives x ts cmd) : Points cmd ts := by
  induction h with
  | line n hp ih =>
    intro q hq
    rw [strings_back] at hq
    obtain ⟨e, he⟩ := ih q hq
    exact ⟨e, by simp [he]⟩
  | list n hp hl ih ih' =>
    intro q hq
    rw [Cmd.strings, strings_back, List.mem_append] at hq
    rcases hq with hq | hq
    · obtain ⟨e, he⟩ := ih q hq
      exact ⟨e, by simp [he]⟩
    · obtain ⟨e, he⟩ := ih' q hq
      exact ⟨e, by simp [he]⟩
  | exec he ih => exact ih
  | pipe he hp ih ih' =>
    intro q hq
    rw [Cmd.strings, List.mem_append] at hq
    rcases hq with hq | hq
    · obtain ⟨e, he⟩ := ih q hq
      exact ⟨e, by simp [he]⟩
    · obtain ⟨e, he⟩ := ih' q hq
      exact ⟨e, by simp [he]⟩
  | block hl hr ih =>
    intro q hq
    rcases mem_strings_redirect.1 hq with hq | ⟨r, hmem, rfl⟩
    · obtain ⟨e, he⟩ := ih q hq
      exact ⟨e, by simp [he]⟩
    · exact ⟨r.efile, by simp [hr.file_mem r hmem]⟩
  | words hr ha hws =>
    intro q hq
    rw [mem_strings_redirect, strings_execOf, List.mem_map] at hq
    rcases hq with ⟨w, hw, rfl⟩ | ⟨r, hmem, rfl⟩
    · exact ⟨w.2, by simp [ha.word_mem w hw]⟩
    · rcases List.mem_append.1 hmem with hmem | hmem
      · exact ⟨r.efile, by simp [hr.file_mem r hmem]⟩
      · exact ⟨r.efile, by simp [ha.file_mem r hmem]⟩

/-! ### Words in a line -/

/-- The bytes from `q` to `e` are a word that ends at `e`, in a line that starts at `i`. -/
structure WordAt (i : ℕ) (cs : List UInt8) (q e : ℕ) : Prop where
  start : i ≤ q
  lt : q < e
  le : e ≤ i + cs.length
  inside : ∀ k, q ≤ k → k < e → ∀ c, cs[k - i]? = some c → wordByte c = true
  ends : ∀ c, cs[e - i]? = some c → wordByte c = false

/-- A word behind the first `n` bytes. -/
theorem WordAt.drop {cs : List UInt8} {n : ℕ} (hn : n ≤ cs.length)
    (h : WordAt (i + n) (cs.drop n) q e) : WordAt i cs q e := by
  have hlen := h.le
  rw [List.length_drop] at hlen
  have hget : ∀ k, i + n ≤ k → (cs.drop n)[k - (i + n)]? = cs[k - i]? := fun k hk => by
    rw [List.getElem?_drop]
    congr 1
    omega
  have hstart := h.start
  have hlt := h.lt
  refine ⟨by omega, hlt, by omega, fun k hk hke c hc => ?_, fun c hc => ?_⟩
  · exact h.inside k hk hke c ((hget k (by omega)).trans hc)
  · exact h.ends c ((hget e (by omega)).trans hc)

theorem wordByte_of_not_symbol {c : UInt8} (hw : strchr whitespace c = false)
    (hs : symbolOf c = none) : wordByte c = true := by
  have hsym : strchr symbols c = false := by
    rw [strchr, List.contains_eq_mem, decide_eq_false (symbolOf_eq_none.1 hs)]
  rw [wordByte, hw, hsym]
  rfl

/-- The words among the tokens of a line are words in the line. -/
theorem wordAt_of_mem_tokens (i : ℕ) (cs : List UInt8) (h : .word q e ∈ tokens i cs) :
    WordAt i cs q e := by
  fun_induction tokens i cs with
  | case1 => simp at h
  | case2 i c cs hc ih => exact (ih h).drop (n := 1) (by simp)
  | case3 i c cs hc hgt ih =>
    have hpos : 0 < cs.length := List.length_pos_iff.2 fun h0 => by simp [h0] at hgt
    have hdrop : (c :: cs).drop 2 = cs.tail := List.drop_one
    have h' := ih (by simpa using h)
    rw [← hdrop] at h'
    exact h'.drop (by rw [List.length_cons]; omega)
  | case4 i c cs hc hgt y hy ih =>
    have h' := ih (by simpa using h)
    exact h'.drop (n := 1) (by simp)
  | case5 i c cs hc hgt hy n ih =>
    have hn : n ≤ cs.length := (List.takeWhile_prefix (l := cs) wordByte).length_le
    rcases List.mem_cons.1 h with h | h
    · -- The word at the front: a maximal run of such bytes.
      obtain ⟨rfl, rfl⟩ := Tok.word.inj h
      refine ⟨le_rfl, by omega, by rw [List.length_cons]; omega, fun k hk hke d hd => ?_,
        fun d hd => ?_⟩
      · rcases Nat.eq_or_lt_of_le hk with rfl | hk
        · rw [Nat.sub_self, List.getElem?_cons_zero] at hd
          rw [← Option.some.inj hd]
          exact wordByte_of_not_symbol (Bool.eq_false_iff.2 hc) hy
        · obtain ⟨j, rfl⟩ : ∃ j, k = q + (j + 1) := ⟨k - q - 1, by omega⟩
          rw [Nat.add_sub_cancel_left, List.getElem?_cons_succ] at hd
          have hj : j < (cs.takeWhile wordByte).length := by
            change j < n
            omega
          have hmem : d ∈ cs.takeWhile wordByte := by
            have hcs : cs[j]? = some (cs.takeWhile wordByte)[j] := by
              rw [(List.takeWhile_prefix wordByte).getElem hj, List.getElem?_eq_getElem]
            rw [← Option.some.inj (hcs.symm.trans hd)]
            exact List.getElem_mem hj
          exact List.mem_takeWhile_imp hmem
      · have he : q + 1 + n - q = n + 1 := by omega
        rw [he, List.getElem?_cons_succ] at hd
        exact getElem?_takeWhile_length hd
    · have hdrop : (c :: cs).drop (n + 1) = cs.drop n := List.drop_succ_cons
      have h' := ih h
      rw [← hdrop, Nat.add_assoc, Nat.add_comm 1 n] at h'
      exact h'.drop (by rw [List.length_cons]; omega)

/-! ### The strings -/

/-- The memory at the start holds the bytes `w`, and a NUL behind them. -/
theorem readString_eq {m w : List UInt8} (h0 : 0 ∉ w) (h : ∀ k < w.length, m[k]? = w[k]?)
    (hend : m[w.length]? = some 0) : readString m = some w := by
  induction w generalizing m with
  | nil =>
    cases m with
    | nil => exact absurd hend (by simp)
    | cons c m =>
      obtain rfl : c = 0 := Option.some.inj hend
      rfl
  | cons a w ih =>
    cases m with
    | nil => exact absurd hend (by simp)
    | cons c m =>
      obtain rfl : c = a := Option.some.inj (h 0 (Nat.succ_pos _))
      rw [List.mem_cons, not_or] at h0
      rw [readString, if_neg (Ne.symm h0.1), ih h0.2 (fun k hk => h (k + 1) (Nat.succ_lt_succ hk)) hend]
      rfl

/-- The NULs at the ends of the words leave every word as it is. -/
theorem readString_word {m' : List UInt8} (hn : Nulled (tokens 0 s.bytes) s.mem m')
    (h : .word q e ∈ tokens 0 s.bytes) :
    readString (m'.drop q) = some ((s.bytes.drop q).take (e - q)) := by
  have hw := wordAt_of_mem_tokens 0 s.bytes h
  have hlt := hw.lt
  have hle := hw.le
  have hlen : ((s.bytes.drop q).take (e - q)).length = e - q := by
    rw [List.length_take, List.length_drop]
    omega
  refine readString_eq (fun h0 => s.nul_free ?_) (fun k hk => ?_) ?_
  · exact List.mem_of_mem_drop (List.mem_of_mem_take h0)
  · rw [hlen] at hk
    have hbyte : s.bytes[q + k]? = some s.bytes[q + k] := List.getElem?_eq_getElem (by omega)
    -- No word ends inside of this one.
    have hkeep : m'[q + k]? = s.mem[q + k]? := hn.rest _ fun q' hq' => by
      have hout := (wordAt_of_mem_tokens 0 s.bytes hq').ends _ hbyte
      rw [hw.inside (q + k) (by omega) (by omega) _ hbyte] at hout
      exact Bool.noConfusion hout
    rw [List.getElem?_drop, hkeep, CString.mem, List.getElem?_append_left (by omega),
      List.getElem?_take_of_lt hk, List.getElem?_drop]
  · rw [hlen, List.getElem?_drop, Nat.add_sub_cancel' hlt.le]
    exact hn.ends q e h

/-- In the tree of every line that is accepted, every string, an argument or a file, is the text
    of a word of the line. `nulterminate` has written NULs to ends of words only, inside of the
    line and its NUL. -/
theorem parsecmd_strings (s : CString) (c : Cmd) (m' : List UInt8)
    (h : parsecmd s.mem = .ok (c, m')) :
    (∀ q ∈ c.strings, ∃ e, .word q e ∈ tokens 0 s.bytes ∧
      readString (m'.drop q) = some ((s.bytes.drop q).take (e - q))) ∧
    m'.length = s.mem.length ∧
    ∀ i, m'[i]? ≠ s.mem[i]? → i ≤ s.bytes.length ∧ ∃ q, .word q i ∈ tokens 0 s.bytes := by
  have hsafe := safe_parsecmd s
  rw [h] at hsafe
  obtain ⟨hd, hn⟩ := hsafe
  refine ⟨fun q hq => ?_, hn.length, fun i hi => ?_⟩
  · obtain ⟨e, he⟩ := hd.points q hq
    exact ⟨e, he, readString_word hn he⟩
  · obtain ⟨q, hq⟩ := not_forall_not.1 fun hall => hi (hn.rest i hall)
    have hle := (wordAt_of_mem_tokens 0 s.bytes hq).le
    exact ⟨by omega, q, hq⟩

/-- The line `ls>f`. -/
def lsToFile : CString := ⟨[108, 115, 62, 102], by decide⟩

/-- Its tree: `ls`, with its output to `f`. -/
theorem parsecmd_strings_ls :
    (∀ q ∈ (redirect (execOf [(0, 2)]) [⟨3, 4, oOverwrite, 1⟩]).strings,
      ∃ e, .word q e ∈ tokens 0 lsToFile.bytes ∧
        readString ([108, 115, 0, 102, 0].drop q) = some ((lsToFile.bytes.drop q).take (e - q))) ∧
    lsToFile.mem.length = 5 := by
  have h := parsecmd_strings lsToFile (redirect (execOf [(0, 2)]) [⟨3, 4, oOverwrite, 1⟩])
    [108, 115, 0, 102, 0] (by decide +kernel)
  exact ⟨h.1, h.2.1.symm⟩

end Xv6.Sh
