import Mathlib
import Xv6.Sh.Lex

/-!
# The parser of the shell

`parsecmd` of `sh.c`, with the five functions that read a command line from left to right behind
one shared pointer and build the tree of its commands, and `nulterminate`, which ends the words in
place. Memory for the tree is assumed to be there.

The language is a relation on lists of tokens: `Derives .line ts c` states that `ts` is a line of
the grammar and `c` its tree.
-/

namespace Xv6.Sh

/-- `MAXARGS`. -/
def maxArgs : ℕ := 10

/-- `O_RDONLY`. -/
def oRdonly : ℕ := 0x000

/-- `O_WRONLY|O_CREATE|O_TRUNC`. -/
def oOverwrite : ℕ := 0x001 ||| 0x200 ||| 0x400

/-- `O_WRONLY|O_CREATE`. -/
def oAppend : ℕ := 0x001 ||| 0x200

/-- `struct cmd`, with pointers into the line as indices. The arrays of an `execcmd` have `MAXARGS`
    entries, NULL until they are set. -/
inductive Cmd
  | exec (argv eargv : List (Option ℕ))
  | redir (cmd : Cmd) (file efile mode fd : ℕ)
  | pipe (left right : Cmd)
  | list (left right : Cmd)
  | back (cmd : Cmd)
  deriving DecidableEq, Repr

/-- `execcmd()`: the arrays are zeroed. -/
def execcmd : Cmd := .exec (List.replicate maxArgs none) (List.replicate maxArgs none)

/-- The stores `cmd->argv[argc] = q` and `cmd->eargv[argc] = eq` of `parseexec`. The node that `cmd`
    points to is the innermost one of the tree `ret`, below the redirections. -/
def Cmd.setArg (argc : ℕ) (q eq : Option ℕ) : Cmd → Except ShErr Cmd
  | .exec argv eargv =>
    if argc < argv.length ∧ argc < eargv.length then
      .ok (.exec (argv.set argc q) (eargv.set argc eq))
    else .error .outside
  | .redir cmd file efile mode fd => do
    let cmd ← cmd.setArg argc q eq
    return .redir cmd file efile mode fd
  | _ => .error .outside

section Parser

variable (m : List UInt8) (es : ℕ)

/-- `parseredirs`. -/
def parseredirs : ℕ → Cmd → ℕ → Except ShErr (Cmd × ℕ)
  | 0, _, _ => .error .fuel
  | fuel + 1, cmd, s => do
    let (more, s) ← peek m es s [ascii '<', ascii '>']
    if more then
      let tok ← gettoken m es s
      let file ← gettoken m es tok.s
      if file.ret ≠ ascii 'a' then
        .error (.panic "重定向缺少文件名")
      else if tok.ret = ascii '<' then
        parseredirs fuel (.redir cmd file.q file.eq oRdonly 0) file.s
      else if tok.ret = ascii '>' then
        parseredirs fuel (.redir cmd file.q file.eq oOverwrite 1) file.s
      else if tok.ret = ascii '+' then
        parseredirs fuel (.redir cmd file.q file.eq oAppend 1) file.s
      else
        parseredirs fuel cmd file.s
    else
      return (cmd, s)

/-- The loop of `parseexec` over the arguments, with the stores behind it. -/
def parseargs : ℕ → Cmd → ℕ → ℕ → Except ShErr (Cmd × ℕ)
  | 0, _, _, _ => .error .fuel
  | fuel + 1, ret, argc, s => do
    let (stop, s) ← peek m es s [ascii '|', ascii ')', ascii '&', ascii ';']
    if stop then
      let ret ← ret.setArg argc none none
      return (ret, s)
    else
      let tok ← gettoken m es s
      if tok.ret = 0 then
        let ret ← ret.setArg argc none none
        return (ret, tok.s)
      else if tok.ret ≠ ascii 'a' then
        .error (.panic "语法错误")
      else
        let ret ← ret.setArg argc (some tok.q) (some tok.eq)
        if argc + 1 ≥ maxArgs then
          .error (.panic "参数过多")
        else
          let (ret, s) ← parseredirs m es (es + 1) ret tok.s
          parseargs fuel ret (argc + 1) s

/-- The loop of `parseline` over `&`. -/
def parsebacks : ℕ → Cmd → ℕ → Except ShErr (Cmd × ℕ)
  | 0, _, _ => .error .fuel
  | fuel + 1, cmd, s => do
    let (more, s) ← peek m es s [ascii '&']
    if more then
      let tok ← gettoken m es s
      parsebacks fuel (.back cmd) tok.s
    else
      return (cmd, s)

mutual

/-- `parseline`. -/
def parseline : ℕ → ℕ → Except ShErr (Cmd × ℕ)
  | 0, _ => .error .fuel
  | fuel + 1, s => do
    let (cmd, s) ← parsepipe fuel s
    let (cmd, s) ← parsebacks m es (es + 1) cmd s
    let (more, s) ← peek m es s [ascii ';']
    if more then
      let tok ← gettoken m es s
      let (right, s) ← parseline fuel tok.s
      return (.list cmd right, s)
    else
      return (cmd, s)

/-- `parsepipe`. -/
def parsepipe : ℕ → ℕ → Except ShErr (Cmd × ℕ)
  | 0, _ => .error .fuel
  | fuel + 1, s => do
    let (cmd, s) ← parseexec fuel s
    let (more, s) ← peek m es s [ascii '|']
    if more then
      let tok ← gettoken m es s
      let (right, s) ← parsepipe fuel tok.s
      return (.pipe cmd right, s)
    else
      return (cmd, s)

/-- `parseexec`. -/
def parseexec : ℕ → ℕ → Except ShErr (Cmd × ℕ)
  | 0, _ => .error .fuel
  | fuel + 1, s => do
    let (block, s) ← peek m es s [ascii '(']
    if block then
      parseblock fuel s
    else
      let (ret, s) ← parseredirs m es (es + 1) execcmd s
      parseargs m es (es + 1) ret 0 s

/-- `parseblock`. -/
def parseblock : ℕ → ℕ → Except ShErr (Cmd × ℕ)
  | 0, _ => .error .fuel
  | fuel + 1, s => do
    let (lpar, s) ← peek m es s [ascii '(']
    if !lpar then
      .error (.panic "parseblock")
    else
      let tok ← gettoken m es s
      let (cmd, s) ← parseline fuel tok.s
      let (rpar, s) ← peek m es s [ascii ')']
      if !rpar then
        .error (.panic "语法错误 - 缺少右括号")
      else
        let tok ← gettoken m es s
        parseredirs m es (es + 1) cmd tok.s

end

end Parser

/-- The store `*e = 0`. -/
def nul (m : List UInt8) (e : ℕ) : Except ShErr (List UInt8) :=
  if e < m.length then .ok (m.set e 0) else .error .outside

/-- The loop of `nulterminate` over the arguments, from an index of the two arrays on. A NULL in
    `eargv` before the one in `argv`, or no NULL in `argv`, is an access outside. -/
def nulArgs : List (Option ℕ) → List (Option ℕ) → List UInt8 → Except ShErr (List UInt8)
  | none :: _, _, m => .ok m
  | some _ :: argv, some e :: eargv, m => do
    let m ← nul m e
    nulArgs argv eargv m
  | _, _, _ => .error .outside

/-- `nulterminate`. -/
def nulterminate : Cmd → List UInt8 → Except ShErr (List UInt8)
  | .exec argv eargv, m => nulArgs argv eargv m
  | .redir cmd _ efile _ _, m => do
    let m ← nulterminate cmd m
    nul m efile
  | .pipe left right, m | .list left right, m => do
    let m ← nulterminate left m
    nulterminate right m
  | .back cmd, m => nulterminate cmd m

/-- `parsecmd` on the memory of a string: the tree, and the memory with the words ended. -/
def parsecmd (m : List UInt8) : Except ShErr (Cmd × List UInt8) := do
  let es := strlen m
  let (cmd, s) ← parseline m es (4 * es + 4) 0
  let (_, s) ← peek m es s []
  if s ≠ es then
    .error (.panic "语法错误")
  else
    let m ← nulterminate cmd m
    return (cmd, m)

/-! ### The grammar -/

/-- A redirection. -/
structure Redir where
  file : ℕ
  efile : ℕ
  mode : ℕ
  fd : ℕ

/-- How a redirection symbol opens its file, and the descriptor that it replaces. -/
def Sym.redirection : Sym → Option (ℕ × ℕ)
  | .lt => some (oRdonly, 0)
  | .gt => some (oOverwrite, 1)
  | .gtgt => some (oAppend, 1)
  | _ => none

/-- `redir*`. -/
inductive Redirs : List Tok → List Redir → Prop
  | nil : Redirs [] []
  | cons {y : Sym} {q eq mode fd : ℕ} {ts : List Tok} {rs : List Redir}
      (hy : y.redirection = some (mode, fd)) (h : Redirs ts rs) :
      Redirs (.sym y :: .word q eq :: ts) (⟨q, eq, mode, fd⟩ :: rs)

/-- `(word redir*)*`. -/
inductive Args : List Tok → List (ℕ × ℕ) → List Redir → Prop
  | nil : Args [] [] []
  | cons {q eq : ℕ} {ts ts' : List Tok} {ws : List (ℕ × ℕ)} {rs rs' : List Redir}
      (h : Redirs ts rs) (h' : Args ts' ws rs') :
      Args (.word q eq :: ts ++ ts') ((q, eq) :: ws) (rs ++ rs')

/-- The redirections of a command, the last one outermost. -/
def redirect (cmd : Cmd) (rs : List Redir) : Cmd :=
  rs.foldl (fun cmd r => .redir cmd r.file r.efile r.mode r.fd) cmd

/-- An array of pointers that is NULL behind its last entry. -/
def nullEnded (ps : List ℕ) : List (Option ℕ) :=
  ps.map some ++ List.replicate (maxArgs - ps.length) none

/-- The command that runs a program with the words at the spans `ws`. -/
def execOf (ws : List (ℕ × ℕ)) : Cmd :=
  .exec (nullEnded (ws.map Prod.fst)) (nullEnded (ws.map Prod.snd))

theorem execOf_nil : execOf [] = execcmd := rfl

/-- The syntactic categories. -/
inductive Cat
  | line
  | pipe
  | exec
  deriving DecidableEq

/-- `Derives x ts c`: the tokens `ts` derive from `x`, and `c` is their tree. -/
inductive Derives : Cat → List Tok → Cmd → Prop
  /-- `line := pipe '&'*` -/
  | line {ts : List Tok} {c : Cmd} (k : ℕ) (h : Derives .pipe ts c) :
      Derives .line (ts ++ List.replicate k (.sym .amp)) (Cmd.back^[k] c)
  /-- `line := pipe '&'* ';' line` -/
  | list {ts ts' : List Tok} {c c' : Cmd} (k : ℕ) (h : Derives .pipe ts c)
      (h' : Derives .line ts' c') :
      Derives .line (ts ++ List.replicate k (.sym .amp) ++ .sym .semi :: ts')
        (.list (Cmd.back^[k] c) c')
  /-- `pipe := exec` -/
  | exec {ts : List Tok} {c : Cmd} (h : Derives .exec ts c) : Derives .pipe ts c
  /-- `pipe := exec '|' pipe` -/
  | pipe {ts ts' : List Tok} {c c' : Cmd} (h : Derives .exec ts c) (h' : Derives .pipe ts' c') :
      Derives .pipe (ts ++ .sym .bar :: ts') (.pipe c c')
  /-- `exec := '(' line ')' redir*` -/
  | block {ts ts' : List Tok} {c : Cmd} {rs : List Redir} (h : Derives .line ts c)
      (h' : Redirs ts' rs) :
      Derives .exec (.sym .lpar :: ts ++ .sym .rpar :: ts') (redirect c rs)
  /-- `exec := redir* (word redir*)*` -/
  | words {ts ts' : List Tok} {ws : List (ℕ × ℕ)} {rs rs' : List Redir} (h : Redirs ts rs)
      (h' : Args ts' ws rs') (hws : ws.length ≤ maxArgs - 1) :
      Derives .exec (ts ++ ts') (redirect (execOf ws) (rs ++ rs'))

end Xv6.Sh
