/-
  Yonix/Sh/Model.lean
  ===================
  **The parser of the shell (`sh.c`).**

  A string is the list of its bytes before the NUL, and a pointer into it is the rest of
  the list from there on, so the end `es` is `[]`.  The functions are mutually recursive
  through the cursor `*ps`; here they carry a bound on the number of calls, and running
  out of it is a result of its own, which `parsecmd` is shown never to give.  `malloc`
  returns memory.
-/
import Yonix.Param

namespace Yonix.Sh

def MAXARGS : Nat := 10

def O_RDONLY : Nat := 0x000
def O_WRONLY : Nat := 0x001
def O_CREATE : Nat := 0x200

/-- A command, with `α` for what it knows of a word. -/
inductive Cmd (α : Type) where
  | exec (argv : List α)
  | redir (cmd : Cmd α) (file : α) (mode fd : Nat)
  | pipe (left right : Cmd α)
  | list (left right : Cmd α)
  | back (cmd : Cmd α)
deriving DecidableEq

/-- A word as the parser keeps it: where it starts and where it ends. -/
structure Span where
  q : List UInt8
  eq : List UInt8
deriving DecidableEq

inductive Fault where
  | redirection
  | parseblock
  | missingParen
  | syntaxError
  | tooManyArgs
  | leftovers
  /-- more calls than the bound -/
  | calls
deriving DecidableEq

/-- The text the shell prints. -/
def Fault.msg : Fault → String
  | .redirection => "missing file for redirection"
  | .parseblock => "parseblock"
  | .missingParen => "syntax - missing )"
  | .syntaxError => "syntax"
  | .tooManyArgs => "too many args"
  | .leftovers => "syntax"
  | .calls => ""

/-! ### Characters -/

def PIPE : UInt8 := 124
def LPAR : UInt8 := 40
def RPAR : UInt8 := 41
def SEMI : UInt8 := 59
def AMP : UInt8 := 38
def LT : UInt8 := 60
def GT : UInt8 := 62
/-- What `gettoken` returns for `>>`, for a word and at the end. -/
def PLUS : UInt8 := 43
def WORD : UInt8 := 97
def NUL : UInt8 := 0

/-- `" \t\r\n\v"` -/
def whitespace : List UInt8 := [32, 9, 13, 10, 11]

/-- `"<|>&;()"` -/
def symbols : List UInt8 := [LT, PIPE, GT, AMP, SEMI, LPAR, RPAR]

def isSpace (c : UInt8) : Bool := whitespace.contains c
def isWord (c : UInt8) : Bool := !whitespace.contains c && !symbols.contains c

/-- `while(s < es && strchr(whitespace, *s)) s++;` -/
def skip (s : List UInt8) : List UInt8 := s.dropWhile isSpace

/-- What `gettoken` returns and stores in `*q`, `*eq` and `*ps`. -/
structure Got where
  tok : UInt8
  word : Span
  ps : List UInt8

def gettoken (ps : List UInt8) : Got :=
  let s := skip ps
  match s with
  | [] => ⟨NUL, ⟨s, s⟩, skip s⟩
  | c :: r =>
    if c = PIPE ∨ c = LPAR ∨ c = RPAR ∨ c = SEMI ∨ c = AMP ∨ c = LT then ⟨c, ⟨s, r⟩, skip r⟩
    else if c = GT then
      match r with
      | [] => ⟨GT, ⟨s, r⟩, skip r⟩
      | d :: r' => if d = GT then ⟨PLUS, ⟨s, r'⟩, skip r'⟩ else ⟨GT, ⟨s, r⟩, skip r⟩
    else ⟨WORD, ⟨s, s.dropWhile isWord⟩, skip (s.dropWhile isWord)⟩

/-- `*s && strchr(toks, *s)` after the blanks. -/
def peek (ps : List UInt8) (toks : List UInt8) : Bool :=
  match skip ps with
  | [] => false
  | c :: _ => toks.contains c

/-! ### Commands -/

/-- A word more for the `execcmd` that `ret` was made from. -/
def Cmd.addArg {α : Type} (x : α) : Cmd α → Cmd α
  | .exec argv => .exec (argv ++ [x])
  | .redir cmd file mode fd => .redir (cmd.addArg x) file mode fd
  | .pipe left right => .pipe left right
  | .list left right => .list left right
  | .back cmd => .back cmd

abbrev Parsed := Except Fault (Cmd Span × List UInt8)

/-- The `switch` of `parseredirs`. -/
def redircmd (tok : UInt8) (cmd : Cmd Span) (file : Span) : Cmd Span :=
  if tok = LT then .redir cmd file O_RDONLY 0
  else if tok = GT then .redir cmd file (O_WRONLY ||| O_CREATE) 1
  else if tok = PLUS then .redir cmd file (O_WRONLY ||| O_CREATE) 1
  else cmd

def parseredirs : Nat → Cmd Span → List UInt8 → Parsed
  | 0, _, _ => .error .calls
  | n + 1, cmd, ps =>
    if peek ps [LT, GT] then
      let t := gettoken (skip ps)
      let w := gettoken t.ps
      if w.tok ≠ WORD then .error .redirection
      else parseredirs n (redircmd t.tok cmd w.word) w.ps
    else .ok (cmd, skip ps)

/-- The loop of `parseexec`. -/
def parseargs : Nat → Nat → Cmd Span → List UInt8 → Parsed
  | 0, _, _, _ => .error .calls
  | n + 1, argc, ret, ps =>
    if peek ps [PIPE, RPAR, AMP, SEMI] then .ok (ret, skip ps)
    else
      let t := gettoken (skip ps)
      if t.tok = NUL then .ok (ret, t.ps)
      else if t.tok ≠ WORD then .error .syntaxError
      else if MAXARGS ≤ argc + 1 then .error .tooManyArgs
      else do
        let (ret, ps) ← parseredirs n (ret.addArg t.word) t.ps
        parseargs n (argc + 1) ret ps

/-- `while(peek(ps, es, "&"))` of `parseline`. -/
def parsebacks : Nat → Cmd Span → List UInt8 → Parsed
  | 0, _, _ => .error .calls
  | n + 1, cmd, ps =>
    if peek ps [AMP] then parsebacks n (.back cmd) (gettoken (skip ps)).ps else .ok (cmd, skip ps)

mutual

def parseline : Nat → List UInt8 → Parsed
  | 0, _ => .error .calls
  | n + 1, ps => do
    let (cmd, ps) ← parsepipe n ps
    let (cmd, ps) ← parsebacks n cmd ps
    if peek ps [SEMI] then do
      let (right, ps) ← parseline n (gettoken (skip ps)).ps
      return (.list cmd right, ps)
    else return (cmd, skip ps)

def parsepipe : Nat → List UInt8 → Parsed
  | 0, _ => .error .calls
  | n + 1, ps => do
    let (cmd, ps) ← parseexec n ps
    if peek ps [PIPE] then do
      let (right, ps) ← parsepipe n (gettoken (skip ps)).ps
      return (.pipe cmd right, ps)
    else return (cmd, skip ps)

def parseexec : Nat → List UInt8 → Parsed
  | 0, _ => .error .calls
  | n + 1, ps =>
    if peek ps [LPAR] then parseblock n (skip ps)
    else do
      let (ret, ps) ← parseredirs n (.exec []) (skip ps)
      parseargs n 0 ret ps

def parseblock : Nat → List UInt8 → Parsed
  | 0, _ => .error .calls
  | n + 1, ps =>
    if peek ps [LPAR] then do
      let (cmd, ps) ← parseline n (gettoken (skip ps)).ps
      if peek ps [RPAR] then parseredirs n cmd (gettoken (skip ps)).ps
      else .error .missingParen
    else .error .parseblock

end

/-! ### `nulterminate` -/

/-- `*p = 0`, for a pointer into a string that ends at index `es`. -/
def clear (es : Nat) (p : List UInt8) (buf : List UInt8) : List UInt8 := buf.set (es - p.length) NUL

def nulterminate (es : Nat) : Cmd Span → List UInt8 → List UInt8
  | .exec argv, buf => argv.foldl (fun buf w => clear es w.eq buf) buf
  | .redir cmd file _ _, buf => clear es file.eq (nulterminate es cmd buf)
  | .pipe left right, buf => nulterminate es right (nulterminate es left buf)
  | .list left right, buf => nulterminate es right (nulterminate es left buf)
  | .back cmd, buf => nulterminate es cmd buf

/-- The commands and the string as `nulterminate` leaves it. -/
def parsecmd (s : List UInt8) : Except Fault (Cmd Span × List UInt8) := do
  let (cmd, ps) ← parseline (4 * s.length + 4) s
  if skip ps ≠ [] then .error .leftovers
  else return (cmd, nulterminate s.length cmd (s ++ [NUL]))

/-- The string at a pointer. -/
def strAt (es : Nat) (buf : List UInt8) (p : List UInt8) : List UInt8 :=
  (buf.drop (es - p.length)).takeWhile fun c => c ≠ NUL

end Yonix.Sh
