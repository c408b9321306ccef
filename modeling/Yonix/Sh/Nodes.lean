/-
  Yonix/Sh/Nodes.lean
  ===================
  **The words of a command after `nulterminate`.**

  An `execcmd` has two arrays of `MAXARGS` pointers.  `parseexec` fills them and puts a null
  pointer behind the last word, and `nulterminate` goes through them until it meets it.
  `Node` has the arrays, and the functions of this file are those of the parser once more,
  on nodes.  What they build are the commands of the model, laid out (`layout`).
-/
import Yonix.Sh.Parse

namespace Yonix.Sh

/-- `char *argv[MAXARGS]` -/
abbrev Row := Vector (Option (List UInt8)) MAXARGS

inductive Node where
  | exec (argv eargv : Row)
  | redir (cmd : Node) (file efile : List UInt8) (mode fd : Nat)
  | pipe (left right : Node)
  | list (left right : Node)
  | back (cmd : Node)

namespace Node

def execcmd : Node := .exec (Vector.replicate MAXARGS none) (Vector.replicate MAXARGS none)

/-- `cmd->argv[i] = q; cmd->eargv[i] = eq;` for the `execcmd` that `ret` was made from. -/
def setArg (i : Fin MAXARGS) (q eq : Option (List UInt8)) : Node → Node
  | .exec argv eargv => .exec (argv.set i q) (eargv.set i eq)
  | .redir cmd file efile mode fd => .redir (cmd.setArg i q eq) file efile mode fd
  | .pipe left right => .pipe left right
  | .list left right => .list left right
  | .back cmd => .back cmd

abbrev Built := Except Fault (Node × List UInt8)

def redircmd (tok : UInt8) (cmd : Node) (file : Span) : Node :=
  if tok = LT then .redir cmd file.q file.eq O_RDONLY 0
  else if tok = GT then .redir cmd file.q file.eq (O_WRONLY ||| O_CREATE) 1
  else if tok = PLUS then .redir cmd file.q file.eq (O_WRONLY ||| O_CREATE) 1
  else cmd

def parseredirs : Nat → Node → List UInt8 → Built
  | 0, _, _ => .error .calls
  | n + 1, cmd, ps =>
    if peek ps [LT, GT] then
      let t := gettoken (skip ps)
      let w := gettoken t.ps
      if w.tok ≠ WORD then .error .redirection
      else parseredirs n (redircmd t.tok cmd w.word) w.ps
    else .ok (cmd, skip ps)

def parseargs : Nat → Fin MAXARGS → Node → List UInt8 → Built
  | 0, _, _, _ => .error .calls
  | n + 1, argc, ret, ps =>
    if peek ps [PIPE, RPAR, AMP, SEMI] then .ok (ret.setArg argc none none, skip ps)
    else
      let t := gettoken (skip ps)
      if t.tok = NUL then .ok (ret.setArg argc none none, t.ps)
      else if t.tok ≠ WORD then .error .syntaxError
      else
        let ret := ret.setArg argc (some t.word.q) (some t.word.eq)
        if h : MAXARGS ≤ argc + 1 then .error .tooManyArgs
        else do
          let (ret, ps) ← parseredirs n ret t.ps
          parseargs n ⟨argc + 1, Nat.lt_of_not_le h⟩ ret ps

def parsebacks : Nat → Node → List UInt8 → Built
  | 0, _, _ => .error .calls
  | n + 1, cmd, ps =>
    if peek ps [AMP] then parsebacks n (.back cmd) (gettoken (skip ps)).ps else .ok (cmd, skip ps)

mutual

def parseline : Nat → List UInt8 → Built
  | 0, _ => .error .calls
  | n + 1, ps => do
    let (cmd, ps) ← parsepipe n ps
    let (cmd, ps) ← parsebacks n cmd ps
    if peek ps [SEMI] then do
      let (right, ps) ← parseline n (gettoken (skip ps)).ps
      return (.list cmd right, ps)
    else return (cmd, skip ps)

def parsepipe : Nat → List UInt8 → Built
  | 0, _ => .error .calls
  | n + 1, ps => do
    let (cmd, ps) ← parseexec n ps
    if peek ps [PIPE] then do
      let (right, ps) ← parsepipe n (gettoken (skip ps)).ps
      return (.pipe cmd right, ps)
    else return (cmd, skip ps)

def parseexec : Nat → List UInt8 → Built
  | 0, _ => .error .calls
  | n + 1, ps =>
    if peek ps [LPAR] then parseblock n (skip ps)
    else do
      let (ret, ps) ← parseredirs n execcmd (skip ps)
      parseargs n ⟨0, by decide⟩ ret ps

def parseblock : Nat → List UInt8 → Built
  | 0, _ => .error .calls
  | n + 1, ps =>
    if peek ps [LPAR] then do
      let (cmd, ps) ← parseline n (gettoken (skip ps)).ps
      if peek ps [RPAR] then parseredirs n cmd (gettoken (skip ps)).ps
      else .error .missingParen
    else .error .parseblock

end

/-- `for(i=0; ecmd->argv[i]; i++) *ecmd->eargv[i] = 0;`, or nothing if it leaves the arrays
    or stores through a null pointer. -/
def clearArgs (es : Nat) : List (Option (List UInt8)) → List (Option (List UInt8)) →
    List UInt8 → Option (List UInt8)
  | none :: _, _, buf => some buf
  | some _ :: argv, some p :: eargv, buf => clearArgs es argv eargv (clear es p buf)
  | _, _, _ => none

def nulterminate (es : Nat) : Node → List UInt8 → Option (List UInt8)
  | .exec argv eargv, buf => clearArgs es argv.toList eargv.toList buf
  | .redir cmd _ efile _ _, buf => do
    let buf ← cmd.nulterminate es buf
    return clear es efile buf
  | .pipe left right, buf => do
    let buf ← left.nulterminate es buf
    right.nulterminate es buf
  | .list left right, buf => do
    let buf ← left.nulterminate es buf
    right.nulterminate es buf
  | .back cmd, buf => cmd.nulterminate es buf

/-- The commands and the string as `nulterminate` leaves it. -/
def parsecmd (s : List UInt8) : Except Fault (Node × Option (List UInt8)) := do
  let (cmd, ps) ← parseline (4 * s.length + 4) s
  if skip ps ≠ [] then .error .leftovers
  else return (cmd, cmd.nulterminate s.length (s ++ [NUL]))

end Node

/-! ### The layout -/

/-- The pointers and null pointers behind them. -/
def row (ptrs : List (List UInt8)) : Row := Vector.ofFn fun i => ptrs[i.val]?

def layout : Cmd Span → Node
  | .exec argv => .exec (row (argv.map Span.q)) (row (argv.map Span.eq))
  | .redir cmd file mode fd => .redir (layout cmd) file.q file.eq mode fd
  | .pipe left right => .pipe (layout left) (layout right)
  | .list left right => .list (layout left) (layout right)
  | .back cmd => .back (layout cmd)

/-- The number of words of the `execcmd` that a command was made from. -/
def Cmd.argc {α : Type} : Cmd α → Option Nat
  | .exec argv => some argv.length
  | .redir cmd _ _ _ => cmd.argc
  | .pipe _ _ | .list _ _ | .back _ => none

/-- A null pointer fits behind the words. -/
def Cmd.Fits {α : Type} : Cmd α → Prop
  | .exec argv => argv.length < MAXARGS
  | .redir cmd _ _ _ => cmd.Fits
  | .pipe left right => left.Fits ∧ right.Fits
  | .list left right => left.Fits ∧ right.Fits
  | .back cmd => cmd.Fits

section Layout

variable {ptrs argv eargv : List (List UInt8)} {c c' : Cmd Span} {s ps ps' : List UInt8} {n : Nat}

theorem row_toList (h : ptrs.length ≤ MAXARGS) :
    (row ptrs).toList = ptrs.map some ++ List.replicate (MAXARGS - ptrs.length) none := by
  have hlen : (ptrs.map some ++ List.replicate (MAXARGS - ptrs.length) none).length = MAXARGS := by
    rw [List.length_append, List.length_map, List.length_replicate]
    omega
  refine List.ext_getElem (by rw [Vector.length_toList, hlen]) fun i h1 h2 => ?_
  rw [Vector.getElem_toList]
  unfold row
  rw [Vector.getElem_ofFn]
  by_cases hi : i < ptrs.length
  · rw [List.getElem_append_left (by rw [List.length_map]; exact hi), List.getElem_map,
      List.getElem?_eq_getElem hi]
  · rw [List.getElem_append_right (by rw [List.length_map]; omega), List.getElem_replicate,
      List.getElem?_eq_none (Nat.le_of_not_lt hi)]

theorem row_nil : row [] = Vector.replicate MAXARGS none := by
  refine Vector.ext fun i hi => ?_
  unfold row
  rw [Vector.getElem_ofFn, Vector.getElem_replicate]
  rfl

/-- The next pointer is put behind the others. -/
theorem row_set (p : List UInt8) (h : ptrs.length < MAXARGS) :
    (row ptrs).set ptrs.length (some p) h = row (ptrs ++ [p]) := by
  refine Vector.ext fun i hi => ?_
  rw [Vector.getElem_set]
  unfold row
  rw [Vector.getElem_ofFn, Vector.getElem_ofFn]
  by_cases heq : ptrs.length = i
  · subst heq
    rw [if_pos rfl, List.getElem?_concat_length]
  · rw [if_neg heq]
    rcases Nat.lt_or_gt_of_ne heq with hlt | hgt
    · have hi' : (ptrs ++ [p]).length ≤ i := by
        rw [List.length_append, List.length_singleton]
        exact hlt
      rw [List.getElem?_eq_none hlt.le, List.getElem?_eq_none hi']
    · exact (List.getElem?_append_left hgt).symm

/-- A null pointer is there already. -/
theorem row_set_none (h : ptrs.length < MAXARGS) : (row ptrs).set ptrs.length none h = row ptrs := by
  refine Vector.ext fun i hi => ?_
  rw [Vector.getElem_set]
  by_cases heq : ptrs.length = i
  · subst heq
    unfold row
    rw [if_pos rfl, Vector.getElem_ofFn, List.getElem?_eq_none (Nat.le_refl _)]
  · rw [if_neg heq]

theorem layout_addArg (w : Span) (i : Fin MAXARGS) (h : c.argc = some i.val) :
    (layout c).setArg i (some w.q) (some w.eq) = layout (c.addArg w) := by
  induction c with
  | exec argv =>
    have hi : argv.length = i := Option.some.inj h
    have hq := row_set w.q (show (argv.map Span.q).length < MAXARGS by
      rw [List.length_map, hi]
      exact i.isLt)
    have heq := row_set w.eq (show (argv.map Span.eq).length < MAXARGS by
      rw [List.length_map, hi]
      exact i.isLt)
    simp only [List.length_map, hi] at hq heq
    rw [layout, Node.setArg, Cmd.addArg, layout, hq, heq, List.map_append, List.map_append]
    rfl
  | redir cmd file mode fd ih =>
    rw [layout, Node.setArg, ih h]
    rfl
  | pipe left right => cases h
  | list left right => cases h
  | back cmd => cases h

theorem layout_end (i : Fin MAXARGS) (h : c.argc = some i.val) :
    (layout c).setArg i none none = layout c := by
  induction c with
  | exec argv =>
    have hi : argv.length = i := Option.some.inj h
    have hq := row_set_none (show (argv.map Span.q).length < MAXARGS by
      rw [List.length_map, hi]
      exact i.isLt)
    have heq := row_set_none (show (argv.map Span.eq).length < MAXARGS by
      rw [List.length_map, hi]
      exact i.isLt)
    simp only [List.length_map, hi] at hq heq
    rw [layout, Node.setArg, hq, heq]
  | redir cmd file mode fd ih =>
    rw [layout, Node.setArg, ih h]
  | pipe left right => cases h
  | list left right => cases h
  | back cmd => cases h

theorem argc_addArg {α : Type} {c : Cmd α} {i : Nat} (x : α) (h : c.argc = some i) :
    (c.addArg x).argc = some (i + 1) := by
  induction c with
  | exec argv =>
    cases h
    exact congrArg some List.length_append
  | redir cmd file mode fd ih => exact ih h
  | pipe left right => cases h
  | list left right => cases h
  | back cmd => cases h

end Layout

/-! ### What the parser builds -/

section Built

variable {c c' : Cmd Span} {s ps ps' : List UInt8} {es n : Nat}

/-- A result of the parser, laid out. -/
def laid (x : Parsed) : Node.Built := x.map fun r => (layout r.1, r.2)

theorem laid_bind {x : Parsed} {f : Cmd Span × List UInt8 → Parsed} {y : Node.Built}
    {g : Node × List UInt8 → Node.Built} (hy : y = laid x)
    (hg : ∀ c ps, x = .ok (c, ps) → g (layout c, ps) = laid (f (c, ps))) :
    (y >>= g) = laid (x >>= f) := by
  subst hy
  cases x with
  | error e => rfl
  | ok r => exact hg r.1 r.2 rfl

theorem redircmd_layout (tok : UInt8) (c : Cmd Span) (w : Span) :
    Node.redircmd tok (layout c) w = layout (redircmd tok c w) := by
  unfold Node.redircmd redircmd
  split
  · rfl
  split
  · rfl
  split <;> rfl

theorem parseredirs_layout (n : Nat) : ∀ (c : Cmd Span) (ps : List UInt8),
    Node.parseredirs n (layout c) ps = laid (parseredirs n c ps) := by
  induction n with
  | zero => exact fun _ _ => rfl
  | succ n ih =>
    intro c ps
    rw [Node.parseredirs, parseredirs]
    split
    · dsimp only
      split
      · rfl
      · rw [redircmd_layout, ih]
    · rfl

theorem argc_redircmd (tok : UInt8) (c : Cmd Span) (w : Span) : (redircmd tok c w).argc = c.argc := by
  unfold redircmd
  split
  · rfl
  split
  · rfl
  split <;> rfl

/-- Redirections are put around the `execcmd`. -/
theorem parseredirs_argc (n : Nat) : ∀ {c : Cmd Span} {ps : List UInt8},
    parseredirs n c ps = .ok (c', ps') → c'.argc = c.argc := by
  induction n with
  | zero => exact fun h => nomatch h
  | succ n ih =>
    intro c ps h
    rw [parseredirs] at h
    split at h
    · dsimp only at h
      split at h
      · cases h
      · rw [ih h, argc_redircmd]
    · cases h
      rfl

theorem parseargs_layout (n : Nat) : ∀ (i : Fin MAXARGS) (c : Cmd Span) (ps : List UInt8),
    c.argc = some i.val → Node.parseargs n i (layout c) ps = laid (parseargs n i c ps) := by
  induction n with
  | zero => exact fun _ _ _ _ => rfl
  | succ n ih =>
    intro i c ps hc
    rw [Node.parseargs, parseargs]
    split
    · rw [layout_end i hc]
      rfl
    · dsimp only
      split
      · rw [layout_end i hc]
        rfl
      split
      · rfl
      split
      · rfl
      · rw [layout_addArg _ i hc]
        refine laid_bind (parseredirs_layout n _ _) fun c' ps' hres => ?_
        refine ih _ c' ps' ?_
        rw [parseredirs_argc n hres, argc_addArg _ hc]

theorem parsebacks_layout (n : Nat) : ∀ (c : Cmd Span) (ps : List UInt8),
    Node.parsebacks n (layout c) ps = laid (parsebacks n c ps) := by
  induction n with
  | zero => exact fun _ _ => rfl
  | succ n ih =>
    intro c ps
    rw [Node.parsebacks, parsebacks]
    split
    · exact ih (.back c) _
    · rfl

/-- The parser builds the commands of the model. -/
theorem parse_layout (n : Nat) : ∀ ps : List UInt8, Node.parseline n ps = laid (parseline n ps) ∧
    Node.parsepipe n ps = laid (parsepipe n ps) ∧ Node.parseexec n ps = laid (parseexec n ps) ∧
    Node.parseblock n ps = laid (parseblock n ps) := by
  induction n with
  | zero => exact fun _ => ⟨rfl, rfl, rfl, rfl⟩
  | succ n ih =>
    intro ps
    refine ⟨?_, ?_, ?_, ?_⟩
    · rw [Node.parseline, parseline]
      refine laid_bind (ih ps).2.1 fun c ps' _ => ?_
      refine laid_bind (parsebacks_layout n c ps') fun c ps' _ => ?_
      dsimp only
      split
      · exact laid_bind (ih _).1 fun right ps' _ => rfl
      · rfl
    · rw [Node.parsepipe, parsepipe]
      refine laid_bind (ih ps).2.2.1 fun c ps' _ => ?_
      dsimp only
      split
      · exact laid_bind (ih _).2.1 fun right ps' _ => rfl
      · rfl
    · rw [Node.parseexec, parseexec]
      split
      · exact (ih _).2.2.2
      · have hexec : Node.execcmd = layout (.exec []) := by
          change Node.exec _ _ = Node.exec (row []) (row [])
          rw [row_nil]
        rw [hexec]
        refine laid_bind (parseredirs_layout n _ _) fun c ps' hres => ?_
        exact parseargs_layout n ⟨0, by decide⟩ c ps' (parseredirs_argc n hres)
    · rw [Node.parseblock, parseblock]
      split
      · refine laid_bind (ih _).1 fun c ps' _ => ?_
        dsimp only
        split
        · exact parseredirs_layout n c _
        · rfl
      · rfl

theorem clearArgs_eq (ws : List Span) (argv eargv : List (Option (List UInt8))) : ∀ buf : List UInt8,
    Node.clearArgs es ((ws.map Span.q).map some ++ none :: argv) ((ws.map Span.eq).map some ++ eargv)
      buf = some (ws.foldl (fun buf w => clear es w.eq buf) buf) := by
  induction ws with
  | nil => exact fun _ => rfl
  | cons w ws ih => exact fun buf => ih (clear es w.eq buf)

/-- `nulterminate` stays inside the arrays. -/
theorem nulterminate_layout (h : c.Fits) : ∀ buf : List UInt8,
    (layout c).nulterminate es buf = some (nulterminate es c buf) := by
  induction c with
  | exec argv =>
    intro buf
    have hlt : argv.length < MAXARGS := h
    have hrest : MAXARGS - argv.length = MAXARGS - argv.length - 1 + 1 := by omega
    rw [layout, Node.nulterminate, row_toList (by rw [List.length_map]; exact hlt.le),
      row_toList (by rw [List.length_map]; exact hlt.le), List.length_map, hrest, List.replicate_succ]
    exact clearArgs_eq argv _ _ buf
  | redir cmd file mode fd ih =>
    intro buf
    rw [layout, Node.nulterminate, ih h]
    rfl
  | pipe left right ihl ihr =>
    intro buf
    rw [layout, Node.nulterminate, ihl h.1]
    exact ihr h.2 _
  | list left right ihl ihr =>
    intro buf
    rw [layout, Node.nulterminate, ihl h.1]
    exact ihr h.2 _
  | back cmd ih => exact ih h

theorem Cmd.Rel.fits {α β : Type} {R : α → β → Prop} {c : Cmd α} {d : Cmd β} (h : c.Rel R d)
    (hd : d.Fits) : c.Fits := by
  induction h with
  | exec h =>
    change _ < MAXARGS
    rw [h.length_eq]
    exact hd
  | redir _ _ ih => exact ih hd
  | pipe _ _ ihl ihr => exact ⟨ihl hd.1, ihr hd.2⟩
  | list _ _ ihl ihr => exact ⟨ihl hd.1, ihr hd.2⟩
  | back _ ih => exact ih hd

theorem background_fits (k : Nat) : ∀ {d : Tree}, d.Fits → (background d k).Fits := by
  induction k with
  | zero => exact fun h => h
  | succ k ih => exact fun h => ih (d := .back _) h

theorem wrap_fits (rs : List Redir) : ∀ {d : Tree}, d.Fits → (rs.foldl Redir.wrap d).Fits := by
  induction rs with
  | nil => exact fun h => h
  | cons r rs ih => exact fun h => ih (d := .redir _ _ _ _) h

/-- Nine words at most. -/
theorem Deriv.fits {k : Symbol} (d : Deriv k) (h : d.Ok) : d.denote.Fits := by
  induction d with
  | last p amps ih => exact background_fits amps (ih h)
  | seq p amps l ihp ihl => exact ⟨background_fits amps (ihp h.1), ihl h.2⟩
  | one e ih => exact ih h
  | pipe e p ihe ihp => exact ⟨ihe h.1, ihp h.2⟩
  | block l rs ih => exact wrap_fits rs (ih h)
  | simple items => exact wrap_fits _ (Nat.lt_succ_of_le h)

end Built

/-! ### The words -/

section Words

variable {s buf : List UInt8}

/-- The string at the pointer is the word that was there. -/
structure ReadsWord (s buf p txt : List UInt8) : Prop where
  within : p <:+ s
  word : p.takeWhile isWord = txt
  string : strAt s.length buf p = txt

/-- The words of a command, with a null pointer behind those of an `execcmd`. -/
inductive Shows (s buf : List UInt8) : Node → Tree → Prop where
  | exec {argv eargv : Row} {ptrs words : List (List UInt8)} (room : ptrs.length < MAXARGS)
      (argv_eq : argv.toList = ptrs.map some ++ List.replicate (MAXARGS - ptrs.length) none)
      (reads : List.Forall₂ (ReadsWord s buf) ptrs words) :
      Shows s buf (.exec argv eargv) (.exec words)
  | redir {cmd : Node} {d : Tree} {file efile f : List UInt8} {mode fd : Nat}
      (sub : Shows s buf cmd d) (reads : ReadsWord s buf file f) :
      Shows s buf (.redir cmd file efile mode fd) (.redir d f mode fd)
  | pipe {l r : Node} {d e : Tree} (left : Shows s buf l d) (right : Shows s buf r e) :
      Shows s buf (.pipe l r) (.pipe d e)
  | list {l r : Node} {d e : Tree} (left : Shows s buf l d) (right : Shows s buf r e) :
      Shows s buf (.list l r) (.list d e)
  | back {cmd : Node} {d : Tree} (sub : Shows s buf cmd d) : Shows s buf (.back cmd) (.back d)

theorem Marked.readsWord {w : Span} {txt : List UInt8} (hs : ∀ c ∈ s, c ≠ NUL) (hbuf : Kept s buf)
    (h : Marked s buf w txt) : ReadsWord s buf w.q txt := by
  refine ⟨h.1.suffix, ?_, strAt_marked hs hbuf h⟩
  obtain ⟨⟨htext, hword, hstop, -⟩, -⟩ := h
  rw [htext, List.takeWhile_append_of_pos hword]
  cases heq : w.eq with
  | nil => rw [List.takeWhile_nil, List.append_nil]
  | cons c r => rw [List.takeWhile_cons, if_neg (by rw [hstop c r heq]; decide), List.append_nil]

theorem Cmd.Rel.shows {c : Cmd Span} {d : Tree} (hs : ∀ c ∈ s, c ≠ NUL) (hbuf : Kept s buf)
    (h : c.Rel (Marked s buf) d) (hc : c.Fits) : Shows s buf (layout c) d := by
  induction h with
  | @exec ws txts h =>
    have hlt : (ws.map Span.q).length < MAXARGS := by
      rw [List.length_map]
      exact hc
    refine Shows.exec hlt (row_toList hlt.le) ?_
    rw [List.forall₂_map_left_iff]
    exact h.imp fun w txt hw => hw.readsWord hs hbuf
  | redir _ hfile ih => exact (ih hc).redir (hfile.readsWord hs hbuf)
  | pipe _ _ ihl ihr => exact (ihl hc.1).pipe (ihr hc.2)
  | list _ _ ihl ihr => exact (ihl hc.1).list (ihr hc.2)
  | back _ ih => exact (ih hc).back

theorem parsecmd_layout (s : List UInt8) : Node.parsecmd s = (parsecmd s).map fun r =>
    (layout r.1, (layout r.1).nulterminate s.length (s ++ [NUL])) := by
  unfold Node.parsecmd parsecmd
  rw [(parse_layout _ s).1]
  cases parseline (4 * s.length + 4) s with
  | error e => rfl
  | ok r =>
    obtain ⟨c, ps⟩ := r
    change (if skip ps ≠ [] then _ else _) = Except.map _ (if skip ps ≠ [] then _ else _)
    split <;> rfl

/-- **Words survive `nulterminate`.**  For every string that `parsecmd` accepts, the words that
    the arguments and the files are, read from the string afterwards, are the words of its
    tokens, and a null pointer is behind the last one. -/
theorem words_survive (hs : ∀ c ∈ s, c ≠ NUL) {cmd : Node} {out : Option (List UInt8)}
    (h : Node.parsecmd s = .ok (cmd, out)) : ∃ buf, out = some buf ∧
      ∃ d : Deriv .line, d.Ok ∧ d.yield = tokens s ∧ Shows s buf cmd d.denote := by
  rw [parsecmd_layout] at h
  cases hres : parsecmd s with
  | error e =>
    rw [hres] at h
    cases h
  | ok r =>
    obtain ⟨c, buf⟩ := r
    rw [hres] at h
    cases h
    obtain ⟨d, hok, hyield, hkept, hrel, hbuf⟩ := parsecmd_marked hres
    have hfits := hrel.fits (d.fits hok)
    refine ⟨buf, ?_, d, hok, hyield, hrel.shows hs hkept hfits⟩
    rw [hbuf]
    exact nulterminate_layout hfits _

/-- `(a b>c)&;d` -/
theorem words_survive_line : ∃ cmd buf, Node.parsecmd [40, 97, 32, 98, 62, 99, 41, 38, 59, 100] =
    .ok (cmd, some buf) ∧ ∃ d : Deriv .line, d.Ok ∧
      d.yield = tokens [40, 97, 32, 98, 62, 99, 41, 38, 59, 100] ∧
      Shows [40, 97, 32, 98, 62, 99, 41, 38, 59, 100] buf cmd d.denote := by
  have hok : (Node.parsecmd [40, 97, 32, 98, 62, 99, 41, 38, 59, 100]).isOk = true := by decide
  cases h : Node.parsecmd [40, 97, 32, 98, 62, 99, 41, 38, 59, 100] with
  | error e =>
    rw [h] at hok
    cases hok
  | ok r =>
    obtain ⟨buf, hbuf, hd⟩ := words_survive (by simp [NUL]) h
    exact ⟨r.1, buf, by rw [← hbuf], hd⟩

end Words

end Yonix.Sh
