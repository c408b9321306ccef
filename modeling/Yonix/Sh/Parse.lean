/-
  Yonix/Sh/Parse.lean
  ===================
  **What the shell parses.**

  Each function of the parser reads one part of a line.  Given enough calls it either
  returns, and then the tokens it has read have a derivation, which the command denotes
  and which cannot be continued; or it panics, and then no derivation fits.  Since a
  derivation is determined by its tokens, this settles which lines are accepted.
-/
import Yonix.Sh.Grammar

namespace Yonix.Sh

/-! ### Blanks and tokens -/

theorem tokens_cons_space {c : UInt8} (r : List UInt8) (h : isSpace c = true) :
    tokens (c :: r) = tokens r := by
  rw [tokens, if_pos h]

theorem tokens_skip (s : List UInt8) : tokens (skip s) = tokens s := by
  induction s with
  | nil => rfl
  | cons c r ih =>
    unfold skip
    rw [List.dropWhile_cons]
    split
    · rename_i h
      rw [tokens_cons_space r h]
      exact ih
    · rfl

theorem skip_suffix (s : List UInt8) : skip s <:+ s := List.dropWhile_suffix isSpace

theorem skip_length (s : List UInt8) : (skip s).length ≤ s.length := (skip_suffix s).length_le

theorem skip_head {s r : List UInt8} {c : UInt8} (h : skip s = c :: r) : isSpace c = false := by
  have hne : s.dropWhile isSpace ≠ [] := by
    intro hnil
    unfold skip at h
    rw [hnil] at h
    cases h
  have hhead := List.head_dropWhile_not isSpace hne
  have heq : (s.dropWhile isSpace).head hne = c := by
    have : s.dropWhile isSpace = c :: r := h
    simp only [this, List.head_cons]
  rw [heq] at hhead
  simpa using hhead

theorem skip_skip (s : List UInt8) : skip (skip s) = skip s := by
  cases h : skip s with
  | nil => rfl
  | cons c r =>
    unfold skip
    rw [List.dropWhile_cons, if_neg]
    rw [skip_head h]
    decide

/-- What `gettoken` returns for a token. -/
def Token.code : Token → UInt8
  | .word _ => WORD
  | .bar => PIPE
  | .lpar => LPAR
  | .rpar => RPAR
  | .semi => SEMI
  | .amp => AMP
  | .lt => LT
  | .gt => GT
  | .gtgt => PLUS

/-- The character that a symbol starts with. -/
def Token.first : Token → Option UInt8
  | .word _ => none
  | .bar => some PIPE
  | .lpar => some LPAR
  | .rpar => some RPAR
  | .semi => some SEMI
  | .amp => some AMP
  | .lt => some LT
  | .gt => some GT
  | .gtgt => some GT

theorem symToken_some {c : UInt8} {t : Token} (h : symToken c = some t) :
    t.code = c ∧ t.first = some c ∧ (∀ w, t ≠ .word w) ∧
      (c = PIPE ∨ c = LPAR ∨ c = RPAR ∨ c = SEMI ∨ c = AMP ∨ c = LT) := by
  unfold symToken at h
  split at h
  · rename_i hc
    cases h
    simp [hc, Token.code, Token.first]
  · split at h
    · rename_i hc
      cases h
      simp [hc, Token.code, Token.first]
    · split at h
      · rename_i hc
        cases h
        simp [hc, Token.code, Token.first]
      · split at h
        · rename_i hc
          cases h
          simp [hc, Token.code, Token.first]
        · split at h
          · rename_i hc
            cases h
            simp [hc, Token.code, Token.first]
          · split at h
            · rename_i hc
              cases h
              simp [hc, Token.code, Token.first]
            · cases h

theorem symToken_none {c : UInt8} (h : symToken c = none) :
    ¬ (c = PIPE ∨ c = LPAR ∨ c = RPAR ∨ c = SEMI ∨ c = AMP ∨ c = LT) := by
  rintro (rfl | rfl | rfl | rfl | rfl | rfl) <;> cases h

theorem isWord_of {c : UInt8} (hs : isSpace c = false) (hgt : c ≠ GT) (hsym : symToken c = none) :
    isWord c = true := by
  have hnot := symToken_none hsym
  have hspace : whitespace.contains c = false := hs
  have hsymb : symbols.contains c = false := by
    unfold symbols
    simp only [not_or] at hnot
    obtain ⟨h1, h2, h3, h4, h5, h6⟩ := hnot
    simp [h1, h2, h3, h4, h5, h6, hgt]
  unfold isWord
  rw [hspace, hsymb]
  rfl

/-- The part of the string `S` that a word is. -/
structure Spells (S : List UInt8) (w : Span) (txt : List UInt8) : Prop where
  text : w.q = txt ++ w.eq
  word : ∀ c ∈ txt, isWord c = true
  stop : ∀ c r, w.eq = c :: r → isWord c = false
  suffix : w.q <:+ S

theorem spells_dropWhile {S q : List UInt8} (h : q <:+ S) :
    Spells S ⟨q, q.dropWhile isWord⟩ (q.takeWhile isWord) := by
  refine ⟨List.takeWhile_append_dropWhile.symm, ?_, ?_, h⟩
  · intro c hc
    exact List.mem_takeWhile_imp hc
  · intro c r heq
    have hne : q.dropWhile isWord ≠ [] := by
      rw [show q.dropWhile isWord = c :: r from heq]
      exact List.cons_ne_nil c r
    have hhead := List.head_dropWhile_not isWord hne
    have hc : (q.dropWhile isWord).head hne = c := by
      simp only [show q.dropWhile isWord = c :: r from heq, List.head_cons]
    rw [hc] at hhead
    simpa using hhead

/-- Characters that are no blanks make a token. -/
theorem skip_of_tokens_nil {s : List UInt8} (h : tokens s = []) : skip s = [] := by
  cases hs : skip s with
  | nil => rfl
  | cons c r =>
    rw [← tokens_skip, hs, tokens, if_neg (by rw [skip_head hs]; decide)] at h
    split at h
    · split at h
      · cases h
      · cases h
    · split at h
      · cases h
      · cases h

/-- Nothing is left. -/
theorem gettoken_nil {s : List UInt8} (h : tokens s = []) :
    (gettoken s).tok = NUL ∧ (gettoken s).ps = [] := by
  unfold gettoken
  rw [skip_of_tokens_nil h]
  exact ⟨rfl, rfl⟩

/-- The next token, what is left after it, and its text if it is a word. -/
structure Gets (S s : List UInt8) (t : Token) (ts : List Token) (g : Got) : Prop where
  tok : g.tok = t.code
  rest : tokens g.ps = ts
  length : g.ps.length < s.length
  suffix : g.ps <:+ S
  word : ∀ w, t = .word w → Spells S g.word w

theorem gettoken_cons {S s : List UInt8} {t : Token} {ts : List Token} (hS : s <:+ S)
    (h : tokens s = t :: ts) : Gets S s t ts (gettoken s) := by
  have hS' : skip s <:+ S := (skip_suffix s).trans hS
  have hlen := skip_length s
  cases hs : skip s with
  | nil =>
    rw [← tokens_skip, hs, tokens] at h
    cases h
  | cons c r =>
    have hspace := skip_head hs
    rw [hs] at hS' hlen
    rw [List.length_cons] at hlen
    have hr : r <:+ S := (List.suffix_cons c r).trans hS'
    have hskipr := skip_length r
    rw [← tokens_skip, hs, tokens, if_neg (by rw [hspace]; decide)] at h
    unfold gettoken
    rw [hs]
    dsimp only
    split at h
    · rename_i hgt
      rw [if_neg (by rw [hgt]; decide), if_pos hgt]
      cases r with
      | nil =>
        rw [if_neg (by simp)] at h
        cases h
        exact ⟨rfl, tokens_skip [], by change 0 < s.length; omega, List.nil_suffix, by intro w hw; cases hw⟩
      | cons d r' =>
        have hr' : r' <:+ S := (List.suffix_cons d r').trans hr
        have hskipr' := skip_length r'
        dsimp only
        rw [List.length_cons] at hlen
        split at h
        · rename_i hd
          rw [if_pos (Option.some.inj hd)]
          cases h
          refine ⟨rfl, tokens_skip r', ?_, (skip_suffix r').trans hr', by intro w hw; cases hw⟩
          change (skip r').length < s.length
          omega
        · rename_i hd
          rw [if_neg (fun hd' => hd (congrArg some hd'))]
          cases h
          refine ⟨rfl, tokens_skip _, ?_, (skip_suffix _).trans hr, by intro w hw; cases hw⟩
          change (skip (d :: r')).length < s.length
          rw [List.length_cons] at hskipr
          omega
    · rename_i hgt
      split at h
      · rename_i u hsym
        obtain ⟨hcode, -, hword, hc⟩ := symToken_some hsym
        rw [if_pos hc]
        cases h
        refine ⟨hcode.symm, tokens_skip r, ?_, (skip_suffix r).trans hr, fun w hw => (hword w hw).elim⟩
        change (skip r).length < s.length
        omega
      · rename_i hsym
        rw [if_neg (symToken_none hsym), if_neg hgt]
        have hw := isWord_of hspace hgt hsym
        have hdrop : (c :: r).dropWhile isWord = r.dropWhile isWord := by
          rw [List.dropWhile_cons, if_pos hw]
        have htake : (c :: r).takeWhile isWord = c :: r.takeWhile isWord := by
          rw [List.takeWhile_cons, if_pos hw]
        have hdlen := (List.dropWhile_suffix isWord (l := r)).length_le
        have hsklen := skip_length (r.dropWhile isWord)
        cases h
        refine ⟨rfl, ?_, ?_, ?_, ?_⟩
        · change tokens (skip ((c :: r).dropWhile isWord)) = _
          rw [tokens_skip, hdrop]
        · change (skip ((c :: r).dropWhile isWord)).length < s.length
          rw [hdrop]
          omega
        · exact ((skip_suffix _).trans (List.dropWhile_suffix isWord)).trans hS'
        · intro w hwd
          cases hwd
          rw [← htake]
          exact spells_dropWhile hS'

theorem not_symbol {toks : List UInt8} (h : ∀ c ∈ toks, c ∈ symbols) {c : UInt8}
    (hc : isWord c = true) : toks.contains c = false := by
  by_contra hcon
  rw [Bool.not_eq_false, List.contains_iff_mem] at hcon
  have hsym : symbols.contains c = true := List.contains_iff_mem.mpr (h c hcon)
  unfold isWord at hc
  rw [hsym, Bool.not_true, Bool.and_false] at hc
  cases hc

/-- `peek` for symbols looks at the next token. -/
theorem peek_eq {s toks : List UInt8} (h : ∀ c ∈ toks, c ∈ symbols) :
    peek s toks = match tokens s with
      | [] => false
      | t :: _ => t.first.any toks.contains := by
  unfold peek
  cases hs : skip s with
  | nil => rw [← tokens_skip, hs, tokens]
  | cons c r =>
    have hspace := skip_head hs
    rw [← tokens_skip, hs, tokens, if_neg (by rw [hspace]; decide)]
    by_cases hgt : c = GT
    · rw [if_pos hgt, hgt]
      by_cases hd : r.head? = some GT
      · rw [if_pos hd]
        rfl
      · rw [if_neg hd]
        rfl
    · rw [if_neg hgt]
      cases hsym : symToken c with
      | some u =>
        dsimp only
        rw [(symToken_some hsym).2.1]
        rfl
      | none => exact not_symbol h (isWord_of hspace hgt hsym)

/-! ### Commands and what they denote -/

/-- The same command, with words that are related. -/
inductive Cmd.Rel {α β : Type} (R : α → β → Prop) : Cmd α → Cmd β → Prop where
  | exec {ws : List α} {ts : List β} : List.Forall₂ R ws ts → Rel R (.exec ws) (.exec ts)
  | redir {c : Cmd α} {d : Cmd β} {f : α} {g : β} {mode fd : Nat} :
      Rel R c d → R f g → Rel R (.redir c f mode fd) (.redir d g mode fd)
  | pipe {c c' : Cmd α} {d d' : Cmd β} : Rel R c d → Rel R c' d' → Rel R (.pipe c c') (.pipe d d')
  | list {c c' : Cmd α} {d d' : Cmd β} : Rel R c d → Rel R c' d' → Rel R (.list c c') (.list d d')
  | back {c : Cmd α} {d : Cmd β} : Rel R c d → Rel R (.back c) (.back d)

/-- `cmd->argv[argc] = q` below the redirections. -/
theorem Cmd.Rel.addArg {S : List UInt8} {w : Span} {txt : List UInt8} (hw : Spells S w txt)
    {ws : List (List UInt8)} (rs : List Redir) : ∀ {c : Cmd Span},
    Cmd.Rel (Spells S) c (rs.foldl Redir.wrap (.exec ws)) →
      Cmd.Rel (Spells S) (c.addArg w) (rs.foldl Redir.wrap (.exec (ws ++ [txt]))) := by
  induction rs using List.reverseRecOn with
  | nil =>
    intro c h
    cases h with
    | exec hws => exact Cmd.Rel.exec (List.rel_append hws (List.Forall₂.cons hw List.Forall₂.nil))
  | append_singleton rs r ih =>
    intro c h
    rw [List.foldl_append] at h ⊢
    cases h with
    | redir hc hf => exact Cmd.Rel.redir (ih hc) hf

theorem words_redirs (rs : List Redir) : (rs.map Item.redir).filterMap Item.word? = [] := by
  induction rs with
  | nil => rfl
  | cons r rs ih => exact ih

theorem redirs_redirs (rs : List Redir) : (rs.map Item.redir).filterMap Item.redir? = rs := by
  induction rs with
  | nil => rfl
  | cons r rs ih => exact congrArg (r :: ·) ih

theorem yield_redirs (rs : List Redir) :
    (rs.map Item.redir).flatMap Item.yield = rs.flatMap Redir.yield := by
  rw [List.flatMap_map]
  rfl

theorem denote_redirs (items : List Item) (rs : List Redir) :
    (Deriv.simple (items ++ rs.map .redir)).denote = rs.foldl Redir.wrap (Deriv.simple items).denote := by
  simp only [Deriv.denote, List.filterMap_append, words_redirs, redirs_redirs, List.append_nil,
    List.foldl_append]

/-- Items with the redirections at their start apart. -/
theorem items_split {ts : List Token} (h : NotHead IsRedir ts) (items : List Item) :
    ∃ (rs : List Redir) (rest : List Item), items = rs.map Item.redir ++ rest ∧ NotHead IsRedir (rest.flatMap Item.yield ++ ts) := by
  induction items with
  | nil => exact ⟨[], [], rfl, h⟩
  | cons x xs ih =>
    cases x with
    | word w => exact ⟨[], .word w :: xs, rfl, NotHead.cons (by simp [IsRedir]) _⟩
    | redir r =>
      obtain ⟨rs, rest, rfl, hrest⟩ := ih
      exact ⟨r :: rs, rest, rfl, hrest⟩

/-! ### Results -/

/-- The parser returns with `P`, or panics and then `E` holds. -/
def Returns (P : Cmd Span → List UInt8 → Prop) (E : Prop) : Parsed → Prop
  | .ok (c, s) => P c s
  | .error e => e ≠ .calls ∧ E

theorem Returns.bind {P Q : Cmd Span → List UInt8 → Prop} {E F : Prop} {x : Parsed}
    {f : Cmd Span × List UInt8 → Parsed} (hx : Returns P E x) (hE : E → F)
    (hf : ∀ c s, P c s → Returns Q F (f (c, s))) : Returns Q F (x >>= f) := by
  cases x with
  | error e => exact ⟨hx.1, hE hx.2⟩
  | ok r => exact hf r.1 r.2 hx

variable {S s : List UInt8}

theorem peek_redir : peek s [LT, GT] = true ↔ ∃ t r, tokens s = t :: r ∧ IsRedir t := by
  rw [peek_eq (by simp [symbols])]
  cases tokens s with
  | nil => simp
  | cons t r => cases t <;> simp [Token.first, IsRedir] <;> decide

theorem peek_symbol {c : UInt8} {u : Token} (hc : c ∈ symbols)
    (hu : ∀ t : Token, t.first = some c ↔ t = u) : peek s [c] = true ↔ ∃ r, tokens s = u :: r := by
  rw [peek_eq fun d hd => List.mem_singleton.mp hd ▸ hc]
  cases tokens s with
  | nil => simp
  | cons t r =>
    have hfirst : (t.first.any [c].contains = true) ↔ t.first = some c := by
      cases t.first with
      | none => simp
      | some d => simp
    rw [hfirst, hu t]
    simp

theorem peek_amp : peek s [AMP] = true ↔ ∃ r, tokens s = .amp :: r :=
  peek_symbol (by decide) (by intro t; cases t <;> simp [Token.first] <;> decide)

theorem peek_semi : peek s [SEMI] = true ↔ ∃ r, tokens s = .semi :: r :=
  peek_symbol (by decide) (by intro t; cases t <;> simp [Token.first] <;> decide)

theorem peek_bar : peek s [PIPE] = true ↔ ∃ r, tokens s = .bar :: r :=
  peek_symbol (by decide) (by intro t; cases t <;> simp [Token.first] <;> decide)

theorem peek_lpar : peek s [LPAR] = true ↔ ∃ r, tokens s = .lpar :: r :=
  peek_symbol (by decide) (by intro t; cases t <;> simp [Token.first] <;> decide)

theorem peek_rpar : peek s [RPAR] = true ↔ ∃ r, tokens s = .rpar :: r :=
  peek_symbol (by decide) (by intro t; cases t <;> simp [Token.first] <;> decide)

theorem peek_stop : peek s [PIPE, RPAR, AMP, SEMI] = true ↔
    ∃ t r, tokens s = t :: r ∧ (t = .bar ∨ t = .rpar ∨ t = .amp ∨ t = .semi) := by
  rw [peek_eq (by simp [symbols])]
  cases tokens s with
  | nil => simp
  | cons t r => cases t <;> simp [Token.first] <;> decide

/-- `gettoken` at a token that `peek` has found. -/
theorem gettoken_skip {t : Token} {ts : List Token} (hS : s <:+ S) (h : tokens s = t :: ts) :
    Gets S s t ts (gettoken (skip s)) := by
  have heq : gettoken (skip s) = gettoken s := by
    unfold gettoken
    rw [skip_skip]
  rw [heq]
  exact gettoken_cons hS h

/-! ### Redirections, words and `&` -/

theorem redircmd_rel {c : Cmd Span} {d : Tree} {t : Token} {w : Span} {txt : List UInt8}
    (hc : c.Rel (Spells S) d) (ht : IsRedir t) (hw : Spells S w txt) :
    (redircmd t.code c w).Rel (Spells S) (Redir.wrap d ⟨t, txt, ht⟩) := by
  rcases ht with rfl | rfl | rfl
  · exact Cmd.Rel.redir hc hw
  · exact Cmd.Rel.redir hc hw
  · exact Cmd.Rel.redir hc hw

/-- What `parseredirs` returns. -/
structure Redirs (S s : List UInt8) (d : Tree) (c : Cmd Span) (s' : List UInt8) : Prop where
  length : s'.length ≤ s.length
  suffix : s' <:+ S
  stuck : NotHead IsRedir (tokens s')
  read : ∃ rs : List Redir, tokens s = rs.flatMap Redir.yield ++ tokens s' ∧
    c.Rel (Spells S) (rs.foldl Redir.wrap d)

theorem parseredirs_returns (n : Nat) : ∀ {s : List UInt8} {c : Cmd Span} {d : Tree},
    s.length < n → s <:+ S → c.Rel (Spells S) d →
    Returns (Redirs S s d)
      (∀ (rs : List Redir) ts, NotHead IsRedir ts → tokens s ≠ rs.flatMap Redir.yield ++ ts)
      (parseredirs n c s) := by
  induction n with
  | zero =>
    intro s c d hn
    omega
  | succ n ih =>
    intro s c d hn hS hc
    unfold parseredirs
    by_cases hp : peek s [LT, GT] = true
    · rw [if_pos hp]
      obtain ⟨t, r, htok, ht⟩ := peek_redir.mp hp
      have hop := gettoken_skip hS htok
      dsimp only
      cases hr : r with
      | nil =>
        rw [hr] at hop
        have hend := gettoken_nil hop.rest
        rw [if_pos (by rw [hend.1]; decide)]
        refine ⟨by decide, ?_⟩
        intro rs ts hts heq
        rw [htok, hr] at heq
        cases rs with
        | nil => exact hts _ _ heq.symm ht
        | cons r rs => simp [Redir.yield] at heq
      | cons u v =>
        rw [hr] at hop
        have hget := gettoken_cons hop.suffix hop.rest
        by_cases hu : ∃ w, u = .word w
        · obtain ⟨w, rfl⟩ := hu
          have hw := hget.word w rfl
          rw [if_neg (by rw [hget.tok]; simp [Token.code]), hop.tok]
          have hlen := hget.length
          have hlen' := hop.length
          have hrec := ih (by omega) hget.suffix (redircmd_rel hc ht hw)
          have hyield : tokens s = Redir.yield ⟨t, w, ht⟩ ++
              tokens (gettoken (gettoken (skip s)).ps).ps := by
            rw [htok, hr, hget.rest]
            rfl
          cases hres : parseredirs n (redircmd t.code c (gettoken (gettoken (skip s)).ps).word)
              (gettoken (gettoken (skip s)).ps).ps with
          | error e =>
            rw [hres] at hrec
            refine ⟨hrec.1, ?_⟩
            intro rs ts hts heq
            cases rs with
            | nil =>
              rw [htok] at heq
              exact hts _ _ heq.symm ht
            | cons r' rs =>
              rw [hyield, List.flatMap_cons, List.append_assoc] at heq
              exact hrec.2 rs ts hts (List.cons.inj (List.cons.inj heq).2).2
          | ok p =>
            rw [hres] at hrec
            obtain ⟨hl, hs, hstuck, rs, htoks, hrel⟩ := hrec
            refine ⟨by omega, hs, hstuck, ⟨t, w, ht⟩ :: rs, ?_, hrel⟩
            rw [hyield, htoks, List.flatMap_cons, List.append_assoc]
        · rw [if_pos (by
            rw [hget.tok]
            cases u with
            | word w => exact (hu ⟨w, rfl⟩).elim
            | bar => decide
            | lpar => decide
            | rpar => decide
            | semi => decide
            | amp => decide
            | lt => decide
            | gt => decide
            | gtgt => decide)]
          refine ⟨by decide, ?_⟩
          intro rs ts hts heq
          rw [htok, hr] at heq
          cases rs with
          | nil => exact hts _ _ heq.symm ht
          | cons r' rs =>
            rw [List.flatMap_cons] at heq
            exact hu ⟨r'.file, (List.cons.inj (List.cons.inj heq).2).1⟩
    · rw [if_neg hp]
      refine ⟨skip_length s, (skip_suffix s).trans hS, ?_, [], (tokens_skip s).symm, hc⟩
      intro t r heq ht
      rw [tokens_skip] at heq
      exact hp (peek_redir.mpr ⟨t, r, heq, ht⟩)

/-- What `while(peek(ps, es, "&"))` does. -/
theorem parsebacks_returns (n : Nat) : ∀ {s : List UInt8} {c : Cmd Span} {d : Tree},
    s.length < n → s <:+ S → c.Rel (Spells S) d →
    Returns (fun c' s' => s'.length ≤ s.length ∧ s' <:+ S ∧ NotHead (· = .amp) (tokens s') ∧
        ∃ k, tokens s = List.replicate k .amp ++ tokens s' ∧ c'.Rel (Spells S) (background d k))
      False (parsebacks n c s) := by
  induction n with
  | zero =>
    intro s c d hn
    omega
  | succ n ih =>
    intro s c d hn hS hc
    unfold parsebacks
    by_cases hp : peek s [AMP] = true
    · rw [if_pos hp]
      obtain ⟨r, htok⟩ := peek_amp.mp hp
      have hget := gettoken_skip hS htok
      have hlen := hget.length
      have hrec := ih (by omega) hget.suffix (Cmd.Rel.back hc)
      cases hres : parsebacks n (.back c) (gettoken (skip s)).ps with
      | error e =>
        rw [hres] at hrec
        exact hrec
      | ok p =>
        rw [hres] at hrec
        obtain ⟨hl, hs, hstuck, k, htoks, hrel⟩ := hrec
        refine ⟨by omega, hs, hstuck, k + 1, ?_, hrel⟩
        rw [htok, List.replicate_succ, List.cons_append, ← htoks, hget.rest]
    · rw [if_neg hp]
      refine ⟨skip_length s, (skip_suffix s).trans hS, ?_, 0, (tokens_skip s).symm, hc⟩
      rintro t r heq rfl
      rw [tokens_skip] at heq
      exact hp (peek_amp.mpr ⟨r, heq⟩)

theorem denote_word {ret : Cmd Span} {items : List Item} {w : Span} {txt : List UInt8}
    (h : ret.Rel (Spells S) (Deriv.simple items).denote) (hw : Spells S w txt) :
    (ret.addArg w).Rel (Spells S) (Deriv.simple (items ++ [.word txt])).denote := by
  have hwords : (items ++ [Item.word txt]).filterMap Item.word? = items.filterMap Item.word? ++ [txt] := by
    rw [List.filterMap_append]
    rfl
  have hredirs : (items ++ [Item.word txt]).filterMap Item.redir? = items.filterMap Item.redir? := by
    rw [List.filterMap_append]
    exact List.append_nil _
  rw [Deriv.denote, hwords, hredirs]
  exact Cmd.Rel.addArg hw (items.filterMap Item.redir?) h

/-- What the loop of `parseexec` returns, after the items `front`. -/
structure Args (S s : List UInt8) (front : List Item) (c : Cmd Span) (s' : List UInt8) : Prop where
  length : s'.length ≤ s.length
  suffix : s' <:+ S
  stuck : Follow (tokens s')
  read : ∃ items : List Item, tokens s = items.flatMap Item.yield ++ tokens s' ∧
    ((front ++ items).filterMap Item.word?).length ≤ 9 ∧
    c.Rel (Spells S) (Deriv.simple (front ++ items)).denote

/-- The items that fit start with a word. -/
theorem items_word {w : List UInt8} {r ts : List Token} {items : List Item} (hts : Follow ts)
    (h : Token.word w :: r = items.flatMap Item.yield ++ ts) :
    ∃ rest, items = .word w :: rest ∧ r = rest.flatMap Item.yield ++ ts := by
  cases items with
  | nil => exact (hts.notItem _ _ h.symm (Or.inr ⟨w, rfl⟩)).elim
  | cons x xs =>
    cases x with
    | word v =>
      obtain ⟨hv, hr⟩ := List.cons.inj h
      exact ⟨xs, by rw [Token.word.inj hv], hr⟩
    | redir u =>
      obtain ⟨hu, -⟩ := List.cons.inj h
      have hop := u.isOp
      rw [← hu] at hop
      simp at hop

theorem parseargs_returns (n : Nat) : ∀ {s : List UInt8} {ret : Cmd Span} {front : List Item},
    s.length < n → s <:+ S → NotHead IsRedir (tokens s) → (front.filterMap Item.word?).length ≤ 9 →
    ret.Rel (Spells S) (Deriv.simple front).denote →
    Returns (Args S s front)
      (∀ (items : List Item) ts, ((front ++ items).filterMap Item.word?).length ≤ 9 → Follow ts →
        tokens s ≠ items.flatMap Item.yield ++ ts)
      (parseargs n (front.filterMap Item.word?).length ret s) := by
  induction n with
  | zero =>
    intro s ret front hn
    omega
  | succ n ih =>
    intro s ret front hn hS hnot hfront hret
    unfold parseargs
    by_cases hp : peek s [PIPE, RPAR, AMP, SEMI] = true
    · rw [if_pos hp]
      obtain ⟨t, r, htok, ht⟩ := peek_stop.mp hp
      refine ⟨skip_length s, (skip_suffix s).trans hS, ?_, [], (tokens_skip s).symm, ?_, ?_⟩
      · rw [tokens_skip, htok]
        exact follow_cons r ht
      · rw [List.append_nil]
        exact hfront
      · rw [List.append_nil]
        exact hret
    · rw [if_neg hp]
      dsimp only
      cases htok : tokens s with
      | nil =>
        have hend := gettoken_nil ((tokens_skip s).trans htok)
        rw [if_pos hend.1]
        refine ⟨?_, ?_, ?_, [], ?_, ?_, ?_⟩
        · rw [hend.2]
          exact Nat.zero_le _
        · rw [hend.2]
          exact List.nil_suffix
        · rw [hend.2, tokens]
          exact Or.inl rfl
        · rw [hend.2, htok, tokens]
          rfl
        · rw [List.append_nil]
          exact hfront
        · rw [List.append_nil]
          exact hret
      | cons t r =>
        have hget := gettoken_skip hS htok
        have hlen := hget.length
        by_cases hword : ∃ w, t = .word w
        · obtain ⟨w, rfl⟩ := hword
          have hspell := hget.word w rfl
          rw [if_neg (by rw [hget.tok]; change ¬ WORD = NUL; decide), if_neg (by rw [hget.tok]; simp [Token.code])]
          have hcount : ((front ++ [Item.word w]).filterMap Item.word?).length =
              (front.filterMap Item.word?).length + 1 := by
            rw [List.filterMap_append, List.length_append]
            rfl
          by_cases hmax : MAXARGS ≤ (front.filterMap Item.word?).length + 1
          · rw [if_pos hmax]
            refine ⟨by decide, ?_⟩
            intro items ts hle hts heq
            obtain ⟨rest, rfl, -⟩ := items_word hts heq
            rw [List.filterMap_append, List.length_append] at hle
            have hpos : 1 ≤ ((Item.word w :: rest).filterMap Item.word?).length := by
              change 1 ≤ (w :: rest.filterMap Item.word?).length
              rw [List.length_cons]
              omega
            unfold MAXARGS at hmax
            omega
          · rw [if_neg hmax]
            have hredirs := parseredirs_returns n (by omega) hget.suffix (denote_word hret hspell)
            refine hredirs.bind ?_ ?_
            · intro hfail items ts hle hts heq
              obtain ⟨rest, rfl, hr⟩ := items_word hts heq
              obtain ⟨rs, rest', rfl, hnot'⟩ := items_split hts.notItem.redir rest
              refine hfail rs _ hnot' ?_
              rw [hget.rest, hr, List.flatMap_append, yield_redirs, List.append_assoc]
            · rintro c s' ⟨hl, hs, hstuck, rs, htoks, hrel⟩
              have hlen' : ((front ++ [Item.word w] ++ rs.map Item.redir).filterMap Item.word?).length =
                  (front.filterMap Item.word?).length + 1 := by
                rw [List.filterMap_append, words_redirs, List.append_nil, hcount]
              have hle : ((front ++ [Item.word w] ++ rs.map Item.redir).filterMap Item.word?).length ≤ 9 := by
                rw [hlen']
                unfold MAXARGS at hmax
                omega
              have hrec := ih (by omega) hs hstuck hle (by rw [denote_redirs]; exact hrel)
              rw [hlen'] at hrec
              cases hres : parseargs n ((front.filterMap Item.word?).length + 1) c s' with
              | error e =>
                rw [hres] at hrec
                refine ⟨hrec.1, ?_⟩
                intro items ts hle' hts heq
                obtain ⟨rest, rfl, hr⟩ := items_word hts heq
                obtain ⟨rs', rest', rfl, hnot'⟩ := items_split hts.notItem.redir rest
                rw [← hget.rest, htoks, List.flatMap_append, yield_redirs, List.append_assoc] at hr
                obtain ⟨rfl, htail⟩ := redirs_inj hstuck hnot' hr
                refine hrec.2 rest' ts ?_ hts htail
                simpa [List.append_assoc] using hle'
              | ok p =>
                rw [hres] at hrec
                obtain ⟨hl', hs', hstuck', items, htoks', hle', hrel'⟩ := hrec
                refine ⟨by omega, hs', hstuck', .word w :: (rs.map Item.redir ++ items), ?_, ?_, ?_⟩
                · rw [htok, ← hget.rest, htoks, htoks', List.flatMap_cons, List.flatMap_append,
                    yield_redirs]
                  simp [Item.yield]
                · simpa [List.append_assoc] using hle'
                · simpa [List.append_assoc] using hrel'
        · -- the only token left is `(`
          have hlpar : t = .lpar := by
            cases t with
            | word w => exact (hword ⟨w, rfl⟩).elim
            | lpar => rfl
            | lt => exact (hnot _ _ htok (Or.inl rfl)).elim
            | gt => exact (hnot _ _ htok (Or.inr (Or.inl rfl))).elim
            | gtgt => exact (hnot _ _ htok (Or.inr (Or.inr rfl))).elim
            | bar => exact (hp (peek_stop.mpr ⟨_, r, htok, by simp⟩)).elim
            | rpar => exact (hp (peek_stop.mpr ⟨_, r, htok, by simp⟩)).elim
            | semi => exact (hp (peek_stop.mpr ⟨_, r, htok, by simp⟩)).elim
            | amp => exact (hp (peek_stop.mpr ⟨_, r, htok, by simp⟩)).elim
          subst hlpar
          rw [if_neg (by rw [hget.tok]; decide), if_pos (by rw [hget.tok]; decide)]
          refine ⟨by decide, ?_⟩
          intro items ts _ hts heq
          exact items_lpar hts.notLpar heq.symm

/-! ### Lines, pipelines and commands -/

/-- A part of a line was read. -/
structure Reads (S s : List UInt8) (k : Symbol) (c : Cmd Span) (s' : List UInt8) : Prop where
  length : s'.length ≤ s.length
  suffix : s' <:+ S
  read : ∃ d : Deriv k, d.Ok ∧ d.Stuck (tokens s') ∧ tokens s = d.yield ++ tokens s' ∧
    c.Rel (Spells S) d.denote

/-- No part of a line fits. -/
def Fails (s : List UInt8) (k : Symbol) : Prop :=
  ∀ (d : Deriv k) ts, d.Ok → d.Stuck ts → tokens s ≠ d.yield ++ ts

theorem parseblock_returns {n : Nat} (hS : s <:+ S) (hlpar : ∃ r, tokens s = .lpar :: r)
    (hn : s.length < n)
    (hline : ∀ {u : List UInt8}, u <:+ S → u.length < s.length →
      Returns (Reads S u .line) (Fails u .line) (parseline n u)) :
    Returns (Reads S s .exec) (Fails s .exec) (parseblock (n + 1) s) := by
  rw [parseblock, if_pos (peek_lpar.mpr hlpar)]
  obtain ⟨r, htok⟩ := hlpar
  have hget := gettoken_skip hS htok
  have hlen := hget.length
  have hsimple : ∀ {items : List Item} {ts : List Token}, Follow ts →
      tokens s ≠ items.flatMap Item.yield ++ ts := by
    intro items ts hts heq
    rw [htok] at heq
    exact items_lpar hts.notLpar heq.symm
  refine (hline hget.suffix hget.length).bind ?_ ?_
  · intro hfail d ts hok hstuck heq
    cases d with
    | simple items => exact hsimple hstuck heq
    | block l rs =>
      rw [htok] at heq
      simp only [Deriv.yield, List.cons_append, List.append_assoc] at heq
      refine hfail l (.rpar :: (rs.flatMap Redir.yield ++ ts)) hok (l.stuck_line (Or.inr ⟨_, rfl⟩) rfl) ?_
      rw [hget.rest]
      exact (List.cons.inj heq).2
  · rintro c s2 ⟨hl, hs, l, hlok, hlstuck, hltok, hlrel⟩
    have hinj : ∀ {l' : Deriv .line} {v : List Token}, r = l'.yield ++ .rpar :: v →
        l' = l ∧ tokens s2 = .rpar :: v := by
      intro l' v hr
      rw [← hget.rest, hltok] at hr
      obtain ⟨rfl, htail⟩ := l.yield_inj l' hlstuck (l'.stuck_line (Or.inr ⟨_, rfl⟩) rfl) hr
      exact ⟨rfl, htail⟩
    dsimp only
    by_cases hp : peek s2 [RPAR] = true
    · rw [if_pos hp]
      obtain ⟨r2, htok2⟩ := peek_rpar.mp hp
      have hget2 := gettoken_skip hs htok2
      have hlen2 := hget2.length
      have hredirs := parseredirs_returns n (by omega) hget2.suffix hlrel
      cases hres : parseredirs n c (gettoken (skip s2)).ps with
      | error e =>
        rw [hres] at hredirs
        refine ⟨hredirs.1, ?_⟩
        intro d ts hok hstuck heq
        cases d with
        | simple items => exact hsimple hstuck heq
        | block l' rs =>
          rw [htok] at heq
          simp only [Deriv.yield, List.cons_append, List.append_assoc] at heq
          obtain ⟨rfl, htail⟩ := hinj (List.cons.inj heq).2
          refine hredirs.2 rs ts hstuck ?_
          rw [hget2.rest]
          rw [htok2] at htail
          exact (List.cons.inj htail).2
      | ok p =>
        rw [hres] at hredirs
        obtain ⟨hl', hs', hstuck', rs, htoks, hrel⟩ := hredirs
        refine ⟨by omega, hs', .block l rs, hlok, hstuck', ?_, hrel⟩
        simp only [Deriv.yield, List.cons_append, List.append_assoc]
        rw [htok, ← hget.rest, hltok, htok2, ← htoks, hget2.rest]
    · rw [if_neg hp]
      refine ⟨by decide, ?_⟩
      intro d ts hok hstuck heq
      cases d with
      | simple items => exact hsimple hstuck heq
      | block l' rs =>
        rw [htok] at heq
        simp only [Deriv.yield, List.cons_append, List.append_assoc] at heq
        obtain ⟨-, htail⟩ := hinj (List.cons.inj heq).2
        exact hp (peek_rpar.mpr ⟨_, htail⟩)

theorem Reads.of_skip {k : Symbol} {c : Cmd Span} {s' : List UInt8} (h : Reads S (skip s) k c s') :
    Reads S s k c s' := by
  obtain ⟨hl, hs, d, hok, hstuck, htok, hrel⟩ := h
  rw [tokens_skip] at htok
  exact ⟨hl.trans (skip_length s), hs, d, hok, hstuck, htok, hrel⟩

theorem parseexec_returns {n : Nat} (hS : s <:+ S) (hn : s.length < n)
    (hblock : ∀ {u : List UInt8}, u <:+ S → u.length ≤ s.length → (∃ r, tokens u = .lpar :: r) →
      Returns (Reads S u .exec) (Fails u .exec) (parseblock n u)) :
    Returns (Reads S s .exec) (Fails s .exec) (parseexec (n + 1) s) := by
  rw [parseexec]
  by_cases hp : peek s [LPAR] = true
  · rw [if_pos hp]
    have htok : ∃ r, tokens (skip s) = .lpar :: r := by
      rw [tokens_skip]
      exact peek_lpar.mp hp
    have hb := hblock ((skip_suffix s).trans hS) (skip_length s) htok
    cases hres : parseblock n (skip s) with
    | error e =>
      rw [hres] at hb
      refine ⟨hb.1, ?_⟩
      intro d ts hok hstuck
      rw [← tokens_skip]
      exact hb.2 d ts hok hstuck
    | ok p =>
      rw [hres] at hb
      exact Reads.of_skip hb
  · rw [if_neg hp]
    have hlen := skip_length s
    have hblock' : ∀ {l : Deriv .line} {rs : List Redir} {ts : List Token},
        tokens s ≠ (Deriv.block l rs).yield ++ ts := by
      intro l rs ts heq
      exact hp (peek_lpar.mpr ⟨_, heq⟩)
    have hredirs := parseredirs_returns n (d := (Deriv.simple []).denote) (by omega)
      ((skip_suffix s).trans hS) (Cmd.Rel.exec List.Forall₂.nil)
    refine hredirs.bind ?_ ?_
    · intro hfail d ts hok hstuck heq
      cases d with
      | block l rs => exact hblock' heq
      | simple items =>
        obtain ⟨rs, rest, rfl, hnot⟩ := items_split hstuck.notItem.redir items
        refine hfail rs _ hnot ?_
        rw [tokens_skip, heq]
        simp only [Deriv.yield, List.flatMap_append, yield_redirs, List.append_assoc]
    · rintro c s1 ⟨hl, hs, hstuck, rs, htoks, hrel⟩
      rw [tokens_skip] at htoks
      rw [← denote_redirs, List.nil_append] at hrel
      have hargs := parseargs_returns n (by omega) hs hstuck (by rw [words_redirs]; simp) hrel
      rw [words_redirs] at hargs
      change Returns (Reads S s .exec) (Fails s .exec) (parseargs n 0 c s1)
      cases hres : parseargs n 0 c s1 with
      | error e =>
        rw [List.length_nil, hres] at hargs
        refine ⟨hargs.1, ?_⟩
        intro d ts hok hstuck' heq
        cases d with
        | block l rs => exact hblock' heq
        | simple items =>
          obtain ⟨rs', rest, rfl, hnot⟩ := items_split hstuck'.notItem.redir items
          simp only [Deriv.yield, List.flatMap_append, yield_redirs, List.append_assoc] at heq
          rw [htoks] at heq
          obtain ⟨rfl, htail⟩ := redirs_inj hstuck hnot heq
          exact hargs.2 rest ts hok hstuck' htail
      | ok p =>
        rw [List.length_nil, hres] at hargs
        obtain ⟨hl', hs', hstuck', items, htoks', hle, hrel'⟩ := hargs
        refine ⟨by omega, hs', .simple (rs.map Item.redir ++ items), hle, hstuck', ?_, hrel'⟩
        simp only [Deriv.yield, List.flatMap_append, yield_redirs, List.append_assoc]
        rw [htoks, htoks']

theorem parsepipe_returns {n : Nat}
    (hexec : Returns (Reads S s .exec) (Fails s .exec) (parseexec n s))
    (hpipe : ∀ {u : List UInt8}, u <:+ S → u.length < s.length →
      Returns (Reads S u .pipe) (Fails u .pipe) (parsepipe n u)) :
    Returns (Reads S s .pipe) (Fails s .pipe) (parsepipe (n + 1) s) := by
  rw [parsepipe]
  refine hexec.bind ?_ ?_
  · intro hfail d ts hok hstuck heq
    cases d with
    | one e => exact hfail e ts hok hstuck.1 heq
    | pipe e p =>
      simp only [Deriv.yield, List.append_assoc, List.cons_append] at heq
      exact hfail e _ hok.1 (e.stuck_exec (follow_cons _ (by simp))) heq
  · rintro c s1 ⟨hl, hs, e, heok, hestuck, hetok, herel⟩
    dsimp only
    by_cases hp : peek s1 [PIPE] = true
    · rw [if_pos hp]
      obtain ⟨r, htok⟩ := peek_bar.mp hp
      have hget := gettoken_skip hs htok
      have hlen := hget.length
      refine (hpipe hget.suffix (by omega)).bind ?_ ?_
      · intro hfail d ts hok hstuck heq
        cases d with
        | one e' =>
          rw [hetok] at heq
          obtain ⟨-, htail⟩ := e.yield_inj e' hestuck hstuck.1 heq
          exact hstuck.2 _ _ (htail.symm.trans htok) rfl
        | pipe e' p' =>
          simp only [Deriv.yield, List.append_assoc, List.cons_append] at heq
          rw [hetok] at heq
          obtain ⟨rfl, htail⟩ := e.yield_inj e' hestuck (e'.stuck_exec (follow_cons _ (by simp))) heq
          rw [htok] at htail
          refine hfail p' ts hok.2 hstuck ?_
          rw [hget.rest]
          exact (List.cons.inj htail).2
      · rintro c' s2 ⟨hl', hs', p, hpok, hpstuck, hptok, hprel⟩
        refine ⟨by dsimp only; omega, hs', .pipe e p, ⟨heok, hpok⟩, hpstuck, ?_, Cmd.Rel.pipe herel hprel⟩
        simp only [Deriv.yield, List.append_assoc, List.cons_append]
        rw [hetok, htok, ← hptok, hget.rest]
    · rw [if_neg hp]
      refine ⟨(skip_length s1).trans hl, (skip_suffix s1).trans hs, .one e, heok, ⟨?_, ?_⟩, ?_, herel⟩
      · rw [tokens_skip]
        exact hestuck
      · rintro t r heq rfl
        rw [tokens_skip] at heq
        exact hp (peek_bar.mpr ⟨r, heq⟩)
      · rw [tokens_skip]
        exact hetok

theorem parseline_returns {n : Nat} (hn : s.length < n)
    (hpipe : Returns (Reads S s .pipe) (Fails s .pipe) (parsepipe n s))
    (hline : ∀ {u : List UInt8}, u <:+ S → u.length < s.length →
      Returns (Reads S u .line) (Fails u .line) (parseline n u)) :
    Returns (Reads S s .line) (Fails s .line) (parseline (n + 1) s) := by
  rw [parseline]
  refine hpipe.bind ?_ ?_
  · intro hfail d ts hok hstuck heq
    cases d with
    | last p amps =>
      simp only [Deriv.yield, List.append_assoc] at heq
      exact hfail p _ hok hstuck.1 heq
    | seq p amps l =>
      simp only [Deriv.yield, List.append_assoc, List.cons_append] at heq
      exact hfail p _ hok.1 (p.stuck_semi _ amps) heq
  · rintro c s1 ⟨hl, hs, p, hpok, hpstuck, hptok, hprel⟩
    refine (parsebacks_returns n (by omega) hs hprel).bind False.elim ?_
    rintro c2 s2 ⟨hl2, hs2, hamp, amps, hatok, harel⟩
    rw [hatok] at hptok hpstuck
    dsimp only
    by_cases hp : peek s2 [SEMI] = true
    · rw [if_pos hp]
      obtain ⟨r, htok⟩ := peek_semi.mp hp
      have hget := gettoken_skip hs2 htok
      have hlen := hget.length
      refine (hline hget.suffix (by omega)).bind ?_ ?_
      · intro hfail d ts hok hstuck heq
        cases d with
        | last p' amps' =>
          simp only [Deriv.yield, List.append_assoc] at heq
          rw [hptok] at heq
          obtain ⟨-, htail⟩ := p.yield_inj p' hpstuck hstuck.1 heq
          obtain ⟨-, htail⟩ := amps_inj hamp hstuck.2.amp htail
          exact hstuck.2 _ _ (htail.symm.trans htok) (Or.inr rfl)
        | seq p' amps' l' =>
          simp only [Deriv.yield, List.append_assoc, List.cons_append] at heq
          rw [hptok] at heq
          obtain ⟨-, htail⟩ := p.yield_inj p' hpstuck (p'.stuck_semi _ amps') heq
          obtain ⟨-, htail⟩ := amps_inj hamp (notHead_semi _) htail
          rw [htok] at htail
          refine hfail l' ts hok.2 hstuck ?_
          rw [hget.rest]
          exact (List.cons.inj htail).2
      · rintro c3 s3 ⟨hl3, hs3, l, hlok, hlstuck, hltok, hlrel⟩
        refine ⟨by dsimp only; omega, hs3, .seq p amps l, ⟨hpok, hlok⟩, hlstuck, ?_,
          Cmd.Rel.list harel hlrel⟩
        simp only [Deriv.yield, List.append_assoc, List.cons_append]
        rw [hptok, htok, ← hltok, hget.rest]
    · rw [if_neg hp]
      refine ⟨((skip_length s2).trans hl2).trans hl, (skip_suffix s2).trans hs2, .last p amps, hpok,
        ⟨?_, ?_⟩, ?_, harel⟩
      · rw [tokens_skip]
        exact hpstuck
      · rintro t r heq (rfl | rfl)
        · rw [tokens_skip] at heq
          exact hamp _ _ heq rfl
        · rw [tokens_skip] at heq
          exact hp (peek_semi.mpr ⟨r, heq⟩)
      · simp only [Deriv.yield, List.append_assoc]
        rw [tokens_skip]
        exact hptok

/-- **The parser.**  The number of calls is bounded by the length of the string. -/
theorem parse_returns (n : Nat) : ∀ {s : List UInt8}, s <:+ S →
    (4 * s.length + 4 ≤ n → Returns (Reads S s .line) (Fails s .line) (parseline n s)) ∧
    (4 * s.length + 3 ≤ n → Returns (Reads S s .pipe) (Fails s .pipe) (parsepipe n s)) ∧
    (4 * s.length + 2 ≤ n → Returns (Reads S s .exec) (Fails s .exec) (parseexec n s)) ∧
    (4 * s.length + 1 ≤ n → (∃ r, tokens s = .lpar :: r) →
      Returns (Reads S s .exec) (Fails s .exec) (parseblock n s)) := by
  induction n with
  | zero =>
    intro s _
    refine ⟨fun h => ?_, fun h => ?_, fun h => ?_, fun h => ?_⟩ <;> omega
  | succ n ih =>
    intro s hS
    refine ⟨fun h => ?_, fun h => ?_, fun h => ?_, fun h hlpar => ?_⟩
    · exact parseline_returns (by omega) ((ih hS).2.1 (by omega))
        fun hu hlt => (ih hu).1 (by omega)
    · exact parsepipe_returns ((ih hS).2.2.1 (by omega)) fun hu hlt => (ih hu).2.1 (by omega)
    · exact parseexec_returns hS (by omega) fun hu hle hlpar => (ih hu).2.2.2 (by omega) hlpar
    · have hpos : 0 < s.length := by
        obtain ⟨r, htok⟩ := hlpar
        have := (gettoken_skip hS htok).length
        omega
      exact parseblock_returns hS hlpar (by omega) fun hu hlt => (ih hu).1 (by omega)

/-! ### `nulterminate` -/

def Cmd.map {α β : Type} (f : α → β) : Cmd α → Cmd β
  | .exec argv => .exec (argv.map f)
  | .redir cmd file mode fd => .redir (cmd.map f) (f file) mode fd
  | .pipe left right => .pipe (left.map f) (right.map f)
  | .list left right => .list (left.map f) (right.map f)
  | .back cmd => .back (cmd.map f)

theorem Cmd.Rel.map_eq {α β : Type} {R : α → β → Prop} {f : α → β} (hf : ∀ a b, R a b → f a = b)
    {c : Cmd α} {d : Cmd β} (h : c.Rel R d) : c.map f = d := by
  induction h with
  | exec h =>
    refine congrArg Cmd.exec ?_
    induction h with
    | nil => rfl
    | cons hab _ ih => rw [List.map_cons, hf _ _ hab, ih]
  | redir _ hfile ih => rw [Cmd.map, ih, hf _ _ hfile]
  | pipe _ _ ih ih' => rw [Cmd.map, ih, ih']
  | list _ _ ih ih' => rw [Cmd.map, ih, ih']
  | back _ ih => rw [Cmd.map, ih]

/-- The characters of words are still in the string. -/
structure Kept (s buf : List UInt8) : Prop where
  length : buf.length = s.length + 1
  word : ∀ (i : Nat) (c : UInt8), s[i]? = some c → isWord c = true → buf[i]? = some c

def Zero (buf : List UInt8) (i : Nat) : Prop := buf[i]? = some NUL

theorem Zero.clear {buf p : List UInt8} {es i : Nat} (h : Zero buf i) : Zero (clear es p buf) i := by
  unfold Zero Sh.clear at *
  rw [List.getElem?_set]
  split
  · rename_i heq
    rw [← heq] at h
    obtain ⟨hlt, -⟩ := List.getElem?_eq_some_iff.mp h
    rw [if_pos hlt]
  · exact h

/-- The end of a word is no character of a word. -/
theorem Spells.end_index {w : Span} {txt : List UInt8} {c : UInt8} (h : Spells s w txt)
    (hc : s[s.length - w.eq.length]? = some c) : isWord c = false := by
  obtain ⟨pre, hpre⟩ := h.suffix
  rw [h.text] at hpre
  have hlen : s.length - w.eq.length = (pre ++ txt).length := by
    rw [← hpre]
    simp only [List.length_append]
    omega
  rw [hlen, ← hpre, ← List.append_assoc, List.getElem?_append_right (Nat.le_refl _), Nat.sub_self] at hc
  cases heq : w.eq with
  | nil =>
    rw [heq] at hc
    cases hc
  | cons d r =>
    rw [heq] at hc
    cases hc
    exact h.stop c r heq

theorem Kept.clear {buf : List UInt8} {w : Span} {txt : List UInt8} (h : Kept s buf)
    (hw : Spells s w txt) :
    Kept s (clear s.length w.eq buf) ∧ Zero (clear s.length w.eq buf) (s.length - w.eq.length) := by
  refine ⟨⟨?_, ?_⟩, ?_⟩
  · unfold Sh.clear
    rw [List.length_set, h.length]
  · intro i c hi hc
    unfold Sh.clear
    rw [List.getElem?_set]
    split
    · rename_i heq
      rw [← heq] at hi
      rw [hw.end_index hi] at hc
      cases hc
    · exact h.word i c hi hc
  · unfold Zero Sh.clear
    rw [List.getElem?_set_self]
    rw [h.length]
    omega

/-- A word whose end is marked in the string. -/
def Marked (s buf : List UInt8) (w : Span) (txt : List UInt8) : Prop :=
  Spells s w txt ∧ Zero buf (s.length - w.eq.length)

theorem clearAll {ws : List Span} {ts : List (List UInt8)} (h : List.Forall₂ (Spells s) ws ts) :
    ∀ {buf : List UInt8}, Kept s buf →
      Kept s (ws.foldl (fun buf w => clear s.length w.eq buf) buf) ∧
      (∀ i, Zero buf i → Zero (ws.foldl (fun buf w => clear s.length w.eq buf) buf) i) ∧
      List.Forall₂ (Marked s (ws.foldl (fun buf w => clear s.length w.eq buf) buf)) ws ts := by
  induction h with
  | nil =>
    intro buf hbuf
    exact ⟨hbuf, fun _ hi => hi, List.Forall₂.nil⟩
  | @cons w txt ws ts hw _ ih =>
    intro buf hbuf
    obtain ⟨hkept, hzero⟩ := hbuf.clear hw
    obtain ⟨hkept', hmono, hall⟩ := ih hkept
    refine ⟨hkept', fun i hi => hmono i hi.clear, List.Forall₂.cons ⟨hw, hmono _ hzero⟩ hall⟩

/-- `nulterminate` marks the end of every word and spoils none. -/
theorem nulterminate_marks {c : Cmd Span} {d : Tree} (h : c.Rel (Spells s) d) :
    ∀ {buf : List UInt8}, Kept s buf →
      Kept s (nulterminate s.length c buf) ∧
      (∀ i, Zero buf i → Zero (nulterminate s.length c buf) i) ∧
      ∀ buf', (∀ i, Zero (nulterminate s.length c buf) i → Zero buf' i) → c.Rel (Marked s buf') d := by
  induction h with
  | exec h =>
    intro buf hbuf
    obtain ⟨hkept, hmono, hall⟩ := clearAll h hbuf
    refine ⟨hkept, hmono, ?_⟩
    intro buf' hbuf'
    exact Cmd.Rel.exec (hall.imp fun w txt hw => ⟨hw.1, hbuf' _ hw.2⟩)
  | @redir c d f g mode fd _ hf ih =>
    intro buf hbuf
    obtain ⟨hkept, hmono, hall⟩ := ih hbuf
    obtain ⟨hkept', hzero⟩ := hkept.clear hf
    refine ⟨hkept', fun i hi => (hmono i hi).clear, ?_⟩
    intro buf' hbuf'
    exact Cmd.Rel.redir (hall buf' fun i hi => hbuf' i hi.clear) ⟨hf, hbuf' _ hzero⟩
  | pipe _ _ ih ih' =>
    intro buf hbuf
    obtain ⟨hkept, hmono, hall⟩ := ih hbuf
    obtain ⟨hkept', hmono', hall'⟩ := ih' hkept
    refine ⟨hkept', fun i hi => hmono' i (hmono i hi), ?_⟩
    intro buf' hbuf'
    exact Cmd.Rel.pipe (hall buf' fun i hi => hbuf' i (hmono' i hi)) (hall' buf' hbuf')
  | list _ _ ih ih' =>
    intro buf hbuf
    obtain ⟨hkept, hmono, hall⟩ := ih hbuf
    obtain ⟨hkept', hmono', hall'⟩ := ih' hkept
    refine ⟨hkept', fun i hi => hmono' i (hmono i hi), ?_⟩
    intro buf' hbuf'
    exact Cmd.Rel.list (hall buf' fun i hi => hbuf' i (hmono' i hi)) (hall' buf' hbuf')
  | back _ ih =>
    intro buf hbuf
    obtain ⟨hkept, hmono, hall⟩ := ih hbuf
    exact ⟨hkept, hmono, fun buf' hbuf' => Cmd.Rel.back (hall buf' hbuf')⟩

theorem strAt_marked {buf : List UInt8} {w : Span} {txt : List UInt8} (hs : ∀ c ∈ s, c ≠ NUL)
    (hbuf : Kept s buf) (h : Marked s buf w txt) : strAt s.length buf w.q = txt := by
  obtain ⟨hw, hzero⟩ := h
  obtain ⟨pre, hpre⟩ := hw.suffix
  have hq : s.length - w.q.length = pre.length := by
    rw [← hpre, List.length_append]
    omega
  have heq : s.length - w.eq.length = pre.length + txt.length := by
    rw [← hpre, hw.text]
    simp only [List.length_append]
    omega
  rw [heq] at hzero
  have hget : ∀ j (hj : j < txt.length), s[pre.length + j]? = some txt[j] := by
    intro j hj
    rw [← hpre, hw.text, List.getElem?_append_right (by omega), Nat.add_sub_cancel_left,
      List.getElem?_append_left hj, List.getElem?_eq_getElem hj]
  have htake : (buf.drop pre.length).take txt.length = txt := by
    refine List.ext_getElem? fun j => ?_
    rw [List.getElem?_take]
    split
    · rename_i hj
      rw [List.getElem?_drop, hbuf.word _ _ (hget j hj) (hw.word _ (List.getElem_mem hj)),
        List.getElem?_eq_getElem hj]
    · rename_i hj
      rw [List.getElem?_eq_none (by omega)]
  obtain ⟨hlt, hval⟩ := List.getElem?_eq_some_iff.mp hzero
  have hdrop : (buf.drop pre.length).drop txt.length = NUL :: buf.drop (pre.length + txt.length + 1) := by
    rw [List.drop_drop, List.drop_eq_getElem_cons hlt, hval]
  unfold strAt
  rw [hq, ← List.take_append_drop txt.length (buf.drop pre.length), htake, hdrop,
    List.takeWhile_append_of_pos]
  · rw [List.takeWhile_cons, if_neg (by simp), List.append_nil]
  · intro c hc
    have hmem : c ∈ s := by
      rw [← hpre, hw.text]
      simp [hc]
    exact decide_eq_true (hs c hmem)

/-! ### The shell's language -/

theorem Kept.start (s : List UInt8) : Kept s (s ++ [NUL]) := by
  refine ⟨by simp, ?_⟩
  intro i c hi _
  obtain ⟨hlt, -⟩ := List.getElem?_eq_some_iff.mp hi
  rw [List.getElem?_append_left hlt]
  exact hi

/-- What `parsecmd` returns is related to a derivation of the line, with the ends of the words
    marked. -/
theorem parsecmd_marked {c : Cmd Span} {buf : List UInt8} (h : parsecmd s = .ok (c, buf)) :
    ∃ d : Deriv .line, d.Ok ∧ d.yield = tokens s ∧ Kept s buf ∧ c.Rel (Marked s buf) d.denote ∧
      buf = nulterminate s.length c (s ++ [NUL]) := by
  have hline := (parse_returns (S := s) (4 * s.length + 4) List.suffix_rfl).1 (Nat.le_refl _)
  unfold parsecmd at h
  cases hres : parseline (4 * s.length + 4) s with
  | error e =>
    rw [hres] at h
    cases h
  | ok p =>
    rw [hres] at h hline
    obtain ⟨-, -, d, hok, -, htok, hrel⟩ := hline
    change (if skip p.2 ≠ [] then Except.error Fault.leftovers else _) = _ at h
    split at h
    · cases h
    · rename_i hend
      cases h
      rw [not_not] at hend
      have hnil : tokens p.2 = [] := by rw [← tokens_skip, hend, tokens]
      rw [hnil, List.append_nil] at htok
      obtain ⟨hkept, -, hmarks⟩ := nulterminate_marks hrel (Kept.start s)
      exact ⟨d, hok, htok.symm, hkept, hmarks _ fun _ hi => hi, rfl⟩

/-- What `parsecmd` returns denotes the derivation of the line. -/
theorem parsecmd_ok (hs : ∀ c ∈ s, c ≠ NUL) {c : Cmd Span} {buf : List UInt8}
    (h : parsecmd s = .ok (c, buf)) : ∃ d : Deriv .line, d.Ok ∧ d.yield = tokens s ∧
      c.map (fun w => strAt s.length buf w.q) = d.denote := by
  obtain ⟨d, hok, hyield, hkept, hrel, -⟩ := parsecmd_marked h
  exact ⟨d, hok, hyield, hrel.map_eq fun w txt hw => strAt_marked hs hkept hw⟩

/-- What `parsecmd` rejects has no derivation. -/
theorem parsecmd_error {e : Fault} (h : parsecmd s = .error e) :
    e ≠ .calls ∧ ∀ d : Deriv .line, d.Ok → d.yield ≠ tokens s := by
  have hline := (parse_returns (S := s) (4 * s.length + 4) List.suffix_rfl).1 (Nat.le_refl _)
  unfold parsecmd at h
  cases hres : parseline (4 * s.length + 4) s with
  | error e' =>
    rw [hres] at h hline
    cases h
    refine ⟨hline.1, ?_⟩
    intro d hok heq
    refine hline.2 d [] hok d.stuck_nil ?_
    rw [List.append_nil, heq]
  | ok p =>
    rw [hres] at h hline
    obtain ⟨-, -, d, hok, hstuck, htok, -⟩ := hline
    change (if skip p.2 ≠ [] then Except.error Fault.leftovers else _) = _ at h
    split at h
    · rename_i hend
      cases h
      refine ⟨by decide, ?_⟩
      intro d' _ heq
      rw [← heq, ← List.append_nil d'.yield] at htok
      obtain ⟨-, htail⟩ := d'.yield_inj d d'.stuck_nil hstuck htok
      exact hend (skip_of_tokens_nil htail.symm)
    · cases h

/-- **The shell's language.**  For every string, `parsecmd` returns, and it returns a
    command exactly when the tokens of the string have a derivation.  There is only one,
    and the command with its words is the one it denotes. -/
theorem parsecmd_grammar {s : List UInt8} (hs : ∀ c ∈ s, c ≠ NUL) :
    parsecmd s ≠ .error .calls ∧
      ((∃ c buf, parsecmd s = .ok (c, buf)) ↔ ∃ d : Deriv .line, d.Ok ∧ d.yield = tokens s) ∧
      ∀ d : Deriv .line, d.Ok → d.yield = tokens s →
        (∀ d' : Deriv .line, d'.yield = tokens s → d' = d) ∧
        ∃ c buf, parsecmd s = .ok (c, buf) ∧ c.map (fun w => strAt s.length buf w.q) = d.denote := by
  have haccept : ∀ d : Deriv .line, d.Ok → d.yield = tokens s →
      ∃ c buf, parsecmd s = .ok (c, buf) ∧ c.map (fun w => strAt s.length buf w.q) = d.denote := by
    intro d hok hyield
    cases h : parsecmd s with
    | error e => exact ((parsecmd_error h).2 d hok hyield).elim
    | ok r =>
      obtain ⟨d', -, hyield', hdenote⟩ := parsecmd_ok hs h
      cases Deriv.unique (hyield.trans hyield'.symm)
      exact ⟨r.1, r.2, rfl, hdenote⟩
  refine ⟨fun h => (parsecmd_error h).1 rfl, ⟨?_, ?_⟩, ?_⟩
  · rintro ⟨c, buf, h⟩
    obtain ⟨d, hok, hyield, -⟩ := parsecmd_ok hs h
    exact ⟨d, hok, hyield⟩
  · rintro ⟨d, hok, hyield⟩
    obtain ⟨c, buf, h, -⟩ := haccept d hok hyield
    exact ⟨c, buf, h⟩
  · intro d hok hyield
    exact ⟨fun d' hd' => Deriv.unique (hd'.trans hyield.symm), haccept d hok hyield⟩

/-- `a>b|c;` -/
theorem parsecmd_grammar_line : ∃ d : Deriv .line, d.Ok ∧
    d.yield = tokens [97, 62, 98, 124, 99, 59] ∧
    ∃ c buf, parsecmd [97, 62, 98, 124, 99, 59] = .ok (c, buf) ∧
      c.map (fun w => strAt 6 buf w.q) = d.denote := by
  have hgrammar := parsecmd_grammar (s := [97, 62, 98, 124, 99, 59]) (by simp [NUL])
  have hok : (parsecmd [97, 62, 98, 124, 99, 59]).isOk = true := by decide
  obtain ⟨d, hd, hyield⟩ := hgrammar.2.1.mp (by
    cases h : parsecmd [97, 62, 98, 124, 99, 59] with
    | error e =>
      rw [h] at hok
      cases hok
    | ok r => exact ⟨r.1, r.2, rfl⟩)
  exact ⟨d, hd, hyield, (hgrammar.2.2 d hd hyield).2⟩

end Yonix.Sh
