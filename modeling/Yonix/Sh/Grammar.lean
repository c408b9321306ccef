/-
  Yonix/Sh/Grammar.lean
  =====================
  **The language of the shell.**

  The tokens of a line and the derivations of

    line  ::= pipe '&'* (';' line)?
    pipe  ::= exec ('|' pipe)?
    exec  ::= '(' line ')' redir* | (word | redir)*
    redir ::= ('<' | '>' | '>>') word

  with at most nine words in an `exec`.  A derivation has the tokens it yields and the
  command it denotes.  No two derivations of a line yield the same tokens.
-/
import Yonix.Sh.Model

namespace Yonix.Sh

/-! ### Tokens -/

inductive Token where
  | word (w : List UInt8)
  | bar
  | lpar
  | rpar
  | semi
  | amp
  | lt
  | gt
  | gtgt
deriving DecidableEq

/-- The token of a symbol other than `>`. -/
def symToken (c : UInt8) : Option Token :=
  if c = PIPE then some .bar
  else if c = LPAR then some .lpar
  else if c = RPAR then some .rpar
  else if c = SEMI then some .semi
  else if c = AMP then some .amp
  else if c = LT then some .lt
  else none

/-- A word is as long as possible, and so is `>>`. -/
def tokens : List UInt8 → List Token
  | [] => []
  | c :: r =>
    if isSpace c then tokens r
    else if c = GT then
      if r.head? = some GT then .gtgt :: tokens r.tail else .gt :: tokens r
    else
      match symToken c with
      | some t => t :: tokens r
      | none => .word (c :: r.takeWhile isWord) :: tokens (r.dropWhile isWord)
termination_by s => s.length
decreasing_by
  all_goals simp only [List.length_cons, List.length_tail]
  · omega
  · omega
  · omega
  · omega
  · have := (List.dropWhile_suffix isWord (l := r)).length_le
    omega

/-! ### Derivations -/

structure Redir where
  op : Token
  file : List UInt8
  isOp : op = .lt ∨ op = .gt ∨ op = .gtgt

inductive Item where
  | word (w : List UInt8)
  | redir (r : Redir)

inductive Symbol where
  | line
  | pipe
  | exec

inductive Deriv : Symbol → Type where
  | last (p : Deriv .pipe) (amps : Nat) : Deriv .line
  | seq (p : Deriv .pipe) (amps : Nat) (l : Deriv .line) : Deriv .line
  | one (e : Deriv .exec) : Deriv .pipe
  | pipe (e : Deriv .exec) (p : Deriv .pipe) : Deriv .pipe
  | block (l : Deriv .line) (rs : List Redir) : Deriv .exec
  | simple (items : List Item) : Deriv .exec

def Redir.yield (r : Redir) : List Token := [r.op, .word r.file]

def Item.yield : Item → List Token
  | .word w => [.word w]
  | .redir r => r.yield

def Deriv.yield {n : Symbol} : Deriv n → List Token
  | .last p amps => p.yield ++ List.replicate amps .amp
  | .seq p amps l => p.yield ++ (List.replicate amps .amp ++ .semi :: l.yield)
  | .one e => e.yield
  | .pipe e p => e.yield ++ .bar :: p.yield
  | .block l rs => .lpar :: (l.yield ++ .rpar :: rs.flatMap Redir.yield)
  | .simple items => items.flatMap Item.yield

def Item.word? : Item → Option (List UInt8)
  | .word w => some w
  | .redir _ => none

def Item.redir? : Item → Option Redir
  | .word _ => none
  | .redir r => some r

/-- Every `exec` has at most nine words. -/
def Deriv.Ok {n : Symbol} : Deriv n → Prop
  | .last p _ => p.Ok
  | .seq p _ l => p.Ok ∧ l.Ok
  | .one e => e.Ok
  | .pipe e p => e.Ok ∧ p.Ok
  | .block l _ => l.Ok
  | .simple items => (items.filterMap Item.word?).length ≤ 9

abbrev Tree := Cmd (List UInt8)

/-- `>>` opens its file as `>` does. -/
def Redir.mode (r : Redir) : Nat := if r.op = .lt then O_RDONLY else O_WRONLY ||| O_CREATE

def Redir.fd (r : Redir) : Nat := if r.op = .lt then 0 else 1

def Redir.wrap (c : Tree) (r : Redir) : Tree := .redir c r.file r.mode r.fd

def background (c : Tree) : Nat → Tree
  | 0 => c
  | n + 1 => background (.back c) n

def Deriv.denote {n : Symbol} : Deriv n → Tree
  | .last p amps => background p.denote amps
  | .seq p amps l => .list (background p.denote amps) l.denote
  | .one e => e.denote
  | .pipe e p => .pipe e.denote p.denote
  | .block l rs => rs.foldl Redir.wrap l.denote
  | .simple items =>
    (items.filterMap Item.redir?).foldl Redir.wrap (.exec (items.filterMap Item.word?))

/-! ### Each line has one derivation -/

/-- The first token is none of `f`'s. -/
def NotHead (f : Token → Prop) (ts : List Token) : Prop := ∀ t r, ts = t :: r → ¬ f t

def IsRedir (t : Token) : Prop := t = .lt ∨ t = .gt ∨ t = .gtgt

def IsItem (t : Token) : Prop := IsRedir t ∨ ∃ w, t = .word w

/-- The tokens end here, or with a symbol that ends an `exec`. -/
def Follow (ts : List Token) : Prop :=
  ts = [] ∨ ∃ t r, ts = t :: r ∧ (t = .bar ∨ t = .rpar ∨ t = .amp ∨ t = .semi)

/-- The derivation cannot be continued with the tokens after it. -/
def Deriv.Stuck {n : Symbol} : Deriv n → List Token → Prop
  | .last p amps, ts =>
    p.Stuck (List.replicate amps .amp ++ ts) ∧ NotHead (fun t => t = .amp ∨ t = .semi) ts
  | .seq _ _ l, ts => l.Stuck ts
  | .one e, ts => e.Stuck ts ∧ NotHead (· = .bar) ts
  | .pipe _ p, ts => p.Stuck ts
  | .block _ _, ts => NotHead IsRedir ts
  | .simple _, ts => Follow ts

theorem follow_cons {t : Token} (r : List Token) (h : t = .bar ∨ t = .rpar ∨ t = .amp ∨ t = .semi) :
    Follow (t :: r) :=
  Or.inr ⟨t, r, rfl, h⟩

theorem Follow.notItem {ts : List Token} (h : Follow ts) : NotHead IsItem ts := by
  rintro t r rfl hitem
  rcases h with h | ⟨u, v, h, hu⟩
  · cases h
  · cases h
    rcases hitem with (rfl | rfl | rfl) | ⟨w, rfl⟩ <;> simp at hu

theorem NotHead.redir {ts : List Token} (h : NotHead IsItem ts) : NotHead IsRedir ts :=
  fun t r e ht => h t r e (Or.inl ht)

theorem Follow.notLpar {ts : List Token} (h : Follow ts) : NotHead (· = .lpar) ts := by
  rintro t r rfl rfl
  rcases h with h | ⟨u, v, h, hu⟩
  · cases h
  · cases h
    simp at hu

theorem NotHead.nil (f : Token → Prop) : NotHead f [] := by
  intro t r h
  cases h

theorem NotHead.cons {f : Token → Prop} {t : Token} (h : ¬ f t) (r : List Token) :
    NotHead f (t :: r) := by
  intro u v heq
  cases heq
  exact h

theorem NotHead.amp {ts : List Token} (h : NotHead (fun t => t = .amp ∨ t = .semi) ts) :
    NotHead (· = .amp) ts :=
  fun t r e ht => h t r e (Or.inl ht)

theorem notHead_semi (r : List Token) : NotHead (· = .amp) (.semi :: r) :=
  NotHead.cons (by simp) r

/-- An `exec` ends before each of the symbols that follow one. -/
theorem Deriv.stuck_exec (d : Deriv .exec) {ts : List Token} (h : Follow ts) : d.Stuck ts := by
  cases d with
  | block l rs => exact h.notItem.redir
  | simple items => exact h

/-- A pipeline ends before `)`, `&`, `;` and the end. -/
theorem Deriv.stuck_pipe {n : Symbol} (d : Deriv n) {ts : List Token} (h : Follow ts)
    (hbar : NotHead (· = .bar) ts) (hn : n = .pipe) : d.Stuck ts := by
  induction d with
  | last p amps ih => cases hn
  | seq p amps l ihp ihl => cases hn
  | one e ih => exact ⟨e.stuck_exec h, hbar⟩
  | pipe e p ihe ihp => exact ihp rfl
  | block l rs ih => cases hn
  | simple items => cases hn

theorem Deriv.stuck_amps (p : Deriv .pipe) {ts : List Token} (amps : Nat) (h : p.Stuck ts) :
    p.Stuck (List.replicate amps .amp ++ ts) := by
  cases amps with
  | zero => exact h
  | succ n => exact p.stuck_pipe (follow_cons _ (by simp)) (NotHead.cons (by simp) _) rfl

theorem Deriv.stuck_semi (p : Deriv .pipe) (r : List Token) (amps : Nat) :
    p.Stuck (List.replicate amps .amp ++ .semi :: r) :=
  p.stuck_amps amps (p.stuck_pipe (follow_cons _ (by simp)) (NotHead.cons (by simp) _) rfl)

/-- A line ends before `)` and at the end. -/
theorem Deriv.stuck_line {n : Symbol} (d : Deriv n) {ts : List Token}
    (h : ts = [] ∨ ∃ r, ts = .rpar :: r) (hn : n = .line) : d.Stuck ts := by
  have hfollow : Follow ts := by
    rcases h with rfl | ⟨r, rfl⟩
    · exact Or.inl rfl
    · exact follow_cons r (by simp)
  have hnot : ∀ f : Token → Prop, ¬ f .rpar → NotHead f ts := by
    intro f hf
    rcases h with rfl | ⟨r, rfl⟩
    · exact NotHead.nil f
    · exact NotHead.cons hf r
  induction d with
  | last p amps ih =>
    exact ⟨p.stuck_amps amps (p.stuck_pipe hfollow (hnot _ (by simp)) rfl), hnot _ (by simp)⟩
  | seq p amps l ihp ihl => exact ihl rfl
  | one e ih => cases hn
  | pipe e p ihe ihp => cases hn
  | block l rs ih => cases hn
  | simple items => cases hn

theorem amps_inj {ts us : List Token} (hts : NotHead (· = .amp) ts) (hus : NotHead (· = .amp) us) :
    ∀ {m n : Nat}, List.replicate m Token.amp ++ ts = List.replicate n .amp ++ us → m = n ∧ ts = us := by
  intro m
  induction m with
  | zero =>
    intro n h
    cases n with
    | zero => exact ⟨rfl, h⟩
    | succ n => exact (hts _ _ h rfl).elim
  | succ m ih =>
    intro n h
    cases n with
    | zero => exact (hus _ _ h.symm rfl).elim
    | succ n =>
      obtain ⟨rfl, rfl⟩ := ih (List.cons.inj h).2
      exact ⟨rfl, rfl⟩

theorem Redir.ext_yield {r r' : Redir} (hop : r.op = r'.op) (hfile : r.file = r'.file) : r = r' := by
  cases r
  cases r'
  cases hop
  cases hfile
  rfl

theorem redirs_inj {ts us : List Token} (hts : NotHead IsRedir ts) (hus : NotHead IsRedir us) :
    ∀ {rs rs' : List Redir}, rs.flatMap Redir.yield ++ ts = rs'.flatMap Redir.yield ++ us →
      rs = rs' ∧ ts = us := by
  intro rs
  induction rs with
  | nil =>
    intro rs' h
    cases rs' with
    | nil => exact ⟨rfl, h⟩
    | cons r' rs' => exact (hts _ _ h r'.isOp).elim
  | cons r rs ih =>
    intro rs' h
    cases rs' with
    | nil => exact (hus _ _ h.symm r.isOp).elim
    | cons r' rs' =>
      obtain ⟨hop, h⟩ := List.cons.inj h
      obtain ⟨hfile, h⟩ := List.cons.inj h
      obtain ⟨rfl, rfl⟩ := ih h
      exact ⟨by rw [Redir.ext_yield hop (Token.word.inj hfile)], rfl⟩

theorem Item.yield_head (x : Item) : ∃ t r, x.yield = t :: r ∧ IsItem t := by
  cases x with
  | word w => exact ⟨_, _, rfl, Or.inr ⟨w, rfl⟩⟩
  | redir r => exact ⟨_, _, rfl, Or.inl r.isOp⟩

theorem items_inj {ts us : List Token} (hts : NotHead IsItem ts) (hus : NotHead IsItem us) :
    ∀ {xs ys : List Item}, xs.flatMap Item.yield ++ ts = ys.flatMap Item.yield ++ us →
      xs = ys ∧ ts = us := by
  intro xs
  induction xs with
  | nil =>
    intro ys h
    cases ys with
    | nil => exact ⟨rfl, h⟩
    | cons y ys =>
      obtain ⟨t, r, hy, ht⟩ := y.yield_head
      rw [List.flatMap_cons, hy] at h
      exact (hts _ _ h ht).elim
  | cons x xs ih =>
    intro ys h
    cases ys with
    | nil =>
      obtain ⟨t, r, hx, ht⟩ := x.yield_head
      rw [List.flatMap_cons, hx] at h
      exact (hus _ _ h.symm ht).elim
    | cons y ys =>
      rw [List.flatMap_cons, List.flatMap_cons, List.append_assoc, List.append_assoc] at h
      cases x with
      | word w =>
        cases y with
        | word w' =>
          obtain ⟨hw, h⟩ := List.cons.inj h
          obtain ⟨rfl, rfl⟩ := ih h
          exact ⟨by rw [Token.word.inj hw], rfl⟩
        | redir r =>
          obtain ⟨hop, -⟩ := List.cons.inj h
          have hr := r.isOp
          rw [← hop] at hr
          simp at hr
      | redir r =>
        cases y with
        | word w =>
          obtain ⟨hop, -⟩ := List.cons.inj h
          have hr := r.isOp
          rw [hop] at hr
          simp at hr
        | redir r' =>
          obtain ⟨hop, h⟩ := List.cons.inj h
          obtain ⟨hfile, h⟩ := List.cons.inj h
          obtain ⟨rfl, rfl⟩ := ih h
          exact ⟨by rw [Redir.ext_yield hop (Token.word.inj hfile)], rfl⟩

theorem items_lpar {items : List Item} {ts us : List Token} (hts : NotHead (· = .lpar) ts) :
    items.flatMap Item.yield ++ ts ≠ .lpar :: us := by
  intro h
  cases items with
  | nil => exact hts _ _ h rfl
  | cons x xs =>
    obtain ⟨t, r, hx, ht⟩ := x.yield_head
    rw [List.flatMap_cons, hx] at h
    obtain ⟨rfl, -⟩ := List.cons.inj h
    rcases ht with (h | h | h) | ⟨w, h⟩ <;> cases h

/-- Where a part of a line ends is told by what comes after it. -/
theorem Deriv.yield_inj {n : Symbol} (d : Deriv n) : ∀ (d' : Deriv n) {ts us : List Token},
    d.Stuck ts → d'.Stuck us → d.yield ++ ts = d'.yield ++ us → d = d' ∧ ts = us := by
  induction d with
  | last p amps ih =>
    intro d' ts us hts hus h
    cases d' with
    | last p' amps' =>
      simp only [yield, List.append_assoc] at h
      obtain ⟨rfl, h1⟩ := ih p' hts.1 hus.1 h
      obtain ⟨rfl, rfl⟩ := amps_inj hts.2.amp hus.2.amp h1
      exact ⟨rfl, rfl⟩
    | seq p' amps' l' =>
      simp only [yield, List.append_assoc, List.cons_append] at h
      obtain ⟨rfl, h1⟩ := ih p' hts.1 (p'.stuck_semi _ amps') h
      obtain ⟨-, h2⟩ := amps_inj hts.2.amp (notHead_semi _) h1
      exact (hts.2 _ _ h2 (Or.inr rfl)).elim
  | seq p amps l ihp ihl =>
    intro d' ts us hts hus h
    cases d' with
    | last p' amps' =>
      simp only [yield, List.append_assoc, List.cons_append] at h
      obtain ⟨rfl, h1⟩ := ihp p' (p.stuck_semi _ amps) hus.1 h
      obtain ⟨-, h2⟩ := amps_inj (notHead_semi _) hus.2.amp h1
      exact (hus.2 _ _ h2.symm (Or.inr rfl)).elim
    | seq p' amps' l' =>
      simp only [yield, List.append_assoc, List.cons_append] at h
      obtain ⟨rfl, h1⟩ := ihp p' (p.stuck_semi _ amps) (p'.stuck_semi _ amps') h
      obtain ⟨rfl, h2⟩ := amps_inj (notHead_semi _) (notHead_semi _) h1
      obtain ⟨rfl, rfl⟩ := ihl l' hts hus (List.cons.inj h2).2
      exact ⟨rfl, rfl⟩
  | one e ih =>
    intro d' ts us hts hus h
    cases d' with
    | one e' =>
      obtain ⟨rfl, rfl⟩ := ih e' hts.1 hus.1 h
      exact ⟨rfl, rfl⟩
    | pipe e' p' =>
      simp only [yield, List.append_assoc, List.cons_append] at h
      obtain ⟨-, h1⟩ := ih e' hts.1 (e'.stuck_exec (follow_cons _ (by simp))) h
      exact (hts.2 _ _ h1 rfl).elim
  | pipe e p ihe ihp =>
    intro d' ts us hts hus h
    cases d' with
    | one e' =>
      simp only [yield, List.append_assoc, List.cons_append] at h
      obtain ⟨-, h1⟩ := ihe e' (e.stuck_exec (follow_cons _ (by simp))) hus.1 h
      exact (hus.2 _ _ h1.symm rfl).elim
    | pipe e' p' =>
      simp only [yield, List.append_assoc, List.cons_append] at h
      obtain ⟨rfl, h1⟩ := ihe e' (e.stuck_exec (follow_cons _ (by simp)))
        (e'.stuck_exec (follow_cons _ (by simp))) h
      obtain ⟨rfl, rfl⟩ := ihp p' hts hus (List.cons.inj h1).2
      exact ⟨rfl, rfl⟩
  | block l rs ih =>
    intro d' ts us hts hus h
    cases d' with
    | block l' rs' =>
      simp only [yield, List.cons_append, List.append_assoc] at h
      obtain ⟨rfl, h1⟩ := ih l' (l.stuck_line (Or.inr ⟨_, rfl⟩) rfl)
        (l'.stuck_line (Or.inr ⟨_, rfl⟩) rfl) (List.cons.inj h).2
      obtain ⟨rfl, rfl⟩ := redirs_inj hts hus (List.cons.inj h1).2
      exact ⟨rfl, rfl⟩
    | simple items => exact (items_lpar hus.notLpar h.symm).elim
  | simple items =>
    intro d' ts us hts hus h
    cases d' with
    | block l' rs' => exact (items_lpar hts.notLpar h).elim
    | simple items' =>
      obtain ⟨rfl, rfl⟩ := items_inj hts.notItem hus.notItem h
      exact ⟨rfl, rfl⟩

theorem Deriv.stuck_nil (d : Deriv .line) : d.Stuck [] := d.stuck_line (Or.inl rfl) rfl

theorem Deriv.unique {d d' : Deriv .line} (h : d.yield = d'.yield) : d = d' := by
  have hends : d.yield ++ [] = d'.yield ++ [] := by rw [h]
  exact (d.yield_inj d' d.stuck_nil d'.stuck_nil hends).1

end Yonix.Sh
