/-
  Yonix/Grep/Regex.lean
  =====================
  **The regular-expression matcher (`grep.c`).**

  A string is the list of its bytes before the NUL, so reading the NUL is finding `[]`.
  `matchstar` calls back `matchhere` with what follows the star; here it is handed that
  function.  All recursion is on the two strings, so every call returns.

  `items` reads an expression into a list of items, each a character, a starred character
  or the end of the text, and `Matches` says what a list of items matches.  `matchRe`, the
  `match` of the source, finds out whether a substring is matched, or a prefix after `^`.
-/
import Yonix.Param

namespace Yonix.Grep

def CARET : UInt8 := 94
def DOT : UInt8 := 46
def STAR : UInt8 := 42
def DOLLAR : UInt8 := 36
def NEWLINE : UInt8 := 10

/-! ### The matcher -/

/-- `matchstar`, with `matchhere` of the rest of the expression. -/
def matchstar (here : List UInt8 → Bool) (c : UInt8) : List UInt8 → Bool
  | [] => here []
  | x :: text => here (x :: text) || (x == c || c == DOT) && matchstar here c text

/-- One character of the text, and then the rest. -/
def matchchar (here : List UInt8 → Bool) (c : UInt8) : List UInt8 → Bool
  | [] => false
  | x :: text => (c == DOT || c == x) && here text

def matchhere : List UInt8 → List UInt8 → Bool
  | [], _ => true
  | [c], text => if c = DOLLAR then text.isEmpty else matchchar (matchhere []) c text
  | c :: d :: re, text =>
    if d = STAR then matchstar (matchhere re) c text else matchchar (matchhere (d :: re)) c text

/-- The loop of `match`, which looks at the empty string as well. -/
def matchany (re : List UInt8) : List UInt8 → Bool
  | [] => matchhere re []
  | x :: text => matchhere re (x :: text) || matchany re text

def matchRe (re text : List UInt8) : Bool :=
  match re with
  | [] => matchany [] text
  | c :: re => if c = CARET then matchhere re text else matchany (c :: re) text

/-! ### What an expression means -/

inductive Item where
  | one (c : UInt8)
  | star (c : UInt8)
  /-- the end of the text -/
  | eol
deriving DecidableEq

/-- The items of an expression, from left to right. -/
def items : List UInt8 → List Item
  | [] => []
  | [c] => if c = DOLLAR then [.eol] else [.one c]
  | c :: d :: re => if d = STAR then .star c :: items re else .one c :: items (d :: re)

/-- The character `c` of an expression stands for `x`. -/
def Accepts (c x : UInt8) : Prop := c = DOT ∨ x = c

instance (c x : UInt8) : Decidable (Accepts c x) := inferInstanceAs (Decidable (_ ∨ _))

/-- The items match `w` where `rest` follows it. -/
inductive Matches : List Item → List UInt8 → List UInt8 → Prop where
  | nil (rest : List UInt8) : Matches [] [] rest
  | one {c x : UInt8} {is : List Item} {w rest : List UInt8} (hx : Accepts c x)
      (h : Matches is w rest) : Matches (.one c :: is) (x :: w) rest
  | star {c : UInt8} {is : List Item} {w rest : List UInt8} (xs : List UInt8)
      (hxs : ∀ x ∈ xs, Accepts c x) (h : Matches is w rest) : Matches (.star c :: is) (xs ++ w) rest
  | eol {is : List Item} (h : Matches is [] []) : Matches (.eol :: is) [] []

/-- A prefix of the text is matched. -/
def MatchesHere (is : List Item) (text : List UInt8) : Prop :=
  ∃ w rest, text = w ++ rest ∧ Matches is w rest

/-- A substring of the text is matched. -/
def MatchesIn (is : List Item) (text : List UInt8) : Prop :=
  ∃ u w rest, text = u ++ w ++ rest ∧ Matches is w rest

/-! ### The items one by one -/

variable {is : List Item} {here : List UInt8 → Bool} {c : UInt8} {re text : List UInt8}

theorem matchesHere_nil (text : List UInt8) : MatchesHere [] text := ⟨[], text, rfl, Matches.nil text⟩

theorem matchesHere_eol : MatchesHere [.eol] text ↔ text = [] := by
  constructor
  · rintro ⟨w, rest, rfl, h⟩
    cases h
    rfl
  · rintro rfl
    exact ⟨[], [], rfl, Matches.eol (Matches.nil [])⟩

theorem not_matchesHere_one_nil : ¬ MatchesHere (.one c :: is) [] := by
  rintro ⟨w, rest, htext, h⟩
  cases h
  cases htext

theorem matchesHere_one {x : UInt8} :
    MatchesHere (.one c :: is) (x :: text) ↔ Accepts c x ∧ MatchesHere is text := by
  constructor
  · rintro ⟨w, rest, htext, h⟩
    cases h with
    | one hx h =>
      obtain ⟨rfl, rfl⟩ := List.cons.inj htext
      exact ⟨hx, _, rest, rfl, h⟩
  · rintro ⟨hx, w, rest, rfl, h⟩
    exact ⟨x :: w, rest, rfl, Matches.one hx h⟩

/-- A star matches nothing, or a character and then again. -/
theorem matchesHere_star_nil : MatchesHere (.star c :: is) [] ↔ MatchesHere is [] := by
  constructor
  · rintro ⟨w, rest, htext, h⟩
    cases h with
    | star xs hxs h =>
      rename_i w
      obtain ⟨hw, rfl⟩ := List.append_eq_nil_iff.mp htext.symm
      obtain ⟨rfl, rfl⟩ := List.append_eq_nil_iff.mp hw
      exact ⟨[], [], rfl, h⟩
  · rintro ⟨w, rest, htext, h⟩
    exact ⟨w, rest, htext, Matches.star [] (by simp) h⟩

theorem matchesHere_star {x : UInt8} : MatchesHere (.star c :: is) (x :: text) ↔
    MatchesHere is (x :: text) ∨ Accepts c x ∧ MatchesHere (.star c :: is) text := by
  constructor
  · rintro ⟨w, rest, htext, h⟩
    cases h with
    | star xs hxs h =>
      rename_i w
      cases xs with
      | nil => exact Or.inl ⟨w, rest, htext, h⟩
      | cons y xs =>
        obtain ⟨rfl, rfl⟩ := List.cons.inj htext
        right
        refine ⟨hxs x List.mem_cons_self, xs ++ w, rest, rfl, ?_⟩
        exact Matches.star xs (fun z hz => hxs z (List.mem_cons_of_mem _ hz)) h
  · rintro (⟨w, rest, htext, h⟩ | ⟨hx, w, rest, rfl, h⟩)
    · exact ⟨w, rest, htext, Matches.star [] (by simp) h⟩
    · cases h with
      | star xs hxs h =>
        refine ⟨x :: xs ++ _, rest, rfl, Matches.star (x :: xs) ?_ h⟩
        intro z hz
        rcases List.mem_cons.mp hz with rfl | hz
        · exact hx
        · exact hxs z hz

/-! ### The matcher is right -/

theorem matchchar_iff (hhere : ∀ text, here text = true ↔ MatchesHere is text) :
    matchchar here c text = true ↔ MatchesHere (.one c :: is) text := by
  cases text with
  | nil => exact iff_of_false (by simp [matchchar]) not_matchesHere_one_nil
  | cons x text =>
    rw [matchesHere_one, ← hhere]
    unfold matchchar Accepts
    rw [Bool.and_eq_true, Bool.or_eq_true, beq_iff_eq, beq_iff_eq]
    exact and_congr_left fun _ => or_congr_right eq_comm

theorem matchstar_iff (hhere : ∀ text, here text = true ↔ MatchesHere is text) :
    matchstar here c text = true ↔ MatchesHere (.star c :: is) text := by
  induction text with
  | nil =>
    rw [matchesHere_star_nil]
    exact hhere []
  | cons x text ih =>
    rw [matchesHere_star, ← hhere, ← ih]
    unfold Accepts
    change (here (x :: text) || (x == c || c == DOT) && matchstar here c text) = true ↔ _
    rw [Bool.or_eq_true, Bool.and_eq_true, Bool.or_eq_true, beq_iff_eq, beq_iff_eq]
    exact or_congr_right (and_congr_left fun _ => or_comm)

theorem matchhere_iff (re : List UInt8) :
    ∀ text, matchhere re text = true ↔ MatchesHere (items re) text := by
  induction re using items.induct with
  | case1 => exact fun text => iff_of_true rfl (matchesHere_nil text)
  | case2 =>
    intro text
    change (if DOLLAR = DOLLAR then text.isEmpty else _) = true ↔
      MatchesHere (if DOLLAR = DOLLAR then _ else _) text
    rw [if_pos rfl, if_pos rfl, matchesHere_eol, List.isEmpty_iff]
  | case3 c hc =>
    intro text
    unfold matchhere items
    rw [if_neg hc, if_neg hc]
    exact matchchar_iff fun text => iff_of_true rfl (matchesHere_nil text)
  | case4 c re ih =>
    intro text
    unfold matchhere items
    rw [if_pos rfl, if_pos rfl]
    exact matchstar_iff ih
  | case5 c d re hd ih =>
    intro text
    unfold matchhere items
    rw [if_neg hd, if_neg hd]
    exact matchchar_iff ih

theorem matchesIn_nil : MatchesIn is [] ↔ MatchesHere is [] := by
  constructor
  · rintro ⟨u, w, rest, htext, h⟩
    obtain ⟨huw, rfl⟩ := List.append_eq_nil_iff.mp htext.symm
    obtain ⟨-, rfl⟩ := List.append_eq_nil_iff.mp huw
    exact ⟨[], [], rfl, h⟩
  · rintro ⟨w, rest, htext, h⟩
    exact ⟨[], w, rest, htext, h⟩

theorem matchesIn_cons {x : UInt8} :
    MatchesIn is (x :: text) ↔ MatchesHere is (x :: text) ∨ MatchesIn is text := by
  constructor
  · rintro ⟨u, w, rest, htext, h⟩
    cases u with
    | nil => exact Or.inl ⟨w, rest, htext, h⟩
    | cons y u =>
      obtain ⟨rfl, rfl⟩ := List.cons.inj htext
      exact Or.inr ⟨u, w, rest, rfl, h⟩
  · rintro (⟨w, rest, htext, h⟩ | ⟨u, w, rest, rfl, h⟩)
    · exact ⟨[], w, rest, htext, h⟩
    · exact ⟨x :: u, w, rest, rfl, h⟩

theorem matchany_iff : matchany re text = true ↔ MatchesIn (items re) text := by
  induction text with
  | nil =>
    rw [matchesIn_nil, ← matchhere_iff]
    rfl
  | cons x text ih =>
    rw [matchesIn_cons, ← matchhere_iff, ← ih]
    change (matchhere re (x :: text) || matchany re text) = true ↔ _
    rw [Bool.or_eq_true]

/-- **The matcher finds a substring that the items match, or a prefix after `^`.** -/
theorem matchRe_iff (re text : List UInt8) : matchRe re text = true ↔
    if re.head? = some CARET then MatchesHere (items re.tail) text else MatchesIn (items re) text := by
  cases re with
  | nil => exact matchany_iff
  | cons c re =>
    unfold matchRe
    simp only [List.head?_cons, Option.some_inj, List.tail_cons]
    split
    · exact matchhere_iff re text
    · exact matchany_iff

end Yonix.Grep
