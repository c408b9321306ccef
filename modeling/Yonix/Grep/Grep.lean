/-
  Yonix/Grep/Grep.lean
  ====================
  **What `grep` writes (`grep.c`).**

  `grep` collects what its reads deliver in a buffer, prints the lines that match and moves
  the start of an unfinished line to the front.  The reads of a run are the list of what they
  delivered, up to the one that returns 0; there is no run when a read delivers more than it
  was asked for.

  `if(p == buf) m = 0` also holds when the buffer has no newline yet: what it has of a line is
  thrown away.  So the lines are printed as they should be for every pattern exactly when no
  read without a newline comes before one with a newline (`grep_writes_lines_iff`).
-/
import Yonix.Grep.Regex

namespace Yonix.Grep

-- `sizeof(buf)`
def BUFSIZE : Nat := 1024

/-! ### The code, on the buffer -/

/-- The string at `p`. -/
def stringAt (buf : List UInt8) (p : Nat) : List UInt8 := (buf.drop p).takeWhile (· ≠ 0)

def strchr (buf : List UInt8) (p : Nat) (c : UInt8) : Option Nat :=
  if c ∈ stringAt buf p then some (p + (stringAt buf p).idxOf c) else none

def memmove : List UInt8 → Nat → Nat → Nat → List UInt8
  | buf, _, _, 0 => buf
  | buf, dst, src, n + 1 => memmove (buf.set dst (buf.getD src 0)) (dst + 1) (src + 1) n

theorem strchr_bounds {buf : List UInt8} {p q : Nat} {c : UInt8} (h : strchr buf p c = some q) :
    p ≤ q ∧ q < buf.length := by
  unfold strchr at h
  split at h
  · rename_i hc
    cases h
    have hlt := List.idxOf_lt_length_of_mem hc
    have hle : (stringAt buf p).length ≤ (buf.drop p).length :=
      (List.takeWhile_sublist _).length_le
    rw [List.length_drop] at hle
    omega
  · cases h

/-- The inner loop, from `p`; the last component is what has been written. -/
def lines (pattern : List UInt8) (buf : List UInt8) (p : Nat) (out : List UInt8) :
    List UInt8 × Nat × List UInt8 :=
  match _h : strchr buf p NEWLINE with
  | none => (buf, p, out)
  | some q =>
    if matchRe pattern (stringAt (buf.set q 0) p) then
      let buf := (buf.set q 0).set q NEWLINE
      lines pattern buf (q + 1) (out ++ (buf.drop p).take (q + 1 - p))
    else lines pattern (buf.set q 0) (q + 1) out
termination_by buf.length - p
decreasing_by
  all_goals
    have := strchr_bounds _h
    simp only [List.length_set]
    omega

/-- What the outer loop does after a read that delivered `chunk`. -/
def round (pattern buf : List UInt8) (m : Nat) (out chunk : List UInt8) :
    List UInt8 × Nat × List UInt8 :=
  let buf := buf.take m ++ chunk ++ buf.drop (m + chunk.length)
  let m := m + chunk.length
  match lines pattern (buf.set m 0) 0 out with
  | (buf, p, out) =>
    let m := if p = 0 then 0 else m
    if 0 < m then (memmove buf 0 p (m - p), m - p, out) else (buf, m, out)

/-- The outer loop: what has been written when a read returns 0. -/
def grepLoop (pattern : List UInt8) :
    List UInt8 → Nat → List UInt8 → List (List UInt8) → Option (List UInt8)
  | _, _, out, [] => some out
  | buf, m, out, chunk :: chunks =>
    if chunk.length ≤ BUFSIZE - m - 1 then
      match round pattern buf m out chunk with
      | (buf, m, out) => grepLoop pattern buf m out chunks
    else none

def grep (pattern buf : List UInt8) (chunks : List (List UInt8)) : Option (List UInt8) :=
  grepLoop pattern buf 0 [] chunks

/-! ### Lines -/

/-- The lines that end in a newline, without it, and what follows the last of them. -/
def split : List UInt8 → List (List UInt8) × List UInt8
  | [] => ([], [])
  | c :: s =>
    if c = NEWLINE then ([] :: (split s).1, (split s).2)
    else match split s with
      | ([], r) => ([], c :: r)
      | (l :: ls, r) => ((c :: l) :: ls, r)

/-- The lines that the pattern matches, with their newlines. -/
def selected (pattern s : List UInt8) : List UInt8 :=
  ((split s).1.filter (matchRe pattern)).flatMap (· ++ [NEWLINE])

variable {pattern buf s t l r out chunk junk pre : List UInt8} {chunks : List (List UInt8)}

theorem split_rest (hs : NEWLINE ∉ s) : split s = ([], s) := by
  induction s with
  | nil => rfl
  | cons c s ih =>
    rw [List.mem_cons, not_or] at hs
    unfold split
    rw [if_neg (Ne.symm hs.1), ih hs.2]

theorem split_line (hl : NEWLINE ∉ l) :
    split (l ++ NEWLINE :: s) = (l :: (split s).1, (split s).2) := by
  induction l with
  | nil =>
    change split (NEWLINE :: s) = _
    rw [split, if_pos rfl]
  | cons c l ih =>
    rw [List.mem_cons, not_or] at hl
    rw [List.cons_append, split, if_neg (Ne.symm hl.1), ih hl.2]

theorem rest_not_mem (s : List UInt8) : NEWLINE ∉ (split s).2 := by
  induction s with
  | nil => exact List.not_mem_nil
  | cons c s ih =>
    unfold split
    split
    · exact ih
    · rename_i hc
      split
      · rename_i r hr
        rw [hr] at ih
        rw [List.mem_cons, not_or]
        exact ⟨Ne.symm hc, ih⟩
      · rename_i hr
        rw [hr] at ih
        exact ih

/-- Induction on a text by its lines. -/
theorem lines_induction {motive : List UInt8 → Prop} (rest : ∀ s, NEWLINE ∉ s → motive s)
    (line : ∀ l s, NEWLINE ∉ l → motive s → motive (l ++ NEWLINE :: s)) (s : List UInt8) :
    motive s := by
  induction hn : s.length using Nat.strongRecOn generalizing s with
  | _ n ih =>
    by_cases hs : NEWLINE ∈ s
    · obtain ⟨l, t, rfl, hl⟩ := List.eq_append_cons_of_mem hs
      have hlt : t.length < n := by
        rw [← hn, List.length_append, List.length_cons]
        omega
      exact line l t hl (ih _ hlt t rfl)
    · exact rest s hs

theorem split_append (s t : List UInt8) : split (s ++ t) =
    ((split s).1 ++ (split ((split s).2 ++ t)).1, (split ((split s).2 ++ t)).2) := by
  induction s using lines_induction with
  | rest s hs =>
    rw [split_rest hs]
    rfl
  | line l s hl ih =>
    rw [List.append_assoc, List.cons_append, split_line hl, split_line hl, ih]
    rfl

theorem selected_of_not_mem (hs : NEWLINE ∉ s) : selected pattern s = [] := by
  unfold selected
  rw [split_rest hs]
  rfl

theorem selected_append (pattern s t : List UInt8) :
    selected pattern (s ++ t) = selected pattern s ++ selected pattern ((split s).2 ++ t) := by
  unfold selected
  rw [split_append, List.filter_append, List.flatMap_append]

theorem selected_line (hl : NEWLINE ∉ l) : selected pattern (l ++ NEWLINE :: s) =
    (if matchRe pattern l then l ++ [NEWLINE] else []) ++ selected pattern s := by
  unfold selected
  rw [split_line hl, List.filter_cons]
  split <;> rfl

theorem matchRe_empty (text : List UInt8) : matchRe [] text = true := by
  cases text <;> rfl

/-- The empty pattern selects every line. -/
theorem selected_all (s : List UInt8) : selected [] s ++ (split s).2 = s := by
  induction s using lines_induction with
  | rest s hs =>
    rw [selected_of_not_mem hs, split_rest hs]
    rfl
  | line l s hl ih =>
    rw [selected_line hl, matchRe_empty, if_pos rfl, split_line hl, List.append_assoc, ih,
      List.append_assoc]
    rfl

theorem rest_length_le (s : List UInt8) : (split s).2.length ≤ s.length := by
  rw [← congrArg List.length (selected_all s), List.length_append]
  exact Nat.le_add_left _ _

theorem rest_length_lt (hs : NEWLINE ∈ s) : (split s).2.length < s.length := by
  obtain ⟨l, t, rfl, hl⟩ := List.eq_append_cons_of_mem hs
  rw [split_line hl, List.length_append, List.length_cons]
  have := rest_length_le t
  dsimp only
  omega

/-! ### What the buffer holds -/

theorem stringAt_eq (hs : 0 ∉ s) : stringAt (pre ++ (s ++ 0 :: junk)) pre.length = s := by
  unfold stringAt
  rw [List.drop_left, List.takeWhile_append_of_pos]
  · rw [List.takeWhile_cons_of_neg (by simp), List.append_nil]
  · intro c hc
    rw [decide_eq_true_eq]
    rintro rfl
    exact hs hc

theorem strchr_none (hs : 0 ∉ s) (hn : NEWLINE ∉ s) :
    strchr (pre ++ (s ++ 0 :: junk)) pre.length NEWLINE = none := by
  unfold strchr
  rw [stringAt_eq hs, if_neg hn]

theorem strchr_some (hl : 0 ∉ l) (hs : 0 ∉ s) (hn : NEWLINE ∉ l) :
    strchr (pre ++ (l ++ NEWLINE :: s ++ 0 :: junk)) pre.length NEWLINE =
      some (pre.length + l.length) := by
  have h0 : 0 ∉ l ++ NEWLINE :: s := by
    rw [List.mem_append, List.mem_cons]
    rintro (h | h | h)
    · exact hl h
    · exact absurd h (by decide)
    · exact hs h
  unfold strchr
  rw [stringAt_eq h0, if_pos (by simp), List.idxOf_append_of_notMem hn, List.idxOf_cons_self,
    Nat.add_zero]

/-- Setting the byte after `pre ++ l`. -/
theorem set_after (c d : UInt8) (t : List UInt8) :
    (pre ++ (l ++ c :: t)).set (pre.length + l.length) d = pre ++ (l ++ d :: t) := by
  rw [List.set_append_right _ _ (by omega), Nat.add_sub_cancel_left,
    List.set_append_right _ _ (by omega), Nat.sub_self, List.set_cons_zero]

/-- One line, and the inner loop goes on after it. -/
theorem lines_line (hl : 0 ∉ l) (hs : 0 ∉ s) (hn : NEWLINE ∉ l) :
    lines pattern (pre ++ (l ++ NEWLINE :: s ++ 0 :: junk)) pre.length out =
      if matchRe pattern l then
        lines pattern (pre ++ (l ++ [NEWLINE]) ++ (s ++ 0 :: junk)) (pre ++ (l ++ [NEWLINE])).length
          (out ++ (l ++ [NEWLINE]))
      else lines pattern (pre ++ (l ++ [0]) ++ (s ++ 0 :: junk)) (pre ++ (l ++ [0])).length out := by
  have hbuf (c : UInt8) : pre ++ (l ++ c :: (s ++ 0 :: junk)) =
      pre ++ (l ++ [c]) ++ (s ++ 0 :: junk) := by simp
  have hlen (c : UInt8) : (pre ++ (l ++ [c])).length = pre.length + l.length + 1 := by
    simp only [List.length_append, List.length_singleton]
    omega
  have hout : ((pre ++ (l ++ NEWLINE :: (s ++ 0 :: junk))).drop pre.length).take
      (pre.length + l.length + 1 - pre.length) = l ++ [NEWLINE] := by
    rw [List.drop_left, show pre.length + l.length + 1 - pre.length = l.length + 1 by omega,
      List.take_length_add_append]
    rfl
  rw [lines]
  split
  · rename_i hq
    rw [strchr_some hl hs hn] at hq
    cases hq
  · rename_i q hq
    rw [strchr_some hl hs hn] at hq
    cases hq
    rw [List.append_assoc, List.cons_append, set_after, stringAt_eq hl, set_after]
    dsimp only
    rw [hout, hbuf, hbuf, hlen, hlen]

/-- **The inner loop writes the selected lines and stops before the rest.** -/
theorem lines_eq (pattern junk s pre out : List UInt8) (h0 : 0 ∉ s) :
    ∃ pre', lines pattern (pre ++ (s ++ 0 :: junk)) pre.length out =
        (pre' ++ ((split s).2 ++ 0 :: junk), pre'.length, out ++ selected pattern s) ∧
      pre'.length + (split s).2.length = pre.length + s.length ∧
      (NEWLINE ∉ s → pre' = pre) := by
  induction s using lines_induction generalizing pre out with
  | rest s hs =>
    refine ⟨pre, ?_, ?_, fun _ => rfl⟩
    · rw [lines]
      split
      · rw [split_rest hs, selected_of_not_mem hs, List.append_nil]
      · rename_i q hq
        rw [strchr_none h0 hs] at hq
        cases hq
    · rw [split_rest hs]
  | line l s hl ih =>
    have hl0 : 0 ∉ l := fun h => h0 (List.mem_append_left _ h)
    have hs0 : 0 ∉ s := fun h => h0 (List.mem_append_right _ (List.mem_cons_of_mem _ h))
    rw [lines_line hl0 hs0 hl, split_line hl, selected_line hl]
    split
    · obtain ⟨pre', heq, hsum, -⟩ := ih (pre ++ (l ++ [NEWLINE])) (out ++ (l ++ [NEWLINE])) hs0
      refine ⟨pre', ?_, ?_, fun h => absurd (by simp) h⟩
      · rw [heq, List.append_assoc out]
      · simp only [List.length_append, List.length_cons, List.length_nil] at hsum ⊢
        omega
    · obtain ⟨pre', heq, hsum, -⟩ := ih (pre ++ (l ++ [0])) out hs0
      refine ⟨pre', ?_, ?_, fun h => absurd (by simp) h⟩
      · rw [heq, List.nil_append]
      · simp only [List.length_append, List.length_cons, List.length_nil] at hsum ⊢
        omega

theorem length_memmove (dst src n : Nat) : (memmove buf dst src n).length = buf.length := by
  induction n generalizing buf dst src with
  | zero => rfl
  | succ n ih => rw [memmove, ih, List.length_set]

/-- Moving bytes towards the front, one after the other. -/
theorem take_memmove (buf : List UInt8) (dst : Nat) {src n : Nat} (hle : dst ≤ src) (hlen : src + n ≤ buf.length) :
    (memmove buf dst src n).take (dst + n) = buf.take dst ++ (buf.drop src).take n := by
  induction n generalizing buf dst src with
  | zero => rw [memmove, Nat.add_zero, List.take_zero, List.append_nil]
  | succ n ih =>
    have hsrc : src < buf.length := by omega
    rw [memmove, show dst + (n + 1) = dst + 1 + n by omega,
      ih _ _ (by omega) (by rw [List.length_set]; omega), List.drop_set_of_lt (by omega),
      List.drop_eq_getElem_cons hsrc, List.take_succ_cons, List.getD_eq_getElem _ _ hsrc,
      List.take_add_one, List.take_set_of_le (by omega), List.getElem?_set_self (by omega),
      List.append_assoc]
    rfl

/-! ### The code, on texts -/

/-- What is carried over from a buffer that holds `s`. -/
def carry (s : List UInt8) : List UInt8 := if NEWLINE ∈ s then (split s).2 else []

/-- What is written when `r` is in the buffer already. -/
def scan (pattern : List UInt8) : List UInt8 → List (List UInt8) → List UInt8
  | _, [] => []
  | r, chunk :: chunks => selected pattern (r ++ chunk) ++ scan pattern (carry (r ++ chunk)) chunks

/-- No read delivers more than it was asked for when `r` is in the buffer already. -/
def Fit : List UInt8 → List (List UInt8) → Prop
  | _, [] => True
  | r, chunk :: chunks => chunk.length ≤ BUFSIZE - r.length - 1 ∧ Fit (carry (r ++ chunk)) chunks

theorem zero_not_mem_rest (hs : 0 ∉ s) : 0 ∉ (split s).2 := by
  intro h
  rw [← selected_all s] at hs
  exact hs (List.mem_append_right _ h)

theorem zero_not_mem_carry (hs : 0 ∉ s) : 0 ∉ carry s := by
  unfold carry
  split
  · exact zero_not_mem_rest hs
  · exact List.not_mem_nil

theorem carry_length_lt (hs : s.length < BUFSIZE) : (carry s).length < BUFSIZE := by
  unfold carry
  split
  · exact Nat.lt_of_le_of_lt (rest_length_le s) hs
  · decide

/-- A round writes the selected lines and carries over what it should, or nothing. -/
theorem round_eq (pattern out : List UInt8) (hbuf : buf.length = BUFSIZE) (hr : buf.take r.length = r) (h0 : 0 ∉ r ++ chunk)
    (hfit : (r ++ chunk).length < BUFSIZE) :
    ∃ buf', round pattern buf r.length out chunk =
        (buf', (carry (r ++ chunk)).length, out ++ selected pattern (r ++ chunk)) ∧
      buf'.length = BUFSIZE ∧ buf'.take (carry (r ++ chunk)).length = carry (r ++ chunk) := by
  rw [List.length_append] at hfit
  obtain ⟨c, junk, hjunk⟩ : ∃ c junk, buf.drop (r.length + chunk.length) = c :: junk := by
    apply List.exists_cons_of_length_pos
    rw [List.length_drop]
    omega
  have hset : (r ++ chunk ++ c :: junk).set (r.length + chunk.length) 0 =
      [] ++ (r ++ chunk ++ 0 :: junk) := by
    rw [List.nil_append, List.append_assoc, set_after, List.append_assoc]
  have hjlen : r.length + chunk.length + (junk.length + 1) = BUFSIZE := by
    have := congrArg List.length hjunk
    rw [List.length_drop, List.length_cons] at this
    omega
  obtain ⟨pre', heq, hsum, hpre⟩ := lines_eq pattern junk (r ++ chunk) [] out h0
  rw [List.length_nil] at heq
  unfold round
  dsimp only
  rw [hr, hjunk, hset, heq]
  dsimp only
  rw [List.length_nil, Nat.zero_add, List.length_append] at hsum
  have hlen : (pre' ++ ((split (r ++ chunk)).2 ++ 0 :: junk)).length = BUFSIZE := by
    rw [List.length_append, List.length_append, List.length_cons]
    omega
  by_cases hs : NEWLINE ∈ r ++ chunk
  · have hlt := rest_length_lt hs
    rw [List.length_append] at hlt
    have hrest : r.length + chunk.length - pre'.length = (split (r ++ chunk)).2.length := by omega
    rw [if_neg (show pre'.length ≠ 0 by omega), if_pos (by omega), carry, if_pos hs, hrest]
    refine ⟨_, rfl, ?_, ?_⟩
    · rw [length_memmove, hlen]
    · have htake := take_memmove (pre' ++ ((split (r ++ chunk)).2 ++ 0 :: junk)) 0
        (Nat.zero_le pre'.length) (n := (split (r ++ chunk)).2.length) (by omega)
      rw [Nat.zero_add, List.take_zero, List.nil_append, List.drop_left, List.take_left] at htake
      exact htake
  · have hp : pre'.length = 0 := congrArg List.length (hpre hs)
    rw [if_pos hp, if_neg (Nat.lt_irrefl 0), carry, if_neg hs]
    exact ⟨_, rfl, hlen, rfl⟩

/-- **The code writes what the reads give on texts.** -/
theorem grepLoop_eq (pattern out : List UInt8) (hbuf : buf.length = BUFSIZE) (hr : buf.take r.length = r)
    (h0 : 0 ∉ r) (hlt : r.length < BUFSIZE) (h0s : ∀ chunk ∈ chunks, 0 ∉ chunk) (hfit : Fit r chunks) :
    grepLoop pattern buf r.length out chunks = some (out ++ scan pattern r chunks) := by
  induction chunks generalizing buf r out with
  | nil => rw [grepLoop, scan, List.append_nil]
  | cons chunk chunks ih =>
    obtain ⟨hle, hfit⟩ := hfit
    have h0' : 0 ∉ r ++ chunk := by
      rw [List.mem_append, not_or]
      exact ⟨h0, h0s chunk List.mem_cons_self⟩
    have hlt' : (r ++ chunk).length < BUFSIZE := by
      rw [List.length_append]
      omega
    obtain ⟨buf', heq, hbuf', htake⟩ := round_eq pattern out hbuf hr h0' hlt'
    rw [grepLoop, if_pos hle, heq]
    dsimp only
    rw [ih _ hbuf' htake (zero_not_mem_carry h0') (carry_length_lt hlt')
      (fun c hc => h0s c (List.mem_cons_of_mem _ hc)) hfit, scan, List.append_assoc]

/-! ### Which reads lose something -/

/-- The reads of a run: they deliver something, no NUL, and no more than asked for. -/
structure Reads (chunks : List (List UInt8)) : Prop where
  nonempty : ∀ chunk ∈ chunks, chunk ≠ []
  noNul : ∀ chunk ∈ chunks, 0 ∉ chunk
  fit : Fit [] chunks

/-- No read without a newline comes before one with a newline. -/
def Kept : List (List UInt8) → Prop
  | [] => True
  | chunk :: chunks => (NEWLINE ∈ chunk ∨ NEWLINE ∉ chunks.flatten) ∧ Kept chunks

theorem grep_eq (hbuf : buf.length = BUFSIZE) (h : Reads chunks) :
    grep pattern buf chunks = some (scan pattern [] chunks) := by
  have := grepLoop_eq pattern [] hbuf (show buf.take [].length = [] from rfl) List.not_mem_nil
    (by decide) h.noNul h.fit
  rw [List.nil_append] at this
  exact this

theorem carry_of_mem (hs : NEWLINE ∈ s) : carry s = (split s).2 := if_pos hs

theorem carry_of_not_mem (hs : NEWLINE ∉ s) : carry s = [] := if_neg hs

theorem kept_of_not_mem (h : NEWLINE ∉ chunks.flatten) : Kept chunks := by
  induction chunks with
  | nil => trivial
  | cons chunk chunks ih =>
    rw [List.flatten_cons, List.mem_append, not_or] at h
    exact ⟨Or.inr h.2, ih h.2⟩

theorem scan_of_not_mem (h : NEWLINE ∉ r ++ chunks.flatten) : scan pattern r chunks = [] := by
  induction chunks generalizing r with
  | nil => rfl
  | cons chunk chunks ih =>
    rw [List.flatten_cons, ← List.append_assoc, List.mem_append, not_or] at h
    rw [scan, selected_of_not_mem h.1, carry_of_not_mem h.1, List.nil_append]
    exact ih h.2

/-- Reads that lose nothing give what the whole text gives. -/
theorem scan_eq (h : Kept chunks) (hr : NEWLINE ∉ r) :
    scan pattern r chunks = selected pattern (r ++ chunks.flatten) := by
  induction chunks generalizing r with
  | nil =>
    rw [List.flatten_nil, List.append_nil, selected_of_not_mem hr]
    rfl
  | cons chunk chunks ih =>
    obtain ⟨hchunk | hlater, h⟩ := h
    · have hmem : NEWLINE ∈ r ++ chunk := List.mem_append_right r hchunk
      rw [scan, carry_of_mem hmem, ih h (rest_not_mem _), List.flatten_cons, ← List.append_assoc,
        selected_append _ (r ++ chunk)]
    · by_cases hchunk : NEWLINE ∈ chunk
      · have hmem : NEWLINE ∈ r ++ chunk := List.mem_append_right r hchunk
        rw [scan, carry_of_mem hmem, ih h (rest_not_mem _), List.flatten_cons, ← List.append_assoc,
          selected_append _ (r ++ chunk)]
      · have hall : NEWLINE ∉ r ++ (chunk :: chunks).flatten := by
          rw [List.flatten_cons, List.mem_append, List.mem_append, not_or, not_or]
          exact ⟨hr, hchunk, hlater⟩
        rw [scan_of_not_mem hall, selected_of_not_mem hall]

/-- What comes before a text with a newline is part of its first line. -/
theorem selected_prefix (ht : NEWLINE ∉ t) (hs : NEWLINE ∈ s) :
    (selected [] (t ++ s)).length = t.length + (selected [] s).length := by
  have hall (u : List UInt8) : (selected [] u).length + (split u).2.length = u.length := by
    rw [← List.length_append, selected_all]
  have hsplit : (split (t ++ s)).2 = (split s).2 := by
    obtain ⟨l, u, rfl, hl⟩ := List.eq_append_cons_of_mem hs
    have htl : NEWLINE ∉ t ++ l := by
      rw [List.mem_append, not_or]
      exact ⟨ht, hl⟩
    rw [← List.append_assoc, split_line htl, split_line hl]
  have h₁ := hall (t ++ s)
  have h₂ := hall s
  rw [hsplit, List.length_append] at h₁
  omega

theorem selected_suffix_le (t s : List UInt8) :
    (selected [] s).length ≤ (selected [] (t ++ s)).length := by
  by_cases hs : NEWLINE ∈ s
  · have hprefix := selected_prefix (rest_not_mem t) hs
    rw [selected_append, List.length_append]
    omega
  · rw [selected_of_not_mem hs]
    exact Nat.zero_le _

theorem scan_length_le (chunks : List (List UInt8)) (r : List UInt8) :
    (scan [] r chunks).length ≤ (selected [] (r ++ chunks.flatten)).length := by
  induction chunks generalizing r with
  | nil => exact Nat.zero_le _
  | cons chunk chunks ih =>
    rw [scan, List.flatten_cons, ← List.append_assoc, selected_append _ (r ++ chunk),
      List.length_append, List.length_append]
    have hle := ih (carry (r ++ chunk))
    by_cases hn : NEWLINE ∈ r ++ chunk
    · rw [carry_of_mem hn] at hle ⊢
      omega
    · rw [carry_of_not_mem hn, List.nil_append] at hle
      rw [carry_of_not_mem hn, split_rest hn]
      have := selected_suffix_le (r ++ chunk) chunks.flatten
      dsimp only
      omega

/-- Where every line is written, nothing was lost. -/
theorem kept_of_scan (hne : ∀ chunk ∈ chunks, chunk ≠ []) (hr : NEWLINE ∉ r)
    (h : scan [] r chunks = selected [] (r ++ chunks.flatten)) : Kept chunks := by
  induction chunks generalizing r with
  | nil => trivial
  | cons chunk chunks ih =>
    rw [scan, List.flatten_cons, ← List.append_assoc, selected_append _ (r ++ chunk)] at h
    replace h := List.append_cancel_left h
    have hne' : ∀ c ∈ chunks, c ≠ [] := fun c hc => hne c (List.mem_cons_of_mem _ hc)
    by_cases hchunk : NEWLINE ∈ chunk
    · rw [carry_of_mem (List.mem_append_right r hchunk)] at h
      exact ⟨Or.inl hchunk, ih hne' (rest_not_mem _) h⟩
    · by_cases hlater : NEWLINE ∈ chunks.flatten
      · -- the first line lacks what this read delivered
        have hn : NEWLINE ∉ r ++ chunk := by
          rw [List.mem_append, not_or]
          exact ⟨hr, hchunk⟩
        have hpos : 0 < chunk.length := List.length_pos_iff.mpr (hne chunk List.mem_cons_self)
        have hle := scan_length_le chunks []
        rw [carry_of_not_mem hn, split_rest hn] at h
        rw [h, selected_prefix hn hlater, List.length_append, List.nil_append] at hle
        omega
      · exact ⟨Or.inr hlater, kept_of_not_mem hlater⟩

/-- **Every pattern gets its lines exactly when no read without a newline comes before one
    with a newline.** -/
theorem grep_writes_lines_iff (buf : List UInt8) (chunks : List (List UInt8))
    (hbuf : buf.length = BUFSIZE) (h : Reads chunks) :
    (∀ pattern, grep pattern buf chunks = some (selected pattern chunks.flatten)) ↔ Kept chunks := by
  constructor
  · intro hall
    have hnil := hall []
    rw [grep_eq hbuf h, Option.some_inj] at hnil
    exact kept_of_scan h.nonempty List.not_mem_nil hnil
  · intro hkept pattern
    rw [grep_eq hbuf h, scan_eq hkept List.not_mem_nil]
    rfl

theorem reads_joined : Reads [[97, NEWLINE, 98], [99, NEWLINE]] := by
  refine ⟨by decide, by decide, ?_, ?_, trivial⟩ <;> decide

/-- An unfinished line after a newline is carried over. -/
theorem grep_writes_joined_line :
    grep [98] (List.replicate BUFSIZE 0) [[97, NEWLINE, 98], [99, NEWLINE]] =
      some (selected [98] [97, NEWLINE, 98, 99, NEWLINE]) :=
  (grep_writes_lines_iff _ _ List.length_replicate reads_joined).mpr
    ⟨Or.inl (by decide), Or.inl (by decide), trivial⟩ [98]

/-- The `a` of the line `ab` arrives alone: it is thrown away, and the line is not found. -/
theorem grep_loses_lone_chunk :
    Reads [[97], [98, NEWLINE]] ∧
      grep [97] (List.replicate BUFSIZE 0) [[97], [98, NEWLINE]] = some [] ∧
      selected [97] [97, 98, NEWLINE] = [97, 98, NEWLINE] := by
  have h : Reads [[97], [98, NEWLINE]] := by
    refine ⟨by decide, by decide, ?_, ?_, trivial⟩ <;> decide
  refine ⟨h, ?_, by decide⟩
  rw [grep_eq List.length_replicate h]
  decide

end Yonix.Grep
