/-
  Yonix/Console/History.lean
  ==========================
  **The command history of the console.**

  A line that is completed is looked for at `&input.buf[input.r]`, as a string.  It is found
  there when the line, its newline and a NUL that nothing was ever written to lie inside the
  buffer, with the read index as it is; that ends when 128 characters have been typed.  And a
  line that the last entry begins with is taken for that entry.

  In every run that keeps away from both, whatever is edited and recalled, each completed
  line is stored, and `KEY_UP` brings the stored lines back from the last one on
  (`history_records`).
-/
import Yonix.Console.Ring

namespace Yonix.Console

open Fifo

/-! ### What the history should be -/

/-- The console with the lines that were completed, those that repeat the last one left
    out. -/
structure Session where
  input : Input
  lines : List (List UInt8)

/-- The key completes the line. -/
def Input.Completes (s : Input) (c : UInt8) : Prop :=
  s.dialogue = none ∧ (c = newline ∨ c = creturn)

instance (s : Input) (c : UInt8) : Decidable (s.Completes c) := inferInstanceAs (Decidable (_ ∧ _))

def remember (lines : List (List UInt8)) (l : List UInt8) : List (List UInt8) :=
  if l = [] ∨ lines.getLast? = some l then lines else lines ++ [l]

def Session.remembered (x : Session) : Act → List (List UInt8)
  | .key c _ => if x.input.Completes c then remember x.lines x.input.line else x.lines
  | _ => x.lines

def Session.exec (x : Session) (a : Act) : Except Fault Session := do
  let s ← x.input.exec a
  return ⟨s, x.remembered a⟩

/-- Keys arrive when all lines were read, lines are shorter than the buffer, and no `^D` ends
    the input. -/
def Input.Typing (s : Input) : Act → Prop
  | .key c _ => s.r = s.w ∧ c ≠ ctrl 'D' ∧ (s.Completes c ∨ s.line.length + 1 < INPUT_BUF)
  | _ => True

/-- A completed line lies inside the buffer with a NUL behind it, and the last entry does not
    go on where it ends. -/
def Session.Sits (x : Session) : Act → Prop
  | .key c _ => x.input.Completes c →
    x.input.r + x.input.line.length + 1 < INPUT_BUF ∧
      x.input.buf (x.input.r + x.input.line.length + 1) = 0 ∧
      (x.input.line ≠ [] →
        ∀ last, x.lines.getLast? = some last → x.input.line <+: last → last = x.input.line)
  | _ => True

def Session.Step (x : Session) (a : Act) (y : Session) : Prop :=
  x.exec a = .ok y ∧ x.input.Typing a ∧ x.Sits a

/-- The line is stored if the last entry differs, and nothing outside the buffer is read. -/
def Input.Records (s : Input) (a : Act) (t : Input) : Prop :=
  match a with
  | .key c str => s.Completes c →
    s.r + str.length < INPUT_BUF ∧
      (s.line ≠ [] → s.command (dist s.n 1) ≠ .ok s.line →
        t.n = (s.n + 1) % 2 ^ 32 ∧ t.command s.n = .ok s.line)
  | _ => True

/-- After a line was completed and read, `KEY_UP` pressed `k` times leaves the line stored
    `k` lines ago in the edit region. -/
def Session.Recalls (x : Session) : Prop :=
  x.input.r = x.input.w → x.input.dialogue = none → x.input.c = x.input.n + 1 →
    ∀ k, 1 ≤ k → k ≤ x.lines.length → k ≤ CMD_BUF →
      ∃ t l, (List.replicate k (Act.key KEY_UP [])).foldlM Input.exec x.input = .ok t ∧
        x.lines[x.lines.length - k]? = some l ∧ t.line = l ∧
        pending t.buf INPUT_BUF t.w (dist t.e t.w) = l

/-! ### Strings -/

section Strings

variable {cmd : Nat → UInt8} {l p str : List UInt8} {i j k : Nat} {c : UInt8}

/-- The string `l` is at offset `i`. -/
def StringAt (cmd : Nat → UInt8) (i : Nat) (l : List UInt8) : Prop :=
  0 ∉ l ∧ ∀ j ≤ l.length, cmd (i + j) = (l ++ [0]).getD j 0

theorem string_eq (h : StringAt cmd i l) (hk : l.length < k) : string cmd k i = .ok l := by
  induction l generalizing i k with
  | nil =>
    obtain ⟨k, rfl⟩ : ∃ n, k = n + 1 := ⟨k - 1, by omega⟩
    have h0 : cmd i = 0 := h.2 0 (Nat.le_refl 0)
    rw [string, if_pos h0]
  | cons a l ih =>
    rw [List.length_cons] at hk
    obtain ⟨k, rfl⟩ : ∃ n, k = n + 1 := ⟨k - 1, by omega⟩
    obtain ⟨hnul, hbytes⟩ := h
    rw [List.mem_cons, not_or] at hnul
    have ha : cmd i = a := hbytes 0 (Nat.zero_le _)
    have hrest : string cmd k (i + 1) = .ok l := by
      refine ih ⟨hnul.2, fun j hj => ?_⟩ (by omega)
      have := hbytes (j + 1) (by rw [List.length_cons]; omega)
      rwa [show i + (j + 1) = i + 1 + j by omega, List.cons_append, List.getD_cons_succ] at this
    rw [string, if_neg (by rw [ha]; exact Ne.symm hnul.1), hrest, ha]
    rfl

theorem store_apply (l : List UInt8) : ∀ (cmd : Nat → UInt8) (i j : Nat),
    store cmd i l j = if i ≤ j ∧ j < i + l.length then l.getD (j - i) 0 else cmd j := by
  induction l with
  | nil =>
    intro cmd i j
    rw [store, if_neg (by rw [List.length_nil]; omega)]
  | cons a l ih =>
    intro cmd i j
    rw [store, ih, List.length_cons]
    by_cases hin : i + 1 ≤ j ∧ j < i + 1 + l.length
    · rw [if_pos hin, if_pos (by omega), show j - i = j - (i + 1) + 1 by omega, List.getD_cons_succ]
    · rw [if_neg hin]
      by_cases hij : j = i
      · subst hij
        rw [Function.update_self, if_pos (by omega), Nat.sub_self]
        rfl
      · rw [Function.update_of_ne hij, if_neg (by omega)]

/-- The string that was stored. -/
theorem stringAt_store (hl : 0 ∉ l) : StringAt (store cmd i (l ++ [0])) i l := by
  refine ⟨hl, fun j hj => ?_⟩
  rw [store_apply, if_pos (by rw [List.length_append, List.length_singleton]; omega),
    Nat.add_sub_cancel_left]

/-- A string that ends before it, or begins behind it. -/
theorem StringAt.store (h : StringAt cmd i l) {m : Nat} {q : List UInt8}
    (hout : i + l.length < m ∨ m + q.length ≤ i) : StringAt (store cmd m q) i l := by
  refine ⟨h.1, fun j hj => ?_⟩
  rw [store_apply, if_neg (by omega)]
  exact h.2 j hj

/-- The line is compared with the beginning of the last entry. -/
theorem strncmp_eq_false_iff (l : List UInt8) : ∀ p, strncmp p (l ++ [c]) l.length = false ↔ l <+: p := by
  induction l with
  | nil =>
    intro p
    refine iff_of_true ?_ (List.nil_prefix)
    unfold strncmp
    rfl
  | cons a l ih =>
    intro p
    cases p with
    | nil => exact iff_of_false (by simp [strncmp]) (by simp)
    | cons b p =>
      rw [List.cons_append, List.length_cons, strncmp, Bool.or_eq_false_iff, ih, List.cons_prefix_cons]
      refine and_congr_left fun _ => ?_
      rw [decide_eq_false_iff_not, not_not]
      exact eq_comm

theorem getD_terminated (l : List UInt8) {j : Nat} (hj : j < l.length) :
    (l ++ [0]).getD j 0 = l.get ⟨j, hj⟩ := by
  rw [List.getD_eq_getElem?_getD, List.getElem?_append_left hj, List.getElem?_eq_getElem hj]
  rfl

theorem getD_end (l : List UInt8) : (l ++ [0]).getD l.length 0 = 0 := by
  rw [List.getD_eq_getElem?_getD, List.getElem?_append_right (Nat.le_refl _), Nat.sub_self]
  rfl

/-- A string that ends inside the buffer is the one that is found. -/
theorem found_eq {s : Input} (h : StringAt s.buf s.r l) (hin : s.r + l.length < INPUT_BUF)
    (hf : s.found str) : str = l := by
  obtain ⟨hnul, hbytes⟩ := hf
  have hsame : ∀ i ≤ l.length, i ≤ str.length → (str ++ [0]).getD i 0 = (l ++ [0]).getD i 0 := by
    intro i hi hi'
    rw [← hbytes i (by omega) (by omega)]
    exact h.2 i hi
  have hlen : str.length = l.length := by
    rcases Nat.lt_trichotomy str.length l.length with hlt | heq | hlt
    · have := hsame str.length hlt.le (Nat.le_refl _)
      rw [getD_end, getD_terminated l hlt] at this
      exact absurd (this ▸ List.get_mem l ⟨_, hlt⟩) h.1
    · exact heq
    · have := hsame l.length (Nat.le_refl _) hlt.le
      rw [getD_end, getD_terminated str hlt] at this
      exact absurd this (hnul _ (List.get_mem str ⟨_, hlt⟩))
  refine List.ext_getElem hlen fun i h1 h2 => ?_
  have := hsame i h2.le h1.le
  rwa [getD_terminated str h1, getD_terminated l h2] at this

theorem StringAt.found {s : Input} (h : StringAt s.buf s.r l) : s.found l := by
  refine ⟨fun a ha h0 => h.1 (h0 ▸ ha), fun i hi _ => h.2 i (Nat.lt_succ_iff.mp hi)⟩

end Strings

/-! ### The table -/

section Table

variable {s t : Input} {lines : List (List UInt8)} {l : List UInt8} {i : Nat}

/-- What a line is made of. -/
structure Clean (l : List UInt8) : Prop where
  nul : 0 ∉ l
  nl : newline ∉ l
  eof : ctrl 'D' ∉ l

/-- A line that can be stored. -/
structure Plain (l : List UInt8) : Prop extends Clean l where
  short : l.length + 1 < INPUT_BUF

/-- The table has the lines, as far as they are not stored over. -/
structure Table (s : Input) (lines : List (List UInt8)) : Prop where
  n : s.n = lines.length
  plain : ∀ l ∈ lines, Plain l
  slot : ∀ i < lines.length, ∃ l ∈ lines, StringAt s.cmd (INPUT_BUF * (i % CMD_BUF)) l ∧
    (lines.length ≤ i + CMD_BUF → lines[i]? = some l)
  -- the entry before the first one
  none : lines = [] → StringAt s.cmd (INPUT_BUF * 15) []

theorem Plain.command (h : Plain l) (hs : StringAt s.cmd (INPUT_BUF * (i % CMD_BUF)) l) :
    s.command i = .ok l := by
  have hlt : i % CMD_BUF < CMD_BUF := Nat.mod_lt i (by decide)
  have hshort := h.short
  unfold INPUT_BUF CMD_BUF at *
  exact string_eq hs (by unfold INPUT_BUF CMD_BUF; omega)

theorem plain_nil : Plain [] :=
  ⟨⟨List.not_mem_nil, List.not_mem_nil, List.not_mem_nil⟩, by decide⟩

theorem Table.congr (h : Table s lines) (hcmd : t.cmd = s.cmd) (hn : t.n = s.n) : Table t lines := by
  refine ⟨hn.trans h.n, h.plain, ?_, ?_⟩ <;> rw [hcmd]
  · exact h.slot
  · exact h.none

theorem Table.command (h : Table s lines) (hi : i < lines.length) :
    ∃ l ∈ lines, s.command i = .ok l ∧ (lines.length ≤ i + CMD_BUF → lines[i]? = some l) := by
  obtain ⟨l, hl, hs, hlast⟩ := h.slot i hi
  exact ⟨l, hl, (h.plain l hl).command hs, hlast⟩

/-- The last entry, or an empty one. -/
theorem Table.last (h : Table s lines) (hlen : lines.length < 2 ^ 32) :
    s.command (dist s.n 1) = .ok (lines.getLast?.getD []) := by
  rcases List.eq_nil_or_concat' lines with rfl | ⟨init, l, rfl⟩
  · have hn : dist s.n 1 = 2 ^ 32 - 1 := by
      rw [h.n]
      unfold dist
      rfl
    rw [hn]
    exact plain_nil.command (h.none rfl)
  · have hn : dist s.n 1 = init.length := by
      rw [h.n]
      rw [List.length_append, List.length_singleton] at hlen ⊢
      unfold dist
      omega
    rw [hn]
    obtain ⟨l', -, hcommand, hlast⟩ := h.command (i := init.length) (by simp)
    have hlen' : (init ++ [l]).length ≤ init.length + CMD_BUF := by
      rw [List.length_append, List.length_singleton]
      exact Nat.add_le_add_left (by decide) _
    have := hlast hlen'
    rw [List.getElem?_concat_length] at this
    cases this
    rw [hcommand, List.getLast?_concat]
    rfl

/-- A line is stored in the next slot. -/
theorem Table.stored (h : Table s lines) (hl : Plain l) (hlen : lines.length + 1 < 2 ^ 32)
    (hcmd : t.cmd = store s.cmd (INPUT_BUF * (s.n % CMD_BUF)) (l ++ [0]))
    (hn : t.n = (s.n + 1) % 2 ^ 32) : Table t (lines ++ [l]) ∧ t.command s.n = .ok l := by
  have hnew : StringAt t.cmd (INPUT_BUF * (s.n % CMD_BUF)) l := by
    rw [hcmd]
    exact stringAt_store hl.nul
  refine ⟨⟨?_, ?_, ?_, ?_⟩, hl.command hnew⟩
  · rw [hn, h.n, List.length_append, List.length_singleton]
    exact Nat.mod_eq_of_lt hlen
  · intro q hq
    rcases List.mem_append.mp hq with hq | hq
    · exact h.plain q hq
    · rw [List.mem_singleton.mp hq]
      exact hl
  · intro i hi
    rw [List.length_append, List.length_singleton] at hi ⊢
    by_cases hslot : i % CMD_BUF = s.n % CMD_BUF
    · refine ⟨l, by simp, hslot ▸ hnew, fun hlast => ?_⟩
      have hi' : i = lines.length := by
        rw [h.n] at hslot
        unfold CMD_BUF at *
        omega
      rw [hi', List.getElem?_concat_length]
    · have hi' : i < lines.length := by
        rcases Nat.lt_or_ge i lines.length with hlt | hge
        · exact hlt
        · exact absurd (by rw [h.n, show i = lines.length by omega]) hslot
      obtain ⟨q, hq, hs, hlast⟩ := h.slot i hi'
      refine ⟨q, List.mem_append_left _ hq, ?_, fun hle => ?_⟩
      · have hqshort := (h.plain q hq).short
        have hlshort := hl.short
        rw [hcmd]
        refine hs.store ?_
        rw [List.length_append, List.length_singleton]
        unfold INPUT_BUF at *
        omega
      · rw [List.getElem?_append_left hi']
        exact hlast (by omega)
  · intro hnil
    exact absurd hnil (by simp)

/-- What `consoleintr` does with the line when it is found. -/
theorem Table.save (h : Table s lines) (hl : Plain l) (hlen : lines.length + 1 < 2 ^ 32)
    (hlast : l ≠ [] → ∀ last, lines.getLast? = some last → l <+: last → last = l) :
    ∃ t, s.save (l ++ [newline]) = .ok t ∧ Table t (remember lines l) ∧
      (l ≠ [] → s.command (dist s.n 1) ≠ .ok l → t.n = (s.n + 1) % 2 ^ 32 ∧ t.command s.n = .ok l) := by
  have hcommand := h.last (Nat.lt_of_succ_lt hlen)
  unfold Input.save remember
  by_cases hnil : l = []
  · subst hnil
    refine ⟨s, rfl, ?_, fun hne => absurd rfl hne⟩
    rw [if_pos (Or.inl rfl)]
    exact h
  · have hpos := List.length_pos_iff.mpr hnil
    have hlong : ¬ (l ++ [newline]).length ≤ 1 := by
      rw [List.length_append, List.length_singleton]
      omega
    have hlength : (l ++ [newline]).length - 1 = l.length := by
      rw [List.length_append, List.length_singleton, Nat.add_sub_cancel]
    rw [if_neg hlong]
    by_cases hprefix : l <+: lines.getLast?.getD []
    · -- the last entry is the line
      obtain ⟨last, hsome⟩ : ∃ last, lines.getLast? = some last := by
        rcases hx : lines.getLast? with _ | last
        · rw [hx] at hprefix
          exact absurd (List.prefix_nil.mp hprefix) hnil
        · exact ⟨last, rfl⟩
      rw [hsome] at hprefix hcommand
      obtain rfl := hlast hnil last hsome hprefix
      refine ⟨s, bind_eq_ok.mpr ⟨_, hcommand, ?_⟩, ?_, fun _ hne => absurd hcommand hne⟩
      · rw [hlength, if_pos ((strncmp_eq_false_iff _ _).mpr hprefix)]
        rfl
      · rw [if_pos (Or.inr hsome)]
        exact h
    · have hdiffers : lines.getLast? ≠ some l := by
        intro hsome
        rw [hsome] at hprefix
        exact hprefix (List.prefix_refl l)
      have hroom : ¬ INPUT_BUF * CMD_BUF < INPUT_BUF * (s.n % CMD_BUF) + (l ++ [newline]).length := by
        have hshort := hl.short
        have hlt : s.n % CMD_BUF < CMD_BUF := Nat.mod_lt _ (by decide)
        rw [List.length_append, List.length_singleton]
        unfold INPUT_BUF CMD_BUF at *
        omega
      obtain ⟨htable, hstored⟩ := h.stored (t := { s with
        cmd := store s.cmd (INPUT_BUF * (s.n % CMD_BUF)) (l ++ [0]), n := (s.n + 1) % 2 ^ 32 })
        hl hlen rfl rfl
      refine ⟨_, bind_eq_ok.mpr ⟨_, hcommand, ?_⟩, ?_, fun _ _ => ⟨rfl, hstored⟩⟩
      · rw [hlength, if_neg (fun hcmp => hprefix ((strncmp_eq_false_iff _ _).mp hcmp))]
        dsimp only
        rw [if_neg hroom, List.dropLast_concat]
        rfl
      · rw [if_neg (not_or.mpr ⟨hnil, hdiffers⟩)]
        exact htable

end Table

/-! ### Keys -/

section Keys

variable {s s' : Input} {c : UInt8} {str l : List UInt8} {b m k i : Nat} {t : List UInt8}

theorem clear_eq (n : Nat) : ∀ s : Input, ∃ e l, s.clear n = { s with e := e, line := l } ∧ l <+: s.line := by
  induction n with
  | zero => exact fun s => ⟨s.e, s.line, rfl, List.prefix_refl _⟩
  | succ n ih =>
    intro s
    rw [Input.clear]
    split
    · exact ⟨s.e, s.line, rfl, List.prefix_refl _⟩
    · obtain ⟨e, l, heq, hl⟩ := ih s.erase
      rw [heq]
      obtain ⟨d, -, herase⟩ := erase_eq s
      rw [herase] at hl ⊢
      exact ⟨e, l, rfl, hl.trans (List.dropLast_prefix s.line)⟩

theorem puts_eq (l : List UInt8) : ∀ s : Input, ∃ buf e,
    l.foldl Input.put s = { s with buf := buf, e := e, line := s.line ++ l } := by
  induction l with
  | nil =>
    intro s
    rw [List.append_nil]
    exact ⟨s.buf, s.e, rfl⟩
  | cons a l ih =>
    intro s
    obtain ⟨buf, e, heq⟩ := ih (s.put a)
    rw [List.foldl_cons, heq]
    refine ⟨buf, e, ?_⟩
    change { s with buf := buf, e := e, line := s.line ++ [a] ++ l } = _
    rw [List.append_assoc]
    rfl

/-- A key that does not complete a line, nor fill the buffer. -/
structure Edits (s : Input) (c : UInt8) (s' : Input) : Prop where
  cmd : s'.cmd = s.cmd
  n : s'.n = s.n
  r : s'.r = s.r
  w : s'.w = s.w
  log : s'.log = s.log
  readers : s'.readers = s.readers
  index : s'.c ≤ s.n + 1
  line : ∀ a ∈ s'.line, a ∈ s.line ∨ a = c ∧ c ≠ 0 ∧ c ≠ newline ∨
    ∃ i l, 1 ≤ i ∧ i ≤ s.n ∧ s.recalled i = .ok l ∧ a ∈ l

theorem recall_edits (h : s.recall i = .ok s') (h1 : 1 ≤ i) (hi : i ≤ s.n) : Edits s c s' := by
  obtain ⟨l, hl, h⟩ := bind_eq_ok.mp h
  cases h
  obtain ⟨e, q, hclear, hq⟩ := clear_eq (dist s.e s.w) s
  have hclear' : s.clearLine = { s with e := e, line := q } := hclear
  rw [hclear']
  obtain ⟨buf, e', heq⟩ := puts_eq l { s with e := e, line := q, c := i }
  rw [heq]
  refine ⟨rfl, rfl, rfl, rfl, rfl, rfl, Nat.le_succ_of_le hi, ?_⟩
  intro a ha
  rcases List.mem_append.mp ha with ha | ha
  · exact Or.inl (hq.subset ha)
  · exact Or.inr (Or.inr ⟨i, l, h1, hi, hl, ha⟩)

theorem typed_edits (hring : Ring s b t 0 m k) (hk : k + 1 < INPUT_BUF) (hn : c ≠ newline)
    (hr : c ≠ creturn) (hD : c ≠ ctrl 'D') (hidx : s.c ≤ s.n + 1) (h : s.typed c str = .ok s') :
    Edits s c s' := by
  unfold Input.typed at h
  split at h
  · rename_i hc
    have hfull : (s.put c).e ≠ ((s.put c).r + INPUT_BUF) % 2 ^ 32 := by
      change (s.e + 1) % 2 ^ 32 ≠ (s.r + INPUT_BUF) % 2 ^ 32
      rw [hring.e, hring.r]
      unfold INPUT_BUF at *
      omega
    dsimp only at h
    rw [if_neg (not_or.mpr ⟨hn, not_or.mpr ⟨hD, hfull⟩⟩)] at h
    cases h
    refine ⟨rfl, rfl, rfl, rfl, rfl, rfl, hidx, ?_⟩
    intro a ha
    rcases List.mem_append.mp ha with ha | ha
    · exact Or.inl ha
    · exact Or.inr (Or.inl ⟨List.mem_singleton.mp ha, hc.1, hn⟩)
  · cases h
    exact ⟨rfl, rfl, rfl, rfl, rfl, rfl, hidx, fun a ha => Or.inl ha⟩

theorem intr_edits (hring : Ring s b t 0 m k) (hk : k + 1 < INPUT_BUF) (hno : ¬ s.Completes c)
    (hD : c ≠ ctrl 'D') (hidx : s.c ≤ s.n + 1) (h : s.intr c str = .ok s') : Edits s c s' := by
  have hsame : ∀ d : Option UInt8, Edits s c { s with dialogue := d } := fun d =>
    ⟨rfl, rfl, rfl, rfl, rfl, rfl, hidx, fun a ha => Or.inl ha⟩
  unfold Input.intr at h
  split at h
  · split at h
    · split at h
      · rename_i hz
        have hring' : Ring { s with dialogue := none } b t 0 m k :=
          hring.congr rfl rfl rfl rfl rfl rfl rfl
        obtain ⟨hcmd, hn, hr, hw, hlog, hreaders, hc, hline⟩ :=
          typed_edits hring' hk (by rw [hz]; decide) (by rw [hz]; decide) hD hidx h
        exact ⟨hcmd, hn, hr, hw, hlog, hreaders, hc, hline⟩
      · cases h
        exact hsame none
    · cases h
      exact hsame s.dialogue
  · rename_i hdialogue
    split at h
    · cases h
      exact hsame s.dialogue
    split at h
    · cases h
      obtain ⟨e, q, hclear, hq⟩ := clear_eq (dist s.e s.w) s
      have hclear' : s.clearLine = { s with e := e, line := q } := hclear
      rw [hclear']
      exact ⟨rfl, rfl, rfl, rfl, rfl, rfl, hidx, fun a ha => Or.inl (hq.subset ha)⟩
    split at h
    · cases h
      split
      · exact hsame s.dialogue
      · obtain ⟨e, -, herase⟩ := erase_eq s
        rw [herase]
        exact ⟨rfl, rfl, rfl, rfl, rfl, rfl, hidx, fun a ha => Or.inl (List.mem_of_mem_dropLast ha)⟩
    split at h
    · cases h
      exact hsame _
    split at h
    · split at h
      · exact recall_edits h (by omega) (by omega)
      · cases h
        exact hsame s.dialogue
    split at h
    · split at h
      · exact recall_edits h (by omega) (by omega)
      · cases h
        exact hsame s.dialogue
    unfold Input.Completes at hno
    rw [not_and_or, not_or] at hno
    obtain ⟨hn, hr⟩ := hno.resolve_left (not_not.mpr hdialogue)
    exact typed_edits hring hk hn hr hD hidx h

theorem intr_completes (h : s.Completes c) (hroom : dist s.e s.r < INPUT_BUF) (str : List UInt8) :
    s.intr c str = (s.put newline).commit str := by
  obtain ⟨hdialogue, hc⟩ := h
  have htyped : s.typed c str = (s.put newline).commit str := by
    have hzero : c ≠ 0 := by rcases hc with rfl | rfl <;> decide
    have hmap : (if c = creturn then newline else c) = newline := by rcases hc with rfl | rfl <;> decide
    unfold Input.typed
    rw [if_pos ⟨hzero, hroom⟩]
    dsimp only
    rw [hmap, if_pos (Or.inl rfl)]
  rw [← htyped]
  unfold Input.intr
  rw [hdialogue]
  dsimp only
  rcases hc with rfl | rfl
  · rw [if_neg (by decide), if_neg (by decide), if_neg (by decide), if_neg (by decide),
      if_neg (by decide), if_neg (by decide)]
  · rw [if_neg (by decide), if_neg (by decide), if_neg (by decide), if_neg (by decide),
      if_neg (by decide), if_neg (by decide)]

end Keys

/-! ### Every run -/

section Runs

variable {x y : Session} {c : UInt8} {str : List UInt8}

/-- The read index is where it was never reduced, and the lines are those that were typed. -/
structure Session.Ok (x : Session) : Prop where
  ring : ∃ b t m k, Ring x.input b t 0 m k ∧ b + m < INPUT_BUF ∧ x.lines.length ≤ b + m
  line : Clean x.input.line
  log : ctrl 'D' ∉ x.input.log
  got : ∀ p target out c, x.input.readers p = .got target out c → c ≠ ctrl 'D'
  table : Table x.input x.lines
  index : x.input.c ≤ x.input.n + 1

/-- All lines were read. -/
theorem Session.Ok.rest (h : x.Ok) (hrw : x.input.r = x.input.w) :
    ∃ b t, Ring x.input b t 0 0 x.input.line.length ∧ x.input.r = b ∧ b < INPUT_BUF ∧
      x.lines.length ≤ b := by
  obtain ⟨b, t, m, k, hring, hb, hlines⟩ := h.ring
  obtain ⟨-, hmk, hk⟩ := hring.ordered
  have hm : m = 0 := by
    have := hrw
    rw [hring.r, hring.w] at this
    unfold INPUT_BUF at *
    omega
  subst hm
  have hlength : x.input.line.length = k := by
    rw [hring.line, length_pending, Nat.sub_zero]
  refine ⟨b, t, hlength ▸ hring, ?_, hb, hlines⟩
  rw [hring.r]
  unfold INPUT_BUF at *
  omega

theorem Clean.append {l l' : List UInt8} (h : Clean l) (h' : ∀ a ∈ l', a ∈ l ∨ a ≠ 0 ∧ a ≠ newline ∧ a ≠ ctrl 'D') :
    Clean l' := by
  refine ⟨fun hmem => ?_, fun hmem => ?_, fun hmem => ?_⟩
  · exact (h' _ hmem).elim h.nul fun hne => hne.1 rfl
  · exact (h' _ hmem).elim h.nl fun hne => hne.2.1 rfl
  · exact (h' _ hmem).elim h.eof fun hne => hne.2.2 rfl

/-- A line that is recalled is one of the history, and it is the right one as long as it is
    not stored over. -/
theorem Table.recalled {s : Input} {lines : List (List UInt8)} (h : Table s lines) {i : Nat}
    (h1 : 1 ≤ i) (hi : i ≤ lines.length) (hlen : lines.length < 2 ^ 32) :
    ∃ l ∈ lines, s.recalled i = .ok l ∧ (lines.length < i + CMD_BUF → lines[i - 1]? = some l) := by
  have hdist : dist i 1 = i - 1 := by
    unfold dist
    omega
  obtain ⟨l, hl, hcommand, hlast⟩ := h.command (i := i - 1) (by omega)
  refine ⟨l, hl, ?_, fun hlt => hlast (by omega)⟩
  have htake : l.takeWhile (· ≠ newline) = l := by
    rw [List.takeWhile_eq_self_iff]
    intro a ha
    rw [decide_eq_true_eq]
    rintro rfl
    exact (h.plain l hl).nl ha
  refine bind_eq_ok.mpr ⟨l, hdist ▸ hcommand, ?_⟩
  rw [htake]
  rfl

/-- The cells of the line, which lies inside the buffer. -/
theorem stringAt_line {s : Input} {b : Nat} {t l : List UInt8} (h : Ring s b t 0 0 l.length)
    (hl : s.line = l) (hnul : 0 ∉ l) (hr : s.r = b) (hin : b + l.length < INPUT_BUF)
    (hend : s.buf (b + l.length) = 0) : StringAt s.buf s.r l := by
  refine ⟨hnul, fun j hj => ?_⟩
  rw [hr]
  rcases Nat.lt_or_eq_of_le hj with hlt | rfl
  · have hline : l = pending s.buf INPUT_BUF b l.length := hl ▸ h.line
    have hcell : (b + j) % INPUT_BUF = b + j := Nat.mod_eq_of_lt (by omega)
    rw [getD_terminated l hlt, List.get_eq_getElem]
    have : l[j]? = (pending s.buf INPUT_BUF b l.length)[j]? := congrArg (·[j]?) hline
    rw [List.getElem?_eq_getElem hlt] at this
    unfold pending at this
    rw [List.getElem?_map, List.getElem?_range hlt, Option.map_some, hcell] at this
    exact (Option.some.inj this).symm
  · rw [hend, getD_end]

/-- The line and its newline are a string of the buffer. -/
theorem Session.Ok.stringAt (h : x.Ok) (hrw : x.input.r = x.input.w)
    (hin : x.input.r + x.input.line.length + 1 < INPUT_BUF)
    (hzero : x.input.buf (x.input.r + x.input.line.length + 1) = 0) :
    StringAt (x.input.put newline).buf (x.input.put newline).r (x.input.line ++ [newline]) := by
  obtain ⟨b, t, hring, hr, -, -⟩ := h.rest hrw
  have hput := hring.put (by omega) newline
  rw [hr] at hin hzero
  refine stringAt_line (b := b) (t := t) ?_ rfl ?_ hr ?_ ?_
  · rw [List.length_append, List.length_singleton]
    exact hput
  · rw [List.mem_append, List.mem_singleton, not_or]
    exact ⟨h.line.nul, by decide⟩
  · rw [List.length_append, List.length_singleton]
    exact hin
  · have hcell : x.input.e % INPUT_BUF = b + x.input.line.length := by
      rw [hring.e, mod_mod_buf]
      exact Nat.mod_eq_of_lt (by omega)
    change Function.update x.input.buf (x.input.e % INPUT_BUF) newline _ = 0
    rw [hcell, List.length_append, List.length_singleton, Function.update_of_ne (by omega)]
    exact hzero

/-- A line that is found at the read index is completed. -/
theorem Session.Ok.completed (h : x.Ok) (hc : x.input.Completes c) (hrw : x.input.r = x.input.w)
    (hsits : x.Sits (.key c str)) : ∃ s, x.input.intr c (x.input.line ++ [newline]) = .ok s ∧
      (⟨s, remember x.lines x.input.line⟩ : Session).Ok ∧
      (x.input.line ≠ [] → x.input.command (dist x.input.n 1) ≠ .ok x.input.line →
        s.n = (x.input.n + 1) % 2 ^ 32 ∧ s.command x.input.n = .ok x.input.line) := by
  obtain ⟨hin, hzero, hlast⟩ := hsits hc
  obtain ⟨b, t, hring, hr, hb, hlines⟩ := h.rest hrw
  have hroom : dist x.input.e x.input.r < INPUT_BUF := by
    rw [hring.dist_e]
    omega
  have hclean := h.line
  have hplain : Plain x.input.line := ⟨hclean, by omega⟩
  have hput := hring.put (by omega) newline
  have hfound := (h.stringAt hrw hin hzero).found
  rw [hr] at hin
  rw [intr_completes hc hroom]
  unfold Input.commit
  rw [if_pos hfound]
  obtain ⟨s2, hs2⟩ : ∃ s2, s2 = { x.input.put newline with
    w := (x.input.put newline).e, log := (x.input.put newline).log ++ (x.input.put newline).line,
    line := [] } := ⟨_, rfl⟩
  have hring2 : Ring s2 b t 0 (x.input.line.length + 1) (x.input.line.length + 1) := hs2 ▸ hput.commit
  have hlog2 : s2.log = x.input.log ++ (x.input.line ++ [newline]) := hs2 ▸ rfl
  have hreaders2 : s2.readers = x.input.readers := hs2 ▸ rfl
  have hline2 : s2.line = [] := hs2 ▸ rfl
  have hcmd2 : s2.cmd = x.input.cmd := hs2 ▸ rfl
  have hn2 : s2.n = x.input.n := hs2 ▸ rfl
  rw [← hs2]
  have hlen : x.lines.length + 1 < 2 ^ 32 := by
    unfold INPUT_BUF at hb
    omega
  obtain ⟨t2, hsave, htable, hstored⟩ := (h.table.congr hcmd2 hn2).save hplain hlen hlast
  obtain ⟨cmd, n, rfl⟩ := save_eq hsave
  have hn : n = (remember x.lines x.input.line).length := htable.n
  have hremember : (remember x.lines x.input.line).length ≤ x.lines.length + 1 := by
    unfold remember
    split
    · exact Nat.le_succ _
    · rw [List.length_append, List.length_singleton]
  have hcommand : ∀ i, s2.command i = x.input.command i := by
    intro i
    unfold Input.command
    rw [hcmd2]
  refine ⟨_, bind_eq_ok.mpr ⟨_, hsave, rfl⟩, ⟨⟨b, t, _, _, hring2.congr rfl rfl rfl rfl rfl rfl rfl,
    by omega, ?_⟩, ?_, ?_, ?_, htable.congr rfl rfl, ?_⟩, ?_⟩
  · dsimp only
    omega
  · change Clean s2.line
    rw [hline2]
    exact plain_nil.toClean
  · change ctrl 'D' ∉ s2.log
    rw [hlog2, List.mem_append, List.mem_append, List.mem_singleton, not_or, not_or]
    exact ⟨h.log, hclean.eof, by decide⟩
  · change ∀ p target out c, s2.readers p = .got target out c → c ≠ ctrl 'D'
    rw [hreaders2]
    exact h.got
  · change (n + 1) % 2 ^ 32 ≤ n + 1
    exact Nat.mod_le _ _
  · intro hne hdiff
    rw [← hcommand, ← hn2] at hdiff
    obtain ⟨h1, h2⟩ := hstored hne hdiff
    rw [← hn2]
    exact ⟨h1, h2⟩

/-- A line is completed. -/
theorem Session.Ok.complete (h : x.Ok) (hc : x.input.Completes c) (htyping : x.input.Typing (.key c str))
    (hsits : x.Sits (.key c str)) (he : x.exec (.key c str) = .ok y) :
    y.Ok ∧ x.input.Records (.key c str) y.input := by
  have hrw := htyping.1
  obtain ⟨hin, hzero, -⟩ := hsits hc
  obtain ⟨b, t, hring, hr, hb, hlines⟩ := h.rest hrw
  obtain ⟨s', hs', he⟩ := bind_eq_ok.mp he
  cases he
  have hroom : dist x.input.e x.input.r < INPUT_BUF := by
    rw [hring.dist_e]
    omega
  -- no other string than the line is at the read index
  have hstr : str = x.input.line ++ [newline] := by
    change x.input.intr c str = .ok s' at hs'
    rw [intr_completes hc hroom] at hs'
    unfold Input.commit at hs'
    split at hs'
    · rename_i hfound
      refine found_eq (h.stringAt hrw hin hzero) ?_ hfound
      rw [List.length_append, List.length_singleton]
      exact hin
    · cases hs'
  subst hstr
  obtain ⟨s, hs, hok, hstored⟩ := h.completed hc hrw hsits
  change x.input.intr c _ = .ok s' at hs'
  rw [hs] at hs'
  cases hs'
  have hlines : x.remembered (.key c (x.input.line ++ [newline])) = remember x.lines x.input.line :=
    if_pos hc
  rw [hlines]
  refine ⟨hok, fun _ => ⟨?_, hstored⟩⟩
  rw [List.length_append, List.length_singleton]
  exact hin

/-- Any other key. -/
theorem Session.Ok.edit (h : x.Ok) (hno : ¬ x.input.Completes c) (htyping : x.input.Typing (.key c str))
    (he : x.exec (.key c str) = .ok y) : y.Ok := by
  obtain ⟨hrw, hD, hshort⟩ := htyping
  replace hshort := hshort.resolve_left hno
  obtain ⟨b, t, hring, hr, hb, hlines⟩ := h.rest hrw
  obtain ⟨s', hs', he⟩ := bind_eq_ok.mp he
  cases he
  have hlen : x.lines.length < 2 ^ 32 := by
    unfold INPUT_BUF at hb
    omega
  change x.input.intr c str = .ok s' at hs'
  have hedits := intr_edits hring hshort hno hD h.index hs'
  have hrecalled : ∀ i l, 1 ≤ i → i ≤ x.input.n → x.input.recalled i = .ok l → l ∈ x.lines := by
    intro i l h1 hi hl
    rw [h.table.n] at hi
    obtain ⟨q, hq, hql, -⟩ := h.table.recalled h1 hi hlen
    rw [hql] at hl
    cases hl
    exact hq
  have hindex := h.index
  have hkept : Kept x.input s' b t 0 := by
    refine hring.intr h.line.nl ?_ ?_ hs'
    · intro _
      omega
    · intro i l hi hl
      obtain ⟨-, ⟨-, hlt, rfl⟩ | ⟨-, hlt, rfl⟩⟩ := hi
      · have := (h.table.plain l (hrecalled _ l (by omega) (by omega) hl)).short
        omega
      · have := (h.table.plain l (hrecalled _ l (by omega) (by omega) hl)).short
        omega
  obtain ⟨⟨m', k', hring'⟩, -, -⟩ := hkept
  have hm' : m' = 0 := by
    have hw := hedits.w
    obtain ⟨-, hmk', hk'⟩ := hring'.ordered
    rw [hring'.w, hring.w] at hw
    unfold INPUT_BUF at *
    omega
  have hsame : (⟨s', x.remembered (.key c str)⟩ : Session).lines = x.lines := if_neg hno
  refine ⟨⟨b, t, 0, k', hm' ▸ hring', hb, ?_⟩, ?_, ?_, ?_, ?_, ?_⟩
  · rw [hsame]
    exact hlines
  · refine h.line.append fun a ha => ?_
    rcases hedits.line a ha with ha | ⟨rfl, hc0, hcn⟩ | ⟨i, l, h1, hi, hl, ha⟩
    · exact Or.inl ha
    · exact Or.inr ⟨hc0, hcn, hD⟩
    · have hplain := h.table.plain l (hrecalled i l h1 hi hl)
      refine Or.inr ⟨?_, ?_, ?_⟩
      · rintro rfl
        exact hplain.nul ha
      · rintro rfl
        exact hplain.nl ha
      · rintro rfl
        exact hplain.eof ha
  · change ctrl 'D' ∉ s'.log
    rw [hedits.log]
    exact h.log
  · change ∀ p target out c, s'.readers p = .got target out c → c ≠ ctrl 'D'
    rw [hedits.readers]
    exact h.got
  · rw [hsame]
    exact h.table.congr hedits.cmd hedits.n
  · change s'.c ≤ s'.n + 1
    rw [hedits.n]
    exact hedits.index

/-- A reader goes on. -/
theorem Session.Ok.setReader (h : x.Ok) (p : Nat) {reader : Reader}
    (hreader : ∀ target out c, reader = .got target out c → c ≠ ctrl 'D') :
    (⟨x.input.setReader p reader, x.lines⟩ : Session).Ok := by
  obtain ⟨b, t, m, k, hring, hb⟩ := h.ring
  refine ⟨⟨b, t, m, k, hring.congr rfl rfl rfl rfl rfl rfl rfl, hb⟩, h.line, h.log, ?_,
    h.table.congr rfl rfl, h.index⟩
  intro q target out c hq
  change Function.update x.input.readers p reader q = _ at hq
  by_cases hqp : q = p
  · subst hqp
    rw [Function.update_self] at hq
    exact hreader target out c hq
  · rw [Function.update_of_ne hqp] at hq
    exact h.got q target out c hq

/-- A reader takes a character, which is not a `^D`. -/
theorem Session.Ok.take (h : x.Ok) (p target : Nat) (out : List UInt8) (hne : x.input.r ≠ x.input.w) :
    (⟨x.input.take p target out, x.lines⟩ : Session).Ok := by
  obtain ⟨b, t, m, k, hring, hb, hlines⟩ := h.ring
  have htake := hring.take hne p target out
  have hm : 1 ≤ m := htake.ordered.1
  have hD : x.input.buf (x.input.r % INPUT_BUF) ≠ ctrl 'D' := by
    intro heq
    apply h.log
    obtain ⟨n, rfl⟩ : ∃ n, m = n + 1 := ⟨m - 1, by omega⟩
    rw [hring.log, pending_take, ← heq, hring.r, mod_mod_buf]
    exact List.mem_append_right t List.mem_cons_self
  refine ⟨⟨b + 1, _, m - 1, k - 1, htake.advance, by omega, ?_⟩, h.line, h.log, ?_,
    h.table.congr rfl rfl, h.index⟩
  · change x.lines.length ≤ _
    omega
  · intro q target' out' c hq
    change Function.update x.input.readers p (.got target out (x.input.buf (x.input.r % INPUT_BUF))) q = _
      at hq
    by_cases hqp : q = p
    · subst hqp
      rw [Function.update_self] at hq
      cases hq
      exact hD
    · rw [Function.update_of_ne hqp] at hq
      exact h.got q target' out' c hq

theorem Session.Ok.step {a : Act} (h : x.Ok) (hs : x.Step a y) :
    y.Ok ∧ x.input.Records a y.input := by
  obtain ⟨he, htyping, hsits⟩ := hs
  cases a with
  | key c str =>
    by_cases hc : x.input.Completes c
    · exact h.complete hc htyping hsits he
    · exact ⟨h.edit hc htyping he, fun h => absurd h hc⟩
  | read p n =>
    refine ⟨?_, trivial⟩
    obtain ⟨s', hs', he⟩ := bind_eq_ok.mp he
    cases he
    rw [Input.exec] at hs'
    split at hs'
    · cases hs'
      refine h.setReader p ?_
      intro target out c
      split
      · exact Reader.noConfusion
      · exact Reader.noConfusion
    · cases hs'
  | take p =>
    refine ⟨?_, trivial⟩
    obtain ⟨s', hs', he⟩ := bind_eq_ok.mp he
    cases he
    rw [Input.exec] at hs'
    split at hs'
    · split at hs'
      · cases hs'
      · rename_i hne
        cases hs'
        exact h.take p _ _ hne
    · cases hs'
  | settle p =>
    refine ⟨?_, trivial⟩
    obtain ⟨s', hs', he⟩ := bind_eq_ok.mp he
    cases he
    rw [Input.exec] at hs'
    split at hs'
    · rename_i target out c hp
      cases hs'
      unfold Input.settle
      rw [if_neg (h.got p target out c hp)]
      refine h.setReader p ?_
      intro target' out' c'
      split
      · exact Reader.noConfusion
      · exact Reader.noConfusion
    · cases hs'
  | killed p =>
    refine ⟨?_, trivial⟩
    obtain ⟨s', hs', he⟩ := bind_eq_ok.mp he
    cases he
    rw [Input.exec] at hs'
    split at hs'
    · split at hs'
      · cases hs'
        exact h.setReader p (fun _ _ _ => Reader.noConfusion)
      · cases hs'
    · cases hs'

/-- `KEY_UP` brings back a line. -/
theorem keyUp_eq {s : Input} {b m k : Nat} {t l : List UInt8} (hring : Ring s b t 0 m k)
    (hline : newline ∉ s.line) (hdialogue : s.dialogue = none) (hc : 1 < s.c)
    (hl : s.recalled (s.c - 1) = .ok l) (hfits : m + l.length ≤ INPUT_BUF) :
    ∃ s', s.exec (.key KEY_UP []) = .ok s' ∧ Ring s' b t 0 m (m + l.length) ∧ s'.line = l ∧
      s'.dialogue = none ∧ s'.c = s.c - 1 ∧ s'.cmd = s.cmd ∧ s'.n = s.n := by
  obtain ⟨hclear, -, -⟩ := hring.clearLine hline
  obtain ⟨e, q, heq, -⟩ := clear_eq (dist s.e s.w) s
  have heq' : s.clearLine = { s with e := e, line := q } := heq
  rw [heq'] at hclear
  have hq : q = [] := by
    have := hclear.line
    rw [Nat.sub_self, pending_zero] at this
    exact this
  subst hq
  have hstart : Ring { s with e := e, line := [], c := s.c - 1 } b t 0 m m :=
    hclear.congr rfl rfl rfl rfl rfl rfl rfl
  have hputs := hstart.puts l hfits
  obtain ⟨buf, e', hputs'⟩ := puts_eq l { s with e := e, line := [], c := s.c - 1 }
  rw [hputs'] at hputs
  have hkey : s.intr KEY_UP [] =
      s.recalled (s.c - 1) >>= fun l => .ok (l.foldl Input.put { s.clearLine with c := s.c - 1 }) := by
    unfold Input.intr
    rw [hdialogue]
    dsimp only
    rw [if_neg (by decide), if_neg (by decide), if_neg (by decide), if_neg (by decide), if_pos rfl,
      if_pos hc]
    rfl
  refine ⟨_, ?_, hputs, List.nil_append l, hdialogue, rfl, rfl, rfl⟩
  change s.intr KEY_UP [] = _
  rw [hkey]
  refine bind_eq_ok.mpr ⟨l, hl, ?_⟩
  rw [heq']
  exact congrArg Except.ok hputs'

/-- `KEY_UP` again and again. -/
theorem Session.Ok.recalls (h : x.Ok) : x.Recalls := by
  intro hrw hdialogue hc k h1 hk hcmd
  obtain ⟨b, t, hring, hr, hb, hlines⟩ := h.rest hrw
  have hlen : x.lines.length < 2 ^ 32 := by
    unfold INPUT_BUF at hb
    omega
  have hstep : ∀ j ≤ x.lines.length, j ≤ CMD_BUF → ∃ s k,
      (List.replicate j (Act.key KEY_UP [])).foldlM Input.exec x.input = .ok s ∧ Ring s b t 0 0 k ∧
        newline ∉ s.line ∧ s.dialogue = none ∧ s.c = x.input.n + 1 - j ∧ s.cmd = x.input.cmd ∧
        s.n = x.input.n ∧ (1 ≤ j → x.lines[x.lines.length - j]? = some s.line) := by
    intro j
    induction j with
    | zero =>
      intro _ _
      refine ⟨x.input, _, rfl, hring, h.line.nl, hdialogue, hc, rfl, rfl, fun h => ?_⟩
      exact absurd h (Nat.not_succ_le_zero 0)
    | succ j ih =>
      intro hj hjc
      obtain ⟨s, k, hs, hsring, hsline, hsd, hsc, hscmd, hsn, -⟩ := ih (by omega) (by omega)
      have hn := h.table.n
      have htable : Table s x.lines := h.table.congr hscmd hsn
      obtain ⟨l, hl, hrec, hlast⟩ := htable.recalled (i := s.c - 1) (by omega) (by omega) hlen
      have hplain := h.table.plain l hl
      have hshort := hplain.short
      obtain ⟨s', hs', hring', hline', hd', hc', hcmd', hn'⟩ :=
        keyUp_eq hsring hsline hsd (by omega) hrec (by omega)
      refine ⟨s', _, ?_, hring', hline' ▸ hplain.nl, hd', by omega, hcmd'.trans hscmd, hn'.trans hsn,
        fun _ => ?_⟩
      · rw [List.replicate_succ', List.foldlM_append, hs]
        change [Act.key KEY_UP []].foldlM Input.exec s = _
        rw [List.foldlM_cons, hs']
        rfl
      · have := hlast (by unfold CMD_BUF at *; omega)
        rw [hline', show x.lines.length - (j + 1) = s.c - 1 - 1 by omega]
        exact this
  obtain ⟨s, k', hs, hsring, -, -, -, -, -, hl⟩ := hstep k hk hcmd
  refine ⟨s, s.line, hs, hl h1, rfl, ?_⟩
  rw [hsring.dist_line, hsring.w, pending_mod (by decide), hsring.line]

def newSession : Session := ⟨start, []⟩

theorem newSession_ok : newSession.Ok := by
  refine ⟨⟨0, [], 0, 0, start_ring, by decide, by decide⟩, plain_nil.toClean, List.not_mem_nil, ?_, ?_, ?_⟩
  · intro p target out c hp
    cases hp
  · refine ⟨rfl, ?_, ?_, ?_⟩
    · intro l hl
      cases hl
    · intro i hi
      cases hi
    · intro _
      refine ⟨List.not_mem_nil, fun j hj => ?_⟩
      obtain rfl := Nat.le_zero.mp hj
      rfl
  · decide

/-- **The history records what was typed**, in every run whose completed lines lie inside the
    buffer and are not what the last entry begins with. -/
theorem history_records {as : List Act} (hr : Run Session.Step newSession as x) :
    x.Recalls ∧ (∀ a y, x.Step a y → x.input.Records a y.input) ∧
      ∀ c, x.input.Completes c → x.input.r = x.input.w → x.Sits (.key c []) →
        ∃ s, x.input.intr c (x.input.line ++ [newline]) = .ok s := by
  have hok : x.Ok := by
    refine hr.invariant Session.Ok newSession_ok ?_
    intro u a v hu hs
    exact (hu.step hs).1
  refine ⟨hok.recalls, fun a y hs => (hok.step hs).2, fun c hc hrw hsits => ?_⟩
  obtain ⟨s, hs, -⟩ := hok.completed hc hrw hsits
  exact ⟨s, hs⟩

instance (s : Input) : (a : Act) → Decidable (s.Typing a)
  | .key c _ => inferInstanceAs (Decidable (_ ∧ _ ∧ (s.Completes c ∨ _)))
  | .read _ _ | .take _ | .settle _ | .killed _ => inferInstanceAs (Decidable True)

instance (x : Session) : (a : Act) → Decidable (x.Sits a)
  | .key c _ => inferInstanceAs (Decidable (x.input.Completes c → _ ∧ _ ∧ (x.input.line ≠ [] →
      ∀ last ∈ x.lines.getLast?, x.input.line <+: last → last = x.input.line)))
  | .read _ _ | .take _ | .settle _ | .killed _ => inferInstanceAs (Decidable True)

/-- A step of a run, if it is one. -/
def Session.stepIf (x : Session) (a : Act) : Except Fault Session :=
  if x.input.Typing a ∧ x.Sits a then x.exec a else .error .notEnabled

theorem Session.step_of_stepIf {a : Act} (h : x.stepIf a = .ok y) : x.Step a y := by
  unfold Session.stepIf at h
  split at h
  · rename_i hgood
    exact ⟨h, hgood⟩
  · cases h

/-- The keys of a line, which is read. -/
def typeLine (l : List UInt8) : List Act :=
  l.map (Act.key · []) ++ [.key newline (l ++ [newline]), .read 0 INPUT_BUF] ++
    (l ++ [newline]).flatMap fun _ => [.take 0, .settle 0]

/-- Two lines are typed and read, and the first one is brought back. -/
theorem history_records_two : ∃ x, Run Session.Step newSession
    (typeLine [108, 115] ++ typeLine [119, 99]) x ∧ x.lines = [[108, 115], [119, 99]] ∧
    x.Recalls := by
  have hrun : okWith (fun x : Session => decide (x.lines = [[108, 115], [119, 99]]))
      ((typeLine [108, 115] ++ typeLine [119, 99]).foldlM Session.stepIf newSession) = true := by
    decide +kernel
  obtain ⟨x, hok, htest⟩ := okWith_eq_true.mp hrun
  have hsteps : Run Session.Step newSession (typeLine [108, 115] ++ typeLine [119, 99]) x :=
    (Run.of_foldlM hok).mono fun _ _ _ => Session.step_of_stepIf
  exact ⟨x, hsteps, of_decide_eq_true htest, (history_records hsteps).1⟩

/-- A line that the last entry begins with is not stored. -/
theorem history_misses : ∃ x, Run (fun x a y => x.exec a = .ok y ∧ x.input.Typing a) newSession
    (typeLine [108, 115] ++ typeLine [108]) x ∧ x.lines = [[108, 115], [108]] ∧ x.input.n = 1 := by
  have hrun : okWith (fun x : Session => decide (x.lines = [[108, 115], [108]] ∧ x.input.n = 1))
      ((typeLine [108, 115] ++ typeLine [108]).foldlM (fun x a =>
        if x.input.Typing a then x.exec a else .error .notEnabled) newSession) = true := by
    decide +kernel
  obtain ⟨x, hok, htest⟩ := okWith_eq_true.mp hrun
  refine ⟨x, (Run.of_foldlM hok).mono fun u a v huv => ?_, of_decide_eq_true htest⟩
  split at huv
  · rename_i htyping
    exact ⟨huv, htyping⟩
  · cases huv

end Runs

end Yonix.Console
