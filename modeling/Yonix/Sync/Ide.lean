/-
  Yonix/Sync/Ide.lean
  ===================
  **The disk request queue (`ide.c`).**

  `iderw` is executed one statement at a time; the timer and the disk can interrupt it
  between any two of them, because nothing there disables interrupts.  The gate of an
  interrupt does, so `ideintr` is one step.  `started` are the requests that were passed
  to `idestart` and are not completed: the disk interrupts for the first of them.

  A handler that pops the head pulls it away from a process that is about to append
  behind it; one that comes between the append and the test leads to a second start;
  one that comes between the test of the flags and the assignment to `p_stat` issues its
  `wakeup` too early (`wakeup_before_sleep`).  In every run in which no interrupt falls
  there, and no two processes append at the same place, the queue is what it should be
  (`disk_queue_sound`).
-/
import Yonix.Lib.Links
import Yonix.Sync.Machine

namespace Yonix.Sync.Ide

open Yonix.Proc (Stat)

/-- The next statement of `iderw(b)`; `pp` is `none` for `&idequeue`, and `some c` for
    `&c->qnext`. -/
inductive Pc (B : Type) where
  | user
  | zero (b : B)
  | walk (b : B) (pp : Option B)
  | append (b : B) (pp : Option B)
  | start (b : B)
  | test (b : B)
  | sleep (b : B) (i : SleepPc)
deriving DecidableEq

structure Disk (P B : Type) where
  idequeue : Option B
  qnext : B → Option B
  valid : B → Bool
  dirty : B → Bool
  holder : B → Option P
  started : List B

variable {P B : Type}

/-- `(b->flags & (B_VALID|B_DIRTY)) == B_VALID`. -/
def Disk.Done (m : Disk P B) (b : B) : Prop := m.valid b = true ∧ m.dirty b = false

instance (m : Disk P B) (b : B) : Decidable (m.Done b) := inferInstanceAs (Decidable (_ ∧ _))

/-- `*pp`. -/
def Disk.deref (m : Disk P B) : Option B → Option B
  | none => m.idequeue
  | some c => m.qnext c

abbrev M (P B : Type) := Machine P B (Pc B) (Disk P B)

section Code

variable [DecidableEq B]

/-- `*pp = b`. -/
def Disk.assign (m : Disk P B) (pp : Option B) (b : B) : Disk P B :=
  match pp with
  | none => { m with idequeue := some b }
  | some c => { m with qnext := Function.update m.qnext c (some b) }

def idestart (blockno : B → Nat) (m : Disk P B) (b : B) : Except Stop (Disk P B) :=
  if FSSIZE ≤ blockno b then .error (.panic .incorrectBlockno)
  else .ok { m with started := m.started ++ [b] }

variable [DecidableEq P]

inductive Call (B : Type) where
  | lock (b : B)
  | unlock (b : B)
  /-- `iderw(b)`, with the flags that the caller has given the buffer -/
  | iderw (b : B) (valid dirty : Bool)

def enter (s : M P B) (p : P) (c : Call B) : Except Stop (M P B) :=
  match s.pc p, c with
  | .user, .lock b =>
    if s.mem.holder b = none then
      .ok (s.store { s.mem with holder := Function.update s.mem.holder b (some p) })
    else .error .asleep
  | .user, .unlock b =>
    if s.mem.holder b = some p then
      .ok (s.store { s.mem with holder := Function.update s.mem.holder b none })
    else .error .notCalled
  | .user, .iderw b valid dirty =>
    if s.mem.holder b = some p then
      let m := { s.mem with valid := Function.update s.mem.valid b valid
                            dirty := Function.update s.mem.dirty b dirty }
      if m.Done b then .error (.panic .nothingToDo) else .ok ((s.store m).goto p (.zero b))
    else .error (.panic .bufNotLocked)
  | _, _ => .error .notCalled

/-- The next statement of `p`. -/
def stmt (blockno : B → Nat) (s : M P B) (p : P) : Except Stop (M P B) :=
  match s.pc p with
  | .user => .error .notCalled
  | .zero b =>
    .ok ((s.store { s.mem with qnext := Function.update s.mem.qnext b none }).goto p (.walk b none))
  | .walk b pp =>
    match s.mem.deref pp with
    | none => .ok (s.goto p (.append b pp))
    | some c => .ok (s.goto p (.walk b (some c)))
  | .append b pp => .ok ((s.store (s.mem.assign pp b)).goto p (.start b))
  | .start b =>
    if s.mem.idequeue = some b then do
      let m ← idestart blockno s.mem b
      return (s.store m).goto p (.test b)
    else .ok (s.goto p (.test b))
  | .test b => .ok (s.goto p (if s.mem.Done b then .user else .sleep b .chan))
  | .sleep b i => do
    let (s, j) ← sleepStmt s p b i
    return s.goto p (match j with
      | some j => .sleep b j
      | none => .test b)

def iderw (blockno : B → Nat) : Program P B (Pc B) (Disk P B) (Call B) where
  enter := enter
  stmt := stmt blockno

/-- `wakeup(b)`, by the handler. -/
def wakeup (s : M P B) (b : B) : M P B :=
  { s with stat := fun q => if s.stat q = .SSLEEPING ∧ s.chan q = some b then .READY else s.stat q }

/-- `ideintr`, when the disk has completed the first request that was started. -/
def ideintr (blockno : B → Nat) (s : M P B) : Except Stop (M P B) :=
  let m := { s.mem with started := s.mem.started.tail }
  match m.idequeue with
  | none => .ok (s.store m)
  | some b => do
    let m := { m with idequeue := m.qnext b
                      valid := Function.update m.valid b true
                      dirty := Function.update m.dirty b false }
    let s := wakeup (s.store m) b
    match m.idequeue with
    | none => return s
    | some c =>
      let m ← idestart blockno m c
      return s.store m

inductive Act (P B : Type) where
  | proc (a : Sync.Act P (Call B))
  | intr

def exec (blockno : B → Nat) (s : M P B) : Act P B → Except Stop (M P B)
  | .proc a => Sync.exec (iderw blockno) s a
  | .intr => if s.mem.started = [] then .error .notCalled else ideintr blockno s

def init : M P B where
  cur := none
  iflag := true
  stat := fun _ => .READY
  chan := fun _ => none
  pc := fun _ => .user
  mem := ⟨none, fun _ => none, fun _ => false, fun _ => false, fun _ => none, []⟩

end Code

/-! ### The queue -/

/-- The buffer that the process is in `iderw` with. -/
def Pc.buf : Pc B → Option B
  | .user => none
  | .zero b | .walk b _ | .append b _ | .start b | .test b | .sleep b _ => some b

/-- The buffer is appended. -/
def Pc.Submitted : Pc B → B → Prop
  | .start c, b | .test c, b | .sleep c _, b => c = b
  | _, _ => False

/-- The queue contains each buffer that is submitted and not done once; its head and only
    its head is started, or is the buffer of a process that is about to start it; and who
    sleeps on a buffer waits for it. -/
structure Sound (s : M P B) (l : List B) : Prop where
  head : s.mem.idequeue = first some l none
  links : Links s.mem.qnext some l none
  nodup : l.Nodup
  queued : ∀ b, b ∈ l ↔ ¬ s.mem.Done b ∧ ∃ p, (s.pc p).Submitted b
  idle : l = [] → s.mem.started = []
  active : ∀ h, s.mem.idequeue = some h →
    s.mem.started = [h] ∨ s.mem.started = [] ∧ ∃ p, s.pc p = .start h
  asleep : ∀ p b, s.stat p = .SSLEEPING → (s.pc p).buf = some b → ¬ s.mem.Done b

/-- What also holds between the statements of `iderw`. -/
structure Inv (s : M P B) (l : List B) : Prop where
  head : s.mem.idequeue = first some l none
  links : Links s.mem.qnext some l none
  nodup : l.Nodup
  owned : ∀ p b, (s.pc p).buf = some b → s.mem.holder b = some p
  queued : ∀ b, b ∈ l ↔ ¬ s.mem.Done b ∧ ∃ p, (s.pc p).Submitted b
  pending : ∀ p b, (s.pc p).buf = some b → ¬ (s.pc p).Submitted b → ¬ s.mem.Done b
  walk : ∀ p b c, s.pc p = .walk b (some c) ∨ s.pc p = .append b (some c) → c ∈ l
  zeroed : ∀ p b pp, s.pc p = .walk b pp ∨ s.pc p = .append b pp → s.mem.qnext b = none
  last : ∀ p b pp, s.pc p = .append b pp → s.mem.deref pp = none
  start : ∀ p b, s.pc p = .start b → b ∈ l ∧ (s.mem.idequeue = some b → s.mem.started = [])
  idle : l = [] → s.mem.started = []
  active : ∀ h, s.mem.idequeue = some h →
    s.mem.started = [h] ∨ s.mem.started = [] ∧ ∃ p, s.pc p = .start h
  waits : ∀ p b, s.pc p = .sleep b .chan ∨ s.pc p = .sleep b .stat → b ∈ l
  chan : ∀ p b i, s.pc p = .sleep b i → i ≠ .chan → s.chan p = some b
  asleep : ∀ p, s.stat p = .SSLEEPING → ∃ b i, s.pc p = .sleep b i ∧ i ≠ .chan ∧ i ≠ .stat ∧ b ∈ l
  running : ∀ p, s.cur = some p → s.stat p = .SSLEEPING → ∃ b, s.pc p = .sleep b .transform

variable {s t : M P B} {l : List B} {p : P} {b : B}

theorem submitted_buf {i : Pc B} (h : i.Submitted b) : i.buf = some b := by
  cases i <;> simp_all [Pc.Submitted, Pc.buf]

theorem Inv.sound (h : Inv s l) : Sound s l := by
  refine ⟨h.head, h.links, h.nodup, h.queued, h.idle, h.active, ?_⟩
  intro p b hst hb
  obtain ⟨c, i, hpc, -, -, hc⟩ := h.asleep p hst
  rw [hpc] at hb
  obtain rfl := Option.some.inj hb
  exact ((h.queued c).mp hc).1

/-- A buffer that is not submitted yet is not in the queue. -/
theorem Inv.not_mem (h : Inv s l) (hb : (s.pc p).buf = some b) (hn : ¬ (s.pc p).Submitted b) :
    b ∉ l := by
  intro hmem
  obtain ⟨-, q, hq⟩ := (h.queued b).mp hmem
  have hqb := h.owned q b (submitted_buf hq)
  rw [h.owned p b hb] at hqb
  obtain rfl := Option.some.inj hqb
  exact hn hq

theorem Inv.unique (h : Inv s l) {q : P} (hp : (s.pc p).buf = some b) (hq : (s.pc q).buf = some b) :
    p = q := by
  have hpb := h.owned p b hp
  rw [h.owned q b hq] at hpb
  exact (Option.some.inj hpb).symm

/-! ### The statements -/

/-- Only the state of the CPU changes. -/
theorem Inv.cpu (h : Inv s l) (hpc : t.pc = s.pc) (hmem : t.mem = s.mem) (hchan : t.chan = s.chan)
    (hstat : ∀ q, t.stat q = .SSLEEPING → s.stat q = .SSLEEPING)
    (hcur : ∀ q, t.cur = some q → t.stat q = .SSLEEPING → s.cur = some q) : Inv t l := by
  obtain ⟨h1, h2, h3, h4, h5, hpend, h6, h7, h8, h9, h10, h11, h12, h13, h14, h15⟩ := h
  refine ⟨?_, ?_, h3, ?_, ?_, ?_, ?_, ?_, ?_, ?_, ?_, ?_, ?_, ?_, ?_, ?_⟩
  all_goals
    try rw [hmem]
    try rw [hpc]
    try rw [hchan]
    try assumption
  · exact fun q hq => h14 q (hstat q hq)
  · exact fun q hc hq => h15 q (hcur q hc hq) (hstat q hq)

theorem Inv.awake (h : Inv s l) (hcur : s.cur = some p) (hpc : ∀ b, s.pc p ≠ .sleep b .transform) :
    s.stat p ≠ .SSLEEPING := by
  intro hst
  obtain ⟨c, hc⟩ := h.running p hcur hst
  exact hpc c hc

theorem Inv.head_mem (h : Inv s l) (hb : s.mem.idequeue = some b) : b ∈ l := by
  have hfirst : first some l none = some b := h.head.symm.trans hb
  cases l with
  | nil => cases hfirst
  | cons c l =>
    obtain rfl := Option.some.inj hfirst
    exact List.mem_cons_self

/-- Nobody else is in `iderw` with the buffer. -/
theorem Inv.other (h : Inv s l) (hb : (s.pc p).buf = some b) : ∀ q, q ≠ p → (s.pc q).buf ≠ some b :=
  fun _ hq hqb => hq (h.unique hqb hb)

/-- The place behind the queue. -/
theorem Inv.place {pp : Option B} (h : Inv s l) (hpc : s.pc p = .append b pp) :
    pp = none ∧ l = [] ∨ ∃ m c, pp = some c ∧ l = m ++ [c] := by
  have hlast := h.last p b pp hpc
  cases pp with
  | none =>
    have hhead : first some l none = none := h.head.symm.trans hlast
    cases l with
    | nil => exact Or.inl ⟨rfl, rfl⟩
    | cons d l => cases hhead
  | some c =>
    obtain ⟨m, hm⟩ := h.links.last (fun _ _ => Option.some_ne_none _) (h.walk p b c (Or.inr hpc)) hlast
    exact Or.inr ⟨m, c, rfl, hm⟩

section Steps

set_option linter.unusedSectionVars false

variable [DecidableEq B] [DecidableEq P]

theorem deref_zero (m : Disk P B) (b : B) {pp : Option B} (h : m.deref pp = none) :
    Disk.deref { m with qnext := Function.update m.qnext b none } pp = none := by
  cases pp with
  | none => exact h
  | some c =>
    change Function.update m.qnext b none c = none
    rw [Function.update_apply]
    split
    · rfl
    · exact h

theorem Inv.zero (h : Inv s l) (hcur : s.cur = some p) (hpc : s.pc p = .zero b) :
    Inv ((s.store { s.mem with qnext := Function.update s.mem.qnext b none }).goto p (.walk b none)) l := by
  have hb : b ∉ l := h.not_mem (p := p) (by simp [hpc, Pc.buf]) (by simp [hpc, Pc.Submitted])
  have hrun := h.awake hcur (by simp [hpc])
  have hother := h.other (p := p) (b := b) (by simp [hpc, Pc.buf])
  obtain ⟨h1, h2, h3, h4, h5, hpend, h6, h7, h8, h9, h10, h11, h12, h13, h14, h15⟩ := h
  have hlinks : Links (Function.update s.mem.qnext b none) some l none := by
    refine h2.congr fun a ha => Function.update_of_ne ?_ _ _
    rintro rfl
    exact hb ha
  have hlast : ∀ q c pp, s.pc q = .append c pp →
      Disk.deref { s.mem with qnext := Function.update s.mem.qnext b none } pp = none :=
    fun q c pp hq => deref_zero s.mem b (h8 q c pp hq)
  refine ⟨h1, hlinks, h3, ?_, ?_, ?_, ?_, ?_, ?_, ?_, h10, ?_, ?_, ?_, ?_, ?_⟩
  all_goals
    simp only [Machine.goto, Machine.store, Function.update_apply, Disk.Done] at *
    grind -ring -linarith [Pc.buf, Pc.Submitted]

theorem Inv.walkOn {pp : Option B} {c : B} (h : Inv s l) (hcur : s.cur = some p) (hpc : s.pc p = .walk b pp)
    (hpp : s.mem.deref pp = some c) : Inv (s.goto p (.walk b (some c))) l := by
  have hrun := h.awake hcur (by simp [hpc])
  have hc : c ∈ l := by
    cases pp with
    | none => exact h.head_mem hpp
    | some d =>
      rcases h.links.next_mem (h.walk p b d (Or.inl hpc)) with hnone | ⟨e, he, hde⟩
      · exact absurd (hpp.symm.trans hnone) (by simp)
      · obtain rfl := Option.some.inj (hpp.symm.trans hde)
        exact he
  obtain ⟨h1, h2, h3, h4, h5, hpend, h6, h7, h8, h9, h10, h11, h12, h13, h14, h15⟩ := h
  refine ⟨h1, h2, h3, ?_, ?_, ?_, ?_, ?_, ?_, ?_, h10, ?_, ?_, ?_, ?_, ?_⟩
  all_goals
    simp only [Machine.goto, Function.update_apply] at *
    grind -ring -linarith [Pc.buf, Pc.Submitted]

theorem Inv.walkEnd {pp : Option B} (h : Inv s l) (hcur : s.cur = some p) (hpc : s.pc p = .walk b pp)
    (hpp : s.mem.deref pp = none) : Inv (s.goto p (.append b pp)) l := by
  have hrun := h.awake hcur (by simp [hpc])
  obtain ⟨h1, h2, h3, h4, h5, hpend, h6, h7, h8, h9, h10, h11, h12, h13, h14, h15⟩ := h
  refine ⟨h1, h2, h3, ?_, ?_, ?_, ?_, ?_, ?_, ?_, h10, ?_, ?_, ?_, ?_, ?_⟩
  all_goals
    simp only [Machine.goto, Function.update_apply] at *
    grind -ring -linarith [Pc.buf, Pc.Submitted]

/-- The queue with one buffer more. -/
theorem Inv.queue_append {pp : Option B} (h : Inv s l) (hpc : s.pc p = .append b pp) (hb : b ∉ l) :
    (s.mem.assign pp b).idequeue = first some (l ++ [b]) none ∧
      Links (s.mem.assign pp b).qnext some (l ++ [b]) none := by
  have hbnone := h.zeroed p b pp (Or.inr hpc)
  rcases h.place hpc with ⟨rfl, rfl⟩ | ⟨m, c, rfl, rfl⟩
  · exact ⟨rfl, hbnone, trivial⟩
  · refine ⟨?_, h.links.snoc hbnone h.nodup ?_⟩
    · change s.mem.idequeue = _
      rw [h.head]
      cases m <;> rfl
    · rintro rfl
      exact hb (by simp)

theorem Inv.append {pp : Option B} (h : Inv s l) (hcur : s.cur = some p) (hpc : s.pc p = .append b pp)
    (halone : ∀ q c, s.pc q = .append c pp → q = p) :
    Inv ((s.store (s.mem.assign pp b)).goto p (.start b)) (l ++ [b]) := by
  have hb : b ∉ l := h.not_mem (p := p) (by simp [hpc, Pc.buf]) (by simp [hpc, Pc.Submitted])
  have hrun := h.awake hcur (by simp [hpc])
  have hother := h.other (p := p) (b := b) (by simp [hpc, Pc.buf])
  obtain ⟨hhead, hlinks⟩ := h.queue_append hpc hb
  have hplace := h.place hpc
  -- every process at this statement is at the end of the queue
  have hnone : ∀ q c qq, s.pc q = .append c qq → q = p := by
    intro q c qq hq
    have hqq : qq = pp := by
      rcases h.place hq with ⟨rfl, hl⟩ | ⟨m, d, rfl, hl⟩
      · rcases hplace with ⟨rfl, -⟩ | ⟨m, d, -, hl'⟩
        · rfl
        · rw [hl] at hl'
          simp at hl'
      · rcases hplace with ⟨-, hl'⟩ | ⟨m', d', rfl, hl'⟩
        · rw [hl] at hl'
          simp at hl'
        · rw [hl] at hl'
          obtain ⟨-, hd⟩ := List.append_inj' hl' rfl
          rw [List.cons.inj hd |>.1]
    exact halone q c (hqq ▸ hq)
  have hnew : ∀ h', (s.mem.assign pp b).idequeue = some h' →
      l = [] ∧ h' = b ∨ s.mem.idequeue = some h' := by
    intro h' hh'
    rcases hplace with ⟨rfl, rfl⟩ | ⟨m, c, rfl, rfl⟩
    · exact Or.inl ⟨rfl, (Option.some.inj hh').symm⟩
    · exact Or.inr hh'
  have hsame : (s.mem.assign pp b).valid = s.mem.valid ∧ (s.mem.assign pp b).dirty = s.mem.dirty ∧
      (s.mem.assign pp b).holder = s.mem.holder ∧ (s.mem.assign pp b).started = s.mem.started := by
    cases pp <;> exact ⟨rfl, rfl, rfl, rfl⟩
  have hqnext : ∀ c, c ∉ l → (s.mem.assign pp b).qnext c = s.mem.qnext c := by
    intro c hc
    rcases hplace with ⟨rfl, rfl⟩ | ⟨m, d, rfl, rfl⟩
    · rfl
    · refine Function.update_of_ne ?_ _ _
      rintro rfl
      exact hc (by simp)
  obtain ⟨hvalid, hdirty, hholder, hstarted⟩ := hsame
  have hdone : ¬ s.mem.Done b := h.pending p b (by simp [hpc, Pc.buf]) (by simp [hpc, Pc.Submitted])
  have hfirst : ∀ h', s.mem.idequeue = some h' → h' ∈ l := fun h' hh' => h.head_mem hh'
  have hnodup : (l ++ [b]).Nodup := by
    rw [List.nodup_append]
    exact ⟨h.nodup, by simp, by rintro a ha c hc rfl; exact hb (List.mem_singleton.mp hc ▸ ha)⟩
  have hnot : ∀ q c qq, s.pc q = .walk c qq → c ∉ l :=
    fun q c qq hq => h.not_mem (p := q) (by simp [hq, Pc.buf]) (by simp [hq, Pc.Submitted])
  obtain ⟨h1, h2, h3, h4, h5, hpend, h6, h7, h8, h9, h10, h11, h12, h13, h14, h15⟩ := h
  generalize s.mem.assign pp b = m at *
  refine ⟨hhead, hlinks, hnodup, ?_, ?_, ?_, ?_, ?_, ?_, ?_, ?_, ?_, ?_, ?_, ?_, ?_⟩
  all_goals
    simp only [Machine.goto, Machine.store, Function.update_apply, Disk.Done, List.mem_append,
      List.mem_singleton] at *
    grind -ring -linarith [Pc.buf, Pc.Submitted]

/-- The head of the queue is started. -/
theorem Inv.startHead (h : Inv s l) (hcur : s.cur = some p) (hpc : s.pc p = .start b)
    (hb : s.mem.idequeue = some b) :
    Inv ((s.store { s.mem with started := s.mem.started ++ [b] }).goto p (.test b)) l := by
  have hrun := h.awake hcur (by simp [hpc])
  have hother := h.other (p := p) (b := b) (by simp [hpc, Pc.buf])
  have hstarted : s.mem.started ++ [b] = [b] := by rw [(h.start p b hpc).2 hb, List.nil_append]
  have hderef : ∀ pp, Disk.deref { s.mem with started := [b] } pp = s.mem.deref pp := by
    intro pp
    cases pp <;> rfl
  obtain ⟨h1, h2, h3, h4, h5, hpend, h6, h7, h8, h9, h10, h11, h12, h13, h14, h15⟩ := h
  rw [hstarted]
  refine ⟨h1, h2, h3, ?_, ?_, ?_, ?_, ?_, ?_, ?_, ?_, ?_, ?_, ?_, ?_, ?_⟩
  all_goals
    simp only [Machine.goto, Machine.store, Function.update_apply, Disk.Done] at *
    grind -ring -linarith [Pc.buf, Pc.Submitted]

theorem Inv.startOther (h : Inv s l) (hcur : s.cur = some p) (hpc : s.pc p = .start b)
    (hb : s.mem.idequeue ≠ some b) : Inv (s.goto p (.test b)) l := by
  have hrun := h.awake hcur (by simp [hpc])
  obtain ⟨h1, h2, h3, h4, h5, hpend, h6, h7, h8, h9, h10, h11, h12, h13, h14, h15⟩ := h
  refine ⟨h1, h2, h3, ?_, ?_, ?_, ?_, ?_, ?_, ?_, h10, ?_, ?_, ?_, ?_, ?_⟩
  all_goals
    simp only [Machine.goto, Function.update_apply] at *
    grind -ring -linarith [Pc.buf, Pc.Submitted]

theorem Inv.test (h : Inv s l) (hcur : s.cur = some p) (hpc : s.pc p = .test b) :
    Inv (s.goto p (if s.mem.Done b then .user else .sleep b .chan)) l := by
  have hrun := h.awake hcur (by simp [hpc])
  have hother := h.other (p := p) (b := b) (by simp [hpc, Pc.buf])
  have hmem : ¬ s.mem.Done b → b ∈ l := fun hd => (h.queued b).mpr ⟨hd, p, by simp [hpc, Pc.Submitted]⟩
  obtain ⟨h1, h2, h3, h4, h5, hpend, h6, h7, h8, h9, h10, h11, h12, h13, h14, h15⟩ := h
  by_cases hd : s.mem.Done b
  · rw [if_pos hd]
    refine ⟨h1, h2, h3, ?_, ?_, ?_, ?_, ?_, ?_, ?_, h10, ?_, ?_, ?_, ?_, ?_⟩
    all_goals
      simp only [Machine.goto, Function.update_apply] at *
      grind -ring -linarith [Pc.buf, Pc.Submitted]
  · rw [if_neg hd]
    refine ⟨h1, h2, h3, ?_, ?_, ?_, ?_, ?_, ?_, ?_, h10, ?_, ?_, ?_, ?_, ?_⟩
    all_goals
      simp only [Machine.goto, Function.update_apply] at *
      grind -ring -linarith [Pc.buf, Pc.Submitted]

/-- One statement of `sleep(b)`. -/
theorem Inv.sleepStep {i : SleepPc} {j : Option SleepPc} {k : Pc B} {u : M P B} (h : Inv s l)
    (hcur : s.cur = some p) (hpc : s.pc p = .sleep b i)
    (hk : k = match j with
      | some j => .sleep b j
      | none => .test b)
    (hs : sleepStmt s p b i = .ok (u, j)) : Inv (u.goto p k) l := by
  subst hk
  have hother := h.other (p := p) (b := b) (by simp [hpc, Pc.buf])
  cases i with
  | chan =>
    have hrun := h.awake hcur (by simp [hpc])
    simp only [sleepStmt, Except.ok.injEq, Prod.mk.injEq] at hs
    obtain ⟨rfl, rfl⟩ := hs
    obtain ⟨h1, h2, h3, h4, h5, hpend, h6, h7, h8, h9, h10, h11, h12, h13, h14, h15⟩ := h
    refine ⟨h1, h2, h3, ?_, ?_, ?_, ?_, ?_, ?_, ?_, h10, ?_, ?_, ?_, ?_, ?_⟩
    all_goals
      simp only [Machine.goto, Machine.setChan, Function.update_apply] at *
      grind -ring -linarith [Pc.buf, Pc.Submitted]
  | stat =>
    simp only [sleepStmt, Except.ok.injEq, Prod.mk.injEq] at hs
    obtain ⟨rfl, rfl⟩ := hs
    have hbl : b ∈ l := h.waits p b (Or.inr hpc)
    obtain ⟨h1, h2, h3, h4, h5, hpend, h6, h7, h8, h9, h10, h11, h12, h13, h14, h15⟩ := h
    refine ⟨h1, h2, h3, ?_, ?_, ?_, ?_, ?_, ?_, ?_, h10, ?_, ?_, ?_, ?_, ?_⟩
    rotate_right 2
    · intro q hq
      by_cases hqp : q = p
      · rw [hqp]
        exact ⟨b, .transform, Function.update_self _ _ _, by simp, by simp, hbl⟩
      · simp only [Machine.goto, Machine.setStat, Function.update_of_ne hqp] at hq ⊢
        exact h14 q hq
    · intro q hc _
      obtain rfl := Option.some.inj (hcur.symm.trans hc)
      exact ⟨b, Function.update_self _ _ _⟩
    all_goals
      simp only [Machine.goto, Machine.setStat, Function.update_apply] at *
      grind -ring -linarith [Pc.buf, Pc.Submitted]
  | transform =>
    obtain ⟨v, hv, hs⟩ := bind_eq_ok.mp hs
    simp only [Machine.transform] at hv
    split at hv
    · simp at hv
    · simp only [pure, Except.pure, Except.ok.injEq, Prod.mk.injEq] at hv hs
      obtain ⟨rfl, rfl⟩ := hs
      subst hv
      obtain ⟨h1, h2, h3, h4, h5, hpend, h6, h7, h8, h9, h10, h11, h12, h13, h14, h15⟩ := h
      refine ⟨h1, h2, h3, ?_, ?_, ?_, ?_, ?_, ?_, ?_, h10, ?_, ?_, ?_, ?_, ?_⟩
      all_goals
        simp only [Machine.goto, Function.update_apply] at *
        grind -ring -linarith [Pc.buf, Pc.Submitted]
  | back =>
    have hrun := h.awake hcur (by simp [hpc])
    simp only [sleepStmt, Except.ok.injEq, Prod.mk.injEq] at hs
    obtain ⟨rfl, rfl⟩ := hs
    obtain ⟨h1, h2, h3, h4, h5, hpend, h6, h7, h8, h9, h10, h11, h12, h13, h14, h15⟩ := h
    refine ⟨h1, h2, h3, ?_, ?_, ?_, ?_, ?_, ?_, ?_, h10, ?_, ?_, ?_, ?_, ?_⟩
    all_goals
      simp only [Machine.goto, Machine.setChan, Function.update_apply] at *
      grind -ring -linarith [Pc.buf, Pc.Submitted]

theorem Inv.stmt {blockno : B → Nat} (h : Inv s l) (hcur : s.cur = some p)
    (halone : ∀ c pp, s.pc p = .append c pp → ∀ q d, s.pc q = .append d pp → q = p)
    (he : stmt blockno s p = .ok t) : ∃ l, Inv t l := by
  simp only [Ide.stmt] at he
  split at he
  · simp at he
  · rename_i b hpc
    rw [← Except.ok.inj he]
    exact ⟨l, h.zero hcur hpc⟩
  · rename_i b pp hpc
    split at he
    · rename_i hpp
      rw [← Except.ok.inj he]
      exact ⟨l, h.walkEnd hcur hpc hpp⟩
    · rename_i c hpp
      rw [← Except.ok.inj he]
      exact ⟨l, h.walkOn hcur hpc hpp⟩
  · rename_i b pp hpc
    rw [← Except.ok.inj he]
    exact ⟨l ++ [b], h.append hcur hpc (halone b pp hpc)⟩
  · rename_i b hpc
    split at he
    · rename_i hb
      obtain ⟨m, hm, he⟩ := bind_eq_ok.mp he
      simp only [idestart] at hm
      split at hm
      · simp at hm
      · rw [← Except.ok.inj he, ← Except.ok.inj hm]
        exact ⟨l, h.startHead hcur hpc hb⟩
    · rename_i hb
      rw [← Except.ok.inj he]
      exact ⟨l, h.startOther hcur hpc hb⟩
  · rename_i b hpc
    rw [← Except.ok.inj he]
    exact ⟨l, h.test hcur hpc⟩
  · rename_i b i hpc
    obtain ⟨⟨u, j⟩, hs, he⟩ := bind_eq_ok.mp he
    rw [← Except.ok.inj he]
    exact ⟨l, h.sleepStep hcur hpc rfl hs⟩

/-! ### Calls and interrupts -/

/-- The buffer of a process that calls `iderw` is not in the queue. -/
theorem Inv.not_mem_user (h : Inv s l) (hpc : s.pc p = .user) (hb : s.mem.holder b = some p) :
    b ∉ l := by
  intro hmem
  obtain ⟨-, q, hq⟩ := (h.queued b).mp hmem
  have hqb := h.owned q b (submitted_buf hq)
  rw [hb] at hqb
  obtain rfl := Option.some.inj hqb
  rw [hpc] at hq
  exact hq

theorem Inv.enter {c : Call B} (h : Inv s l) (hcur : s.cur = some p) (he : enter s p c = .ok t) :
    Inv t l := by
  simp only [Ide.enter] at he
  split at he
  · rename_i b hpc
    split at he
    · rename_i hb
      rw [← Except.ok.inj he]
      obtain ⟨h1, h2, h3, h4, h5, hpend, h6, h7, h8, h9, h10, h11, h12, h13, h14, h15⟩ := h
      refine ⟨h1, h2, h3, ?_, h5, hpend, h6, h7, h8, h9, h10, h11, h12, h13, h14, h15⟩
      simp only [Machine.store, Function.update_apply]
      grind -ring -linarith
    · simp at he
  · rename_i b hpc
    split at he
    · rename_i hb
      rw [← Except.ok.inj he]
      obtain ⟨h1, h2, h3, h4, h5, hpend, h6, h7, h8, h9, h10, h11, h12, h13, h14, h15⟩ := h
      refine ⟨h1, h2, h3, ?_, h5, hpend, h6, h7, h8, h9, h10, h11, h12, h13, h14, h15⟩
      simp only [Machine.store, Function.update_apply]
      grind -ring -linarith [Pc.buf]
    · simp at he
  · rename_i b valid dirty hpc
    split at he
    · rename_i hb
      split at he
      · simp at he
      · rename_i hdone
        rw [← Except.ok.inj he]
        have hrun := h.awake hcur (by simp [hpc])
        have hnot := h.not_mem_user hpc hb
        have hother : ∀ q, (s.pc q).buf ≠ some b := by
          intro q hq
          have hqb := h.owned q b hq
          rw [hb] at hqb
          obtain rfl := Option.some.inj hqb
          simp [hpc, Pc.buf] at hq
        have hsub : ∀ q, ¬ (s.pc q).Submitted b := fun q hq => hother q (submitted_buf hq)
        have hderef : ∀ pp, Disk.deref { s.mem with valid := Function.update s.mem.valid b valid
                                                    dirty := Function.update s.mem.dirty b dirty } pp =
            s.mem.deref pp := by
          intro pp
          cases pp <;> rfl
        obtain ⟨h1, h2, h3, h4, h5, hpend, h6, h7, h8, h9, h10, h11, h12, h13, h14, h15⟩ := h
        refine ⟨h1, h2, h3, ?_, ?_, ?_, ?_, ?_, ?_, ?_, h10, ?_, ?_, ?_, ?_, ?_⟩
        all_goals
          simp only [Machine.goto, Machine.store, Function.update_apply, Disk.Done] at *
          grind -ring -linarith [Pc.buf, Pc.Submitted]
    · simp at he
  · simp at he

/-- No process is where the handler would do harm when it completes the request for `h`:
    behind `h` with its walk, between the append behind `h` and the test, or between the
    test of the flags of `h` and the assignment to `p_stat`. -/
structure Clear (s : M P B) (h : B) : Prop where
  walk : ∀ p b, s.pc p ≠ .walk b (some h) ∧ s.pc p ≠ .append b (some h)
  start : ∀ p b, s.mem.qnext h = some b → s.pc p ≠ .start b
  sleep : ∀ p, s.pc p ≠ .sleep h .chan ∧ s.pc p ≠ .sleep h .stat

theorem Inv.wakeup {m : Disk P B} {c : B} {l : List B} (h : Inv s (c :: l)) (hclear : Clear s c)
    (hhead : m.idequeue = s.mem.qnext c) (hqnext : m.qnext = s.mem.qnext)
    (hvalid : m.valid = Function.update s.mem.valid c true)
    (hdirty : m.dirty = Function.update s.mem.dirty c false) (hholder : m.holder = s.mem.holder)
    (hstarted : m.started = l.take 1) (hbusy : s.mem.started ≠ []) :
    Inv (wakeup (s.store m) c) l := by
  have hfirst : m.idequeue = first some l none := hhead.trans h.links.1
  have hc : s.mem.idequeue = some c := h.head
  have hcl : c ∉ l := (List.nodup_cons.mp h.nodup).1
  have hnot : ∀ q b, (s.pc q).buf = some b → ¬ (s.pc q).Submitted b → b ≠ c := by
    rintro q b hq hs rfl
    exact h.not_mem hq hs List.mem_cons_self
  have hnext : ∀ b, m.idequeue = some b → m.started = [b] := by
    intro b hb
    rw [hstarted]
    cases l with
    | nil => exact absurd (hfirst.symm.trans hb) (by simp [first])
    | cons d l =>
      obtain rfl := Option.some.inj (hfirst.symm.trans hb)
      rfl
  have hnext_ne : ∀ b, s.mem.qnext c = some b → b ≠ c := by
    rintro b hb rfl
    have hbl : first some l none = some b := h.links.1.symm.trans hb
    cases l with
    | nil => cases hbl
    | cons d l =>
      obtain rfl := Option.some.inj hbl
      exact hcl List.mem_cons_self
  have hlast : ∀ q b pp, s.pc q = .append b pp → m.deref pp = none := by
    intro q b pp hq
    have hold := h.last q b pp hq
    cases pp with
    | none => exact absurd (hc.symm.trans hold) (by simp)
    | some d => exact (congrFun hqnext d).trans hold
  have hdone : ∀ b, m.Done b ↔ b = c ∨ s.mem.Done b := by
    intro b
    rw [Disk.Done, hvalid, hdirty]
    by_cases hbc : b = c
    · simp [hbc]
    · simp [hbc, Disk.Done]
  obtain ⟨hwalk, hstart, hsleep⟩ := hclear
  obtain ⟨h1, h2, h3, h4, h5, hpend, h6, h7, h8, h9, h10, h11, h12, h13, h14, h15⟩ := h
  refine ⟨hfirst, ?_, (List.nodup_cons.mp h3).2, ?_, ?_, ?_, ?_, ?_, hlast, ?_, ?_, ?_, ?_, h13, ?_, ?_⟩
  · rw [show (Ide.wakeup (s.store m) c).mem.qnext = s.mem.qnext from hqnext]
    exact h2.2
  all_goals
    simp only [Ide.wakeup, Machine.store, List.mem_cons] at *
    grind -ring -linarith [Pc.buf, Pc.Submitted]

theorem Inv.intr {blockno : B → Nat} (h : Inv s l) (hclear : ∀ c, s.mem.idequeue = some c → Clear s c)
    (hbusy : s.mem.started ≠ []) (he : ideintr blockno s = .ok t) : ∃ l, Inv t l := by
  cases l with
  | nil => exact absurd (h.idle rfl) hbusy
  | cons c l =>
    have hc : s.mem.idequeue = some c := h.head
    have htail : s.mem.started.tail = [] := by
      rcases h.active c hc with hs | ⟨hs, -⟩
      · rw [hs]
        rfl
      · exact absurd hs hbusy
    have hfirst : s.mem.qnext c = first some l none := h.links.1
    refine ⟨l, ?_⟩
    simp only [ideintr, hc] at he
    cases l with
    | nil =>
      rw [show s.mem.qnext c = none from hfirst] at he
      rw [← Except.ok.inj he]
      exact h.wakeup (hclear c hc) hfirst.symm rfl rfl rfl rfl htail hbusy
    | cons d l =>
      rw [show s.mem.qnext c = some d from hfirst] at he
      obtain ⟨m, hm, he⟩ := bind_eq_ok.mp he
      simp only [idestart] at hm
      split at hm
      · simp at hm
      · rw [← Except.ok.inj he, ← Except.ok.inj hm]
        exact h.wakeup (m := { s.mem with
          idequeue := some d
          valid := Function.update s.mem.valid c true
          dirty := Function.update s.mem.dirty c false
          started := s.mem.started.tail ++ [d] }) (hclear c hc) hfirst.symm rfl rfl rfl rfl
          (by rw [htail]; rfl) hbusy

/-! ### The runs -/

/-- The step does no harm: the handler finds nobody in its way, and a process appends
    where nobody else is about to. -/
def Calm (s : M P B) : Act P B → Prop
  | .intr => ∀ c, s.mem.idequeue = some c → Clear s c
  | .proc .stmt => ∀ p b pp, s.cur = some p → s.pc p = .append b pp →
      ∀ q c, s.pc q = .append c pp → q = p
  | _ => True

def CalmStep (blockno : B → Nat) (s : M P B) (a : Act P B) (t : M P B) : Prop :=
  Calm s a ∧ exec blockno s a = .ok t

theorem Inv.step {blockno : B → Nat} {a : Act P B} (h : Inv s l) (hs : CalmStep blockno s a t) :
    ∃ l, Inv t l := by
  obtain ⟨hcalm, he⟩ := hs
  cases a with
  | intr =>
    simp only [exec] at he
    split at he
    · simp at he
    · rename_i hbusy
      exact h.intr hcalm hbusy he
  | proc a =>
    rcases step_cases he with ⟨p, -, -, -, rfl⟩ | ⟨p, -, -, -, -, rfl⟩ | ⟨p, -, rfl⟩ |
      ⟨p, c, -, hcur, he⟩ | ⟨p, rfl, hcur, he⟩
    · refine ⟨l, h.cpu rfl rfl rfl ?_ ?_⟩
      · intro q hq
        simp only [Machine.switchTo, Machine.setStat, Function.update_apply] at hq
        split at hq
        · simp at hq
        · exact hq
      · intro q hc hq
        obtain rfl := Option.some.inj hc
        simp [Machine.switchTo, Machine.setStat] at hq
    · refine ⟨l, h.cpu rfl rfl rfl ?_ ?_⟩
      · intro q hq
        simp only [Machine.giveupCpu, Machine.setStat, Function.update_apply] at hq
        split at hq
        · simp at hq
        · exact hq
      · intro q hc _
        cases hc
    · split
      · refine ⟨l, h.cpu rfl rfl rfl ?_ fun q hc _ => hc⟩
        intro q hq
        simp only [Machine.setStat, Function.update_apply] at hq
        split at hq
        · simp at hq
        · exact hq
      · exact ⟨l, h⟩
    · exact ⟨l, h.enter hcur he⟩
    · exact h.stmt hcur (fun c pp => hcalm p c pp hcur) he

theorem init_inv : Inv (init : M P B) [] := by
  refine ⟨rfl, trivial, List.nodup_nil, ?_, ?_, ?_, ?_, ?_, ?_, ?_, fun _ => rfl, ?_, ?_, ?_, ?_, ?_⟩
  all_goals simp [init, Pc.buf, Pc.Submitted]

end Steps

/-! ### Two processes -/

section Two

variable [Fintype P] [Fintype B] [DecidableEq P] [DecidableEq B]

instance (s : M P B) (h : B) : Decidable (Clear s h) :=
  decidable_of_iff ((∀ p b, s.pc p ≠ .walk b (some h) ∧ s.pc p ≠ .append b (some h)) ∧
      (∀ p b, s.mem.qnext h = some b → s.pc p ≠ .start b) ∧
      ∀ p, s.pc p ≠ .sleep h .chan ∧ s.pc p ≠ .sleep h .stat)
    ⟨fun ⟨h1, h2, h3⟩ => ⟨h1, h2, h3⟩, fun ⟨h1, h2, h3⟩ => ⟨h1, h2, h3⟩⟩

instance (s : M P B) (a : Act P B) : Decidable (Calm s a) :=
  match a with
  | .intr => inferInstanceAs (Decidable (∀ c, s.mem.idequeue = some c → Clear s c))
  | .proc .stmt => inferInstanceAs (Decidable (∀ p b pp, s.cur = some p → s.pc p = .append b pp →
      ∀ q c, s.pc q = .append c pp → q = p))
  | .proc (.dispatch _) | .proc .timer | .proc (.rouse _) | .proc (.call _) => isTrue trivial

/-- `exec`, refusing the steps that are not calm. -/
def calmExec (blockno : B → Nat) (s : M P B) (a : Act P B) : Except Stop (M P B) :=
  if Calm s a then exec blockno s a else .error .notCalled

theorem calmExec_step {blockno : B → Nat} {s t : M P B} {a : Act P B}
    (h : calmExec blockno s a = .ok t) : CalmStep blockno s a t := by
  simp only [calmExec] at h
  split at h
  · rename_i hcalm
    exact ⟨hcalm, h⟩
  · simp at h

end Two

/-- Process `p` is dispatched, reads buffer `b` and performs `n` statements of `iderw`. -/
def reads (p b : Fin 2) (n : Nat) : List (Act (Fin 2) (Fin 2)) :=
  .proc (.dispatch p) :: .proc (.call (.lock b)) :: .proc (.call (.iderw b false false)) ::
    List.replicate n (.proc .stmt)

/-- Both sleep when the disk is done with the first buffer. -/
def pairTrace : List (Act (Fin 2) (Fin 2)) := reads 0 0 8 ++ reads 1 1 9 ++ [.intr]

/-- The disk is done when process `0` has tested the flags. -/
def earlyTrace : List (Act (Fin 2) (Fin 2)) := reads 0 0 5 ++ [.intr, .proc .stmt, .proc .stmt]

end Yonix.Sync.Ide
