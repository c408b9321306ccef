/-
  Yonix/Sync/Transaction.lean
  ===========================
  **The log protocol (`begin_op`, `end_op`, `log_write` and `commit` of `log.c`).**

  Any number of processes perform transactions: `begin_op`, some calls of `log_write`,
  `end_op`.  A process loses the CPU when it sleeps: in `begin_op` on `&log`, anywhere
  in a transaction for the disk, and at every disk transfer of `commit`.  What it does
  between two sleeps is one step.  A transfer that finds its block in the cache and does
  not sleep is one whose sleeper is made ready and dispatched at once.

  The transfers themselves are in `Log/`; here `commit` is the order of its transfers
  and what it does to the log header.
-/
import Yonix.Sync.Section

namespace Yonix.Sync.Transaction

open Yonix.Proc (Stat)

/-- `struct log`; `block` are the first `lh.n` elements of `lh.block`. -/
structure Log where
  size : Nat
  outstanding : Int
  committing : Bool
  block : List Nat

/-- The next disk transfer of `commit`: three for each block in `write_log` and in
    `install_trans`, two in each `write_head`. -/
inductive CommitPc where
  | writeLog (tail k : Nat)
  | writeHead (k : Nat)
  | install (tail k : Nat)
  | clearHead (k : Nat)
deriving DecidableEq

/-- The transfer after `c`, with `n` blocks in the log; `none` is the return. -/
def CommitPc.next (n : Nat) : CommitPc → Option CommitPc
  | .writeLog tail k =>
    if k < 2 then some (.writeLog tail (k + 1))
    else if tail + 1 < n then some (.writeLog (tail + 1) 0)
    else some (.writeHead 0)
  | .writeHead k => if k < 1 then some (.writeHead (k + 1)) else some (.install 0 0)
  | .install tail k =>
    if k < 2 then some (.install tail (k + 1))
    else if tail + 1 < n then some (.install (tail + 1) 0)
    else some (.clearHead 0)
  | .clearHead k => if k < 1 then some (.clearHead (k + 1)) else none

/-- A process outside, at the loop of `begin_op`, inside a transaction, back from the
    disk there, at `end_op`, at a transfer of `commit`, behind `commit`. -/
inductive Pc where
  | user
  | begin
  | inOp
  | transfer
  | endOp
  | commit (c : CommitPc)
  | committed
deriving DecidableEq

inductive Chan where
  | log
  | disk
deriving DecidableEq

inductive Call where
  | beginOp
  | logWrite (blockno : Nat)
  | transfer
  | endOp

variable {P : Type} [DecidableEq P]

abbrev M (P : Type) := Machine P Chan Pc Log

def logWrite (l : Log) (b : Nat) : Except Stop Log :=
  if LOGSIZE ≤ l.block.length ∨ (l.size : Int) - 1 ≤ l.block.length then
    .error (.panic .tooBigTransaction)
  else if l.outstanding < 1 then .error (.panic .outsideTrans)
  else .ok (if b ∈ l.block then l else { l with block := l.block ++ [b] })

def enter (s : M P) (p : P) (c : Call) : Except Stop (M P) :=
  match s.pc p, c with
  | .user, .beginOp => .ok (s.goto p .begin)
  | .inOp, .logWrite b => do return s.store (← logWrite s.mem b)
  | .inOp, .transfer => .ok (s.sleep p .disk .transfer)
  | .inOp, .endOp => .ok (s.goto p .endOp)
  | _, _ => .error .notCalled

/-- A transaction that `begin_op` does not admit. -/
def Log.Blocked (l : Log) : Prop :=
  l.committing = true ∨ (LOGSIZE : Int) < l.block.length + (l.outstanding + 1) * MAXOPBLOCKS

instance (l : Log) : Decidable l.Blocked := by unfold Log.Blocked; infer_instance

/-- One pass of the loop of `begin_op`. -/
def beginOp (s : M P) (p : P) : M P :=
  if s.mem.Blocked then s.sleep p .log .begin
  else (s.store { s.mem with outstanding := s.mem.outstanding + 1 }).goto p .inOp

/-- `end_op` up to the first transfer of `commit`. -/
def endOp (s : M P) (p : P) : Except Stop (M P) :=
  let l := { s.mem with outstanding := s.mem.outstanding - 1 }
  if l.committing then .error (.panic .logCommitting)
  else if l.outstanding = 0 then
    .ok ((s.store { l with committing := true }).goto p
      (if l.block = [] then .committed else .commit (.writeLog 0 0)))
  else .ok (((s.store l).wakeup .log).goto p .user)

/-- The transfer `c`.  `lh.n` is cleared before the second `write_head`. -/
def commitStep (s : M P) (p : P) (c : CommitPc) : M P :=
  let l := if c = .clearHead 0 then { s.mem with block := [] } else s.mem
  (s.store l).sleep p .disk ((c.next s.mem.block.length).elim .committed .commit)

def stmt (s : M P) (p : P) : Except Stop (M P) :=
  let u := s.setChan p none
  match s.pc p with
  | .user => .error .notCalled
  | .inOp => .error .notCalled
  | .begin => .ok (beginOp u p)
  | .transfer => .ok (u.goto p .inOp)
  | .endOp => endOp s p
  | .commit c => .ok (commitStep u p c)
  | .committed => .ok (((u.store { s.mem with committing := false }).wakeup .log).goto p .user)

def code : Program P Chan Pc Log Call where
  enter := enter
  stmt := stmt

/-! ### Processes in a transaction, and the committer -/

def InOp : Pc → Prop
  | .inOp => True
  | .transfer => True
  | .endOp => True
  | _ => False

instance : DecidablePred InOp := fun i => by cases i <;> simp only [InOp] <;> infer_instance

def Commits : Pc → Prop
  | .commit _ => True
  | .committed => True
  | _ => False

theorem Commits.not_inOp {i : Pc} (h : Commits i) : ¬ InOp i := by
  cases i <;> simp_all [Commits, InOp]

/-- The number of processes between `begin_op` and `end_op`. -/
def ops [Fintype P] (s : M P) : Nat := (Finset.univ.filter fun p => InOp (s.pc p)).card

section Count

variable [Fintype P] {s : M P} {p : P} {i : Pc}

theorem card_goto (f : P → Pc) (p : P) (i : Pc) :
    ((Finset.univ.filter fun q => InOp (Function.update f p i q)).card : Int) +
      (if InOp (f p) then 1 else 0) =
    (Finset.univ.filter fun q => InOp (f q)).card + if InOp i then 1 else 0 := by
  have hsum : ∀ g : P → Pc, ((Finset.univ.filter fun q => InOp (g q)).card : Int) =
      ∑ q, if InOp (g q) then 1 else 0 := by
    intro g
    rw [Finset.sum_boole]
  rw [hsum, hsum, ← Finset.add_sum_erase _ _ (Finset.mem_univ p),
    ← Finset.add_sum_erase (a := p) _ (fun q => if InOp (f q) then (1 : Int) else 0)
      (Finset.mem_univ p)]
  have hrest : ∑ q ∈ Finset.univ.erase p, (if InOp (Function.update f p i q) then (1 : Int) else 0) =
      ∑ q ∈ Finset.univ.erase p, if InOp (f q) then 1 else 0 := by
    apply Finset.sum_congr rfl
    intro q hq
    rw [Function.update_of_ne (Finset.ne_of_mem_erase hq)]
  rw [hrest, Function.update_self]
  ring

theorem ops_goto (s : M P) (p : P) (i : Pc) :
    ((ops (s.goto p i) : Nat) : Int) + (if InOp (s.pc p) then 1 else 0) =
      ops s + if InOp i then 1 else 0 :=
  card_goto s.pc p i

omit [DecidableEq P] in
theorem ops_pos (h : InOp (s.pc p)) : 0 < ops s := by
  apply Finset.card_pos.mpr
  exact ⟨p, Finset.mem_filter.mpr ⟨Finset.mem_univ p, h⟩⟩

end Count

/-! ### What one step does -/

/-- What a move does to the sleepers: nothing, wake those on `&log`, or put the process
    that moves to sleep. -/
inductive Effect where
  | none
  | wake
  | sleep (e : Chan)

def Effect.apply (s : M P) (p : P) (i : Pc) (l : Log) : Effect → M P
  | .none => (s.store l).goto p i
  | .wake => ((s.store l).wakeup .log).goto p i
  | .sleep e => (s.store l).sleep p e i

/-- The moves of a process from one place to another, and what becomes of the log. -/
inductive Move : Pc → Log → Pc → Log → Effect → Prop where
  | call {l : Log} : Move .user l .begin l .none
  | write {l l' : Log} {b : Nat} (h : logWrite l b = .ok l') : Move .inOp l .inOp l' .none
  | wait {l : Log} : Move .inOp l .transfer l (.sleep .disk)
  | resume {l : Log} : Move .transfer l .inOp l .none
  | finish {l : Log} : Move .inOp l .endOp l .none
  | blocked {l : Log} (h : l.Blocked) : Move .begin l .begin l (.sleep .log)
  | admitted {l : Log} (h : ¬ l.Blocked) :
      Move .begin l .inOp { l with outstanding := l.outstanding + 1 } .none
  | last {l : Log} {i : Pc} (h : l.committing = false) (h0 : l.outstanding - 1 = 0) (hi : Commits i) :
      Move .endOp l i { l with outstanding := l.outstanding - 1, committing := true } .none
  | left {l : Log} (h : l.committing = false) (h0 : l.outstanding - 1 ≠ 0) :
      Move .endOp l .user { l with outstanding := l.outstanding - 1 } .wake
  | commit {l : Log} {c : CommitPc} {i : Pc} (b : List Nat) (hi : Commits i) :
      Move (.commit c) l i { l with block := b } (.sleep .disk)
  | committed {l : Log} : Move .committed l .user { l with committing := false } .wake

variable {s t : M P} {p q : P} {a : Act P Call} {i j : Pc} {l l' : Log} {e : Effect}

theorem enter_move {c : Call} (h : enter s p c = .ok t) :
    ∃ i l e, Move (s.pc p) s.mem i l e ∧ t = e.apply s p i l := by
  simp only [enter] at h
  split at h
  · rename_i hpc
    rw [hpc]
    exact ⟨.begin, s.mem, .none, .call, (Except.ok.inj h).symm⟩
  · rename_i b hpc
    rw [hpc]
    obtain ⟨l, hl, h⟩ := bind_eq_ok.mp h
    refine ⟨.inOp, l, .none, .write hl, ?_⟩
    have hgoto : (s.store l).goto p .inOp = s.store l := by
      rw [← hpc]
      simp [Machine.goto, Machine.store]
    rw [Effect.apply, hgoto]
    exact (Except.ok.inj h).symm
  · rename_i hpc
    rw [hpc]
    exact ⟨.transfer, s.mem, .sleep .disk, .wait, (Except.ok.inj h).symm⟩
  · rename_i hpc
    rw [hpc]
    exact ⟨.endOp, s.mem, .none, .finish, (Except.ok.inj h).symm⟩
  · simp at h

theorem stmt_move (h : stmt s p = .ok t) :
    ∃ u i l e, (u = s ∨ u = s.setChan p none) ∧ Move (s.pc p) s.mem i l e ∧ t = e.apply u p i l := by
  simp only [stmt] at h
  split at h
  · simp at h
  · simp at h
  · rename_i hpc
    rw [hpc, ← Except.ok.inj h, beginOp]
    split
    · rename_i hb
      exact ⟨s.setChan p none, .begin, s.mem, .sleep .log, .inr rfl, .blocked hb, rfl⟩
    · rename_i hb
      exact ⟨s.setChan p none, .inOp, _, .none, .inr rfl, .admitted hb, rfl⟩
  · rename_i hpc
    rw [hpc]
    exact ⟨s.setChan p none, .inOp, s.mem, .none, .inr rfl, .resume, (Except.ok.inj h).symm⟩
  · rename_i hpc
    rw [hpc]
    simp only [endOp] at h
    split at h
    · simp at h
    · rename_i hc
      have hc' : s.mem.committing = false := by simpa using hc
      split at h
      · rename_i h0
        refine ⟨s, _, _, .none, .inl rfl, .last hc' h0 ?_, (Except.ok.inj h).symm⟩
        split
        · trivial
        · trivial
      · rename_i h0
        exact ⟨s, .user, _, .wake, .inl rfl, .left hc' h0, (Except.ok.inj h).symm⟩
  · rename_i c hpc
    have hnext : Commits ((c.next s.mem.block.length).elim .committed .commit) := by
      cases c.next s.mem.block.length with
      | none => trivial
      | some d => trivial
    rw [hpc, ← Except.ok.inj h]
    by_cases hc : c = .clearHead 0
    · refine ⟨s.setChan p none, _, _, .sleep .disk, .inr rfl, .commit [] hnext, ?_⟩
      simp only [commitStep, if_pos hc]
      rfl
    · refine ⟨s.setChan p none, _, _, .sleep .disk, .inr rfl, .commit s.mem.block hnext, ?_⟩
      simp only [commitStep, if_neg hc]
      rfl
  · rename_i hpc
    rw [hpc]
    exact ⟨s.setChan p none, .user, _, .wake, .inr rfl, .committed, (Except.ok.inj h).symm⟩

theorem Move.outstanding (h : Move i l j l' e) :
    l'.outstanding + (if InOp i then 1 else 0) = l.outstanding + if InOp j then 1 else 0 := by
  cases h with
  | write h =>
    simp only [logWrite] at h
    split at h
    · simp at h
    · split at h
      · simp at h
      · rw [← Except.ok.inj h]
        split
        · rfl
        · rfl
  | last h h0 hi =>
    rw [if_neg hi.not_inOp]
    simp [InOp]
  | commit b hi =>
    rw [if_neg hi.not_inOp]
    simp [InOp]
  | _ => simp [InOp]

/-- `committing` is set where a process starts to commit and cleared where it is done. -/
theorem Move.committing (h : Move i l j l' e) :
    ((Commits i ↔ Commits j) ∧ l'.committing = l.committing) ∨
      (¬ Commits i ∧ Commits j ∧ l.committing = false ∧ l'.committing = true ∧ l'.outstanding = 0) ∨
      (Commits i ∧ ¬ Commits j ∧ l'.committing = false) := by
  cases h with
  | write h =>
    left
    simp only [logWrite] at h
    split at h
    · simp at h
    · split at h
      · simp at h
      · rw [← Except.ok.inj h]
        split
        · exact ⟨Iff.rfl, rfl⟩
        · exact ⟨Iff.rfl, rfl⟩
  | last h h0 hi => exact .inr (.inl ⟨id, hi, h, rfl, h0⟩)
  | commit b hi => exact .inl ⟨⟨fun _ => hi, fun _ => trivial⟩, rfl⟩
  | committed => exact .inr (.inr ⟨trivial, id, rfl⟩)
  | _ => exact .inl ⟨by simp [Commits], rfl⟩

theorem Move.outstanding_eq (h : Move i l j l' e) :
    l'.outstanding = l.outstanding ∨ l.committing = false := by
  cases h with
  | write h =>
    left
    simp only [logWrite] at h
    split at h
    · simp at h
    · split at h
      · simp at h
      · rw [← Except.ok.inj h]
        split
        · rfl
        · rfl
  | admitted h => exact .inr (by simpa [Log.Blocked] using fun hc => h (.inl hc))
  | last h h0 hi => exact .inr h
  | left h h0 => exact .inr h
  | _ => exact .inl rfl

/-- Whoever is not admitted stays so, or is woken. -/
theorem Move.blocked_keep (h : Move i l j l' e) (hb : l.Blocked) (hc : Commits i → l.committing = true) :
    l'.Blocked ∨ e = .wake := by
  cases h with
  | write h =>
    left
    simp only [logWrite] at h
    split at h
    · simp at h
    · split at h
      · simp at h
      · rw [← Except.ok.inj h]
        split
        · exact hb
        · rcases hb with hb | hb
          · exact .inl hb
          · right
            simp only [List.length_append, List.length_singleton]
            omega
  | admitted h => exact absurd hb h
  | last h h0 hi => exact .inl (.inl rfl)
  | left h h0 => exact .inr rfl
  | commit b hi => exact .inl (.inl (hc trivial))
  | committed => exact .inr rfl
  | _ => exact .inl hb

/-- A process that comes to `begin_op` runs, or sleeps on `&log` because it is not
    admitted. -/
theorem Move.to_begin (h : Move i l .begin l' e) : e = .none ∨ e = .sleep .log ∧ l'.Blocked := by
  generalize hj : Pc.begin = j at h
  cases h with
  | call => exact .inl rfl
  | blocked h => exact .inr ⟨rfl, h⟩
  | last h h0 hi =>
    subst hj
    exact hi.elim
  | commit b hi =>
    subst hj
    exact hi.elim
  | _ => simp at hj

theorem Move.block (h : Move i l j l' e) : l'.block = l.block ∨ Commits i ∨ InOp i := by
  cases h with
  | write h => exact .inr (.inr trivial)
  | commit b hi => exact .inr (.inl trivial)
  | _ => exact .inl rfl

/-! ### The invariant -/

structure Inv [Fintype P] (s : M P) : Prop where
  run : ∀ p, s.cur = some p → s.stat p = .SRUN
  count : s.mem.outstanding = ops s
  committer : s.mem.committing = true ↔ ∃ p, Commits (s.pc p)
  unique : ∀ p q, Commits (s.pc p) → Commits (s.pc q) → p = q
  quiet : s.mem.committing = true → s.mem.outstanding = 0
  queue : ∀ p, s.pc p = .begin → s.stat p = .SSLEEPING → s.chan p = some .log ∧ s.mem.Blocked

variable [Fintype P]

omit [DecidableEq P] in
theorem Inv.not_inOp (hs : Inv s) (hc : s.mem.committing = true) (p : P) : ¬ InOp (s.pc p) := by
  intro hp
  have h0 := hs.quiet hc
  rw [hs.count] at h0
  have hpos := ops_pos hp
  omega

omit [DecidableEq P] in
/-- A step that moves nobody and puts nobody to sleep. -/
theorem Inv.idle (hs : Inv s) (hpc : t.pc = s.pc) (hm : t.mem = s.mem)
    (hrun : ∀ p, t.cur = some p → t.stat p = .SRUN)
    (hst : ∀ q, t.stat q = .SSLEEPING → s.stat q = .SSLEEPING ∧ t.chan q = s.chan q) : Inv t where
  run := hrun
  count := by rw [hm, hs.count, ops, ops, hpc]
  committer := by rw [hm, hpc]; exact hs.committer
  unique := by rw [hpc]; exact hs.unique
  quiet := by rw [hm]; exact hs.quiet
  queue := by
    intro q hq hsl
    rw [hpc] at hq
    rw [hm, (hst q hsl).2]
    exact hs.queue q hq (hst q hsl).1

omit [Fintype P] in
/-- What the sleepers are after a move of `p`. -/
theorem apply_asleep (hp : s.stat p = .SRUN) (hq : (e.apply s p j l').stat q = .SSLEEPING) :
    (q = p ∧ ∃ c, e = .sleep c ∧ (e.apply s p j l').chan q = some c) ∨
      (q ≠ p ∧ s.stat q = .SSLEEPING ∧ (e.apply s p j l').chan q = s.chan q ∧
        (e = .wake → s.chan q ≠ some .log)) := by
  by_cases hqp : q = p
  · subst hqp
    left
    refine ⟨rfl, ?_⟩
    cases e with
    | none => simp [Effect.apply, hp] at hq
    | wake => simp [Effect.apply, Machine.Asleep, hp] at hq
    | sleep c => exact ⟨c, rfl, by simp [Effect.apply]⟩
  · right
    cases e with
    | none => exact ⟨hqp, by simpa [Effect.apply] using hq, rfl, by simp⟩
    | wake =>
      have ha : ¬ s.Asleep q .log := by
        intro ha
        simp [Effect.apply, Machine.wakeup, Machine.Asleep, ha.1, ha.2] at hq
      have hst : s.stat q = .SSLEEPING := by
        have : ((s.store l').wakeup .log).stat q = s.stat q := if_neg ha
        rw [← this]
        exact hq
      exact ⟨hqp, hst, rfl, fun _ hc => ha ⟨hst, hc⟩⟩
    | sleep c =>
      refine ⟨hqp, by simpa [Effect.apply, hqp] using hq, by simp [Effect.apply, hqp], by simp⟩

omit [Fintype P] in
theorem apply_pc : (e.apply s p j l').pc = Function.update s.pc p j := by
  cases e <;> rfl

omit [Fintype P] in
theorem apply_mem : (e.apply s p j l').mem = l' := by
  cases e <;> rfl

theorem Inv.move (hs : Inv s) (hc : s.cur = some p) (h : Move (s.pc p) s.mem j l' e) :
    Inv (e.apply s p j l') := by
  have hrun := hs.run p hc
  have hpc : ∀ q, q ≠ p → (e.apply s p j l').pc q = s.pc q := by
    intro q hq
    rw [apply_pc, Function.update_of_ne hq]
  have hself : (e.apply s p j l').pc p = j := by rw [apply_pc, Function.update_self]
  -- when somebody commits it is the one that moves, or he stays where he is
  have hcommitter : Commits (s.pc p) → s.mem.committing = true := fun h => hs.committer.mpr ⟨p, h⟩
  refine ⟨?_, ?_, ?_, ?_, ?_, ?_⟩
  · intro q hq
    cases e with
    | none =>
      have : q = p := by simpa [Effect.apply, hc] using hq.symm
      simpa [Effect.apply, this] using hrun
    | wake =>
      have : q = p := by simpa [Effect.apply, hc] using hq.symm
      simp [Effect.apply, this, Machine.Asleep, hrun]
    | sleep c => simp [Effect.apply] at hq
  · have hout := h.outstanding
    have hops := card_goto s.pc p j
    have hcount := hs.count
    rw [apply_mem, ops, apply_pc]
    rw [ops] at hcount
    omega
  · rw [apply_mem]
    rcases h.committing with ⟨hij, hcm⟩ | ⟨hi, hj, -, hcm, -⟩ | ⟨hi, hj, hcm⟩
    · rw [hcm, hs.committer]
      constructor
      · rintro ⟨q, hq⟩
        by_cases hqp : q = p
        · exact ⟨p, by rw [hself]; exact hij.mp (hqp ▸ hq)⟩
        · exact ⟨q, by rw [hpc q hqp]; exact hq⟩
      · rintro ⟨q, hq⟩
        by_cases hqp : q = p
        · rw [hqp, hself] at hq
          exact ⟨p, hij.mpr hq⟩
        · rw [hpc q hqp] at hq
          exact ⟨q, hq⟩
    · exact ⟨fun _ => ⟨p, by rw [hself]; exact hj⟩, fun _ => hcm⟩
    · constructor
      · intro h'
        rw [hcm] at h'
        simp at h'
      · rintro ⟨q, hq⟩
        by_cases hqp : q = p
        · rw [hqp, hself] at hq
          exact absurd hq hj
        · rw [hpc q hqp] at hq
          exact absurd (hs.unique q p hq hi) hqp
  · -- a process starts to commit only when nobody does
    have hnew : ∀ q, q ≠ p → Commits (s.pc q) → ¬ Commits j := by
      intro q hq hcq hj
      rcases h.committing with ⟨hij, -⟩ | ⟨-, -, hf, -⟩ | ⟨-, hnj, -⟩
      · exact hq (hs.unique q p hcq (hij.mpr hj))
      · rw [hs.committer.mpr ⟨q, hcq⟩] at hf
        simp at hf
      · exact hnj hj
    intro q r hq hr
    by_cases hqp : q = p
    · by_cases hrp : r = p
      · rw [hqp, hrp]
      · rw [hqp, hself] at hq
        rw [hpc r hrp] at hr
        exact absurd hq (hnew r hrp hr)
    · rw [hpc q hqp] at hq
      by_cases hrp : r = p
      · rw [hrp, hself] at hr
        exact absurd hr (hnew q hqp hq)
      · rw [hpc r hrp] at hr
        exact hs.unique q r hq hr
  · rw [apply_mem]
    intro hcm
    rcases h.committing with ⟨-, hcm'⟩ | ⟨-, -, -, -, h0⟩ | ⟨-, -, hcm'⟩
    · rw [hcm] at hcm'
      rcases h.outstanding_eq with ho | ho
      · rw [ho]
        exact hs.quiet hcm'.symm
      · rw [ho] at hcm'
        simp at hcm'
    · exact h0
    · rw [hcm] at hcm'
      simp at hcm'
  · intro q hq hsl
    rw [apply_mem]
    rcases apply_asleep hrun hsl with ⟨rfl, c, hec, hch⟩ | ⟨hqp, hst, hch, hw⟩
    · rw [hself] at hq
      subst hq
      rcases h.to_begin with he | ⟨he, hb⟩
      · rw [he] at hec
        simp at hec
      · rw [he] at hec
        injection hec with hec
        rw [hch, ← hec]
        exact ⟨rfl, hb⟩
    · rw [hpc q hqp] at hq
      obtain ⟨h1, h2⟩ := hs.queue q hq hst
      refine ⟨hch.trans h1, ?_⟩
      rcases h.blocked_keep h2 hcommitter with hb | he
      · exact hb
      · exact absurd h1 (hw he)

theorem Inv.setChan (hs : Inv s) (hc : s.cur = some p) : Inv (s.setChan p none) := by
  refine hs.idle rfl rfl hs.run ?_
  intro q hq
  refine ⟨hq, ?_⟩
  have hne : q ≠ p := by
    rintro rfl
    have hrun := hs.run q hc
    rw [Machine.setChan_stat, hrun] at hq
    simp at hq
  simp [hne]

theorem Inv.step (hs : Inv s) (h : Step code s a t) : Inv t := by
  rcases step_cases h with ⟨p, -, hc, hr, rfl⟩ | ⟨p, -, hc, -, -, rfl⟩ | ⟨p, -, rfl⟩ |
    ⟨p, c, -, hc, he⟩ | ⟨p, -, hc, he⟩
  · refine hs.idle rfl rfl ?_ ?_
    · intro q hq
      have : q = p := by simpa using hq.symm
      simp [this]
    · intro q hq
      by_cases hqp : q = p
      · simp [hqp] at hq
      · exact ⟨by simpa [hqp] using hq, rfl⟩
  · refine hs.idle rfl rfl (by simp) ?_
    intro q hq
    by_cases hqp : q = p
    · simp [hqp] at hq
    · exact ⟨by simpa [hqp] using hq, rfl⟩
  · split
    · rename_i hsl
      refine hs.idle rfl rfl ?_ ?_
      · intro q hq
        have hrun := hs.run q hq
        have hqp : q ≠ p := by
          rintro rfl
          rw [hrun] at hsl
          simp at hsl
        simpa [hqp] using hrun
      · intro q hq
        by_cases hqp : q = p
        · simp [hqp] at hq
        · exact ⟨by simpa [hqp] using hq, rfl⟩
    · exact hs
  · obtain ⟨i, l, e, hmove, rfl⟩ := enter_move he
    exact hs.move hc hmove
  · obtain ⟨u, i, l, e, hu, hmove, rfl⟩ := stmt_move he
    rcases hu with rfl | rfl
    · exact hs.move hc hmove
    · exact (hs.setChan hc).move hc hmove

/-! ### The panics -/

theorem Inv.no_panic (hs : Inv s) (a : Act P Call) :
    exec code s a ≠ .error (.panic .logCommitting) ∧ exec code s a ≠ .error (.panic .outsideTrans) := by
  cases a with
  | dispatch p =>
    simp only [exec]
    split <;> simp
  | timer =>
    simp only [exec]
    split
    · split <;> simp
    · simp
  | rouse p => simp [exec]
  | call c =>
    simp only [exec, code]
    split
    · rename_i p hc
      simp only [enter]
      split
      · simp
      · rename_i b hpc
        have hin : InOp (s.pc p) := by
          rw [hpc]
          trivial
        have hpos := ops_pos hin
        have hcount := hs.count
        simp only [logWrite]
        split
        · simp [bind, Except.bind]
        · rw [if_neg (by omega)]
          simp [bind, Except.bind, pure, Except.pure]
      · simp
      · simp
      · simp
    · simp
  | stmt =>
    simp only [exec, code]
    split
    · rename_i p hc
      simp only [stmt]
      split
      · simp
      · simp
      · simp
      · simp
      · rename_i hpc
        have hin : InOp (s.pc p) := by
          rw [hpc]
          trivial
        have hnc : ¬ s.mem.committing = true := fun h => hs.not_inOp h p hin
        simp only [endOp]
        rw [if_neg hnc]
        split <;> simp
      · simp
      · simp
    · simp

/-- While somebody commits, only he changes the log header. -/
theorem Inv.header (hs : Inv s) (hcm : s.mem.committing = true) (h : Step code s a t) :
    t.mem.block = s.mem.block ∨ ∃ p, s.cur = some p ∧ Commits (s.pc p) := by
  have hmoved : ∀ p j l' (e : Effect), s.cur = some p → Move (s.pc p) s.mem j l' e →
      l'.block = s.mem.block ∨ ∃ p, s.cur = some p ∧ Commits (s.pc p) := by
    intro p j l' e hc hm
    rcases hm.block with hb | hb | hb
    · exact .inl hb
    · exact .inr ⟨p, hc, hb⟩
    · exact absurd hb (hs.not_inOp hcm p)
  rcases step_cases h with ⟨p, -, -, -, rfl⟩ | ⟨p, -, -, -, -, rfl⟩ | ⟨p, -, rfl⟩ |
    ⟨p, c, -, hc, he⟩ | ⟨p, -, hc, he⟩
  · exact .inl rfl
  · exact .inl rfl
  · left
    split
    · rfl
    · rfl
  · obtain ⟨i, l, e, hmove, rfl⟩ := enter_move he
    rw [apply_mem]
    exact hmoved p i l e hc hmove
  · obtain ⟨u, i, l, e, -, hmove, rfl⟩ := stmt_move he
    rw [apply_mem]
    exact hmoved p i l e hc hmove

/-- **The log protocol.**  In every run of any processes that perform transactions,
    from a log that nobody uses: `outstanding` counts the processes in a transaction;
    while `committing` is set it is 0, and the one process that commits is the only one
    whose steps change the header; the two panics are not reached; and whoever sleeps in
    `begin_op` could not be admitted. -/
theorem log_protocol {as : List (Act P Call)} (hcur : s.cur = none) (hpc : ∀ p, s.pc p = .user)
    (hlog : s.mem.outstanding = 0 ∧ s.mem.committing = false) (h : Run (Step code) s as t) :
    t.mem.outstanding = (Finset.univ.filter fun p => InOp (t.pc p)).card ∧
    (t.mem.committing = true → t.mem.outstanding = 0 ∧ (∃! p, Commits (t.pc p)) ∧
      ∀ a u, Step code t a u → u.mem.block ≠ t.mem.block → ∃ p, t.cur = some p ∧ Commits (t.pc p)) ∧
    (∀ a, exec code t a ≠ .error (.panic .logCommitting) ∧
      exec code t a ≠ .error (.panic .outsideTrans)) ∧
    ∀ p, t.pc p = .begin → t.stat p = .SSLEEPING →
      ¬ (t.mem.committing = false ∧
        t.mem.block.length + (t.mem.outstanding + 1) * MAXOPBLOCKS ≤ LOGSIZE) := by
  have hs : Inv s := by
    refine ⟨by simp [hcur], ?_, ?_, ?_, ?_, ?_⟩
    · have : ops s = 0 := by simp [ops, hpc, InOp]
      rw [this]
      exact hlog.1
    · simp [hlog.2, hpc, Commits]
    · intro p q hp
      simp [hpc, Commits] at hp
    · simp [hlog.2]
    · intro p hp
      simp [hpc] at hp
  have ht : Inv t := h.invariant Inv hs fun u a v hu huv => hu.step huv
  refine ⟨ht.count, fun hcm => ⟨ht.quiet hcm, ?_, ?_⟩, ht.no_panic, ?_⟩
  · obtain ⟨p, hp⟩ := ht.committer.mp hcm
    exact ⟨p, hp, fun q hq => ht.unique q p hq hp⟩
  · intro a u hstep hne
    exact (ht.header hcm hstep).resolve_left hne
  · rintro p hp hsl ⟨hcm, hle⟩
    rcases (ht.queue p hp hsl).2 with hb | hb
    · rw [hcm] at hb
      simp at hb
    · omega

/-! ### A group commit -/

def boot (n : Nat) : M (Fin n) where
  cur := none
  iflag := true
  stat := fun _ => .READY
  chan := fun _ => none
  pc := fun _ => .user
  mem := ⟨LOGSIZE, 0, false, []⟩

/-- Process `0` logs a block and commits; process `1` arrives at `begin_op` while the
    first transfer is under way. -/
def commitTrace : List (Act (Fin 2) Call) :=
  [.dispatch ⟨0, Nat.two_pos⟩, .call .beginOp, .stmt, .call (.logWrite 700), .call .endOp, .stmt, .stmt,
    .dispatch ⟨1, Nat.one_lt_two⟩, .call .beginOp, .stmt]

theorem log_protocol_commit :
    ∃ t, Run (Step code) (boot 2) commitTrace t ∧ t.mem.committing = true ∧
      t.stat 1 = .SSLEEPING ∧
      t.mem.outstanding = (Finset.univ.filter fun p => InOp (t.pc p)).card ∧
      (t.mem.committing = true → t.mem.outstanding = 0 ∧ (∃! p, Commits (t.pc p)) ∧
        ∀ a u, Step code t a u → u.mem.block ≠ t.mem.block →
          ∃ p, t.cur = some p ∧ Commits (t.pc p)) ∧
      (∀ a, exec code t a ≠ .error (.panic .logCommitting) ∧
        exec code t a ≠ .error (.panic .outsideTrans)) ∧
      ∀ p, t.pc p = .begin → t.stat p = .SSLEEPING →
        ¬ (t.mem.committing = false ∧
          t.mem.block.length + (t.mem.outstanding + 1) * MAXOPBLOCKS ≤ LOGSIZE) := by
  have hrun : okWith (fun t : M (Fin 2) => t.mem.committing = true ∧ t.stat 1 = .SSLEEPING)
      (commitTrace.foldlM (exec code) (boot 2)) = true := by
    decide
  obtain ⟨t, ht, hm⟩ := okWith_eq_true.mp hrun
  have hm' := of_decide_eq_true hm
  have hr : Run (Step code) (boot 2) commitTrace t := Run.of_foldlM ht
  exact ⟨t, hr, hm'.1, hm'.2, log_protocol rfl (fun _ => rfl) ⟨rfl, rfl⟩ hr⟩

end Yonix.Sync.Transaction
