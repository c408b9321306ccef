/-
  Yonix/Sync/Machine.lean
  =======================
  **One CPU, one statement at a time (`schedule.c`, `trap.c`).**

  The gate of a system call is a trap gate, so a process in the kernel runs with the
  interrupt flag as it found it, and `trap` lets the timer take the CPU away from any
  process that is `SRUN`.  Here a step is one statement of the running process, or a
  switch.  The code the processes run is a parameter, a `Program`; what it works on is
  the component `mem`, and `pc` is the place each process has reached in it.

  `scheduler` does `sti` before every dispatch and `swtch` does not touch the flag, so
  a process comes back to the CPU with the flag set, wherever it left it.  Which ready
  process a scheme picks, and how many ticks a time slice has, is left to the labels.
  The ready queue, `p_avgslp` and the time slices are not part of the state.

  `Alone W` says that nobody but the process on the CPU is at a place in `W`.  It is
  kept by every program that does not give up the CPU in `W`, as long as the timer does
  not strike there (`Alone.step`): such a `W` is executed as one step.
-/
import Yonix.Lib.Run
import Yonix.Proc.Model

namespace Yonix.Sync

open Yonix.Proc (Stat)

structure Machine (P χ ι σ : Type) where
  cur : Option P
  iflag : Bool
  stat : P → Stat
  chan : P → Option χ
  pc : P → ι
  mem : σ

variable {P χ ι σ κ : Type}

namespace Machine

variable (s : Machine P χ ι σ)

@[simps -fullyApplied] def cli : Machine P χ ι σ := { s with iflag := false }

@[simps -fullyApplied] def sti : Machine P χ ι σ := { s with iflag := true }

@[simps -fullyApplied] def store (m : σ) : Machine P χ ι σ := { s with mem := m }

variable [DecidableEq P] (p : P)

@[simps -fullyApplied] def setStat (st : Stat) : Machine P χ ι σ :=
  { s with stat := Function.update s.stat p st }

@[simps -fullyApplied] def setChan (c : Option χ) : Machine P χ ι σ :=
  { s with chan := Function.update s.chan p c }

@[simps -fullyApplied] def goto (i : ι) : Machine P χ ι σ := { s with pc := Function.update s.pc p i }

/-! ### `switch_to`, `giveup_cpu`, `transform` -/

@[simps -fullyApplied] def switchTo : Machine P χ ι σ := { s.setStat p .SRUN with cur := some p, iflag := true }

@[simps -fullyApplied] def giveupCpu : Machine P χ ι σ := { s.setStat p .READY with cur := none }

/-- `transform` by `p`. -/
def transform : Except Stop (Machine P χ ι σ) :=
  if s.stat p = .SRUN then .error (.panic .schedRunning) else .ok { s with cur := none }

end Machine

variable [DecidableEq P]

/-! ### `sleep` and `wakeup` -/

/-- The next statement of `sleep`. -/
inductive SleepPc where
  | chan | stat | transform | back
deriving DecidableEq

/-- One statement of `sleep(e)` by `p`, and the next one; `none` is the return. -/
def sleepStmt (s : Machine P χ ι σ) (p : P) (e : χ) :
    SleepPc → Except Stop (Machine P χ ι σ × Option SleepPc)
  | .chan => .ok (s.setChan p (some e), some .stat)
  | .stat => .ok (s.setStat p .SSLEEPING, some .transform)
  | .transform => do return (← s.transform p, some .back)
  | .back => .ok (s.setChan p none, none)

theorem sleepStmt_frame {s t : Machine P χ ι σ} {p : P} {e : χ} {i : SleepPc}
    {j : Option SleepPc} (h : sleepStmt s p e i = .ok (t, j)) :
    t.pc = s.pc ∧ t.mem = s.mem ∧ (t.cur = s.cur ∨ t.cur = none ∧ j = some .back) := by
  cases i with
  | chan =>
    simp only [sleepStmt, Except.ok.injEq, Prod.mk.injEq] at h
    rw [← h.1]
    simp
  | stat =>
    simp only [sleepStmt, Except.ok.injEq, Prod.mk.injEq] at h
    rw [← h.1]
    simp
  | transform =>
    obtain ⟨u, hu, h⟩ := bind_eq_ok.mp h
    simp only [Machine.transform] at hu
    split at hu
    · simp at hu
    · simp only [Except.ok.injEq] at hu
      simp only [pure, Except.pure, Except.ok.injEq, Prod.mk.injEq] at h
      rw [← h.1, ← h.2, ← hu]
      simp
  | back =>
    simp only [sleepStmt, Except.ok.injEq, Prod.mk.injEq] at h
    rw [← h.1]
    simp

section Wakeup

variable [DecidableEq χ]

/-- The next statement of `wakeup`: the test of the first of the slots that are left,
    or the assignment to the slot that passed it. -/
inductive WakePc (P : Type) where
  | test (l : List P)
  | ready (q : P) (l : List P)
deriving DecidableEq

def wakeStmt (s : Machine P χ ι σ) (e : Option χ) :
    WakePc P → Machine P χ ι σ × Option (WakePc P)
  | .test [] => (s, none)
  | .test (q :: l) =>
    if s.stat q = .SSLEEPING ∧ s.chan q = e then (s, some (.ready q l))
    else (s, some (.test l))
  | .ready q l => (s.setStat q .READY, some (.test l))

section Equations

variable {s : Machine P χ ι σ} {e : Option χ} {q : P} {l : List P}

theorem wakeStmt_nil : wakeStmt s e (.test []) = (s, none) := rfl

theorem wakeStmt_pass (h : s.stat q = .SSLEEPING ∧ s.chan q = e) :
    wakeStmt s e (.test (q :: l)) = (s, some (.ready q l)) := if_pos h

theorem wakeStmt_skip (h : ¬ (s.stat q = .SSLEEPING ∧ s.chan q = e)) :
    wakeStmt s e (.test (q :: l)) = (s, some (.test l)) := if_neg h

theorem wakeStmt_ready :
    wakeStmt s e (.ready q l) = (s.setStat q .READY, some (.test l)) := rfl

end Equations

@[simp] theorem wakeStmt_pc (s : Machine P χ ι σ) (e : Option χ) (i : WakePc P) :
    (wakeStmt s e i).1.pc = s.pc := by
  fun_cases wakeStmt s e i <;> rfl

@[simp] theorem wakeStmt_mem (s : Machine P χ ι σ) (e : Option χ) (i : WakePc P) :
    (wakeStmt s e i).1.mem = s.mem := by
  fun_cases wakeStmt s e i <;> rfl

@[simp] theorem wakeStmt_cur (s : Machine P χ ι σ) (e : Option χ) (i : WakePc P) :
    (wakeStmt s e i).1.cur = s.cur := by
  fun_cases wakeStmt s e i <;> rfl

end Wakeup

/-! ### Programs and their steps -/

/-- The code of the kernel: how process `p` enters it by a call, and what its next
    statement does. -/
structure Program (P χ ι σ κ : Type) where
  enter : Machine P χ ι σ → P → κ → Except Stop (Machine P χ ι σ)
  stmt : Machine P χ ι σ → P → Except Stop (Machine P χ ι σ)

inductive Act (P κ : Type) where
  | dispatch (p : P)
  | timer
  | rouse (p : P)
  | call (c : κ)
  | stmt

/-- The labels: the scheduler dispatches `p`; the timer takes the CPU away; `kill` or
    an interrupt handler makes a sleeping process ready; the running process calls the
    kernel, or executes its next statement there. -/
def exec (g : Program P χ ι σ κ) (s : Machine P χ ι σ) :
    Act P κ → Except Stop (Machine P χ ι σ)
  | .dispatch p =>
    if s.cur = none ∧ s.stat p = .READY then .ok (s.switchTo p) else .error .notCalled
  | .timer =>
    match s.cur with
    | some p =>
      if s.iflag ∧ s.stat p = .SRUN then .ok (s.giveupCpu p) else .error .notCalled
    | none => .error .notCalled
  | .rouse p => .ok (if s.stat p = .SSLEEPING then s.setStat p .READY else s)
  | .call c =>
    match s.cur with
    | some p => g.enter s p c
    | none => .error .notCalled
  | .stmt =>
    match s.cur with
    | some p => g.stmt s p
    | none => .error .notCalled

def Step (g : Program P χ ι σ κ) (s : Machine P χ ι σ) (a : Act P κ)
    (t : Machine P χ ι σ) : Prop :=
  exec g s a = .ok t

theorem step_cases {g : Program P χ ι σ κ} {s t : Machine P χ ι σ} {a : Act P κ}
    (h : Step g s a t) :
    (∃ p, a = .dispatch p ∧ s.cur = none ∧ s.stat p = .READY ∧ t = s.switchTo p) ∨
    (∃ p, a = .timer ∧ s.cur = some p ∧ s.iflag = true ∧ s.stat p = .SRUN ∧
      t = s.giveupCpu p) ∨
    (∃ p, a = .rouse p ∧ t = if s.stat p = .SSLEEPING then s.setStat p .READY else s) ∨
    (∃ p c, a = .call c ∧ s.cur = some p ∧ g.enter s p c = .ok t) ∨
    (∃ p, a = .stmt ∧ s.cur = some p ∧ g.stmt s p = .ok t) := by
  cases a with
  | dispatch p =>
    simp only [Step, exec] at h
    split at h
    · rename_i hg
      exact .inl ⟨p, rfl, hg.1, hg.2, (Except.ok.inj h).symm⟩
    · simp at h
  | timer =>
    simp only [Step, exec] at h
    split at h
    · rename_i p hp
      split at h
      · rename_i hg
        exact .inr (.inl ⟨p, rfl, hp, hg.1, hg.2, (Except.ok.inj h).symm⟩)
      · simp at h
    · simp at h
  | rouse p => exact .inr (.inr (.inl ⟨p, rfl, (Except.ok.inj h).symm⟩))
  | call c =>
    simp only [Step, exec] at h
    split at h
    · rename_i p hp
      exact .inr (.inr (.inr (.inl ⟨p, c, rfl, hp, h⟩)))
    · simp at h
  | stmt =>
    simp only [Step, exec] at h
    split at h
    · rename_i p hp
      exact .inr (.inr (.inr (.inr ⟨p, rfl, hp, h⟩)))
    · simp at h

/-! ### Places that are executed as one step -/

/-- Nobody but the process on the CPU is at a place in `W`. -/
def Alone (W : ι → Prop) (s : Machine P χ ι σ) : Prop := ∀ p, W (s.pc p) → s.cur = some p

/-- The label is not a timer interrupt that takes the CPU from a process in `W`. -/
def Spares (W : ι → Prop) (s : Machine P χ ι σ) (a : Act P κ) : Prop :=
  match a with
  | .timer => ∀ p, s.cur = some p → ¬ W (s.pc p)
  | _ => True

def SparingStep (g : Program P χ ι σ κ) (W : ι → Prop) (s : Machine P χ ι σ)
    (a : Act P κ) (t : Machine P χ ι σ) : Prop :=
  Spares W s a ∧ Step g s a t

/-- `exec`, refusing a timer interrupt in `W`. -/
def sparingExec (g : Program P χ ι σ κ) (W : ι → Prop) [DecidablePred W]
    (s : Machine P χ ι σ) (a : Act P κ) : Except Stop (Machine P χ ι σ) :=
  match a, s.cur with
  | .timer, some p => if W (s.pc p) then .error .notCalled else exec g s .timer
  | a, _ => exec g s a

theorem sparingExec_step {g : Program P χ ι σ κ} {W : ι → Prop} [DecidablePred W]
    {s t : Machine P χ ι σ} {a : Act P κ} (h : sparingExec g W s a = .ok t) :
    SparingStep g W s a t := by
  cases a with
  | timer =>
    cases hc : s.cur with
    | none => simp [sparingExec, exec, hc] at h
    | some p =>
      simp only [sparingExec, hc] at h
      split at h
      · simp at h
      · rename_i hw
        refine ⟨?_, h⟩
        intro q hq
        rw [hc] at hq
        rw [← Option.some.inj hq]
        exact hw
  | dispatch p => exact ⟨trivial, h⟩
  | rouse p => exact ⟨trivial, h⟩
  | call c => exact ⟨trivial, h⟩
  | stmt => exact ⟨trivial, h⟩

/-- What the running process `p` may do to the places: it moves itself, moves others
    at most out of `W`, and is on the CPU or out of `W` afterwards. -/
structure Moves (W : ι → Prop) (p : P) (s t : Machine P χ ι σ) : Prop where
  others : ∀ q, q ≠ p → W (t.pc q) → W (s.pc q)
  self : t.cur = some p ∨ ¬ W (t.pc p)

structure Program.Respects (g : Program P χ ι σ κ) (W : ι → Prop) : Prop where
  enter : ∀ s p c t, s.cur = some p → g.enter s p c = .ok t → Moves W p s t
  stmt : ∀ s p t, s.cur = some p → g.stmt s p = .ok t → Moves W p s t

theorem Alone.moves {W : ι → Prop} {p : P} {s t : Machine P χ ι σ} (hs : Alone W s)
    (hp : s.cur = some p) (h : Moves W p s t) : Alone W t := by
  intro q hq
  by_cases hqp : q = p
  · subst hqp
    rcases h.self with hc | hn
    · exact hc
    · exact absurd hq hn
  · have hcur : s.cur = some q := hs q (h.others q hqp hq)
    rw [hp] at hcur
    exact absurd (Option.some.inj hcur).symm hqp

theorem Alone.step {g : Program P χ ι σ κ} {W : ι → Prop} {s t : Machine P χ ι σ}
    {a : Act P κ} (hg : g.Respects W) (hs : Alone W s) (h : SparingStep g W s a t) :
    Alone W t := by
  obtain ⟨hcalm, hstep⟩ := h
  rcases step_cases hstep with ⟨p, rfl, hc, -, rfl⟩ | ⟨p, rfl, hc, -, -, rfl⟩ | ⟨p, rfl, rfl⟩ |
    ⟨p, c, rfl, hc, ht⟩ | ⟨p, rfl, hc, ht⟩
  · intro q hq
    have hq' := hs q hq
    rw [hc] at hq'
    exact absurd hq' (by simp)
  · intro q hq
    have hq' := hs q hq
    rw [hc] at hq'
    rw [← Option.some.inj hq'] at hq
    exact absurd hq (hcalm p hc)
  · split
    · exact hs
    · exact hs
  · exact hs.moves hc (hg.enter s p c t hc ht)
  · exact hs.moves hc (hg.stmt s p t hc ht)

end Yonix.Sync
