/-
  Yonix/Sync/Semaphore.lean
  =========================
  **Counting semaphores (`semaphore.c`).**

  Any number of processes call `sem_P` and `sem_V` on one semaphore, which `sem_init`
  set once.  `cli` keeps the timer away from the test of `*semaphore` and the
  subtraction that follows it, but only until the process sleeps: the scheduler sets
  the flag before it dispatches, and nobody clears it again.  So after a `sleep` the
  timer can fall between the test and the subtraction, another process can take what
  the test saw, and the subtraction makes the semaphore negative
  (`timer_after_wakeup_goes_negative`).

  That is the only way.  In every run in which the timer spares a process that stands
  between a passed test and its subtraction, the semaphore is never negative
  (`semaphore_safe`).  Nothing is ever lost: that the value is the initial one less
  what was taken plus what was given holds in every run (`Accounted.step`).

  What a process does between its calls does not touch the semaphore and is one place,
  `user`.  Arithmetic is that of `int` as long as it does not overflow; a statement
  that would is not performed.
-/
import Yonix.Sync.Machine

namespace Yonix.Sync.Semaphore

/-- The semaphore.  `taken` and `given` are bookkeeping: the sums of `step` over the
    subtractions and over the additions performed so far. -/
structure Sem where
  sem : Int
  taken : Int
  given : Int

def Sem.sub (m : Sem) (k : Int) : Sem := { m with sem := m.sem - k, taken := m.taken + k }

def Sem.add (m : Sem) (k : Int) : Sem := { m with sem := m.sem + k, given := m.given + k }

def semInit (num : Int) : Except Stop Sem :=
  if num < 0 then .error (.panic .semaphoreInit) else .ok ⟨num, 0, 0⟩

inductive Call where
  | semP (step : Int)
  | semV (step : Int)

/-- The next statement of a process, with its argument `step`. -/
inductive Pc (P : Type) where
  | user
  | pCli (step : Int)
  | pCheck (step : Int)
  | pTest (step : Int)
  | pPrint (step : Int)
  | pSleep (step : Int) (i : SleepPc)
  | pSub (step : Int)
  | pSti
  | vCli (step : Int)
  | vCheck (step : Int)
  | vAdd (step : Int)
  | vTest
  | vWake (i : WakePc P)
  | vSti
deriving DecidableEq

variable {P χ : Type} [DecidableEq P] [DecidableEq χ]

abbrev M (P χ : Type) := Machine P χ (Pc P) Sem

def enter (s : M P χ) (p : P) (c : Call) : Except Stop (M P χ) :=
  if s.pc p = .user then
    match c with
    | .semP k => .ok (s.goto p (.pCli k))
    | .semV k => .ok (s.goto p (.vCli k))
  else .error .notCalled

/-- The next statement of `p`; `semaphore` is the address it sleeps on and `table` the
    process table. -/
def stmt (table : List P) (semaphore : χ) (s : M P χ) (p : P) : Except Stop (M P χ) :=
  match s.pc p with
  | .user => .error .notCalled
  | .pCli k => .ok (s.cli.goto p (.pCheck k))
  | .pCheck k => if k < 0 then .error (.panic .semaphoreP) else .ok (s.goto p (.pTest k))
  | .pTest k => .ok (s.goto p (if s.mem.sem ≤ k - 1 then .pPrint k else .pSub k))
  | .pPrint k => .ok (s.goto p (.pSleep k .chan))
  | .pSleep k i => do
    let (s, j) ← sleepStmt s p semaphore i
    return s.goto p (j.elim (.pTest k) (.pSleep k))
  | .pSub k =>
    if INT_MIN ≤ s.mem.sem - k then .ok ((s.store (s.mem.sub k)).goto p .pSti)
    else .error .notCalled
  | .pSti => .ok (s.sti.goto p .user)
  | .vCli k => .ok (s.cli.goto p (.vCheck k))
  | .vCheck k => if k < 0 then .error (.panic .semaphoreV) else .ok (s.goto p (.vAdd k))
  | .vAdd k =>
    if s.mem.sem + k ≤ INT_MAX then .ok ((s.store (s.mem.add k)).goto p .vTest)
    else .error .notCalled
  | .vTest => .ok (s.goto p (if s.mem.sem > 0 then .vWake (.test table) else .vSti))
  | .vWake i =>
    let (s, j) := wakeStmt s (some semaphore) i
    .ok (s.goto p (j.elim .vSti .vWake))
  | .vSti => .ok (s.sti.goto p .user)

def code (table : List P) (semaphore : χ) : Program P χ (Pc P) Sem Call where
  enter := enter
  stmt := stmt table semaphore

/-! ### What one statement does -/

/-- Between a passed test and the subtraction. -/
def Tested : Pc P → Prop
  | .pSub _ => True
  | _ => False

instance : DecidablePred (Tested (P := P)) := fun i => by
  cases i <;> simp only [Tested] <;> infer_instance

variable {table : List P} {semaphore : χ} {s t : M P χ} {p : P}

omit [DecidableEq χ] in
theorem enter_cases {c : Call} (h : enter s p c = .ok t) :
    s.pc p = .user ∧ ∃ k, t = s.goto p (.pCli k) ∨ t = s.goto p (.vCli k) := by
  simp only [enter] at h
  split at h
  · rename_i hu
    refine ⟨hu, ?_⟩
    cases c with
    | semP k => exact ⟨k, .inl (Except.ok.inj h).symm⟩
    | semV k => exact ⟨k, .inr (Except.ok.inj h).symm⟩
  · simp at h

/-- A statement of `p` is a move that leaves the semaphore alone, or one of the two
    that change it. -/
theorem stmt_cases (h : stmt table semaphore s p = .ok t) :
    (∀ q, q ≠ p → t.pc q = s.pc q) ∧
    (t.cur = s.cur ∨ ¬ Tested (t.pc p)) ∧
    ((t.mem = s.mem ∧ (∀ k, t.pc p = .pSub k → k ≤ s.mem.sem) ∧
        ∀ k, t.pc p = .vAdd k → 0 ≤ k) ∨
      (∃ k, s.pc p = .pSub k ∧ t.mem = s.mem.sub k ∧ t.pc p = .pSti) ∨
      (∃ k, s.pc p = .vAdd k ∧ t.mem = s.mem.add k ∧ t.pc p = .vTest)) := by
  cases hpc : s.pc p with
  | user => simp [stmt, hpc] at h
  | pCli k =>
    simp only [stmt, hpc, Except.ok.injEq] at h
    subst h
    simp +contextual
  | pCheck k =>
    simp only [stmt, hpc] at h
    split at h
    · simp at h
    · simp only [Except.ok.injEq] at h
      subst h
      simp +contextual
  | pTest k =>
    simp only [stmt, hpc, Except.ok.injEq] at h
    subst h
    split
    · simp +contextual
    · rename_i hk
      simp +contextual
      omega
  | pPrint k =>
    simp only [stmt, hpc, Except.ok.injEq] at h
    subst h
    simp +contextual
  | pSleep k i =>
    simp only [stmt, hpc] at h
    obtain ⟨⟨u, j⟩, hu, h⟩ := bind_eq_ok.mp h
    simp only [pure, Except.pure, Except.ok.injEq] at h
    obtain ⟨h1, h2, -⟩ := sleepStmt_frame hu
    subst h
    cases j <;> simp +contextual [h1, h2, Tested]
  | pSub k =>
    simp only [stmt, hpc] at h
    split at h
    · simp only [Except.ok.injEq] at h
      subst h
      simp +contextual
    · simp at h
  | pSti =>
    simp only [stmt, hpc, Except.ok.injEq] at h
    subst h
    simp +contextual
  | vCli k =>
    simp only [stmt, hpc, Except.ok.injEq] at h
    subst h
    simp +contextual
  | vCheck k =>
    simp only [stmt, hpc] at h
    split at h
    · simp at h
    · rename_i hk
      simp only [Except.ok.injEq] at h
      subst h
      simp +contextual
      omega
  | vAdd k =>
    simp only [stmt, hpc] at h
    split at h
    · simp only [Except.ok.injEq] at h
      subst h
      simp +contextual
    · simp at h
  | vTest =>
    simp only [stmt, hpc, Except.ok.injEq] at h
    subst h
    split
    · simp +contextual
    · simp +contextual
  | vWake i =>
    simp only [stmt, hpc, Except.ok.injEq] at h
    subst h
    cases hj : (wakeStmt s (some semaphore) i).2 <;> simp +contextual
  | vSti =>
    simp only [stmt, hpc, Except.ok.injEq] at h
    subst h
    simp +contextual

theorem code_respects : (code table semaphore).Respects Tested where
  enter s p c t hc h := by
    obtain ⟨-, k, rfl | rfl⟩ := enter_cases h
    · exact ⟨fun q hq => by simp [hq], .inl (by simpa using hc)⟩
    · exact ⟨fun q hq => by simp [hq], .inl (by simpa using hc)⟩
  stmt s p t hc h := by
    obtain ⟨hq, hp, -⟩ := stmt_cases h
    exact ⟨fun q hne => by rw [hq q hne]; exact id, hp.imp_left fun h => h.trans hc⟩

/-! ### Nothing is lost -/

def Accounted (num : Int) (s : M P χ) : Prop :=
  s.mem.sem = num - s.mem.taken + s.mem.given

theorem Accounted.step {num : Int} {a : Act P Call} (hs : Accounted num s)
    (h : Step (code table semaphore) s a t) : Accounted num t := by
  simp only [Accounted] at hs ⊢
  rcases step_cases h with ⟨p, -, -, -, rfl⟩ | ⟨p, -, -, -, -, rfl⟩ | ⟨p, -, rfl⟩ |
    ⟨p, c, -, -, ht⟩ | ⟨p, -, -, ht⟩
  · exact hs
  · exact hs
  · split
    · exact hs
    · exact hs
  · obtain ⟨-, k, rfl | rfl⟩ := enter_cases ht
    · exact hs
    · exact hs
  · obtain ⟨-, -, ⟨hm, -⟩ | ⟨k, -, hm, -⟩ | ⟨k, -, hm, -⟩⟩ := stmt_cases ht
    · rw [hm]
      exact hs
    · rw [hm]
      simp only [Sem.sub]
      omega
    · rw [hm]
      simp only [Sem.add]
      omega

/-! ### Never negative -/

structure Inv (s : M P χ) : Prop where
  alone : Alone Tested s
  nonneg : 0 ≤ s.mem.sem
  enough : ∀ p k, s.pc p = .pSub k → k ≤ s.mem.sem
  step : ∀ p k, s.pc p = .vAdd k → 0 ≤ k

omit [DecidableEq P] [DecidableEq χ] in
-- only the running process can be about to subtract
theorem Inv.not_tested (hs : Inv s) (hc : s.cur = some p) {q : P} (hq : q ≠ p) (k : Int) :
    s.pc q ≠ .pSub k := by
  intro hk
  have hcur := hs.alone q (by rw [hk]; trivial)
  rw [hc] at hcur
  exact hq (Option.some.inj hcur).symm

omit [DecidableEq P] [DecidableEq χ] in
theorem Inv.congr (hs : Inv s) (ht : Alone Tested t) (hpc : t.pc = s.pc)
    (hm : t.mem = s.mem) : Inv t where
  alone := ht
  nonneg := by rw [hm]; exact hs.nonneg
  enough := by rw [hm, hpc]; exact hs.enough
  step := by rw [hpc]; exact hs.step

theorem Inv.stmt (hs : Inv s) (hc : s.cur = some p) (ht : Alone Tested t)
    (h : stmt table semaphore s p = .ok t) : Inv t := by
  obtain ⟨hq, -, hm⟩ := stmt_cases h
  have hother : ∀ q k, q ≠ p → t.pc q = .pSub k → False := by
    intro q k hne hk
    rw [hq q hne] at hk
    exact hs.not_tested hc hne k hk
  have hstep : ∀ q k, q ≠ p → t.pc q = .vAdd k → 0 ≤ k := by
    intro q k hne hk
    rw [hq q hne] at hk
    exact hs.step q k hk
  rcases hm with ⟨hm, hsub, hadd⟩ | ⟨k, hk, hm, hpc⟩ | ⟨k, hk, hm, hpc⟩
  · refine ⟨ht, by rw [hm]; exact hs.nonneg, ?_, ?_⟩
    · intro q k hk
      by_cases hne : q = p
      · rw [hm]
        exact hsub k (hne ▸ hk)
      · exact (hother q k hne hk).elim
    · intro q k hk
      by_cases hne : q = p
      · exact hadd k (hne ▸ hk)
      · exact hstep q k hne hk
  · have hle := hs.enough p k hk
    refine ⟨ht, by rw [hm]; simp only [Sem.sub]; omega, ?_, ?_⟩
    · intro q k' hk'
      by_cases hne : q = p
      · rw [hne, hpc] at hk'
        simp at hk'
      · exact (hother q k' hne hk').elim
    · intro q k' hk'
      by_cases hne : q = p
      · rw [hne, hpc] at hk'
        simp at hk'
      · exact hstep q k' hne hk'
  · have h0 := hs.step p k hk
    have hn := hs.nonneg
    refine ⟨ht, by rw [hm]; simp only [Sem.add]; omega, ?_, ?_⟩
    · intro q k' hk'
      by_cases hne : q = p
      · rw [hne, hpc] at hk'
        simp at hk'
      · exact (hother q k' hne hk').elim
    · intro q k' hk'
      by_cases hne : q = p
      · rw [hne, hpc] at hk'
        simp at hk'
      · exact hstep q k' hne hk'

theorem Inv.sparingStep {a : Act P Call} (hs : Inv s)
    (h : SparingStep (code table semaphore) Tested s a t) : Inv t := by
  have ht : Alone Tested t := hs.alone.step code_respects h
  rcases step_cases h.2 with ⟨p, -, -, -, rfl⟩ | ⟨p, -, -, -, -, rfl⟩ | ⟨p, -, rfl⟩ |
    ⟨p, c, -, hc, he⟩ | ⟨p, -, hc, he⟩
  · exact hs.congr ht rfl rfl
  · exact hs.congr ht rfl rfl
  · split
    · exact hs.congr hs.alone rfl rfl
    · exact hs
  · obtain ⟨-, k, rfl | rfl⟩ := enter_cases he
    all_goals
      refine ⟨ht, hs.nonneg, ?_, ?_⟩
      · intro q k' hk'
        by_cases hne : q = p
        · simp [hne] at hk'
        · exact hs.enough q k' (by simpa [hne] using hk')
      · intro q k' hk'
        by_cases hne : q = p
        · simp [hne] at hk'
        · exact hs.step q k' (by simpa [hne] using hk')
  · exact hs.stmt hc ht he

/-- **Semaphores.**  In every run of any processes from the state that `sem_init` left,
    in which the timer spares a process between its passed test and its subtraction,
    the semaphore is not negative and accounts for all that was taken and given. -/
theorem semaphore_safe {num : Int} {s t : M P χ} {as : List (Act P Call)}
    (hinit : semInit num = .ok s.mem) (hpc : ∀ p, s.pc p = .user)
    (h : Run (SparingStep (code table semaphore) Tested) s as t) :
    0 ≤ t.mem.sem ∧ t.mem.sem = num - t.mem.taken + t.mem.given := by
  have hm : 0 ≤ num ∧ s.mem = ⟨num, 0, 0⟩ := by
    simp only [semInit] at hinit
    split at hinit
    · simp at hinit
    · rename_i hn
      exact ⟨by omega, (Except.ok.inj hinit).symm⟩
  have hs : Inv s ∧ Accounted num s := by
    refine ⟨⟨?_, by rw [hm.2]; exact hm.1, ?_, ?_⟩, by simp [Accounted, hm.2]⟩
    · intro p hp
      simp [hpc p, Tested] at hp
    · intro p k hk
      simp [hpc p] at hk
    · intro p k hk
      simp [hpc p] at hk
  have ht : Inv t ∧ Accounted num t :=
    h.invariant (fun s => Inv s ∧ Accounted num s) hs
      fun u a v hu huv => ⟨hu.1.sparingStep huv, hu.2.step huv.2⟩
  exact ⟨ht.1.nonneg, ht.2⟩

/-! ### The timer after a wakeup -/

/-- Processes in their own code, ready to run. -/
def boot (num : Int) : M Nat Nat where
  cur := none
  iflag := true
  stat := fun _ => .READY
  chan := fun _ => none
  pc := fun _ => .user
  mem := ⟨num, 0, 0⟩

/-- Process `p` is dispatched, calls `c` and performs `n` statements of it. -/
def calls (p : Nat) (c : Call) (n : Nat) : List (Act Nat Call) :=
  .dispatch p :: .call c :: List.replicate n .stmt

/-- Process `0` finds the semaphore at zero and sleeps, process `1` gives one unit, and
    process `0` comes back from `sleep` and passes its test. -/
def wokenTrace : List (Act Nat Call) :=
  calls 0 (.semP 1) 7 ++ (calls 1 (.semV 1) 10 ++ [.timer, .dispatch 0, .stmt, .stmt])

def servedTrace : List (Act Nat Call) := wokenTrace ++ [.stmt]

/-- The timer strikes there and process `2` takes the unit before process `0` does. -/
def overtakenTrace : List (Act Nat Call) :=
  wokenTrace ++ (.timer :: calls 2 (.semP 1) 5 ++ [.timer, .dispatch 0, .stmt])

theorem semaphore_safe_woken :
    ∃ t, Run (SparingStep (code [0, 1, 2] 7) Tested) (boot 0) servedTrace t ∧
      t.mem.taken = 1 ∧ t.mem.given = 1 ∧
      0 ≤ t.mem.sem ∧ t.mem.sem = 0 - t.mem.taken + t.mem.given := by
  have hrun : okWith (fun t : M Nat Nat => t.mem.taken = 1 ∧ t.mem.given = 1)
      (servedTrace.foldlM (sparingExec (code [0, 1, 2] 7) Tested) (boot 0))
      = true := by
    decide
  obtain ⟨t, ht, hm⟩ := okWith_eq_true.mp hrun
  have hm' := of_decide_eq_true hm
  have hr : Run (SparingStep (code [0, 1, 2] 7) Tested) (boot 0) servedTrace t :=
    (Run.of_foldlM ht).mono fun _ _ _ => sparingExec_step
  exact ⟨t, hr, hm'.1, hm'.2, semaphore_safe rfl (fun _ => rfl) hr⟩

theorem timer_after_wakeup_goes_negative :
    ¬ ∀ as t, Run (Step (code [0, 1, 2] 7)) (boot 0) as t →
      0 ≤ t.mem.sem ∧ t.mem.sem = 0 - t.mem.taken + t.mem.given := by
  intro hall
  have hrun : okWith (fun t : M Nat Nat => t.mem.sem = -1)
      (overtakenTrace.foldlM (exec (code [0, 1, 2] 7)) (boot 0)) = true := by
    decide
  obtain ⟨t, ht, hm⟩ := okWith_eq_true.mp hrun
  have hneg : t.mem.sem = -1 := of_decide_eq_true hm
  have h0 := (hall _ t (Run.of_foldlM ht)).1
  omega

end Yonix.Sync.Semaphore
