/-
  Yonix/Sync/Sleeplock.lean
  =========================
  **Sleep locks (`sleeplock.c`) under preemption.**

  `acquiresleep` tests `lk->locked` and sets it in two statements, with interrupts
  enabled.  The timer can fall between them, and then two processes leave
  `acquiresleep` (`timer_lets_two_in`).  `releasesleep` clears `locked` and `pid` in
  two statements; a timer interrupt between them lets the next holder write its pid
  first, and the releasing process then wipes it out (`timer_wipes_pid`).

  In every run in which the timer spares these two places, at most one process holds
  the lock and `lk->pid` is its pid (`sleeplock_exclusive`).  What a process does
  while it holds the lock is one place, `held`, and outside it one place, `user`.
-/
import Yonix.Sync.Machine

namespace Yonix.Sync.Sleeplock

structure Lock where
  locked : Nat
  pid : Nat

def initsleeplock : Lock := ⟨0, 0⟩

inductive Call where
  | acquiresleep
  | releasesleep

inductive Pc (P : Type) where
  | user
  | test
  | sleep (i : SleepPc)
  | setLocked
  | setPid
  | held
  | clearLocked
  | clearPid
  | wake (i : WakePc P)
deriving DecidableEq

variable {P χ : Type} [DecidableEq P] [DecidableEq χ]

abbrev M (P χ : Type) := Machine P χ (Pc P) Lock

/-- A process that holds the lock does not acquire it again, and only a process that
    holds it releases it. -/
def enter (s : M P χ) (p : P) : Call → Except Stop (M P χ)
  | .acquiresleep => if s.pc p = .user then .ok (s.goto p .test) else .error .notCalled
  | .releasesleep => if s.pc p = .held then .ok (s.goto p .clearLocked) else .error .notCalled

def stmt (table : List P) (lk : χ) (pid : P → Nat) (s : M P χ) (p : P) :
    Except Stop (M P χ) :=
  match s.pc p with
  | .user => .error .notCalled
  | .test => .ok (s.goto p (if s.mem.locked ≠ 0 then .sleep .chan else .setLocked))
  | .sleep i => do
    let (s, j) ← sleepStmt s p lk i
    return s.goto p (j.elim .test .sleep)
  | .setLocked => .ok ((s.store { s.mem with locked := 1 }).goto p .setPid)
  | .setPid => .ok ((s.store { s.mem with pid := pid p }).goto p .held)
  | .held => .error .notCalled
  | .clearLocked => .ok ((s.store { s.mem with locked := 0 }).goto p .clearPid)
  | .clearPid => .ok ((s.store { s.mem with pid := 0 }).goto p (.wake (.test table)))
  | .wake i =>
    let (s, j) := wakeStmt s (some lk) i
    .ok (s.goto p (j.elim .user .wake))

def code (table : List P) (lk : χ) (pid : P → Nat) : Program P χ (Pc P) Lock Call where
  enter := enter
  stmt := stmt table lk pid

/-! ### What one statement does -/

/-- The two places the timer must spare: behind a passed test, and between the two
    assignments of `releasesleep`. -/
def Racy : Pc P → Prop
  | .setLocked => True
  | .clearPid => True
  | _ => False

/-- The process has set `locked` and not yet cleared it. -/
def Owns : Pc P → Prop
  | .setPid => True
  | .held => True
  | .clearLocked => True
  | _ => False

instance : DecidablePred (Racy (P := P)) := fun i => by
  cases i <;> simp only [Racy] <;> infer_instance

variable {table : List P} {lk : χ} {pid : P → Nat} {s t : M P χ} {p : P}

omit [DecidableEq χ] in
theorem enter_cases {c : Call} (h : enter s p c = .ok t) :
    s.pc p = .user ∧ t = s.goto p .test ∨ s.pc p = .held ∧ t = s.goto p .clearLocked := by
  cases c with
  | acquiresleep =>
    simp only [enter] at h
    split at h
    · rename_i hu
      exact .inl ⟨hu, (Except.ok.inj h).symm⟩
    · simp at h
  | releasesleep =>
    simp only [enter] at h
    split at h
    · rename_i hh
      exact .inr ⟨hh, (Except.ok.inj h).symm⟩
    · simp at h

/-- A statement of `p` is one of the four assignments, or a move outside the lock. -/
theorem stmt_cases (h : stmt table lk pid s p = .ok t) :
    (∀ q, q ≠ p → t.pc q = s.pc q) ∧ (t.cur = s.cur ∨ ¬ Racy (t.pc p)) ∧
    ((t.mem = s.mem ∧ ¬ Owns (t.pc p) ∧ t.pc p ≠ .clearPid ∧
        (t.pc p = .setLocked → s.mem.locked = 0)) ∨
      (s.pc p = .setLocked ∧ t.mem = { s.mem with locked := 1 } ∧ t.pc p = .setPid) ∨
      (s.pc p = .setPid ∧ t.mem = { s.mem with pid := pid p } ∧ t.pc p = .held) ∨
      (s.pc p = .clearLocked ∧ t.mem = { s.mem with locked := 0 } ∧ t.pc p = .clearPid) ∨
      (s.pc p = .clearPid ∧ t.mem = { s.mem with pid := 0 } ∧
        t.pc p = .wake (.test table))) := by
  cases hpc : s.pc p with
  | user => simp [stmt, hpc] at h
  | held => simp [stmt, hpc] at h
  | test =>
    simp only [stmt, hpc, Except.ok.injEq] at h
    subst h
    split
    · simp +contextual [Owns]
    · rename_i hl
      simp +contextual [Owns]
      omega
  | sleep i =>
    simp only [stmt, hpc] at h
    obtain ⟨⟨u, j⟩, hu, h⟩ := bind_eq_ok.mp h
    simp only [pure, Except.pure, Except.ok.injEq] at h
    obtain ⟨h1, h2, -⟩ := sleepStmt_frame hu
    subst h
    cases j <;> simp +contextual [h1, h2, Racy, Owns]
  | wake i =>
    simp only [stmt, hpc, Except.ok.injEq] at h
    subst h
    cases hj : (wakeStmt s (some lk) i).2 <;> simp +contextual [Owns]
  | setLocked | setPid | clearLocked | clearPid =>
    simp only [stmt, hpc, Except.ok.injEq] at h
    subst h
    simp +contextual

theorem code_respects : (code table lk pid).Respects Racy where
  enter s p c t hc h := by
    rcases enter_cases h with ⟨-, rfl⟩ | ⟨-, rfl⟩
    · exact ⟨fun q hq => by simp [hq], .inl (by simpa using hc)⟩
    · exact ⟨fun q hq => by simp [hq], .inl (by simpa using hc)⟩
  stmt s p t hc h := by
    obtain ⟨hq, hp, -⟩ := stmt_cases h
    exact ⟨fun q hne => by rw [hq q hne]; exact id, hp.imp_left fun h => h.trans hc⟩

/-! ### The invariant -/

structure Inv (pid : P → Nat) (s : M P χ) : Prop where
  alone : Alone Racy s
  locked : ∀ p, Owns (s.pc p) → s.mem.locked = 1
  unique : ∀ p q, Owns (s.pc p) → Owns (s.pc q) → p = q
  free : ∀ p, Racy (s.pc p) → s.mem.locked = 0
  pid : ∀ p, Owns (s.pc p) → s.pc p ≠ .setPid → s.mem.pid = pid p

omit [DecidableEq P] [DecidableEq χ] in
theorem Inv.congr (hs : Inv pid s) (ht : Alone Racy t) (hpc : t.pc = s.pc)
    (hm : t.mem = s.mem) : Inv pid t where
  alone := ht
  locked := by rw [hm, hpc]; exact hs.locked
  unique := by rw [hpc]; exact hs.unique
  free := by rw [hm, hpc]; exact hs.free
  pid := by rw [hm, hpc]; exact hs.pid

section Others

variable (hs : Inv pid s) {q : P}

include hs

omit [DecidableEq P] [DecidableEq χ]

theorem Inv.not_racy (hc : s.cur = some p) (hq : q ≠ p) : ¬ Racy (s.pc q) := by
  intro h
  have hcur := hs.alone q h
  rw [hc] at hcur
  exact hq (Option.some.inj hcur).symm

theorem Inv.not_owns_of_racy (h : Racy (s.pc p)) : ¬ Owns (s.pc q) := by
  intro hq
  have h0 := hs.free p h
  have h1 := hs.locked q hq
  omega

theorem Inv.not_owns (h : Owns (s.pc p)) (hq : q ≠ p) : ¬ Owns (s.pc q) :=
  fun h' => hq (hs.unique q p h' h)

end Others

omit [DecidableEq P] [DecidableEq χ] in
/-- Nobody owns the lock after the step: what is left is who is at a racy place. -/
theorem Inv.of_unowned (ht : Alone Racy t) (hown : ∀ q, ¬ Owns (t.pc q))
    (hfree : ∀ q, Racy (t.pc q) → t.mem.locked = 0) : Inv pid t where
  alone := ht
  locked q hq := absurd hq (hown q)
  unique q _ hq := absurd hq (hown q)
  free := hfree
  pid q hq := absurd hq (hown q)

omit [DecidableEq P] [DecidableEq χ] in
/-- Only `p` owns the lock after the step. -/
theorem Inv.of_owner (ht : Alone Racy t) (hown : ∀ q, q ≠ p → ¬ Owns (t.pc q))
    (hracy : ∀ q, ¬ Racy (t.pc q)) (hl : t.mem.locked = 1)
    (hpid : t.pc p ≠ .setPid → t.mem.pid = pid p) : Inv pid t where
  alone := ht
  locked _ _ := hl
  unique q r hq hr := by
    have hqp : q = p := by_contra fun h => hown q h hq
    have hrp : r = p := by_contra fun h => hown r h hr
    rw [hqp, hrp]
  free q hq := absurd hq (hracy q)
  pid q hq hne := by
    have hqp : q = p := by_contra fun h => hown q h hq
    rw [hqp] at hne ⊢
    exact hpid hne

theorem Inv.stmt (hs : Inv pid s) (hc : s.cur = some p) (ht : Alone Racy t)
    (h : stmt table lk pid s p = .ok t) : Inv pid t := by
  obtain ⟨hq, -, hm⟩ := stmt_cases h
  -- a process other than `p` is where it was, and that is not a racy place
  have hracy : ∀ q, q ≠ p → ¬ Racy (t.pc q) := by
    intro q hne
    rw [hq q hne]
    exact hs.not_racy hc hne
  rcases hm with ⟨hm, hown, hclear, hset⟩ | ⟨hpc, hm, hpc'⟩ | ⟨hpc, hm, hpc'⟩ | ⟨hpc, hm, hpc'⟩ |
    ⟨hpc, hm, hpc'⟩
  · have hsub : ∀ q, Owns (t.pc q) → q ≠ p ∧ Owns (s.pc q) := by
      intro q hO
      have hne : q ≠ p := fun e => hown (e ▸ hO)
      exact ⟨hne, hq q hne ▸ hO⟩
    refine ⟨ht, ?_, ?_, ?_, ?_⟩
    · intro q hO
      rw [hm]
      exact hs.locked q (hsub q hO).2
    · intro q r hO hO'
      exact hs.unique q r (hsub q hO).2 (hsub r hO').2
    · intro q hR
      have hqp : q = p := by_contra fun hne => hracy q hne hR
      rw [hqp] at hR
      rw [hm]
      cases hp : t.pc p with
      | setLocked => exact hset hp
      | clearPid => exact absurd hp hclear
      | user | test | sleep _ | setPid | held | clearLocked | wake _ =>
        simp [hp, Racy] at hR
    · intro q hO hne
      rw [hq q (hsub q hO).1] at hne
      rw [hm]
      exact hs.pid q (hsub q hO).2 hne
  · have hR : Racy (s.pc p) := by rw [hpc]; trivial
    refine .of_owner (p := p) ht ?_ ?_ (by rw [hm]) (by simp [hpc'])
    · intro q hne
      rw [hq q hne]
      exact hs.not_owns_of_racy hR
    · intro q
      by_cases hne : q = p
      · simp [hne, hpc', Racy]
      · exact hracy q hne
  · have hO : Owns (s.pc p) := by rw [hpc]; trivial
    refine .of_owner (p := p) ht ?_ ?_ (by rw [hm]; exact hs.locked p hO) (by simp [hm])
    · intro q hne
      rw [hq q hne]
      exact hs.not_owns hO hne
    · intro q
      by_cases hne : q = p
      · simp [hne, hpc', Racy]
      · exact hracy q hne
  · have hO : Owns (s.pc p) := by rw [hpc]; trivial
    refine .of_unowned ht ?_ (fun q _ => by rw [hm])
    intro q
    by_cases hne : q = p
    · simp [hne, hpc', Owns]
    · rw [hq q hne]
      exact hs.not_owns hO hne
  · have hR : Racy (s.pc p) := by rw [hpc]; trivial
    refine .of_unowned ht ?_ ?_
    · intro q
      by_cases hne : q = p
      · simp [hne, hpc', Owns]
      · rw [hq q hne]
        exact hs.not_owns_of_racy hR
    · intro q _
      rw [hm]
      exact hs.free p hR

omit [DecidableEq χ] in
theorem Inv.enter {c : Call} (hs : Inv pid s) (ht : Alone Racy t)
    (h : enter s p c = .ok t) : Inv pid t := by
  rcases enter_cases h with ⟨hpc, rfl⟩ | ⟨hpc, rfl⟩
  · have hsub : ∀ q, Owns ((s.goto p .test).pc q) → q ≠ p ∧ Owns (s.pc q) := by
      intro q hO
      by_cases hne : q = p
      · simp [hne, Owns] at hO
      · exact ⟨hne, by simpa [hne] using hO⟩
    refine ⟨ht, fun q hO => hs.locked q (hsub q hO).2,
      fun q r hO hO' => hs.unique q r (hsub q hO).2 (hsub r hO').2, ?_, ?_⟩
    · intro q hR
      by_cases hne : q = p
      · simp [hne, Racy] at hR
      · exact hs.free q (by simpa [hne] using hR)
    · intro q hO hne
      exact hs.pid q (hsub q hO).2 (by simpa [(hsub q hO).1] using hne)
  · have hO : Owns (s.pc p) := by rw [hpc]; trivial
    refine .of_owner (p := p) ht ?_ ?_ (hs.locked p hO) ?_
    · intro q hne
      simpa [hne] using hs.not_owns hO hne
    · intro q
      by_cases hne : q = p
      · simp [hne, Racy]
      · have h0 : ¬ Racy (s.pc q) := by
          intro hR
          have h0 := hs.free q hR
          have h1 := hs.locked p hO
          omega
        simpa [hne] using h0
    · intro _
      exact hs.pid p hO (by simp [hpc])

theorem Inv.sparingStep {a : Act P Call} (hs : Inv pid s)
    (h : SparingStep (code table lk pid) Racy s a t) : Inv pid t := by
  have ht : Alone Racy t := hs.alone.step code_respects h
  rcases step_cases h.2 with ⟨p, -, -, -, rfl⟩ | ⟨p, -, -, -, -, rfl⟩ | ⟨p, -, rfl⟩ |
    ⟨p, c, -, hc, he⟩ | ⟨p, -, hc, he⟩
  · exact hs.congr ht rfl rfl
  · exact hs.congr ht rfl rfl
  · split
    · exact hs.congr hs.alone rfl rfl
    · exact hs
  · exact hs.enter ht he
  · exact hs.stmt hc ht he

/-- **Sleep locks.**  In every run from a state where nobody is in the two calls, in
    which the timer spares a process behind its passed test and between the two
    assignments of `releasesleep`, at most one process holds the lock, and `lk->pid` is
    its pid. -/
theorem sleeplock_exclusive {as : List (Act P Call)} (hpc : ∀ p, s.pc p = .user)
    (h : Run (SparingStep (code table lk pid) Racy) s as t) :
    (∀ p q, t.pc p = .held → t.pc q = .held → p = q) ∧
      ∀ p, t.pc p = .held → t.mem.pid = pid p := by
  have hs : Inv pid s := by
    refine .of_unowned ?_ ?_ ?_
    · intro p hp
      simp [hpc p, Racy] at hp
    · intro p
      simp [hpc p, Owns]
    · intro p hp
      simp [hpc p, Racy] at hp
  have ht : Inv pid t := h.invariant (Inv pid) hs fun u a v hu huv => hu.sparingStep huv
  constructor
  · intro p q hp hq
    exact ht.unique p q (by rw [hp]; trivial) (by rw [hq]; trivial)
  · intro p hp
    exact ht.pid p (by rw [hp]; trivial) (by simp [hp])

/-! ### Two holders, and a lost pid -/

def boot : M Nat Nat where
  cur := none
  iflag := true
  stat := fun _ => .READY
  chan := fun _ => none
  pc := fun _ => .user
  mem := initsleeplock

/-- Process `p` is dispatched, calls `c` and performs `n` statements of it. -/
def calls (p : Nat) (c : Call) (n : Nat) : List (Act Nat Call) :=
  .dispatch p :: .call c :: List.replicate n .stmt

/-- Process `1` sleeps until process `0` releases the lock, and then gets it. -/
def handoverTrace : List (Act Nat Call) :=
  calls 0 .acquiresleep 3 ++ (.timer :: calls 1 .acquiresleep 4) ++
    (.dispatch 0 :: .call .releasesleep :: List.replicate 6 .stmt) ++
    [.timer, .dispatch 1, .stmt, .stmt, .stmt, .stmt]

/-- The timer strikes behind the test of process `0`. -/
def twoHoldersTrace : List (Act Nat Call) :=
  calls 0 .acquiresleep 1 ++ (.timer :: calls 1 .acquiresleep 3) ++
    [.timer, .dispatch 0, .stmt, .stmt]

/-- The timer strikes between the assignments of `releasesleep`. -/
def wipedPidTrace : List (Act Nat Call) :=
  calls 0 .acquiresleep 3 ++ [.call .releasesleep, .stmt, .timer] ++
    calls 1 .acquiresleep 3 ++ [.timer, .dispatch 0, .stmt]

theorem sleeplock_exclusive_handover :
    ∃ t, Run (SparingStep (code [0, 1] 7 (· + 1)) Racy) boot handoverTrace t ∧
      t.pc 1 = .held ∧
      (∀ p q, t.pc p = .held → t.pc q = .held → p = q) ∧
      ∀ p, t.pc p = .held → t.mem.pid = p + 1 := by
  have hrun : okWith (fun t : M Nat Nat => t.pc 1 = .held)
      (handoverTrace.foldlM (sparingExec (code [0, 1] 7 (· + 1)) Racy) boot) = true := by
    decide
  obtain ⟨t, ht, hm⟩ := okWith_eq_true.mp hrun
  have hr : Run (SparingStep (code [0, 1] 7 (· + 1)) Racy) boot handoverTrace t :=
    (Run.of_foldlM ht).mono fun _ _ _ => sparingExec_step
  exact ⟨t, hr, of_decide_eq_true hm, sleeplock_exclusive (fun _ => rfl) hr⟩

theorem timer_lets_two_in :
    ¬ ∀ as t, Run (Step (code [0, 1] 7 (· + 1))) boot as t →
      (∀ p q, t.pc p = .held → t.pc q = .held → p = q) ∧
        ∀ p, t.pc p = .held → t.mem.pid = p + 1 := by
  intro hall
  have hrun : okWith (fun t : M Nat Nat => t.pc 0 = .held ∧ t.pc 1 = .held)
      (twoHoldersTrace.foldlM (exec (code [0, 1] 7 (· + 1))) boot) = true := by
    decide
  obtain ⟨t, ht, hm⟩ := okWith_eq_true.mp hrun
  obtain ⟨h0, h1⟩ := of_decide_eq_true hm
  exact absurd ((hall _ t (Run.of_foldlM ht)).1 0 1 h0 h1) (by decide)

/-- The lock is held by process `1`, whose pid is `2`, and `lk->pid` is `0`. -/
theorem timer_wipes_pid :
    ∃ t, Run (Step (code [0, 1] 7 (· + 1))) boot wipedPidTrace t ∧
      t.pc 1 = .held ∧ t.mem.pid = 0 := by
  have hrun : okWith (fun t : M Nat Nat => t.pc 1 = .held ∧ t.mem.pid = 0)
      (wipedPidTrace.foldlM (exec (code [0, 1] 7 (· + 1))) boot) = true := by
    decide
  obtain ⟨t, ht, hm⟩ := okWith_eq_true.mp hrun
  exact ⟨t, Run.of_foldlM ht, of_decide_eq_true hm⟩

end Yonix.Sync.Sleeplock
