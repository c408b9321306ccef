/-
  Yonix/Proc/Turns.lean
  =====================
  **Turns under round robin (`sched_rr`).**

  `rr` is where the static pointer of `sched_rr` stands.  The scheme function moves it
  behind the process that it switches to, and back to the first slot when it finds no
  ready process on the way to the end; nobody else touches it (`exec_rr`).  So the
  pointer does not pass a slot that is ready: between two turns of `p` it gets once
  around the table, and a process that is ready all the time has its turn before
  (`rr_bounded_bypass`).
-/
import Yonix.Proc.Sched

namespace Yonix.Proc

variable {s t : Kernel} {p q : Slot}

/-! ### Who moves the pointer -/

@[simp] theorem set_rr (s : Kernel) (p : Slot) (f : Pcb → Pcb) : (s.set p f).rr = s.rr := rfl

theorem enqueue_rr (s : Kernel) (p : Slot) : (enqueue s p).rr = s.rr := by
  unfold enqueue insertFifo insertDy
  split <;> rfl

theorem wakeup_rr (s : Kernel) (e : Option Chan) : (wakeup s e).rr = s.rr := by
  unfold wakeup
  refine List.foldlRecOn (motive := fun t : Kernel => t.rr = s.rr) slots _ rfl ?_
  intro t ht p _
  split
  · rw [enqueue_rr]
    exact ht
  · exact ht

theorem reparent_rr (s : Kernel) (p : Slot) : (reparent s p).rr = s.rr := by
  unfold reparent
  refine List.foldlRecOn (motive := fun t : Kernel => t.rr = s.rr) slots _ rfl ?_
  intro t ht q _
  dsimp only
  split
  · split
    · rw [wakeup_rr]
      exact ht
    · exact ht
  · exact ht

theorem transform_rr (h : transform s p = .ok t) : t.rr = s.rr := by
  rw [transform_eq_ok h]

theorem after_rr (h : after s p = .ok t) : t.rr = s.rr := by
  unfold after at h
  split at h
  · rw [← Except.ok.inj h]
    rfl
  · rw [← Except.ok.inj h]
    rfl
  · dsimp only at h
    split at h
    · rw [← Except.ok.inj h]
      rfl
    · cases h

theorem giveupCpu_rr (h : giveupCpu s p = .ok t) : t.rr = s.rr := by
  obtain ⟨u, hu, h⟩ := bind_eq_ok.mp h
  rw [transform_rr h, after_rr hu, enqueue_rr]
  rfl

theorem timesliceYield_rr (h : timesliceYield s p = .ok t) : t.rr = s.rr := by
  unfold timesliceYield at h
  split at h
  · rw [Except.ok.inj h]
  · dsimp only at h
    split at h
    · rw [giveupCpu_rr h]
      rfl
    · rw [← Except.ok.inj h]
      rfl

theorem sleep_rr {e : Option Chan} {loop : Loop} (h : sleep s p e loop = .ok t) : t.rr = s.rr := by
  rw [transform_rr h]
  rfl

theorem procalloc_rr (s : Kernel) (stack : Bool) : (procalloc s stack).1.rr = s.rr := by
  unfold procalloc
  split
  · rfl
  · dsimp only
    split <;> rfl

theorem fork_rr (s : Kernel) (p : Slot) (m : Mem) : (fork s p m).rr = s.rr := by
  have hr := procalloc_rr s (m ≠ .noStack)
  unfold fork
  split
  · rename_i u hu
    rwa [hu] at hr
  · rename_i u n hu
    rw [hu] at hr
    split
    · rw [enqueue_rr]
      exact hr
    · exact hr

theorem lwpCreate_rr (s : Kernel) (p : Slot) (stack : Bool) : (lwpCreate s p stack).rr = s.rr := by
  have hr := procalloc_rr s stack
  unfold lwpCreate
  split
  · rename_i u hu
    rwa [hu] at hr
  · rename_i u n hu
    rw [hu] at hr
    dsimp only
    split
    · exact hr
    · rw [enqueue_rr]
      exact hr

theorem exit_rr (h : exit s p = .ok t) : t.rr = s.rr := by
  unfold exit at h
  split at h
  · cases h
  · rw [transform_rr h]
    rw [set_rr, reparent_rr, wakeup_rr]

theorem waitLoop_rr {l : List Freed} (h : waitLoop s p = .ok (t, l)) : t.rr = s.rr := by
  unfold waitLoop at h
  split at h
  · simp only [Except.ok.injEq, Prod.mk.injEq] at h
    rw [← h.1]
    rfl
  · split at h
    · cases h
      rfl
    · obtain ⟨u, hu, h⟩ := bind_eq_ok.mp h
      cases h
      exact sleep_rr hu

theorem joinLoop_rr {l : List Freed} (h : joinLoop s p = .ok (t, l)) : t.rr = s.rr := by
  unfold joinLoop at h
  split at h
  · simp only [Except.ok.injEq, Prod.mk.injEq] at h
    rw [← h.1]
    rfl
  · split at h
    · cases h
      rfl
    · obtain ⟨u, hu, h⟩ := bind_eq_ok.mp h
      cases h
      exact sleep_rr hu

theorem kill_rr (s : Kernel) (pid : Nat) : (kill s pid).rr = s.rr := by
  unfold kill
  split <;> rfl

theorem recalcTimeslice_rr (s : Kernel) : (recalcTimeslice s).rr = s.rr := by
  unfold recalcTimeslice
  refine List.foldlRecOn (motive := fun t : Kernel => t.rr = s.rr) slots _ rfl ?_
  intro t ht q _
  split
  · exact ht
  · exact ht

theorem incnice_rr (s : Kernel) (p : Slot) (n : Int) : (incnice s p n).rr = s.rr := by
  unfold incnice
  dsimp only
  split <;> rfl

theorem selectScheme_rr {scheme : Scheme} {slabEmpty : Bool}
    (h : selectScheme s p scheme slabEmpty = .ok t) : t.rr = s.rr := by
  rcases selectScheme_spec h with ⟨-, rfl⟩ | ⟨-, l, -, rfl⟩ | ⟨-, l, rfl⟩ <;> rfl

theorem call_rr {c : Call} {l : List Freed} (h : call s p c = .ok (t, l)) : t.rr = s.rr := by
  cases c with
  | fork m =>
    simp only [call] at h
    split at h <;> cases h
    exact fork_rr s p m
  | lwpCreate stack =>
    cases h
    exact lwpCreate_rr s p stack
  | exec e =>
    simp only [call] at h
    split at h
    · cases e <;> cases h <;> rfl
    · cases h
  | exit =>
    obtain ⟨u, hu, h⟩ := bind_eq_ok.mp h
    cases h
    exact exit_rr hu
  | wait => exact waitLoop_rr h
  | lwpJoin => exact joinLoop_rr h
  | sleep e =>
    obtain ⟨u, hu, h⟩ := bind_eq_ok.mp h
    cases h
    exact sleep_rr hu
  | kill pid =>
    cases h
    exact kill_rr s pid
  | giveupCpu =>
    obtain ⟨u, hu, h⟩ := bind_eq_ok.mp h
    cases h
    exact giveupCpu_rr hu
  | timesliceYield =>
    obtain ⟨u, hu, h⟩ := bind_eq_ok.mp h
    cases h
    exact timesliceYield_rr hu
  | selectScheme scheme slabEmpty =>
    obtain ⟨u, hu, h⟩ := bind_eq_ok.mp h
    cases h
    exact selectScheme_rr hu
  | recalcTimeslice =>
    simp only [call, Except.ok.injEq, Prod.mk.injEq] at h
    rw [← h.1]
    exact recalcTimeslice_rr s
  | incnice n =>
    cases h
    exact incnice_rr s p n

theorem switchTo_rr {l : List Freed} (h : switchTo s p = .ok (t, l)) : t.rr = s.rr := by
  unfold switchTo at h
  dsimp only at h
  split at h
  · cases h
  · split at h
    · cases h
      rfl
    · cases h
      rfl
    · exact (waitLoop_rr h).trans rfl
    · exact (joinLoop_rr h).trans rfl
    · cases h
    · cases h

/-! ### What a dispatch leaves behind -/

theorem sleep_stat {e : Option Chan} {loop : Loop} (h : sleep s p e loop = .ok t) :
    (t.proc p).stat = .SSLEEPING := by
  rw [sleep_spec h]
  simp [Kernel.set]

theorem reap_stat {r : Slot} (h : (s.proc q).stat = .SRUN) : ((reap s r).proc q).stat ≠ .READY := by
  simp only [reap, Kernel.set, Function.update_apply]
  split
  · simp
  · simp [h]

theorem waitLoop_stat {l : List Freed} (hq : (s.proc q).stat = .SRUN)
    (h : waitLoop s q = .ok (t, l)) : (t.proc q).stat ≠ .READY := by
  unfold waitLoop at h
  split at h
  · simp only [Except.ok.injEq, Prod.mk.injEq] at h
    rw [← h.1]
    exact reap_stat hq
  · split at h
    · simp only [Except.ok.injEq, Prod.mk.injEq] at h
      rw [← h.1, hq]
      simp
    · obtain ⟨u, hu, h⟩ := bind_eq_ok.mp h
      cases h
      rw [sleep_stat hu]
      simp

theorem joinLoop_stat {l : List Freed} (hq : (s.proc q).stat = .SRUN)
    (h : joinLoop s q = .ok (t, l)) : (t.proc q).stat ≠ .READY := by
  unfold joinLoop at h
  split at h
  · simp only [Except.ok.injEq, Prod.mk.injEq] at h
    rw [← h.1]
    exact reap_stat hq
  · split at h
    · simp only [Except.ok.injEq, Prod.mk.injEq] at h
      rw [← h.1, hq]
      simp
    · obtain ⟨u, hu, h⟩ := bind_eq_ok.mp h
      cases h
      rw [sleep_stat hu]
      simp

/-- Who is dispatched is not ready when the step ends. -/
theorem switchTo_stat {l : List Freed} (h : switchTo s q = .ok (t, l)) : (t.proc q).stat ≠ .READY := by
  unfold switchTo at h
  dsimp only at h
  have hrun : (({ s with cur := some q }.set q fun x => { x with stat := .SRUN }).proc q).stat =
      .SRUN := by simp [Kernel.set]
  have hawake : ∀ tick0, ((awake ({ s with cur := some q }.set q fun x => { x with stat := .SRUN })
      q tick0).proc q).stat = .SRUN := by
    intro tick0
    simp [awake, Kernel.set]
  split at h
  · cases h
  · split at h
    · simp only [Except.ok.injEq, Prod.mk.injEq] at h
      rw [← h.1, hrun]
      simp
    · simp only [Except.ok.injEq, Prod.mk.injEq] at h
      rw [← h.1, hawake]
      simp
    · exact waitLoop_stat (hawake _) h
    · exact joinLoop_stat (hawake _) h
    · cases h
    · cases h

/-- Only the scheduler moves the pointer, and only its scheme function does; who it
    dispatches is not ready afterwards. -/
theorem exec_rr {a : Act} {l : List Freed} (h : exec s a = .ok (t, l)) :
    a ≠ .scheduler ∧ t.rr = s.rr ∨
      t.rr = (sched s).1.rr ∧ ∀ q, (sched s).2 = some q → (t.proc q).stat ≠ .READY := by
  cases a with
  | wakeup e =>
    simp only [exec, Except.ok.injEq, Prod.mk.injEq] at h
    rw [← h.1]
    exact Or.inl ⟨by simp, wakeup_rr s e⟩
  | tick =>
    cases h
    exact Or.inl ⟨by simp, rfl⟩
  | call c =>
    simp only [exec] at h
    split at h
    · exact Or.inl ⟨by simp, call_rr h⟩
    · cases h
  | scheduler =>
    simp only [exec] at h
    split at h
    · cases h
    · right
      unfold scheduler at h
      split at h
      · rename_i u hu
        cases h
        rw [hu]
        exact ⟨rfl, by simp⟩
      · rename_i u r hu
        rw [hu]
        refine ⟨switchTo_rr h, ?_⟩
        intro q hq
        obtain rfl := Option.some.inj hq
        exact switchTo_stat h

/-! ### Where the pointer goes -/

theorem of_schedRr_some {u : Kernel} (h : schedRr s = (u, some p)) :
    (s.proc p).stat = .READY ∧ s.rr ≤ p ∧ u.rr = p + 1 ∧
      ∀ q : Slot, s.rr ≤ q → (s.proc q).stat = .READY → p ≤ q := by
  unfold schedRr at h
  split at h
  · rename_i r hr
    cases h
    obtain ⟨hready, l, m, hsplit, hbefore⟩ := List.find?_eq_some_iff_append.mp hr
    have hmem : ∀ q : Slot, q ∈ slots.drop s.rr ↔ s.rr ≤ q := by
      intro q
      rw [slots, List.mem_drop_iff_getElem]
      constructor
      · rintro ⟨i, hi, rfl⟩
        simp
      · intro hq
        exact ⟨q - s.rr, by simp; omega, by ext; simp; omega⟩
    have hsorted : (slots.drop s.rr).Pairwise (· < ·) := (List.pairwise_lt_finRange NPROC).drop
    refine ⟨by simpa using hready, (hmem p).mp (List.mem_of_find?_eq_some hr), rfl, ?_⟩
    intro q hq hqready
    have hqmem := (hmem q).mpr hq
    rw [hsplit] at hqmem hsorted
    rcases List.mem_append.mp hqmem with hql | hqm
    · simpa [hqready] using hbefore q hql
    · rcases List.mem_cons.mp hqm with rfl | hqm
      · exact le_refl _
      · have hlt := (List.pairwise_append.mp hsorted).2.1
        exact le_of_lt ((List.pairwise_cons.mp hlt).1 q hqm)
  · cases h

theorem of_schedRr_none {u : Kernel} (h : schedRr s = (u, none)) :
    u.rr = 0 ∧ ∀ q : Slot, s.rr ≤ q → (s.proc q).stat ≠ .READY := by
  unfold schedRr at h
  split at h
  · cases h
  · rename_i hr
    cases h
    refine ⟨rfl, ?_⟩
    intro q hq hqready
    have hmem : q ∈ slots.drop s.rr := by
      rw [slots, List.mem_drop_iff_getElem]
      exact ⟨q - s.rr, by simp; omega, by ext; simp; omega⟩
    simpa [hqready] using List.find?_eq_none.mp hr q hmem

/-- The pointer is where `p` cannot come next, as long as `q` is ready. -/
def Before (s : Kernel) (p q : Slot) : Prop :=
  if p < q then (p : Nat) < s.rr ∧ s.rr ≤ q else (p : Nat) < s.rr ∨ s.rr ≤ q

theorem Before.sched (h : Before s p q) (hne : q ≠ p) (hrr : s.scheme = .RR)
    (hq : (s.proc q).stat = .READY) {u : Kernel} {o : Option Slot} (hs : Proc.sched s = (u, o)) :
    o ≠ some p ∧ (o ≠ some q → Before u p q) := by
  have hpq : (p : Nat) ≠ q := fun heq => hne (Fin.ext heq.symm)
  unfold Proc.sched at hs
  rw [hrr] at hs
  cases o with
  | none =>
    obtain ⟨hu, hnone⟩ := of_schedRr_none hs
    refine ⟨by simp, fun _ => ?_⟩
    have hlt : ¬ s.rr ≤ q := fun hle => hnone q hle hq
    unfold Before at h ⊢
    split at h
    · exact absurd h.2 hlt
    · rename_i hnot
      rw [if_neg hnot, hu]
      exact Or.inr (Nat.zero_le _)
  | some r =>
    obtain ⟨-, hr, hu, hmin⟩ := of_schedRr_some hs
    have hrq : r ≠ q → (r : Nat) ≠ q := fun h' heq => h' (Fin.ext heq)
    unfold Before at h ⊢
    simp only [hu, Fin.lt_def, ne_eq, Option.some.injEq, Fin.ext_iff] at h hrq ⊢
    split at h
    · rename_i hlt
      have hle := Fin.le_def.mp (hmin q h.2 hq)
      rw [if_pos hlt]
      omega
    · rename_i hlt
      rw [if_neg hlt]
      rcases h with h | h
      · omega
      · have hle := Fin.le_def.mp (hmin q h hq)
        omega

/-! ### The runs -/

/-- A step after which the scheme is still round robin and `q` still ready. -/
def WaitStep (q : Slot) (s : Kernel) (a : Act) (t : Kernel) : Prop :=
  Step s a t ∧ t.scheme = .RR ∧ (t.proc q).stat = .READY

theorem Before.step {a : Act} (h : Before s p q) (hne : q ≠ p) (hrr : s.scheme = .RR)
    (hq : (s.proc q).stat = .READY) (hs : WaitStep q s a t) : Before t p q := by
  obtain ⟨⟨l, hl⟩, -, hready⟩ := hs
  rcases exec_rr hl with ⟨-, hsame⟩ | ⟨hmoved, hstat⟩
  · unfold Before
    rw [hsame]
    exact h
  · have hu := (h.sched hne hrr hq (Prod.mk.eta (p := Proc.sched s)).symm).2
      fun hsome => hstat q hsome hready
    unfold Before at hu ⊢
    rw [hmoved]
    exact hu

/-- **Round robin.**  When `p` has been dispatched, it is not dispatched again before a
    process that is ready from then on. -/
theorem rr_bounded_bypass {u : Kernel} {as : List Act} (hrr : s.scheme = .RR)
    (hp : (sched s).2 = some p) (hne : q ≠ p) (hs : WaitStep q s .scheduler t) (h : Run (WaitStep q) t as u) : (sched u).2 ≠ some p := by
  have hpt : Before t p q := by
    obtain ⟨⟨l, hl⟩, -, hready⟩ := hs
    rcases exec_rr hl with ⟨ha, -⟩ | ⟨hmoved, -⟩
    · exact absurd rfl ha
    · have hsched : schedRr s = ((sched s).1, some p) := by
        rw [← hp, sched, hrr]
      obtain ⟨-, -, hrr', -⟩ := of_schedRr_some hsched
      unfold Before
      rw [hmoved, hrr']
      split
      · rename_i hlt
        exact ⟨Nat.lt_succ_self _, Fin.lt_def.mp hlt⟩
      · exact Or.inl (Nat.lt_succ_self _)
  have hu : u.scheme = .RR ∧ (u.proc q).stat = .READY ∧ Before u p q := by
    refine h.invariant (fun s => s.scheme = .RR ∧ (s.proc q).stat = .READY ∧ Before s p q)
      ⟨hs.2.1, hs.2.2, hpt⟩ ?_
    rintro v a w ⟨h1, h2, h3⟩ hstep
    exact ⟨hstep.2.1, hstep.2.2, h3.step hne h1 h2 hstep⟩
  exact (hu.2.2.sched hne hu.1 hu.2.1 (Prod.mk.eta (p := sched u)).symm).1

set_option maxRecDepth 20000 in
/-- The first process and its child take turns. -/
theorem rr_bounded_bypass_fork :
    ∃ s, Run Step (userinit start 1) [.scheduler, .call (.fork (.pages 2)), .call .giveupCpu] s ∧
      ∃ t, WaitStep ⟨0, by decide⟩ s .scheduler t ∧
      ∃ u, Run (WaitStep ⟨0, by decide⟩) t [.call .giveupCpu, .scheduler] u ∧
        (sched s).2 = some ⟨1, by decide⟩ ∧ (sched u).2 = some ⟨0, by decide⟩ ∧
        (sched u).2 ≠ some ⟨1, by decide⟩ := by
  have turns : ∀ {s t u : Kernel} {as : List Act}, s.scheme = .RR →
      (sched s).2 = some ⟨1, by decide⟩ → WaitStep ⟨0, by decide⟩ s .scheduler t →
      Run (WaitStep ⟨0, by decide⟩) t as u → (sched u).2 = some ⟨0, by decide⟩ →
      ∃ t, WaitStep ⟨0, by decide⟩ s .scheduler t ∧ ∃ u, Run (WaitStep ⟨0, by decide⟩) t as u ∧
        (sched s).2 = some ⟨1, by decide⟩ ∧ (sched u).2 = some ⟨0, by decide⟩ ∧
        (sched u).2 ≠ some ⟨1, by decide⟩ :=
    fun hrr hp ht hu h0 => ⟨_, ht, _, hu, hp, h0, rr_bounded_bypass hrr hp (by decide) ht hu⟩
  exact ⟨_, Run.cons ⟨_, rfl⟩ (Run.cons ⟨_, rfl⟩ (Run.single ⟨_, rfl⟩)),
    turns rfl rfl ⟨⟨_, rfl⟩, rfl, rfl⟩
      (Run.cons ⟨⟨_, rfl⟩, rfl, rfl⟩ (Run.single ⟨⟨_, rfl⟩, rfl, rfl⟩)) rfl⟩

end Yonix.Proc
