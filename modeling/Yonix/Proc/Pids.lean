/-
  Yonix/Proc/Pids.lean
  ====================
  **Process numbers and the page identifiers made of them (`procalloc`, `add_page`,
  `alloc_slot`).**

  A page of a process is known to the page queue and the swap map by `va | p_pid`, and
  `PTE_ADDR` and `PTE_FLAGS` take the two apart again.  That needs numbers of twelve
  bits, and `MAX_PID` says so, but `procalloc` counts `nextpid` up without looking at
  it.  As long as nobody is created once `nextpid` has passed `MAX_PID`, the identifiers
  are unambiguous (`page_ids_unambiguous`); a process that forks and waits often enough
  gets a child for which they are not (`forks_exhaust_pids`).
-/
import Yonix.Proc.Slots
import Yonix.Vm.Queue

namespace Yonix.Proc

/-! ### Numbers in use -/

structure Pids (s : Kernel) : Prop where
  lt : ∀ p, (s.proc p).pid < s.nextpid
  live : ∀ p, (s.proc p).stat ≠ .SUNUSED → (s.proc p).pid ≠ 0
  inj : ∀ p q, (s.proc p).pid = (s.proc q).pid → (s.proc p).pid ≠ 0 → p = q

/-- Nobody gets a number; whoever loses his becomes unused. -/
structure SamePids (s t : Kernel) : Prop where
  next : t.nextpid = s.nextpid
  pid : ∀ p, (t.proc p).pid = (s.proc p).pid ∨
    ((t.proc p).pid = 0 ∧ (t.proc p).stat = .SUNUSED)
  live : ∀ p, (t.proc p).stat ≠ .SUNUSED → (s.proc p).stat ≠ .SUNUSED

variable {s t u : Kernel} {p q n : Slot}

namespace SamePids

theorem refl (s : Kernel) : SamePids s s := ⟨rfl, fun _ => .inl rfl, fun _ => id⟩

theorem trans (h1 : SamePids s t) (h2 : SamePids t u) : SamePids s u := by
  refine ⟨h2.next.trans h1.next, fun p => ?_, fun p hp => h1.live p (h2.live p hp)⟩
  rcases h2.pid p with h | h
  · rcases h1.pid p with h' | h'
    · exact .inl (h.trans h')
    · refine .inr ⟨h.trans h'.1, ?_⟩
      by_contra hu
      exact h2.live p hu h'.2
  · exact .inr h

theorem pids (h : SamePids s t) (hs : Pids s) : Pids t := by
  have hlive : ∀ p, (t.proc p).pid ≠ 0 → (t.proc p).pid = (s.proc p).pid :=
    fun p hp => (h.pid p).resolve_right fun h0 => hp h0.1
  refine ⟨fun p => ?_, fun p hp => ?_, fun p q hpq hp => ?_⟩
  · rw [h.next]
    rcases h.pid p with h' | h'
    · rw [h']
      exact hs.lt p
    · rw [h'.1]
      exact lt_of_le_of_lt (Nat.zero_le _) (hs.lt p)
  · rcases h.pid p with h' | h'
    · rw [h']
      exact hs.live p (h.live p hp)
    · exact absurd h'.2 hp
  · have hp' := hlive p hp
    have hq' := hlive q (hpq ▸ hp)
    exact hs.inj p q (by rw [← hp', ← hq', hpq]) (hp' ▸ hp)

/-- The table is the same, or one slot differs in other fields. -/
theorem of_proc (hn : t.nextpid = s.nextpid) (hp : t.proc = s.proc) : SamePids s t :=
  ⟨hn, fun p => .inl (by rw [hp]), fun p => by rw [hp]; exact id⟩

theorem of_set {f : Pcb → Pcb} (hpid : (f (s.proc p)).pid = (s.proc p).pid)
    (hstat : (f (s.proc p)).stat ≠ .SUNUSED → (s.proc p).stat ≠ .SUNUSED) :
    SamePids s (s.set p f) := by
  refine ⟨rfl, fun q => .inl ?_, fun q => ?_⟩
  · by_cases hq : q = p
    · simp [Kernel.set, hq, hpid]
    · simp [Kernel.set, hq]
  · by_cases hq : q = p
    · subst hq
      simpa [Kernel.set] using hstat
    · simp [Kernel.set, hq]

theorem of_one (hn : t.nextpid = s.nextpid) (hother : ∀ q, q ≠ p → t.proc q = s.proc q)
    (hpid : (t.proc p).pid = (s.proc p).pid) (hstat : (s.proc p).stat ≠ .SUNUSED) :
    SamePids s t := by
  refine ⟨hn, fun q => .inl ?_, fun q hq => ?_⟩
  · by_cases hqp : q = p
    · rw [hqp, hpid]
    · rw [hother q hqp]
  · by_cases hqp : q = p
    · rw [hqp]
      exact hstat
    · rwa [hother q hqp] at hq

theorem proc_eq (h : SamePids s t) (hn : u.nextpid = t.nextpid) (hp : u.proc = t.proc) :
    SamePids s u :=
  h.trans (of_proc hn hp)

end SamePids

theorem enqueue_nextpid (s : Kernel) (p : Slot) : (enqueue s p).nextpid = s.nextpid := by
  unfold enqueue
  split <;> rfl

theorem SamePids.enqueue (h : SamePids s t) (p : Slot) : SamePids s (enqueue t p) :=
  h.proc_eq (enqueue_nextpid t p) (enqueue_proc t p)

theorem timeslice_pid (scheme : Scheme) (q : Pcb) : (timeslice scheme q).pid = q.pid := by
  unfold timeslice
  split <;> rfl

/-! ### The operations -/

theorem wakeup_pids (s : Kernel) (e : Option Chan) : SamePids s (wakeup s e) := by
  unfold wakeup
  refine List.foldlRecOn slots _ (SamePids.refl s) ?_
  intro t ht p _
  split
  · rename_i h
    exact (ht.trans (.of_set rfl (by simp [h.1]))).enqueue p
  · exact ht

theorem reparent_pids (s : Kernel) (p : Slot) : SamePids s (reparent s p) := by
  unfold reparent
  refine List.foldlRecOn slots _ (SamePids.refl s) ?_
  intro t ht q _
  dsimp only
  split
  · have hset : SamePids s (t.set q fun x => { x with prt := some t.initproc }) :=
      ht.trans (.of_set rfl id)
    split
    · exact hset.trans (wakeup_pids _ _)
    · exact hset
  · exact ht

theorem recalcTimeslice_pids (s : Kernel) : SamePids s (recalcTimeslice s) := by
  unfold recalcTimeslice
  refine List.foldlRecOn slots _ (SamePids.refl s) ?_
  intro t ht q _
  split
  · exact ht.trans (.of_set (timeslice_pid _ _) (by rw [timeslice_stat]; exact id))
  · exact ht

theorem transform_pids (h : transform s p = .ok t) : SamePids s t := by
  rw [transform_eq_ok h]
  exact .of_proc rfl rfl

theorem sleep_pids {e : Option Chan} {loop : Loop} (hp : (s.proc p).stat ≠ .SUNUSED)
    (h : sleep s p e loop = .ok t) : SamePids s t :=
  SamePids.trans (.of_set rfl fun _ => hp) (transform_pids h)

theorem exit_pids (hp : (s.proc p).stat ≠ .SUNUSED) (h : exit s p = .ok t) : SamePids s t := by
  unfold exit at h
  split at h
  · cases h
  · dsimp only at h
    have h1 : SamePids s (reparent (wakeup s ((s.proc p).prt.map .proc)) p) :=
      (wakeup_pids s _).trans (reparent_pids _ _)
    have h2 : SameSlots s (reparent (wakeup s ((s.proc p).prt.map .proc)) p) :=
      (wakeup_sameSlots _ _).trans (reparent_sameSlots _ _)
    generalize reparent (wakeup s ((s.proc p).prt.map .proc)) p = u at h h1 h2
    have hu : (u.proc p).stat ≠ .SUNUSED := fun hn => hp ((h2.unused p).mp hn)
    exact (h1.trans (.of_set rfl fun _ => hu)).trans (transform_pids h)

theorem after_pids (hp : (s.proc p).stat ≠ .SUNUSED) (h : after s p = .ok t) : SamePids s t := by
  unfold after at h
  split at h
  · cases h
    exact .of_set (timeslice_pid _ _) fun _ => hp
  · cases h
    exact .of_set (timeslice_pid _ _) fun _ => hp
  · dsimp only at h
    split at h
    · cases h
      refine .of_one rfl (fun q hq => ?_) ?_ hp
      · simp [insertDy, Kernel.set, hq]
      · simp [insertDy, Kernel.set, timeslice_pid]
    · cases h

theorem giveupCpu_pids (hp : (s.proc p).stat ≠ .SUNUSED) (h : giveupCpu s p = .ok t) :
    SamePids s t := by
  obtain ⟨u, hu, h⟩ := bind_eq_ok.mp h
  have hset : SamePids s (s.set p fun q => { q with stat := .READY, resume := .user }) :=
    .of_set rfl fun _ => hp
  refine ((hset.enqueue p).trans (after_pids ?_ hu)).trans (transform_pids h)
  rw [enqueue_proc]
  simp [Kernel.set]

theorem timesliceYield_pids (hp : (s.proc p).stat ≠ .SUNUSED) (h : timesliceYield s p = .ok t) :
    SamePids s t := by
  unfold timesliceYield at h
  split at h
  · cases h
    exact .refl s
  · dsimp only at h
    have hset : SamePids s (s.set p fun q => { q with
        timeSlice := q.timeSlice - TIMER_INTERVAL, avgslp := max (-50) (q.avgslp - 1) }) :=
      .of_set rfl id
    split at h
    · refine hset.trans (giveupCpu_pids ?_ h)
      simpa [Kernel.set] using hp
    · cases h
      exact hset

theorem kill_pids (s : Kernel) (pid : Nat) : SamePids s (kill s pid) := by
  unfold kill
  split
  · refine .of_set rfl ?_
    dsimp only
    split
    · rename_i hsl
      rw [hsl]
      simp
    · exact id
  · exact .refl s

theorem selectScheme_pids {scheme : Scheme} {slabEmpty : Bool}
    (h : selectScheme s p scheme slabEmpty = .ok t) : SamePids s t := by
  rcases selectScheme_spec h with ⟨-, rfl⟩ | ⟨-, l, -, rfl⟩ | ⟨-, l, rfl⟩
  · exact .of_proc rfl rfl
  · exact .of_proc rfl rfl
  · exact .of_proc rfl rfl

theorem incnice_pids (s : Kernel) (p : Slot) (n : Int) : SamePids s (incnice s p n) := by
  unfold incnice
  dsimp only
  split
  · exact .of_set rfl id
  · exact .refl s

theorem execImage_pids (s : Kernel) (p : Slot) (e : ExecEnd) : SamePids s (execImage s p e).1 := by
  cases e with
  | early => exact .refl s
  | bad d => exact .of_proc rfl rfl
  | commit d =>
    refine ⟨rfl, fun q => .inl ?_, fun q => ?_⟩
    · by_cases hq : q = p
      · simp [execImage, freeuvm, Kernel.set, hq]
      · simp [execImage, freeuvm, Kernel.set, hq]
    · by_cases hq : q = p
      · simp [execImage, freeuvm, Kernel.set, hq]
      · simp [execImage, freeuvm, Kernel.set, hq]

theorem reap_pids (s : Kernel) (p : Slot) : SamePids s (reap s p) := by
  refine ⟨rfl, fun q => ?_, fun q => ?_⟩
  · by_cases hq : q = p
    · right
      simp [reap, Kernel.set, hq]
    · left
      simp [reap, Kernel.set, hq]
  · by_cases hq : q = p
    · simp [reap, Kernel.set, hq]
    · simp [reap, Kernel.set, hq]

theorem waitLoop_pids {l : List Freed} (hp : (s.proc p).stat ≠ .SUNUSED)
    (h : waitLoop s p = .ok (t, l)) : SamePids s t := by
  unfold waitLoop at h
  split at h
  · rename_i q hq
    cases h
    exact SamePids.trans (t := freeuvm s (s.proc q).page) (.of_proc rfl rfl) (reap_pids _ q)
  · split at h
    · cases h
      exact .refl s
    · obtain ⟨u, hu, h⟩ := bind_eq_ok.mp h
      cases h
      exact sleep_pids hp hu

theorem joinLoop_pids {l : List Freed} (hp : (s.proc p).stat ≠ .SUNUSED)
    (h : joinLoop s p = .ok (t, l)) : SamePids s t := by
  unfold joinLoop at h
  split at h
  · rename_i q hq
    cases h
    exact reap_pids s q
  · split at h
    · cases h
      exact .refl s
    · obtain ⟨u, hu, h⟩ := bind_eq_ok.mp h
      cases h
      exact sleep_pids hp hu

theorem switchTo_pids {l : List Freed} (hp : (s.proc p).stat ≠ .SUNUSED)
    (h : switchTo s p = .ok (t, l)) : SamePids s t := by
  have hcpu : SamePids s (onCpu s p) :=
    SamePids.trans (t := { s with cur := some p }) (.of_proc rfl rfl) (.of_set rfl fun _ => hp)
  have hawake : ∀ k, SamePids s (awake (onCpu s p) p k) :=
    fun k => hcpu.trans (.of_set rfl id)
  have hrun : ∀ k, ((awake (onCpu s p) p k).proc p).stat ≠ .SUNUSED := by
    intro k
    simp [awake, onCpu, Kernel.set]
  obtain ⟨-, -, ⟨-, rfl⟩ | ⟨k, rfl | hw | hj⟩⟩ := switchTo_cases h
  · exact hcpu
  · exact hawake k
  · exact (hawake k).trans (waitLoop_pids (hrun k) hw)
  · exact (hawake k).trans (joinLoop_pids (hrun k) hj)

theorem sched_nextpid {o : Option Slot} (h : sched s = (u, o)) : u.nextpid = s.nextpid := by
  unfold sched schedFifo schedRr schedPriority at h
  repeat' split at h
  all_goals
    cases h
    rfl

theorem scheduler_pids {l : List Freed} (hwf : Wf s) (h : scheduler s = .ok (t, l)) :
    SamePids s t := by
  unfold scheduler at h
  split at h
  · rename_i u hs
    cases h
    exact .of_proc (sched_nextpid hs) (sched_proc hs).1
  · rename_i u p hs
    have hu : SamePids s u := .of_proc (sched_nextpid hs) (sched_proc hs).1
    refine hu.trans (switchTo_pids ?_ h)
    obtain ⟨-, hgone, -⟩ := switchTo_cases h
    rw [(sched_proc hs).1] at hgone ⊢
    exact fun hun => hgone (hwf.gone p (.inl hun))

/-! ### A new process -/

/-- Slot `n`, which was free, gets the next number. -/
structure Numbered (s t : Kernel) (n : Slot) : Prop where
  next : t.nextpid = s.nextpid + 1
  new : (t.proc n).pid = s.nextpid
  other : ∀ q, q ≠ n → t.proc q = s.proc q

theorem Numbered.pids (h : Numbered s t n) (hs : Pids s) (h0 : 0 < s.nextpid) : Pids t := by
  have hother : ∀ q, q ≠ n → (t.proc q).pid < s.nextpid := by
    intro q hq
    rw [h.other q hq]
    exact hs.lt q
  refine ⟨fun p => ?_, fun p hp => ?_, fun p q hpq hp => ?_⟩
  · rw [h.next]
    by_cases hpn : p = n
    · rw [hpn, h.new]
      omega
    · have := hother p hpn
      omega
  · by_cases hpn : p = n
    · rw [hpn, h.new]
      omega
    · rw [h.other p hpn] at hp ⊢
      exact hs.live p hp
  · by_cases hpn : p = n
    · by_cases hqn : q = n
      · rw [hpn, hqn]
      · have := hother q hqn
        rw [← hpq, hpn, h.new] at this
        omega
    · by_cases hqn : q = n
      · have := hother p hpn
        rw [hpq, hqn, h.new] at this
        omega
      · rw [h.other p hpn] at hpq hp
        rw [h.other q hqn] at hpq
        exact hs.inj p q hpq hp

theorem procalloc_numbered (s : Kernel) (stack : Bool) :
    (s.esqueue = [] ∧ procalloc s stack = (s, none)) ∨
      ∃ n, s.esqueue.head? = some n ∧ Numbered s (procalloc s stack).1 n ∧
        ((procalloc s stack).2 = none ∨ (procalloc s stack).2 = some n) := by
  unfold procalloc
  cases hl : s.esqueue with
  | nil => exact .inl ⟨rfl, rfl⟩
  | cons n l =>
    right
    refine ⟨n, rfl, ?_⟩
    dsimp only
    cases stack with
    | true =>
      refine ⟨⟨rfl, ?_, fun q hq => ?_⟩, .inr rfl⟩
      · simp [Kernel.set, timeslice_pid]
      · simp [Kernel.set, hq]
    | false =>
      refine ⟨⟨rfl, ?_, fun q hq => ?_⟩, .inl rfl⟩
      · simp [Kernel.set, timeslice_pid]
      · simp [Kernel.set, hq]

/-- The rest of `fork` and `lwp_create` changes other fields of the new slot. -/
theorem Numbered.rest (h : Numbered s t n) (hn : u.nextpid = t.nextpid)
    (hother : ∀ q, q ≠ n → u.proc q = t.proc q) (hpid : (u.proc n).pid = (t.proc n).pid) :
    Numbered s u n :=
  ⟨hn.trans h.next, hpid.trans h.new, fun q hq => (hother q hq).trans (h.other q hq)⟩

theorem fork_numbered (s : Kernel) (p : Slot) (m : Mem) :
    (s.esqueue = [] ∧ fork s p m = s) ∨
      ∃ n, s.esqueue.head? = some n ∧ Numbered s (fork s p m) n := by
  rcases procalloc_numbered s (m ≠ .noStack) with ⟨h0, heq⟩ | ⟨n, hn, hnum, hres⟩
  · left
    refine ⟨h0, ?_⟩
    unfold fork
    rw [heq]
  · right
    refine ⟨n, hn, ?_⟩
    unfold fork
    generalize procalloc s (m ≠ .noStack) = r at hnum hres
    obtain ⟨t, o⟩ := r
    rcases hres with ho | ho
    · cases ho
      exact hnum
    · cases ho
      cases m with
      | noStack => exact hnum.rest rfl (fun q hq => by simp [Kernel.set, hq]) (by simp [Kernel.set])
      | noPages => exact hnum.rest rfl (fun q hq => by simp [Kernel.set, hq]) (by simp [Kernel.set])
      | pages d =>
        refine hnum.rest (enqueue_nextpid _ _) (fun q hq => ?_) ?_
        · rw [enqueue_proc]
          simp [Kernel.set, hq]
        · rw [enqueue_proc]
          simp [Kernel.set]

theorem lwpCreate_numbered (s : Kernel) (p : Slot) (stack : Bool) :
    (s.esqueue = [] ∧ lwpCreate s p stack = s) ∨
      ∃ n, s.esqueue.head? = some n ∧ Numbered s (lwpCreate s p stack) n := by
  rcases procalloc_numbered s stack with ⟨h0, heq⟩ | ⟨n, hn, hnum, hres⟩
  · left
    refine ⟨h0, ?_⟩
    unfold lwpCreate
    rw [heq]
  · right
    refine ⟨n, hn, ?_⟩
    unfold lwpCreate
    generalize procalloc s stack = r at hnum hres
    obtain ⟨t, o⟩ := r
    rcases hres with ho | ho
    · cases ho
      exact hnum
    · cases ho
      dsimp only
      split
      · exact hnum.rest rfl (fun q hq => by simp [Kernel.set, hq]) (by simp [Kernel.set])
      · refine hnum.rest (enqueue_nextpid _ _) (fun q hq => ?_) ?_
        · rw [enqueue_proc]
          simp [Kernel.set, hq]
        · rw [enqueue_proc]
          simp [Kernel.set]

/-! ### Runs -/

/-- The label creates a process. -/
def Creates : Act → Bool
  | .call (.fork _) => true
  | .call (.lwpCreate _) => true
  | _ => false

theorem step_pids {a : Act} (hwf : Wf s) (h : Step s a t) :
    SamePids s t ∨ (Creates a = true ∧ ∃ n, s.esqueue.head? = some n ∧ Numbered s t n) := by
  obtain ⟨l, h⟩ := h
  cases a with
  | wakeup e =>
    simp only [exec, Except.ok.injEq, Prod.mk.injEq] at h
    rw [← h.1]
    exact .inl (wakeup_pids s e)
  | tick =>
    cases h
    exact .inl (.of_proc rfl rfl)
  | scheduler =>
    simp only [exec] at h
    split at h
    · cases h
    · exact .inl (scheduler_pids hwf h)
  | call c =>
    simp only [exec] at h
    split at h
    · rename_i p hc
      have hp : (s.proc p).stat ≠ .SUNUSED := by
        rw [hwf.cur p hc]
        simp
      cases c with
      | fork m =>
        simp only [call] at h
        split at h
        · cases h
          rcases fork_numbered s p m with ⟨-, heq⟩ | hn
          · left
            rw [heq]
            exact .refl s
          · exact .inr ⟨rfl, hn⟩
        · cases h
      | lwpCreate stack =>
        simp only [call] at h
        cases h
        rcases lwpCreate_numbered s p stack with ⟨-, heq⟩ | hn
        · left
          rw [heq]
          exact .refl s
        · exact .inr ⟨rfl, hn⟩
      | exec e =>
        simp only [call] at h
        split at h
        · have ht : (execImage s p e).1 = t := congrArg Prod.fst (Except.ok.inj h)
          rw [← ht]
          exact .inl (execImage_pids s p e)
        · cases h
      | exit =>
        obtain ⟨u, hu, h⟩ := bind_eq_ok.mp h
        cases h
        exact .inl (exit_pids hp hu)
      | wait => exact .inl (waitLoop_pids hp h)
      | lwpJoin => exact .inl (joinLoop_pids hp h)
      | sleep e =>
        obtain ⟨u, hu, h⟩ := bind_eq_ok.mp h
        cases h
        exact .inl (sleep_pids hp hu)
      | kill pid =>
        cases h
        exact .inl (kill_pids s pid)
      | giveupCpu =>
        obtain ⟨u, hu, h⟩ := bind_eq_ok.mp h
        cases h
        exact .inl (giveupCpu_pids hp hu)
      | timesliceYield =>
        obtain ⟨u, hu, h⟩ := bind_eq_ok.mp h
        cases h
        exact .inl (timesliceYield_pids hp hu)
      | selectScheme scheme slabEmpty =>
        obtain ⟨u, hu, h⟩ := bind_eq_ok.mp h
        cases h
        exact .inl (selectScheme_pids hu)
      | recalcTimeslice =>
        simp only [call, Except.ok.injEq, Prod.mk.injEq] at h
        rw [← h.1]
        exact .inl (recalcTimeslice_pids s)
      | incnice n =>
        cases h
        exact .inl (incnice_pids s p n)
    · cases h

/-- The step creates no process while `nextpid` is past `MAX_PID`. -/
def FewStep (s : Kernel) (a : Act) (t : Kernel) : Prop :=
  (Creates a = true → s.esqueue ≠ [] → s.nextpid ≤ MAX_PID) ∧ Step s a t

/-- Nobody has a number that does not fit. -/
structure FewPids (s : Kernel) : Prop where
  wf : Wf s
  pids : Pids s
  pos : 0 < s.nextpid
  le : s.nextpid ≤ MAX_PID + 1

theorem FewPids.step {a : Act} (hs : FewPids s) (h : FewStep s a t) : FewPids t := by
  obtain ⟨hfew, hstep⟩ := h
  obtain ⟨l, hl⟩ := hstep
  have hwf : Wf t := hs.wf.exec hl
  rcases step_pids hs.wf ⟨l, hl⟩ with hsame | ⟨hc, n, hn, hnum⟩
  · exact ⟨hwf, hsame.pids hs.pids, by rw [hsame.next]; exact hs.pos, by rw [hsame.next]; exact hs.le⟩
  · have hne : s.esqueue ≠ [] := by
      intro h0
      rw [h0] at hn
      simp at hn
    have hle := hfew hc hne
    exact ⟨hwf, hnum.pids hs.pids hs.pos, by rw [hnum.next]; omega, by rw [hnum.next]; omega⟩

theorem Pids.start : Pids start :=
  ⟨by simp [Proc.start, unused], by simp [Proc.start, unused], by simp [Proc.start, unused]⟩

theorem userinit_numbered (d : Nat) : ∃ n, Numbered Proc.start (userinit Proc.start d) n := by
  rcases procalloc_numbered Proc.start true with ⟨h0, -⟩ | ⟨n, -, hnum, hres⟩
  · have hlen : slots.length = 0 := congrArg List.length h0
    rw [slots, List.length_finRange] at hlen
    exact absurd hlen (by decide)
  · refine ⟨n, ?_⟩
    unfold userinit
    generalize procalloc Proc.start true = r at hnum hres
    obtain ⟨t, o⟩ := r
    rcases hres with ho | ho
    · cases ho
      exact hnum
    · cases ho
      dsimp only
      refine hnum.rest (enqueue_nextpid _ _) (fun q hq => ?_) ?_
      · rw [enqueue_proc]
        simp [Kernel.set, hq]
      · rw [enqueue_proc]
        simp [Kernel.set]

theorem FewPids.userinit (d : Nat) : FewPids (userinit Proc.start d) := by
  obtain ⟨n, hnum⟩ := userinit_numbered d
  have hnext : (Proc.userinit Proc.start d).nextpid = 2 := hnum.next
  exact ⟨Wf.start.moves (userinit_moves _ d), hnum.pids Pids.start Nat.one_pos,
    by rw [hnext]; decide, by rw [hnext]; decide⟩

/-- `PTE_ADDR` of an identifier. -/
def pteAddr (key : Nat) : Nat := key / PGSIZE * PGSIZE

/-- **Page identifiers are unambiguous.**  In every run from `userinit` in which no
    process is created once `nextpid` has passed `MAX_PID`, the identifier of a page of
    a live process decodes to its address and to the number of the process, and the
    identifiers of two different pages, or of pages of two different processes, differ. -/
theorem page_ids_unambiguous {d : Nat} {as : List Act} {t : Kernel}
    (h : Run FewStep (userinit start d) as t) :
    (∀ p va, (t.proc p).stat ≠ .SUNUSED → PGSIZE ∣ va → va < KERNBASE →
      pteAddr (va ||| (t.proc p).pid) = va ∧ Vm.pteFlags (va ||| (t.proc p).pid) = (t.proc p).pid) ∧
    ∀ p q va vb, (t.proc p).stat ≠ .SUNUSED → (t.proc q).stat ≠ .SUNUSED → PGSIZE ∣ va →
      PGSIZE ∣ vb → va < KERNBASE → vb < KERNBASE →
      va ||| (t.proc p).pid = vb ||| (t.proc q).pid → p = q ∧ va = vb := by
  have ht : FewPids t := h.invariant FewPids (FewPids.userinit d) fun u a v hu huv => hu.step huv
  have hle : ∀ p, (t.proc p).pid ≤ MAX_PID := by
    intro p
    have h1 := ht.pids.lt p
    have h2 := ht.le
    omega
  constructor
  · intro p va _ hva _
    rw [Vm.or_eq_add hva (hle p)]
    have hp := hle p
    obtain ⟨k, rfl⟩ := hva
    unfold pteAddr Vm.pteFlags
    unfold PGSIZE MAX_PID at *
    omega
  · intro p q va vb hp hq hva hvb _ _ heq
    obtain ⟨h1, h2⟩ := Vm.key_inj hva hvb (hle p) (hle q) heq
    exact ⟨ht.pids.inj p q h2 (ht.pids.live p hp), h1⟩

/-! ### A process that forks and waits for ever -/

def init0 : Slot := ⟨0, NPROC_pos⟩

/-- Only slot 0 is in use, and runs under round robin. -/
structure Single (s : Kernel) (k : Nat) : Prop where
  cur : s.cur = some init0
  scheme : s.scheme = .RR
  rr : s.rr = 1
  init : s.initproc = init0
  next : s.nextpid = k
  free : s.esqueue ≠ [] ∧ init0 ∉ s.esqueue
  stat : (s.proc init0).stat = .SRUN
  page : (s.proc init0).page ≠ 0
  prt : (s.proc init0).prt = none
  resume : (s.proc init0).resume = .user
  live : s.live 7 = false
  other : ∀ q, q ≠ init0 → (s.proc q).stat = .SUNUSED ∧ (s.proc q).prt = none

/-- Slot 0 has a child in slot `c`, with page directory 7; `st0` and `stc` are their
    states. -/
structure Pair (s : Kernel) (c : Slot) (k : Nat) (st0 stc : Stat) (cur : Option Slot) (rr : Nat) :
    Prop where
  ne : c ≠ init0
  cur : s.cur = cur
  scheme : s.scheme = .RR
  rr : s.rr = rr
  init : s.initproc = init0
  next : s.nextpid = k
  free : init0 ∉ s.esqueue
  stat : (s.proc init0).stat = st0 ∧ (s.proc c).stat = stc
  page : (s.proc init0).page ≠ 0 ∧ (s.proc c).page = 7
  prt : (s.proc init0).prt = none ∧ (s.proc c).prt = some init0
  resume : (s.proc init0).resume = .user ∧ (stc ≠ .SZOMB → (s.proc c).resume = .user)
  pid : (s.proc c).pid + 1 = k
  other : ∀ q, q ≠ init0 → q ≠ c → (s.proc q).stat = .SUNUSED ∧ (s.proc q).prt = none

variable {c : Slot} {k rr : Nat} {st0 stc : Stat} {cur : Option Slot}

theorem Single.fork (h : Single s k) :
    ∃ t c, Step s (.call (.fork (.pages 7))) t ∧ Pair t c (k + 1) .SRUN .READY (some init0) 1 := by
  cases hesq : s.esqueue with
  | nil => exact absurd hesq h.free.1
  | cons c l =>
    have hfree := h.free.2
    rw [hesq, List.mem_cons, not_or] at hfree
    have hne : init0 ≠ c := hfree.1
    have hok : memOk s (.pages 7) = true := by simp [memOk, Kernel.Fresh, h.live]
    refine ⟨Proc.fork s init0 (.pages 7), c, ⟨[], ?_⟩, ?_⟩
    · simp only [exec, h.cur, call, if_pos hok]
    · have hproc : ∀ q, q ≠ c → (Proc.fork s init0 (.pages 7)).proc q = s.proc q := by
        intro q hq
        simp [Proc.fork, procalloc, hesq, enqueue_proc, Kernel.set, hq]
      constructor
      case other =>
        intro q h0 hc
        rw [hproc q hc]
        exact h.other q h0
      case ne => exact hne.symm
      case stat =>
        rw [hproc _ hne]
        exact ⟨h.stat, by simp [Proc.fork, procalloc, hesq, enqueue_proc, Kernel.set]⟩
      case page =>
        rw [hproc _ hne]
        exact ⟨h.page, by simp [Proc.fork, procalloc, hesq, enqueue_proc, Kernel.set]⟩
      case prt =>
        rw [hproc _ hne]
        exact ⟨h.prt, by simp [Proc.fork, procalloc, hesq, enqueue_proc, Kernel.set]⟩
      case resume =>
        rw [hproc _ hne]
        exact ⟨h.resume, by simp [Proc.fork, procalloc, hesq, enqueue_proc, Kernel.set]⟩
      case pid => simp [Proc.fork, procalloc, hesq, enqueue_proc, Kernel.set, timeslice_pid, h.next]
      case cur => simp [Proc.fork, procalloc, hesq, enqueue, h.scheme, Kernel.set, h.cur]
      case scheme => simp [Proc.fork, procalloc, hesq, enqueue, h.scheme, Kernel.set]
      case rr => simp [Proc.fork, procalloc, hesq, enqueue, h.scheme, Kernel.set, h.rr]
      case init => simp [Proc.fork, procalloc, hesq, enqueue, h.scheme, Kernel.set, h.init]
      case next => simp [Proc.fork, procalloc, hesq, enqueue, h.scheme, Kernel.set, h.next]
      case free => simpa [Proc.fork, procalloc, hesq, enqueue, h.scheme, Kernel.set] using hfree.2

/-- A step that changes only the states, the running process and the pointer of
    `sched_rr`. -/
theorem Pair.restate {st0' stc' : Stat} {cur' : Option Slot} {rr' : Nat}
    (h : Pair s c k st0 stc cur rr) (hcur : t.cur = cur') (hrr : t.rr = rr')
    (hscheme : t.scheme = s.scheme) (hinit : t.initproc = s.initproc)
    (hnext : t.nextpid = s.nextpid) (hesq : t.esqueue = s.esqueue)
    (hother : ∀ q, q ≠ init0 → q ≠ c → t.proc q = s.proc q)
    (h0 : (t.proc init0).stat = st0' ∧ (t.proc init0).page = (s.proc init0).page ∧
      (t.proc init0).prt = (s.proc init0).prt ∧ (t.proc init0).resume = (s.proc init0).resume)
    (hc : (t.proc c).stat = stc' ∧ (t.proc c).page = (s.proc c).page ∧
      (t.proc c).prt = (s.proc c).prt ∧ (t.proc c).pid = (s.proc c).pid)
    (hr : stc' ≠ .SZOMB → (t.proc c).resume = .user) : Pair t c k st0' stc' cur' rr' where
  ne := h.ne
  cur := hcur
  scheme := hscheme.trans h.scheme
  rr := hrr
  init := hinit.trans h.init
  next := hnext.trans h.next
  free := by rw [hesq]; exact h.free
  stat := ⟨h0.1, hc.1⟩
  page := by rw [h0.2.1, hc.2.1]; exact h.page
  prt := by rw [h0.2.2.1, hc.2.2.1]; exact h.prt
  resume := ⟨h0.2.2.2.trans h.resume.1, hr⟩
  pid := by rw [hc.2.2.2]; exact h.pid
  other := by
    intro q hq0 hqc
    rw [hother q hq0 hqc]
    exact h.other q hq0 hqc

theorem Pair.giveup (h : Pair s c k .SRUN .READY (some init0) rr) :
    ∃ t, Step s (.call .giveupCpu) t ∧ Pair t c k .READY .READY none rr := by
  refine ⟨{ (s.set init0 fun q => { q with stat := .READY, resume := .user }).set init0
    (timeslice .RR) with cur := none }, ⟨[], ?_⟩, ?_⟩
  · simp [exec, h.cur, call, giveupCpu, enqueue, after, transform, Kernel.set, h.scheme, timeslice,
      bind, Except.bind, pure, Except.pure]
  · have hne := h.ne
    refine h.restate rfl h.rr rfl rfl rfl rfl (fun q h0 _ => ?_) ?_ ?_ ?_
    · simp [Kernel.set, h0]
    · simp [Kernel.set, timeslice, h.resume.1]
    · simp [Kernel.set, hne, h.stat.2]
    · intro _
      simp [Kernel.set, hne, h.resume.2]

theorem mem_drop_slots {j : Nat} : q ∈ slots.drop j ↔ j ≤ q.val := by
  rw [slots, List.mem_drop_iff_getElem]
  constructor
  · rintro ⟨i, hi, hq⟩
    rw [List.getElem_finRange] at hq
    rw [← hq]
    simp
  · intro hj
    refine ⟨q.val - j, by rw [List.length_finRange]; omega, ?_⟩
    rw [List.getElem_finRange]
    apply Fin.ext
    simp
    omega

/-- `sched_rr` finds the only ready process at or behind its pointer. -/
theorem schedRr_some (hp : (s.proc p).stat = .READY) (hrr : s.rr ≤ p.val)
    (hq : ∀ q, (s.proc q).stat = .READY → s.rr ≤ q.val → q = p) :
    schedRr s = ({ s with rr := p + 1 }, some p) := by
  have hfind : ((slots.drop s.rr).find? fun p => (s.proc p).stat = .READY) = some p := by
    cases hf : (slots.drop s.rr).find? fun p => (s.proc p).stat = .READY with
    | none =>
      have := List.find?_eq_none.mp hf p (mem_drop_slots.mpr hrr)
      simp [hp] at this
    | some q =>
      have h1 : (s.proc q).stat = .READY := by simpa using List.find?_some hf
      have h2 := mem_drop_slots.mp (List.mem_of_find?_eq_some hf)
      rw [hq q h1 h2]
  unfold schedRr
  rw [hfind]

theorem schedRr_none (hq : ∀ q, (s.proc q).stat = .READY → ¬ s.rr ≤ q.val) :
    schedRr s = ({ s with rr := 0 }, none) := by
  have hfind : ((slots.drop s.rr).find? fun p => (s.proc p).stat = .READY) = none := by
    rw [List.find?_eq_none]
    intro q hmem
    simpa using fun hr => hq q hr (mem_drop_slots.mp hmem)
  unfold schedRr
  rw [hfind]

theorem Pair.ready (h : Pair s c k st0 stc cur rr) (hq : (s.proc q).stat = .READY) :
    (q = init0 ∧ st0 = .READY) ∨ (q = c ∧ stc = .READY) := by
  by_cases h0 : q = init0
  · exact .inl ⟨h0, by rw [← h.stat.1, ← h0, hq]⟩
  · by_cases hc : q = c
    · exact .inr ⟨hc, by rw [← h.stat.2, ← hc, hq]⟩
    · rw [(h.other q h0 hc).1] at hq
      simp at hq

theorem Pair.pos (h : Pair s c k st0 stc cur rr) : 1 ≤ c.val := by
  by_contra hc
  exact h.ne (Fin.ext (by simp [init0]; omega))

/-- The scheduler dispatches the child. -/
theorem Pair.childRuns (h : Pair s c k .READY .READY none 1) :
    ∃ t, Step s .scheduler t ∧ Pair t c k .READY .SRUN (some c) (c + 1) := by
  have hs : schedRr s = ({ s with rr := c + 1 }, some c) := by
    refine schedRr_some h.stat.2 (by rw [h.rr]; exact h.pos) fun q hq hle => ?_
    rcases h.ready hq with ⟨rfl, -⟩ | ⟨hqc, -⟩
    · rw [h.rr] at hle
      simp [init0] at hle
    · exact hqc
  have hne := h.ne.symm
  refine ⟨onCpu { s with rr := c + 1 } c, ⟨[], ?_⟩, ?_⟩
  · simp [exec, h.cur, scheduler, sched, h.scheme, hs, switchTo, h.page.2, onCpu, Kernel.set,
      h.resume.2]
  · refine h.restate rfl rfl rfl rfl rfl rfl (fun q _ hc => ?_) ?_ ?_ ?_
    · simp [onCpu, Kernel.set, hc]
    · simp [onCpu, Kernel.set, hne, h.stat.1]
    · simp [onCpu, Kernel.set]
    · intro _
      simp [onCpu, Kernel.set, h.resume.2]

theorem wakeup_of_none {e : Option Chan} (h : ∀ q, (s.proc q).stat ≠ .SSLEEPING) :
    wakeup s e = s := by
  unfold wakeup
  apply List.foldl_fixed'
  intro q
  rw [if_neg fun hq => h q hq.1]

theorem reparent_of_none (h : ∀ q, (s.proc q).prt ≠ some p) : reparent s p = s := by
  unfold reparent
  apply List.foldl_fixed'
  intro q
  dsimp only
  rw [if_neg (h q)]

theorem Pair.childExits (h : Pair s c k .READY .SRUN (some c) rr) :
    ∃ t, Step s (.call .exit) t ∧ Pair t c k .READY .SZOMB none rr := by
  have hwake : ∀ e, wakeup s e = s := by
    intro e
    apply wakeup_of_none
    intro q
    by_cases h0 : q = init0
    · rw [h0, h.stat.1]
      simp
    · by_cases hc : q = c
      · rw [hc, h.stat.2]
        simp
      · rw [(h.other q h0 hc).1]
        simp
  have hrep : reparent s c = s := by
    apply reparent_of_none
    intro q
    by_cases h0 : q = init0
    · rw [h0, h.prt.1]
      simp
    · by_cases hc : q = c
      · rw [hc, h.prt.2]
        simpa using h.ne.symm
      · rw [(h.other q h0 hc).2]
        simp
  have hne := h.ne.symm
  refine ⟨{ s.set c (fun q => { q with stat := .SZOMB, resume := .dead }) with cur := none },
    ⟨[], ?_⟩, ?_⟩
  · simp only [exec, h.cur, call, exit, h.init, if_neg h.ne, hwake, hrep]
    simp [transform, Kernel.set, bind, Except.bind, pure, Except.pure]
  · refine h.restate rfl h.rr rfl rfl rfl rfl (fun q _ hc => ?_) ?_ ?_ (by simp)
    · simp [Kernel.set, hc]
    · simp [Kernel.set, hne, h.stat.1]
    · simp [Kernel.set]

theorem Pair.rewind (h : Pair s c k .READY .SZOMB none (c + 1)) :
    ∃ t, Step s .scheduler t ∧ Pair t c k .READY .SZOMB none 0 := by
  have hs : schedRr s = ({ s with rr := 0 }, none) := by
    apply schedRr_none
    intro q hq hle
    rcases h.ready hq with ⟨rfl, -⟩ | ⟨-, hz⟩
    · rw [h.rr] at hle
      simp [init0] at hle
    · simp at hz
  refine ⟨{ s with rr := 0 }, ⟨[], ?_⟩, ?_⟩
  · simp [exec, h.cur, scheduler, sched, h.scheme, hs]
  · exact h.restate h.cur rfl rfl rfl rfl rfl (fun _ _ _ => rfl) ⟨h.stat.1, rfl, rfl, rfl⟩
      ⟨h.stat.2, rfl, rfl, rfl⟩ (by simp)

theorem Pair.parentRuns (h : Pair s c k .READY .SZOMB none 0) :
    ∃ t, Step s .scheduler t ∧ Pair t c k .SRUN .SZOMB (some init0) 1 := by
  have hs : schedRr s = ({ s with rr := 1 }, some init0) := by
    refine schedRr_some h.stat.1 (by rw [h.rr]; exact Nat.zero_le _) fun q hq _ => ?_
    rcases h.ready hq with ⟨h0, -⟩ | ⟨-, hz⟩
    · exact h0
    · simp at hz
  have hne := h.ne
  refine ⟨onCpu { s with rr := 1 } init0, ⟨[], ?_⟩, ?_⟩
  · simp [exec, h.cur, scheduler, sched, h.scheme, hs, switchTo, h.page.1, onCpu, Kernel.set,
      h.resume.1]
  · refine h.restate rfl rfl rfl rfl rfl rfl (fun q h0 _ => ?_) ?_ ?_ (by simp)
    · simp [onCpu, Kernel.set, h0]
    · simp [onCpu, Kernel.set]
    · simp [onCpu, Kernel.set, hne, h.stat.2]

theorem Pair.reaps (h : Pair s c k .SRUN .SZOMB (some init0) 1) :
    ∃ t, Step s (.call .wait) t ∧ Single t k := by
  have hz : firstZombie s init0 = some c := by
    unfold firstZombie
    cases hf : slots.find? fun q => (s.proc q).prt = some init0 ∧ (s.proc q).stat = .SZOMB with
    | none =>
      have := List.find?_eq_none.mp hf c (List.mem_finRange c)
      simp [h.prt.2, h.stat.2] at this
    | some q =>
      have hq : (s.proc q).prt = some init0 ∧ (s.proc q).stat = .SZOMB := by
        simpa using List.find?_some hf
      congr 1
      by_contra hqc
      by_cases h0 : q = init0
      · rw [h0, h.prt.1] at hq
        simp at hq
      · rw [(h.other q h0 hqc).2] at hq
        simp at hq
  have hne := h.ne.symm
  refine ⟨reap (freeuvm s (s.proc c).page) c, ⟨[⟨s, (s.proc c).page, c⟩], ?_⟩, ?_⟩
  · simp only [exec, h.cur, call, waitLoop, hz]
  · refine ⟨h.cur, h.scheme, h.rr, h.init, h.next, ?_, ?_, ?_, ?_, ?_, ?_, fun q h0 => ?_⟩
    · simp [reap, freeuvm, Kernel.set, h.free, hne]
    · simp [reap, freeuvm, Kernel.set, hne, h.stat.1]
    · simp [reap, freeuvm, Kernel.set, hne, h.page.1]
    · simp [reap, freeuvm, Kernel.set, hne, h.prt.1]
    · simp [reap, freeuvm, Kernel.set, hne, h.resume.1]
    · simp [reap, freeuvm, Kernel.set, h.page.2]
    · by_cases hc : q = c
      · simp [reap, freeuvm, Kernel.set, hc]
      · simpa [reap, freeuvm, Kernel.set, hc] using h.other q h0 hc

/-- One round: `fork`, the parent gives up the CPU, the child exits, the parent waits. -/
def roundTrace : List Act :=
  [.call (.fork (.pages 7)), .call .giveupCpu, .scheduler, .call .exit, .scheduler, .scheduler,
    .call .wait]

theorem Single.round (h : Single s k) : ∃ t, Run Step s roundTrace t ∧ Single t (k + 1) := by
  obtain ⟨t1, c, h1, p1⟩ := h.fork
  obtain ⟨t2, h2, p2⟩ := p1.giveup
  obtain ⟨t3, h3, p3⟩ := p2.childRuns
  obtain ⟨t4, h4, p4⟩ := p3.childExits
  obtain ⟨t5, h5, p5⟩ := p4.rewind
  obtain ⟨t6, h6, p6⟩ := p5.parentRuns
  obtain ⟨t7, h7, p7⟩ := p6.reaps
  exact ⟨t7, .cons h1 (.cons h2 (.cons h3 (.cons h4 (.cons h5 (.cons h6 (.single h7)))))), p7⟩

theorem Single.rounds (h : Single s k) (m : Nat) :
    ∃ as t, Run Step s as t ∧ Single t (k + m) := by
  induction m with
  | zero => exact ⟨[], s, .nil, h⟩
  | succ m ih =>
    obtain ⟨as, t, hr, ht⟩ := ih
    obtain ⟨u, hu, hsu⟩ := ht.round
    exact ⟨as ++ roundTrace, u, hr.append hu, hsu⟩

/-- The state in which the first process runs. -/
def firstRuns : Kernel := onCpu { userinit start 1 with rr := 1 } init0

theorem firstRuns_step : Step (userinit start 1) .scheduler firstRuns := by
  have hs : schedRr (userinit start 1) = ({ userinit start 1 with rr := 1 }, some init0) := by
    have hready : ((userinit start 1).proc init0).stat = .READY := by decide
    have hone : ∀ q, ((userinit start 1).proc q).stat = .READY → q = init0 := by decide
    have hrr : (userinit start 1).rr = 0 := by decide
    exact schedRr_some hready (by rw [hrr]; exact Nat.zero_le _) fun q hq _ => hone q hq
  have hcur : (userinit start 1).cur = none := by decide
  have hscheme : (userinit start 1).scheme = .RR := by decide
  have hpage : ((userinit start 1).proc init0).page = 1 := by decide
  have hres : ((userinit start 1).proc init0).resume = .user := by decide
  refine ⟨[], ?_⟩
  simp [exec, hcur, scheduler, sched, hscheme, hs, switchTo, hpage, firstRuns, onCpu, Kernel.set,
    hres]

theorem firstRuns_single : Single firstRuns 2 := by
  constructor <;> decide

/-- Four thousand and ninety-four rounds, and one more `fork`. -/
theorem forks_exhaust_pids :
    ¬ ∀ as t, Run Step (userinit start 1) as t → ∀ p va, (t.proc p).stat ≠ .SUNUSED →
      PGSIZE ∣ va → va < KERNBASE →
      pteAddr (va ||| (t.proc p).pid) = va ∧
        Vm.pteFlags (va ||| (t.proc p).pid) = (t.proc p).pid := by
  intro hall
  obtain ⟨as, t, hr, ht⟩ := firstRuns_single.rounds 4094
  obtain ⟨u, c, hu, hpair⟩ := ht.fork
  have hrun : Run Step (userinit start 1) (.scheduler :: as ++ [.call (.fork (.pages 7))]) u :=
    (Run.cons firstRuns_step hr).append (.single hu)
  have hpid : (u.proc c).pid = 4096 := by
    have := hpair.pid
    omega
  have hlive : (u.proc c).stat ≠ .SUNUSED := by
    rw [hpair.stat.2]
    simp
  obtain ⟨-, hflags⟩ := hall _ u hrun c 0 hlive (dvd_zero _) (by decide)
  rw [hpid] at hflags
  exact absurd hflags (by decide)

/-- The first process forks once. -/
theorem page_ids_unambiguous_fork :
    ∃ t c, Run FewStep (userinit start 1) [.scheduler, .call (.fork (.pages 7))] t ∧
      (t.proc c).pid = 2 ∧
      (∀ p va, (t.proc p).stat ≠ .SUNUSED → PGSIZE ∣ va → va < KERNBASE →
        pteAddr (va ||| (t.proc p).pid) = va ∧
          Vm.pteFlags (va ||| (t.proc p).pid) = (t.proc p).pid) ∧
      ∀ p q va vb, (t.proc p).stat ≠ .SUNUSED → (t.proc q).stat ≠ .SUNUSED → PGSIZE ∣ va →
        PGSIZE ∣ vb → va < KERNBASE → vb < KERNBASE →
        va ||| (t.proc p).pid = vb ||| (t.proc q).pid → p = q ∧ va = vb := by
  obtain ⟨t, c, ht, hpair⟩ := firstRuns_single.fork
  have hrun : Run FewStep (userinit start 1) [.scheduler, .call (.fork (.pages 7))] t := by
    refine .cons ⟨by simp [Creates], firstRuns_step⟩ (.single ⟨fun _ _ => ?_, ht⟩)
    rw [firstRuns_single.next]
    decide
  have hpid := hpair.pid
  exact ⟨t, c, hrun, by omega, page_ids_unambiguous hrun⟩

end Yonix.Proc
