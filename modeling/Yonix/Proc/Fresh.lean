/-
  Yonix/Proc/Fresh.lean
  =====================
  **What a new process finds in its slot.**

  Slots are recycled without being cleared.  `Table` adds to the processes the fields
  that only `fork`, `lwp_create`, `exit` and the file calls touch: the open files, the
  current directory, `p_stack` and `p_creatime`.

  A free slot has no channel and no files, in every reachable state.  Nobody resets
  `p_killed` and `p_stack` for the process that comes next: `kill` also finds a slot that
  is not in use, by the number 0 or by that of a `fork` that failed, and only `lwp_create`
  sets `p_stack`.  So two children of the same parent are alike if and only if neither
  slot was marked and both have the same `p_stack` (`fork_child_alike_iff`).
-/
import Yonix.Proc.Pids

namespace Yonix.Proc

/-! ### The other fields -/

structure Rest where
  of : Fin NOFILE → Option Nat
  cdir : Option Nat
  stack : Nat
  creatime : Nat

structure Table where
  kernel : Kernel
  rest : Slot → Rest

def Table.set (s : Table) (p : Slot) (f : Rest → Rest) : Table :=
  { s with rest := Function.update s.rest p (f (s.rest p)) }

/-- What `procalloc` does to them. -/
def Table.procalloc (s : Table) : Table :=
  match s.kernel.esqueue with
  | [] => s
  | n :: _ => s.set n fun x => { x with creatime := s.kernel.ticks }

/-- The loop over `p_of`, and `p_cdir`; an open file is referred to by both. -/
def Rest.dup (parent child : Rest) : Rest :=
  { child with of := fun i => if (parent.of i).isSome then parent.of i else child.of i
               cdir := parent.cdir }

def Table.fork (s : Table) (p : Slot) (m : Mem) : Table :=
  match s.kernel.esqueue, m with
  | n :: _, .pages _ => s.procalloc.set n (s.rest p).dup
  | _, _ => s.procalloc

def Table.lwpCreate (s : Table) (p : Slot) (kstack : Bool) (stack : Nat) : Table :=
  match s.kernel.esqueue, kstack with
  | n :: _, true =>
    if (s.kernel.proc p).page = 0 then s.procalloc
    else s.procalloc.set n fun x => { (s.rest p).dup x with stack := stack }
  | _, _ => s.procalloc

def Table.exit (s : Table) (p : Slot) : Table :=
  s.set p fun x => { x with of := fun _ => none, cdir := none }

/-- A call by `p`; `stack` is the third argument of `lwp_create`. -/
def Table.call (s : Table) (p : Slot) (stack : Nat) : Call → Table
  | .fork m => s.fork p m
  | .lwpCreate kstack => s.lwpCreate p kstack stack
  | .exit => s.exit p
  | _ => s

inductive TableAct where
  | act (a : Act) (stack : Nat)
  /-- the process that runs opens or closes files or changes its directory -/
  | files (of : Fin NOFILE → Option Nat) (cdir : Option Nat)

def Table.exec (s : Table) : TableAct → Except Stop Table
  | .act a stack => do
    let (k, _) ← Proc.exec s.kernel a
    let s := match a, s.kernel.cur with
      | .call c, some p => s.call p stack c
      | _, _ => s
    return { s with kernel := k }
  | .files of cdir =>
    match s.kernel.cur with
    | some p => .ok (s.set p fun x => { x with of := of, cdir := cdir })
    | none => .error .notCalled

def Table.Step (s : Table) (a : TableAct) (t : Table) : Prop := s.exec a = .ok t

/-- After `userinit`: its process is in the first slot, in the root directory. -/
def boot (d root : Nat) : Table where
  kernel := userinit start d
  rest := fun p => ⟨fun _ => none, if p = init0 then some root else none, 0, 0⟩

/-! ### Channels and slots that are not in use -/

/-- Nothing of the slot is in use, or only what `wait` looks at. -/
def Idle (s : Kernel) (p : Slot) : Prop :=
  (s.proc p).stat = .SUNUSED ∨ (s.proc p).stat = .SEMBRYO ∨ (s.proc p).stat = .SZOMB

/-- Only a process inside `sleep` has a channel. -/
structure Chans (s : Kernel) : Prop where
  slept : ∀ p, (s.proc p).chan ≠ none → ∃ k l, (s.proc p).resume = .slept k l
  cur : ∀ p, s.cur = some p → (s.proc p).chan = none

/-- A channel is of before or belongs to a `sleep`; and slots stay in use, but for `x`. -/
structure Calm (x : Option Slot) (s t : Kernel) : Prop where
  chan : ∀ p, (t.proc p).chan ≠ none → (∃ k l, (t.proc p).resume = .slept k l) ∨
    ((s.proc p).chan ≠ none ∧ (t.proc p).resume = (s.proc p).resume)
  cur : ∀ p, t.cur = some p → (t.proc p).chan ≠ none → s.cur = some p ∧ (s.proc p).chan ≠ none
  idle : ∀ p, Idle t p → Idle s p ∨ x = some p

variable {s t u : Kernel} {p q n : Slot} {x : Option Slot}

namespace Calm

theorem refl (x : Option Slot) (s : Kernel) : Calm x s s :=
  ⟨fun _ h => .inr ⟨h, rfl⟩, fun _ hc h => ⟨hc, h⟩, fun _ h => .inl h⟩

theorem trans (h1 : Calm x s t) (h2 : Calm x t u) : Calm x s u := by
  refine ⟨fun p hp => ?_, fun p hc hp => ?_, fun p hp => ?_⟩
  · rcases h2.chan p hp with hslept | ⟨ht, hres⟩
    · exact .inl hslept
    · rw [hres]
      exact h1.chan p ht
  · obtain ⟨hct, ht⟩ := h2.cur p hc hp
    exact h1.cur p hct ht
  · rcases h2.idle p hp with ht | hx
    · exact h1.idle p ht
    · exact .inr hx

theorem chans (h : Calm x s t) (hs : Chans s) : Chans t := by
  refine ⟨fun p hp => ?_, fun p hc => ?_⟩
  · rcases h.chan p hp with hslept | ⟨ht, hres⟩
    · exact hslept
    · rw [hres]
      exact hs.slept p ht
  · by_contra hp
    obtain ⟨hct, ht⟩ := h.cur p hc hp
    exact ht (hs.cur p hct)

theorem mono (h : Calm none s t) (x : Option Slot) : Calm x s t := by
  refine ⟨h.chan, h.cur, fun p hp => ?_⟩
  rcases h.idle p hp with hs | hx
  · exact .inl hs
  · cases hx

theorem of_proc (hc : ∀ q, t.cur = some q → s.cur = some q) (hp : t.proc = s.proc) : Calm x s t := by
  refine ⟨fun p h => ?_, fun p hcp h => ?_, fun p h => ?_⟩
  · rw [hp] at h ⊢
    exact .inr ⟨h, rfl⟩
  · rw [hp] at h
    exact ⟨hc p hcp, h⟩
  · unfold Idle at *
    rw [hp] at h
    exact .inl h

/-- One slot changes. -/
theorem of_one (hc : ∀ q, t.cur = some q → s.cur = some q) (hother : ∀ q, q ≠ p → t.proc q = s.proc q)
    (hchan : (t.proc p).chan ≠ none → (t.cur ≠ some p ∧ ∃ k l, (t.proc p).resume = .slept k l) ∨
      ((s.proc p).chan ≠ none ∧ (t.proc p).resume = (s.proc p).resume))
    (hidle : Idle t p → Idle s p ∨ x = some p) : Calm x s t := by
  refine ⟨fun q h => ?_, fun q hcq h => ?_, fun q h => ?_⟩
  · by_cases hq : q = p
    · rw [hq] at h ⊢
      exact (hchan h).imp_left And.right
    · rw [hother q hq] at h ⊢
      exact .inr ⟨h, rfl⟩
  · by_cases hq : q = p
    · rw [hq] at h hcq ⊢
      rcases hchan h with ⟨hne, -⟩ | ⟨hs, -⟩
      · exact absurd hcq hne
      · exact ⟨hc p hcq, hs⟩
    · rw [hother q hq] at h
      exact ⟨hc q hcq, h⟩
  · by_cases hq : q = p
    · rw [hq] at h ⊢
      exact hidle h
    · unfold Idle at *
      rw [hother q hq] at h
      exact .inl h

/-- One slot changes, and neither its channel nor where it goes on. -/
theorem of_set {f : Pcb → Pcb} (hchan : (f (s.proc p)).chan = (s.proc p).chan)
    (hres : (f (s.proc p)).resume = (s.proc p).resume)
    (hidle : ∀ st, st = Stat.SUNUSED ∨ st = .SEMBRYO ∨ st = .SZOMB → (f (s.proc p)).stat = st →
      (s.proc p).stat = st) : Calm x s (s.set p f) := by
  refine of_one (p := p) (fun q hq => hq) (fun q hq => by simp [Kernel.set, hq]) ?_ ?_
  · intro h
    simp only [Kernel.set, Function.update_self] at h ⊢
    rw [hchan] at h
    exact .inr ⟨h, hres⟩
  · intro h
    unfold Idle at h ⊢
    simp only [Kernel.set, Function.update_self] at h
    rcases h with h | h | h
    · exact .inl (.inl (hidle _ (by simp) h))
    · exact .inl (.inr (.inl (hidle _ (by simp) h)))
    · exact .inl (.inr (.inr (hidle _ (by simp) h)))

end Calm

/-! ### The operations -/

theorem Calm.enqueue (h : Calm x s t) (p : Slot) : Calm x s (enqueue t p) := by
  refine h.trans (.of_proc ?_ (enqueue_proc t p))
  intro q hq
  rwa [enqueue_cur] at hq

theorem wakeup_calm (s : Kernel) (e : Option Chan) : Calm x s (wakeup s e) := by
  unfold wakeup
  refine List.foldlRecOn slots _ (Calm.refl x s) ?_
  intro t ht p _
  split
  · refine (ht.trans (.of_set rfl rfl ?_)).enqueue p
    rintro st (rfl | rfl | rfl) hst
    all_goals cases hst
  · exact ht

theorem reparent_calm (s : Kernel) (p : Slot) : Calm x s (reparent s p) := by
  unfold reparent
  refine List.foldlRecOn slots _ (Calm.refl x s) ?_
  intro t ht q _
  dsimp only
  split
  · have hset : Calm x s (t.set q fun y => { y with prt := some t.initproc }) :=
      ht.trans (.of_set rfl rfl fun _ _ h => h)
    split
    · exact hset.trans (wakeup_calm _ _)
    · exact hset
  · exact ht

theorem timeslice_chan (scheme : Scheme) (q : Pcb) : (timeslice scheme q).chan = q.chan := by
  unfold timeslice
  split <;> rfl

theorem recalcTimeslice_calm (s : Kernel) : Calm x s (recalcTimeslice s) := by
  unfold recalcTimeslice
  refine List.foldlRecOn slots _ (Calm.refl x s) ?_
  intro t ht q _
  split
  · refine ht.trans (.of_set (timeslice_chan _ _) (timeslice_resume _ _) ?_)
    intro st _ h
    rwa [timeslice_stat] at h
  · exact ht

theorem transform_calm (h : transform s p = .ok t) : Calm x s t := by
  rw [transform_eq_ok h]
  exact .of_proc (fun q hq => nomatch hq) rfl

theorem sleep_calm {e : Option Chan} {loop : Loop} (h : sleep s p e loop = .ok t) : Calm x s t := by
  rw [sleep_spec h]
  refine .of_one (p := p) (by intro q hq; cases hq) (fun q hq => by simp [Kernel.set, hq]) ?_ ?_
  · intro _
    refine .inl ⟨(by intro hc; cases hc), s.ticks, loop, ?_⟩
    simp [Kernel.set]
  · intro hi
    simp [Idle, Kernel.set] at hi

theorem exit_calm (hs : Chans s) (hcur : s.cur = some p) (h : exit s p = .ok t) :
    Calm (some p) s t := by
  unfold exit at h
  split at h
  · cases h
  · dsimp only at h
    have hu : Calm (some p) s (reparent (wakeup s ((s.proc p).prt.map .proc)) p) :=
      (wakeup_calm s _).trans (reparent_calm _ _)
    have hc : (reparent (wakeup s ((s.proc p).prt.map .proc)) p).cur = some p :=
      (reparent_moves _ p).2.trans ((wakeup_cur _ _).trans hcur)
    generalize reparent (wakeup s ((s.proc p).prt.map .proc)) p = u at h hu hc
    have hnone := (hu.chans hs).cur p hc
    refine (hu.trans ?_).trans (transform_calm h)
    refine .of_one (p := p) (fun q hq => hq) (fun q hq => by simp [Kernel.set, hq]) ?_ (fun _ => .inr rfl)
    intro hne
    simp only [Kernel.set, Function.update_self] at hne
    exact absurd hnone hne

theorem after_calm (h : after s p = .ok t) : Calm x s t := by
  have hset : ∀ scheme, Calm x s (s.set p (timeslice scheme)) := by
    intro scheme
    refine .of_set (timeslice_chan _ _) (timeslice_resume _ _) ?_
    intro st _ hst
    rwa [timeslice_stat] at hst
  unfold after at h
  split at h
  · cases h
    exact hset .FIFO
  · cases h
    exact hset .RR
  · dsimp only at h
    split at h
    · cases h
      refine .of_one (p := p) (fun q hq => hq) (fun q hq => by simp [insertDy, Kernel.set, hq]) ?_ ?_
      · intro hne
        simp only [insertDy, Kernel.set, Function.update_self, timeslice_chan, timeslice_resume] at hne ⊢
        exact .inr ⟨hne, trivial⟩
      · intro hi
        unfold Idle at *
        simp only [insertDy, Kernel.set, Function.update_self, timeslice_stat] at hi
        exact .inl hi
    · cases h

theorem giveupCpu_calm (hp : (s.proc p).chan = none) (h : giveupCpu s p = .ok t) : Calm x s t := by
  obtain ⟨u, hu, h⟩ := bind_eq_ok.mp h
  have hset : Calm x s (s.set p fun q => { q with stat := .READY, resume := .user }) := by
    refine .of_one (p := p) (fun q hq => hq) (fun q hq => by simp [Kernel.set, hq]) ?_ ?_
    · intro hne
      simp only [Kernel.set, Function.update_self] at hne
      exact absurd hp hne
    · intro hi
      simp [Idle, Kernel.set] at hi
  exact ((hset.enqueue p).trans (after_calm hu)).trans (transform_calm h)

theorem timesliceYield_calm (hp : (s.proc p).chan = none) (h : timesliceYield s p = .ok t) :
    Calm x s t := by
  unfold timesliceYield at h
  split at h
  · cases h
    exact .refl x s
  · dsimp only at h
    have hset : Calm x s (s.set p fun q => { q with
        timeSlice := q.timeSlice - TIMER_INTERVAL, avgslp := max (-50) (q.avgslp - 1) }) :=
      .of_set rfl rfl fun _ _ hst => hst
    split at h
    · refine hset.trans (giveupCpu_calm ?_ h)
      simpa [Kernel.set] using hp
    · cases h
      exact hset

theorem kill_calm (s : Kernel) (pid : Nat) : Calm x s (kill s pid) := by
  unfold kill
  split
  · refine .of_set rfl rfl ?_
    intro st hst
    dsimp only
    split
    · rintro rfl
      simp at hst
    · exact id
  · exact .refl x s

theorem selectScheme_calm {scheme : Scheme} {slabEmpty : Bool}
    (h : selectScheme s p scheme slabEmpty = .ok t) : Calm x s t := by
  rcases selectScheme_spec h with ⟨-, rfl⟩ | ⟨-, l, -, rfl⟩ | ⟨-, l, rfl⟩
  · exact .of_proc (fun _ hq => hq) rfl
  · exact .of_proc (fun _ hq => hq) rfl
  · exact .of_proc (fun _ hq => hq) rfl

theorem incnice_calm (s : Kernel) (p : Slot) (n : Int) : Calm x s (incnice s p n) := by
  unfold incnice
  dsimp only
  split
  · exact .of_set rfl rfl fun _ _ hst => hst
  · exact .refl x s

theorem execImage_calm (s : Kernel) (p : Slot) (e : ExecEnd) : Calm x s (execImage s p e).1 := by
  cases e with
  | early => exact .refl x s
  | bad d => exact .of_proc (fun _ hq => hq) rfl
  | commit d =>
    refine .trans (t := { s with live := Function.update s.live d true }) (.of_proc (fun _ hq => hq) rfl) ?_
    refine .trans (.of_set (p := p) (f := fun q => { q with page := d }) rfl rfl fun _ _ hst => hst) ?_
    exact .of_proc (fun _ hq => hq) rfl

/-- A zombie has nothing to continue with (a part of `Wf`). -/
def Dead (s : Kernel) : Prop := ∀ p, (s.proc p).stat = .SZOMB → (s.proc p).resume = .dead

theorem reap_calm (hdead : Dead s) (hs : Chans s) (hp : (s.proc p).stat = .SZOMB) :
    Calm x s (reap s p) := by
  refine .of_one (p := p) (fun q hq => hq) (fun q hq => by simp [reap, Kernel.set, hq]) ?_ ?_
  · intro hne
    simp only [reap, Kernel.set, Function.update_self] at hne
    obtain ⟨k, l, hslept⟩ := hs.slept p hne
    rw [hdead p hp] at hslept
    cases hslept
  · exact fun _ => .inl (.inr (.inr hp))

theorem waitLoop_calm {l : List Freed} (hdead : Dead s) (hs : Chans s) (h : waitLoop s p = .ok (t, l)) :
    Calm x s t := by
  unfold waitLoop at h
  split at h
  · rename_i q hq
    cases h
    have hz : (s.proc q).stat = .SZOMB := by
      have := List.find?_some hq
      simp only [decide_eq_true_eq] at this
      exact this.2
    have hfree : Calm x s (freeuvm s (s.proc q).page) := .of_proc (fun _ hc => hc) rfl
    exact hfree.trans (reap_calm hdead (hfree.chans hs) hz)
  · split at h
    · cases h
      exact .refl x s
    · obtain ⟨u, hu, h⟩ := bind_eq_ok.mp h
      cases h
      exact sleep_calm hu

theorem joinLoop_calm {l : List Freed} (hdead : Dead s) (hs : Chans s) (h : joinLoop s p = .ok (t, l)) :
    Calm x s t := by
  unfold joinLoop at h
  split at h
  · rename_i q hq
    cases h
    have hz : (s.proc q).stat = .SZOMB := by
      have := List.find?_some hq
      simp only [decide_eq_true_eq] at this
      exact this.2.2
    exact reap_calm hdead hs hz
  · split at h
    · cases h
      exact .refl x s
    · obtain ⟨u, hu, h⟩ := bind_eq_ok.mp h
      cases h
      exact sleep_calm hu

theorem awake_other (k : Nat) (hq : q ≠ p) : (awake (onCpu s p) p k).proc q = s.proc q := by
  simp [awake, onCpu, Kernel.set, hq]

theorem awake_calm (k : Nat) : Calm x s (awake (onCpu s p) p k) := by
  have hchan : ((awake (onCpu s p) p k).proc p).chan = none := by simp [awake, Kernel.set]
  have hcur : (awake (onCpu s p) p k).cur = some p := rfl
  refine ⟨fun q hne => ?_, fun q hc hne => ?_, fun q hi => ?_⟩
  · by_cases hq : q = p
    · rw [hq, hchan] at hne
      exact absurd rfl hne
    · rw [awake_other k hq] at hne ⊢
      exact .inr ⟨hne, rfl⟩
  · obtain rfl : p = q := Option.some.inj (hcur.symm.trans hc)
    exact absurd hchan hne
  · by_cases hq : q = p
    · subst hq
      unfold Idle at hi
      simp [awake_run] at hi
    · unfold Idle at hi ⊢
      rw [awake_other k hq] at hi
      exact .inl hi

theorem switchTo_calm {l : List Freed} (hdead : Dead s) (hs : Chans s) (h : switchTo s p = .ok (t, l)) :
    Calm x s t := by
  have hawake : ∀ k, Dead (awake (onCpu s p) p k) := by
    intro k q hz
    by_cases hq : q = p
    · subst hq
      rw [awake_run] at hz
      cases hz
    · rw [awake_other k hq] at hz ⊢
      exact hdead q hz
  obtain ⟨-, -, ⟨huser, rfl⟩ | ⟨k, rfl | hw | hj⟩⟩ := switchTo_cases h
  · -- a process that goes on in its own code has no channel
    have hchan : (s.proc p).chan = none := by
      by_contra hne
      obtain ⟨k, l, hslept⟩ := hs.slept p hne
      rw [huser] at hslept
      cases hslept
    have hother : ∀ q, q ≠ p → (onCpu s p).proc q = s.proc q :=
      fun q hq => by simp [onCpu, Kernel.set, hq]
    have hp : ((onCpu s p).proc p).chan = none ∧ ((onCpu s p).proc p).stat = .SRUN := by
      simp [onCpu, Kernel.set, hchan]
    refine ⟨fun q hne => ?_, fun q hc hne => ?_, fun q hi => ?_⟩
    · by_cases hq : q = p
      · rw [hq, hp.1] at hne
        exact absurd rfl hne
      · rw [hother q hq] at hne ⊢
        exact .inr ⟨hne, rfl⟩
    · obtain rfl : p = q := Option.some.inj hc
      exact absurd hp.1 hne
    · by_cases hq : q = p
      · subst hq
        unfold Idle at hi
        simp [hp.2] at hi
      · unfold Idle at hi ⊢
        rw [hother q hq] at hi
        exact .inl hi
  · exact awake_calm k
  · have hcalm : Calm x s (awake (onCpu s p) p k) := awake_calm k
    exact hcalm.trans (waitLoop_calm (hawake k) (hcalm.chans hs) hw)
  · have hcalm : Calm x s (awake (onCpu s p) p k) := awake_calm k
    exact hcalm.trans (joinLoop_calm (hawake k) (hcalm.chans hs) hj)

theorem scheduler_calm {l : List Freed} (hdead : Dead s) (hs : Chans s) (h : scheduler s = .ok (t, l)) :
    Calm x s t := by
  have hsched : ∀ {u : Kernel} {o : Option Slot}, sched s = (u, o) → Calm x s u := by
    intro u o hu
    obtain ⟨hproc, -, -, hcur⟩ := sched_proc hu
    exact .of_proc (fun q hq => by rwa [hcur] at hq) hproc
  unfold scheduler at h
  split at h
  · rename_i u hu
    cases h
    exact hsched hu
  · rename_i u q hu
    have hcalm := hsched hu
    refine hcalm.trans (switchTo_calm ?_ (hcalm.chans hs) h)
    unfold Dead
    rw [(sched_proc hu).1]
    exact hdead

/-! ### New processes -/

theorem procalloc_chan (s : Kernel) (stack : Bool) (q : Slot) :
    ((procalloc s stack).1.proc q).chan = (s.proc q).chan := by
  unfold procalloc
  split
  · rfl
  · rename_i n l hl
    by_cases hq : q = n
    · subst hq
      split <;> simp [Kernel.set, timeslice_chan]
    · split <;> simp [Kernel.set, hq]

theorem fork_chan (s : Kernel) (p : Slot) (m : Mem) (q : Slot) :
    ((fork s p m).proc q).chan = (s.proc q).chan := by
  rw [← procalloc_chan s (m ≠ .noStack) q]
  unfold fork
  split
  · rename_i t ht
    rw [ht]
  · rename_i t n ht
    rw [ht]
    by_cases hq : q = n
    · subst hq
      split <;> simp [enqueue_proc, Kernel.set]
    · split <;> simp [enqueue_proc, Kernel.set, hq]

theorem lwpCreate_chan (s : Kernel) (p : Slot) (stack : Bool) (q : Slot) :
    ((lwpCreate s p stack).proc q).chan = (s.proc q).chan := by
  rw [← procalloc_chan s stack q]
  unfold lwpCreate
  split
  · rename_i t ht
    rw [ht]
  · rename_i t n ht
    rw [ht]
    dsimp only
    by_cases hq : q = n
    · subst hq
      split <;> simp [enqueue_proc, Kernel.set]
    · split <;> simp [enqueue_proc, Kernel.set, hq]

/-- Only free slots change, and their channel does not. -/
theorem Apart.calm (h : Apart s t) (hwf : Wf s) (hs : Chans s)
    (hchan : ∀ q, (t.proc q).chan = (s.proc q).chan) : Calm x s t := by
  have hfree : ∀ q ∈ s.esqueue, (s.proc q).chan = none := by
    intro q hq
    by_contra hne
    obtain ⟨k, l, hslept⟩ := hs.slept q hne
    rw [hwf.gone q (.inl (hwf.free q hq))] at hslept
    cases hslept
  refine ⟨fun q hne => ?_, fun q hc hne => ?_, fun q hi => ?_⟩
  · rw [hchan q] at hne
    by_cases hq : q ∈ s.esqueue
    · exact absurd (hfree q hq) hne
    · rw [h.2 q hq]
      exact .inr ⟨hne, rfl⟩
  · rw [hchan q] at hne
    rw [h.1] at hc
    exact ⟨hc, hne⟩
  · by_cases hq : q ∈ s.esqueue
    · exact .inl (.inl (hwf.free q hq))
    · unfold Idle at hi ⊢
      rw [h.2 q hq] at hi
      exact .inl hi

/-! ### Every step -/

/-- The process that a step lets exit. -/
def exits (s : Kernel) : Act → Option Slot
  | .call .exit => s.cur
  | _ => none

theorem exec_calm {a : Act} {l : List Freed} (hwf : Wf s) (hs : Chans s) (h : exec s a = .ok (t, l)) :
    Calm (exits s a) s t := by
  cases a with
  | wakeup e =>
    simp only [exec, Except.ok.injEq, Prod.mk.injEq] at h
    rw [← h.1]
    exact wakeup_calm s e
  | tick =>
    cases h
    exact .of_proc (fun _ hq => hq) rfl
  | scheduler =>
    simp only [exec] at h
    split at h
    · cases h
    · exact scheduler_calm hwf.dead hs h
  | call c =>
    simp only [exec] at h
    split at h
    · rename_i p hc
      have hp := hs.cur p hc
      cases c with
      | fork m =>
        simp only [call] at h
        split at h
        · cases h
          exact (fork_apart s p m).calm hwf hs (fork_chan s p m)
        · cases h
      | lwpCreate stack =>
        simp only [call] at h
        cases h
        exact (lwpCreate_apart s p stack).calm hwf hs (lwpCreate_chan s p stack)
      | exec e =>
        simp only [call] at h
        split at h
        · have ht : (execImage s p e).1 = t := congrArg Prod.fst (Except.ok.inj h)
          rw [← ht]
          exact execImage_calm s p e
        · cases h
      | exit =>
        obtain ⟨u, hu, h⟩ := bind_eq_ok.mp h
        cases h
        rw [exits, hc]
        exact exit_calm hs hc hu
      | wait => exact waitLoop_calm hwf.dead hs h
      | lwpJoin => exact joinLoop_calm hwf.dead hs h
      | sleep e =>
        obtain ⟨u, hu, h⟩ := bind_eq_ok.mp h
        cases h
        exact sleep_calm hu
      | kill pid =>
        cases h
        exact kill_calm s pid
      | giveupCpu =>
        obtain ⟨u, hu, h⟩ := bind_eq_ok.mp h
        cases h
        exact giveupCpu_calm hp hu
      | timesliceYield =>
        obtain ⟨u, hu, h⟩ := bind_eq_ok.mp h
        cases h
        exact timesliceYield_calm hp hu
      | selectScheme scheme slabEmpty =>
        obtain ⟨u, hu, h⟩ := bind_eq_ok.mp h
        cases h
        exact selectScheme_calm hu
      | recalcTimeslice =>
        simp only [call, Except.ok.injEq, Prod.mk.injEq] at h
        rw [← h.1]
        exact recalcTimeslice_calm s
      | incnice n =>
        cases h
        exact incnice_calm s p n
    · cases h

/-! ### The child -/

/-- What `procalloc` makes of the slot. -/
def embryo (s : Kernel) (q : Pcb) : Pcb :=
  let q := timeslice s.scheme
    { q with stat := .SEMBRYO, pid := s.nextpid, nice := 0, spri := staticPri 0, avgslp := 0 }
  { q with dpri := dynamicPri q.spri (bonus q.avgslp) }

theorem procalloc_eq {l : List Slot} (hn : s.esqueue = n :: l) :
    procalloc s true =
      ({ s with esqueue := l, nextpid := s.nextpid + 1 }.set n (embryo s), some n) := by
  unfold procalloc
  rw [hn]
  rfl

theorem fork_child {l : List Slot} {d : Nat} (hn : s.esqueue = n :: l) (p : Slot) :
    (fork s p (.pages d)).proc n =
      { embryo s (s.proc n) with
        page := d, prt := some p, procp := true, stat := .READY, resume := .user } := by
  unfold fork
  rw [show (decide (Mem.pages d ≠ .noStack)) = true from rfl, procalloc_eq hn]
  dsimp only
  rw [enqueue_proc]
  simp [Kernel.set]

theorem lwpCreate_ready {l : List Slot} (hn : s.esqueue = n :: l) (hpn : p ≠ n)
    (hpage : (s.proc p).page ≠ 0) : ((lwpCreate s p true).proc n).stat = .READY := by
  unfold lwpCreate
  rw [procalloc_eq hn]
  dsimp only
  have hpage' : (({ s with esqueue := l, nextpid := s.nextpid + 1 }.set n (embryo s)).proc p).page ≠ 0 := by
    simpa [Kernel.set, hpn] using hpage
  rw [if_neg (by simpa [Kernel.set] using hpage'), enqueue_proc]
  simp [Kernel.set]

/-! ### Files -/

/-- A process that is not in use has no files. -/
structure Clean (s : Table) : Prop where
  wf : Wf s.kernel
  chans : Chans s.kernel
  files : ∀ p, Idle s.kernel p → (∀ i, (s.rest p).of i = none) ∧ (s.rest p).cdir = none

def SameFiles (a b : Rest) : Prop := a.of = b.of ∧ a.cdir = b.cdir

@[simp] theorem Table.set_kernel (s : Table) (p : Slot) (f : Rest → Rest) : (s.set p f).kernel = s.kernel :=
  rfl

theorem Table.set_rest (s : Table) (p : Slot) (f : Rest → Rest) (q : Slot) :
    (s.set p f).rest q = if q = p then f (s.rest p) else s.rest q := by
  unfold Table.set
  dsimp only
  rw [Function.update_apply]

theorem Table.procalloc_files (s : Table) (q : Slot) : SameFiles (s.procalloc.rest q) (s.rest q) := by
  unfold Table.procalloc
  split
  · exact ⟨rfl, rfl⟩
  · rw [Table.set_rest]
    split
    · rename_i hq
      rw [hq]
      exact ⟨rfl, rfl⟩
    · exact ⟨rfl, rfl⟩

/-- Only the slot of the new process gets files, and it is in use then. -/
theorem Table.fork_files (s : Table) (p : Slot) (m : Mem) (hq : Idle (Proc.fork s.kernel p m) q) :
    SameFiles ((s.fork p m).rest q) (s.rest q) := by
  unfold Table.fork
  split
  · rename_i n l d hn
    have hqn : q ≠ n := by
      rintro rfl
      unfold Idle at hq
      rw [fork_child hn p] at hq
      simp at hq
    rw [Table.set_rest, if_neg hqn]
    exact s.procalloc_files q
  · exact s.procalloc_files q

theorem Table.lwpCreate_files (s : Table) (p : Slot) (kstack : Bool) (stack : Nat)
    (hp : ¬ Idle s.kernel p) (hwf : Wf s.kernel) (hq : Idle (Proc.lwpCreate s.kernel p kstack) q) :
    SameFiles ((s.lwpCreate p kstack stack).rest q) (s.rest q) := by
  unfold Table.lwpCreate
  split
  · rename_i n l hn
    split
    · exact s.procalloc_files q
    · rename_i hpage
      have hpn : p ≠ n := by
        rintro rfl
        exact hp (.inl (hwf.free p (by simp [hn])))
      have hqn : q ≠ n := by
        rintro rfl
        unfold Idle at hq
        rw [lwpCreate_ready hn hpn hpage] at hq
        simp at hq
      rw [Table.set_rest, if_neg hqn]
      exact s.procalloc_files q
  · exact s.procalloc_files q

/-- A slot that is not in use after a call has the files that it had, or none. -/
theorem Table.call_files (s : Table) {c : Call} {k : Kernel} {l : List Freed} (stack : Nat)
    (hwf : Wf s.kernel) (hc : s.kernel.cur = some p) (hk : Proc.call s.kernel p c = .ok (k, l))
    (hq : Idle k q) : SameFiles ((s.call p stack c).rest q) (s.rest q) ∨
      (((s.call p stack c).rest q).of = fun _ => none) ∧ ((s.call p stack c).rest q).cdir = none := by
  have hp : ¬ Idle s.kernel p := by
    unfold Idle
    simp [hwf.cur p hc]
  cases c with
  | fork m =>
    simp only [Proc.call] at hk
    split at hk
    · cases hk
      exact .inl (s.fork_files p m hq)
    · cases hk
  | lwpCreate kstack =>
    simp only [Proc.call] at hk
    cases hk
    exact .inl (s.lwpCreate_files p kstack stack hp hwf hq)
  | exit =>
    unfold Table.call Table.exit
    dsimp only
    rw [Table.set_rest]
    split
    · exact .inr ⟨rfl, rfl⟩
    · exact .inl ⟨rfl, rfl⟩
  | _ => exact .inl ⟨rfl, rfl⟩

/-- What a step of the kernel is for the table. -/
theorem Table.step_act {s t : Table} {a : Act} {stack : Nat} (h : s.Step (.act a stack) t) :
    ∃ l, Proc.exec s.kernel a = .ok (t.kernel, l) ∧
      ((∃ c p, a = .call c ∧ s.kernel.cur = some p ∧ t.rest = (s.call p stack c).rest) ∨
        (∀ c, a ≠ .call c) ∧ t.rest = s.rest) := by
  obtain ⟨⟨k, l⟩, hk, ht⟩ := bind_eq_ok.mp h
  refine ⟨l, ?_⟩
  cases a with
  | call c =>
    cases hc : s.kernel.cur with
    | none =>
      simp only [Proc.exec, hc] at hk
      cases hk
    | some p =>
      rw [hc] at ht
      cases ht
      exact ⟨hk, .inl ⟨c, p, rfl, rfl, rfl⟩⟩
  | wakeup e =>
    cases ht
    exact ⟨hk, .inr ⟨fun _ => Act.noConfusion, rfl⟩⟩
  | tick =>
    cases ht
    exact ⟨hk, .inr ⟨fun _ => Act.noConfusion, rfl⟩⟩
  | scheduler =>
    cases ht
    exact ⟨hk, .inr ⟨fun _ => Act.noConfusion, rfl⟩⟩

theorem Clean.step {s t : Table} {a : TableAct} (h : Clean s) (ha : s.Step a t) : Clean t := by
  cases a with
  | act a stack =>
    obtain ⟨l, hk, hrest⟩ := Table.step_act ha
    have hcalm := exec_calm h.wf h.chans hk
    refine ⟨h.wf.exec hk, hcalm.chans h.chans, ?_⟩
    intro q hq
    have hbefore : Idle s.kernel q ∨ exits s.kernel a = some q := hcalm.idle q hq
    rcases hrest with ⟨c, p, rfl, hc, hrest⟩ | ⟨hno, hrest⟩
    · rw [hrest]
      have hk' : Proc.call s.kernel p c = .ok (t.kernel, l) := by simpa only [exec, hc] using hk
      rcases s.call_files stack h.wf hc hk' hq with ⟨hof, hcdir⟩ | ⟨hof, hcdir⟩
      · rcases hbefore with hidle | hexit
        · rw [hof, hcdir]
          exact h.files q hidle
        · -- the process that exits has closed its files
          cases c with
          | exit =>
            rw [exits, hc] at hexit
            obtain rfl := Option.some.inj hexit
            unfold Table.call Table.exit
            dsimp only
            rw [Table.set_rest, if_pos rfl]
            exact ⟨fun _ => rfl, rfl⟩
          | _ => cases hexit
      · exact ⟨fun i => congrFun hof i, hcdir⟩
    · rw [hrest]
      rcases hbefore with hidle | hexit
      · exact h.files q hidle
      · cases a with
        | call c => exact absurd rfl (hno c)
        | _ => cases hexit
  | files of cdir =>
    unfold Table.Step Table.exec at ha
    dsimp only at ha
    split at ha
    · rename_i p hc
      cases ha
      refine ⟨h.wf, h.chans, ?_⟩
      intro q hq
      have hqp : q ≠ p := by
        rintro rfl
        unfold Idle at hq
        simp [h.wf.cur q hc] at hq
      rw [Table.set_rest, if_neg hqp]
      exact h.files q hq
    · cases ha

theorem userinit_proc (d : Nat) (q : Slot) :
    ((userinit start d).proc q).chan = none ∧
      ((userinit start d).proc q).stat = if q = init0 then .READY else .SUNUSED := by
  obtain ⟨l, hl⟩ : ∃ l, start.esqueue = init0 :: l := ⟨slots.tail, rfl⟩
  unfold userinit
  rw [procalloc_eq hl]
  dsimp only
  rw [enqueue_proc]
  by_cases hq : q = init0
  · simp [Kernel.set, hq, embryo, timeslice_chan, start, unused]
  · simp [Kernel.set, hq, start, unused]

theorem Clean.boot (d root : Nat) : Clean (boot d root) := by
  have hcur : (userinit start d).cur = none := (userinit_apart start d).1
  refine ⟨Wf.start.moves (userinit_moves _ d), ⟨fun q hne => ?_, fun q hq => ?_⟩, fun q hi => ?_⟩
  · exact absurd (userinit_proc d q).1 hne
  · exact (userinit_proc d q).1
  · have hq : q ≠ init0 := by
      rintro rfl
      have hstat : ((userinit start d).proc init0).stat = .READY := (userinit_proc d init0).2
      unfold Idle Proc.boot at hi
      simp [hstat] at hi
    exact ⟨fun _ => rfl, if_neg hq⟩

/-! ### Two children -/

/-- The same parent is about to fork, at the same time, under the same scheme. -/
structure Alike (s1 s2 : Table) (p : Slot) : Prop where
  cur : s1.kernel.cur = some p ∧ s2.kernel.cur = some p
  proc : s1.kernel.proc p = s2.kernel.proc p
  rest : s1.rest p = s2.rest p
  nextpid : s1.kernel.nextpid = s2.kernel.nextpid
  ticks : s1.kernel.ticks = s2.kernel.ticks
  scheme : s1.kernel.scheme = s2.kernel.scheme

/-- The fields of the child that do not depend on where its memory is. -/
structure Child where
  pid : Nat
  killed : Bool
  chan : Option Chan
  procp : Bool
  prt : Option Slot
  of : Fin NOFILE → Option Nat
  cdir : Option Nat
  stack : Nat
  nice : Int
  timeSlice : Int
  spri : Int
  dpri : Int
  avgslp : Int
  creatime : Nat

def Table.child (s : Table) (n : Slot) : Child :=
  let q := s.kernel.proc n
  let x := s.rest n
  ⟨q.pid, q.killed, q.chan, q.procp, q.prt, x.of, x.cdir, x.stack, q.nice, q.timeSlice, q.spri, q.dpri,
    q.avgslp, x.creatime⟩

/-- The child, from its parent and from what is left in its slot. -/
def Table.born (s : Table) (p n : Slot) : Child where
  pid := s.kernel.nextpid
  killed := (s.kernel.proc n).killed
  chan := none
  procp := true
  prt := some p
  of := (s.rest p).of
  cdir := (s.rest p).cdir
  stack := (s.rest n).stack
  nice := 0
  timeSlice := (timeslice s.kernel.scheme unused).timeSlice
  spri := staticPri 0
  dpri := dynamicPri (staticPri 0) (bonus 0)
  avgslp := 0
  creatime := s.kernel.ticks

theorem Clean.child {s t : Table} {d stack : Nat} {l : List Slot} (h : Clean s)
    (hc : s.kernel.cur = some p) (hn : s.kernel.esqueue = n :: l)
    (ht : s.Step (.act (.call (.fork (.pages d))) stack) t) : t.child n = s.born p n := by
  obtain ⟨l, hk, ⟨c, p', hcall, hc', hrest⟩ | ⟨hno, -⟩⟩ := Table.step_act ht
  · cases hcall
    obtain rfl : p = p' := Option.some.inj (hc.symm.trans hc')
    have hunused := h.wf.free n (by simp [hn])
    have hchan : (s.kernel.proc n).chan = none := by
      by_contra hne
      obtain ⟨k, l, hslept⟩ := h.chans.slept n hne
      rw [h.wf.gone n (.inl hunused)] at hslept
      cases hslept
    have hkernel : t.kernel = fork s.kernel p (.pages d) := by
      simp only [exec, hc, call] at hk
      split at hk
      · exact (Prod.mk.inj (Except.ok.inj hk)).1.symm
      · cases hk
    have hpn : p ≠ n := by
      rintro rfl
      rw [h.wf.cur p hc] at hunused
      cases hunused
    obtain ⟨hof, -⟩ := h.files n (.inl hunused)
    have hrestn : t.rest n = (s.rest p).dup { s.rest n with creatime := s.kernel.ticks } := by
      rw [hrest]
      unfold Table.call Table.fork
      dsimp only
      rw [hn]
      dsimp only
      rw [Table.set_rest, if_pos rfl]
      unfold Table.procalloc
      rw [hn]
      dsimp only
      rw [Table.set_rest, if_pos rfl]
    have hofp : (t.rest n).of = (s.rest p).of := by
      rw [hrestn]
      funext i
      unfold Rest.dup
      dsimp only
      rw [hof i]
      cases (s.rest p).of i <;> rfl
    unfold Table.child Table.born
    dsimp only
    rw [hofp, hrestn, hkernel, fork_child hn p]
    unfold Rest.dup embryo
    dsimp only
    rw [← hchan]
    cases s.kernel.scheme <;> rfl
  · exact absurd rfl (hno _)

/-- The first process runs, and the table around it. -/
def firstTable : Table := { boot 1 0 with kernel := firstRuns }

theorem firstTable_run : Run Table.Step (boot 1 0) [.act .scheduler 0] firstTable := by
  obtain ⟨l, hl⟩ := firstRuns_step
  suffices h : (boot 1 0).Step (.act .scheduler 0) firstTable from Run.single h
  unfold Table.Step Table.exec
  dsimp only
  rw [show (boot 1 0).kernel = userinit start 1 from rfl, hl]
  rfl

theorem fork_possible {s : Table} {m : Mem} (hc : s.kernel.cur = some p) (hm : memOk s.kernel m = true) :
    ∃ t, s.Step (.act (.call (.fork m)) 0) t := by
  refine ⟨{ s.fork p m with kernel := Proc.fork s.kernel p m }, ?_⟩
  unfold Table.Step Table.exec
  simp only [exec, hc, call, hm]
  rfl

/-- **Two children of the same parent are alike, and not killed**, if and only if nobody
    marked the slot of either and the slots have the same `p_stack`. -/
theorem fork_child_alike_iff {d1 d2 root1 root2 d e stack1 stack2 : Nat} {as bs : List TableAct}
    {s1 s2 t1 t2 : Table} {n1 n2 : Slot} {l1 l2 : List Slot}
    (h1 : Run Table.Step (boot d1 root1) as s1) (h2 : Run Table.Step (boot d2 root2) bs s2)
    (hlike : Alike s1 s2 p) (hn1 : s1.kernel.esqueue = n1 :: l1) (hn2 : s2.kernel.esqueue = n2 :: l2)
    (ht1 : s1.Step (.act (.call (.fork (.pages d))) stack1) t1)
    (ht2 : s2.Step (.act (.call (.fork (.pages e))) stack2) t2) :
    (t1.child n1 = t2.child n2 ∧ (t1.child n1).killed = false) ↔
      (s1.kernel.proc n1).killed = false ∧ (s2.kernel.proc n2).killed = false ∧
        (s1.rest n1).stack = (s2.rest n2).stack := by
  have hs1 : Clean s1 := h1.invariant Clean (Clean.boot d1 root1) fun _ _ _ hs hst => hs.step hst
  have hs2 : Clean s2 := h2.invariant Clean (Clean.boot d2 root2) fun _ _ _ hs hst => hs.step hst
  rw [hs1.child hlike.cur.1 hn1 ht1, hs2.child hlike.cur.2 hn2 ht2]
  constructor
  · rintro ⟨heq, hkilled⟩
    have hkilled2 : (s1.kernel.proc n1).killed = (s2.kernel.proc n2).killed := congrArg Child.killed heq
    have hstack : (s1.rest n1).stack = (s2.rest n2).stack := congrArg Child.stack heq
    exact ⟨hkilled, hkilled2.symm.trans hkilled, hstack⟩
  · rintro ⟨hk1, hk2, hstack⟩
    refine ⟨?_, hk1⟩
    unfold Table.born
    rw [hk1, hk2, hstack, hlike.rest, hlike.nextpid, hlike.scheme, hlike.ticks]

/-- Twice the first child of the first process. -/
theorem fork_child_alike_first : ∃ t1 t2 n,
    firstTable.Step (.act (.call (.fork (.pages 7))) 0) t1 ∧
      firstTable.Step (.act (.call (.fork (.pages 8))) 0) t2 ∧
      t1.child n = t2.child n ∧ (t1.child n).killed = false := by
  obtain ⟨l, hl⟩ : ∃ l, firstTable.kernel.esqueue = ⟨1, by decide⟩ :: l := ⟨_, rfl⟩
  have hc : firstTable.kernel.cur = some init0 := rfl
  obtain ⟨t1, ht1⟩ := fork_possible (m := .pages 7) hc (by decide)
  obtain ⟨t2, ht2⟩ := fork_possible (m := .pages 8) hc (by decide)
  have hlike : Alike firstTable firstTable init0 := ⟨⟨hc, hc⟩, rfl, rfl, rfl, rfl, rfl⟩
  have hiff := fork_child_alike_iff firstTable_run firstTable_run hlike hl hl ht1 ht2
  obtain ⟨heq, hkilled⟩ := hiff.mpr ⟨by decide, by decide, rfl⟩
  exact ⟨t1, t2, _, ht1, ht2, heq, hkilled⟩

/-- `kill(0)` marks a slot that nobody has used, and the next child dies of it. -/
theorem fork_child_marked : ∃ as bs s1 s2 t1 t2 n l1 l2,
    Run Table.Step (boot 1 0) as s1 ∧ Run Table.Step (boot 1 0) bs s2 ∧ Alike s1 s2 init0 ∧
      s1.kernel.esqueue = n :: l1 ∧ s2.kernel.esqueue = n :: l2 ∧
      s1.Step (.act (.call (.fork (.pages 7))) 0) t1 ∧ s2.Step (.act (.call (.fork (.pages 7))) 0) t2 ∧
      (t1.child n).killed = false ∧ (t2.child n).killed = true ∧ t1.child n ≠ t2.child n := by
  obtain ⟨n, hn⟩ : ∃ n : Slot, n = ⟨1, by decide⟩ := ⟨_, rfl⟩
  obtain ⟨l, hl⟩ : ∃ l, firstTable.kernel.esqueue = n :: l := ⟨slots.tail.tail, by rw [hn]; rfl⟩
  have hc : firstTable.kernel.cur = some init0 := rfl
  obtain ⟨s2, hs2⟩ : ∃ s2 : Table, s2 = { firstTable with kernel := kill firstTable.kernel 0 } := ⟨_, rfl⟩
  have hkill : kill firstTable.kernel 0 = firstTable.kernel.set n fun q =>
      { q with killed := true, stat := if q.stat = .SSLEEPING then .READY else q.stat } := by
    have hfind : (slots.find? fun p => (firstTable.kernel.proc p).pid = 0) = some n := by
      rw [hn]
      decide
    unfold kill
    rw [hfind]
  have hrun : Run Table.Step (boot 1 0) ([.act .scheduler 0] ++ [.act (.call (.kill 0)) 0]) s2 := by
    refine .snoc firstTable_run ?_
    rw [hs2]
    rfl
  have hne : init0 ≠ n := by
    rw [hn]
    decide
  have hlike : Alike firstTable s2 init0 := by
    rw [hs2, hkill]
    refine ⟨⟨hc, hc⟩, ?_, rfl, rfl, rfl, rfl⟩
    exact (Function.update_of_ne hne _ _).symm
  have hl2 : s2.kernel.esqueue = n :: l := by
    rw [hs2, hkill]
    exact hl
  have hmarked : (s2.kernel.proc n).killed = true := by
    rw [hs2, hkill]
    simp [Kernel.set]
  have hclean : (firstTable.kernel.proc n).killed = false := by
    rw [hn]
    decide
  have hmem : memOk firstTable.kernel (.pages 7) = true := by decide
  have hmem2 : memOk s2.kernel (.pages 7) = true := by
    rw [hs2, hkill]
    exact hmem
  obtain ⟨t1, ht1⟩ := fork_possible hc hmem
  obtain ⟨t2, ht2⟩ := fork_possible hlike.cur.2 hmem2
  have hstep : ∀ {as : List TableAct} {s : Table}, Run Table.Step (boot 1 0) as s → Clean s :=
    fun hr => hr.invariant Clean (Clean.boot 1 0) fun _ _ _ hs hst => hs.step hst
  have h1 : (t1.child n).killed = false := by
    rw [(hstep firstTable_run).child hc hl ht1]
    exact hclean
  have h2 : (t2.child n).killed = true := by
    rw [(hstep hrun).child hlike.cur.2 hl2 ht2]
    exact hmarked
  refine ⟨_, _, firstTable, s2, t1, t2, n, l, l, firstTable_run, hrun, hlike, hl, hl2, ht1, ht2, h1, h2, ?_⟩
  intro heq
  rw [heq, h2] at h1
  cases h1

end Yonix.Proc
