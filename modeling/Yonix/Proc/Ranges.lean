/-
  Yonix/Proc/Ranges.lean
  ======================
  **The numbers that the schemes compute with.**

  `p_nice`, `p_avgslp` and `p_dpri` of a slot in use stay in their ranges, and
  `p_time_slice` is what the current scheme makes of them: `ETERNAL` under `FIFO`, and
  between 1 and 700 under the other two, so that the sentinel is never mistaken for a time
  slice (`quantities_in_range`).  The labels here are those of `Model.lean` with `sys_sched`
  as one step, since `select_scheme` leaves the time slices to `recalc_timeslice`, and
  with the 32-bit arguments of `sys_incnice` and `sys_decnice`.
-/
import Yonix.Proc.Sched

namespace Yonix.Proc

/-! ### The system calls -/

/-- `__incnice`; the sum is one of two `int`s. -/
def incniceInt (s : Kernel) (p : Slot) (n : BitVec 32) : Kernel :=
  let aim := (BitVec.ofInt 32 (s.proc p).nice + n).toInt
  if MIN_NICE ≤ aim ∧ aim ≤ MAX_NICE then s.set p fun q => { q with nice := aim } else s

def sysIncnice (s : Kernel) (p : Slot) (n : BitVec 32) : Kernel := incniceInt s p n

def sysDecnice (s : Kernel) (p : Slot) (n : BitVec 32) : Kernel := incniceInt s p (-n)

/-- The entry of `sched_reftable`. -/
def schemeOf (n : Nat) : Except Stop Scheme :=
  match n with
  | 0 => .ok .FIFO
  | 1 => .ok .RR
  | 2 => .ok .PRIORITY
  | _ => .error .stray

/-- `sys_sched`: the argument is compared with `sizeof (SCHEME_NUMS)`, as an unsigned number. -/
def sysSched (s : Kernel) (p : Slot) (n : BitVec 32) (slabEmpty : Bool) : Except Stop Kernel :=
  if 4 ≤ n.toNat then .ok s
  else do
    let scheme ← schemeOf n.toNat
    let s ← selectScheme s p scheme slabEmpty
    return recalcTimeslice s

inductive SysAct where
  | act (a : Act)
  | incnice (n : BitVec 32)
  | decnice (n : BitVec 32)
  | sched (n : BitVec 32) (slabEmpty : Bool)

/-- `select_scheme`, `recalc_timeslice` and `__incnice` are called by the system calls only. -/
def Act.Inner : Act → Prop
  | .call (.selectScheme _ _) | .call .recalcTimeslice | .call (.incnice _) => True
  | _ => False

def sysExec (s : Kernel) : SysAct → Except Stop (Kernel × List Freed)
  | .act a => exec s a
  | .incnice n =>
    match s.cur with
    | some p => .ok (sysIncnice s p n, [])
    | none => .error .notCalled
  | .decnice n =>
    match s.cur with
    | some p => .ok (sysDecnice s p n, [])
    | none => .error .notCalled
  | .sched n slabEmpty =>
    match s.cur with
    | some p => do return (← sysSched s p n slabEmpty, [])
    | none => .error .notCalled

def SysStep (s : Kernel) (a : SysAct) (t : Kernel) : Prop :=
  (∀ b, a = .act b → ¬ b.Inner) ∧ ∃ l, sysExec s a = .ok (t, l)

/-! ### The ranges -/

/-- The time slice is one of the scheme. -/
def SliceOk (scheme : Scheme) (slice : Int) : Prop :=
  match scheme with
  | .FIFO => slice = ETERNAL
  | .RR | .PRIORITY => 1 ≤ slice ∧ slice ≤ 700

structure Quantities (q : Pcb) : Prop where
  nice : MIN_NICE ≤ q.nice ∧ q.nice ≤ MAX_NICE
  avgslp : -50 ≤ q.avgslp ∧ q.avgslp ≤ 100
  dpri : 100 ≤ q.dpri ∧ q.dpri ≤ 139

/-- The slot is not in use, or its numbers are in range. -/
def PcbOk (scheme : Scheme) (q : Pcb) : Prop :=
  q.stat ≠ .SUNUSED → Quantities q ∧ SliceOk scheme q.timeSlice

def InRange (s : Kernel) : Prop := ∀ p, PcbOk s.scheme (s.proc p)

variable {s t : Kernel} {p q : Slot} {x y : Pcb} {scheme : Scheme}

theorem timeSliceOf_range {nice : Int} (h : MIN_NICE ≤ nice ∧ nice ≤ MAX_NICE) :
    1 ≤ timeSliceOf (staticPri nice) ∧ timeSliceOf (staticPri nice) ≤ 700 := by
  unfold timeSliceOf staticPri PRI_NUM MIN_TIMESLICE MAX_RT_PRI
  unfold MIN_NICE MAX_NICE at h
  split <;> omega

theorem avgslpAfter_range (avgslp : Int) (tick0 ticks : Nat) :
    -50 ≤ avgslpAfter avgslp tick0 ticks ∧ avgslpAfter avgslp tick0 ticks ≤ 100 := by
  unfold avgslpAfter MAX_AVGSLP
  dsimp only
  split <;> omega

/-- `sched_*_timeslice` makes a time slice of its scheme. -/
theorem timeslice_slice (h : MIN_NICE ≤ x.nice ∧ x.nice ≤ MAX_NICE) :
    SliceOk scheme (timeslice scheme x).timeSlice := by
  cases scheme with
  | FIFO => rfl
  | RR =>
    change 1 ≤ SCHED_RR_TIMESLICE ∧ SCHED_RR_TIMESLICE ≤ 700
    decide
  | PRIORITY => exact timeSliceOf_range h

theorem timeslice_quantities (h : Quantities x) : Quantities (timeslice scheme x) := by
  cases scheme with
  | FIFO => exact ⟨h.nice, h.avgslp, h.dpri⟩
  | RR => exact ⟨h.nice, h.avgslp, h.dpri⟩
  | PRIORITY => exact ⟨h.nice, h.avgslp, h.dpri⟩

theorem dynamicPri_quantities (h : Quantities x) (a b : Int) :
    Quantities { x with dpri := dynamicPri a b } := by
  obtain ⟨h1, h2⟩ := dynamicPri_range a b
  unfold MAX_RT_PRI at h1
  unfold PRI_NUM at h2
  exact ⟨h.nice, h.avgslp, h1, Int.lt_add_one_iff.mp h2⟩

/-- The same numbers in a slot that is in use only if it was. -/
theorem PcbOk.congr (h : PcbOk scheme x) (hstat : y.stat ≠ .SUNUSED → x.stat ≠ .SUNUSED)
    (hnice : y.nice = x.nice) (havg : y.avgslp = x.avgslp) (hdpri : y.dpri = x.dpri)
    (hslice : y.timeSlice = x.timeSlice) : PcbOk scheme y := by
  intro hy
  obtain ⟨⟨h1, h2, h3⟩, h4⟩ := h (hstat hy)
  rw [← hnice] at h1
  rw [← havg] at h2
  rw [← hdpri] at h3
  rw [← hslice] at h4
  exact ⟨⟨h1, h2, h3⟩, h4⟩

theorem InRange.set {f : Pcb → Pcb} (h : InRange s) (hp : PcbOk s.scheme (f (s.proc p))) :
    InRange (s.set p f) := by
  intro q
  by_cases hq : q = p
  · rw [hq]
    simpa [Kernel.set] using hp
  · simpa [Kernel.set, hq] using h q

/-- Only the queues and the like change. -/
theorem InRange.rest (h : InRange s) (hproc : t.proc = s.proc) (hscheme : t.scheme = s.scheme) :
    InRange t := by
  intro q
  rw [hproc, hscheme]
  exact h q

theorem enqueue_scheme (s : Kernel) (p : Slot) : (enqueue s p).scheme = s.scheme := by
  unfold enqueue insertFifo insertDy
  split <;> rfl

theorem InRange.insertDy (h : InRange s) (p : Slot) : InRange (insertDy s p) := h.rest rfl rfl

theorem InRange.enqueue (h : InRange s) (p : Slot) : InRange (enqueue s p) :=
  h.rest (enqueue_proc s p) (enqueue_scheme s p)

/-! ### The operations -/

theorem InRange.wakeup (h : InRange s) (e : Option Chan) : InRange (wakeup s e) := by
  unfold Proc.wakeup
  refine List.foldlRecOn slots _ h ?_
  intro t ht p _
  split
  · rename_i hsleep
    refine InRange.enqueue (ht.set ?_) p
    refine (ht p).congr ?_ rfl rfl rfl rfl
    rw [hsleep.1]
    simp
  · exact ht

theorem InRange.reparent (h : InRange s) (p : Slot) : InRange (reparent s p) := by
  unfold Proc.reparent
  refine List.foldlRecOn slots _ h ?_
  intro t ht q _
  have hset : InRange (t.set q fun x => { x with prt := some t.initproc }) :=
    ht.set ((ht q).congr id rfl rfl rfl rfl)
  dsimp only
  split
  · split
    · exact hset.wakeup _
    · exact hset
  · exact ht

theorem InRange.transform (h : InRange s) (ht : transform s p = .ok t) : InRange t := by
  rw [transform_eq_ok ht]
  exact h.rest rfl rfl

/-- The numbers of the process on the CPU, in the middle of `timeslice_yield`. -/
structure InRangeBut (p : Slot) (s : Kernel) : Prop where
  other : ∀ q, q ≠ p → PcbOk s.scheme (s.proc q)
  self : Quantities (s.proc p)

theorem InRangeBut.after (h : InRangeBut p s) (ht : after s p = .ok t) : InRange t := by
  have hset : ∀ (u : Kernel) (f : Pcb → Pcb), u.proc = s.proc → u.scheme = s.scheme →
      PcbOk s.scheme (f (s.proc p)) → InRange (u.set p f) := by
    intro u f hproc hscheme hf q
    by_cases hq : q = p
    · rw [hq]
      simpa [Kernel.set, hproc, hscheme] using hf
    · simpa [Kernel.set, hproc, hscheme, hq] using h.other q hq
  unfold Proc.after at ht
  split at ht
  · rename_i hs
    rw [← Except.ok.inj ht]
    refine hset s _ rfl rfl fun _ => ⟨timeslice_quantities h.self, ?_⟩
    rw [hs]
    exact timeslice_slice h.self.nice
  · rename_i hs
    rw [← Except.ok.inj ht]
    refine hset s _ rfl rfl fun _ => ⟨timeslice_quantities h.self, ?_⟩
    rw [hs]
    exact timeslice_slice h.self.nice
  · rename_i hs
    dsimp only at ht
    split at ht
    · rw [← Except.ok.inj ht]
      apply InRange.insertDy
      apply hset
      · rfl
      · rfl
      intro _
      refine ⟨dynamicPri_quantities (timeslice_quantities h.self) _ _, ?_⟩
      rw [hs]
      exact timeslice_slice h.self.nice
    · cases ht

theorem InRangeBut.giveup (h : InRangeBut p s) (ht : giveupCpu s p = .ok t) : InRange t := by
  obtain ⟨u, hu, ht⟩ := bind_eq_ok.mp ht
  have hset : InRangeBut p (Proc.enqueue (s.set p fun q => { q with stat := .READY, resume := .user }) p) := by
    refine ⟨?_, ?_⟩
    · intro q hq
      rw [enqueue_proc, enqueue_scheme]
      simpa [Kernel.set, hq] using h.other q hq
    · rw [enqueue_proc]
      simp only [Kernel.set, Function.update_self]
      exact ⟨h.self.nice, h.self.avgslp, h.self.dpri⟩
  exact (hset.after hu).transform ht

theorem InRange.but (h : InRange s) (hp : (s.proc p).stat ≠ .SUNUSED) : InRangeBut p s :=
  ⟨fun q _ => h q, (h p hp).1⟩

theorem InRange.timesliceYield (h : InRange s) (hp : (s.proc p).stat ≠ .SUNUSED)
    (ht : timesliceYield s p = .ok t) : InRange t := by
  obtain ⟨hq, hslice⟩ := h p hp
  unfold Proc.timesliceYield at ht
  split at ht
  · rw [← Except.ok.inj ht]
    exact h
  · rename_i heternal
    have havg : Quantities { s.proc p with
        timeSlice := (s.proc p).timeSlice - TIMER_INTERVAL
        avgslp := max (-50) ((s.proc p).avgslp - 1) } := by
      refine ⟨hq.nice, ?_, hq.dpri⟩
      have h2 := hq.avgslp
      exact ⟨le_max_left _ _, max_le (by decide) (by omega)⟩
    dsimp only at ht
    split at ht
    · refine InRangeBut.giveup ⟨?_, ?_⟩ ht
      · intro q hq
        simpa [Kernel.set, hq] using h q
      · simpa [Kernel.set] using havg
    · rename_i hpos
      rw [← Except.ok.inj ht]
      refine h.set fun _ => ⟨havg, ?_⟩
      simp only [Kernel.set, Function.update_self] at hpos
      unfold TIMER_INTERVAL at *
      cases hs : s.scheme with
      | FIFO =>
        rw [hs] at hslice
        exact absurd hslice heternal
      | RR =>
        rw [hs] at hslice
        obtain ⟨hmin, hmax⟩ := hslice
        change 1 ≤ (s.proc p).timeSlice - 10 ∧ (s.proc p).timeSlice - 10 ≤ 700
        omega
      | PRIORITY =>
        rw [hs] at hslice
        obtain ⟨hmin, hmax⟩ := hslice
        change 1 ≤ (s.proc p).timeSlice - 10 ∧ (s.proc p).timeSlice - 10 ≤ 700
        omega

theorem InRange.sleep {e : Option Chan} {loop : Loop} (h : InRange s)
    (hp : (s.proc p).stat ≠ .SUNUSED) (ht : sleep s p e loop = .ok t) : InRange t :=
  (h.set ((h p).congr (fun _ => hp) rfl rfl rfl rfl)).transform ht

theorem InRange.awake (h : InRange s) (hp : (s.proc p).stat ≠ .SUNUSED) (tick0 : Nat) :
    InRange (awake s p tick0) := by
  obtain ⟨hq, hslice⟩ := h p hp
  exact h.set fun _ => ⟨⟨hq.nice, avgslpAfter_range _ _ _, hq.dpri⟩, hslice⟩

theorem InRange.kill (h : InRange s) (pid : Nat) : InRange (kill s pid) := by
  unfold Proc.kill
  split
  · rename_i p hp
    refine h.set ((h p).congr ?_ rfl rfl rfl rfl)
    dsimp only
    split
    · rename_i hsleep
      rw [hsleep]
      simp
    · exact id
  · exact h

/-- What `procalloc` writes into the slot. -/
theorem born_ok (scheme : Scheme) {x q : Pcb} {pid : Nat}
    (hq : q = timeslice scheme { x with
      stat := .SEMBRYO, pid := pid, nice := 0, spri := staticPri 0, avgslp := 0 }) :
    PcbOk scheme { q with dpri := dynamicPri q.spri (bonus q.avgslp) } := by
  intro _
  have hd := dynamicPri_range q.spri (bonus q.avgslp)
  unfold MAX_RT_PRI PRI_NUM at hd
  subst hq
  refine ⟨⟨?_, ?_, hd.1, Int.lt_add_one_iff.mp hd.2⟩, timeslice_slice ?_⟩
  · cases scheme <;> simp [timeslice, MIN_NICE, MAX_NICE]
  · cases scheme <;> simp [timeslice]
  · simp [MIN_NICE, MAX_NICE]

theorem InRange.procalloc (h : InRange s) (stack : Bool) : InRange (procalloc s stack).1 := by
  unfold Proc.procalloc
  split
  · exact h
  · rename_i p l hl
    dsimp only
    have hborn : InRange ({ s with esqueue := l, nextpid := s.nextpid + 1 }.set p fun q =>
        let q := { q with stat := .SEMBRYO, pid := s.nextpid, nice := 0, spri := staticPri 0, avgslp := 0 }
        let q := timeslice s.scheme q
        { q with dpri := dynamicPri q.spri (bonus q.avgslp) }) :=
      InRange.set (h.rest rfl rfl) (born_ok s.scheme rfl)
    split
    · exact hborn
    · exact hborn.set fun hn => absurd rfl hn

theorem InRange.fork (h : InRange s) (p : Slot) (m : Mem) : InRange (fork s p m) := by
  have halloc := h.procalloc (m ≠ .noStack)
  unfold Proc.fork
  split
  · rename_i u hu
    rwa [hu] at halloc
  · rename_i u n hu
    have hn := procalloc_some hu
    rw [hu] at halloc
    split
    · rename_i d
      have hlive : InRange { u with live := Function.update u.live d true } := halloc.rest rfl rfl
      refine InRange.enqueue (hlive.set ((hlive n).congr ?_ rfl rfl rfl rfl)) n
      intro _
      change (u.proc n).stat ≠ .SUNUSED
      rw [hn]
      simp
    · exact (halloc.set (p := n) (f := fun q => { q with page := 0, stat := .SUNUSED })
        fun hs => absurd rfl hs).rest rfl rfl

theorem InRange.lwpCreate (h : InRange s) (p : Slot) (stack : Bool) : InRange (lwpCreate s p stack) := by
  have halloc := h.procalloc stack
  unfold Proc.lwpCreate
  split
  · rename_i u hu
    rwa [hu] at halloc
  · rename_i u n hu
    have hn := procalloc_some hu
    rw [hu] at halloc
    have hpage : InRange (u.set n fun q => { q with page := (u.proc p).page }) :=
      halloc.set ((halloc n).congr id rfl rfl rfl rfl)
    dsimp only
    split
    · exact hpage
    · refine InRange.enqueue (hpage.set ((hpage n).congr ?_ rfl rfl rfl rfl)) n
      intro _
      simp [Kernel.set, hn]

theorem InRange.reap (h : InRange s) (p : Slot) : InRange (reap s p) :=
  InRange.rest (h.set (p := p) (f := fun q => { q with
    pid := 0, prt := none, killed := false, stat := .SUNUSED, resume := .gone })
    fun hs => absurd rfl hs) rfl rfl

theorem InRange.exit (h : InRange s) (hwf : Wf s) (hcur : s.cur = some p) (ht : exit s p = .ok t) :
    InRange t := by
  unfold Proc.exit at ht
  split at ht
  · cases ht
  · have hr := (h.wakeup ((s.proc p).prt.map .proc)).reparent p
    have hmoves := (hwf.moves (wakeup_moves s ((s.proc p).prt.map .proc))).moves
      (reparent_moves (Proc.wakeup s ((s.proc p).prt.map .proc)) p).1
    have hrun := hmoves.cur p ((reparent_moves _ p).2.trans ((wakeup_cur _ _).trans hcur))
    dsimp only at ht
    generalize Proc.reparent (Proc.wakeup s ((s.proc p).prt.map .proc)) p = u at ht hr hrun
    refine (hr.set (p := p) (f := fun q => { q with stat := .SZOMB, resume := .dead }) ?_).transform ht
    refine (hr p).congr ?_ rfl rfl rfl rfl
    intro _
    rw [hrun]
    simp

theorem InRange.waitLoop {l : List Freed} (h : InRange s) (hp : (s.proc p).stat ≠ .SUNUSED)
    (ht : waitLoop s p = .ok (t, l)) : InRange t := by
  unfold Proc.waitLoop at ht
  split at ht
  · rename_i q hq
    simp only [Except.ok.injEq, Prod.mk.injEq] at ht
    have hfree : InRange (freeuvm s (s.proc q).page) := h.rest rfl rfl
    rw [← ht.1]
    exact hfree.reap q
  · split at ht
    · simp only [Except.ok.injEq, Prod.mk.injEq] at ht
      rw [← ht.1]
      exact h
    · obtain ⟨u, hu, ht⟩ := bind_eq_ok.mp ht
      cases ht
      exact h.sleep hp hu

theorem InRange.joinLoop {l : List Freed} (h : InRange s) (hp : (s.proc p).stat ≠ .SUNUSED)
    (ht : joinLoop s p = .ok (t, l)) : InRange t := by
  unfold Proc.joinLoop at ht
  split at ht
  · rename_i q hq
    simp only [Except.ok.injEq, Prod.mk.injEq] at ht
    rw [← ht.1]
    exact h.reap q
  · split at ht
    · simp only [Except.ok.injEq, Prod.mk.injEq] at ht
      rw [← ht.1]
      exact h
    · obtain ⟨u, hu, ht⟩ := bind_eq_ok.mp ht
      cases ht
      exact h.sleep hp hu

theorem InRange.switchTo {l : List Freed} (h : InRange s) (hp : (s.proc p).stat ≠ .SUNUSED)
    (ht : switchTo s p = .ok (t, l)) : InRange t := by
  unfold Proc.switchTo at ht
  dsimp only at ht
  have hcur : InRange { s with cur := some p } := h.rest rfl rfl
  have hrun : InRange ({ s with cur := some p }.set p fun q => { q with stat := .SRUN }) :=
    hcur.set ((hcur p).congr (fun _ => hp) rfl rfl rfl rfl)
  have hin : (({ s with cur := some p }.set p fun q => { q with stat := .SRUN }).proc p).stat ≠ .SUNUSED := by
    simp [Kernel.set]
  have hawake : ∀ tick0, ((Proc.awake ({ s with cur := some p }.set p fun q => { q with stat := .SRUN })
      p tick0).proc p).stat ≠ .SUNUSED := by
    intro tick0
    simp [Proc.awake, Kernel.set]
  split at ht
  · cases ht
  · split at ht
    · simp only [Except.ok.injEq, Prod.mk.injEq] at ht
      rw [← ht.1]
      exact hrun
    · simp only [Except.ok.injEq, Prod.mk.injEq] at ht
      rw [← ht.1]
      exact hrun.awake hin _
    · exact (hrun.awake hin _).waitLoop (hawake _) ht
    · exact (hrun.awake hin _).joinLoop (hawake _) ht
    · cases ht
    · cases ht

theorem InRange.scheduler {l : List Freed} (h : InRange s) (hwf : Wf s)
    (ht : scheduler s = .ok (t, l)) : InRange t := by
  unfold Proc.scheduler at ht
  split at ht
  · rename_i u hu
    cases ht
    exact h.rest (sched_proc hu).1 (sched_proc hu).2.1
  · rename_i u p hu
    obtain ⟨hproc, hscheme, -, -⟩ := sched_proc hu
    have hin : InRange u := h.rest hproc hscheme
    refine hin.switchTo ?_ ht
    -- a slot that is not in use has nothing to go on with
    intro hunused
    rw [hproc] at hunused
    have hgone := hwf.gone p (Or.inl hunused)
    unfold Proc.switchTo at ht
    dsimp only at ht
    split at ht
    · cases ht
    · have hres : (({ u with cur := some p }.set p fun q => { q with stat := .SRUN }).proc p).resume =
          .gone := by
        simp [Kernel.set, hproc, hgone]
      rw [hres] at ht
      cases ht

/-! ### Scheme switches -/

/-- `recalc_timeslice` makes time slices of the current scheme. -/
theorem recalcTimeslice_range (h : ∀ p, (s.proc p).stat ≠ .SUNUSED → Quantities (s.proc p)) :
    InRange (recalcTimeslice s) := by
  have hall : ∀ l : List Slot, ∀ u : Kernel, u.scheme = s.scheme →
      (∀ p, (u.proc p).stat ≠ .SUNUSED → Quantities (u.proc p)) →
      (∀ p, p ∉ l → PcbOk s.scheme (u.proc p)) →
      InRange (l.foldl (fun s p => if (s.proc p).stat ≠ .SUNUSED then s.set p (timeslice s.scheme) else s) u) := by
    intro l
    induction l with
    | nil =>
      intro u hscheme _ hrest p
      rw [List.foldl_nil, hscheme]
      exact hrest p (by simp)
    | cons q l ih =>
      intro u hscheme hquant hrest
      rw [List.foldl_cons]
      split
      · rename_i hq
        have hother : ∀ p, p ≠ q → ((u.set q (timeslice u.scheme)).proc p) = u.proc p :=
          fun p hp => Function.update_of_ne hp _ _
        have hself : ((u.set q (timeslice u.scheme)).proc q) = timeslice u.scheme (u.proc q) :=
          Function.update_self _ _ _
        refine ih _ hscheme ?_ ?_
        · intro p hp
          by_cases hpq : p = q
          · rw [hpq, hself]
            exact timeslice_quantities (hquant q hq)
          · rw [hother p hpq] at hp ⊢
            exact hquant p hp
        · intro p hp
          by_cases hpq : p = q
          · rw [hpq, hself, hscheme]
            intro _
            exact ⟨timeslice_quantities (hquant q hq), timeslice_slice (hquant q hq).nice⟩
          · rw [hother p hpq]
            exact hrest p (by simp [hpq, hp])
      · rename_i hq
        refine ih u hscheme hquant ?_
        intro p hp
        by_cases hpq : p = q
        · rw [hpq]
          intro hused
          exact absurd hused hq
        · exact hrest p (by simp [hpq, hp])
  refine hall slots s rfl h ?_
  intro p hp
  exact absurd (List.mem_finRange p) hp

theorem InRange.sysSched {n : BitVec 32} {slabEmpty : Bool} (h : InRange s)
    (ht : sysSched s p n slabEmpty = .ok t) : InRange t := by
  unfold Proc.sysSched at ht
  split at ht
  · rw [← Except.ok.inj ht]
    exact h
  · obtain ⟨scheme, -, ht⟩ := bind_eq_ok.mp ht
    obtain ⟨u, hu, ht⟩ := bind_eq_ok.mp ht
    rw [← Except.ok.inj ht]
    have hproc : u.proc = s.proc := by
      rcases selectScheme_spec hu with ⟨-, rfl⟩ | ⟨-, l, -, rfl⟩ | ⟨-, l, rfl⟩ <;> rfl
    apply recalcTimeslice_range
    intro q hq
    rw [hproc] at hq ⊢
    exact (h q hq).1

theorem InRange.incniceInt (h : InRange s) (p : Slot) (n : BitVec 32) : InRange (incniceInt s p n) := by
  unfold Proc.incniceInt
  dsimp only
  split
  · rename_i haim
    refine h.set fun hp => ?_
    obtain ⟨hq, hslice⟩ := h p hp
    exact ⟨⟨haim, hq.avgslp, hq.dpri⟩, hslice⟩
  · exact h

/-! ### The runs -/

theorem InRange.exec {a : Act} {l : List Freed} (h : InRange s) (hwf : Wf s) (ha : ¬ a.Inner)
    (ht : exec s a = .ok (t, l)) : InRange t := by
  cases a with
  | wakeup e =>
    simp only [Proc.exec, Except.ok.injEq, Prod.mk.injEq] at ht
    rw [← ht.1]
    exact h.wakeup e
  | tick =>
    cases ht
    exact h.rest rfl rfl
  | scheduler =>
    simp only [Proc.exec] at ht
    split at ht
    · cases ht
    · exact h.scheduler hwf ht
  | call c =>
    simp only [Proc.exec] at ht
    split at ht
    case h_2 => cases ht
    case h_1 p hcur =>
      have hp : (s.proc p).stat ≠ .SUNUSED := by
        rw [hwf.cur p hcur]
        simp
      cases c with
      | fork m =>
        simp only [call] at ht
        split at ht <;> cases ht
        exact h.fork p m
      | lwpCreate stack =>
        cases ht
        exact h.lwpCreate p stack
      | exec e =>
        simp only [call] at ht
        split at ht
        · cases e with
          | early =>
            cases ht
            exact h
          | bad d =>
            cases ht
            exact h.rest rfl rfl
          | commit d =>
            simp only [execImage, Except.ok.injEq, Prod.mk.injEq] at ht
            rw [← ht.1]
            have hlive : InRange { s with live := Function.update s.live d true } := h.rest rfl rfl
            have hpage : InRange ({ s with live := Function.update s.live d true }.set p
                fun q => { q with page := d }) := hlive.set ((hlive p).congr id rfl rfl rfl rfl)
            exact hpage.rest rfl rfl
        · cases ht
      | exit =>
        obtain ⟨u, hu, ht⟩ := bind_eq_ok.mp ht
        cases ht
        exact h.exit hwf hcur hu
      | wait => exact h.waitLoop hp ht
      | lwpJoin => exact h.joinLoop hp ht
      | sleep e =>
        obtain ⟨u, hu, ht⟩ := bind_eq_ok.mp ht
        cases ht
        exact h.sleep hp hu
      | kill pid =>
        cases ht
        exact h.kill pid
      | giveupCpu =>
        obtain ⟨u, hu, ht⟩ := bind_eq_ok.mp ht
        cases ht
        exact (h.but hp).giveup hu
      | timesliceYield =>
        obtain ⟨u, hu, ht⟩ := bind_eq_ok.mp ht
        cases ht
        exact h.timesliceYield hp hu
      | selectScheme scheme slabEmpty => exact absurd trivial ha
      | recalcTimeslice => exact absurd trivial ha
      | incnice n => exact absurd trivial ha

theorem Wf.incniceInt (h : Wf s) (p : Slot) (n : BitVec 32) : Wf (incniceInt s p n) := by
  unfold Proc.incniceInt
  dsimp only
  split
  · exact h.move (Move.frame (frame_set rfl rfl (Or.inl rfl)))
  · exact h

theorem Wf.sysExec {a : SysAct} {l : List Freed} (h : Wf s) (ht : sysExec s a = .ok (t, l)) : Wf t := by
  cases a with
  | act a => exact h.exec ht
  | incnice n =>
    simp only [Proc.sysExec] at ht
    split at ht
    · simp only [Except.ok.injEq, Prod.mk.injEq] at ht
      rw [← ht.1]
      exact h.incniceInt _ n
    · cases ht
  | decnice n =>
    simp only [Proc.sysExec] at ht
    split at ht
    · simp only [Except.ok.injEq, Prod.mk.injEq] at ht
      rw [← ht.1]
      exact h.incniceInt _ (-n)
    · cases ht
  | sched n slabEmpty =>
    simp only [Proc.sysExec] at ht
    split at ht
    · obtain ⟨u, hu, ht⟩ := bind_eq_ok.mp ht
      cases ht
      unfold sysSched at hu
      split at hu
      · rw [← Except.ok.inj hu]
        exact h
      · obtain ⟨scheme, -, hu⟩ := bind_eq_ok.mp hu
        obtain ⟨v, hv, hu⟩ := bind_eq_ok.mp hu
        rw [← Except.ok.inj hu]
        exact (h.select hv).moves (recalcTimeslice_frame v).moves
    · cases ht

theorem InRange.step {a : SysAct} (h : InRange s) (hwf : Wf s) (hs : SysStep s a t) : InRange t := by
  obtain ⟨ha, l, ht⟩ := hs
  cases a with
  | act a => exact h.exec hwf (ha a rfl) ht
  | incnice n =>
    simp only [sysExec] at ht
    split at ht
    · simp only [Except.ok.injEq, Prod.mk.injEq] at ht
      rw [← ht.1]
      exact h.incniceInt _ n
    · cases ht
  | decnice n =>
    simp only [sysExec] at ht
    split at ht
    · simp only [Except.ok.injEq, Prod.mk.injEq] at ht
      rw [← ht.1]
      exact h.incniceInt _ (-n)
    · cases ht
  | sched n slabEmpty =>
    simp only [sysExec] at ht
    split at ht
    · obtain ⟨u, hu, ht⟩ := bind_eq_ok.mp ht
      cases ht
      exact h.sysSched hu
    · cases ht

theorem userinit_range (d : Nat) : InRange (userinit start d) := by
  have halloc : InRange (procalloc start true).1 := by
    refine InRange.procalloc ?_ true
    intro p hp
    exact absurd rfl hp
  unfold userinit
  split
  · rename_i u hu
    rwa [hu] at halloc
  · rename_i u n hu
    have hn := procalloc_some hu
    rw [hu] at halloc
    have hlive : InRange { u with initproc := n, live := Function.update u.live d true } :=
      halloc.rest rfl rfl
    refine InRange.enqueue (hlive.set ((hlive n).congr ?_ rfl rfl rfl rfl)) n
    intro _
    change (u.proc n).stat ≠ .SUNUSED
    rw [hn]
    simp

/-- **The scheduling quantities.**  In every state, for every slot in use. -/
theorem quantities_in_range {d : Nat} {as : List SysAct} (h : Run SysStep (userinit start d) as s)
    (hp : (s.proc p).stat ≠ .SUNUSED) :
    (-15 ≤ (s.proc p).nice ∧ (s.proc p).nice ≤ 15) ∧
    (-50 ≤ (s.proc p).avgslp ∧ (s.proc p).avgslp ≤ 100) ∧
    (100 ≤ (s.proc p).dpri ∧ (s.proc p).dpri ≤ 139 ∧ dyIndex (s.proc p) < NQUEUE) ∧
    (s.scheme = .FIFO → (s.proc p).timeSlice = ETERNAL) ∧
    (s.scheme ≠ .FIFO → 1 ≤ (s.proc p).timeSlice ∧ (s.proc p).timeSlice ≤ 700 ∧
      (s.proc p).timeSlice ≠ ETERNAL) := by
  have hinv : Wf s ∧ InRange s := by
    refine h.invariant (fun s => Wf s ∧ InRange s)
      ⟨Wf.start.moves (userinit_moves start d), userinit_range d⟩ ?_
    rintro u a v ⟨hwf, hin⟩ hstep
    exact ⟨hwf.sysExec hstep.2.choose_spec, hin.step hwf hstep⟩
  obtain ⟨hq, hslice⟩ := hinv.2 p hp
  have hindex := dyIndex_lt (hinv.1.dpri p hp)
  refine ⟨hq.nice, hq.avgslp, ⟨hq.dpri.1, hq.dpri.2, hindex⟩, ?_, ?_⟩
  · intro hs
    rw [hs] at hslice
    exact hslice
  · intro hs
    cases hscheme : s.scheme with
    | FIFO => exact absurd hscheme hs
    | RR =>
      rw [hscheme] at hslice
      obtain ⟨hmin, hmax⟩ := hslice
      refine ⟨hmin, hmax, ?_⟩
      unfold ETERNAL
      omega
    | PRIORITY =>
      rw [hscheme] at hslice
      obtain ⟨hmin, hmax⟩ := hslice
      refine ⟨hmin, hmax, ?_⟩
      unfold ETERNAL
      omega

set_option maxRecDepth 20000 in
/-- The first process makes itself nicer and selects `PRIORITY`. -/
theorem quantities_in_range_nicer :
    ∃ s, Run SysStep (userinit start 1) [.act .scheduler, .incnice 5, .sched 2 true] s ∧
      s.scheme = .PRIORITY ∧ (s.proc ⟨0, by decide⟩).nice = 5 ∧
      -15 ≤ (s.proc ⟨0, by decide⟩).nice ∧ 1 ≤ (s.proc ⟨0, by decide⟩).timeSlice := by
  have hrun : Run SysStep (userinit start 1) [.act .scheduler, .incnice 5, .sched 2 true] _ :=
    Run.cons ⟨by rintro b ⟨⟩; exact id, _, rfl⟩ (Run.cons ⟨by simp, _, rfl⟩
      (Run.single ⟨by simp, _, rfl⟩))
  have hq := quantities_in_range hrun (p := ⟨0, by decide⟩) (by decide)
  exact ⟨_, hrun, rfl, rfl, hq.1.1, (hq.2.2.2.2 (by decide)).1⟩

end Yonix.Proc
