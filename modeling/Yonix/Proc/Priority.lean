/-
  Yonix/Proc/Priority.lean
  ========================
  **The order of the priority scheme (`sched_priority`).**

  `Entered` says that the forty queues hold each ready slot once, under its own priority,
  and nothing else.  Every operation but `kill` and `select_scheme` keeps this, since
  `p_dpri` of a ready process never changes: `sched_priority_after` computes it for the
  process that gives up the CPU, whose entry it takes out of the old queue and puts at the
  end of the new one.  So the first entry of the first queue is a ready process of
  smallest `p_dpri`, and among these the one that has waited longest (`priority_order`).
-/
import Yonix.Proc.Sched

namespace Yonix.Proc

open Relation

/-- Each ready slot has one entry, in the queue of its priority, and nobody else has one. -/
def Entered (s : Kernel) : Prop :=
  ∀ i p, (s.rdyQDy i).count p = if (s.proc p).stat = .READY ∧ dyIndex (s.proc p) = i then 1 else 0

/-- The label is neither `kill` nor `select_scheme`. -/
def Act.Orderly : Act → Prop
  | .call (.kill _) | .call (.selectScheme _ _) => False
  | _ => True

/-- `q` stays ready from `s` to `t`, with whatever happens in between. -/
def KeptReady (q : Slot) : Kernel → Kernel → Prop :=
  ReflTransGen fun s t => Move s t ∧ (t.proc q).stat = .READY

variable {s t : Kernel} {p q : Slot}

theorem Entered.fit (h : Entered s) (hwf : Wf s) (hs : s.scheme = .PRIORITY) : Fit s := by
  refine ⟨hwf, by simp [hs], ?_⟩
  intro _ i
  constructor
  · rw [List.nodup_iff_count_le_one]
    intro p
    rw [h i p]
    split <;> omega
  · intro p hp
    have hcount := List.count_pos_iff.mpr hp
    rw [h i p] at hcount
    split at hcount
    · rename_i hready
      exact hready
    · omega

theorem Entered.queued (h : Entered s) (hwf : Wf s) (hs : s.scheme = .PRIORITY) : Queued s := by
  refine ⟨hwf, by simp [hs], ?_⟩
  intro _ p hp
  rw [← List.count_pos_iff, h, if_pos ⟨hp, rfl⟩]
  exact Nat.one_pos

theorem entered_of (hfit : Fit s) (hqueued : Queued s) (hs : s.scheme = .PRIORITY) : Entered s := by
  intro i p
  obtain ⟨hnodup, hall⟩ := hfit.pri hs i
  split
  · rename_i hready
    refine List.count_eq_one_of_mem hnodup ?_
    rw [← hready.2]
    exact hqueued.pri hs p hready.1
  · rename_i hnot
    rw [List.count_eq_zero]
    intro hmem
    exact hnot (hall p hmem)

theorem Move.scheme (h : Move s t) : t.scheme = s.scheme := by
  cases h with
  | frame h => exact h.scheme
  | wake p h => exact (enqueue_spec (f := fun q => { q with stat := .READY }) rfl rfl).scheme
  | alloc stack =>
    rcases procalloc_spec s stack with ht | ⟨p, ht⟩
    · rw [ht]
    · exact ht.scheme
  | fail n h => rfl
  | publish n h f hstat hdpri => exact (enqueue_spec hstat hdpri).scheme
  | giveup p h ht => exact (giveup_spec ht).scheme
  | sleep p h e loop ht =>
    rw [sleep_spec ht]
    rfl
  | die p h => rfl
  | reap p h => rfl
  | dispatch p hcur hs hdead hgone => exact (sched_proc hs).2.1

theorem Moves.scheme (h : Moves s t) : t.scheme = s.scheme := by
  induction h with
  | refl => rfl
  | tail _ hm ih => exact hm.scheme.trans ih

theorem Entered.moves (h : Entered s) (hwf : Wf s) (hs : s.scheme = .PRIORITY) (hm : Moves s t) :
    Entered t := by
  have hqueued : Queued t := (h.queued hwf hs).moves hm
  exact entered_of ((h.fit hwf hs).moves hm) hqueued (hm.scheme.trans hs)

theorem entered_of_run {d : Nat} {as : List Act} (hs : s.scheme = .PRIORITY)
    (hrun : Run (fun s a t => Step s a t ∧ CleanSelect s a ∧ NoKillAsleep s a)
      (userinit start d) as s) : Wf s ∧ Entered s := by
  have hinit : Fit (userinit start d) ∧ Queued (userinit start d) := by
    refine ⟨Fit.userinit d, ?_⟩
    exact Queued.moves ⟨Wf.start, by simp [start], by simp [start]⟩ (userinit_moves start d)
  have hboth : Fit s ∧ Queued s := by
    refine hrun.invariant (fun s => Fit s ∧ Queued s) hinit ?_
    rintro t a u ⟨hfit, hqueued⟩ ⟨⟨l, hl⟩, hclean, hkill⟩
    exact ⟨hfit.exec hclean hl, hqueued.exec hkill hl⟩
  exact ⟨hboth.1.wf, entered_of hboth.1 hboth.2 hs⟩

theorem Act.Orderly.moves {a : Act} {l : List Freed} (ha : a.Orderly)
    (ht : Proc.exec s a = .ok (t, l)) : Moves s t := by
  rcases exec_moves ht with hm | ⟨p, pid, -, rfl, -⟩ | ⟨p, scheme, slabEmpty, -, rfl, -⟩
  · exact hm
  · exact absurd ha id
  · exact absurd ha id

/-- `sched_priority_after` finds the entry that `giveup_cpu` has just made. -/
theorem giveup_possible (hs : s.scheme = .PRIORITY) (p : Slot) : ∃ t, giveupCpu s p = .ok t := by
  simp [giveupCpu, enqueue, after, insertDy, transform, Kernel.set, hs, dyIndex, timeslice,
    bind, Except.bind]

/-! ### The choice -/

theorem schedPriority_some {u : Kernel} (h : schedPriority s = (u, some p)) :
    ∃ i l, s.rdyQDy i = p :: l ∧ ∀ j < i, s.rdyQDy j = [] := by
  unfold schedPriority at h
  split at h
  · cases h
  · rename_i i hi
    split at h
    · cases h
    · rename_i r l hl
      cases h
      refine ⟨i, l, hl, ?_⟩
      intro j hj
      have hbefore := (List.find?_range_eq_some.mp hi).2.2 j hj
      simpa using hbefore

theorem schedPriority_none {u : Kernel} (h : schedPriority s = (u, none)) :
    ∀ i < NQUEUE, s.rdyQDy i = [] := by
  unfold schedPriority at h
  split at h
  · rename_i hnone
    intro i hi
    have hempty := List.find?_eq_none.mp hnone i (List.mem_range.mpr hi)
    simpa using hempty
  · rename_i i hi
    split at h
    · rename_i hempty
      have hfull := List.find?_some hi
      simp [hempty] at hfull
    · cases h

theorem dpri_le_of_dyIndex_le {x y : Pcb} (hx : MAX_RT_PRI ≤ x.dpri) (hy : MAX_RT_PRI ≤ y.dpri)
    (h : dyIndex x ≤ dyIndex y) : x.dpri ≤ y.dpri := by
  unfold dyIndex at h
  omega

theorem dyIndex_eq_of_dpri_eq {x y : Pcb} (h : x.dpri = y.dpri) : dyIndex x = dyIndex y := by
  rw [dyIndex, dyIndex, h]

theorem Entered.min (h : Entered s) (hwf : Wf s) (hs : s.scheme = .PRIORITY)
    (hp : (Proc.sched s).2 = some p) :
    (s.proc p).stat = .READY ∧
      ∀ q, (s.proc q).stat = .READY → (s.proc p).dpri ≤ (s.proc q).dpri := by
  have hsched : schedPriority s = ((Proc.sched s).1, some p) := by
    rw [← hp, Proc.sched, hs]
  obtain ⟨i, l, hl, hbefore⟩ := schedPriority_some hsched
  have hmem : p ∈ s.rdyQDy i := by
    rw [hl]
    exact List.mem_cons_self
  obtain ⟨hready, hi⟩ := ((h.fit hwf hs).pri hs i).2 p hmem
  refine ⟨hready, ?_⟩
  intro q hq
  have hqmem := (h.queued hwf hs).pri hs q hq
  have hle : i ≤ dyIndex (s.proc q) := by
    by_contra hlt
    rw [hbefore _ (by omega)] at hqmem
    cases hqmem
  refine dpri_le_of_dyIndex_le ?_ ?_ (hi.trans_le hle)
  · exact (hwf.dpri p (by simp [hready])).1
  · exact (hwf.dpri q (by simp [hq])).1

theorem Entered.idle (h : Entered s) (hwf : Wf s) (hs : s.scheme = .PRIORITY)
    (hp : (Proc.sched s).2 = none) (q : Slot) : (s.proc q).stat ≠ .READY := by
  intro hq
  have hsched : schedPriority s = ((Proc.sched s).1, none) := by
    rw [← hp, Proc.sched, hs]
  have hqmem := (h.queued hwf hs).pri hs q hq
  have hlt := dyIndex_lt (hwf.dpri q (by simp [hq]))
  rw [schedPriority_none hsched _ hlt] at hqmem
  cases hqmem

/-! ### First in, first out -/

/-- `q` waits in the queue of its priority, and no entry before its own is one of `p`. -/
def Behind (s : Kernel) (p q : Slot) : Prop :=
  ∃ l m, s.rdyQDy (dyIndex (s.proc q)) = l ++ q :: m ∧ p ∉ l

theorem Entered.behind (h : Entered s) (hwf : Wf s) (hs : s.scheme = .PRIORITY)
    (hq : (s.proc q).stat = .READY) (hp : (s.proc p).stat ≠ .READY) : Behind s p q := by
  obtain ⟨l, m, hl⟩ := List.append_of_mem ((h.queued hwf hs).pri hs q hq)
  refine ⟨l, m, hl, ?_⟩
  intro hmem
  have hpmem : p ∈ s.rdyQDy (dyIndex (s.proc q)) := by
    rw [hl]
    exact List.mem_append_left _ hmem
  exact hp (((h.fit hwf hs).pri hs _).2 p hpmem).1

/-- The priority of a process that stays ready does not change. -/
theorem Move.dpri (hm : Move s t) (hwf : Wf s) (hq : (s.proc q).stat = .READY)
    (hqt : (t.proc q).stat = .READY) : (t.proc q).dpri = (s.proc q).dpri := by
  cases hm with
  | frame h => exact h.dpri q
  | wake p h =>
    have hspec := enqueue_spec (s := s) (p := p) (f := fun q => { q with stat := .READY }) rfl rfl
    by_cases hqp : q = p
    · rw [hqp]
      exact hspec.dpri
    · rw [hspec.other q hqp]
  | alloc stack =>
    rcases procalloc_spec s stack with ht | ⟨p, ht⟩
    · rw [ht]
    · have hp := hwf.free p (by simp [ht.esqueue])
      rw [ht.other q (by grind -ring -linarith)]
  | fail n h =>
    simp only [Kernel.set, Function.update_apply]
    split
    · rename_i hqn
      rw [hqn]
    · rfl
  | publish n h f hstat hdpri =>
    have hspec := enqueue_spec hstat hdpri
    by_cases hqp : q = n
    · rw [hqp]
      exact hspec.dpri
    · rw [hspec.other q hqp]
  | giveup p h ht =>
    have hp := hwf.cur p h
    rw [(giveup_spec ht).other q (by grind -ring -linarith)]
  | sleep p h e loop ht =>
    rw [sleep_spec ht]
    simp only [Kernel.set, Function.update_apply]
    split
    · rename_i hqp
      rw [hqp]
    · rfl
  | die p h =>
    simp only [Kernel.set, Function.update_apply]
    split
    · rename_i hqp
      rw [hqp]
    · rfl
  | reap p h =>
    simp only [Proc.reap, Kernel.set, Function.update_apply]
    split
    · rename_i hqp
      rw [hqp]
    · rfl
  | dispatch p hcur hs hdead hgone =>
    simp only [Kernel.set, Function.update_apply, (sched_proc hs).1]
    split
    · rename_i hqp
      rw [hqp]
    · rfl

/-- A queue only grows at its end, and loses its head to the process dispatched. -/
theorem Move.queue (hm : Move s t) (h : Entered s) (hwf : Wf s) (hs : s.scheme = .PRIORITY)
    (i : Nat) : (∃ l, t.rdyQDy i = s.rdyQDy i ++ l) ∨
      ∃ r, s.rdyQDy i = r :: t.rdyQDy i ∧ (t.proc r).stat = .SRUN := by
  cases hm with
  | frame h => exact Or.inl ⟨[], by rw [h.rdyQDy, List.append_nil]⟩
  | wake p h =>
    exact Or.inl ⟨_, (enqueue_spec (f := fun q => { q with stat := .READY }) rfl rfl).pri i⟩
  | alloc stack =>
    left
    refine ⟨[], ?_⟩
    rw [List.append_nil]
    rcases procalloc_spec s stack with ht | ⟨p, ht⟩
    · rw [ht]
    · rw [ht.rdyQDy]
  | publish n h f hstat hdpri => exact Or.inl ⟨_, (enqueue_spec hstat hdpri).pri i⟩
  | giveup p hcur ht =>
    left
    have hnot : p ∉ s.rdyQDy i := by
      intro hmem
      have hready := (((h.fit hwf hs).pri hs i).2 p hmem).1
      rw [hwf.cur p hcur] at hready
      cases hready
    have hback : (s.rdyQDy i ++ [p]).erase p = s.rdyQDy i := by
      rw [List.erase_append_right _ hnot]
      simp
    have hpri := (giveup_spec ht).pri hs i
    rw [hback, ite_self] at hpri
    exact ⟨_, hpri⟩
  | sleep p h e loop ht =>
    rw [sleep_spec ht]
    exact Or.inl ⟨[], (List.append_nil _).symm⟩
  | fail n h => exact Or.inl ⟨[], (List.append_nil _).symm⟩
  | die p h => exact Or.inl ⟨[], (List.append_nil _).symm⟩
  | reap p h => exact Or.inl ⟨[], (List.append_nil _).symm⟩
  | dispatch p hcur hsched hdead hgone =>
    rcases sched_some hcur hsched with ⟨hf, -⟩ | ⟨hf, -⟩ | ⟨-, j, l, hl, rfl⟩
    · rw [hs] at hf
      cases hf
    · rw [hs] at hf
      cases hf
    · simp only [Kernel.set, Function.update_apply]
      by_cases hij : i = j
      · right
        refine ⟨p, ?_, by simp⟩
        rw [if_pos hij, hij, hl]
      · left
        exact ⟨[], by rw [if_neg hij, List.append_nil]⟩

theorem Behind.move (hb : Behind s p q) (h : Entered s) (hwf : Wf s) (hs : s.scheme = .PRIORITY)
    (hq : (s.proc q).stat = .READY) (hm : Move s t) (hqt : (t.proc q).stat = .READY) :
    Behind t p q := by
  obtain ⟨l, m, hl, hp⟩ := hb
  have hindex := dyIndex_eq_of_dpri_eq (hm.dpri hwf hq hqt)
  unfold Behind
  rw [hindex]
  rcases hm.queue h hwf hs (dyIndex (s.proc q)) with ⟨k, hk⟩ | ⟨r, hr, hrun⟩
  · refine ⟨l, m ++ k, ?_, hp⟩
    rw [hk, hl]
    simp
  · rw [hl] at hr
    cases l with
    | nil =>
      obtain ⟨rfl, -⟩ := List.cons_eq_cons.mp hr
      rw [hqt] at hrun
      cases hrun
    | cons x l =>
      obtain ⟨-, hrest⟩ := List.cons_eq_cons.mp hr
      exact ⟨l, m, hrest.symm, fun hmem => hp (List.mem_cons_of_mem x hmem)⟩

theorem KeptReady.moves (h : KeptReady q s t) : Moves s t :=
  ReflTransGen.mono (fun _ _ h => h.1) s t h

theorem Behind.kept (hb : Behind s p q) (h : Entered s) (hwf : Wf s) (hs : s.scheme = .PRIORITY)
    (hq : (s.proc q).stat = .READY) (hk : KeptReady q s t) :
    (t.proc q).stat = .READY ∧ Behind t p q := by
  induction hk with
  | refl => exact ⟨hq, hb⟩
  | tail hk hm ih =>
    have hms := KeptReady.moves hk
    refine ⟨hm.2, ?_⟩
    exact ih.2.move (h.moves hwf hs hms) (hwf.moves hms) (hms.scheme.trans hs) ih.1 hm.1 hm.2

/-- An entry made later is not taken out before an earlier one of the same queue. -/
theorem Entered.fifo (h : Entered s) (hwf : Wf s) (hs : s.scheme = .PRIORITY)
    (hq : (s.proc q).stat = .READY) (hp : (s.proc p).stat ≠ .READY) (hk : KeptReady q s t)
    (hpt : (Proc.sched t).2 = some p) : (t.proc p).dpri < (t.proc q).dpri := by
  have hms := hk.moves
  have ht := h.moves hwf hs hms
  have hwft := hwf.moves hms
  have hst := hms.scheme.trans hs
  obtain ⟨hqt, l, m, hl, hpl⟩ := (h.behind hwf hs hq hp).kept h hwf hs hq hk
  refine lt_of_le_of_ne ((ht.min hwft hst hpt).2 q hqt) ?_
  intro heq
  have hsched : schedPriority t = ((Proc.sched t).1, some p) := by
    rw [← hpt, Proc.sched, hst]
  obtain ⟨i, k, hk, -⟩ := schedPriority_some hsched
  have hmem : p ∈ t.rdyQDy i := by
    rw [hk]
    exact List.mem_cons_self
  have hi := (((ht.fit hwft hst).pri hst i).2 p hmem).2
  rw [← dyIndex_eq_of_dpri_eq heq, hi, hk] at hl
  cases l with
  | nil =>
    obtain ⟨rfl, -⟩ := List.cons_eq_cons.mp hl
    exact hp hq
  | cons x l =>
    obtain ⟨rfl, -⟩ := List.cons_eq_cons.mp hl
    exact hpl List.mem_cons_self

/-- **Priority scheduling.**  Every label but `kill` and `select_scheme` keeps the entries,
    `giveup_cpu` finds the entry it moves, and `sched_priority` takes a ready process of
    smallest `p_dpri`; an earlier entry of the same priority is never passed over. -/
theorem priority_order (hwf : Wf s) (hs : s.scheme = .PRIORITY) (h : Entered s) :
    (∀ a t l, a.Orderly → Proc.exec s a = .ok (t, l) →
      Moves s t ∧ t.scheme = .PRIORITY ∧ Entered t) ∧
    (∀ p, s.cur = some p → ∃ t, giveupCpu s p = .ok t ∧ Entered t) ∧
    (∀ p, (Proc.sched s).2 = some p → (s.proc p).stat = .READY ∧
      ∀ q, (s.proc q).stat = .READY → (s.proc p).dpri ≤ (s.proc q).dpri) ∧
    ((Proc.sched s).2 = none → ∀ q, (s.proc q).stat ≠ .READY) ∧
    (∀ p q t, (s.proc q).stat = .READY → (s.proc p).stat ≠ .READY → KeptReady q s t →
      (Proc.sched t).2 = some p → (t.proc p).dpri < (t.proc q).dpri) := by
  refine ⟨?_, ?_, ?_, ?_, ?_⟩
  · intro a t l ha ht
    have hms := ha.moves ht
    exact ⟨hms, hms.scheme.trans hs, h.moves hwf hs hms⟩
  · intro p hcur
    obtain ⟨t, ht⟩ := giveup_possible hs p
    exact ⟨t, ht, h.moves hwf hs (ReflTransGen.single (Move.giveup p hcur ht))⟩
  · intro p hp
    exact h.min hwf hs hp
  · intro hp q
    exact h.idle hwf hs hp q
  · intro p q t hq hp hk hpt
    exact h.fifo hwf hs hq hp hk hpt

set_option maxRecDepth 20000 in
/-- The first process selects `PRIORITY` while its child is ready, and gives up the CPU. -/
theorem priority_order_fork :
    ∃ s, Run Step (userinit start 1)
        [.scheduler, .call (.fork (.pages 2)), .call (.selectScheme .PRIORITY true)] s ∧
      ∃ t, giveupCpu s ⟨0, by decide⟩ = .ok t ∧ Entered t ∧
        (sched t).2 = some ⟨1, by decide⟩ := by
  have key : ∀ {s : Kernel}, s.scheme = .PRIORITY → s.cur = some ⟨0, by decide⟩ →
      Run (fun s a t => Step s a t ∧ CleanSelect s a ∧ NoKillAsleep s a) (userinit start 1)
        [.scheduler, .call (.fork (.pages 2)), .call (.selectScheme .PRIORITY true)] s →
      (∀ t, giveupCpu s ⟨0, by decide⟩ = .ok t → (sched t).2 = some ⟨1, by decide⟩) →
      ∃ t, giveupCpu s ⟨0, by decide⟩ = .ok t ∧ Entered t ∧
        (sched t).2 = some ⟨1, by decide⟩ := by
    intro s hs hcur hrun hnext
    obtain ⟨hwf, h⟩ := entered_of_run hs hrun
    obtain ⟨t, ht, hent⟩ := (priority_order hwf hs h).2.1 _ hcur
    exact ⟨t, ht, hent, hnext t ht⟩
  refine ⟨_, Run.cons ⟨_, rfl⟩ (Run.cons ⟨_, rfl⟩ (Run.single ⟨_, rfl⟩)), key rfl rfl ?_ ?_⟩
  · refine Run.cons ⟨⟨_, rfl⟩, by simp [CleanSelect], by simp [NoKillAsleep]⟩
      (Run.cons ⟨⟨_, rfl⟩, by simp [CleanSelect], by simp [NoKillAsleep]⟩
        (Run.single ⟨⟨_, rfl⟩, fun _ => ⟨by simp, fun _ _ _ => rfl⟩, by simp [NoKillAsleep]⟩))
  · intro t ht
    cases ht
    rfl

end Yonix.Proc
