/-
  Yonix/Proc/Moves.lean
  =====================
  **What a step can do to the states and the queues.**

  Every label except `kill` and `select_scheme` is a sequence of the moves below:
  bookkeeping that leaves the states alone, waking a sleeper, allocating and
  publishing a slot, giving up the CPU, going to sleep, dying, reaping, and being
  dispatched.  An invariant of the scheduler is therefore proved once per move.
-/
import Yonix.Proc.Model

namespace Yonix.Proc

open Relation

/-! ### The moves -/

/-- Bookkeeping: states, priorities, queues and the running process stay. -/
structure Frame (s t : Kernel) : Prop where
  stat : ∀ p, (t.proc p).stat = (s.proc p).stat
  dpri : ∀ p, (t.proc p).dpri = (s.proc p).dpri
  resume : ∀ p, (t.proc p).resume = (s.proc p).resume ∨ (s.proc p).stat = .SRUN
  cur : t.cur = s.cur
  scheme : t.scheme = s.scheme
  rdyqueue : t.rdyqueue = s.rdyqueue
  rdyQDy : t.rdyQDy = s.rdyQDy
  esqueue : t.esqueue = s.esqueue

inductive Move (s : Kernel) : Kernel → Prop where
  | frame {t : Kernel} (h : Frame s t) : Move s t
  | wake (p : Slot) (h : (s.proc p).stat = .SSLEEPING) :
      Move s (enqueue (s.set p fun q => { q with stat := .READY }) p)
  | alloc (stack : Bool) : Move s (procalloc s stack).1
  | fail (n : Slot) (h : (s.proc n).stat = .SEMBRYO) :
      Move s { s.set n (fun q => { q with page := 0, stat := .SUNUSED }) with
        esqueue := s.esqueue ++ [n] }
  | publish (n : Slot) (h : (s.proc n).stat = .SEMBRYO) (f : Pcb → Pcb)
      (hstat : (f (s.proc n)).stat = .READY) (hdpri : (f (s.proc n)).dpri = (s.proc n).dpri) :
      Move s (enqueue (s.set n f) n)
  | giveup (p : Slot) (h : s.cur = some p) {t : Kernel} (ht : giveupCpu s p = .ok t) : Move s t
  | sleep (p : Slot) (h : s.cur = some p) (e : Option Chan) (loop : Loop) {t : Kernel}
      (ht : sleep s p e loop = .ok t) : Move s t
  | die (p : Slot) (h : s.cur = some p) :
      Move s { s.set p (fun q => { q with stat := .SZOMB, resume := .dead }) with cur := none }
  | reap (p : Slot) (h : (s.proc p).stat = .SZOMB) : Move s (reap s p)
  | dispatch (p : Slot) (hcur : s.cur = none) {u : Kernel} (hs : sched s = (u, some p))
      (hdead : (s.proc p).resume ≠ .dead) (hgone : (s.proc p).resume ≠ .gone) :
      Move s ({ u with cur := some p }.set p fun q => { q with stat := .SRUN })

abbrev Moves := ReflTransGen Move

/-! ### Bookkeeping -/

theorem Frame.refl (s : Kernel) : Frame s s := by
  constructor <;> first | exact fun _ => rfl | rfl | exact fun _ => Or.inl rfl

theorem Frame.trans {s t u : Kernel} (h1 : Frame s t) (h2 : Frame t u) : Frame s u := by
  constructor
  case resume =>
    intro p
    have := h1.stat p
    have := h1.resume p
    have := h2.resume p
    grind -ring -linarith
  all_goals grind -ring -linarith [Frame]

theorem Frame.moves {s t : Kernel} (h : Frame s t) : Moves s t := ReflTransGen.single (Move.frame h)

theorem frame_set {s : Kernel} {p : Slot} {f : Pcb → Pcb}
    (hstat : (f (s.proc p)).stat = (s.proc p).stat)
    (hdpri : (f (s.proc p)).dpri = (s.proc p).dpri)
    (hres : (f (s.proc p)).resume = (s.proc p).resume ∨ (s.proc p).stat = .SRUN) :
    Frame s (s.set p f) := by
  constructor <;> simp only [Kernel.set, Function.update_apply] <;> grind -ring -linarith

theorem timeslice_stat (scheme : Scheme) (q : Pcb) : (timeslice scheme q).stat = q.stat := by
  cases scheme <;> rfl

theorem timeslice_dpri (scheme : Scheme) (q : Pcb) : (timeslice scheme q).dpri = q.dpri := by
  cases scheme <;> rfl

theorem timeslice_resume (scheme : Scheme) (q : Pcb) :
    (timeslice scheme q).resume = q.resume := by
  cases scheme <;> rfl

theorem recalcTimeslice_frame (s : Kernel) : Frame s (recalcTimeslice s) := by
  unfold recalcTimeslice
  refine List.foldlRecOn slots _ (Frame.refl s) ?_
  intro t ht p _
  split
  · exact ht.trans (frame_set (timeslice_stat _ _) (timeslice_dpri _ _)
      (Or.inl (timeslice_resume _ _)))
  · exact ht

theorem incnice_frame (s : Kernel) (p : Slot) (n : Int) : Frame s (incnice s p n) := by
  unfold incnice
  dsimp only
  split
  · exact frame_set rfl rfl (Or.inl rfl)
  · exact Frame.refl s

/-! ### The operations as moves -/

theorem wakeup_moves (s : Kernel) (e : Option Chan) : Moves s (wakeup s e) := by
  unfold wakeup
  refine List.foldlRecOn slots _ ReflTransGen.refl ?_
  intro t ht p _
  split
  · rename_i h
    exact ht.tail (Move.wake p h.1)
  · exact ht

theorem enqueue_cur (s : Kernel) (p : Slot) : (enqueue s p).cur = s.cur := by
  unfold enqueue insertFifo insertDy
  split <;> rfl

theorem enqueue_proc (s : Kernel) (p : Slot) : (enqueue s p).proc = s.proc := by
  unfold enqueue insertFifo insertDy
  split <;> rfl

theorem wakeup_cur (s : Kernel) (e : Option Chan) : (wakeup s e).cur = s.cur := by
  unfold wakeup
  refine List.foldlRecOn (motive := fun t : Kernel => t.cur = s.cur) slots _ rfl ?_
  intro t ht p _
  split
  · rw [enqueue_cur]
    exact ht
  · exact ht

theorem reparent_moves (s : Kernel) (p : Slot) :
    Moves s (reparent s p) ∧ (reparent s p).cur = s.cur := by
  unfold reparent
  refine List.foldlRecOn (motive := fun t => Moves s t ∧ t.cur = s.cur) slots _
    ⟨ReflTransGen.refl, rfl⟩ ?_
  intro t ht q _
  dsimp only
  split
  · have hset : Moves s (t.set q fun x => { x with prt := some t.initproc }) :=
      ht.1.trans (frame_set rfl rfl (Or.inl rfl)).moves
    split
    · exact ⟨hset.trans (wakeup_moves _ _), (wakeup_cur _ _).trans ht.2⟩
    · exact ⟨hset, ht.2⟩
  · exact ht

theorem transform_eq_ok {s t : Kernel} {p : Slot} (h : transform s p = .ok t) :
    t = { s with cur := none } := by
  unfold transform at h
  split at h
  · cases h
  · cases h
    rfl

theorem exit_moves {s t : Kernel} {p : Slot} (hcur : s.cur = some p) (h : exit s p = .ok t) :
    Moves s t := by
  unfold exit at h
  split at h
  · cases h
  · rw [transform_eq_ok h]
    have hr := reparent_moves (wakeup s ((s.proc p).prt.map .proc)) p
    have hc : (reparent (wakeup s ((s.proc p).prt.map .proc)) p).cur = some p :=
      hr.2.trans ((wakeup_cur _ _).trans hcur)
    exact ((wakeup_moves s _).trans hr.1).tail (Move.die p hc)

theorem timesliceYield_moves {s t : Kernel} {p : Slot} (hcur : s.cur = some p)
    (h : timesliceYield s p = .ok t) : Moves s t := by
  unfold timesliceYield at h
  split at h
  · cases h
    exact ReflTransGen.refl
  · dsimp only at h
    have hf : Moves s (s.set p fun q =>
        { q with timeSlice := q.timeSlice - TIMER_INTERVAL, avgslp := max (-50) (q.avgslp - 1) }) :=
      (frame_set rfl rfl (Or.inl rfl)).moves
    split at h
    · refine hf.tail (Move.giveup p ?_ h)
      exact hcur
    · cases h
      exact hf

/-- The slot that `procalloc` hands out. -/
theorem procalloc_some {s t : Kernel} {stack : Bool} {n : Slot}
    (h : procalloc s stack = (t, some n)) : (t.proc n).stat = .SEMBRYO := by
  unfold procalloc at h
  split at h
  · cases h
  · dsimp only at h
    split at h
    · cases h
      simp only [Kernel.set, Function.update_self, timeslice_stat]
    · cases h

theorem fork_moves (s : Kernel) (p : Slot) (m : Mem) : Moves s (fork s p m) := by
  have halloc := ReflTransGen.single (Move.alloc (s := s) (m ≠ .noStack))
  unfold fork
  split
  · rename_i t h
    rw [h] at halloc
    exact halloc
  · rename_i t n h
    rw [h] at halloc
    have hn := procalloc_some h
    split
    · rename_i d
      have hlive : Frame t { t with live := Function.update t.live d true } := by
        constructor <;> first | exact fun _ => rfl | rfl | exact fun _ => Or.inl rfl
      refine (halloc.trans hlive.moves).tail (Move.publish n ?_ _ rfl rfl)
      exact hn
    · exact halloc.tail (Move.fail n hn)

theorem lwpCreate_moves (s : Kernel) (p : Slot) (stack : Bool) :
    Moves s (lwpCreate s p stack) := by
  have halloc := ReflTransGen.single (Move.alloc (s := s) stack)
  unfold lwpCreate
  split
  · rename_i t h
    rw [h] at halloc
    exact halloc
  · rename_i t n h
    rw [h] at halloc
    have hn := procalloc_some h
    dsimp only
    have hpage : Frame t (t.set n fun q => { q with page := (t.proc p).page }) :=
      frame_set rfl rfl (Or.inl rfl)
    split
    · exact halloc.trans hpage.moves
    · refine (halloc.trans hpage.moves).tail (Move.publish n ?_ _ rfl rfl)
      exact (hpage.stat n).trans hn

theorem waitLoop_moves {s t : Kernel} {p : Slot} {l : List Freed} (hcur : s.cur = some p)
    (h : waitLoop s p = .ok (t, l)) : Moves s t := by
  unfold waitLoop at h
  split at h
  · rename_i q hq
    have hz := List.find?_some hq
    simp only [decide_eq_true_eq] at hz
    cases h
    have hfree : Frame s (freeuvm s (s.proc q).page) := by
      constructor <;> first | exact fun _ => rfl | rfl | exact fun _ => Or.inl rfl
    exact hfree.moves.tail (Move.reap q hz.2)
  · split at h
    · cases h
      exact ReflTransGen.refl
    · obtain ⟨u, hu, h⟩ := bind_eq_ok.mp h
      cases h
      exact ReflTransGen.single (Move.sleep p hcur _ _ hu)

theorem joinLoop_moves {s t : Kernel} {p : Slot} {l : List Freed} (hcur : s.cur = some p)
    (h : joinLoop s p = .ok (t, l)) : Moves s t := by
  unfold joinLoop at h
  split at h
  · rename_i q hq
    have hz := List.find?_some hq
    simp only [decide_eq_true_eq] at hz
    cases h
    exact ReflTransGen.single (Move.reap q hz.2.2)
  · split at h
    · cases h
      exact ReflTransGen.refl
    · obtain ⟨u, hu, h⟩ := bind_eq_ok.mp h
      cases h
      exact ReflTransGen.single (Move.sleep p hcur _ _ hu)

theorem execImage_frame (s : Kernel) (p : Slot) (e : ExecEnd) : Frame s (execImage s p e).1 := by
  cases e <;> constructor <;>
    simp only [execImage, freeuvm, Kernel.set, Function.update_apply] <;> grind -ring -linarith

theorem sched_proc {s u : Kernel} {o : Option Slot} (h : sched s = (u, o)) :
    u.proc = s.proc ∧ u.scheme = s.scheme ∧ u.esqueue = s.esqueue ∧ u.cur = s.cur := by
  unfold sched schedFifo schedRr schedPriority at h
  split at h <;> split at h <;> (try split at h) <;> cases h <;> exact ⟨rfl, rfl, rfl, rfl⟩

theorem sched_none {s u : Kernel} (h : sched s = (u, none)) : Frame s u := by
  unfold sched schedFifo schedRr schedPriority at h
  split at h <;> split at h <;> (try split at h) <;> cases h <;>
    constructor <;> first | exact fun _ => rfl | rfl | exact fun _ => Or.inl rfl

theorem scheduler_moves {s t : Kernel} {l : List Freed} (hcur : s.cur = none)
    (h : scheduler s = .ok (t, l)) : Moves s t := by
  unfold scheduler at h
  split at h
  · rename_i u hu
    cases h
    exact (sched_none hu).moves
  · rename_i u p hu
    unfold switchTo at h
    dsimp only at h
    have hproc := (sched_proc hu).1
    split at h
    · cases h
    · have hdisp := fun h1 h2 => ReflTransGen.single (Move.dispatch p hcur hu h1 h2)
      have hrun : ∀ tick0, Frame ({ u with cur := some p }.set p fun q => { q with stat := .SRUN })
          (awake ({ u with cur := some p }.set p fun q => { q with stat := .SRUN }) p tick0) := by
        intro tick0
        refine frame_set rfl rfl (Or.inr ?_)
        simp only [Kernel.set, Function.update_self]
      have hres : (({ u with cur := some p }.set p fun q => { q with stat := .SRUN }).proc p).resume =
          (s.proc p).resume := by
        simp only [Kernel.set, Function.update_self, hproc]
      rw [hres] at h
      split at h <;> rename_i hat <;> simp only [hat, ne_eq, reduceCtorEq, not_false_eq_true,
        forall_const] at hdisp
      · cases h
        exact hdisp
      · cases h
        exact hdisp.trans (hrun _).moves
      · exact (hdisp.trans (hrun _).moves).trans (waitLoop_moves rfl h)
      · exact (hdisp.trans (hrun _).moves).trans (joinLoop_moves rfl h)
      · cases h
      · cases h

/-- **One step.**  Apart from `kill` and `select_scheme`, a step is a sequence of
    moves. -/
theorem exec_moves {s t : Kernel} {a : Act} {l : List Freed} (h : exec s a = .ok (t, l)) :
    Moves s t ∨ (∃ p pid, s.cur = some p ∧ a = .call (.kill pid) ∧ t = kill s pid) ∨
    (∃ p scheme slabEmpty, s.cur = some p ∧ a = .call (.selectScheme scheme slabEmpty) ∧
      selectScheme s p scheme slabEmpty = .ok t) := by
  cases a with
  | wakeup e =>
    simp only [exec, Except.ok.injEq, Prod.mk.injEq] at h
    obtain ⟨rfl, -⟩ := h
    exact Or.inl (wakeup_moves s e)
  | tick =>
    cases h
    left
    apply Frame.moves
    constructor <;> first | exact fun _ => rfl | rfl | exact fun _ => Or.inl rfl
  | scheduler =>
    simp only [exec] at h
    split at h
    · cases h
    · rename_i hcur
      exact Or.inl (scheduler_moves hcur h)
  | call c =>
    simp only [exec] at h
    split at h
    case h_2 => cases h
    case h_1 p hcur =>
      cases c with
      | fork m =>
        simp only [call] at h
        split at h <;> cases h
        exact Or.inl (fork_moves s p m)
      | lwpCreate stack =>
        cases h
        exact Or.inl (lwpCreate_moves s p stack)
      | exec e =>
        simp only [call] at h
        split at h
        · rw [Except.ok.injEq] at h
          have := execImage_frame s p e
          rw [h] at this
          exact Or.inl this.moves
        · cases h
      | exit =>
        obtain ⟨u, hu, h⟩ := bind_eq_ok.mp h
        cases h
        exact Or.inl (exit_moves hcur hu)
      | wait => exact Or.inl (waitLoop_moves hcur h)
      | lwpJoin => exact Or.inl (joinLoop_moves hcur h)
      | sleep e =>
        obtain ⟨u, hu, h⟩ := bind_eq_ok.mp h
        cases h
        exact Or.inl (ReflTransGen.single (Move.sleep p hcur e .once hu))
      | kill pid =>
        cases h
        exact Or.inr (Or.inl ⟨p, pid, hcur, rfl, rfl⟩)
      | giveupCpu =>
        obtain ⟨u, hu, h⟩ := bind_eq_ok.mp h
        cases h
        exact Or.inl (ReflTransGen.single (Move.giveup p hcur hu))
      | timesliceYield =>
        obtain ⟨u, hu, h⟩ := bind_eq_ok.mp h
        cases h
        exact Or.inl (timesliceYield_moves hcur hu)
      | selectScheme scheme slabEmpty =>
        obtain ⟨u, hu, h⟩ := bind_eq_ok.mp h
        cases h
        exact Or.inr (Or.inr ⟨p, scheme, slabEmpty, hcur, rfl, hu⟩)
      | recalcTimeslice =>
        simp only [call, Except.ok.injEq, Prod.mk.injEq] at h
        obtain ⟨rfl, -⟩ := h
        exact Or.inl (recalcTimeslice_frame s).moves
      | incnice n =>
        cases h
        exact Or.inl (incnice_frame s p n).moves

end Yonix.Proc
