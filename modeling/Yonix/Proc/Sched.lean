/-
  Yonix/Proc/Sched.lean
  =====================
  **The scheduler over whole runs.**

  `Wf` holds in every run: free slots are unused, the running process is in state
  `SRUN`, and priorities index one of the forty queues.  Two properties of the ready
  queues are added to it.  `Fit` says that the queue of the current scheme holds
  ready processes only, each once; it makes every dispatch go to a ready process,
  and it survives as long as no scheme is selected whose queue still has entries.
  `Queued` says that every ready process has an entry; it survives as long as `kill`
  does not make a sleeping process ready under a scheme that has a queue.
-/
import Yonix.Proc.Moves

namespace Yonix.Proc

open Relation

/-! ### Well-formed tables -/

structure Wf (s : Kernel) : Prop where
  nodup : s.esqueue.Nodup
  free : ∀ p ∈ s.esqueue, (s.proc p).stat = .SUNUSED
  cur : ∀ p, s.cur = some p → (s.proc p).stat = .SRUN
  gone : ∀ p, (s.proc p).stat = .SUNUSED ∨ (s.proc p).stat = .SEMBRYO →
    (s.proc p).resume = .gone
  dead : ∀ p, (s.proc p).stat = .SZOMB → (s.proc p).resume = .dead
  dpri : ∀ p, (s.proc p).stat ≠ .SUNUSED → MAX_RT_PRI ≤ (s.proc p).dpri ∧ (s.proc p).dpri < PRI_NUM
  top : ∀ i, NQUEUE ≤ i → s.rdyQDy i = []

theorem dynamicPri_range (a b : Int) : MAX_RT_PRI ≤ dynamicPri a b ∧ dynamicPri a b < PRI_NUM := by
  unfold dynamicPri MAX_RT_PRI PRI_NUM
  omega

theorem dyIndex_lt {q : Pcb} (h : MAX_RT_PRI ≤ q.dpri ∧ q.dpri < PRI_NUM) : dyIndex q < NQUEUE := by
  unfold dyIndex NQUEUE
  unfold MAX_RT_PRI PRI_NUM at *
  omega

/-- What `giveup_cpu` does.  Under `PRIORITY` the process is put into the queue of its
    old priority and moved from there to the queue of its new one. -/
structure GaveUp (s t : Kernel) (p : Slot) : Prop where
  cur : t.cur = none
  scheme : t.scheme = s.scheme
  esqueue : t.esqueue = s.esqueue
  stat : (t.proc p).stat = .READY
  resume : (t.proc p).resume = .user
  other : ∀ q, q ≠ p → t.proc q = s.proc q
  dpri : (t.proc p).dpri = (s.proc p).dpri ∨
    (MAX_RT_PRI ≤ (t.proc p).dpri ∧ (t.proc p).dpri < PRI_NUM)
  fifo : s.scheme = .FIFO → t.rdyqueue = s.rdyqueue ++ [p]
  dy : ∀ i, t.rdyQDy i = s.rdyQDy i ∨ s.scheme = .PRIORITY
  pri : s.scheme = .PRIORITY → ∀ i, t.rdyQDy i =
    (if i = dyIndex (s.proc p) then (s.rdyQDy i ++ [p]).erase p else s.rdyQDy i) ++
      (if i = dyIndex (t.proc p) then [p] else [])

theorem giveup_spec {s t : Kernel} {p : Slot} (h : giveupCpu s p = .ok t) : GaveUp s t p := by
  obtain ⟨u, hu, h⟩ := bind_eq_ok.mp h
  rw [transform_eq_ok h]
  unfold enqueue after at hu
  cases hs : s.scheme with
  | FIFO =>
    simp only [Kernel.set, hs, insertFifo] at hu
    cases hu
    constructor <;> simp [timeslice, Function.update_apply] <;> grind -ring -linarith
  | RR =>
    simp only [Kernel.set, hs] at hu
    cases hu
    constructor <;> simp [timeslice, Function.update_apply, hs] <;> grind -ring -linarith
  | PRIORITY =>
    simp only [Kernel.set, hs, insertDy, dyIndex, timeslice, Function.update_self] at hu
    split at hu
    · cases hu
      constructor
      case dpri =>
        right
        simp only [Function.update_self]
        exact dynamicPri_range _ _
      case pri =>
        intro _ i
        simp only [Function.update_self, Function.update_apply, dyIndex]
        split_ifs <;> simp_all
      all_goals simp [Function.update_apply, hs] <;> grind -ring -linarith
    · cases hu

/-- Where the process comes from that a scheme function switches to. -/
theorem sched_some {s u : Kernel} {p : Slot} (hcur : s.cur = none) (h : sched s = (u, some p)) :
    (s.scheme = .FIFO ∧ ∃ l, s.rdyqueue = p :: l ∧ u = { s with rdyqueue := l }) ∨
    (s.scheme = .RR ∧ (s.proc p).stat = .READY ∧ u = { s with rr := p + 1 }) ∨
    (s.scheme = .PRIORITY ∧ ∃ i l, s.rdyQDy i = p :: l ∧
      u = { s with rdyQDy := Function.update s.rdyQDy i l }) := by
  unfold sched at h
  split at h <;> rename_i hs
  · left
    unfold schedFifo at h
    split at h
    · rename_i q hq
      rw [hcur] at hq
      cases hq
    · split at h
      · cases h
      · rename_i q l hq
        cases h
        exact ⟨hs, l, hq, rfl⟩
  · right
    left
    unfold schedRr at h
    split at h
    · rename_i q hq
      cases h
      refine ⟨hs, ?_, rfl⟩
      have := List.find?_some hq
      simpa using this
    · cases h
  · right
    right
    unfold schedPriority at h
    split at h
    · cases h
    · rename_i i hi
      split at h
      · cases h
      · rename_i q l hq
        cases h
        exact ⟨hs, i, l, hq, rfl⟩

/-- Making a slot ready and calling `enqueue` on it. -/
structure Readied (s t : Kernel) (p : Slot) : Prop where
  stat : (t.proc p).stat = .READY
  dpri : (t.proc p).dpri = (s.proc p).dpri
  other : ∀ q, q ≠ p → t.proc q = s.proc q
  cur : t.cur = s.cur
  scheme : t.scheme = s.scheme
  esqueue : t.esqueue = s.esqueue
  fifo : t.rdyqueue = s.rdyqueue ++ (if s.scheme = .FIFO then [p] else [])
  pri : ∀ i, t.rdyQDy i = s.rdyQDy i ++
    (if s.scheme = .PRIORITY ∧ i = dyIndex (s.proc p) then [p] else [])

theorem enqueue_spec {s : Kernel} {p : Slot} {f : Pcb → Pcb} (hstat : (f (s.proc p)).stat = .READY)
    (hdpri : (f (s.proc p)).dpri = (s.proc p).dpri) : Readied s (enqueue (s.set p f) p) p := by
  unfold enqueue insertFifo insertDy Kernel.set
  cases hs : s.scheme with
  | FIFO => constructor <;> simp only [hs, Function.update_apply] <;> grind -ring -linarith
  | RR => constructor <;> simp only [hs, Function.update_apply] <;> grind -ring -linarith
  | PRIORITY =>
    constructor <;> simp only [hs, Function.update_apply, dyIndex, hdpri] <;> grind -ring -linarith

/-- What `procalloc` does when there is a free slot. -/
structure Alloced (s t : Kernel) (p : Slot) (stack : Bool) : Prop where
  esqueue : s.esqueue = p :: t.esqueue
  other : ∀ q, q ≠ p → t.proc q = s.proc q
  stat : (t.proc p).stat = if stack then .SEMBRYO else .SUNUSED
  resume : (t.proc p).resume = (s.proc p).resume
  dpri : MAX_RT_PRI ≤ (t.proc p).dpri ∧ (t.proc p).dpri < PRI_NUM
  cur : t.cur = s.cur
  scheme : t.scheme = s.scheme
  rdyqueue : t.rdyqueue = s.rdyqueue
  rdyQDy : t.rdyQDy = s.rdyQDy

theorem procalloc_spec (s : Kernel) (stack : Bool) :
    (procalloc s stack).1 = s ∨ ∃ p, Alloced s (procalloc s stack).1 p stack := by
  unfold procalloc
  split
  · exact Or.inl rfl
  · rename_i p l hl
    right
    refine ⟨p, ?_⟩
    dsimp only
    split <;> rename_i hstack <;> constructor <;>
      simp only [Kernel.set, Function.update_apply, hl, hstack, timeslice_stat, timeslice_resume,
        if_true, if_false, Bool.false_eq_true] <;>
      first | exact dynamicPri_range _ _ | grind -ring -linarith

theorem sleep_spec {s t : Kernel} {p : Slot} {e : Option Chan} {loop : Loop}
    (h : sleep s p e loop = .ok t) :
    t = { s.set p (fun q => { q with chan := e, stat := .SSLEEPING, resume := .slept s.ticks loop })
      with cur := none } := transform_eq_ok h

theorem Wf.readied {s t : Kernel} {p : Slot} (h : Wf s) (hr : Readied s t p)
    (hp : (s.proc p).stat = .SSLEEPING ∨ (s.proc p).stat = .SEMBRYO) : Wf t := by
  obtain ⟨h1, h2, h3, h4, h5, h6, h7, h8⟩ := hr
  have hdpri := h.dpri p (by grind -ring -linarith)
  have hlt := dyIndex_lt hdpri
  constructor <;> grind -ring -linarith [Wf]

theorem Wf.move {s t : Kernel} (h : Wf s) (hm : Move s t) : Wf t := by
  cases hm with
  | frame hf =>
    obtain ⟨h1, h2, h3, h4, h5, h6, h7, h8⟩ := hf
    constructor <;> grind -ring -linarith [Wf]
  | wake p hp =>
    exact h.readied (enqueue_spec rfl rfl) (Or.inl hp)
  | alloc stack =>
    rcases procalloc_spec s stack with ht | ⟨p, h1, h2, h3, h4, h5, h6, h7, h8, h9⟩
    · rw [ht]
      exact h
    · have hp : (s.proc p).stat = .SUNUSED := h.free p (by simp [h1])
      constructor <;> grind -ring -linarith [Wf]
  | fail n hn =>
    constructor <;> simp only [Kernel.set, Function.update_apply] <;> grind -ring -linarith [Wf]
  | publish n hn f hstat hdpri =>
    exact h.readied (enqueue_spec hstat hdpri) (Or.inr hn)
  | giveup p hcur hg =>
    obtain ⟨h1, h2, h3, h4, h5, h6, h7, h8, h9, h10⟩ := giveup_spec hg
    have hp := h.cur p hcur
    have hdpri := h.dpri p (by simp [hp])
    constructor
    case top =>
      intro i hi
      have hold := dyIndex_lt hdpri
      have hnew : dyIndex (t.proc p) < NQUEUE := dyIndex_lt (by grind -ring -linarith)
      have := h.top i hi
      grind -ring -linarith
    all_goals grind -ring -linarith [Wf]
  | sleep p hcur e loop hsl =>
    have hp := h.cur p hcur
    rw [sleep_spec hsl]
    constructor <;> simp only [Kernel.set, Function.update_apply] <;> grind -ring -linarith [Wf]
  | die p hcur =>
    have hp := h.cur p hcur
    constructor <;> simp only [Kernel.set, Function.update_apply] <;> grind -ring -linarith [Wf]
  | reap p hp =>
    constructor <;> simp only [reap, Kernel.set, Function.update_apply] <;> grind -ring -linarith [Wf]
  | dispatch p hcur hs hdead hgone =>
    rcases sched_some hcur hs with ⟨-, l, hl, rfl⟩ | ⟨-, -, rfl⟩ | ⟨-, i, l, hl, rfl⟩ <;>
      constructor <;> simp only [Kernel.set, Function.update_apply] <;> grind -ring -linarith [Wf]

/-! ### `select_scheme` and `kill` -/

def readySlots (s : Kernel) : List Slot := slots.filter fun p => (s.proc p).stat = .READY

theorem foldl_insertFifo (l : List Slot) (s : Kernel) :
    l.foldl (fun s p => if (s.proc p).stat = .READY then insertFifo s p else s) s =
      { s with rdyqueue := s.rdyqueue ++ l.filter fun p => (s.proc p).stat = .READY } := by
  induction l generalizing s with
  | nil => simp
  | cons p l ih =>
    rw [List.foldl_cons, ih, List.filter_cons]
    by_cases hp : (s.proc p).stat = .READY
    · simp [hp, insertFifo]
    · simp [hp]

theorem foldl_insertDy (l : List Slot) (s : Kernel) :
    l.foldl (fun s p => if (s.proc p).stat = .READY then insertDy s p else s) s =
      { s with rdyQDy := fun i => s.rdyQDy i ++
          (l.filter fun p => (s.proc p).stat = .READY).filter fun p => dyIndex (s.proc p) = i } := by
  induction l generalizing s with
  | nil => simp
  | cons p l ih =>
    rw [List.foldl_cons, ih, List.filter_cons]
    by_cases hp : (s.proc p).stat = .READY
    · simp only [hp, if_true, insertDy, decide_true, List.filter_cons]
      congr 1
      funext i
      by_cases hi : dyIndex (s.proc p) = i
      · simp [hi]
      · simp [hi, Function.update_of_ne (Ne.symm hi)]
    · simp [hp]

/-- What `select_scheme` leaves in the queues: what was there, less what the scheme's
    `init` took out, and an entry for every ready process. -/
theorem selectScheme_spec {s t : Kernel} {p : Slot} {scheme : Scheme} {slabEmpty : Bool}
    (h : selectScheme s p scheme slabEmpty = .ok t) :
    (scheme = .RR ∧ t = { s with scheme := .RR }) ∨
    (scheme = .FIFO ∧ ∃ l, (s.rdyqueue = [] → l = []) ∧
      t = { s with scheme := .FIFO, rdyqueue := l ++ readySlots s }) ∨
    (scheme = .PRIORITY ∧ ∃ l, t = { s with
      scheme := .PRIORITY, rdyqueue := l
      rdyQDy := fun i => s.rdyQDy i ++
        (readySlots s).filter fun p => dyIndex (s.proc p) = i }) := by
  unfold selectScheme schedInit at h
  cases scheme with
  | RR =>
    cases h
    exact Or.inl ⟨rfl, rfl⟩
  | FIFO =>
    right
    left
    obtain ⟨l, hl, h⟩ := bind_eq_ok.mp h
    have ht : rebuild insertFifo { s with scheme := .FIFO, rdyqueue := l } = t := by
      simpa [pure, Except.pure] using h
    refine ⟨rfl, l, ?_, ?_⟩
    · intro hempty
      dsimp only at hl
      rw [hempty] at hl
      cases hl
      rfl
    · rw [← ht, rebuild, foldl_insertFifo]
      rfl
  | PRIORITY =>
    right
    right
    refine ⟨rfl, ?_⟩
    dsimp only at h
    split at h
    · rw [Except.ok.injEq] at h
      refine ⟨s.rdyqueue, ?_⟩
      rw [← h, rebuild, foldl_insertDy]
      rfl
    · split at h
      · rw [Except.ok.injEq] at h
        refine ⟨s.rdyqueue.tail, ?_⟩
        rw [← h, rebuild, foldl_insertDy]
        rfl
      · cases h

theorem mem_readySlots {s : Kernel} {p : Slot} :
    p ∈ readySlots s ↔ (s.proc p).stat = .READY := by
  simp [readySlots, slots, List.mem_finRange]

theorem nodup_readySlots (s : Kernel) : (readySlots s).Nodup :=
  (List.nodup_finRange NPROC).filter _

theorem Wf.select {s t : Kernel} {p : Slot} {scheme : Scheme} {slabEmpty : Bool} (h : Wf s)
    (ht : selectScheme s p scheme slabEmpty = .ok t) : Wf t := by
  rcases selectScheme_spec ht with ⟨-, rfl⟩ | ⟨-, l, -, rfl⟩ | ⟨-, l, rfl⟩
  · exact ⟨h.nodup, h.free, h.cur, h.gone, h.dead, h.dpri, h.top⟩
  · exact ⟨h.nodup, h.free, h.cur, h.gone, h.dead, h.dpri, h.top⟩
  · refine ⟨h.nodup, h.free, h.cur, h.gone, h.dead, h.dpri, ?_⟩
    intro i hi
    rw [List.append_eq_nil_iff, List.filter_eq_nil_iff]
    refine ⟨h.top i hi, ?_⟩
    intro q hq hqi
    have hready := mem_readySlots.mp hq
    have := dyIndex_lt (h.dpri q (by simp [hready]))
    simp only [decide_eq_true_eq] at hqi
    omega

theorem Wf.kill {s : Kernel} (h : Wf s) (pid : Nat) : Wf (kill s pid) := by
  unfold Proc.kill
  split
  · constructor <;> simp only [Kernel.set, Function.update_apply] <;> grind -ring -linarith [Wf]
  · exact h

theorem Wf.moves {s t : Kernel} (h : Wf s) (hm : Moves s t) : Wf t := by
  induction hm with
  | refl => exact h
  | tail _ hm ih => exact ih.move hm

theorem Wf.exec {s t : Kernel} {a : Act} {l : List Freed} (h : Wf s)
    (hx : exec s a = .ok (t, l)) : Wf t := by
  rcases exec_moves hx with hm | ⟨p, pid, -, -, rfl⟩ | ⟨p, scheme, slabEmpty, -, -, ht⟩
  · exact h.moves hm
  · exact h.kill pid
  · exact h.select ht

theorem Wf.start : Wf start := by
  constructor <;> simp [Proc.start, unused, slots, List.nodup_finRange]

theorem userinit_moves (s : Kernel) (d : Nat) : Moves s (userinit s d) := by
  have halloc := ReflTransGen.single (Move.alloc (s := s) true)
  unfold userinit
  split
  · rename_i t h
    rw [h] at halloc
    exact halloc
  · rename_i t n h
    rw [h] at halloc
    have hn := procalloc_some h
    have hlive : Frame t { t with initproc := n, live := Function.update t.live d true } := by
      constructor <;> first | exact fun _ => rfl | rfl | exact fun _ => Or.inl rfl
    refine (halloc.trans hlive.moves).tail (Move.publish n ?_ _ rfl rfl)
    exact hn

/-! ### Only ready processes are dispatched -/

/-- The queue of the current scheme holds ready processes, each of them once and,
    under `PRIORITY`, under its own priority. -/
structure Fit (s : Kernel) : Prop where
  wf : Wf s
  fifo : s.scheme = .FIFO → s.rdyqueue.Nodup ∧ ∀ p ∈ s.rdyqueue, (s.proc p).stat = .READY
  pri : s.scheme = .PRIORITY → ∀ i, (s.rdyQDy i).Nodup ∧
    ∀ p ∈ s.rdyQDy i, (s.proc p).stat = .READY ∧ dyIndex (s.proc p) = i

theorem Fit.sched {s u : Kernel} {p : Slot} (h : Fit s) (hcur : s.cur = none)
    (hs : sched s = (u, some p)) : (s.proc p).stat = .READY := by
  rcases sched_some hcur hs with ⟨hf, l, hl, -⟩ | ⟨-, hp, -⟩ | ⟨hf, i, l, hl, -⟩
  · apply (h.fifo hf).2
    rw [hl]
    exact List.mem_cons_self
  · exact hp
  · apply ((h.pri hf i).2 p _).1
    rw [hl]
    exact List.mem_cons_self

theorem Fit.readied {s t : Kernel} {p : Slot} (h : Fit s) (hr : Readied s t p)
    (hp : (s.proc p).stat = .SSLEEPING ∨ (s.proc p).stat = .SEMBRYO) : Fit t := by
  refine ⟨h.wf.readied hr hp, ?_, ?_⟩
  · intro hf
    obtain ⟨hnd, hready⟩ := h.fifo (hr.scheme.symm.trans hf)
    have hnot : p ∉ s.rdyqueue := by
      intro hmem
      have := hready p hmem
      grind -ring -linarith
    obtain ⟨h1, h2, h3, h4, h5, h6, h7, h8⟩ := hr
    grind -ring -linarith
  · intro hf i
    obtain ⟨hnd, hready⟩ := h.pri (hr.scheme.symm.trans hf) i
    have hnot : p ∉ s.rdyQDy i := by
      intro hmem
      have := hready p hmem
      grind -ring -linarith
    obtain ⟨h1, h2, h3, h4, h5, h6, h7, h8⟩ := hr
    have h8i := h8 i
    simp only [dyIndex] at *
    grind -ring -linarith

/-- A change that makes no ready process unready and moves no queue. -/
theorem Fit.of_ready {s t : Kernel} (h : Fit s) (hwf : Wf t) (hscheme : t.scheme = s.scheme)
    (hq : t.rdyqueue = s.rdyqueue) (hdy : t.rdyQDy = s.rdyQDy)
    (hready : ∀ p, (s.proc p).stat = .READY →
      (t.proc p).stat = .READY ∧ (t.proc p).dpri = (s.proc p).dpri) : Fit t := by
  refine ⟨hwf, ?_, ?_⟩
  · intro hf
    obtain ⟨hnd, hall⟩ := h.fifo (hscheme.symm.trans hf)
    rw [hq]
    exact ⟨hnd, fun p hp => (hready p (hall p hp)).1⟩
  · intro hf i
    obtain ⟨hnd, hall⟩ := h.pri (hscheme.symm.trans hf) i
    rw [hdy]
    refine ⟨hnd, ?_⟩
    intro p hp
    obtain ⟨hp1, hp2⟩ := hall p hp
    refine ⟨(hready p hp1).1, ?_⟩
    rw [dyIndex, (hready p hp1).2]
    exact hp2

theorem Fit.giveup {s t : Kernel} {p : Slot} (h : Fit s) (hcur : s.cur = some p)
    (hg : giveupCpu s p = .ok t) : Fit t := by
  have hrun := h.wf.cur p hcur
  have hwf := h.wf.move (Move.giveup p hcur hg)
  have hspec := giveup_spec hg
  refine ⟨hwf, ?_, ?_⟩
  · intro hf
    have hs := hspec.scheme.symm.trans hf
    obtain ⟨hnd, hready⟩ := h.fifo hs
    have hnot : p ∉ s.rdyqueue := by
      intro hmem
      have := hready p hmem
      grind -ring -linarith
    rw [hspec.fifo hs]
    refine ⟨by grind -ring -linarith, ?_⟩
    intro q hq
    rcases List.mem_append.mp hq with hq | hq
    · rw [hspec.other q (by grind -ring -linarith)]
      exact hready q hq
    · rw [List.mem_singleton.mp hq]
      exact hspec.stat
  · intro hf i
    have hs := hspec.scheme.symm.trans hf
    have hnot : ∀ j, p ∉ s.rdyQDy j := by
      intro j hmem
      have := ((h.pri hs j).2 p hmem).1
      grind -ring -linarith
    obtain ⟨hnd, hready⟩ := h.pri hs i
    -- the entry just put in is the one that is taken out again
    have hback : (s.rdyQDy i ++ [p]).erase p = s.rdyQDy i := by
      rw [List.erase_append_right _ (hnot i)]
      simp
    have hi := hspec.pri hs i
    rw [hback, ite_self] at hi
    rw [hi]
    have := hspec.stat
    have hother := hspec.other
    constructor
    · grind -ring -linarith
    · intro q hq
      rcases List.mem_append.mp hq with hq | hq
      · rw [hother q (by grind -ring -linarith)]
        exact hready q hq
      · grind -ring -linarith

theorem Fit.move {s t : Kernel} (h : Fit s) (hm : Move s t) : Fit t := by
  have hwf := h.wf.move hm
  cases hm with
  | frame hf =>
    refine h.of_ready hwf hf.scheme hf.rdyqueue hf.rdyQDy ?_
    intro p hp
    exact ⟨(hf.stat p).trans hp, hf.dpri p⟩
  | wake p hp => exact h.readied (enqueue_spec rfl rfl) (Or.inl hp)
  | alloc stack =>
    rcases procalloc_spec s stack with ht | ⟨p, ha⟩
    · rw [ht]
      exact h
    · have hp : (s.proc p).stat = .SUNUSED := h.wf.free p (by simp [ha.esqueue])
      refine h.of_ready hwf ha.scheme ha.rdyqueue ha.rdyQDy ?_
      intro q hq
      rw [ha.other q (by grind -ring -linarith)]
      exact ⟨hq, rfl⟩
  | fail n hn =>
    refine h.of_ready hwf rfl rfl rfl ?_
    intro q hq
    simp only [Kernel.set, Function.update_apply]
    grind -ring -linarith
  | publish n hn f hstat hdpri => exact h.readied (enqueue_spec hstat hdpri) (Or.inr hn)
  | giveup p hcur hg => exact h.giveup hcur hg
  | sleep p hcur e loop hsl =>
    have hp := h.wf.cur p hcur
    rw [sleep_spec hsl] at hwf ⊢
    refine h.of_ready hwf rfl rfl rfl ?_
    intro q hq
    simp only [Kernel.set, Function.update_apply]
    grind -ring -linarith
  | die p hcur =>
    have hp := h.wf.cur p hcur
    refine h.of_ready hwf rfl rfl rfl ?_
    intro q hq
    simp only [Kernel.set, Function.update_apply]
    grind -ring -linarith
  | reap p hp =>
    refine h.of_ready hwf rfl rfl rfl ?_
    intro q hq
    simp only [reap, Kernel.set, Function.update_apply]
    grind -ring -linarith
  | dispatch p hcur hs hdead hgone =>
    refine ⟨hwf, ?_, ?_⟩
    · intro hf
      rcases sched_some hcur hs with ⟨hs1, l, hl, rfl⟩ | ⟨hs1, hp, rfl⟩ | ⟨hs1, i, l, hl, rfl⟩
      · obtain ⟨hnd, hready⟩ := h.fifo hs1
        simp only [Kernel.set, Function.update_apply]
        grind -ring -linarith
      · simp only [Kernel.set] at hf
        rw [hs1] at hf
        cases hf
      · simp only [Kernel.set] at hf
        rw [hs1] at hf
        cases hf
    · intro hf j
      rcases sched_some hcur hs with ⟨hs1, l, hl, rfl⟩ | ⟨hs1, hp, rfl⟩ | ⟨hs1, i, l, hl, rfl⟩
      · simp only [Kernel.set] at hf
        rw [hs1] at hf
        cases hf
      · simp only [Kernel.set] at hf
        rw [hs1] at hf
        cases hf
      · obtain ⟨hnd, hready⟩ := h.pri hs1 j
        obtain ⟨hndi, hreadyi⟩ := h.pri hs1 i
        simp only [Kernel.set, Function.update_apply, dyIndex] at *
        grind -ring -linarith

theorem Fit.kill {s : Kernel} (h : Fit s) (pid : Nat) : Fit (kill s pid) := by
  have hwf := h.wf.kill pid
  unfold Proc.kill at hwf ⊢
  split
  · rename_i p hp
    rw [hp] at hwf
    refine h.of_ready hwf rfl rfl rfl ?_
    intro q hq
    simp only [Kernel.set, Function.update_apply]
    grind -ring -linarith
  · exact h

/-- The label selects no scheme whose queue still has entries. -/
def CleanSelect (s : Kernel) (a : Act) : Prop :=
  ∀ slabEmpty,
    (a = .call (.selectScheme .FIFO slabEmpty) → s.rdyqueue = []) ∧
    (a = .call (.selectScheme .PRIORITY slabEmpty) → ∀ i, i < NQUEUE → s.rdyQDy i = [])

theorem Fit.select {s t : Kernel} {p : Slot} {scheme : Scheme} {slabEmpty : Bool} (h : Fit s)
    (hc : CleanSelect s (.call (.selectScheme scheme slabEmpty)))
    (ht : selectScheme s p scheme slabEmpty = .ok t) : Fit t := by
  have hwf := h.wf.select ht
  rcases selectScheme_spec ht with ⟨-, rfl⟩ | ⟨rfl, l, hl, rfl⟩ | ⟨rfl, l, rfl⟩
  · exact ⟨hwf, by simp, by simp⟩
  · refine ⟨hwf, ?_, by simp⟩
    intro _
    rw [hl ((hc slabEmpty).1 rfl), List.nil_append]
    exact ⟨nodup_readySlots s, fun q hq => mem_readySlots.mp hq⟩
  · refine ⟨hwf, by simp, ?_⟩
    intro _ i
    have hempty : s.rdyQDy i = [] := by
      by_cases hi : i < NQUEUE
      · exact (hc slabEmpty).2 rfl i hi
      · exact h.wf.top i (Nat.le_of_not_lt hi)
    simp only [hempty, List.nil_append]
    refine ⟨(nodup_readySlots s).filter _, ?_⟩
    intro q hq
    rw [List.mem_filter, decide_eq_true_eq] at hq
    exact ⟨mem_readySlots.mp hq.1, hq.2⟩

theorem Fit.moves {s t : Kernel} (h : Fit s) (hm : Moves s t) : Fit t := by
  induction hm with
  | refl => exact h
  | tail _ hm ih => exact ih.move hm

theorem Fit.exec {s t : Kernel} {a : Act} {l : List Freed} (h : Fit s) (hc : CleanSelect s a)
    (hx : exec s a = .ok (t, l)) : Fit t := by
  rcases exec_moves hx with hm | ⟨p, pid, -, -, rfl⟩ | ⟨p, scheme, slabEmpty, -, rfl, ht⟩
  · exact h.moves hm
  · exact h.kill pid
  · exact h.select hc ht

theorem Fit.start : Fit start := ⟨Wf.start, by simp [Proc.start], by simp [Proc.start]⟩

theorem Fit.userinit (d : Nat) : Fit (userinit Proc.start d) :=
  Fit.start.moves (userinit_moves Proc.start d)

/-- **Dispatch.**  In a run in which no scheme is selected whose ready queue still has
    entries, every scheme function switches to a ready process. -/
theorem dispatches_ready {d : Nat} {as : List Act} {s : Kernel}
    (hrun : Run (fun s a t => Step s a t ∧ CleanSelect s a) (userinit start d) as s) :
    s.cur = none → ∀ p, (sched s).2 = some p → (s.proc p).stat = .READY := by
  have hfit : Fit s := by
    refine hrun.invariant Fit (Fit.userinit d) ?_
    intro t a u ht hstep
    obtain ⟨⟨l, hl⟩, hc⟩ := hstep
    exact ht.exec hc hl
  intro hcur p hp
  exact hfit.sched hcur (Prod.ext rfl hp)

set_option maxRecDepth 20000 in
theorem dispatches_ready_fork :
    ∃ s, Run (fun s a t => Step s a t ∧ CleanSelect s a) (userinit start 1)
        [.scheduler, .call (.fork (.pages 2)), .call (.selectScheme .FIFO true),
          .call (.sleep (some (.addr 7)))] s ∧
      s.cur = none ∧ (sched s).2 = some ⟨1, by decide⟩ ∧
      (s.proc ⟨1, by decide⟩).stat = .READY := by
  have hrun : Run (fun s a t => Step s a t ∧ CleanSelect s a) (userinit start 1)
      [.scheduler, .call (.fork (.pages 2)), .call (.selectScheme .FIFO true),
        .call (.sleep (some (.addr 7)))] _ :=
    Run.cons ⟨⟨_, rfl⟩, by simp [CleanSelect]⟩ (Run.cons ⟨⟨_, rfl⟩, by simp [CleanSelect]⟩
      (Run.cons ⟨⟨_, rfl⟩, fun _ => ⟨fun _ => rfl, by simp⟩⟩
        (Run.single ⟨⟨_, rfl⟩, by simp [CleanSelect]⟩)))
  exact ⟨_, hrun, rfl, rfl, dispatches_ready hrun rfl _ rfl⟩

set_option maxRecDepth 20000 in
/-- Selecting `FIFO` twice enters the forked child twice.  It goes to sleep on its
    first turn, and the second entry switches to it while it sleeps. -/
theorem sleeping_process_dispatched :
    ∃ s, Run Step (userinit start 1)
        [.scheduler, .call (.fork (.pages 2)), .call (.selectScheme .FIFO true),
          .call (.selectScheme .FIFO true), .call (.sleep (some (.addr 7))), .scheduler,
          .call (.sleep (some (.addr 8)))] s ∧
      s.cur = none ∧ (sched s).2 = some ⟨1, by decide⟩ ∧
      (s.proc ⟨1, by decide⟩).stat = .SSLEEPING := by
  refine ⟨_, Run.cons ⟨_, rfl⟩ (Run.cons ⟨_, rfl⟩ (Run.cons ⟨_, rfl⟩ (Run.cons ⟨_, rfl⟩
    (Run.cons ⟨_, rfl⟩ (Run.cons ⟨_, rfl⟩ (Run.single ⟨_, rfl⟩)))))), rfl, rfl, rfl⟩

/-! ### No ready process is lost -/

/-- Every ready process has an entry in the queue of the current scheme. -/
structure Queued (s : Kernel) : Prop where
  wf : Wf s
  fifo : s.scheme = .FIFO → ∀ p, (s.proc p).stat = .READY → p ∈ s.rdyqueue
  pri : s.scheme = .PRIORITY → ∀ p, (s.proc p).stat = .READY → p ∈ s.rdyQDy (dyIndex (s.proc p))

/-- A change that makes nobody ready and takes away no entry. -/
theorem Queued.of_ready {s t : Kernel} (h : Queued s) (hwf : Wf t) (hscheme : t.scheme = s.scheme)
    (hready : ∀ p, (t.proc p).stat = .READY →
      (s.proc p).stat = .READY ∧ (t.proc p).dpri = (s.proc p).dpri)
    (hq : ∀ p, (t.proc p).stat = .READY → p ∈ s.rdyqueue → p ∈ t.rdyqueue)
    (hdy : ∀ i p, (t.proc p).stat = .READY → p ∈ s.rdyQDy i → p ∈ t.rdyQDy i) : Queued t := by
  refine ⟨hwf, ?_, ?_⟩
  · intro hf p hp
    exact hq p hp (h.fifo (hscheme.symm.trans hf) p (hready p hp).1)
  · intro hf p hp
    obtain ⟨hp1, hp2⟩ := hready p hp
    rw [dyIndex, hp2]
    exact hdy _ p hp (h.pri (hscheme.symm.trans hf) p hp1)

theorem Queued.readied {s t : Kernel} {p : Slot} (h : Queued s) (hwf : Wf t)
    (hr : Readied s t p) : Queued t := by
  obtain ⟨h1, h2, h3, h4, h5, h6, h7, h8⟩ := hr
  refine ⟨hwf, ?_, ?_⟩
  · intro hf q hq
    have := h.fifo (h5.symm.trans hf) q
    grind -ring -linarith
  · intro hf q hq
    have := h.pri (h5.symm.trans hf) q
    have h8q := h8 (dyIndex (t.proc q))
    simp only [dyIndex] at *
    grind -ring -linarith

theorem Queued.giveup {s t : Kernel} {p : Slot} (h : Queued s) (hwf : Wf t)
    (hg : GaveUp s t p) : Queued t := by
  refine ⟨hwf, ?_, ?_⟩
  · intro hf q hq
    have hs := hg.scheme.symm.trans hf
    rw [hg.fifo hs]
    by_cases hqp : q = p
    · simp [hqp]
    · rw [hg.other q hqp] at hq
      exact List.mem_append_left _ (h.fifo hs q hq)
  · intro hf q hq
    have hs := hg.scheme.symm.trans hf
    rw [hg.pri hs]
    by_cases hqp : q = p
    · simp [hqp]
    · rw [hg.other q hqp] at hq ⊢
      have hmem := h.pri hs q hq
      apply List.mem_append_left
      split
      · rw [List.mem_erase_of_ne hqp]
        exact List.mem_append_left _ hmem
      · exact hmem

theorem Queued.move {s t : Kernel} (h : Queued s) (hm : Move s t) : Queued t := by
  have hwf := h.wf.move hm
  cases hm with
  | frame hf =>
    refine h.of_ready hwf hf.scheme ?_ ?_ ?_
    · intro p hp
      exact ⟨(hf.stat p).symm.trans hp, hf.dpri p⟩
    · intro p _ hp
      rw [hf.rdyqueue]
      exact hp
    · intro i p _ hp
      rw [hf.rdyQDy]
      exact hp
  | wake p hp => exact h.readied hwf (enqueue_spec rfl rfl)
  | alloc stack =>
    rcases procalloc_spec s stack with ht | ⟨p, ha⟩
    · rw [ht]
      exact h
    · refine h.of_ready hwf ha.scheme ?_ ?_ ?_
      · intro q hq
        by_cases hqp : q = p
        · rw [hqp, ha.stat] at hq
          split at hq <;> cases hq
        · rw [ha.other q hqp] at hq ⊢
          exact ⟨hq, rfl⟩
      · intro q _ hq
        rw [ha.rdyqueue]
        exact hq
      · intro i q _ hq
        rw [ha.rdyQDy]
        exact hq
  | fail n hn =>
    refine h.of_ready hwf rfl ?_ (fun _ _ hq => hq) (fun _ _ _ hq => hq)
    intro q hq
    simp only [Kernel.set, Function.update_apply] at hq ⊢
    grind -ring -linarith
  | publish n hn f hstat hdpri => exact h.readied hwf (enqueue_spec hstat hdpri)
  | giveup p hcur hg => exact h.giveup hwf (giveup_spec hg)
  | sleep p hcur e loop hsl =>
    rw [sleep_spec hsl] at hwf ⊢
    refine h.of_ready hwf rfl ?_ (fun _ _ hq => hq) (fun _ _ _ hq => hq)
    intro q hq
    simp only [Kernel.set, Function.update_apply] at hq ⊢
    grind -ring -linarith
  | die p hcur =>
    refine h.of_ready hwf rfl ?_ (fun _ _ hq => hq) (fun _ _ _ hq => hq)
    intro q hq
    simp only [Kernel.set, Function.update_apply] at hq ⊢
    grind -ring -linarith
  | reap p hp =>
    refine h.of_ready hwf rfl ?_ (fun _ _ hq => hq) (fun _ _ _ hq => hq)
    intro q hq
    simp only [reap, Kernel.set, Function.update_apply] at hq ⊢
    grind -ring -linarith
  | dispatch p hcur hs hdead hgone =>
    -- the entry that goes is one of the process that stops being ready
    rcases sched_some hcur hs with ⟨hs1, l, hl, rfl⟩ | ⟨hs1, hp, rfl⟩ | ⟨hs1, i, l, hl, rfl⟩
    · refine h.of_ready hwf rfl ?_ ?_ (fun _ _ _ hq => hq)
      · intro q hq
        simp only [Kernel.set, Function.update_apply] at hq ⊢
        grind -ring -linarith
      · intro q hq hmem
        simp only [Kernel.set, Function.update_apply] at hq ⊢
        grind -ring -linarith
    · refine h.of_ready hwf rfl ?_ (fun _ _ hq => hq) (fun _ _ _ hq => hq)
      intro q hq
      simp only [Kernel.set, Function.update_apply] at hq ⊢
      grind -ring -linarith
    · refine h.of_ready hwf rfl ?_ (fun _ _ hq => hq) ?_
      · intro q hq
        simp only [Kernel.set, Function.update_apply] at hq ⊢
        grind -ring -linarith
      · intro j q hq hmem
        simp only [Kernel.set, Function.update_apply] at hq ⊢
        grind -ring -linarith

/-- The label kills no sleeping process under a scheme that has a queue. -/
def NoKillAsleep (s : Kernel) (a : Act) : Prop :=
  ∀ pid p, a = .call (.kill pid) → (slots.find? fun p => (s.proc p).pid = pid) = some p →
    s.scheme ≠ .RR → (s.proc p).stat ≠ .SSLEEPING

theorem Queued.kill {s : Kernel} {pid : Nat} (h : Queued s)
    (hc : NoKillAsleep s (.call (.kill pid))) : Queued (kill s pid) := by
  have hwf := h.wf.kill pid
  unfold Proc.kill at hwf ⊢
  split
  · rename_i p hp
    rw [hp] at hwf
    by_cases hrr : s.scheme = .RR
    · exact ⟨hwf, by simp [Kernel.set, hrr], by simp [Kernel.set, hrr]⟩
    · have hstat := hc pid p rfl hp hrr
      refine h.of_ready hwf rfl ?_ (fun _ _ hq => hq) (fun _ _ _ hq => hq)
      intro q hq
      simp only [Kernel.set, Function.update_apply] at hq ⊢
      grind -ring -linarith
  · exact h

theorem Queued.select {s t : Kernel} {p : Slot} {scheme : Scheme} {slabEmpty : Bool} (h : Queued s)
    (ht : selectScheme s p scheme slabEmpty = .ok t) : Queued t := by
  have hwf := h.wf.select ht
  rcases selectScheme_spec ht with ⟨-, rfl⟩ | ⟨rfl, l, hl, rfl⟩ | ⟨rfl, l, rfl⟩
  · exact ⟨hwf, by simp, by simp⟩
  · refine ⟨hwf, ?_, by simp⟩
    intro _ q hq
    exact List.mem_append_right _ (mem_readySlots.mpr hq)
  · refine ⟨hwf, by simp, ?_⟩
    intro _ q hq
    apply List.mem_append_right
    rw [List.mem_filter, decide_eq_true_eq]
    exact ⟨mem_readySlots.mpr hq, rfl⟩

theorem Queued.moves {s t : Kernel} (h : Queued s) (hm : Moves s t) : Queued t := by
  induction hm with
  | refl => exact h
  | tail _ hm ih => exact ih.move hm

theorem Queued.exec {s t : Kernel} {a : Act} {l : List Freed} (h : Queued s)
    (hc : NoKillAsleep s a) (hx : exec s a = .ok (t, l)) : Queued t := by
  rcases exec_moves hx with hm | ⟨p, pid, -, rfl, rfl⟩ | ⟨p, scheme, slabEmpty, -, -, ht⟩
  · exact h.moves hm
  · exact h.kill hc
  · exact h.select ht

/-- **No ready process is lost.**  In a run that kills no sleeping process under
    `FIFO` or `PRIORITY`, every ready process is in the queue of the current scheme,
    under a priority that the scheduler looks at. -/
theorem ready_is_queued {d : Nat} {as : List Act} {s : Kernel}
    (hrun : Run (fun s a t => Step s a t ∧ NoKillAsleep s a) (userinit start d) as s) :
    (s.scheme = .FIFO → ∀ p, (s.proc p).stat = .READY → p ∈ s.rdyqueue) ∧
    (s.scheme = .PRIORITY → ∀ p, (s.proc p).stat = .READY →
      dyIndex (s.proc p) < NQUEUE ∧ p ∈ s.rdyQDy (dyIndex (s.proc p))) := by
  have hinit : Queued (userinit start d) :=
    Queued.moves ⟨Wf.start, by simp [start], by simp [start]⟩ (userinit_moves start d)
  have hq : Queued s := by
    refine hrun.invariant Queued hinit ?_
    intro t a u ht hstep
    obtain ⟨⟨l, hl⟩, hc⟩ := hstep
    exact ht.exec hc hl
  refine ⟨hq.fifo, ?_⟩
  intro hs p hp
  exact ⟨dyIndex_lt (hq.wf.dpri p (by simp [hp])), hq.pri hs p hp⟩

set_option maxRecDepth 20000 in
theorem ready_is_queued_fork :
    ∃ s, Run (fun s a t => Step s a t ∧ NoKillAsleep s a) (userinit start 1)
        [.scheduler, .call (.selectScheme .FIFO true), .call (.fork (.pages 2))] s ∧
      s.scheme = .FIFO ∧ (s.proc ⟨1, by decide⟩).stat = .READY ∧ ⟨1, by decide⟩ ∈ s.rdyqueue := by
  have hrun : Run (fun s a t => Step s a t ∧ NoKillAsleep s a) (userinit start 1)
      [.scheduler, .call (.selectScheme .FIFO true), .call (.fork (.pages 2))] _ :=
    Run.cons ⟨⟨_, rfl⟩, by simp [NoKillAsleep]⟩ (Run.cons ⟨⟨_, rfl⟩, by simp [NoKillAsleep]⟩
      (Run.single ⟨⟨_, rfl⟩, by simp [NoKillAsleep]⟩))
  exact ⟨_, hrun, rfl, rfl, (ready_is_queued hrun).1 rfl _ rfl⟩

set_option maxRecDepth 20000 in
/-- Under `FIFO` the first process sleeps, its child kills it, and it is ready with no
    entry in the queue. -/
theorem killed_process_lost :
    ∃ s, Run Step (userinit start 1)
        [.scheduler, .call (.selectScheme .FIFO true), .call (.fork (.pages 2)),
          .call (.sleep (some (.addr 7))), .scheduler, .call (.kill 1)] s ∧
      s.scheme = .FIFO ∧ (s.proc ⟨0, by decide⟩).stat = .READY ∧
      ⟨0, by decide⟩ ∉ s.rdyqueue := by
  refine ⟨_, Run.cons ⟨_, rfl⟩ (Run.cons ⟨_, rfl⟩ (Run.cons ⟨_, rfl⟩ (Run.cons ⟨_, rfl⟩
    (Run.cons ⟨_, rfl⟩ (Run.single ⟨_, rfl⟩))))), rfl, rfl, ?_⟩
  exact List.not_mem_nil

end Yonix.Proc
