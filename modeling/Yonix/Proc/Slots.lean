/-
  Yonix/Proc/Slots.lean
  =====================
  **The free slots.**

  Whether a slot is free is written down twice, in its `p_stat` and in `esqueue`.
  `procalloc` takes the slot out of `esqueue` first; if it then gets no kernel stack it
  sets `p_stat` back to `SUNUSED` and returns, and nobody puts the slot back.  Such a
  slot is `Lost`: it is never handed out again.

  That is the only way.  A run ends with `esqueue` holding exactly the unused slots, each
  once, if and only if in none of its steps `kalloc` failed on a `procalloc` that had
  taken a slot (`slots_conserved_iff`).
-/
import Yonix.Proc.Family

namespace Yonix.Proc

/-! ### Lost slots -/

/-- `esqueue` holds exactly the unused slots, each once. -/
def Conserved (s : Kernel) : Prop :=
  s.esqueue.Nodup ∧ ∀ p, p ∈ s.esqueue ↔ (s.proc p).stat = .SUNUSED

def Lost (s : Kernel) (p : Slot) : Prop := (s.proc p).stat = .SUNUSED ∧ p ∉ s.esqueue

theorem Wf.conserved_iff {s : Kernel} (h : Wf s) : Conserved s ↔ ∀ p, ¬ Lost s p := by
  constructor
  · rintro ⟨-, hmem⟩ p ⟨hst, hout⟩
    exact hout ((hmem p).mpr hst)
  · intro hlost
    refine ⟨h.nodup, fun p => ⟨h.free p, ?_⟩⟩
    intro hst
    by_contra hout
    exact hlost p ⟨hst, hout⟩

/-- No slot is lost and none is found again. -/
def Keeps (s t : Kernel) : Prop := ∀ p, Lost t p ↔ Lost s p

theorem Keeps.refl (s : Kernel) : Keeps s s := fun _ => Iff.rfl

theorem Keeps.trans {s t u : Kernel} (h1 : Keeps s t) (h2 : Keeps t u) : Keeps s u :=
  fun p => (h2 p).trans (h1 p)

/-- Which slots are unused, and which of them are queued, stays the same. -/
structure SameSlots (s t : Kernel) : Prop where
  esqueue : t.esqueue = s.esqueue
  unused : ∀ p, (t.proc p).stat = .SUNUSED ↔ (s.proc p).stat = .SUNUSED

namespace SameSlots

variable {s t u : Kernel}

theorem keeps (h : SameSlots s t) : Keeps s t := by
  intro p
  simp only [Lost, h.esqueue, h.unused]

theorem refl (s : Kernel) : SameSlots s s := ⟨rfl, fun _ => Iff.rfl⟩

theorem trans (h1 : SameSlots s t) (h2 : SameSlots t u) : SameSlots s u :=
  ⟨h2.esqueue.trans h1.esqueue, fun p => (h2.unused p).trans (h1.unused p)⟩

theorem of_frame (h : Frame s t) : SameSlots s t :=
  ⟨h.esqueue, fun p => by rw [h.stat p]⟩

/-- The status of one slot changes, from one that is not `SUNUSED` to another. -/
theorem of_one {p : Slot} (hesq : t.esqueue = s.esqueue)
    (hother : ∀ q, q ≠ p → t.proc q = s.proc q) (hs : (s.proc p).stat ≠ .SUNUSED)
    (ht : (t.proc p).stat ≠ .SUNUSED) : SameSlots s t := by
  refine ⟨hesq, fun q => ?_⟩
  by_cases hq : q = p
  · rw [hq]
    exact ⟨fun h => absurd h ht, fun h => absurd h hs⟩
  · rw [hother q hq]

theorem of_set {p : Slot} {f : Pcb → Pcb} (hs : (s.proc p).stat ≠ .SUNUSED)
    (ht : (f (s.proc p)).stat ≠ .SUNUSED) : SameSlots s (s.set p f) :=
  of_one (p := p) rfl (fun q hq => by simp [Kernel.set, hq]) hs (by simpa [Kernel.set] using ht)

theorem of_readied {p : Slot} (h : Readied s t p) (hs : (s.proc p).stat ≠ .SUNUSED) :
    SameSlots s t :=
  of_one h.esqueue h.other hs (by simp [h.stat])

end SameSlots

/-! ### The operations that leave the slots alone -/

theorem wakeup_sameSlots (s : Kernel) (e : Option Chan) : SameSlots s (wakeup s e) := by
  unfold wakeup
  refine List.foldlRecOn slots _ (SameSlots.refl s) ?_
  intro t ht p _
  split
  · rename_i h
    exact ht.trans (.of_readied (enqueue_spec rfl rfl) (by simp [h.1]))
  · exact ht

theorem reparent_sameSlots (s : Kernel) (p : Slot) : SameSlots s (reparent s p) := by
  unfold reparent
  refine List.foldlRecOn slots _ (SameSlots.refl s) ?_
  intro t ht q _
  dsimp only
  split
  · have hset : SameSlots s (t.set q fun x => { x with prt := some t.initproc }) :=
      ht.trans (.of_frame (frame_set rfl rfl (Or.inl rfl)))
    split
    · exact hset.trans (wakeup_sameSlots _ _)
    · exact hset
  · exact ht

theorem sleep_sameSlots {s t : Kernel} {p : Slot} {e : Option Chan} {loop : Loop}
    (hp : (s.proc p).stat = .SRUN) (h : sleep s p e loop = .ok t) : SameSlots s t := by
  rw [sleep_spec h]
  refine .of_one (p := p) rfl (fun q hq => ?_) (by simp [hp]) ?_
  · simp [Kernel.set, hq]
  · simp [Kernel.set]

theorem exit_sameSlots {s t : Kernel} {p : Slot} (hp : (s.proc p).stat = .SRUN)
    (h : exit s p = .ok t) : SameSlots s t := by
  unfold exit at h
  split at h
  · cases h
  · dsimp only at h
    have h1 : SameSlots s (reparent (wakeup s ((s.proc p).prt.map .proc)) p) :=
      (wakeup_sameSlots _ _).trans (reparent_sameSlots _ _)
    generalize reparent (wakeup s ((s.proc p).prt.map .proc)) p = u at h h1
    rw [transform_eq_ok h]
    have hp' : (u.proc p).stat ≠ .SUNUSED := by
      rw [ne_eq, h1.unused p, hp]
      simp
    refine h1.trans (.of_one (p := p) rfl (fun q hq => ?_) hp' ?_)
    · simp [Kernel.set, hq]
    · simp [Kernel.set]

theorem giveup_sameSlots {s t : Kernel} {p : Slot} (hp : (s.proc p).stat = .SRUN)
    (h : giveupCpu s p = .ok t) : SameSlots s t := by
  have hg := giveup_spec h
  exact .of_one hg.esqueue hg.other (by simp [hp]) (by simp [hg.stat])

theorem timesliceYield_sameSlots {s t : Kernel} {p : Slot} (hp : (s.proc p).stat = .SRUN)
    (h : timesliceYield s p = .ok t) : SameSlots s t := by
  unfold timesliceYield at h
  split at h
  · cases h
    exact .refl s
  · dsimp only at h
    have hset : SameSlots s (s.set p fun q => { q with
        timeSlice := q.timeSlice - TIMER_INTERVAL, avgslp := max (-50) (q.avgslp - 1) }) :=
      .of_set (by simp [hp]) (by simp [hp])
    split at h
    · refine hset.trans (giveup_sameSlots ?_ h)
      simp only [Kernel.set, Function.update_self, hp]
    · cases h
      exact hset

theorem kill_sameSlots (s : Kernel) (pid : Nat) : SameSlots s (kill s pid) := by
  unfold kill
  split
  · rename_i p _
    refine ⟨rfl, fun q => ?_⟩
    by_cases hq : q = p
    · subst hq
      simp only [Kernel.set, Function.update_self]
      split
      · rename_i hsl
        simp [hsl]
      · exact Iff.rfl
    · simp [Kernel.set, hq]
  · exact .refl s

theorem select_sameSlots {s t : Kernel} {p : Slot} {scheme : Scheme} {slabEmpty : Bool}
    (h : selectScheme s p scheme slabEmpty = .ok t) : SameSlots s t := by
  rcases selectScheme_spec h with ⟨-, rfl⟩ | ⟨-, l, -, rfl⟩ | ⟨-, l, rfl⟩
  · exact ⟨rfl, fun _ => Iff.rfl⟩
  · exact ⟨rfl, fun _ => Iff.rfl⟩
  · exact ⟨rfl, fun _ => Iff.rfl⟩

/-! ### Reaping -/

theorem reap_keeps {s : Kernel} {q : Slot} (h : (s.proc q).stat = .SZOMB) : Keeps s (reap s q) := by
  intro p
  by_cases hp : p = q
  · subst hp
    simp [Lost, reap, Kernel.set, h]
  · simp [Lost, reap, Kernel.set, hp]

theorem waitLoop_keeps {s t : Kernel} {p : Slot} {l : List Freed} (hp : (s.proc p).stat = .SRUN)
    (h : waitLoop s p = .ok (t, l)) : Keeps s t := by
  unfold waitLoop at h
  split at h
  · rename_i q hq
    cases h
    have hz := List.find?_some hq
    simp only [decide_eq_true_eq] at hz
    exact reap_keeps (s := freeuvm s (s.proc q).page) hz.2
  · split at h
    · cases h
      exact .refl s
    · obtain ⟨u, hu, h⟩ := bind_eq_ok.mp h
      cases h
      exact (sleep_sameSlots hp hu).keeps

theorem joinLoop_keeps {s t : Kernel} {p : Slot} {l : List Freed} (hp : (s.proc p).stat = .SRUN)
    (h : joinLoop s p = .ok (t, l)) : Keeps s t := by
  unfold joinLoop at h
  split at h
  · rename_i q hq
    cases h
    have hz := List.find?_some hq
    simp only [decide_eq_true_eq] at hz
    exact reap_keeps hz.2.2
  · split at h
    · cases h
      exact .refl s
    · obtain ⟨u, hu, h⟩ := bind_eq_ok.mp h
      cases h
      exact (sleep_sameSlots hp hu).keeps

/-! ### Making a process -/

theorem procalloc_nil {s : Kernel} (h : s.esqueue = []) (stack : Bool) :
    procalloc s stack = (s, none) := by
  simp [procalloc, h]

theorem procalloc_cons {s : Kernel} (h : s.esqueue ≠ []) (stack : Bool) :
    ∃ n, Alloced s (procalloc s stack).1 n stack ∧
      (procalloc s stack).2 = if stack then some n else none := by
  rcases procalloc_spec s stack with heq | ⟨n, hn⟩
  · unfold procalloc at heq ⊢
    split at heq
    · rename_i hnil
      exact absurd hnil h
    · rename_i n l hl
      have hesq : ((s.esqueue).length : Nat) = l.length := by
        rw [← congrArg (fun s : Kernel => s.esqueue.length) heq]
        dsimp only
        split <;> rfl
      rw [hl] at hesq
      simp at hesq
  · refine ⟨n, hn, ?_⟩
    have hesq := hn.esqueue
    unfold procalloc
    rw [hesq]
    dsimp only
    split <;> rfl

theorem Alloced.keeps {s t u : Kernel} {n : Slot} (h : Alloced s t n true)
    (hesq : u.esqueue = t.esqueue) (hother : ∀ q, q ≠ n → u.proc q = t.proc q)
    (hn : (u.proc n).stat ≠ .SUNUSED) : Keeps s u := by
  intro p
  by_cases hp : p = n
  · subst hp
    simp [Lost, hn, h.esqueue]
  · simp [Lost, hother p hp, h.other p hp, hesq, h.esqueue, hp]

/-- The slot whose `procalloc` gets no stack. -/
theorem Alloced.loses {s t : Kernel} {n : Slot} (h : Alloced s t n false)
    (hnd : s.esqueue.Nodup) : Lost t n ∧ ∀ p, Lost s p → Lost t p := by
  rw [h.esqueue] at hnd
  refine ⟨⟨by simp [h.stat], (List.nodup_cons.mp hnd).1⟩, ?_⟩
  rintro p ⟨hst, hout⟩
  rw [h.esqueue, List.mem_cons, not_or] at hout
  exact ⟨by rw [h.other p hout.1]; exact hst, hout.2⟩

theorem enqueue_esqueue (s : Kernel) (p : Slot) : (enqueue s p).esqueue = s.esqueue := by
  unfold enqueue insertFifo insertDy
  split <;> rfl

/-- What a call that makes a process does to the free slots: nothing, take the first
    one, or take it and put it back at the end. -/
theorem fork_slots {s : Kernel} (p : Slot) {m : Mem} (hm : m ≠ .noStack) :
    Keeps s (fork s p m) ∧
      ((∀ d, m ≠ .pages d) → (fork s p m).esqueue.length = s.esqueue.length) := by
  by_cases hnil : s.esqueue = []
  · simp only [fork, procalloc_nil hnil]
    exact ⟨.refl s, fun _ => trivial⟩
  · obtain ⟨n, hn, ho⟩ := procalloc_cons hnil true
    unfold fork
    simp only [hm, ne_eq, not_false_eq_true, decide_true]
    generalize procalloc s true = r at hn ho
    obtain ⟨t, o⟩ := r
    simp only [if_true] at ho hn
    subst ho
    cases m with
    | noStack => exact absurd rfl hm
    | noPages =>
      refine ⟨fun q => ?_, fun _ => by simp [hn.esqueue]⟩
      by_cases hq : q = n
      · subst hq
        simp [Lost, hn.esqueue]
      · simp [Lost, Kernel.set, hq, hn.esqueue, hn.other q hq]
    | pages d =>
      refine ⟨hn.keeps ?_ ?_ ?_, fun h => absurd rfl (h d)⟩
      · rw [enqueue_esqueue]
        rfl
      · intro q hq
        rw [enqueue_proc]
        simp [Kernel.set, hq]
      · rw [enqueue_proc]
        simp [Kernel.set]

theorem lwpCreate_keeps (s : Kernel) (p : Slot) : Keeps s (lwpCreate s p true) := by
  by_cases hnil : s.esqueue = []
  · simp only [lwpCreate, procalloc_nil hnil]
    exact .refl s
  · obtain ⟨n, hn, ho⟩ := procalloc_cons hnil true
    unfold lwpCreate
    generalize procalloc s true = r at hn ho
    obtain ⟨t, o⟩ := r
    simp only [if_true] at ho hn
    subst ho
    dsimp only
    split
    · refine hn.keeps rfl ?_ ?_
      · intro q hq
        simp [Kernel.set, hq]
      · simp [Kernel.set, hn.stat]
    · refine hn.keeps ?_ ?_ ?_
      · rw [enqueue_esqueue]
        rfl
      · intro q hq
        rw [enqueue_proc]
        simp [Kernel.set, hq]
      · rw [enqueue_proc]
        simp [Kernel.set]

theorem userinit_keeps (s : Kernel) (d : Nat) : Keeps s (userinit s d) := by
  by_cases hnil : s.esqueue = []
  · simp only [userinit, procalloc_nil hnil]
    exact .refl s
  · obtain ⟨n, hn, ho⟩ := procalloc_cons hnil true
    unfold userinit
    generalize procalloc s true = r at hn ho
    obtain ⟨t, o⟩ := r
    simp only [if_true] at ho hn
    subst ho
    refine hn.keeps ?_ ?_ ?_
    · rw [enqueue_esqueue]
      rfl
    · intro q hq
      rw [enqueue_proc]
      simp [Kernel.set, hq]
    · rw [enqueue_proc]
      simp [Kernel.set]

/-- A call that makes a process, without a stack, is its `procalloc` alone. -/
theorem fork_noStack (s : Kernel) (p : Slot) : fork s p .noStack = (procalloc s false).1 := by
  unfold fork
  simp only [ne_eq, not_true_eq_false, decide_false]
  by_cases hnil : s.esqueue = []
  · rw [procalloc_nil hnil]
  · obtain ⟨n, -, ho⟩ := procalloc_cons hnil false
    generalize procalloc s false = r at ho
    obtain ⟨t, o⟩ := r
    simp only [Bool.false_eq_true, if_false] at ho
    subst ho
    rfl

theorem lwpCreate_noStack (s : Kernel) (p : Slot) :
    lwpCreate s p false = (procalloc s false).1 := by
  unfold lwpCreate
  by_cases hnil : s.esqueue = []
  · rw [procalloc_nil hnil]
  · obtain ⟨n, -, ho⟩ := procalloc_cons hnil false
    generalize procalloc s false = r at ho
    obtain ⟨t, o⟩ := r
    simp only [Bool.false_eq_true, if_false] at ho
    subst ho
    rfl

/-! ### The steps -/

inductive SlotAct where
  | act (a : Act)
  | procalloc (stack : Bool)
  | userinit (stack : Bool) (page : Option Nat)

/-- Any label of the kernel, a call of `procalloc`, and `userinit`, which does not test
    what `procalloc` returns and panics if `setupkvm` fails. -/
def slotExec (s : Kernel) : SlotAct → Except Stop Kernel
  | .act a => do
    let r ← exec s a
    return r.1
  | .procalloc stack => .ok (procalloc s stack).1
  | .userinit stack page =>
    match (procalloc s stack).2, page with
    | none, _ => .error .stray
    | some _, none => .error (.panic .userinitSetupkvm)
    | some _, some d => if s.Fresh d then .ok (userinit s d) else .error .notCalled

def SlotStep (s : Kernel) (a : SlotAct) (t : Kernel) : Prop := slotExec s a = .ok t

/-- The label calls `procalloc`, and its `kalloc` returns 0. -/
def noStack : SlotAct → Bool
  | .act (.call (.fork .noStack)) => true
  | .act (.call (.lwpCreate false)) => true
  | .procalloc false => true
  | _ => false

/-- A slot is taken from `esqueue` and `kalloc` has no page for its stack. -/
def Leaks (s : Kernel) (a : SlotAct) : Prop := noStack a = true ∧ s.esqueue ≠ []

def KeptStep (s : Kernel) (a : SlotAct) (t : Kernel) : Prop := ¬ Leaks s a ∧ SlotStep s a t

theorem userinit_eq {s t : Kernel} {stack : Bool} {page : Option Nat}
    (h : SlotStep s (.userinit stack page) t) : ∃ d, s.Fresh d ∧ t = userinit s d := by
  simp only [SlotStep, slotExec] at h
  split at h
  · cases h
  · cases h
  · rename_i d _
    split at h
    · rename_i hd
      exact ⟨d, hd, (Except.ok.inj h).symm⟩
    · cases h

theorem act_eq {s t : Kernel} {a : Act} (h : SlotStep s (.act a) t) :
    ∃ l, exec s a = .ok (t, l) := by
  obtain ⟨⟨u, l⟩, hu, h⟩ := bind_eq_ok.mp h
  cases h
  exact ⟨l, hu⟩

theorem Wf.slotStep {s t : Kernel} {a : SlotAct} (hs : Wf s) (h : SlotStep s a t) : Wf t := by
  cases a with
  | act a =>
    obtain ⟨l, hl⟩ := act_eq h
    exact hs.exec hl
  | procalloc stack =>
    cases h
    exact hs.move (Move.alloc stack)
  | userinit stack page =>
    obtain ⟨d, -, rfl⟩ := userinit_eq h
    exact hs.moves (userinit_moves s d)

def onCpu (s : Kernel) (p : Slot) : Kernel :=
  { s with cur := some p }.set p fun q => { q with stat := .SRUN }

theorem switchTo_cases {s t : Kernel} {p : Slot} {l : List Freed}
    (h : switchTo s p = .ok (t, l)) :
    (s.proc p).page ≠ 0 ∧ (s.proc p).resume ≠ .gone ∧
      ((s.proc p).resume = .user ∧ t = onCpu s p ∨ ∃ tick0, t = awake (onCpu s p) p tick0 ∨
        waitLoop (awake (onCpu s p) p tick0) p = .ok (t, l) ∨
        joinLoop (awake (onCpu s p) p tick0) p = .ok (t, l)) := by
  have hres : ((onCpu s p).proc p).resume = (s.proc p).resume := by simp [onCpu, Kernel.set]
  unfold switchTo at h
  dsimp only at h
  split at h
  · cases h
  · rename_i hpage
    refine ⟨hpage, ?_⟩
    erw [hres] at h
    split at h
    · rename_i hat
      cases h
      exact ⟨by simp [hat], .inl ⟨hat, rfl⟩⟩
    · rename_i tick0 hat
      cases h
      exact ⟨by simp [hat], .inr ⟨tick0, .inl rfl⟩⟩
    · rename_i tick0 hat
      exact ⟨by simp [hat], .inr ⟨tick0, .inr (.inl h)⟩⟩
    · rename_i tick0 hat
      exact ⟨by simp [hat], .inr ⟨tick0, .inr (.inr h)⟩⟩
    · cases h
    · cases h

theorem awake_run {s : Kernel} {p : Slot} (tick0 : Nat) :
    ((awake (onCpu s p) p tick0).proc p).stat = .SRUN := by
  simp [awake, onCpu, Kernel.set]

theorem switchTo_keeps {s t : Kernel} {p : Slot} {l : List Freed}
    (hs : (s.proc p).stat = .SUNUSED → (s.proc p).resume = .gone) (h : switchTo s p = .ok (t, l)) : Keeps s t := by
  obtain ⟨-, hgone, hcases⟩ := switchTo_cases h
  -- a slot without a context is not run, so `p` was in use
  have hcpu : SameSlots s (onCpu s p) := by
    refine .of_one (p := p) rfl (fun q hq => by simp [onCpu, Kernel.set, hq]) ?_
      (by simp [onCpu, Kernel.set])
    intro hst
    exact hgone (hs hst)
  have hawake : ∀ tick0, Keeps s (awake (onCpu s p) p tick0) := by
    intro tick0
    refine hcpu.keeps.trans (SameSlots.of_set ?_ ?_).keeps
    · simp [onCpu, Kernel.set]
    · simp [onCpu, Kernel.set]
  rcases hcases with ⟨-, rfl⟩ | ⟨tick0, rfl | hw | hj⟩
  · exact hcpu.keeps
  · exact hawake tick0
  · exact (hawake tick0).trans (waitLoop_keeps (awake_run tick0) hw)
  · exact (hawake tick0).trans (joinLoop_keeps (awake_run tick0) hj)

theorem scheduler_keeps {s t : Kernel} {l : List Freed} (hs : Wf s)
    (h : scheduler s = .ok (t, l)) : Keeps s t := by
  unfold scheduler at h
  split at h
  · rename_i u hu
    cases h
    exact (SameSlots.of_frame (sched_none hu)).keeps
  · rename_i u p hu
    obtain ⟨hproc, -, hesq, hcur⟩ := sched_proc hu
    have hsame : SameSlots s u := ⟨hesq, fun q => by rw [hproc]⟩
    refine hsame.keeps.trans (switchTo_keeps ?_ h)
    rw [hproc]
    exact fun hst => hs.gone p (.inl hst)

theorem Wf.keeps {s t : Kernel} {a : SlotAct} (hs : Wf s) (hn : noStack a = false)
    (h : SlotStep s a t) : Keeps s t := by
  cases a with
  | procalloc stack =>
    cases stack with
    | false => simp [noStack] at hn
    | true =>
      cases h
      by_cases hnil : s.esqueue = []
      · rw [procalloc_nil hnil]
        exact .refl s
      · obtain ⟨n, hn, -⟩ := procalloc_cons hnil true
        exact hn.keeps rfl (fun _ _ => rfl) (by simp [hn.stat])
  | userinit stack page =>
    obtain ⟨d, -, rfl⟩ := userinit_eq h
    exact userinit_keeps s d
  | act a =>
    obtain ⟨l, hl⟩ := act_eq h
    cases a with
    | wakeup e =>
      simp only [Proc.exec, Except.ok.injEq, Prod.mk.injEq] at hl
      rw [← hl.1]
      exact (wakeup_sameSlots s e).keeps
    | tick =>
      cases hl
      exact SameSlots.keeps ⟨rfl, fun _ => Iff.rfl⟩
    | scheduler =>
      simp only [Proc.exec] at hl
      split at hl
      · cases hl
      · exact scheduler_keeps hs hl
    | call c =>
      simp only [Proc.exec] at hl
      split at hl
      case h_2 => cases hl
      case h_1 p hcur =>
        have hp := hs.cur p hcur
        cases c with
        | fork m =>
          simp only [call] at hl
          split at hl
          · cases hl
            refine (fork_slots p ?_).1
            rintro rfl
            simp [noStack] at hn
          · cases hl
        | lwpCreate stack =>
          cases hl
          cases stack with
          | false => simp [noStack] at hn
          | true => exact lwpCreate_keeps s p
        | exec e =>
          simp only [call] at hl
          split at hl
          · rw [Except.ok.injEq] at hl
            have hf := execImage_frame s p e
            rw [hl] at hf
            exact (SameSlots.of_frame hf).keeps
          · cases hl
        | exit =>
          obtain ⟨u, hu, hl⟩ := bind_eq_ok.mp hl
          cases hl
          exact (exit_sameSlots hp hu).keeps
        | wait => exact waitLoop_keeps hp hl
        | lwpJoin => exact joinLoop_keeps hp hl
        | sleep e =>
          obtain ⟨u, hu, hl⟩ := bind_eq_ok.mp hl
          cases hl
          exact (sleep_sameSlots hp hu).keeps
        | kill pid =>
          cases hl
          exact (kill_sameSlots s pid).keeps
        | giveupCpu =>
          obtain ⟨u, hu, hl⟩ := bind_eq_ok.mp hl
          cases hl
          exact (giveup_sameSlots hp hu).keeps
        | timesliceYield =>
          obtain ⟨u, hu, hl⟩ := bind_eq_ok.mp hl
          cases hl
          exact (timesliceYield_sameSlots hp hu).keeps
        | selectScheme scheme slabEmpty =>
          obtain ⟨u, hu, hl⟩ := bind_eq_ok.mp hl
          cases hl
          exact (select_sameSlots hu).keeps
        | recalcTimeslice =>
          simp only [call, Except.ok.injEq, Prod.mk.injEq] at hl
          rw [← hl.1]
          exact (SameSlots.of_frame (recalcTimeslice_frame s)).keeps
        | incnice n =>
          cases hl
          exact (SameSlots.of_frame (incnice_frame s p n)).keeps

/-- Without a stack, a label is a `procalloc` that fails. -/
theorem noStack_eq {s t : Kernel} {a : SlotAct} (hn : noStack a = true) (h : SlotStep s a t) :
    t = (procalloc s false).1 := by
  cases a with
  | procalloc stack =>
    cases stack with
    | true => simp [noStack] at hn
    | false =>
      cases h
      rfl
  | userinit stack page => simp [noStack] at hn
  | act a =>
    obtain ⟨l, hl⟩ := act_eq h
    cases a with
    | call c =>
      simp only [exec] at hl
      split at hl
      case h_2 => cases hl
      case h_1 p hcur =>
        cases c with
        | fork m =>
          cases m with
          | noStack =>
            simp only [call, memOk, if_true, Except.ok.injEq, Prod.mk.injEq] at hl
            rw [← hl.1]
            exact fork_noStack s p
          | noPages | pages => simp [noStack] at hn
        | lwpCreate stack =>
          cases stack with
          | true => simp [noStack] at hn
          | false =>
            cases hl
            exact lwpCreate_noStack s p
        | _ => simp [noStack] at hn
    | _ => simp [noStack] at hn

theorem Wf.leaks {s t : Kernel} {a : SlotAct} (hs : Wf s) (hl : Leaks s a)
    (h : SlotStep s a t) : ∃ p, Lost t p := by
  obtain ⟨n, hn, -⟩ := procalloc_cons hl.2 false
  rw [noStack_eq hl.1 h]
  exact ⟨n, (hn.loses hs.nodup).1⟩

theorem Wf.kept {s t : Kernel} {a : SlotAct} (hs : Wf s) (hl : ¬ Leaks s a)
    (h : SlotStep s a t) : Keeps s t := by
  cases hn : noStack a with
  | false => exact hs.keeps hn h
  | true =>
    have hnil : s.esqueue = [] := by
      by_contra hne
      exact hl ⟨hn, hne⟩
    rw [noStack_eq hn h, procalloc_nil hnil]
    exact .refl s

theorem Wf.lost_mono {s t : Kernel} {a : SlotAct} (hs : Wf s) (h : SlotStep s a t) {p : Slot}
    (hp : Lost s p) : Lost t p := by
  by_cases hl : Leaks s a
  · obtain ⟨n, hn, -⟩ := procalloc_cons hl.2 false
    rw [noStack_eq hl.1 h]
    exact (hn.loses hs.nodup).2 p hp
  · exact (hs.kept hl h p).mpr hp

/-! ### The process on the CPU has a directory -/

def CurMapped (s : Kernel) : Prop := ∀ p, s.cur = some p → (s.proc p).page ≠ 0

theorem CurMapped.of_none {t : Kernel} (h : t.cur = none) : CurMapped t := by
  intro p hp
  rw [h] at hp
  cases hp

theorem CurMapped.same {s t : Kernel} (hs : CurMapped s) (hcur : t.cur = s.cur)
    (hpage : ∀ p, s.cur = some p → (t.proc p).page = (s.proc p).page) : CurMapped t := by
  intro p hp
  rw [hcur] at hp
  rw [hpage p hp]
  exact hs p hp

theorem CurMapped.sameFam {s t : Kernel} (hs : CurMapped s) (hwf : Wf s) (hcur : t.cur = s.cur)
    (h : SameFam s t) : CurMapped t :=
  hs.same hcur fun p hp => h.page p (by simp [hwf.cur p hp])

/-- The process on the CPU is not one of the free slots. -/
theorem Wf.cur_not_free {s : Kernel} (hs : Wf s) {p : Slot} (hp : s.cur = some p) :
    p ∉ s.esqueue := by
  intro hmem
  have hfree := hs.free p hmem
  rw [hs.cur p hp] at hfree
  cases hfree

/-- Everything outside the free slots, and the CPU, is as before. -/
def Apart (s t : Kernel) : Prop := t.cur = s.cur ∧ ∀ q, q ∉ s.esqueue → t.proc q = s.proc q

theorem CurMapped.apart {s t : Kernel} (hs : CurMapped s) (hwf : Wf s) (h : Apart s t) :
    CurMapped t :=
  hs.same h.1 fun p hp => by rw [h.2 p (hwf.cur_not_free hp)]

theorem procalloc_apart (s : Kernel) (stack : Bool) :
    Apart s (procalloc s stack).1 ∧ ∀ n, (procalloc s stack).2 = some n → n ∈ s.esqueue := by
  by_cases hnil : s.esqueue = []
  · rw [procalloc_nil hnil]
    exact ⟨⟨rfl, fun _ _ => rfl⟩, by simp⟩
  · obtain ⟨n, hn, ho⟩ := procalloc_cons hnil stack
    have hmem : n ∈ s.esqueue := by simp [hn.esqueue]
    refine ⟨⟨hn.cur, fun q hq => hn.other q ?_⟩, ?_⟩
    · rintro rfl
      exact hq hmem
    · intro m hm
      rw [ho] at hm
      split at hm
      · rw [← Option.some.inj hm]
        exact hmem
      · cases hm

/-- Work on the slot that `procalloc` returned. -/
theorem Apart.made {s t u : Kernel} {n : Slot} (h : Apart s t) (hn : n ∈ s.esqueue)
    (hcur : u.cur = t.cur) (hother : ∀ q, q ≠ n → u.proc q = t.proc q) : Apart s u := by
  refine ⟨hcur.trans h.1, fun q hq => ?_⟩
  have hne : q ≠ n := by
    rintro rfl
    exact hq hn
  rw [hother q hne, h.2 q hq]

theorem fork_apart (s : Kernel) (p : Slot) (m : Mem) : Apart s (fork s p m) := by
  obtain ⟨h, hn⟩ := procalloc_apart s (m ≠ .noStack)
  unfold fork
  split
  · rename_i t ht
    rw [ht] at h
    exact h
  · rename_i t n ht
    rw [ht] at h hn
    have hmem := hn n rfl
    split
    · refine h.made hmem ?_ ?_
      · rw [enqueue_cur]
        rfl
      · intro q hq
        rw [enqueue_proc]
        simp [Kernel.set, hq]
    · exact h.made hmem rfl fun q hq => by simp [Kernel.set, hq]

theorem lwpCreate_apart (s : Kernel) (p : Slot) (stack : Bool) :
    Apart s (lwpCreate s p stack) := by
  obtain ⟨h, hn⟩ := procalloc_apart s stack
  unfold lwpCreate
  split
  · rename_i t ht
    rw [ht] at h
    exact h
  · rename_i t n ht
    rw [ht] at h hn
    have hmem := hn n rfl
    dsimp only
    split
    · exact h.made hmem rfl fun q hq => by simp [Kernel.set, hq]
    · refine h.made hmem ?_ ?_
      · rw [enqueue_cur]
        rfl
      · intro q hq
        rw [enqueue_proc]
        simp [Kernel.set, hq]

theorem userinit_apart (s : Kernel) (d : Nat) : Apart s (userinit s d) := by
  obtain ⟨h, hn⟩ := procalloc_apart s true
  unfold userinit
  split
  · rename_i t ht
    rw [ht] at h
    exact h
  · rename_i t n ht
    rw [ht] at h hn
    refine h.made (hn n rfl) ?_ ?_
    · rw [enqueue_cur]
      rfl
    · intro q hq
      rw [enqueue_proc]
      simp [Kernel.set, hq]

theorem CurMapped.waitLoop {s t : Kernel} {p : Slot} {l : List Freed} (hs : CurMapped s)
    (h : waitLoop s p = .ok (t, l)) : CurMapped t := by
  unfold Proc.waitLoop at h
  split at h
  · rename_i q hq
    cases h
    refine hs.same rfl fun r _ => ?_
    by_cases hr : r = q
    · subst hr
      simp [reap, Kernel.set, freeuvm]
    · simp [reap, Kernel.set, freeuvm, hr]
  · split at h
    · cases h
      exact hs
    · obtain ⟨u, hu, h⟩ := bind_eq_ok.mp h
      cases h
      rw [sleep_spec hu]
      exact .of_none rfl

theorem CurMapped.joinLoop {s t : Kernel} {p : Slot} {l : List Freed} (hs : CurMapped s)
    (h : joinLoop s p = .ok (t, l)) : CurMapped t := by
  unfold Proc.joinLoop at h
  split at h
  · rename_i q hq
    cases h
    refine hs.same rfl fun r _ => ?_
    by_cases hr : r = q
    · subst hr
      simp [reap, Kernel.set]
    · simp [reap, Kernel.set, hr]
  · split at h
    · cases h
      exact hs
    · obtain ⟨u, hu, h⟩ := bind_eq_ok.mp h
      cases h
      rw [sleep_spec hu]
      exact .of_none rfl

theorem CurMapped.switchTo {s t : Kernel} {p : Slot} {l : List Freed}
    (h : switchTo s p = .ok (t, l)) : CurMapped t := by
  obtain ⟨hpage, -, hcases⟩ := switchTo_cases h
  have hcpu : CurMapped (onCpu s p) := by
    intro q hq
    have hqp : p = q := by simpa [onCpu, Kernel.set] using hq
    subst hqp
    simpa [onCpu, Kernel.set] using hpage
  have hawake : ∀ tick0, CurMapped (awake (onCpu s p) p tick0) := by
    intro tick0
    refine hcpu.same rfl fun q _ => ?_
    by_cases hq : q = p
    · subst hq
      simp [awake, Kernel.set]
    · simp [awake, Kernel.set, hq]
  rcases hcases with ⟨-, rfl⟩ | ⟨tick0, rfl | hw | hj⟩
  · exact hcpu
  · exact hawake tick0
  · exact (hawake tick0).waitLoop hw
  · exact (hawake tick0).joinLoop hj

theorem CurMapped.call {s t : Kernel} {p : Slot} {c : Call} {l : List Freed} (hs : CurMapped s)
    (hwf : Wf s) (hcur : s.cur = some p) (h : call s p c = .ok (t, l)) : CurMapped t := by
  have hp := hwf.cur p hcur
  cases c with
  | fork m =>
    simp only [Proc.call] at h
    split at h
    · cases h
      exact hs.apart hwf (fork_apart s p m)
    · cases h
  | lwpCreate stack =>
    cases h
    exact hs.apart hwf (lwpCreate_apart s p stack)
  | exec e =>
    simp only [Proc.call] at h
    split at h
    · rename_i he
      rw [Except.ok.injEq] at h
      cases e with
      | early =>
        cases h
        exact hs
      | bad d =>
        cases h
        exact hs.same rfl fun _ _ => rfl
      | commit d =>
        cases h
        intro q hq
        have hpq : p = q := Option.some.inj (hcur.symm.trans hq)
        subst hpq
        have hd : s.Fresh d := of_decide_eq_true he
        simpa [freeuvm, Kernel.set] using hd.1
    · cases h
  | exit =>
    obtain ⟨u, hu, h⟩ := bind_eq_ok.mp h
    cases h
    unfold Proc.exit at hu
    split at hu
    · cases hu
    · rw [transform_eq_ok hu]
      exact .of_none rfl
  | wait => exact hs.waitLoop h
  | lwpJoin => exact hs.joinLoop h
  | sleep e =>
    obtain ⟨u, hu, h⟩ := bind_eq_ok.mp h
    cases h
    rw [sleep_spec hu]
    exact .of_none rfl
  | kill pid =>
    cases h
    refine hs.sameFam hwf ?_ (kill_sameFam s pid)
    unfold Proc.kill
    split <;> rfl
  | giveupCpu =>
    obtain ⟨u, hu, h⟩ := bind_eq_ok.mp h
    cases h
    exact .of_none (giveup_spec hu).cur
  | timesliceYield =>
    obtain ⟨u, hu, h⟩ := bind_eq_ok.mp h
    cases h
    have hfam := timesliceYield_sameFam hp hu
    unfold Proc.timesliceYield at hu
    split at hu
    · cases hu
      exact hs
    · dsimp only at hu
      split at hu
      · exact .of_none (giveup_spec hu).cur
      · cases hu
        exact hs.sameFam hwf rfl hfam
  | selectScheme scheme slabEmpty =>
    obtain ⟨u, hu, h⟩ := bind_eq_ok.mp h
    cases h
    rcases selectScheme_spec hu with ⟨-, rfl⟩ | ⟨-, l, -, rfl⟩ | ⟨-, l, rfl⟩
    · exact hs
    · exact hs
    · exact hs
  | recalcTimeslice =>
    simp only [Proc.call, Except.ok.injEq, Prod.mk.injEq] at h
    rw [← h.1]
    exact hs.sameFam hwf (recalcTimeslice_frame s).cur (recalcTimeslice_sameFam s)
  | incnice n =>
    cases h
    refine hs.same (incnice_frame s p n).cur fun q _ => ?_
    unfold Proc.incnice
    dsimp only
    split
    · by_cases hq : q = p
      · subst hq
        simp [Kernel.set]
      · simp [Kernel.set, hq]
    · rfl

theorem CurMapped.slotStep {s t : Kernel} {a : SlotAct} (hs : CurMapped s) (hwf : Wf s)
    (h : SlotStep s a t) : CurMapped t := by
  cases a with
  | procalloc stack =>
    cases h
    exact hs.apart hwf (procalloc_apart s stack).1
  | userinit stack page =>
    obtain ⟨d, -, rfl⟩ := userinit_eq h
    exact hs.apart hwf (userinit_apart s d)
  | act a =>
    obtain ⟨l, hl⟩ := act_eq h
    cases a with
    | wakeup e =>
      simp only [exec, Except.ok.injEq, Prod.mk.injEq] at hl
      rw [← hl.1]
      exact hs.sameFam hwf (wakeup_cur s e) (wakeup_sameFam s e)
    | tick =>
      cases hl
      exact hs
    | scheduler =>
      simp only [exec] at hl
      split at hl
      · cases hl
      · unfold scheduler at hl
        split at hl
        · rename_i hcur _ u hu
          cases hl
          exact .of_none ((sched_none hu).cur.trans hcur)
        · exact .switchTo hl
    | call c =>
      simp only [exec] at hl
      split at hl
      · rename_i p hcur
        exact hs.call hwf hcur hl
      · cases hl

/-! ### Every run -/

/-- The call returns -1. -/
def FailedCreate (s : Kernel) : SlotAct → Prop
  | .act (.call (.fork m)) => s.esqueue = [] ∨ ∀ d, m ≠ .pages d
  | .act (.call (.lwpCreate stack)) =>
    s.esqueue = [] ∨ stack = false ∨ ∃ p, s.cur = some p ∧ (s.proc p).page = 0
  | _ => False

theorem procalloc_length {s : Kernel} (h : s.esqueue ≠ []) (stack : Bool) :
    (procalloc s stack).1.esqueue.length + 1 = s.esqueue.length := by
  obtain ⟨n, hn, -⟩ := procalloc_cons h stack
  simp [hn.esqueue]

theorem failedCreate_length {s t : Kernel} {a : SlotAct} (hmap : CurMapped s)
    (hf : FailedCreate s a) (h : SlotStep s a t) :
    t.esqueue.length = s.esqueue.length ↔ ¬ Leaks s a := by
  by_cases hl : Leaks s a
  · have hlen := procalloc_length hl.2 false
    rw [noStack_eq hl.1 h]
    simp only [hl, not_true_eq_false, iff_false]
    omega
  · simp only [hl, not_false_eq_true, iff_true]
    cases hn : noStack a with
    | true =>
      have hnil : s.esqueue = [] := by
        by_contra hne
        exact hl ⟨hn, hne⟩
      rw [noStack_eq hn h, procalloc_nil hnil]
    | false =>
      cases a with
      | procalloc stack => exact hf.elim
      | userinit stack page => exact hf.elim
      | act a =>
        obtain ⟨l, hx⟩ := act_eq h
        cases a with
        | call c =>
          simp only [exec] at hx
          split at hx
          case h_2 => cases hx
          case h_1 p hcur =>
            cases c with
            | fork m =>
              simp only [call] at hx
              split at hx
              · cases hx
                rcases hf with hnil | hm
                · simp only [fork, procalloc_nil hnil]
                · refine (fork_slots p ?_).2 hm
                  rintro rfl
                  simp [noStack] at hn
              · cases hx
            | lwpCreate stack =>
              cases hx
              rcases hf with hnil | rfl | ⟨q, hq, hzero⟩
              · simp only [lwpCreate, procalloc_nil hnil]
              · simp [noStack] at hn
              · exact absurd hzero (hmap q hq)
            | _ => exact hf.elim
        | _ => exact hf.elim

theorem Conserved.start : Conserved start :=
  ⟨List.nodup_finRange NPROC, fun p => by simp [Proc.start, slots, unused]⟩

theorem slotRun_wf {as : List SlotAct} {t : Kernel} (h : Run SlotStep start as t) :
    Wf t ∧ CurMapped t :=
  h.invariant (fun s => Wf s ∧ CurMapped s) ⟨Wf.start, .of_none rfl⟩
    fun _ _ _ hs hst => ⟨hs.1.slotStep hst, hs.2.slotStep hs.1 hst⟩

theorem keptRun_conserved {as : List SlotAct} {t : Kernel} (h : Run KeptStep start as t) :
    Conserved t := by
  have hinv : Wf t ∧ ∀ p, ¬ Lost t p := by
    refine h.invariant (fun s => Wf s ∧ ∀ p, ¬ Lost s p)
      ⟨Wf.start, Wf.start.conserved_iff.mp Conserved.start⟩ ?_
    intro s a u hs hst
    exact ⟨hs.1.slotStep hst.2, fun p hp => hs.2 p ((hs.1.kept hst.1 hst.2 p).mp hp)⟩
  exact hinv.1.conserved_iff.mpr hinv.2

theorem conserved_keptRun {as : List SlotAct} {t : Kernel} (h : Run SlotStep start as t)
    (ht : Conserved t) : Run KeptStep start as t := by
  induction h with
  | nil => exact Run.nil
  | @snoc as s t a hr hst ih =>
    have hwf := (slotRun_wf hr).1
    have hlost := (hwf.slotStep hst).conserved_iff.mp ht
    -- what is lost stays lost, so nothing was lost before this step
    have hs : Conserved s := hwf.conserved_iff.mpr fun p hp => hlost p (hwf.lost_mono hst hp)
    have hl : ¬ Leaks s a := by
      intro hl
      obtain ⟨p, hp⟩ := hwf.leaks hl hst
      exact hlost p hp
    exact Run.snoc (ih hs) ⟨hl, hst⟩

/-- **Slots.**  A run ends with exactly the unused slots in `esqueue`, each once, if and
    only if no step of it took a slot for which `kalloc` then had no stack; and a call of
    `fork` or `lwp_create` that fails leaves as many slots as there were if and only if
    it is not such a step. -/
theorem slots_conserved_iff {as : List SlotAct} {t : Kernel} (h : Run SlotStep start as t) :
    (Conserved t ↔ Run KeptStep start as t) ∧
      ∀ a u, FailedCreate t a → SlotStep t a u →
        (u.esqueue.length = t.esqueue.length ↔ ¬ Leaks t a) :=
  ⟨⟨conserved_keptRun h, keptRun_conserved⟩,
    fun _ _ hf hst => failedCreate_length (slotRun_wf h).2 hf hst⟩

/-- The first process runs, and calls `fork`. -/
def forkTrace (m : Mem) : List SlotAct :=
  [.userinit true (some 1), .act .scheduler, .act (.call (.fork m))]

theorem slots_conserved_noPages :
    ∃ t, Run SlotStep start (forkTrace .noPages) t ∧ t.esqueue.length = 63 ∧
      (Conserved t ↔ Run KeptStep start (forkTrace .noPages) t) ∧
      ∀ a u, FailedCreate t a → SlotStep t a u →
        (u.esqueue.length = t.esqueue.length ↔ ¬ Leaks t a) := by
  have hrun : okWith (fun t : Kernel => t.esqueue.length = 63)
      ((forkTrace .noPages).foldlM slotExec start) = true := by
    decide
  obtain ⟨t, ht, hlen⟩ := okWith_eq_true.mp hrun
  have hr : Run SlotStep start (forkTrace .noPages) t := Run.of_foldlM ht
  exact ⟨t, hr, of_decide_eq_true hlen, slots_conserved_iff hr⟩

theorem fork_without_stack_loses_slot :
    ¬ ∀ as t, Run SlotStep start as t → Conserved t := by
  intro hall
  have hrun : okWith (fun t : Kernel => (t.proc ⟨1, by decide⟩).stat = .SUNUSED ∧
      ⟨1, by decide⟩ ∉ t.esqueue) ((forkTrace .noStack).foldlM slotExec start) = true := by
    decide
  obtain ⟨t, ht, hm⟩ := okWith_eq_true.mp hrun
  obtain ⟨hst, hout⟩ := of_decide_eq_true hm
  exact hout (((hall _ t (Run.of_foldlM ht)).2 _).mpr hst)

end Yonix.Proc
