/-
  Yonix/Sync/Reap.lean
  ====================
  **The invariant of `wait` and `exit` under preemption.**

  A parent looks through the table for a zombie and sleeps if it finds none; a child
  wakes its parent and becomes a zombie afterwards.  Both are sequences of statements,
  and the timer can fall into either.  `Racy` is the set of places it must spare: in
  `wait` and `lwp_join` from the second slot of the table up to the sleep, in `exit`
  from the wakeup of the parent up to `SZOMB`, and in `kill` between its test and its
  assignment.

  `Inv` is the invariant.  It has three parts.  A slot that is in `esqueue` or in the
  hands of one process that makes or reaps it is not alive, and the hands are unique.
  Parents are alive, `initproc` is alive and has none.  And what a process in the middle
  of a racy stretch has already found out is still true (`At`), because it is alone
  there.  One lemma for each kind of step says that it keeps `Inv`; which statement is
  of which kind is the matter of `Sync/Zombie.lean`.
-/
import Yonix.Sync.Wait

namespace Yonix.Sync.Wait

open Yonix.Proc (Stat Slot Chan slots)

/-! ### Places -/

/-- The slot a process has taken from `esqueue` and not yet made ready or given up. -/
def carries : Pc → Option Slot
  | .nap back _ _ => carries back
  | .allocEmbryo _ np | .allocPid _ np | .allocStack _ np | .allocUnused np => some np
  | .allocCtxt _ np | .forkCopy np | .forkUnused np | .forkQueue np => some np
  | .setPrt _ np | .setCtxt _ np | .setProcp _ np | .setReady np => some np
  | _ => none

/-- The zombie a process is reaping. -/
def reaps : Pc → Option Slot
  | .nap back _ _ => reaps back
  | .reapPid _ q | .reapPrt _ q | .reapKilled _ q | .reapStat _ q | .reapQueue q => some q
  | _ => none

def Holds (i : Pc) (z : Slot) : Prop := carries i = some z ∨ reaps i = some z

/-- The slot in hand has been given back its status `SUNUSED`. -/
def cleared : Pc → Bool
  | .forkQueue _ | .reapQueue _ => true
  | .reapPid .join _ | .reapPrt .join _ | .reapKilled .join _ => true
  | _ => false

/-- The statement that leaves the CPU. -/
def leaving : Pc → Bool
  | .nap _ _ .transform | .sleep _ .transform | .exitLeave => true
  | _ => false

/-- Inside a `sleep`, behind the assignment to `p_stat`. -/
def dozing : Pc → Bool
  | .nap _ _ .transform | .nap _ _ .back | .sleep _ .transform | .sleep _ .back => true
  | _ => false

/-- Inside the `sleep` of `wait` or `lwp_join`, behind the assignment to `p_chan`. -/
def chosen : Pc → Bool
  | .sleep _ .stat | .sleep _ .transform | .sleep _ .back => true
  | _ => false

/-- The places the timer must spare. -/
def Racy : Pc → Prop
  | .scan _ _ l => l ≠ slots
  | .scanKid _ _ _ | .scanZombie _ _ _ | .sleep _ .chan | .sleep _ .stat => True
  | .exitWake _ _ | .exitScan _ | .exitAdopt _ _ | .exitZombie _ _ | .exitRouse _ _ => True
  | .exitDie => True
  | .killReady _ => True
  | _ => False

instance : DecidablePred Racy := fun i => by
  unfold Racy
  split <;> infer_instance

/-! ### The property -/

/-- `w` sleeps in `wait`, or in `lwp_join`. -/
def InWait (s : M) (w : Slot) (k : Loop) : Prop :=
  s.stat w = .SSLEEPING ∧ (s.pc w = .sleep k .transform ∨ s.pc w = .sleep k .back)

/-- The slots that a `wakeup` has still to look at, or is about to make ready. -/
def pending : WakePc Slot → Slot → Prop
  | .test l, w => w ∈ l
  | .ready q l, w => w = q ∨ w ∈ l

/-- The running process has just handed a zombie to `initproc`, in `exit`, and has the
    wakeup of `initproc` before it. -/
def Rousing (s : M) (w : Slot) : Prop :=
  w = s.mem.initproc ∧ ∃ x, s.cur = some x ∧
    ((∃ q l, s.pc x = .exitZombie q l ∧ s.stat q = .SZOMB) ∨
      ∃ i l, s.pc x = .exitRouse i l ∧ pending i w)

/-- Nobody sleeps in `wait` or `lwp_join` who has a zombie that the call looks for. -/
def NoneMissed (s : M) : Prop :=
  ∀ w k z, InWait s w k → isKid s.mem w k z → s.stat z = .SZOMB → Rousing s w

/-! ### The invariant -/

def Live : Stat → Prop
  | .SSLEEPING | .READY | .SRUN => True
  | _ => False

/-- The kids of `p` that its loop has passed are no zombies. -/
def Passed (s : M) (p : Slot) (k : Loop) (l : List Slot) : Prop :=
  ∀ z, z ∉ l → isKid s.mem p k z → s.stat z ≠ .SZOMB

/-- The parent of `p` does not sleep in `wait` or `lwp_join`, unless it is in `l`. -/
def Warned (s : M) (p : Slot) (i : WakePc Slot) : Prop :=
  ∀ w k, s.mem.prt p = some w → InWait s w k → pending i w

/-- The slot that a `wakeup` is about to make ready slept, and has not run since. -/
def Drowsy (s : M) : WakePc Slot → Prop
  | .test _ => True
  | .ready q _ => s.stat q = .SSLEEPING ∨ s.stat q = .READY

/-- Where a process may be when it sleeps on an address of its own. -/
def NapOk (s : M) (p : Slot) : Pc → Prop
  | .user | .forkCopy _ => True
  | .exitFiles => p ≠ s.mem.initproc
  | _ => False

/-- What process `p` at a racy place has found out. -/
def At (s : M) (p : Slot) : Pc → Prop
  | .scan k _ l => Passed s p k l
  | .scanKid k q l => Passed s p k (q :: l) ∧ isKid s.mem p k q
  | .scanZombie k q l => Passed s p k (q :: l) ∧ isKid s.mem p k q
  | .sleep k .chan | .sleep k .stat => Passed s p k []
  | .exitWake e i =>
    p ≠ s.mem.initproc ∧ e = s.mem.prt p ∧ Drowsy s i ∧ Warned s p i
  | .exitScan l =>
    p ≠ s.mem.initproc ∧ Warned s p (.test []) ∧ ∀ r, r ∉ l → s.mem.prt r ≠ some p
  | .exitAdopt q l =>
    p ≠ s.mem.initproc ∧ Warned s p (.test []) ∧ s.mem.prt q = some p ∧
      ∀ r, r ∉ q :: l → s.mem.prt r ≠ some p
  | .exitZombie _ l =>
    p ≠ s.mem.initproc ∧ Warned s p (.test []) ∧ ∀ r, r ∉ l → s.mem.prt r ≠ some p
  | .exitRouse i l =>
    p ≠ s.mem.initproc ∧ Warned s p (.test []) ∧ Drowsy s i ∧
      (∀ r, r ∉ l → s.mem.prt r ≠ some p) ∧
      ∀ k, InWait s s.mem.initproc k → pending i s.mem.initproc
  | .exitDie =>
    p ≠ s.mem.initproc ∧ Warned s p (.test []) ∧ ∀ r, s.mem.prt r ≠ some p
  | .killReady q => s.stat q = .SSLEEPING ∨ s.stat q = .READY
  | .exitFiles => p ≠ s.mem.initproc
  | .nap back _ _ => NapOk s p back
  | _ => True

/-- What holds of process `p` at place `i`. -/
structure Place (s : M) (p : Slot) (i : Pc) : Prop where
  heldOut : ∀ z, Holds i z → z ∉ s.mem.esqueue
  carried : ∀ z, carries i = some z → s.stat z = .SUNUSED ∨ s.stat z = .SEMBRYO
  reaped : ∀ z, reaps i = some z → (s.stat z = .SZOMB ∨ s.stat z = .SUNUSED) ∧
    (s.mem.prt z = some p ∨ s.mem.prt z = none)
  cleared : cleared i = true → ∀ z, Holds i z → s.stat z = .SUNUSED
  running : s.cur = some p → leaving i = false → s.stat p = .SRUN
  dozing : s.stat p = .SSLEEPING → dozing i = true
  chosen : chosen i = true → s.chan p = some (.proc p)
  found : At s p i

/-- The part of the invariant that names no process. -/
structure Family (s : M) : Prop where
  free : ∀ z ∈ s.mem.esqueue, s.stat z = .SUNUSED
  nodup : s.mem.esqueue.Nodup
  parent : ∀ r w, s.mem.prt r = some w → Live (s.stat w)
  initLive : Live (s.stat s.mem.initproc)
  initPrt : s.mem.prt s.mem.initproc = none
  notSelf : ∀ p, s.mem.prt p ≠ some p

structure Inv (s : M) : Prop where
  alone : Alone Racy s
  family : Family s
  place : ∀ p, Place s p (s.pc p)
  heldOne : ∀ p q z, Holds (s.pc p) z → Holds (s.pc q) z → p = q
  missed : NoneMissed s

/-! ### What the others keep -/

variable {s t : M} {p q z w : Slot} {i : Pc}

/-- A rousing place. -/
def rousing : Pc → Bool
  | .exitZombie _ _ | .exitRouse _ _ => true
  | _ => false

theorem not_rousing (hc : s.cur = some p) (hp : rousing (s.pc p) = false) : ¬ Rousing s w := by
  rintro ⟨-, x, hx, h⟩
  rw [hc] at hx
  obtain rfl := Option.some.inj hx
  rcases h with ⟨q, l, h, -⟩ | ⟨j, l, h, -⟩
  · rw [h] at hp
    simp [rousing] at hp
  · rw [h] at hp
    simp [rousing] at hp

theorem At.other (hi : ¬ Racy i) (hinit : t.mem.initproc = s.mem.initproc) (h : At s p i) :
    At t p i := by
  cases i with
  | scan k kid l =>
    have hl : l = slots := by simpa [Racy] using hi
    intro z hz
    rw [hl] at hz
    exact absurd (List.mem_finRange z) hz
  | exitFiles =>
    simp only [At, hinit] at h ⊢
    exact h
  | nap back a j =>
    cases back
    case exitFiles =>
      simp only [At, NapOk, hinit] at h ⊢
      exact h
    all_goals exact h
  | sleep k j => cases j <;> simp_all [Racy, At]
  | scanKid | scanZombie | exitWake | exitScan | exitAdopt | exitZombie | exitRouse
  | exitDie | killReady => exact absurd trivial hi
  | user | gone | allocEmpty | allocFirst | allocRemove | allocEmbryo | allocPid | allocStack
  | allocUnused | allocCtxt | forkCopy | forkUnused | forkQueue | setPrt | setCtxt | setProcp
  | setReady | exitInit | exitLeave | dead | scanStart | reapPid | reapPrt | reapKilled
  | reapStat | reapQueue | killScan | killKilled | killTest => trivial

theorem Live.ne_unused {st : Stat} (h : Live st) : st ≠ .SUNUSED := by
  rintro rfl
  exact h

theorem Live.ne_embryo {st : Stat} (h : Live st) : st ≠ .SEMBRYO := by
  rintro rfl
  exact h

theorem Live.ne_zombie {st : Stat} (h : Live st) : st ≠ .SZOMB := by
  rintro rfl
  exact h

namespace Inv

variable (hs : Inv s)

include hs

theorem not_racy (hc : s.cur = some p) (hq : q ≠ p) : ¬ Racy (s.pc q) := by
  intro h
  have hcur := hs.alone q h
  rw [hc] at hcur
  exact hq (Option.some.inj hcur).symm

theorem running (hc : s.cur = some p) (hl : leaving (s.pc p) = false) : s.stat p = .SRUN :=
  (hs.place p).running hc hl

theorem held_not_live (h : Holds (s.pc p) z) : ¬ Live (s.stat z) := by
  intro hlive
  rcases h with h | h
  · rcases (hs.place p).carried z h with e | e
    · exact hlive.ne_unused e
    · exact hlive.ne_embryo e
  · rcases ((hs.place p).reaped z h).1 with e | e
    · exact hlive.ne_zombie e
    · exact hlive.ne_unused e

theorem held_ne_init (h : Holds (s.pc p) z) : z ≠ s.mem.initproc := by
  rintro rfl
  exact hs.held_not_live h hs.family.initLive

theorem held_childless (h : Holds (s.pc p) z) (r : Slot) : s.mem.prt r ≠ some z :=
  fun hr => hs.held_not_live h (hs.family.parent r z hr)

theorem held_ne_self (hc : s.cur = some p) (hl : leaving (s.pc p) = false)
    (h : Holds (s.pc p) z) : z ≠ p := by
  rintro rfl
  apply hs.held_not_live h
  rw [hs.running hc hl]
  trivial

theorem not_held_other (h : Holds (s.pc p) z) (hq : q ≠ p) : ¬ Holds (s.pc q) z :=
  fun h' => hq (hs.heldOne q p z h' h)

/-- What keeps a process other than the running one at its place. -/
theorem place_other (hnr : ¬ Racy (s.pc q)) (hq : q ≠ p) (hcur : t.cur ≠ some q)
    (hinit : t.mem.initproc = s.mem.initproc)
    (hesq : ∀ z ∈ t.mem.esqueue, z ∈ s.mem.esqueue ∨ Holds (s.pc p) z)
    (hstat : ∀ z, Holds (s.pc q) z → t.stat z = s.stat z)
    (hprt : ∀ z, reaps (s.pc q) = some z → t.mem.prt z = s.mem.prt z)
    (hdoze : t.stat q = .SSLEEPING → s.stat q = .SSLEEPING) (hchan : t.chan q = s.chan q) :
    Place t q (s.pc q) := by
  have h := hs.place q
  refine ⟨?_, ?_, ?_, ?_, ?_, ?_, ?_, ?_⟩
  · intro z hz hmem
    rcases hesq z hmem with hin | hheld
    · exact h.heldOut z hz hin
    · exact hs.not_held_other hheld hq hz
  · intro z hz
    rw [hstat z (.inl hz)]
    exact h.carried z hz
  · intro z hz
    rw [hstat z (.inr hz), hprt z hz]
    exact h.reaped z hz
  · intro hcl z hz
    rw [hstat z hz]
    exact h.cleared hcl z hz
  · intro hcq
    exact absurd hcq hcur
  · intro hsl
    exact h.dozing (hdoze hsl)
  · intro hch
    rw [hchan]
    exact h.chosen hch
  · exact h.found.other hnr hinit

end Inv

/-- The invariant after a step of `p`: what is said of `p` at its new place, of the
    others at theirs, and of the table. -/
theorem Inv.assemble (hs : Inv s) (ht : Alone Racy t) (hfamily : Family t)
    (hpc : t.pc p = i) (hp : Place t p i) (hothers : ∀ q, q ≠ p → Place t q (t.pc q))
    (hsub : ∀ q, q ≠ p → ∀ z, Holds (t.pc q) z → Holds (s.pc q) z)
    (hheld : ∀ z, Holds i z → ∀ q, q ≠ p → ¬ Holds (s.pc q) z) (hnone : NoneMissed t) :
    Inv t where
  alone := ht
  family := hfamily
  place q := by
    by_cases hq : q = p
    · rw [hq, hpc]
      exact hp
    · exact hothers q hq
  heldOne q r z h h' := by
    by_cases hq : q = p
    · by_cases hr : r = p
      · rw [hq, hr]
      · rw [hq, hpc] at h
        exact absurd (hsub r hr z h') (hheld z h r hr)
    · by_cases hr : r = p
      · rw [hr, hpc] at h'
        exact absurd (hsub q hq z h) (hheld z h' q hq)
      · exact hs.heldOne q r z (hsub q hq z h) (hsub r hr z h')
  missed := hnone

/-- A step that makes no sleeper, no zombie and no kid keeps `NoneMissed`. -/
theorem NoneMissed.mono (hs : NoneMissed s)
    (hwait : ∀ w k, InWait t w k → InWait s w k)
    (hzombie : ∀ z, t.stat z = .SZOMB → s.stat z = .SZOMB)
    (hkid : ∀ w k z, InWait t w k → t.stat z = .SZOMB → isKid t.mem w k z →
      isKid s.mem w k z)
    (hrouse : ∀ w k, InWait t w k → Rousing s w → Rousing t w) : NoneMissed t := by
  intro w k z hw hk hz
  exact hrouse w k hw (hs w k z (hwait w k hw) (hkid w k z hw hz hk) (hzombie z hz))

/-! ### Moves -/

/-- Process `p` goes to `i`; apart from its channel, `p_killed`, `p_pid` and what it takes
    from `esqueue` nothing else changes. -/
structure Still (s t : M) (p : Slot) (i : Pc) : Prop where
  pc : t.pc = Function.update s.pc p i
  cur : t.cur = s.cur
  stat : t.stat = s.stat
  prt : t.mem.prt = s.mem.prt
  procp : t.mem.procp = s.mem.procp
  esqueue : t.mem.esqueue <:+ s.mem.esqueue
  initproc : t.mem.initproc = s.mem.initproc
  chan : ∀ q, q ≠ p → t.chan q = s.chan q

namespace Still

variable (h : Still s t p i)

include h

theorem isKid_eq : isKid t.mem = isKid s.mem := by
  funext p k q
  simp only [isKid, h.prt, h.procp]

theorem inWait_iff (hp : s.stat p = .SRUN) (k : Loop) : InWait t w k ↔ InWait s w k := by
  by_cases hw : w = p
  · subst hw
    simp [InWait, h.stat, hp]
  · simp [InWait, h.stat, h.pc, hw]

theorem at_iff (hp : s.stat p = .SRUN) : At t p i ↔ At s p i := by
  have hkid := h.isKid_eq
  have hwait : ∀ w k, InWait t w k ↔ InWait s w k := fun w k => h.inWait_iff hp k
  have hpass : ∀ k l, Passed t p k l ↔ Passed s p k l := by
    intro k l
    simp only [Passed, hkid, h.stat]
  have hwarn : ∀ j, Warned t p j ↔ Warned s p j := by
    intro j
    simp only [Warned, h.prt, hwait]
  have hdrowsy : ∀ j, Drowsy t j ↔ Drowsy s j := by
    intro j
    cases j <;> simp only [Drowsy, h.stat]
  have hnap : ∀ back, NapOk t p back ↔ NapOk s p back := by
    intro back
    unfold NapOk
    split <;> simp only [h.initproc]
  unfold At
  split <;> simp only [hnap, hpass, hkid, hwarn, hdrowsy, hwait, h.prt, h.stat, h.initproc]

end Still

theorem Family.congr (hs : Family s) (hstat : t.stat = s.stat) (hprt : t.mem.prt = s.mem.prt)
    (hesq : t.mem.esqueue <:+ s.mem.esqueue) (hinit : t.mem.initproc = s.mem.initproc) :
    Family t where
  free z hz := by rw [hstat]; exact hs.free z (hesq.subset hz)
  nodup := hs.nodup.sublist hesq.sublist
  parent := by rw [hprt, hstat]; exact hs.parent
  initLive := by rw [hstat, hinit]; exact hs.initLive
  initPrt := by rw [hprt, hinit]; exact hs.initPrt
  notSelf := by rw [hprt]; exact hs.notSelf

theorem Inv.goes (hs : Inv s) (hc : s.cur = some p) (ht : Alone Racy t)
    (h : Still s t p i) (hl : leaving (s.pc p) = false) (hp : Place t p i)
    (hheld : ∀ z, Holds i z → ∀ q, q ≠ p → ¬ Holds (s.pc q) z)
    (hrouse : ∀ w k, InWait s w k → Rousing s w → Rousing t w) : Inv t := by
  have hrun := hs.running hc hl
  have hpcq : ∀ q, q ≠ p → t.pc q = s.pc q := fun q hq => by simp [h.pc, hq]
  refine hs.assemble (p := p) (i := i) ht
    (hs.family.congr h.stat h.prt h.esqueue h.initproc) (by simp [h.pc]) hp ?_ ?_ hheld ?_
  · intro q hq
    rw [hpcq q hq]
    refine hs.place_other (p := p) (hs.not_racy hc hq) hq ?_ h.initproc ?_ ?_ ?_ ?_ (h.chan q hq)
    · rw [h.cur, hc]
      simpa using Ne.symm hq
    · intro z hz
      exact .inl (h.esqueue.subset hz)
    · intro z _
      rw [h.stat]
    · intro z _
      rw [h.prt]
    · rw [h.stat]
      exact id
  · intro q hq z
    rw [hpcq q hq]
    exact id
  · refine hs.missed.mono (fun w k => (h.inWait_iff hrun k).mp) ?_ ?_ ?_
    · intro z
      rw [h.stat]
      exact id
    · intro w k z _ _
      rw [h.isKid_eq]
      exact id
    · intro w k hw
      exact hrouse w k ((h.inWait_iff hrun k).mp hw)

/-- A move that keeps the wakeup of `initproc` in sight where it is due. -/
theorem Inv.moveWaking (hs : Inv s) (hc : s.cur = some p) (ht : Alone Racy t)
    (h : Still s t p i) (hl : leaving (s.pc p) = false)
    (hcarry : ∀ z, carries i = some z → carries (s.pc p) = some z)
    (hreap : ∀ z, reaps i = some z → reaps (s.pc p) = some z)
    (hcleared : cleared i = true → cleared (s.pc p) = true)
    (hchosen : chosen i = true → t.chan p = some (.proc p)) (hat : At s p i)
    (hrouse : ∀ w k, InWait s w k → Rousing s w → Rousing t w) : Inv t := by
  have hrun := hs.running hc hl
  have hheld : ∀ z, Holds i z → Holds (s.pc p) z := fun z => Or.imp (hcarry z) (hreap z)
  refine hs.goes hc ht h hl ?_ (fun z hz q hq => hs.not_held_other (hheld z hz) hq) hrouse
  refine ⟨?_, ?_, ?_, ?_, ?_, ?_, hchosen, (h.at_iff hrun).mpr hat⟩
  · intro z hz hmem
    exact (hs.place p).heldOut z (hheld z hz) (h.esqueue.subset hmem)
  · intro z hz
    rw [h.stat]
    exact (hs.place p).carried z (hcarry z hz)
  · intro z hz
    rw [h.stat, h.prt]
    exact (hs.place p).reaped z (hreap z hz)
  · intro hcl z hz
    rw [h.stat]
    exact (hs.place p).cleared (hcleared hcl) z (hheld z hz)
  · intro _ _
    rw [h.stat]
    exact hrun
  · intro hsl
    rw [h.stat, hrun] at hsl
    simp at hsl

theorem Inv.move (hs : Inv s) (hc : s.cur = some p) (ht : Alone Racy t)
    (h : Still s t p i) (hl : leaving (s.pc p) = false) (hr : rousing (s.pc p) = false)
    (hcarry : ∀ z, carries i = some z → carries (s.pc p) = some z)
    (hreap : ∀ z, reaps i = some z → reaps (s.pc p) = some z)
    (hcleared : cleared i = true → cleared (s.pc p) = true)
    (hchosen : chosen i = true → t.chan p = some (.proc p)) (hat : At s p i) : Inv t :=
  hs.moveWaking hc ht h hl hcarry hreap hcleared hchosen hat
    fun _ _ _ hrs => absurd hrs (not_rousing hc hr)

/-! ### Work on a slot in hand -/

/-- Process `p` goes to `i` and changes nothing but the slot `z`: its status, its
    parent, its `p_procp`, its context (where it is then at `j`) and whether it is in
    `esqueue`. -/
structure Handles (s t : M) (p z : Slot) (i j : Pc) (st : Stat) (w : Option Slot) (b : Bool) :
    Prop where
  pc : t.pc = Function.update (Function.update s.pc z j) p i
  cur : t.cur = s.cur
  stat : t.stat = Function.update s.stat z st
  prt : t.mem.prt = Function.update s.mem.prt z w
  procp : t.mem.procp = Function.update s.mem.procp z b
  esqueue : t.mem.esqueue = s.mem.esqueue ∨ t.mem.esqueue = s.mem.esqueue ++ [z] ∧ st = .SUNUSED
  initproc : t.mem.initproc = s.mem.initproc
  chan : t.chan = s.chan

namespace Handles

theorem ofStat (st : Stat) : Handles s ((s.setStat z st).goto p i) p z i (s.pc z) st
    (s.mem.prt z) (s.mem.procp z) :=
  ⟨by simp, rfl, rfl, by simp, by simp, .inl rfl, rfl, rfl⟩

theorem ofPrt (v : Option Slot) : Handles s ((s.store (s.mem.setPrt z v)).goto p i) p z i
    (s.pc z) (s.stat z) v (s.mem.procp z) :=
  ⟨by simp, rfl, by simp, rfl, by simp [Table.setPrt], .inl rfl, rfl, rfl⟩

theorem ofProcp (b : Bool) : Handles s ((s.store (s.mem.setProcp z b)).goto p i) p z i
    (s.pc z) (s.stat z) (s.mem.prt z) b :=
  ⟨by simp, rfl, by simp, by simp [Table.setProcp], rfl, .inl rfl, rfl, rfl⟩

theorem ofCtxt (j : Pc) : Handles s ((s.goto z j).goto p i) p z i j (s.stat z)
    (s.mem.prt z) (s.mem.procp z) :=
  ⟨rfl, rfl, by simp, by simp, by simp, .inl rfl, rfl, rfl⟩

theorem ofQueue (h : s.stat z = .SUNUSED) :
    Handles s ((s.store { s.mem with esqueue := s.mem.esqueue ++ [z] }).goto p i) p z i
      (s.pc z) (s.stat z) (s.mem.prt z) (s.mem.procp z) :=
  ⟨by simp, rfl, by simp, by simp, by simp, .inr ⟨rfl, h⟩, rfl, rfl⟩

end Handles

variable {j : Pc} {st : Stat} {v : Option Slot} {b : Bool}

theorem Family.handles (hs : Inv s) (h : Handles s t p z i j st v b) (hz : Holds (s.pc p) z)
    (hv : ∀ w, v = some w → Live (s.stat w)) : Family t := by
  have hdead := hs.held_not_live hz
  have hout : z ∉ s.mem.esqueue := by
    rcases hz with hz | hz
    · exact (hs.place p).heldOut z (.inl hz)
    · exact (hs.place p).heldOut z (.inr hz)
  have hlive : ∀ w, Live (s.stat w) → Live (t.stat w) := by
    intro w hw
    have hne : w ≠ z := fun e => hdead (e ▸ hw)
    rw [h.stat, Function.update_of_ne hne]
    exact hw
  have hin : ∀ r ∈ s.mem.esqueue, t.stat r = .SUNUSED := by
    intro r hr
    have hne : r ≠ z := fun e => hout (e ▸ hr)
    rw [h.stat, Function.update_of_ne hne]
    exact hs.family.free r hr
  refine ⟨?_, ?_, ?_, ?_, ?_, ?_⟩
  · rcases h.esqueue with he | ⟨he, hst⟩
    · rw [he]
      exact hin
    · rw [he]
      intro r hr
      rcases List.mem_append.mp hr with hr | hr
      · exact hin r hr
      · rw [List.mem_singleton.mp hr, h.stat, Function.update_self, hst]
  · rcases h.esqueue with he | ⟨he, -⟩
    · rw [he]
      exact hs.family.nodup
    · rw [he]
      refine hs.family.nodup.append (by simp) ?_
      simpa using hout
  · intro r w hr
    apply hlive
    rw [h.prt] at hr
    by_cases hrz : r = z
    · rw [hrz, Function.update_self] at hr
      exact hv w hr
    · rw [Function.update_of_ne hrz] at hr
      exact hs.family.parent r w hr
  · rw [h.initproc]
    exact hlive _ hs.family.initLive
  · rw [h.initproc, h.prt, Function.update_of_ne (hs.held_ne_init hz).symm]
    exact hs.family.initPrt
  · intro r hr
    rw [h.prt] at hr
    by_cases hrz : r = z
    · rw [hrz, Function.update_self] at hr
      exact hdead (hv z hr)
    · rw [Function.update_of_ne hrz] at hr
      exact hs.family.notSelf r hr

/-- A place that says nothing. -/
def blank : Pc → Bool
  | .user | .gone => true
  | _ => false

theorem not_holds_of_blank (hj : blank i = true) : ¬ Holds i z := by
  cases i
  case user => simp [Holds, carries, reaps]
  case gone => simp [Holds, carries, reaps]
  all_goals simp [blank] at hj

theorem Place.blank (hj : blank i = true) (hcur : t.cur ≠ some p) (hst : t.stat p ≠ .SSLEEPING) :
    Place t p i := by
  cases i
  case user => exact ⟨by simp [Holds, carries, reaps], by simp [carries], by simp [reaps],
    by simp [Wait.cleared], fun h => absurd h hcur, fun h => absurd h hst, by simp [Wait.chosen], trivial⟩
  case gone => exact ⟨by simp [Holds, carries, reaps], by simp [carries], by simp [reaps],
    by simp [Wait.cleared], fun h => absurd h hcur, fun h => absurd h hst, by simp [Wait.chosen], trivial⟩
  all_goals simp [Wait.blank] at hj

theorem Inv.handle (hs : Inv s) (hc : s.cur = some p) (ht : Alone Racy t)
    (h : Handles s t p z i j st v b) (hz : Holds (s.pc p) z)
    (hl : leaving (s.pc p) = false) (hr : rousing (s.pc p) = false)
    (hj : j = s.pc z ∨ blank j = true) (hst : st ≠ .SSLEEPING)
    (hv : ∀ w, v = some w → Live (s.stat w))
    (hzombie : st = .SZOMB → s.stat z = .SZOMB ∧
      (v = none ∨ v = s.mem.prt z ∧ b = s.mem.procp z))
    (hsub : ∀ y, Holds i y → y = z) (hp : Place t p i) : Inv t := by
  have hrun := hs.running hc hl
  have hzp := hs.held_ne_self hc hl hz
  have hpcq : ∀ q, q ≠ p → q ≠ z → t.pc q = s.pc q := fun q hq hqz => by
    simp [h.pc, hq, hqz]
  have hpcz : t.pc z = j := by simp [h.pc, hzp]
  have hstat : ∀ y, y ≠ z → t.stat y = s.stat y := fun y hy => by simp [h.stat, hy]
  have hstz : t.stat z = st := by simp [h.stat]
  have hcur : ∀ q, q ≠ p → t.cur ≠ some q := by
    intro q hq
    rw [h.cur, hc]
    simpa using Ne.symm hq
  -- the places of the others, `z` itself apart
  have hother : ∀ q, q ≠ p → Place t q (s.pc q) := by
    intro q hq
    refine hs.place_other (hs.not_racy hc hq) hq (hcur q hq) h.initproc ?_ ?_ ?_ ?_ (by rw [h.chan])
    · intro y hy
      rcases h.esqueue with he | ⟨he, -⟩
      · exact .inl (he ▸ hy)
      · rw [he] at hy
        rcases List.mem_append.mp hy with hy | hy
        · exact .inl hy
        · rw [List.mem_singleton.mp hy]
          exact .inr hz
    · intro y hy
      exact hstat y fun e => hs.not_held_other hz hq (e ▸ hy)
    · intro y hy
      have hne : y ≠ z := fun e => hs.not_held_other hz hq (e ▸ .inr hy)
      rw [h.prt, Function.update_of_ne hne]
    · intro hsl
      by_cases hqz : q = z
      · rw [hqz, hstz] at hsl
        exact absurd hsl hst
      · rwa [hstat q hqz] at hsl
  refine hs.assemble (p := p) (i := i) ht (Family.handles hs h hz hv) (by simp [h.pc]) hp ?_ ?_ ?_ ?_
  · intro q hq
    by_cases hqz : q = z
    · rw [hqz, hpcz]
      rcases hj with hj | hj
      · rw [hj]
        exact hother z hzp
      · exact Place.blank hj (hcur z hzp) (by rw [hstz]; exact hst)
    · rw [hpcq q hq hqz]
      exact hother q hq
  · intro q hq y hy
    by_cases hqz : q = z
    · rw [hqz, hpcz] at hy
      rw [hqz]
      rcases hj with hj | hj
      · rwa [hj] at hy
      · exact absurd hy (not_holds_of_blank hj)
    · rwa [hpcq q hq hqz] at hy
  · intro y hy q hq
    rw [hsub y hy]
    exact hs.not_held_other hz hq
  · refine hs.missed.mono ?_ ?_ ?_ ?_
    · rintro w k ⟨hw, hpw⟩
      have hwz : w ≠ z := by
        rintro rfl
        rw [hstz] at hw
        exact hst hw
      rw [hstat w hwz] at hw
      have hwp : w ≠ p := by
        rintro rfl
        rw [hrun] at hw
        simp at hw
      rw [hpcq w hwp hwz] at hpw
      exact ⟨hw, hpw⟩
    · intro y hy
      by_cases hyz : y = z
      · rw [hyz, hstz] at hy
        rw [hyz]
        exact (hzombie hy).1
      · rwa [hstat y hyz] at hy
    · intro w k y _ hy hk
      simp only [isKid, h.prt, h.procp, decide_eq_true_eq] at hk ⊢
      by_cases hyz : y = z
      · rw [hyz, hstz] at hy
        rw [hyz, Function.update_self, Function.update_self] at hk
        rcases (hzombie hy).2 with hn | ⟨hv', hb⟩
        · rw [hn] at hk
          simp at hk
        · rw [hyz, ← hv', ← hb]
          exact hk
      · rwa [Function.update_of_ne hyz, Function.update_of_ne hyz] at hk
    · intro w k _ hrs
      exact absurd hrs (not_rousing hc hr)

/-! ### Taking a slot in hand -/

theorem Inv.takes (hs : Inv s) (hc : s.cur = some p) (ht : Alone Racy t)
    (h : Still s t p i) (hl : leaving (s.pc p) = false) (hr : rousing (s.pc p) = false)
    (hesq : s.mem.esqueue = z :: t.mem.esqueue) (hcarry : carries i = some z)
    (hreap : reaps i = none) (hcleared : cleared i = false) (hi : chosen i = false)
    (hat : At s p i) : Inv t := by
  have hrun := hs.running hc hl
  have hz : z ∈ s.mem.esqueue := by simp [hesq]
  have hin : ∀ y, Holds i y → y = z := by
    intro y hy
    simp only [Holds, hcarry, hreap, Option.some.injEq, reduceCtorEq, or_false] at hy
    exact hy.symm
  refine hs.goes hc ht h hl ?_ ?_ fun _ _ _ hrs => absurd hrs (not_rousing hc hr)
  · refine ⟨?_, ?_, ?_, by simp [hcleared], ?_, ?_, ?_, (h.at_iff hrun).mpr hat⟩
    · intro y hy
      have hnd := hs.family.nodup
      rw [hesq] at hnd
      rw [hin y hy]
      exact (List.nodup_cons.mp hnd).1
    · intro y hy
      rw [hin y (.inl hy), h.stat]
      exact .inl (hs.family.free z hz)
    · intro y hy
      rw [hreap] at hy
      simp at hy
    · intro _ _
      rw [h.stat]
      exact hrun
    · intro hsl
      rw [h.stat, hrun] at hsl
      simp at hsl
    · intro hch
      rw [hi] at hch
      simp at hch
  · intro y hy q _ hq
    rw [hin y hy] at hq
    exact (hs.place q).heldOut z hq hz

theorem Inv.finds (hs : Inv s) (hc : s.cur = some p) (ht : Alone Racy t)
    (h : Still s t p i) (hl : leaving (s.pc p) = false) (hr : rousing (s.pc p) = false)
    (hprt : s.mem.prt z = some p) (hz : s.stat z = .SZOMB) (hcarry : carries i = none)
    (hreap : reaps i = some z) (hcleared : cleared i = false) (hi : chosen i = false)
    (hat : At s p i) : Inv t := by
  have hrun := hs.running hc hl
  have hin : ∀ y, Holds i y → y = z := by
    intro y hy
    simp only [Holds, hcarry, hreap, Option.some.injEq, reduceCtorEq, false_or] at hy
    exact hy.symm
  refine hs.goes hc ht h hl ?_ ?_ fun _ _ _ hrs => absurd hrs (not_rousing hc hr)
  · refine ⟨?_, ?_, ?_, by simp [hcleared], ?_, ?_, ?_, (h.at_iff hrun).mpr hat⟩
    · intro y hy hmem
      have hfree := hs.family.free y (h.esqueue.subset hmem)
      rw [hin y hy, hz] at hfree
      simp at hfree
    · intro y hy
      rw [hcarry] at hy
      simp at hy
    · intro y hy
      rw [hin y (.inr hy), h.stat, h.prt]
      exact ⟨.inl hz, .inl hprt⟩
    · intro _ _
      rw [h.stat]
      exact hrun
    · intro hsl
      rw [h.stat, hrun] at hsl
      simp at hsl
    · intro hch
      rw [hi] at hch
      simp at hch
  -- another process that has `z` in hand would be its maker or its parent
  · intro y hy q hq hheld
    rw [hin y hy] at hheld
    rcases hheld with hc' | hr'
    · rcases (hs.place q).carried z hc' with e | e
      · simp [hz] at e
      · simp [hz] at e
    · rcases ((hs.place q).reaped z hr').2 with e | e
      · rw [hprt] at e
        exact hq (Option.some.inj e).symm
      · rw [hprt] at e
        simp at e

/-! ### Handing a child to `initproc` -/

theorem Inv.adopt (hs : Inv s) (hc : s.cur = some p) {l : List Slot}
    (hi : s.pc p = .exitAdopt q l)
    (ht : Alone Racy ((s.store (s.mem.setPrt q (some s.mem.initproc))).goto p (.exitZombie q l))) :
    Inv ((s.store (s.mem.setPrt q (some s.mem.initproc))).goto p (.exitZombie q l)) := by
  have hrun := hs.running hc (by rw [hi]; rfl)
  have hf := (hs.place p).found
  rw [hi] at hf
  obtain ⟨hpi, hwarn, hq, hrest⟩ := hf
  have hqp : q ≠ p := by
    rintro rfl
    exact hs.family.notSelf q hq
  have hqi : q ≠ s.mem.initproc := by
    rintro rfl
    rw [hs.family.initPrt] at hq
    simp at hq
  have hwait : ∀ w k, InWait ((s.store (s.mem.setPrt q (some s.mem.initproc))).goto p
      (.exitZombie q l)) w k → InWait s w k := by
    rintro w k ⟨hw, hpw⟩
    have hwp : w ≠ p := by
      rintro rfl
      simp [hrun] at hw
    exact ⟨hw, by simpa [hwp] using hpw⟩
  refine hs.assemble (p := p) (i := .exitZombie q l) ht ?_ (by simp) ?_ ?_ ?_ ?_ ?_
  · refine ⟨hs.family.free, hs.family.nodup, ?_, hs.family.initLive, ?_, ?_⟩
    · intro r w hr
      by_cases hrq : r = q
      · subst hrq
        simp only [Machine.goto_mem, Machine.store_mem, Table.setPrt, Function.update_self,
          Option.some.injEq] at hr
        rw [← hr]
        exact hs.family.initLive
      · exact hs.family.parent r w (by simpa [Table.setPrt, hrq] using hr)
    · simpa [Table.setPrt, Ne.symm hqi] using hs.family.initPrt
    · intro r
      by_cases hrq : r = q
      · subst hrq
        simpa [Table.setPrt] using Ne.symm hqi
      · simpa [Table.setPrt, hrq] using hs.family.notSelf r
  · refine ⟨by simp [Holds, carries, reaps], by simp [carries], by simp [reaps],
      by simp [cleared], fun _ _ => hrun, fun h => by simp [hrun] at h, by simp [chosen], hpi,
      ?_, ?_⟩
    · intro w k hw hk
      exact hwarn w k (by simpa [Table.setPrt, Ne.symm hqp] using hw) (hwait w k hk)
    · intro r hr
      by_cases hrq : r = q
      · subst hrq
        simpa [Table.setPrt] using Ne.symm hpi
      · have hr' : r ∉ q :: l := by simp [hrq, hr]
        simpa [Table.setPrt, hrq] using hrest r hr'
  · intro r hr
    have hpc : ((s.store (s.mem.setPrt q (some s.mem.initproc))).goto p
        (.exitZombie q l)).pc r = s.pc r := by simp [hr]
    rw [hpc]
    refine hs.place_other (p := p) (hs.not_racy hc hr) hr ?_ rfl (fun z hz => .inl hz)
      (fun _ _ => rfl) ?_ id rfl
    · simpa [hc] using Ne.symm hr
    · intro z hz
      have hzq : z ≠ q := by
        rintro rfl
        rcases ((hs.place r).reaped z hz).2 with e | e
        · rw [hq] at e
          exact hr (Option.some.inj e).symm
        · rw [hq] at e
          simp at e
      simp [Table.setPrt, hzq]
  · intro r hr z
    simp [hr]
  · intro z hz
    simp [Holds, carries, reaps] at hz
  · intro w k z hw hk hz
    have hw' := hwait w k hw
    by_cases hzq : z = q
    · -- the zombie that was handed over: its new parent is woken next
      subst hzq
      have hwi : w = s.mem.initproc := by
        simp only [isKid, Machine.goto_mem, Machine.store_mem, Table.setPrt,
          Function.update_self, decide_eq_true_eq] at hk
        exact (Option.some.inj hk.1).symm
      exact ⟨hwi, p, hc, .inl ⟨z, l, by simp, hz⟩⟩
    · have hk' : isKid s.mem w k z := by
        simpa [isKid, Table.setPrt, hzq] using hk
      exact absurd (hs.missed w k z hw' hk' hz) (not_rousing hc (by rw [hi]; rfl))

/-! ### A change of one status -/

theorem Family.own (hs : Family s) (hp : Live (s.stat p))
    (hst : Live st ∨ p ≠ s.mem.initproc ∧ ∀ r, s.mem.prt r ≠ some p)
    (hstat : t.stat = Function.update s.stat p st) (hmem : t.mem = s.mem) : Family t := by
  have hlive : ∀ w, Live (s.stat w) → (w = p → Live st) → Live (t.stat w) := by
    intro w hw hwp
    rw [hstat]
    by_cases h : w = p
    · simpa [h] using hwp h
    · simpa [h] using hw
  refine ⟨?_, ?_, ?_, ?_, ?_, ?_⟩
  · intro z hz
    rw [hmem] at hz
    have hfree := hs.free z hz
    have hzp : z ≠ p := by
      rintro rfl
      exact hp.ne_unused hfree
    rw [hstat, Function.update_of_ne hzp]
    exact hfree
  · rw [hmem]
    exact hs.nodup
  · intro r w hr
    rw [hmem] at hr
    apply hlive w (hs.parent r w hr)
    rintro rfl
    rcases hst with h | ⟨-, h⟩
    · exact h
    · exact absurd hr (h r)
  · rw [hmem]
    apply hlive _ hs.initLive
    intro e
    rcases hst with h | ⟨h, -⟩
    · exact h
    · exact absurd e.symm h
  · rw [hmem]
    exact hs.initPrt
  · rw [hmem]
    exact hs.notSelf

/-- A sleeper becomes ready. -/
structure Wakes (s t : M) (p q : Slot) (i : Pc) : Prop where
  pc : t.pc = Function.update s.pc p i
  cur : t.cur = s.cur
  stat : t.stat = Function.update s.stat q .READY
  mem : t.mem = s.mem
  chan : t.chan = s.chan

theorem Inv.wake (hs : Inv s) (hc : s.cur = some p) (ht : Alone Racy t)
    (h : Wakes s t p q i) (hl : leaving (s.pc p) = false)
    (hq : s.stat q = .SSLEEPING ∨ s.stat q = .READY) (hnone : ∀ z, ¬ Holds i z)
    (hi : chosen i = false) (hat : At t p i)
    (hrouse : ∀ w k, InWait t w k → Rousing s w → Rousing t w) : Inv t := by
  have hrun := hs.running hc hl
  have hqp : q ≠ p := by
    rintro rfl
    simp [hrun] at hq
  have hpcq : ∀ r, r ≠ p → t.pc r = s.pc r := fun r hr => by simp [h.pc, hr]
  have hstat : ∀ z, z ≠ q → t.stat z = s.stat z := fun z hz => by simp [h.stat, hz]
  have hstq : t.stat q = .READY := by simp [h.stat]
  have hstp : t.stat p = .SRUN := by rw [hstat p (Ne.symm hqp), hrun]
  have hlive : Live (s.stat q) := by
    rcases hq with e | e
    · rw [e]
      trivial
    · rw [e]
      trivial
  refine hs.assemble (p := p) (i := i) ht (hs.family.own hlive (.inl (by trivial)) h.stat h.mem)
    (by simp [h.pc]) ?_ ?_ ?_ (fun z hz => absurd hz (hnone z)) ?_
  · refine ⟨fun z hz => absurd hz (hnone z), fun z hz => absurd (.inl hz) (hnone z),
      fun z hz => absurd (.inr hz) (hnone z), fun _ z hz => absurd hz (hnone z),
      fun _ _ => hstp, ?_, ?_, hat⟩
    · intro hsl
      rw [hstp] at hsl
      simp at hsl
    · intro hch
      rw [hi] at hch
      simp at hch
  · intro r hr
    rw [hpcq r hr]
    refine hs.place_other (p := p) (hs.not_racy hc hr) hr ?_ (by rw [h.mem]) ?_ ?_ ?_ ?_
      (by rw [h.chan])
    · rw [h.cur, hc]
      simpa using Ne.symm hr
    · intro z hz
      exact .inl (h.mem ▸ hz)
    · intro z hz
      apply hstat
      rintro rfl
      exact hs.held_not_live hz hlive
    · intro z _
      rw [h.mem]
    · intro hsl
      by_cases hrq : r = q
      · rw [hrq, hstq] at hsl
        simp at hsl
      · rwa [hstat r hrq] at hsl
  · intro r hr z
    rw [hpcq r hr]
    exact id
  · refine hs.missed.mono ?_ ?_ ?_ hrouse
    · rintro w k ⟨hw, hpw⟩
      have hwq : w ≠ q := by
        rintro rfl
        simp [hstq] at hw
      have hwp : w ≠ p := by
        rintro rfl
        simp [hstp] at hw
      rw [hstat w hwq] at hw
      rw [hpcq w hwp] at hpw
      exact ⟨hw, hpw⟩
    · intro z hz
      by_cases hzq : z = q
      · rw [hzq, hstq] at hz
        simp at hz
      · rwa [hstat z hzq] at hz
    · intro w k z _ _
      rw [h.mem]
      exact id

/-- A step that changes the status, the place and the presence on the CPU of `p`. -/
structure Turns (s t : M) (p : Slot) (i : Pc) (st : Stat) : Prop where
  pc : t.pc = Function.update s.pc p i
  cur : ∀ q, q ≠ p → t.cur ≠ some q
  stat : t.stat = Function.update s.stat p st
  mem : t.mem = s.mem
  chan : t.chan = s.chan

theorem Inv.turn (hs : Inv s) (hnr : ∀ q, q ≠ p → ¬ Racy (s.pc q)) (ht : Alone Racy t)
    (h : Turns s t p i st) (hfamily : Family t)
    (hheld : ∀ q z, Holds (s.pc q) z → t.stat z = s.stat z)
    (hcarry : ∀ z, carries i = some z → carries (s.pc p) = some z)
    (hreap : ∀ z, reaps i = some z → reaps (s.pc p) = some z)
    (hcleared : cleared i = true → cleared (s.pc p) = true)
    (hrunning : t.cur = some p → leaving i = false → st = .SRUN)
    (hdozing : st = .SSLEEPING → dozing i = true)
    (hchosen : chosen i = true → chosen (s.pc p) = true) (hat : At t p i)
    (hnone : NoneMissed t) : Inv t := by
  have hpcq : ∀ r, r ≠ p → t.pc r = s.pc r := fun r hr => by simp [h.pc, hr]
  have hsub : ∀ z, Holds i z → Holds (s.pc p) z := fun z => Or.imp (hcarry z) (hreap z)
  refine hs.assemble (p := p) (i := i) ht hfamily (by simp [h.pc]) ?_ ?_ ?_
    (fun z hz q hq => hs.not_held_other (hsub z hz) hq) hnone
  · refine ⟨?_, ?_, ?_, ?_, ?_, ?_, ?_, hat⟩
    · intro z hz
      rw [h.mem]
      exact (hs.place p).heldOut z (hsub z hz)
    · intro z hz
      rw [hheld p z (.inl (hcarry z hz))]
      exact (hs.place p).carried z (hcarry z hz)
    · intro z hz
      rw [hheld p z (.inr (hreap z hz)), h.mem]
      exact (hs.place p).reaped z (hreap z hz)
    · intro hcl z hz
      rw [hheld p z (hsub z hz)]
      exact (hs.place p).cleared (hcleared hcl) z (hsub z hz)
    · intro hc hl
      rw [h.stat, Function.update_self]
      exact hrunning hc hl
    · intro hsl
      rw [h.stat, Function.update_self] at hsl
      exact hdozing hsl
    · intro hch
      rw [h.chan]
      exact (hs.place p).chosen (hchosen hch)
  · intro r hr
    rw [hpcq r hr]
    refine hs.place_other (p := p) (hnr r hr) hr (h.cur r hr) (by rw [h.mem]) ?_
      (hheld r) (fun z _ => by rw [h.mem]) ?_ (by rw [h.chan])
    · intro z hz
      exact .inl (h.mem ▸ hz)
    · intro hsl
      rwa [h.stat, Function.update_of_ne hr] at hsl
  · intro r hr z
    rw [hpcq r hr]
    exact id

/-- The status of `p` is not that of a slot in anyone's hands. -/
theorem Inv.turn_held (hs : Inv s) (h : Turns s t p i st) (hp : Live (s.stat p)) (q z : Slot)
    (hz : Holds (s.pc q) z) : t.stat z = s.stat z := by
  have hne : z ≠ p := by
    rintro rfl
    exact hs.held_not_live hz hp
  rw [h.stat, Function.update_of_ne hne]

theorem Turns.inWait_of_ne (h : Turns s t p i st) (hw : w ≠ p) {k : Loop} :
    InWait t w k ↔ InWait s w k := by
  simp [InWait, h.stat, h.pc, hw]

theorem Inv.doze (hs : Inv s) (hc : s.cur = some p) (ht : Alone Racy t)
    (h : Turns s t p i .SSLEEPING) (hl : leaving (s.pc p) = false)
    (hr : rousing (s.pc p) = false) (hleave : leaving i = true) (hdozing : dozing i = true)
    (hcarry : ∀ z, carries i = some z → carries (s.pc p) = some z)
    (hreap : ∀ z, reaps i = some z → reaps (s.pc p) = some z)
    (hcleared : cleared i = true → cleared (s.pc p) = true)
    (hchosen : chosen i = true → chosen (s.pc p) = true) (hat : At t p i)
    (hpassed : ∀ k, i = .sleep k .transform ∨ i = .sleep k .back → Passed s p k []) : Inv t := by
  have hrun := hs.running hc hl
  have hlive : Live (s.stat p) := by rw [hrun]; trivial
  refine hs.turn (fun q hq => hs.not_racy hc hq) ht h
    (hs.family.own hlive (.inl (by trivial)) h.stat h.mem) (hs.turn_held h hlive) hcarry hreap
    hcleared ?_ (fun _ => hdozing) hchosen hat ?_
  · intro _ hl'
    rw [hleave] at hl'
    simp at hl'
  · intro w k z hw hk hz
    have hzp : z ≠ p := by
      rintro rfl
      rw [h.stat, Function.update_self] at hz
      simp at hz
    rw [h.stat, Function.update_of_ne hzp] at hz
    rw [h.mem] at hk
    by_cases hwp : w = p
    · subst hwp
      have hi : i = .sleep k .transform ∨ i = .sleep k .back := by simpa [h.pc] using hw.2
      exact absurd hz (hpassed k hi z (by simp) hk)
    · exact absurd (hs.missed w k z ((h.inWait_of_ne hwp).mp hw) hk hz) (not_rousing hc hr)

theorem Inv.die (hs : Inv s) (hc : s.cur = some p) (ht : Alone Racy t)
    (h : Turns s t p .exitLeave .SZOMB) (hi : s.pc p = .exitDie) : Inv t := by
  have hrun := hs.running hc (by rw [hi]; rfl)
  have hlive : Live (s.stat p) := by rw [hrun]; trivial
  have hf := (hs.place p).found
  rw [hi] at hf
  obtain ⟨hpi, hwarn, hkids⟩ := hf
  refine hs.turn (fun q hq => hs.not_racy hc hq) ht h
    (hs.family.own hlive (.inr ⟨hpi, hkids⟩) h.stat h.mem) (hs.turn_held h hlive)
    (by simp [carries]) (by simp [reaps]) (by simp [cleared]) (by simp [leaving]) (by simp)
    (by simp [chosen]) trivial ?_
  intro w k z hw hk hz
  have hwp : w ≠ p := by
    rintro rfl
    have hsl := hw.1
    rw [h.stat, Function.update_self] at hsl
    simp at hsl
  have hw' : InWait s w k := (h.inWait_of_ne hwp).mp hw
  rw [h.mem] at hk
  by_cases hzp : z = p
  · -- the parent was woken before, and has not run since
    subst hzp
    have hprt : s.mem.prt z = some w := by
      simp only [isKid, decide_eq_true_eq] at hk
      exact hk.1
    have hpend := hwarn w k hprt hw'
    simp [pending] at hpend
  · rw [h.stat, Function.update_of_ne hzp] at hz
    exact absurd (hs.missed w k z hw' hk hz) (not_rousing hc (by rw [hi]; rfl))

theorem Inv.leave (hs : Inv s) (hc : s.cur = some p) (ht : Alone Racy t)
    (hpc : t.pc = Function.update s.pc p i) (hcur : t.cur = none) (hstat : t.stat = s.stat)
    (hmem : t.mem = s.mem) (hchan : t.chan = s.chan) (hr : rousing (s.pc p) = false)
    (hcarry : ∀ z, carries i = some z → carries (s.pc p) = some z)
    (hreap : ∀ z, reaps i = some z → reaps (s.pc p) = some z)
    (hcleared : cleared i = true → cleared (s.pc p) = true)
    (hdozing : dozing (s.pc p) = true → dozing i = true)
    (hchosen : chosen i = true → chosen (s.pc p) = true) (hat : At t p i)
    (hwait : ∀ k, i = .sleep k .transform ∨ i = .sleep k .back → s.pc p = .sleep k .transform) :
    Inv t := by
  have h : Turns s t p i (s.stat p) :=
    ⟨hpc, fun q _ => by simp [hcur], by rw [hstat, Function.update_eq_self], hmem, hchan⟩
  refine hs.turn (fun q hq => hs.not_racy hc hq) ht h
    (hs.family.congr hstat (by rw [hmem]) (by rw [hmem]) (by rw [hmem]))
    (fun _ _ _ => by rw [hstat]) hcarry hreap hcleared (by simp [hcur])
    (fun hsl => hdozing ((hs.place p).dozing hsl)) hchosen hat ?_
  refine hs.missed.mono ?_ (fun z => by rw [hstat]; exact id) (fun w k z _ _ => by
    rw [hmem]
    exact id) (fun w k _ hrs => absurd hrs (not_rousing hc hr))
  intro w k hw
  by_cases hwp : w = p
  · subst hwp
    have hi : i = .sleep k .transform ∨ i = .sleep k .back := by simpa [hpc] using hw.2
    exact ⟨hstat ▸ hw.1, .inl (hwait k hi)⟩
  · exact (h.inWait_of_ne hwp).mp hw

/-! ### The switches -/

theorem not_rousing_of_not_racy (h : ¬ Racy i) : rousing i = false := by
  cases i
  case exitZombie => exact absurd trivial h
  case exitRouse => exact absurd trivial h
  all_goals rfl

theorem Inv.timer (hs : Inv s) (hc : s.cur = some p) (hp : s.stat p = .SRUN)
    (hcalm : ¬ Racy (s.pc p)) (ht : Alone Racy (s.giveupCpu p)) : Inv (s.giveupCpu p) := by
  have hlive : Live (s.stat p) := by rw [hp]; trivial
  have h : Turns s (s.giveupCpu p) p (s.pc p) .READY :=
    ⟨by simp, by simp, rfl, rfl, rfl⟩
  refine hs.turn (fun q hq => hs.not_racy hc hq) ht h
    (hs.family.own hlive (.inl (by trivial)) h.stat h.mem) (hs.turn_held h hlive)
    (fun _ => id) (fun _ => id) id (by simp) (by simp) id
    (At.other (s := s) hcalm rfl (hs.place p).found) ?_
  intro w k z hw hk hz
  have hwp : w ≠ p := by
    rintro rfl
    have hsl := hw.1
    simp at hsl
  have hzp : z ≠ p := by
    rintro rfl
    simp at hz
  have hz' : s.stat z = .SZOMB := by simpa [hzp] using hz
  exact absurd (hs.missed w k z ((h.inWait_of_ne hwp).mp hw) hk hz')
    (not_rousing hc (not_rousing_of_not_racy hcalm))

theorem Inv.dispatch (hs : Inv s) (hc : s.cur = none) (hp : s.stat p = .READY)
    (ht : Alone Racy (s.switchTo p)) : Inv (s.switchTo p) := by
  have hlive : Live (s.stat p) := by rw [hp]; trivial
  have hnr : ∀ q, ¬ Racy (s.pc q) := by
    intro q hq
    have hcur := hs.alone q hq
    rw [hc] at hcur
    simp at hcur
  have h : Turns s (s.switchTo p) p (s.pc p) .SRUN :=
    ⟨by simp, fun q hq => by simpa using Ne.symm hq, rfl, rfl, rfl⟩
  refine hs.turn (fun q _ => hnr q) ht h
    (hs.family.own hlive (.inl (by trivial)) h.stat h.mem) (hs.turn_held h hlive)
    (fun _ => id) (fun _ => id) id (by simp) (by simp) id
    (At.other (s := s) (hnr p) rfl (hs.place p).found) ?_
  intro w k z hw hk hz
  have hwp : w ≠ p := by
    rintro rfl
    have hsl := hw.1
    simp at hsl
  have hzp : z ≠ p := by
    rintro rfl
    simp at hz
  have hz' : s.stat z = .SZOMB := by simpa [hzp] using hz
  obtain ⟨-, x, hx, -⟩ := hs.missed w k z ((h.inWait_of_ne hwp).mp hw) hk hz'
  rw [hc] at hx
  simp at hx

theorem inWait_of_rouse {k : Loop} (h : InWait (s.setStat q .READY) w k) : InWait s w k := by
  have hwq : w ≠ q := by
    rintro rfl
    have hsl := h.1
    simp at hsl
  exact ⟨by simpa [hwq] using h.1, h.2⟩

theorem zombie_of_rouse (h : (s.setStat q .READY).stat z = .SZOMB) : s.stat z = .SZOMB := by
  have hzq : z ≠ q := by
    rintro rfl
    simp at h
  simpa [hzq] using h

theorem drowsy_rouse (h : s.stat z = .SSLEEPING ∨ s.stat z = .READY) :
    (s.setStat q .READY).stat z = .SSLEEPING ∨ (s.setStat q .READY).stat z = .READY := by
  by_cases hzq : z = q
  · simp [hzq]
  · simpa [hzq] using h

theorem Passed.rouse {k : Loop} {l : List Slot} (h : Passed s p k l) :
    Passed (s.setStat q .READY) p k l :=
  fun z hz hk hst => h z hz hk (zombie_of_rouse hst)

theorem Warned.rouse {j : WakePc Slot} (h : Warned s p j) : Warned (s.setStat q .READY) p j :=
  fun w k hw hk => h w k hw (inWait_of_rouse hk)

theorem Drowsy.rouse {j : WakePc Slot} (h : Drowsy s j) : Drowsy (s.setStat q .READY) j := by
  cases j with
  | test l => trivial
  | ready r l => exact drowsy_rouse h

theorem At.rouse (h : At s p i) : At (s.setStat q .READY) p i := by
  cases i with
  | scan k kid l => exact Passed.rouse h
  | scanKid k r l => exact ⟨h.1.rouse, h.2⟩
  | scanZombie k r l => exact ⟨h.1.rouse, h.2⟩
  | sleep k j =>
    cases j with
    | chan => exact Passed.rouse h
    | stat => exact Passed.rouse h
    | transform => trivial
    | back => trivial
  | exitWake e j => exact ⟨h.1, h.2.1, h.2.2.1.rouse, h.2.2.2.rouse⟩
  | exitScan l => exact ⟨h.1, h.2.1.rouse, h.2.2⟩
  | exitAdopt r l => exact ⟨h.1, h.2.1.rouse, h.2.2⟩
  | exitZombie r l => exact ⟨h.1, h.2.1.rouse, h.2.2⟩
  | exitRouse j l =>
    exact ⟨h.1, h.2.1.rouse, h.2.2.1.rouse, h.2.2.2.1,
      fun k hk => h.2.2.2.2 k (inWait_of_rouse hk)⟩
  | exitDie => exact ⟨h.1, h.2.1.rouse, h.2.2⟩
  | killReady r => exact drowsy_rouse h
  | exitFiles => exact h
  | nap back a j =>
    cases back
    all_goals exact h
  | user | gone | allocEmpty | allocFirst | allocRemove | allocEmbryo | allocPid | allocStack
  | allocUnused | allocCtxt | forkCopy | forkUnused | forkQueue | setPrt | setCtxt | setProcp
  | setReady | exitInit | exitLeave | dead | scanStart | reapPid | reapPrt | reapKilled
  | reapStat | reapQueue | killScan | killKilled | killTest => trivial

theorem Inv.rouse (hs : Inv s) (hq : s.stat q = .SSLEEPING) : Inv (s.setStat q .READY) := by
  have hlive : Live (s.stat q) := by rw [hq]; trivial
  have hstat : ∀ z, z ≠ q → (s.setStat q .READY).stat z = s.stat z := fun z hz => by simp [hz]
  have hheld : ∀ r z, Holds (s.pc r) z → (s.setStat q .READY).stat z = s.stat z := by
    intro r z hz
    apply hstat
    rintro rfl
    exact hs.held_not_live hz hlive
  refine ⟨hs.alone, hs.family.own hlive (.inl (by trivial)) rfl rfl, ?_, hs.heldOne, ?_⟩
  · intro r
    have h := hs.place r
    refine ⟨h.heldOut, ?_, ?_, ?_, ?_, ?_, h.chosen, h.found.rouse⟩
    · intro z hz
      rw [hheld r z (.inl hz)]
      exact h.carried z hz
    · intro z hz
      rw [hheld r z (.inr hz)]
      exact h.reaped z hz
    · intro hcl z hz
      rw [hheld r z hz]
      exact h.cleared hcl z hz
    · intro hc hl
      have hrun := h.running hc hl
      have hrq : r ≠ q := by
        rintro rfl
        rw [hq] at hrun
        simp at hrun
      rw [hstat r hrq]
      exact hrun
    · intro hsl
      have hrq : r ≠ q := by
        rintro rfl
        simp at hsl
      rw [hstat r hrq] at hsl
      exact h.dozing hsl
  · refine hs.missed.mono (fun w k => inWait_of_rouse) (fun z => zombie_of_rouse)
      (fun w k z _ _ => id) ?_
    rintro w k - ⟨hw, x, hx, ⟨r, l, hr, hz⟩ | h⟩
    · have hrq : r ≠ q := by
        rintro rfl
        rw [hq] at hz
        simp at hz
      exact ⟨hw, x, hx, .inl ⟨r, l, hr, by rw [hstat r hrq]; exact hz⟩⟩
    · exact ⟨hw, x, hx, .inr h⟩

end Yonix.Sync.Wait
