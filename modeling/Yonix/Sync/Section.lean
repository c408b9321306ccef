/-
  Yonix/Sync/Section.lean
  =======================
  **The code between two sleeps as one step.**

  A program of the machine may do more than one statement in a step.  Here are `sleep`
  and `wakeup` as such a program uses them: `wakeup` goes through the whole table, and
  `sleep` ends the step, with the place at which the process goes on.
-/
import Yonix.Sync.Machine

namespace Yonix.Sync.Machine

open Yonix.Proc (Stat)

variable {P χ ι σ κ : Type} [DecidableEq P] [DecidableEq χ] {s : Machine P χ ι σ} {p q : P} {e : χ}

/-- `p` sleeps on `e`. -/
def Asleep (s : Machine P χ ι σ) (p : P) (e : χ) : Prop := s.stat p = .SSLEEPING ∧ s.chan p = some e

instance (s : Machine P χ ι σ) (p : P) (e : χ) : Decidable (s.Asleep p e) := by
  unfold Asleep; infer_instance

@[simps -fullyApplied] def wakeup (s : Machine P χ ι σ) (e : χ) : Machine P χ ι σ :=
  { s with stat := fun q => if s.Asleep q e then .READY else s.stat q }

/-- `sleep(e)` by `p`, which goes on at `i`. -/
@[simps -fullyApplied] def sleep (s : Machine P χ ι σ) (p : P) (e : χ) (i : ι) : Machine P χ ι σ :=
  { ((s.setChan p (some e)).setStat p .SSLEEPING).goto p i with cur := none }

/-- `kill` or an interrupt makes a sleeping process ready. -/
@[simps -fullyApplied] def rouse (s : Machine P χ ι σ) (p : P) : Machine P χ ι σ :=
  { s with stat := fun q => if q = p ∧ s.stat q = .SSLEEPING then .READY else s.stat q }

omit [DecidableEq P] in
theorem asleep_wakeup {e' : χ} : (s.wakeup e).Asleep q e' ↔ s.Asleep q e' ∧ e' ≠ e := by
  by_cases h : s.Asleep q e
  · have hst : (s.wakeup e).stat q = .READY := if_pos h
    constructor
    · intro h'
      rw [Asleep, hst] at h'
      simp at h'
    · rintro ⟨h', hne⟩
      exact absurd (Option.some.inj (h'.2.symm.trans h.2)) hne
  · have hst : (s.wakeup e).stat q = s.stat q := if_neg h
    rw [Asleep, hst]
    constructor
    · intro h'
      refine ⟨h', ?_⟩
      rintro rfl
      exact h h'
    · exact fun h' => h'.1

omit [DecidableEq χ] in
theorem asleep_sleep {i : ι} {e' : χ} :
    (s.sleep p e i).Asleep q e' ↔ if q = p then e' = e else s.Asleep q e' := by
  by_cases hq : q = p
  · simp [Asleep, sleep, hq, eq_comm]
  · simp [Asleep, sleep, hq]

omit [DecidableEq χ] in
theorem asleep_rouse {e' : χ} : (s.rouse p).Asleep q e' ↔ s.Asleep q e' ∧ q ≠ p := by
  simp only [Asleep, rouse]
  by_cases hq : q = p
  · subst hq
    split
    · simp
    · rename_i h
      simp_all
  · simp [hq]

omit [DecidableEq χ] in
/-- A process that is not asleep stays so when its channel or place changes. -/
theorem asleep_setChan_none {e' : χ} :
    (s.setChan p none).Asleep q e' ↔ s.Asleep q e' ∧ q ≠ p := by
  by_cases hq : q = p
  · simp [Asleep, hq]
  · simp [Asleep, hq]

omit [DecidableEq P] [DecidableEq χ] in
theorem Asleep.of_stat {t : Machine P χ ι σ} (h : t.Asleep q e) (hs : t.stat = s.stat)
    (hc : t.chan = s.chan) : s.Asleep q e := by
  simpa only [Asleep, hs, hc] using h

end Yonix.Sync.Machine
