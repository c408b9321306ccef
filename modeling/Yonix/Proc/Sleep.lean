/-
  Yonix/Proc/Sleep.lean
  =====================
  **What sleeping does to the priority of a process.**

  `sleep` adds `tick0 - ticks` to `p_avgslp`, as unsigned numbers, where `ticks - tick0` is
  how long it has slept: a short sleep is taken off the average, and one that is longer than
  the average makes it `MAX_AVGSLP`.  `Raises` says what two sleeps from one state should do;
  they do it exactly when neither is long enough to matter and short enough to be taken off
  (`sleep_raises_iff`).
-/
import Yonix.Proc.Model

namespace Yonix.Proc

variable {s u t : Kernel} {p : Slot} {tick0 d₁ d₂ : Nat}

/-! ### What should happen -/

/-- Process `p`, asleep since `tick0`, goes on after `d` ticks. -/
def slept (s : Kernel) (p : Slot) (tick0 d : Nat) : Kernel :=
  awake { s with ticks := (tick0 + d) % 2 ^ 32 } p tick0

/-- Two sleeps of process `p` that begin at `tick0`, the second one not the shorter. -/
structure Raises (s : Kernel) (p : Slot) (tick0 d₁ d₂ : Nat) : Prop where
  sets : ∀ d, d = d₁ ∨ d = d₂ →
    ((slept s p tick0 d).proc p).avgslp = min ((s.proc p).avgslp + d) MAX_AVGSLP
  neverLowers : ∀ d, d = d₁ ∨ d = d₂ → (s.proc p).avgslp ≤ ((slept s p tick0 d).proc p).avgslp
  longer : ((slept s p tick0 d₁).proc p).avgslp ≤ ((slept s p tick0 d₂).proc p).avgslp
  /-- the next `sched_priority_after`, with the same `p_nice` -/
  dpri : ∀ {u₁ u₂ t₁ t₂ : Kernel}, u₁.scheme = .PRIORITY → u₂.scheme = .PRIORITY →
    (u₁.proc p).nice = (u₂.proc p).nice →
    (u₁.proc p).avgslp = ((slept s p tick0 d₁).proc p).avgslp →
    (u₂.proc p).avgslp = ((slept s p tick0 d₂).proc p).avgslp →
    after u₁ p = .ok t₁ → after u₂ p = .ok t₂ → (t₂.proc p).dpri ≤ (t₁.proc p).dpri

/-- Nothing is taken off the average, or it would have become `MAX_AVGSLP` anyway. -/
def Spared (avgslp : Int) (d : Nat) : Prop :=
  0 ≤ avgslp ∧ d = 0 ∨ avgslp < d ∧ MAX_AVGSLP ≤ avgslp + d

/-! ### What happens -/

theorem slept_avgslp (s : Kernel) (p : Slot) (tick0 d : Nat) :
    ((slept s p tick0 d).proc p).avgslp =
      avgslpAfter (s.proc p).avgslp tick0 ((tick0 + d) % 2 ^ 32) := by
  unfold slept awake Kernel.set
  dsimp only
  rw [Function.update_self]

/-- The sum wraps around when the sleep was longer than the average. -/
theorem avgslpAfter_eq {a : Int} (ha : -50 ≤ a ∧ a ≤ 100) {d : Nat} (hd : d < 2 ^ 31) (tick0 : Nat) :
    avgslpAfter a tick0 ((tick0 + d) % 2 ^ 32) = if d ≤ a then a - d else MAX_AVGSLP := by
  have hsum : (a + ((tick0 : Int) - ((tick0 + d) % 2 ^ 32 : Nat))) % 2 ^ 32 = (a - d) % 2 ^ 32 := by
    omega
  unfold avgslpAfter MAX_AVGSLP
  rw [hsum]
  dsimp only
  split <;> split <;> omega

theorem after_dpri (hs : u.scheme = .PRIORITY) (ht : after u p = .ok t) :
    (t.proc p).dpri = dynamicPri (staticPri (u.proc p).nice) (bonus (u.proc p).avgslp) := by
  unfold after at ht
  rw [hs] at ht
  dsimp only at ht
  split at ht
  · cases ht
    unfold insertDy Kernel.set
    dsimp only
    rw [Function.update_self]
    rfl
  · cases ht

theorem bonus_mono {a b : Int} (h : a ≤ b) : bonus a ≤ bonus b := by
  exact Int.tdiv_le_tdiv (by decide) h

theorem dynamicPri_anti (spri : Int) {a b : Int} (h : a ≤ b) :
    dynamicPri spri b ≤ dynamicPri spri a := by
  unfold dynamicPri
  omega

/-- A higher average is no worse for the next priority. -/
theorem after_anti {u₁ u₂ t₁ t₂ : Kernel} (hs₁ : u₁.scheme = .PRIORITY) (hs₂ : u₂.scheme = .PRIORITY)
    (hnice : (u₁.proc p).nice = (u₂.proc p).nice)
    (havg : (u₁.proc p).avgslp ≤ (u₂.proc p).avgslp) (ht₁ : after u₁ p = .ok t₁)
    (ht₂ : after u₂ p = .ok t₂) : (t₂.proc p).dpri ≤ (t₁.proc p).dpri := by
  rw [after_dpri hs₁ ht₁, after_dpri hs₂ ht₂, hnice]
  exact dynamicPri_anti _ (bonus_mono havg)

/-- The sum that `sleep` computes is the right one exactly when the sleep is spared. -/
theorem slept_sets_iff (ha : -50 ≤ (s.proc p).avgslp ∧ (s.proc p).avgslp ≤ 100) {d : Nat}
    (hd : d < 2 ^ 31) (tick0 : Nat) :
    ((slept s p tick0 d).proc p).avgslp = min ((s.proc p).avgslp + d) MAX_AVGSLP ↔
      Spared (s.proc p).avgslp d := by
  rw [slept_avgslp, avgslpAfter_eq ha hd]
  unfold Spared MAX_AVGSLP
  split <;> omega

/-- **Sleeping raises the priority as it should exactly when both sleeps are spared.** -/
theorem sleep_raises_iff (s : Kernel) (p : Slot) (tick0 : Nat)
    (ha : -50 ≤ (s.proc p).avgslp ∧ (s.proc p).avgslp ≤ 100) (hle : d₁ ≤ d₂) (hd : d₂ < 2 ^ 31) :
    Raises s p tick0 d₁ d₂ ↔ Spared (s.proc p).avgslp d₁ ∧ Spared (s.proc p).avgslp d₂ := by
  have hiff₁ := slept_sets_iff ha (Nat.lt_of_le_of_lt hle hd) tick0
  have hiff₂ := slept_sets_iff ha hd tick0
  constructor
  · intro h
    exact ⟨hiff₁.mp (h.sets d₁ (Or.inl rfl)), hiff₂.mp (h.sets d₂ (Or.inr rfl))⟩
  · rintro ⟨h₁, h₂⟩
    replace h₁ := hiff₁.mpr h₁
    replace h₂ := hiff₂.mpr h₂
    have hlonger : ((slept s p tick0 d₁).proc p).avgslp ≤ ((slept s p tick0 d₂).proc p).avgslp := by
      rw [h₁, h₂]
      omega
    have hraise : ∀ d : Nat, (s.proc p).avgslp ≤ min ((s.proc p).avgslp + d) MAX_AVGSLP := by
      intro d
      unfold MAX_AVGSLP
      omega
    refine ⟨?_, ?_, hlonger, ?_⟩
    · rintro d (rfl | rfl)
      · exact h₁
      · exact h₂
    · rintro d (rfl | rfl)
      · rw [h₁]
        exact hraise d
      · rw [h₂]
        exact hraise d
    · intro u₁ u₂ t₁ t₂ hs₁ hs₂ hnice havg₁ havg₂ ht₁ ht₂
      exact after_anti hs₁ hs₂ hnice (by rw [havg₁, havg₂]; exact hlonger) ht₁ ht₂

/-- From an average of 0, two sleeps of 100 and 200 ticks over the end of `ticks`. -/
theorem sleep_raises_long : Raises start ⟨0, by decide⟩ 4294967295 100 200 :=
  (sleep_raises_iff start ⟨0, by decide⟩ 4294967295 (by decide) (by decide) (by decide)).mpr
    ⟨Or.inr (by decide), Or.inr (by decide)⟩

/-- With an average of 50, a sleep of 30 ticks makes it 20, which is not 80. -/
theorem short_sleep_lowers : ∃ s : Kernel, (s.proc ⟨0, by decide⟩).avgslp = 50 ∧
    ((slept s ⟨0, by decide⟩ 7 30).proc ⟨0, by decide⟩).avgslp = 20 ∧
    ¬ Raises s ⟨0, by decide⟩ 7 30 30 := by
  have hslept : ((slept (start.set ⟨0, by decide⟩ fun q => { q with avgslp := 50 }) ⟨0, by decide⟩
      7 30).proc ⟨0, by decide⟩).avgslp = 20 := by
    rw [slept_avgslp]
    rfl
  refine ⟨start.set ⟨0, by decide⟩ fun q => { q with avgslp := 50 }, rfl, hslept, ?_⟩
  intro h
  have hsets := h.sets 30 (Or.inl rfl)
  rw [hslept] at hsets
  exact absurd hsets (by decide)

end Yonix.Proc
