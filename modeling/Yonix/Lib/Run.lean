/-
  Yonix/Lib/Run.lean
  ==================
  **Runs of a labelled transition system and the invariant rules for them.**

  A system is a relation `step s a t` on an arbitrary state type with arbitrary
  labels.  `Run step s as t` says that `t` is reached from `s` by performing the
  labels `as` in order.  Two invariant rules are all the developments above need:
  one for properties of the state alone, and one for properties that relate the
  state to the labels performed so far.  `Run.of_foldlM` turns the evaluation of
  an executable transition function into a run, so that a concrete trace can be
  exhibited by computation.
-/
import Mathlib

namespace Yonix

variable {σ α ε : Type*}

/-! ### Fallible computations -/

theorem bind_eq_ok {α β : Type u} {x : Except ε α} {f : α → Except ε β} {b : β} :
    (x >>= f) = .ok b ↔ ∃ a, x = .ok a ∧ f a = .ok b := by
  cases x with
  | error e => simp [bind, Except.bind]
  | ok a => simp [bind, Except.bind]

/-- The computation succeeds with a result that passes the test. -/
def okWith (p : σ → Bool) : Except ε σ → Bool
  | .ok a => p a
  | .error _ => false

theorem okWith_eq_true {p : σ → Bool} {x : Except ε σ} :
    okWith p x = true ↔ ∃ a, x = .ok a ∧ p a = true := by
  cases x with
  | error e => simp [okWith]
  | ok a => simp [okWith]

/-! ### Runs -/

/-- `t` is reached from `s` by performing the labels `as` in order. -/
inductive Run (step : σ → α → σ → Prop) (s : σ) : List α → σ → Prop where
  | nil : Run step s [] s
  | snoc {as : List α} {t u : σ} {a : α} :
      Run step s as t → step t a u → Run step s (as ++ [a]) u

namespace Run

variable {step step' : σ → α → σ → Prop} {s t u : σ} {as bs : List α} {a : α}

theorem single (h : step s a t) : Run step s [a] t := Run.snoc Run.nil h

theorem append (h1 : Run step s as t) (h2 : Run step t bs u) : Run step s (as ++ bs) u := by
  induction h2 with
  | nil => simpa using h1
  | snoc _ hst ih =>
    rw [← List.append_assoc]
    exact Run.snoc ih hst

theorem cons (h : step s a t) (h2 : Run step t bs u) : Run step s (a :: bs) u :=
  append (single h) h2

theorem mono (h : ∀ s a t, step s a t → step' s a t) (r : Run step s as t) :
    Run step' s as t := by
  induction r with
  | nil => exact Run.nil
  | snoc _ hst ih => exact Run.snoc ih (h _ _ _ hst)

theorem unsnoc (r : Run step s (as ++ [a]) u) : ∃ t, Run step s as t ∧ step t a u := by
  generalize hl : as ++ [a] = l at r
  cases r with
  | nil => simp at hl
  | snoc hr hst =>
    obtain ⟨rfl, hlast⟩ := List.append_inj' hl rfl
    cases hlast
    exact ⟨_, hr, hst⟩

theorem unique (hdet : ∀ s a t t', step s a t → step s a t' → t = t') (h1 : Run step s as t)
    (h2 : Run step s as u) : t = u := by
  induction h1 generalizing u with
  | nil =>
    generalize hl : ([] : List α) = l at h2
    cases h2 with
    | nil => rfl
    | snoc _ _ => simp at hl
  | snoc _ hst ih =>
    obtain ⟨v, hv, hvu⟩ := unsnoc h2
    cases ih hv
    exact hdet _ _ _ _ hst hvu

/-- **State invariants.**  A property that holds initially and is preserved by
    every step holds at the end of every run. -/
theorem invariant (Inv : σ → Prop) (h0 : Inv s)
    (hstep : ∀ t a u, Inv t → step t a u → Inv u) (r : Run step s as t) : Inv t := by
  induction r with
  | nil => exact h0
  | snoc _ hst ih => exact hstep _ _ _ ih hst

/-- **History invariants.**  The same for a property of the state and of the
    labels performed since the start of the run. -/
theorem history (Inv : List α → σ → Prop) (h0 : Inv [] s)
    (hstep : ∀ as t a u, Inv as t → step t a u → Inv (as ++ [a]) u)
    (r : Run step s as t) : Inv as t := by
  induction r with
  | nil => exact h0
  | snoc _ hst ih => exact hstep _ _ _ _ ih hst

/-- Evaluating an executable transition function along a list of labels yields a
    run of the relation it computes. -/
theorem of_foldlM {f : σ → α → Except ε σ} (h : as.foldlM f s = .ok t) :
    Run (fun s a t => f s a = .ok t) s as t := by
  induction as generalizing s with
  | nil =>
    have : s = t := by simpa [List.foldlM, pure, Except.pure] using h
    subst this
    exact Run.nil
  | cons a as ih =>
    rw [List.foldlM_cons] at h
    cases hf : f s a with
    | error e => rw [hf] at h; simp [bind, Except.bind] at h
    | ok s' =>
      rw [hf] at h
      exact cons hf (ih h)

end Run

end Yonix
