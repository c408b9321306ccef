/-
  Yonix/Lib/Redo.lean
  ===================
  **Single-cell writes to a store, and what a prefix of them leaves behind.**

  A store is a function from addresses to contents.  `applyW ws d` performs the
  writes `ws` in order.  A machine that stops between two writes leaves
  `applyW (ws.take k) d` for some `k`; `applyW_take_of_inv` is the rule that a
  property preserved by each single write survives such a stop, and the remaining
  lemmas say what a complete list of writes leaves at each address.
-/
import Mathlib

namespace Yonix

variable {ι β : Type*} [DecidableEq ι]

/-- Perform the writes `ws` on the store `d`, in order. -/
def applyW (ws : List (ι × β)) (d : ι → β) : ι → β :=
  ws.foldl (fun d w => Function.update d w.1 w.2) d

@[simp] theorem applyW_nil (d : ι → β) : applyW [] d = d := rfl

@[simp] theorem applyW_cons (w : ι × β) (ws : List (ι × β)) (d : ι → β) :
    applyW (w :: ws) d = applyW ws (Function.update d w.1 w.2) := rfl

theorem applyW_append (ws vs : List (ι × β)) (d : ι → β) :
    applyW (ws ++ vs) d = applyW vs (applyW ws d) := by
  simp only [applyW, List.foldl_append]

/-- An address that no write names keeps its contents. -/
theorem applyW_of_not_mem {ws : List (ι × β)} {x : ι} (d : ι → β)
    (h : ∀ w ∈ ws, w.1 ≠ x) : applyW ws d x = d x := by
  induction ws generalizing d with
  | nil => rfl
  | cons w ws ih =>
    rw [applyW_cons, ih _ (fun v hv => h v (List.mem_cons_of_mem _ hv))]
    exact Function.update_of_ne (Ne.symm (h w List.mem_cons_self)) _ _

/-- When the writes name pairwise distinct addresses, each address ends with the
    contents written to it. -/
theorem applyW_of_mem {ws : List (ι × β)} (hnd : (ws.map Prod.fst).Nodup) (d : ι → β)
    {w : ι × β} (h : w ∈ ws) : applyW ws d w.1 = w.2 := by
  induction ws generalizing d with
  | nil => cases h
  | cons v ws ih =>
    rw [List.map_cons, List.nodup_cons] at hnd
    rw [applyW_cons]
    rcases List.mem_cons.mp h with rfl | h
    · have hout : ∀ v ∈ ws, v.1 ≠ w.1 := by
        intro v hv heq
        exact hnd.1 (heq ▸ List.mem_map_of_mem hv)
      rw [applyW_of_not_mem _ hout, Function.update_self]
    · exact ih hnd.2 _ h

/-- **Prefix rule.**  If each write of `ws` preserves `P`, then `P` holds wherever
    the machine stops between two of them. -/
theorem applyW_take_of_inv {P : (ι → β) → Prop} {ws : List (ι × β)} {d : ι → β}
    (h0 : P d) (hstep : ∀ w ∈ ws, ∀ d, P d → P (Function.update d w.1 w.2)) (k : Nat) :
    P (applyW (ws.take k) d) := by
  induction ws generalizing d k with
  | nil => simpa using h0
  | cons w ws ih =>
    cases k with
    | zero => exact h0
    | succ k =>
      rw [List.take_succ_cons, applyW_cons]
      exact ih (hstep w List.mem_cons_self d h0)
        (fun v hv => hstep v (List.mem_cons_of_mem _ hv)) k

/-- The same at the end of the list. -/
theorem applyW_of_inv {P : (ι → β) → Prop} {ws : List (ι × β)} {d : ι → β}
    (h0 : P d) (hstep : ∀ w ∈ ws, ∀ d, P d → P (Function.update d w.1 w.2)) :
    P (applyW ws d) := by
  have := applyW_take_of_inv h0 hstep ws.length
  rwa [List.take_length] at this

/-- A prefix of `us ++ vs` either stops inside `us` or performs all of it. -/
theorem take_append_cases (us vs : List α) (k : Nat) :
    (∃ j, (us ++ vs).take k = us.take j) ∨ ∃ j, (us ++ vs).take k = us ++ vs.take j := by
  rcases Nat.le_total k us.length with h | h
  · exact Or.inl ⟨k, List.take_append_of_le_length h⟩
  · refine Or.inr ⟨k - us.length, ?_⟩
    rw [List.take_append, List.take_of_length_le h]

end Yonix
