/-
  Yonix/Lib/Fifo.lean
  ===================
  **Bounded buffers with free-running counters.**

  A circular buffer of `cap` cells is used through two counters that are never reset:
  the cell of a counter is its value modulo `cap`.  The counters are kept modulo some
  `m` that `cap` divides, so the cells of consecutive counter values are consecutive
  also where a counter wraps around.  `pending c cap r n` are the `n` elements that
  start at counter value `r`; putting one at the end and taking the first one are the
  two operations.

  Nothing here mentions a particular program.
-/
import Mathlib

namespace Yonix.Fifo

variable {α : Type} {c : Nat → α} {cap r n : Nat}

/-- The `n` elements from counter value `r` on. -/
def pending (c : Nat → α) (cap r n : Nat) : List α :=
  (List.range n).map fun i => c ((r + i) % cap)

@[simp] theorem pending_zero : pending c cap r 0 = [] := rfl

@[simp] theorem pending_one : pending c cap r 1 = [c (r % cap)] := rfl

@[simp] theorem length_pending : (pending c cap r n).length = n := by simp [pending]

theorem pending_congr {c' : Nat → α} (h : ∀ i < n, c ((r + i) % cap) = c' ((r + i) % cap)) :
    pending c cap r n = pending c' cap r n := by
  simp only [pending]
  apply List.map_congr_left
  intro i hi
  exact h i (List.mem_range.mp hi)

/-- Counter values less than `cap` apart have different cells. -/
theorem cell_ne {i j : Nat} (hij : i < j) (hj : j < i + cap) : i % cap ≠ j % cap := by
  intro h
  have hd : cap ∣ j - i := (Nat.modEq_iff_dvd' hij.le).mp h
  have := Nat.le_of_dvd (by omega) hd
  omega

/-- The cell of a later counter value is not one of those pending. -/
theorem pending_update {k : Nat} (x : α) (hn : n ≤ k) (hk : k < cap) :
    pending (Function.update c ((r + k) % cap) x) cap r n = pending c cap r n := by
  apply pending_congr
  intro i hi
  rw [Function.update_of_ne (cell_ne (by omega) (by omega))]

/-- The elements up to some counter value, and those from it on. -/
theorem pending_add (m : Nat) :
    pending c cap r (m + n) = pending c cap r m ++ pending c cap (r + m) n := by
  simp only [pending, List.range_add, List.map_append, List.map_map]
  congr 1
  apply List.map_congr_left
  intro i _
  simp only [Function.comp, Nat.add_assoc]

/-- An element put behind the last one, in a buffer that is not full. -/
theorem pending_put (x : α) (hn : n < cap) :
    pending (Function.update c ((r + n) % cap) x) cap r (n + 1) = pending c cap r n ++ [x] := by
  have hold : pending (Function.update c ((r + n) % cap) x) cap r n = pending c cap r n :=
    pending_update x (Nat.le_refl n) hn
  have hsucc : pending (Function.update c ((r + n) % cap) x) cap r (n + 1) =
      pending (Function.update c ((r + n) % cap) x) cap r n ++ [x] := by
    simp [pending, List.range_succ]
  rw [hsucc, hold]

/-- The first element, and those behind it. -/
theorem pending_take : pending c cap r (n + 1) = c (r % cap) :: pending c cap (r + 1) n := by
  simp only [pending, List.range_succ_eq_map, List.map_cons, List.map_map, Nat.add_zero]
  congr 1
  apply List.map_congr_left
  intro i _
  simp only [Function.comp, Nat.succ_eq_add_one]
  congr 2
  omega

/-- The counter may be reduced modulo a multiple of `cap`. -/
theorem pending_mod {m : Nat} (h : cap ∣ m) : pending c cap (r % m) n = pending c cap r n := by
  simp only [pending]
  apply List.map_congr_left
  intro i _
  rw [Nat.add_mod, Nat.mod_mod_of_dvd r h, ← Nat.add_mod]

end Yonix.Fifo
