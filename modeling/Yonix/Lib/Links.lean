/-
  Yonix/Lib/Links.lean
  ====================
  **Linked lists.**

  The elements of a list are linked when each one's `next` refers to the element after
  it, and that of the last to a given end: null for a list that stops, the first element
  for a ring.  What a reference is, is left open.
-/
import Mathlib.Data.List.Basic

namespace Yonix

variable {α β : Type*} {next next' : α → β} {ref : α → β}

/-- What refers to the first element, or to the end. -/
def first (ref : α → β) : List α → β → β
  | [], e => e
  | a :: _, _ => ref a

def Links (next ref : α → β) : List α → β → Prop
  | [], _ => True
  | a :: l, e => next a = first ref l e ∧ Links next ref l e

theorem first_append (l r : List α) (e : β) : first ref (l ++ r) e = first ref l (first ref r e) := by
  cases l with
  | nil => rfl
  | cons a l => rfl

theorem links_append {l r : List α} {e : β} :
    Links next ref (l ++ r) e ↔ Links next ref l (first ref r e) ∧ Links next ref r e := by
  induction l with
  | nil => simp [Links]
  | cons a l ih =>
    rw [List.cons_append, Links, Links, ih, first_append, and_assoc]

/-- A ring is a ring from every one of its elements. -/
theorem links_rotate {l r : List α} {a : α} (h : Links next ref (l ++ a :: r) (first ref l (ref a))) :
    Links next ref (a :: (r ++ l)) (ref a) := by
  obtain ⟨hl, hr⟩ := links_append.mp h
  rw [← List.cons_append]
  exact links_append.mpr ⟨hr, hl⟩

/-- Links depend on the elements only. -/
theorem Links.congr {l : List α} {e : β} (h : Links next ref l e) (hl : ∀ a ∈ l, next' a = next a) :
    Links next' ref l e := by
  induction l with
  | nil => trivial
  | cons a l ih =>
    refine ⟨(hl a List.mem_cons_self).trans h.1, ih h.2 ?_⟩
    intro b hb
    exact hl b (List.mem_cons_of_mem a hb)

/-- The references lead from element to element. -/
theorem Links.next_mem {l : List α} {e : β} {a : α} (h : Links next ref l e) (ha : a ∈ l) :
    next a = e ∨ ∃ b ∈ l, next a = ref b := by
  induction l with
  | nil => cases ha
  | cons c l ih =>
    rcases List.mem_cons.mp ha with rfl | ha
    · cases l with
      | nil => exact Or.inl h.1
      | cons d l => exact Or.inr ⟨d, by simp, h.1⟩
    · rcases ih h.2 ha with he | ⟨b, hb, hab⟩
      · exact Or.inl he
      · exact Or.inr ⟨b, List.mem_cons_of_mem c hb, hab⟩

/-- Only the last element refers to the end. -/
theorem Links.last {l : List α} {e : β} {a : α} (h : Links next ref l e) (hne : ∀ b ∈ l, ref b ≠ e)
    (ha : a ∈ l) (hend : next a = e) : ∃ m, l = m ++ [a] := by
  induction l with
  | nil => cases ha
  | cons c l ih =>
    rcases List.mem_cons.mp ha with rfl | ha
    · cases l with
      | nil => exact ⟨[], rfl⟩
      | cons d l => exact absurd (h.1.symm.trans hend) (hne d (by simp))
    · obtain ⟨m, rfl⟩ := ih h.2 (fun b hb => hne b (List.mem_cons_of_mem c hb)) ha
      exact ⟨c :: m, rfl⟩

section Snoc

variable [DecidableEq α]

/-- An element is put behind the last one. -/
theorem Links.snoc {l : List α} {e : β} {a b : α} (h : Links next ref (l ++ [a]) e)
    (hb : next b = e) (hnodup : (l ++ [a]).Nodup) (hba : b ≠ a) :
    Links (Function.update next a (ref b)) ref (l ++ [a] ++ [b]) e := by
  obtain ⟨hl, ha, -⟩ := links_append.mp h
  have hnot : a ∉ l := fun hmem => (List.nodup_append.mp hnodup).2.2 a hmem a List.mem_cons_self rfl
  rw [List.append_assoc]
  refine links_append.mpr ⟨hl.congr fun c hc => ?_, Function.update_self _ _ _, ?_, trivial⟩
  · refine Function.update_of_ne ?_ _ _
    rintro rfl
    exact hnot hc
  · rw [Function.update_of_ne hba]
    exact hb

end Snoc

end Yonix
