/-
  Yonix/Lib/Ring.lean
  ===================
  **A circular doubly linked list through a head node.**

  Nodes are `some b`, the head is `none`, and the links are two functions.
  `Linked r l` says that the links of `r` are exactly the cycle through the head
  and the nodes of `l`, each once, in that order.  The two pointer operations,
  taking a node out and putting one right behind the head, keep the cycle and do
  to the list what their names say; walking the links in either direction visits
  the list.  The link fields of a node outside the cycle are unconstrained.
-/
import Mathlib

namespace Yonix

structure Ring (ι : Type*) where
  next : Option ι → Option ι
  prev : Option ι → Option ι

namespace Ring

variable {ι : Type*}

/-- The links lead from `a` through the nodes of `l` to `c`, and back. -/
def Seg (r : Ring ι) : Option ι → List ι → Option ι → Prop
  | a, [], c => r.next a = c ∧ r.prev c = a
  | a, b :: l, c => r.next a = some b ∧ r.prev (some b) = a ∧ r.Seg (some b) l c

def Linked (r : Ring ι) (l : List ι) : Prop := l.Nodup ∧ r.Seg none l none

/-- The ring that has only its head. -/
def empty : Ring ι := ⟨fun _ => none, fun _ => none⟩

theorem linked_empty : (empty : Ring ι).Linked [] := ⟨List.nodup_nil, rfl, rfl⟩

theorem seg_append {r : Ring ι} {a c : Option ι} {l1 l2 : List ι} {b : ι} :
    r.Seg a (l1 ++ b :: l2) c ↔ r.Seg a l1 (some b) ∧ r.Seg (some b) l2 c := by
  induction l1 generalizing a with
  | nil => simp only [List.nil_append, Seg, and_assoc]
  | cons x l1 ih => simp only [List.cons_append, Seg, ih, and_assoc]

/-- A segment only depends on the links it follows. -/
theorem Seg.congr {r r' : Ring ι} {a c : Option ι} {l : List ι} (h : r.Seg a l c)
    (hn : ∀ x ∈ a :: l.map some, r'.next x = r.next x)
    (hp : ∀ y ∈ l.map some ++ [c], r'.prev y = r.prev y) : r'.Seg a l c := by
  induction l generalizing a with
  | nil =>
    refine ⟨?_, ?_⟩
    · rw [hn a (by simp)]
      exact h.1
    · rw [hp c (by simp)]
      exact h.2
  | cons b l ih =>
    obtain ⟨h1, h2, h3⟩ := h
    refine ⟨?_, ?_, ih h3 ?_ ?_⟩
    · rw [hn a (by simp)]
      exact h1
    · rw [hp (some b) (by simp)]
      exact h2
    · intro x hx
      exact hn x (List.mem_cons_of_mem _ hx)
    · intro y hy
      exact hp y (by rw [List.map_cons]; exact List.mem_cons_of_mem _ hy)

/-- The last node of a segment: its back link, and the segment without it. -/
theorem Seg.prev_mem {r : Ring ι} {a c : Option ι} {l : List ι} (h : r.Seg a l c) :
    r.prev c ∈ a :: l.map some := by
  induction l generalizing a with
  | nil =>
    rw [h.2]
    exact List.mem_cons_self
  | cons b l ih =>
    have := ih h.2.2
    rw [List.map_cons]
    exact List.mem_cons_of_mem _ this

theorem Seg.next_mem {r : Ring ι} {a c : Option ι} {l : List ι} (h : r.Seg a l c) :
    r.next a ∈ l.map some ++ [c] := by
  cases l with
  | nil =>
    rw [h.1]
    simp
  | cons b l =>
    rw [h.1]
    simp

theorem nodup_map_some {l : List ι} (h : l.Nodup) : (none :: l.map some).Nodup := by
  refine List.nodup_cons.mpr ⟨by simp, ?_⟩
  exact h.map (Option.some_injective ι)

section

variable [DecidableEq ι]

/-- `b->next->prev = b->prev; b->prev->next = b->next`. -/
def unlink (r : Ring ι) (b : ι) : Ring ι :=
  let r := { r with prev := Function.update r.prev (r.next (some b)) (r.prev (some b)) }
  { r with next := Function.update r.next (r.prev (some b)) (r.next (some b)) }

/-- `b->next = head.next; b->prev = &head; head.next->prev = b; head.next = b`. -/
def insertHead (r : Ring ι) (b : ι) : Ring ι :=
  let r := { r with next := Function.update r.next (some b) (r.next none) }
  let r := { r with prev := Function.update r.prev (some b) none }
  let r := { r with prev := Function.update r.prev (r.next none) (some b) }
  { r with next := Function.update r.next none (some b) }

/-- Redirecting the end of a segment from `y` to `z`. -/
theorem Seg.retarget {r : Ring ι} {x y z : Option ι} {l : List ι} (h : r.Seg x l y)
    (hnd : (x :: l.map some).Nodup) (hz : z ∉ l.map some) :
    ({ next := Function.update r.next (r.prev y) z,
       prev := Function.update r.prev z (r.prev y) } : Ring ι).Seg x l z := by
  induction l generalizing x with
  | nil =>
    have hx : r.prev y = x := h.2
    refine ⟨?_, ?_⟩
    · rw [hx]
      exact Function.update_self _ _ _
    · rw [hx]
      exact Function.update_self _ _ _
  | cons b l ih =>
    obtain ⟨h1, h2, h3⟩ := h
    rw [List.map_cons, List.nodup_cons] at hnd
    have hx : x ≠ r.prev y := by
      intro heq
      apply hnd.1
      rw [heq]
      exact h3.prev_mem
    rw [List.map_cons, List.mem_cons, not_or] at hz
    refine ⟨?_, ?_, ih h3 hnd.2 hz.2⟩
    · rw [← h1]
      exact Function.update_of_ne hx _ _
    · rw [← h2]
      exact Function.update_of_ne (Ne.symm hz.1) _ _

/-- Taking a node out of the ring takes it out of the list. -/
theorem Linked.unlink {r : Ring ι} {l1 l2 : List ι} {b : ι}
    (h : r.Linked (l1 ++ b :: l2)) : (r.unlink b).Linked (l1 ++ l2) := by
  obtain ⟨hnd, hseg⟩ := h
  rw [seg_append] at hseg
  obtain ⟨hs1, hs2⟩ := hseg
  have hnd' : (l1 ++ l2).Nodup := hnd.sublist (List.Sublist.append_left (List.sublist_cons_self _ _) _)
  have hnd1 : l1.Nodup := (List.nodup_append.mp hnd).1
  have hndb := (List.nodup_append.mp hnd).2.1
  have hdisj := (List.nodup_append.mp hnd).2.2
  -- the back link of the node is not touched by the first assignment
  have hnextb : r.next (some b) ≠ some b := by
    intro heq
    have := hs2.next_mem
    rw [heq] at this
    simp only [List.mem_append, List.mem_map, Option.some.injEq, exists_eq_right,
      List.mem_singleton, reduceCtorEq, or_false] at this
    exact (List.nodup_cons.mp hndb).1 this
  have hr : r.unlink b = { next := Function.update r.next (r.prev (some b)) (r.next (some b)),
                           prev := Function.update r.prev (r.next (some b)) (r.prev (some b)) } := by
    simp only [Ring.unlink, Function.update_of_ne (Ne.symm hnextb)]
  rw [hr]
  refine ⟨hnd', ?_⟩
  cases l2 with
  | nil =>
    rw [List.append_nil]
    rw [show r.next (some b) = none from hs2.1]
    exact hs1.retarget (nodup_map_some hnd1) (by simp)
  | cons d l2 =>
    obtain ⟨hn, hp, hs3⟩ := hs2
    rw [seg_append, hn]
    have hd1 : d ∉ l1 := by
      intro hd
      exact hdisj d hd d (by simp) rfl
    refine ⟨hs1.retarget (nodup_map_some hnd1) (by simpa using hd1), ?_⟩
    -- the rest of the ring keeps its links
    have hlast : r.prev (some b) ∈ none :: l1.map some := hs1.prev_mem
    have hndd : (d :: l2).Nodup := (List.nodup_cons.mp hndb).2
    apply hs3.congr
    · intro x hx
      apply Function.update_of_ne
      rintro rfl
      rw [← List.map_cons] at hx
      obtain ⟨y, hy, hyx⟩ := List.mem_map.mp hx
      rw [← hyx] at hlast
      have hy1 : y ∈ l1 := by simpa using hlast
      exact hdisj y hy1 y (List.mem_cons_of_mem _ hy) rfl
    · intro y hy
      apply Function.update_of_ne
      rintro rfl
      have : d ∈ l2 := by simpa using hy
      exact (List.nodup_cons.mp hndd).1 this

/-- Inserting behind the head puts a node first in the list. -/
theorem Linked.insertHead {r : Ring ι} {l : List ι} {b : ι} (h : r.Linked l) (hb : b ∉ l) :
    (r.insertHead b).Linked (b :: l) := by
  obtain ⟨hnd, hseg⟩ := h
  have hfirst : r.next none ∈ l.map some ++ [none] := hseg.next_mem
  have hne : r.next none ≠ some b := by
    intro heq
    rw [heq] at hfirst
    exact hb (by simpa using hfirst)
  have hr : r.insertHead b =
      { next := Function.update (Function.update r.next (some b) (r.next none)) none (some b),
        prev := Function.update (Function.update r.prev (some b) none) (r.next none) (some b) } := by
    simp only [Ring.insertHead, Function.update_of_ne (Option.some_ne_none b).symm]
  refine ⟨List.nodup_cons.mpr ⟨hb, hnd⟩, ?_⟩
  rw [hr]
  refine ⟨?_, ?_, ?_⟩
  · dsimp only
    rw [Function.update_self]
  · dsimp only
    rw [Function.update_of_ne (Ne.symm hne), Function.update_self]
  · cases l with
    | nil =>
      refine ⟨?_, ?_⟩
      · dsimp only
        rw [Function.update_of_ne (Option.some_ne_none b), Function.update_self]
        exact hseg.1
      · dsimp only
        rw [show r.next none = none from hseg.1, Function.update_self]
    | cons d l =>
      obtain ⟨hn, hp, hs⟩ := hseg
      rw [List.nodup_cons] at hnd
      refine ⟨?_, ?_, ?_⟩
      · dsimp only
        rw [Function.update_of_ne (Option.some_ne_none b), Function.update_self]
        exact hn
      · dsimp only
        rw [hn, Function.update_self]
      · apply hs.congr
        · intro x hx
          have hx1 : x ≠ none := by
            rintro rfl
            simp at hx
          have hx2 : x ≠ some b := by
            rintro rfl
            apply hb
            simpa using hx
          dsimp only
          rw [Function.update_of_ne hx1, Function.update_of_ne hx2]
        · intro y hy
          have hy1 : y ≠ r.next none := by
            rintro rfl
            rw [hn] at hy
            exact hnd.1 (by simpa using hy)
          have hy2 : y ≠ some b := by
            rintro rfl
            apply hb
            exact List.mem_cons_of_mem _ (by simpa using hy)
          dsimp only
          rw [Function.update_of_ne hy1, Function.update_of_ne hy2]

/-- Inserting the members of a list in turn puts them in front, last one first. -/
theorem Linked.foldl_insertHead {r : Ring ι} {l : List ι} (h : r.Linked l) {m : List ι}
    (hnd : m.Nodup) (hdisj : ∀ b ∈ m, b ∉ l) :
    (m.foldl Ring.insertHead r).Linked (m.reverse ++ l) := by
  induction m generalizing r l with
  | nil => exact h
  | cons b m ih =>
    rw [List.nodup_cons] at hnd
    rw [List.foldl_cons, List.reverse_cons, List.append_assoc, List.singleton_append]
    apply ih (h.insertHead (hdisj b List.mem_cons_self)) hnd.2
    intro c hc hcl
    rcases List.mem_cons.mp hcl with rfl | hcl
    · exact hnd.1 hc
    · exact hdisj c (List.mem_cons_of_mem _ hc) hcl

end

/-! ### Walking the ring -/

/-- The nodes met from `a` along `next` before the head, at most `k` of them. -/
def walkNext (r : Ring ι) : Nat → Option ι → List ι
  | 0, _ => []
  | k + 1, a =>
    match r.next a with
    | none => []
    | some b => b :: r.walkNext k (some b)

def walkPrev (r : Ring ι) : Nat → Option ι → List ι
  | 0, _ => []
  | k + 1, a =>
    match r.prev a with
    | none => []
    | some b => b :: r.walkPrev k (some b)

theorem Seg.walkNext_eq {r : Ring ι} {a : Option ι} {l : List ι} (h : r.Seg a l none) {k : Nat}
    (hk : l.length < k) : r.walkNext k a = l := by
  induction l generalizing a k with
  | nil =>
    obtain ⟨k, rfl⟩ := Nat.exists_eq_succ_of_ne_zero (Nat.ne_of_gt hk)
    simp only [walkNext, h.1]
  | cons b l ih =>
    obtain ⟨k, rfl⟩ := Nat.exists_eq_succ_of_ne_zero (Nat.ne_of_gt (Nat.zero_lt_of_lt hk))
    simp only [walkNext, h.1]
    rw [ih h.2.2 (by simpa using hk)]

theorem Seg.walkPrev_eq {r : Ring ι} {c : Option ι} {l : List ι} (h : r.Seg none l c) {k : Nat}
    (hk : l.length < k) : r.walkPrev k c = l.reverse := by
  induction l using List.reverseRecOn generalizing c k with
  | nil =>
    obtain ⟨k, rfl⟩ := Nat.exists_eq_succ_of_ne_zero (Nat.ne_of_gt hk)
    simp only [walkPrev, h.2, List.reverse_nil]
  | append_singleton l b ih =>
    obtain ⟨k, rfl⟩ := Nat.exists_eq_succ_of_ne_zero (Nat.ne_of_gt (Nat.zero_lt_of_lt hk))
    rw [seg_append] at h
    simp only [walkPrev, h.2.2]
    rw [ih h.1 (by simpa using hk), List.reverse_append, List.reverse_singleton]
    rfl

end Ring

end Yonix
