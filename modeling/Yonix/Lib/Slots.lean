/-
  Yonix/Lib/Slots.lean
  ====================
  **A list of slots as a finite map.**

  Some of the slots are live; a live one binds its key to its value.  When no key has two
  live slots (`OneEach`), the first slot with a key is the only one, and storing into a
  slot that is not live, or ending the life of one, changes the map at one key.  A list may
  also grow by the slot that is stored, so an update is described by what it leaves at each
  index (`Stored`).

  Nothing here mentions a particular program.
-/
import Mathlib

namespace Yonix

section Slots

variable {α κ β : Type} (live : α → Prop) [DecidablePred live] (key : α → κ) [DecidableEq κ] (val : α → β)
  {es es' : List α} {k : κ} {i : Nat} {d e : α}

/-- The value that the first live slot with the key has. -/
def binding (es : List α) (k : κ) : Option β := (es.find? fun e => live e ∧ key e = k).map val

/-- No key has two live slots. -/
def OneEach (es : List α) : Prop := ∀ ⦃i j : Nat⦄ ⦃d e : α⦄, es[i]? = some d → es[j]? = some e →
  live d → live e → key d = key e → i = j

/-- `d` was stored at index `i`, which may be the end of the list. -/
def Stored (i : Nat) (d : α) (es es' : List α) : Prop := ∀ j, es'[j]? = if j = i then some d else es[j]?

theorem binding_eq_none : binding live key val es k = none ↔
    ∀ (i : Nat) (e : α), es[i]? = some e → live e → key e ≠ k := by
  unfold binding
  rw [Option.map_eq_none_iff, List.find?_eq_none]
  constructor
  · intro h i e hi hlive hkey
    exact h e (List.mem_of_getElem? hi) (decide_eq_true ⟨hlive, hkey⟩)
  · intro h e he hdec
    rcases List.getElem?_of_mem he with ⟨i, hi⟩
    rcases of_decide_eq_true hdec with ⟨hlive, hkey⟩
    exact h i e hi hlive hkey

variable {live key}

/-- The slot of a key is found wherever it is. -/
theorem OneEach.binding (h : OneEach live key es) (hi : es[i]? = some e) (hlive : live e) :
    binding live key val es (key e) = some (val e) := by
  unfold Yonix.binding
  cases hfind : es.find? fun d => live d ∧ key d = key e with
  | none => exact absurd (decide_eq_true ⟨hlive, rfl⟩) (List.find?_eq_none.mp hfind e (List.mem_of_getElem? hi))
  | some d =>
    have htest := List.find?_some hfind
    rcases of_decide_eq_true htest with ⟨hd, hkey⟩
    rcases List.getElem?_of_mem (List.mem_of_find?_eq_some hfind) with ⟨j, hj⟩
    obtain rfl := h hj hi hd hlive hkey
    rw [hi] at hj
    rw [Option.map_some, Option.some.inj hj]

theorem exists_of_binding {v : β} (h : binding live key val es k = some v) :
    ∃ (i : Nat) (e : α), es[i]? = some e ∧ live e ∧ key e = k ∧ val e = v := by
  unfold binding at h
  rw [Option.map_eq_some_iff] at h
  rcases h with ⟨e, hfind, hv⟩
  have htest := List.find?_some hfind
  rcases of_decide_eq_true htest with ⟨hlive, hkey⟩
  rcases List.getElem?_of_mem (List.mem_of_find?_eq_some hfind) with ⟨i, hi⟩
  exact ⟨i, e, hi, hlive, hkey, hv⟩

/-- The map, whatever the order of the slots. -/
theorem OneEach.binding_iff (h : OneEach live key es) {v : β} : Yonix.binding live key val es k = some v ↔
    ∃ (i : Nat) (e : α), es[i]? = some e ∧ live e ∧ key e = k ∧ val e = v := by
  constructor
  · exact exists_of_binding val
  · rintro ⟨i, e, hi, hlive, rfl, rfl⟩
    exact h.binding val hi hlive

section Stored

variable (hst : Stored i d es es')
include hst

theorem Stored.self : es'[i]? = some d := by rw [hst, if_pos rfl]

theorem Stored.of_ne {j : Nat} (hj : j ≠ i) : es'[j]? = es[j]? := by rw [hst, if_neg hj]

omit [DecidablePred live] [DecidableEq κ] in
/-- A new key keeps the keys apart. -/
theorem OneEach.store (h : OneEach live key es)
    (hnew : live d → ∀ (j : Nat) (e : α), j ≠ i → es[j]? = some e → live e → key e ≠ key d) : OneEach live key es' := by
  intro a b x y ha hb hx hy hkey
  by_cases hai : a = i
  · by_cases hbi : b = i
    · rw [hai, hbi]
    · rw [hai, hst.self, Option.some.injEq] at ha
      rw [hst.of_ne hbi] at hb
      subst ha
      exact absurd hkey.symm (hnew hx b y hbi hb hy)
  · rw [hst.of_ne hai] at ha
    by_cases hbi : b = i
    · rw [hbi, hst.self, Option.some.injEq] at hb
      subst hb
      exact absurd hkey (hnew hy a x hai ha hx)
    · rw [hst.of_ne hbi] at hb
      exact h ha hb hx hy hkey

variable (hes : OneEach live key es) (hes' : OneEach live key es')
include hes hes'

/-- A live slot is stored where none was. -/
theorem Stored.binding_live (hd : live d) (hold : ∀ e, es[i]? = some e → ¬ live e) :
    Yonix.binding live key val es' = Function.update (Yonix.binding live key val es) (key d) (some (val d)) := by
  funext k
  by_cases hk : k = key d
  · rw [hk, Function.update_self]
    exact hes'.binding val hst.self hd
  · rw [Function.update_of_ne hk]
    refine Option.ext fun v => ?_
    rw [hes.binding_iff, hes'.binding_iff]
    constructor
    · rintro ⟨j, e, hj, hlive, hkey, hv⟩
      have hji : j ≠ i := by
        rintro rfl
        rw [hst.self, Option.some.injEq] at hj
        exact hk (hkey.symm.trans (congrArg key hj.symm))
      rw [hst.of_ne hji] at hj
      exact ⟨j, e, hj, hlive, hkey, hv⟩
    · rintro ⟨j, e, hj, hlive, hkey, hv⟩
      have hji : j ≠ i := by
        rintro rfl
        exact hold e hj hlive
      exact ⟨j, e, (hst.of_ne hji).trans hj, hlive, hkey, hv⟩

/-- The slot of a key is no longer live. -/
theorem Stored.binding_dead (hd : ¬ live d) (he : es[i]? = some e) (hlive : live e) :
    Yonix.binding live key val es' = Function.update (Yonix.binding live key val es) (key e) none := by
  funext k
  by_cases hk : k = key e
  · rw [hk, Function.update_self, binding_eq_none]
    intro j x hj hx hkey
    have hji : j ≠ i := by
      rintro rfl
      rw [hst.self, Option.some.injEq] at hj
      exact hd (hj ▸ hx)
    rw [hst.of_ne hji] at hj
    exact hji (hes hj he hx hlive hkey)
  · rw [Function.update_of_ne hk]
    refine Option.ext fun v => ?_
    rw [hes.binding_iff, hes'.binding_iff]
    constructor
    · rintro ⟨j, x, hj, hx, hkey, hv⟩
      have hji : j ≠ i := by
        rintro rfl
        rw [hst.self, Option.some.injEq] at hj
        exact hd (hj ▸ hx)
      rw [hst.of_ne hji] at hj
      exact ⟨j, x, hj, hx, hkey, hv⟩
    · rintro ⟨j, x, hj, hx, hkey, hv⟩
      have hji : j ≠ i := by
        rintro rfl
        rw [he, Option.some.injEq] at hj
        exact hk (hkey.symm.trans (congrArg key hj.symm))
      exact ⟨j, x, (hst.of_ne hji).trans hj, hx, hkey, hv⟩

end Stored

end Slots

end Yonix
