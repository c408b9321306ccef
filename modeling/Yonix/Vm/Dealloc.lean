/-
  Yonix/Vm/Dealloc.lean
  =====================
  **Which pages `deallocuvm` releases.**

  The walk starts at `PGROUNDUP(endva)`.  At a missing table it adds the size of one table,
  so from an address inside a region of 4 MB it arrives at the same offset of the next
  region, and the pages before that offset are missed if that region has a table.
  (`freeuvm` and the callers that shrink an image without holes start where nothing is
  missed.)  The pages seen are released exactly; so the range is exactly if no present
  page is missed.
-/
import Yonix.Vm.Reaping

namespace Yonix.Vm

variable {s t : Core} {d pid startva endva : Nat}

/-- The frames of the present pages from `PGROUNDUP(endva)` up to `startva`. -/
def framesIn (s : Core) (d endva startva : Nat) : List Nat :=
  (pages endva startva).filterMap fun va => (s.pte d va).bind fun x => if x.p then some x.frame else none

/-- The page address is one of those that `deallocuvm` has to release. -/
def InRange (endva startva va : Nat) : Prop := PGSIZE ∣ va ∧ pgroundup endva ≤ va ∧ va < startva

/-- No page of the range is present, each frame that was has been freed once, and no other
    entry has changed. -/
structure Released (s t : Core) (d startva endva : Nat) : Prop where
  absent : ∀ va, InRange endva startva va → ¬ Present t d va
  freed : ∃ l, t.freelist = l ++ s.freelist ∧ l.Perm (framesIn s d endva startva)
  other : ∀ d' va, ¬ (d' = d ∧ InRange endva startva va) → t.pte d' va = s.pte d' va

/-! ### The pages of the range -/

theorem unmapAt_pte {va : Nat} (d' va' : Nat) (hne : ¬ (d' = d ∧ va' = va)) :
    (unmapAt d pid s va).pte d' va' = s.pte d' va' := by
  unfold unmapAt
  split
  · exact pte_unmap d' va' hne
  · rfl

theorem foldl_unmapAt_pte (vas : List Nat) : ∀ {s : Core} (d' va' : Nat), ¬ (d' = d ∧ va' ∈ vas) →
    (vas.foldl (unmapAt d pid) s).pte d' va' = s.pte d' va' := by
  induction vas with
  | nil => exact fun _ _ _ => rfl
  | cons va vas ih =>
    intro s d' va' hne
    rw [List.foldl_cons, ih d' va' fun h => hne ⟨h.1, List.mem_cons_of_mem _ h.2⟩]
    exact unmapAt_pte d' va' fun h => hne ⟨h.1, h.2 ▸ List.mem_cons_self⟩

theorem not_present_unmapAt (s : Core) (va : Nat) : ¬ Present (unmapAt d pid s va) d va := by
  rintro ⟨x, hx, hp⟩
  unfold unmapAt at hx
  split at hx
  · unfold unmap at hx
    rw [pte_setPte, if_pos ⟨rfl, rfl⟩] at hx
    obtain ⟨y, -, rfl⟩ := Option.map_eq_some_iff.mp hx
    cases hp
  · rename_i hnone
    rw [hnone] at hx
    cases hx

theorem foldl_unmapAt_absent (vas : List Nat) : ∀ {s : Core} {va : Nat}, va ∈ vas → vas.Nodup →
    ¬ Present (vas.foldl (unmapAt d pid) s) d va := by
  induction vas with
  | nil => exact fun h => nomatch h
  | cons w vas ih =>
    intro s va hva hnd
    obtain ⟨hw, hnd⟩ := List.nodup_cons.mp hnd
    rw [List.foldl_cons]
    rcases List.mem_cons.mp hva with rfl | hva
    · unfold Present
      rw [foldl_unmapAt_pte vas d va fun h => hw h.2]
      exact not_present_unmapAt s va
    · exact ih hva hnd

/-- The frames come to the head of the free list, the last one first. -/
theorem foldl_unmapAt_freelist (d pid : Nat) (vas : List Nat) : ∀ {s : Core}, vas.Nodup →
    (∀ va ∈ vas, Present s d va) →
      ∃ l, (vas.foldl (unmapAt d pid) s).freelist = l ++ s.freelist ∧
        l.Perm (vas.filterMap fun va => (s.pte d va).bind fun x => if x.p then some x.frame else none) := by
  induction vas with
  | nil => exact fun _ _ => ⟨[], rfl, List.Perm.refl _⟩
  | cons va vas ih =>
    intro s hnd hp
    obtain ⟨hva, hnd⟩ := List.nodup_cons.mp hnd
    obtain ⟨x, hx, hxp⟩ := hp va List.mem_cons_self
    have hkeep : ∀ w ∈ vas, (unmapAt d pid s va).pte d w = s.pte d w := by
      intro w hw
      refine unmapAt_pte d w ?_
      rintro ⟨-, rfl⟩
      exact hva hw
    obtain ⟨l, hl, hperm⟩ := ih (s := unmapAt d pid s va) hnd fun w hw => by
      unfold Present
      rw [hkeep w hw]
      exact hp w (List.mem_cons_of_mem _ hw)
    have hhead : (unmapAt d pid s va).freelist = x.frame :: s.freelist := by
      unfold unmapAt
      rw [hx]
      obtain ⟨m, hm⟩ := freePage_eq s (va ||| pid) true
      dsimp only
      unfold unmap
      rw [hm]
      rfl
    refine ⟨l ++ [x.frame], ?_, ?_⟩
    · rw [List.foldl_cons, hl, hhead, List.append_assoc]
      rfl
    · rw [List.filterMap_cons_some (b := x.frame) (by rw [hx, Option.bind_some, if_pos hxp])]
      refine (List.perm_append_singleton _ _).trans (List.Perm.cons _ (hperm.trans ?_))
      rw [List.filterMap_congr fun w hw => by rw [hkeep w hw]]

theorem filterMap_present (l : List Nat) (f : Nat → Option Nat) :
    (l.filter fun va => (f va).isSome).filterMap f = l.filterMap f := by
  rw [List.filterMap_filter]
  refine List.filterMap_congr ?_
  intro va _
  cases f va <;> rfl

/-! ### Exactly the range -/

/-- **`deallocuvm`** releases exactly its range if and only if no present page of it is
    missed at a missing table. -/
theorem dealloc_released_iff {D : Dir} (hD : s.dirs d = some D) (hlt : endva < startva) :
    ∃ t, deallocuvm s d startva endva pid = .ok (t, endva) ∧ (Released s t d startva endva ↔
      ∀ va, InRange endva startva va → Present s d va → ¬ Skipped s d (pgroundup endva) va) := by
  obtain ⟨vas, hnd, hmem, heq⟩ := deallocLoop_visits d startva pid (startva / PGSIZE + 1)
    (i := pgroundup endva) (s := s) (pgroundup_dvd endva) (by unfold PGSIZE; omega)
  obtain ⟨t, ht⟩ : ∃ t, t = vas.foldl (unmapAt d pid) s := ⟨_, rfl⟩
  refine ⟨t, ?_, ?_, ?_⟩
  · rw [deallocuvm, if_neg (by omega), hD, heq, ← ht]
  · intro hr va hin hp hskip
    have hnot : va ∉ vas := fun h => ((hmem va).mp h).2.2.2.2 hskip
    refine hr.absent va hin ?_
    unfold Present
    rw [ht, foldl_unmapAt_pte vas d va fun h => hnot h.2]
    exact hp
  · intro hseen
    have hall : ∀ va, va ∈ vas ↔ InRange endva startva va ∧ Present s d va := by
      intro va
      rw [hmem]
      exact ⟨fun ⟨h1, h2, h3, h4, _⟩ => ⟨⟨h1, h2, h3⟩, h4⟩,
        fun ⟨hin, hp⟩ => ⟨hin.1, hin.2.1, hin.2.2, hp, hseen va hin hp⟩⟩
    refine ⟨?_, ?_, ?_⟩
    · intro va hin hp
      by_cases hva : va ∈ vas
      · rw [ht] at hp
        exact foldl_unmapAt_absent vas hva hnd hp
      · unfold Present at hp
        rw [ht, foldl_unmapAt_pte vas d va fun h => hva h.2] at hp
        exact hva ((hall va).mpr ⟨hin, hp⟩)
    · obtain ⟨l, hl, hperm⟩ := foldl_unmapAt_freelist d pid vas (s := s) hnd
        fun va hva => ((hall va).mp hva).2
      refine ⟨l, by rw [ht, hl], hperm.trans ?_⟩
      rw [framesIn, ← filterMap_present (pages endva startva)]
      refine List.Perm.filterMap _ ?_
      rw [List.perm_ext_iff_of_nodup hnd ((nodup_pages _ _).filter _)]
      intro va
      rw [hall, List.mem_filter, mem_pages_iff]
      refine and_congr Iff.rfl ?_
      unfold Present
      cases s.pte d va with
      | none => simp
      | some x => simp
    · intro d' va hne
      rw [ht]
      refine foldl_unmapAt_pte vas d' va ?_
      rintro ⟨hd, hva⟩
      exact hne ⟨hd, ((hall va).mp hva).1⟩

/-- A directory whose only table is the second, with one page at its start. -/
def holed : Core :=
  { empty [] 0 with
    dirs := Function.update (fun _ => none) 0 (some {
      frame := 1
      tab := fun i => if i = 1 then some 2 else none
      pte := fun va => if va = TABSIZE then ⟨true, true, true, false, 3⟩ else Pte.zero })
    nextDir := 1 }

theorem holed_released :
    ∃ t, deallocuvm holed 0 (TABSIZE + PGSIZE) 0 1 = .ok (t, 0) ∧
      Released holed t 0 (TABSIZE + PGSIZE) 0 := by
  have hlt : 0 < TABSIZE + PGSIZE := by decide
  obtain ⟨t, ht, hiff⟩ := dealloc_released_iff (s := holed) (d := 0) rfl hlt
  refine ⟨t, ht, hiff.mpr ?_⟩
  rintro va - - ⟨-, hoff, -⟩
  exact absurd hoff (Nat.not_lt_zero _)

/-- From the second page on, the page at the start of the second table is missed. -/
theorem dealloc_misses_page :
    ∃ t, deallocuvm holed 0 (TABSIZE + PGSIZE) PGSIZE 1 = .ok (t, PGSIZE) ∧
      ¬ Released holed t 0 (TABSIZE + PGSIZE) PGSIZE := by
  refine ⟨holed, rfl, ?_⟩
  intro h
  exact h.absent TABSIZE ⟨by decide, by decide, by decide⟩ ⟨_, rfl, rfl⟩

end Yonix.Vm
