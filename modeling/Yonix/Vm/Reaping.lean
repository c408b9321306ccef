/-
  Yonix/Vm/Reaping.lean
  =====================
  **What `wait` gives back of a process.**

  `deallocuvm` walks the page tables and looks only at present entries.  For each it
  removes one queue entry with the identifier of the page and, if there was one, the
  first slot of the swap area with that identifier.  So the walk is a fold over the
  present pages, and what it leaves of the queue and of the swap map can be read off
  identifier by identifier.  The slot of a page that is swapped out stays: its entry is
  not present, and the page is not in the queue.
-/
import Yonix.Vm.Fault

namespace Yonix.Vm

variable {s t : Core} {d pid : Nat}

/-! ### The walk is a fold -/

def unmapAt (d pid : Nat) (s : Core) (va : Nat) : Core :=
  match s.pte d va with
  | some x => unmap s d va x pid
  | none => s

theorem pte_unmap {va : Nat} {x : Pte} (d' va' : Nat) (hne : ¬ (d' = d ∧ va' = va)) :
    (unmap s d va x pid).pte d' va' = s.pte d' va' := by
  unfold unmap
  rw [pte_setPte, if_neg hne]
  obtain ⟨m, hm⟩ := freePage_eq s (va ||| pid) true
  rw [hm]
  rfl

/-- The walk from `i` misses the page at `va`: at a missing table it goes on one table
    size further, at the same offset in the next table. -/
def Skipped (s : Core) (d i va : Nat) : Prop :=
  i < va ∧ va % TABSIZE < i % TABSIZE ∧ ∀ r, pdx i ≤ r → r < pdx va → s.pte d (r * TABSIZE) = none

theorem pdx_div_mod (va : Nat) : pdx va * TABSIZE + va % TABSIZE = va := Nat.div_add_mod' va TABSIZE

theorem pte_pdx_eq_none {va : Nat} : s.pte d (pdx va * TABSIZE) = none ↔ s.pte d va = none := by
  have hpdx : pdx (pdx va * TABSIZE) = pdx va := Nat.mul_div_cancel _ (by decide)
  exact ⟨pte_eq_none_of_pdx hpdx, pte_eq_none_of_pdx hpdx.symm⟩

theorem Skipped.congr {i va : Nat} (h : ∀ va, t.pte d va = none ↔ s.pte d va = none) :
    Skipped t d i va ↔ Skipped s d i va := by
  unfold Skipped
  simp only [h]

/-- Nothing is missed where the walk stands in a table or at the start of one. -/
theorem Walks.not_skipped {i : Nat} (h : Walks s d i) (va : Nat) : ¬ Skipped s d i va := by
  rintro ⟨hlt, hoff, hnone⟩
  rcases h with h | h
  · rw [Nat.mod_eq_zero_of_dvd h] at hoff
    omega
  · have h1 := pdx_div_mod i
    have h2 := pdx_div_mod va
    have hr : pdx i < pdx va := by
      by_contra hle
      have := Nat.mul_le_mul_right TABSIZE (Nat.le_of_not_lt hle)
      omega
    exact h (pte_pdx_eq_none.mp (hnone _ (le_refl _) hr))

/-- What the walk sees beyond a missing table. -/
theorem skipped_jump {i va : Nat} (hi : s.pte d i = none) (hva : s.pte d va ≠ none) (hle : i ≤ va) :
    ¬ Skipped s d i va ↔ i + TABSIZE ≤ va ∧ ¬ Skipped s d (i + TABSIZE) va := by
  have h1 := pdx_div_mod i
  have h2 := pdx_div_mod va
  have hnext : pdx (i + TABSIZE) = pdx i + 1 := Nat.add_div_right i (by decide)
  have hoff : (i + TABSIZE) % TABSIZE = i % TABSIZE := Nat.add_mod_right i TABSIZE
  have hmod := Nat.mod_lt va (show 0 < TABSIZE by decide)
  have hmod' := Nat.mod_lt i (show 0 < TABSIZE by decide)
  have hpdx : pdx i < pdx va := by
    rcases Nat.lt_trichotomy (pdx i) (pdx va) with h | h | h
    · exact h
    · exact absurd (pte_eq_none_of_pdx h hi) hva
    · have := Nat.mul_le_mul_right TABSIZE h
      rw [Nat.succ_mul] at this
      omega
  have hmul := Nat.mul_le_mul_right TABSIZE hpdx
  rw [Nat.succ_mul] at hmul
  unfold Skipped
  rw [hnext, hoff]
  constructor
  · intro hseen
    have hfar : i + TABSIZE ≤ va := by
      by_contra hnear
      have hsame : pdx va = pdx i + 1 := by
        by_contra hne
        have := Nat.mul_le_mul_right TABSIZE (show pdx i + 2 ≤ pdx va by omega)
        rw [Nat.add_mul] at this
        omega
      refine hseen ⟨by omega, ?_, ?_⟩
      · rw [hsame, Nat.add_mul] at h2
        omega
      · intro r hr hr'
        have : r = pdx i := by omega
        rw [this]
        exact pte_pdx_eq_none.mpr hi
    refine ⟨hfar, ?_⟩
    rintro ⟨hlt, hlow, hnone⟩
    refine hseen ⟨by omega, hlow, ?_⟩
    intro r hr hr'
    rcases Nat.eq_or_lt_of_le hr with rfl | hr
    · exact pte_pdx_eq_none.mpr hi
    · exact hnone r hr hr'
  · rintro ⟨hfar, hseen⟩ ⟨hlt, hlow, hnone⟩
    refine hseen ⟨?_, hlow, fun r hr hr' => hnone r (by omega) hr'⟩
    rcases Nat.eq_or_lt_of_le hfar with heq | h
    · rw [← heq, hoff] at hlow
      omega
    · exact h

/-- The present pages that the walk from `i` sees, and what it does with them. -/
theorem deallocLoop_visits (d startva pid k : Nat) :
    ∀ {i : Nat} {s : Core}, PGSIZE ∣ i → startva ≤ i + k * PGSIZE →
      ∃ vas : List Nat, vas.Nodup ∧
        (∀ va, va ∈ vas ↔
          PGSIZE ∣ va ∧ i ≤ va ∧ va < startva ∧ Present s d va ∧ ¬ Skipped s d i va) ∧
        deallocLoop d startva pid k i s = vas.foldl (unmapAt d pid) s := by
  induction k with
  | zero =>
    intro i s _ hf
    refine ⟨[], List.nodup_nil, ?_, rfl⟩
    intro va
    simp only [List.not_mem_nil, false_iff]
    omega
  | succ k ih =>
    intro i s hi hf
    have hfuel : startva ≤ i + PGSIZE + k * PGSIZE := by
      rw [Nat.succ_mul] at hf
      omega
    have hnext : PGSIZE ∣ i + PGSIZE := Dvd.dvd.add hi (dvd_refl _)
    have hstep : ∀ va, PGSIZE ∣ va → i ≤ va → va ≠ i → i + PGSIZE ≤ va := by
      intro va hva hle hne
      unfold PGSIZE at *
      omega
    unfold deallocLoop
    split
    · rename_i hge
      refine ⟨[], List.nodup_nil, ?_, rfl⟩
      intro va
      simp only [List.not_mem_nil, false_iff]
      omega
    · rename_i hlt
      split
      · -- no table: the walk goes on at the same offset in the next one
        rename_i hnone
        have hjump : i + (NPTENTRIES - 1) * PGSIZE + PGSIZE = i + TABSIZE := by
          unfold TABSIZE NPTENTRIES PGSIZE
          omega
        rw [hjump]
        have hskip : PGSIZE ∣ i + TABSIZE := Dvd.dvd.add hi (Dvd.intro_left _ rfl)
        have hpage : PGSIZE ≤ TABSIZE := by decide
        obtain ⟨vas, hnd, hmem, heq⟩ := ih (s := s) hskip (by omega)
        refine ⟨vas, hnd, ?_, heq⟩
        intro va
        rw [hmem]
        have hpte : Present s d va → s.pte d va ≠ none := by
          rintro ⟨x, hx, -⟩
          simp [hx]
        constructor
        · rintro ⟨h1, h2, h3, h4, h5⟩
          exact ⟨h1, by omega, h3, h4, (skipped_jump hnone (hpte h4) (by omega)).mpr ⟨h2, h5⟩⟩
        · rintro ⟨h1, h2, h3, h4, h5⟩
          obtain ⟨h6, h7⟩ := (skipped_jump hnone (hpte h4) h2).mp h5
          exact ⟨h1, h6, h3, h4, h7⟩
      · rename_i x hx
        have hsome : s.pte d i ≠ none := by simp [hx]
        have hseen : ∀ va, ¬ Skipped s d i va := Walks.not_skipped (Or.inr hsome)
        have hseen' : ∀ va, ¬ Skipped s d (i + PGSIZE) va := (Walks.next hi hsome).not_skipped
        split
        · rename_i hp
          have hkeep : ∀ va, va ≠ i → (unmap s d i x pid).pte d va = s.pte d va :=
            fun va hne => pte_unmap d va fun h => hne h.2
          have hsame : ∀ va, Skipped (unmap s d i x pid) d (i + PGSIZE) va ↔ Skipped s d (i + PGSIZE) va :=
            fun va => Skipped.congr fun va => (unmap_unmaps s d i x pid).tables d va
          obtain ⟨vas, hnd, hmem, heq⟩ := ih (s := unmap s d i x pid) hnext hfuel
          refine ⟨i :: vas, ?_, ?_, ?_⟩
          · refine List.nodup_cons.mpr ⟨?_, hnd⟩
            intro hin
            have := ((hmem i).mp hin).2.1
            unfold PGSIZE at this
            omega
          · intro va
            rw [List.mem_cons, hmem, hsame]
            constructor
            · rintro (rfl | ⟨h1, h2, h3, h4, -⟩)
              · exact ⟨hi, le_refl _, by omega, ⟨x, hx, hp⟩, hseen _⟩
              · have hne : va ≠ i := by
                  unfold PGSIZE at h2
                  omega
                refine ⟨h1, by omega, h3, ?_, hseen va⟩
                unfold Present at h4 ⊢
                rwa [hkeep va hne] at h4
            · rintro ⟨h1, h2, h3, h4, -⟩
              by_cases hne : va = i
              · exact Or.inl hne
              · refine Or.inr ⟨h1, hstep va h1 h2 hne, h3, ?_, hseen' va⟩
                unfold Present at h4 ⊢
                rwa [hkeep va hne]
          · rw [heq, List.foldl_cons]
            unfold unmapAt
            rw [hx]
        · rename_i hp
          obtain ⟨vas, hnd, hmem, heq⟩ := ih (s := s) hnext hfuel
          refine ⟨vas, hnd, ?_, heq⟩
          intro va
          rw [hmem]
          constructor
          · rintro ⟨h1, h2, h3, h4, -⟩
            exact ⟨h1, by omega, h3, h4, hseen va⟩
          · rintro ⟨h1, h2, h3, h4, -⟩
            refine ⟨h1, hstep va h1 h2 ?_, h3, h4, hseen' va⟩
            rintro rfl
            obtain ⟨y, hy, hyp⟩ := h4
            rw [hx] at hy
            cases hy
            exact hp hyp

theorem deallocLoop_eq (d startva pid k : Nat) {i : Nat} (hi : PGSIZE ∣ i) (hw : Walks s d i)
    (hf : startva ≤ i + k * PGSIZE) :
    ∃ vas : List Nat, vas.Nodup ∧
      (∀ va, va ∈ vas ↔ PGSIZE ∣ va ∧ i ≤ va ∧ va < startva ∧ Present s d va) ∧
      deallocLoop d startva pid k i s = vas.foldl (unmapAt d pid) s := by
  obtain ⟨vas, hnd, hmem, heq⟩ := deallocLoop_visits d startva pid k (s := s) hi hf
  refine ⟨vas, hnd, ?_, heq⟩
  intro va
  rw [hmem]
  exact ⟨fun ⟨h1, h2, h3, h4, _⟩ => ⟨h1, h2, h3, h4⟩,
    fun ⟨h1, h2, h3, h4⟩ => ⟨h1, h2, h3, h4, hw.not_skipped va⟩⟩

/-! ### Queue and swap map under the walk -/

/-- The first slot with the identifier becomes free. -/
def clearFirst (m : Nat → Nat) (k : Nat) : Nat → Nat :=
  (firstFrom (fun i => m i = k) SLOTSIZE 0).elim m fun i => Function.update m i 0

def Queued (q : List Entry) (k : Nat) : Prop := ∃ e ∈ q, e.key = k

instance (q : List Entry) (k : Nat) : Decidable (Queued q k) :=
  inferInstanceAs (Decidable (∃ e ∈ q, e.key = k))

/-- `free_page` on the queue and the swap map alone. -/
def release (σ : List Entry × (Nat → Nat)) (k : Nat) : List Entry × (Nat → Nat) :=
  (σ.1.eraseP fun e => e.key = k, if Queued σ.1 k then clearFirst σ.2 k else σ.2)

theorem freePage_release (s : Core) (k : Nat) :
    ((freePage s k true).pgqueue, (freePage s k true).swapMap) =
      release (s.pgqueue, s.swapMap) k := by
  unfold freePage release
  split
  · rename_i h
    have hno : ∀ e ∈ s.pgqueue, ¬ e.key = k := by
      intro e he
      have := List.find?_eq_none.mp h e he
      simpa using this
    have hnq : ¬ Queued s.pgqueue k := by
      rintro ⟨e, he, hk⟩
      exact hno e he hk
    rw [if_neg hnq, List.eraseP_of_forall_not fun e he => by simpa using hno e he]
  · rename_i e h
    have hk : e.key = k := by simpa using List.find?_some h
    have hq : Queued s.pgqueue k := ⟨e, List.mem_of_find?_eq_some h, hk⟩
    rw [if_pos hq, hk]
    simp only [if_true]
    unfold freePageSlot clearFirst
    cases firstFrom (fun i => s.swapMap i = k) SLOTSIZE 0 <;> rfl

theorem filter_eraseP (q : List Entry) (k k' : Nat) :
    ((q.eraseP fun e => e.key = k).filter fun e => e.key = k') =
      if k' = k then (q.filter fun e => e.key = k').tail else q.filter fun e => e.key = k' := by
  induction q with
  | nil => simp
  | cons e q ih =>
    by_cases he : e.key = k
    · rw [List.eraseP_cons_of_pos (by simpa using he)]
      by_cases hk : k' = k
      · subst hk
        simp [he]
      · have : e.key ≠ k' := by
          rw [he]
          exact fun h => hk h.symm
        simp [hk, this]
    · rw [List.eraseP_cons_of_neg (by simpa using he), List.filter_cons, List.filter_cons, ih]
      by_cases hk : k' = k
      · subst hk
        simp [he]
      · simp [hk]

theorem queued_iff {q : List Entry} {k : Nat} :
    Queued q k ↔ (q.filter fun e => e.key = k) ≠ [] := by
  unfold Queued
  rw [ne_eq, List.filter_eq_nil_iff]
  simp

theorem queued_eraseP {q : List Entry} {k k' : Nat} (hne : k' ≠ k) :
    Queued (q.eraseP fun e => e.key = k) k' ↔ Queued q k' := by
  rw [queued_iff, queued_iff, filter_eraseP, if_neg hne]

theorem clearFirst_spec (m : Nat → Nat) (k : Nat) :
    (clearFirst m k = m ∧ ∀ i < SLOTSIZE, m i ≠ k) ∨
      ∃ n < SLOTSIZE, m n = k ∧ clearFirst m k = Function.update m n 0 := by
  unfold clearFirst
  cases h : firstFrom (fun i => m i = k) SLOTSIZE 0 with
  | none =>
    refine Or.inl ⟨rfl, ?_⟩
    intro i hi hk
    obtain ⟨j, hj⟩ := firstFrom_isSome (t := fun i => m i = k) (Nat.zero_le i)
      (by omega : i < 0 + SLOTSIZE) (by simpa using hk)
    rw [h] at hj
    cases hj
  | some n =>
    obtain ⟨-, hlt, hk⟩ := firstFrom_some h
    exact Or.inr ⟨n, by omega, by simpa using hk, rfl⟩

theorem clearFirst_other {m : Nat → Nat} {k i : Nat} (h : m i ≠ k) : clearFirst m k i = m i := by
  rcases clearFirst_spec m k with ⟨heq, -⟩ | ⟨n, -, hn, heq⟩
  · rw [heq]
  · rw [heq, Function.update_of_ne]
    rintro rfl
    exact h hn

theorem clearFirst_cases (m : Nat → Nat) (k i : Nat) :
    clearFirst m k i = m i ∨ clearFirst m k i = 0 := by
  rcases clearFirst_spec m k with ⟨heq, -⟩ | ⟨n, -, -, heq⟩
  · exact Or.inl (congrFun heq i)
  · rw [heq, Function.update_apply]
    split
    · exact Or.inr rfl
    · exact Or.inl rfl

theorem clearFirst_unique {m : Nat → Nat} {k i : Nat} (hi : i < SLOTSIZE) (hk : m i = k)
    (huniq : ∀ j < SLOTSIZE, m j = k → j = i) : clearFirst m k i = 0 := by
  rcases clearFirst_spec m k with ⟨-, hno⟩ | ⟨n, hn, hnk, heq⟩
  · exact (hno i hi hk).elim
  · rw [heq, huniq n hn hnk, Function.update_self]

/-- Two slots with one identifier: one of them stays. -/
theorem clearFirst_twice {m : Nat → Nat} {k i j : Nat} (hij : i ≠ j) (hi : m i = k) (hj : m j = k) :
    clearFirst m k i = k ∨ clearFirst m k j = k := by
  rcases clearFirst_spec m k with ⟨heq, -⟩ | ⟨n, -, -, heq⟩
  · exact Or.inl ((congrFun heq i).trans hi)
  · rw [heq]
    by_cases hn : i = n
    · right
      rw [Function.update_of_ne (fun h => hij (hn.trans h.symm)), hj]
    · left
      rw [Function.update_of_ne hn, hi]

variable {ks : List Nat} {q : List Entry} {m : Nat → Nat}

/-- Each release takes the first entry with its identifier. -/
theorem release_drop (ks : List Nat) (q : List Entry) (m : Nat → Nat) (k : Nat) :
    ((ks.foldl release (q, m)).1.filter fun e => e.key = k) =
      (q.filter fun e => e.key = k).drop (ks.count k) := by
  induction ks generalizing q m with
  | nil => rfl
  | cons k₀ ks ih =>
    rw [List.foldl_cons]
    refine (ih (release (q, m) k₀).1 (release (q, m) k₀).2).trans ?_
    change ((q.eraseP fun e => e.key = k₀).filter fun e => e.key = k).drop (ks.count k) = _
    rw [filter_eraseP]
    by_cases hk : k = k₀
    · subst hk
      rw [if_pos rfl, List.count_cons_self, List.drop_tail]
    · rw [if_neg hk, List.count_cons_of_ne (Ne.symm hk)]

theorem release_queue (hnd : ks.Nodup) (k : Nat) :
    ((ks.foldl release (q, m)).1.filter fun e => e.key = k) =
      if k ∈ ks then (q.filter fun e => e.key = k).tail else q.filter fun e => e.key = k := by
  rw [release_drop]
  split
  · rename_i hin
    rw [List.count_eq_one_of_mem hnd hin, List.drop_one]
  · rename_i hout
    rw [List.count_eq_zero_of_not_mem hout, List.drop_zero]

theorem release_sublist : List.Sublist (ks.foldl release (q, m)).1 q := by
  induction ks generalizing q m with
  | nil => exact List.Sublist.refl _
  | cons k₀ ks ih => exact ih.trans List.eraseP_sublist

/-- Entries whose identifiers are not released stay in their places. -/
theorem release_keeps {test : Entry → Bool} (h : ∀ e ∈ q, e.key ∈ ks → test e = false) :
    (ks.foldl release (q, m)).1.filter test = q.filter test := by
  induction ks generalizing q m with
  | nil => rfl
  | cons k₀ ks ih =>
    have hone : (q.eraseP fun e => e.key = k₀).filter test = q.filter test := by
      have h₀ : ∀ e ∈ q, e.key = k₀ → test e = false :=
        fun e he hk => h e he (by simp [hk])
      clear h ih
      induction q with
      | nil => rfl
      | cons e q ih =>
        have ih' := ih fun e' he' => h₀ e' (List.mem_cons_of_mem _ he')
        by_cases he : e.key = k₀
        · rw [List.eraseP_cons_of_pos (by simpa using he), List.filter_cons,
            h₀ e List.mem_cons_self he]
          rfl
        · rw [List.eraseP_cons_of_neg (by simpa using he), List.filter_cons, List.filter_cons, ih']
    rw [List.foldl_cons]
    refine (ih ?_).trans hone
    intro e he hk
    exact h e (List.mem_of_mem_eraseP he) (List.mem_cons_of_mem _ hk)

theorem release_slot_cases (ks : List Nat) (q : List Entry) (m : Nat → Nat) (i : Nat) :
    (ks.foldl release (q, m)).2 i = m i ∨ (ks.foldl release (q, m)).2 i = 0 := by
  induction ks generalizing q m with
  | nil => exact Or.inl rfl
  | cons k₀ ks ih =>
    rw [List.foldl_cons]
    have hone : (release (q, m) k₀).2 i = m i ∨ (release (q, m) k₀).2 i = 0 := by
      unfold release
      dsimp only
      split
      · exact clearFirst_cases m k₀ i
      · exact Or.inl rfl
    rcases ih (release (q, m) k₀).1 (release (q, m) k₀).2 with h | h
    · rcases hone with h' | h'
      · exact Or.inl (h.trans h')
      · exact Or.inr (h.trans h')
    · exact Or.inr h

/-- A slot whose identifier is not released, or not queued, stays. -/
theorem release_slot_other {i : Nat} (h : m i ∉ ks ∨ ¬ Queued q (m i)) :
    (ks.foldl release (q, m)).2 i = m i := by
  induction ks generalizing q m with
  | nil => rfl
  | cons k₀ ks ih =>
    rw [List.foldl_cons]
    have hone : (release (q, m) k₀).2 i = m i := by
      unfold release
      dsimp only
      split
      · rename_i hq
        refine clearFirst_other ?_
        rintro rfl
        rcases h with h | h
        · exact h List.mem_cons_self
        · exact h hq
      · rfl
    refine (ih (q := (release (q, m) k₀).1) (m := (release (q, m) k₀).2) ?_).trans hone
    rw [hone]
    rcases h with h | h
    · exact Or.inl fun hin => h (List.mem_cons_of_mem _ hin)
    · right
      rintro ⟨e, he, hk⟩
      exact h ⟨e, List.mem_of_mem_eraseP he, hk⟩

/-- A queued identifier that is released takes one of its slots along. -/
theorem release_slot_first {k : Nat} (hin : k ∈ ks) (hq : Queued q k) (hz : k ≠ 0)
    (hslot : ∃ i < SLOTSIZE, m i = k) :
    ∃ i < SLOTSIZE, m i = k ∧ (ks.foldl release (q, m)).2 i = 0 := by
  induction ks generalizing q m with
  | nil => cases hin
  | cons k₀ ks ih =>
    rw [List.foldl_cons]
    by_cases hk : k = k₀
    · subst hk
      have hclear : (release (q, m) k).2 = clearFirst m k := if_pos hq
      rcases clearFirst_spec m k with ⟨-, hno⟩ | ⟨n, hn, hnk, heq⟩
      · obtain ⟨i, hi, hik⟩ := hslot
        exact (hno i hi hik).elim
      · refine ⟨n, hn, hnk, ?_⟩
        rcases release_slot_cases ks (release (q, m) k).1 (release (q, m) k).2 n with h | h
        · rw [h, hclear, heq, Function.update_self]
        · exact h
    · have hsame : ∀ i, m i = k → (release (q, m) k₀).2 i = k := by
        intro i hi
        unfold release
        dsimp only
        split
        · rw [clearFirst_other fun h => hk (hi.symm.trans h), hi]
        · exact hi
      have hback : ∀ i, (release (q, m) k₀).2 i = k → m i = k := by
        intro i hi
        have hc : (release (q, m) k₀).2 i = m i ∨ (release (q, m) k₀).2 i = 0 :=
          release_slot_cases [k₀] q m i
        rcases hc with h | h
        · exact h.symm.trans hi
        · exact (hz (hi.symm.trans h)).elim
      obtain ⟨i, hi, hik⟩ := hslot
      obtain ⟨j, hj, hjk, hgone⟩ := ih (q := (release (q, m) k₀).1) (m := (release (q, m) k₀).2)
        ((List.mem_cons.mp hin).resolve_left hk) ((queued_eraseP hk).mpr hq) ⟨i, hi, hsame i hik⟩
      exact ⟨j, hj, hback j hjk, hgone⟩

theorem release_slot_unique {i : Nat} (hi : i < SLOTSIZE) (hin : m i ∈ ks) (hq : Queued q (m i))
    (hz : m i ≠ 0) (huniq : ∀ j < SLOTSIZE, m j = m i → j = i) :
    (ks.foldl release (q, m)).2 i = 0 := by
  obtain ⟨j, hj, hjk, hgone⟩ := release_slot_first hin hq hz ⟨i, hi, rfl⟩
  rwa [huniq j hj hjk] at hgone

/-- Of two slots with one identifier at most one goes. -/
theorem release_slot_twice {i j : Nat} (hnd : ks.Nodup) (hij : i ≠ j) (heq : m j = m i)
    (hz : m i ≠ 0) :
    (ks.foldl release (q, m)).2 i = m i ∨ (ks.foldl release (q, m)).2 j = m i := by
  induction ks generalizing q m with
  | nil => exact Or.inl rfl
  | cons k₀ ks ih =>
    rw [List.nodup_cons] at hnd
    rw [List.foldl_cons]
    by_cases hk : m i = k₀
    · have hone : (release (q, m) k₀).2 i = m i ∨ (release (q, m) k₀).2 j = m i := by
        unfold release
        dsimp only
        split
        · rw [hk]
          exact clearFirst_twice hij hk (heq.trans hk)
        · exact Or.inl rfl
      rcases hone with h | h
      · left
        rw [release_slot_other (Or.inl (by rw [h, hk]; exact hnd.1)), h]
      · right
        rw [release_slot_other (Or.inl (by rw [h, hk]; exact hnd.1)), h]
    · have hsame : ∀ n, m n = m i → (release (q, m) k₀).2 n = m n := by
        intro n hn
        unfold release
        dsimp only
        split
        · exact clearFirst_other fun h => hk (hn.symm.trans h)
        · rfl
      have hi' := hsame i rfl
      have hj' := hsame j heq
      have h := ih (q := (release (q, m) k₀).1) (m := (release (q, m) k₀).2) hnd.2
        (by rw [hi', hj', heq]) (by rw [hi']; exact hz)
      rwa [hi'] at h

/-! ### The walk and `wait` -/

/-- What is left after the pages `vas` of directory `d` were unmapped. -/
structure Unmapped (d pid : Nat) (vas : List Nat) (s t : Core) : Prop where
  queue : (t.pgqueue, t.swapMap) =
    (vas.map fun va => va ||| pid).foldl release (s.pgqueue, s.swapMap)
  procs : t.procs = s.procs
  dirs : ∀ d', d' ≠ d → t.dirs d' = s.dirs d'
  dir : ∀ D, s.dirs d = some D → ∃ D', t.dirs d = some D' ∧ D'.tab = D.tab ∧ D'.frame = D.frame
  swap : t.swap = s.swap
  free : ∀ f, f ∈ t.freelist ↔ f ∈ s.freelist ∨ ∃ va ∈ vas, ∃ x, s.pte d va = some x ∧ x.frame = f

theorem unmap_unmapped {va : Nat} {x : Pte} (hx : s.pte d va = some x) :
    Unmapped d pid [va] s (unmap s d va x pid) := by
  obtain ⟨m, hm⟩ := freePage_eq s (va ||| pid) true
  have hrel := freePage_release s (va ||| pid)
  refine ⟨hrel, ?_, ?_, ?_, ?_, ?_⟩
  · unfold unmap
    rw [hm]
    rfl
  · intro d' hne
    unfold unmap
    rw [hm]
    exact Function.update_of_ne hne _ _
  · intro D hD
    refine ⟨{ D with pte := Function.update D.pte va Pte.zero }, ?_, rfl, rfl⟩
    unfold unmap
    rw [hm]
    simp [Core.setPte, Vm.kfree, hD]
  · unfold unmap
    rw [hm]
    rfl
  · intro f
    unfold unmap
    rw [hm]
    change f ∈ x.frame :: s.freelist ↔ _
    rw [List.mem_cons]
    constructor
    · rintro (rfl | hf)
      · exact Or.inr ⟨va, List.mem_singleton_self va, x, hx, rfl⟩
      · exact Or.inl hf
    · rintro (hf | ⟨va', hva', y, hy, rfl⟩)
      · exact Or.inr hf
      · rw [List.mem_singleton] at hva'
        subst hva'
        rw [hx] at hy
        cases hy
        exact Or.inl rfl

theorem Unmapped.cons {va : Nat} {vas : List Nat} {u : Core} (h : Unmapped d pid [va] s t)
    (hkeep : ∀ va' ∈ vas, t.pte d va' = s.pte d va') (h' : Unmapped d pid vas t u) :
    Unmapped d pid (va :: vas) s u := by
  refine ⟨?_, h'.procs.trans h.procs, ?_, ?_, h'.swap.trans h.swap, ?_⟩
  · rw [List.map_cons, List.foldl_cons]
    have hq := h.queue
    rw [List.map_cons, List.foldl_cons, List.map_nil, List.foldl_nil] at hq
    rw [← hq]
    exact h'.queue
  · exact fun d' hne => (h'.dirs d' hne).trans (h.dirs d' hne)
  · intro D hD
    obtain ⟨D₁, hD₁, htab₁, hf₁⟩ := h.dir D hD
    obtain ⟨D₂, hD₂, htab₂, hf₂⟩ := h'.dir D₁ hD₁
    exact ⟨D₂, hD₂, htab₂.trans htab₁, hf₂.trans hf₁⟩
  · intro f
    rw [h'.free, h.free, or_assoc]
    refine or_congr_right ?_
    constructor
    · rintro (⟨va', hva', x, hx, hf⟩ | ⟨va', hva', x, hx, hf⟩)
      · rw [List.mem_singleton] at hva'
        exact ⟨va', hva' ▸ List.mem_cons_self, x, hx, hf⟩
      · exact ⟨va', List.mem_cons_of_mem _ hva', x, (hkeep va' hva').symm.trans hx, hf⟩
    · rintro ⟨va', hva', x, hx, hf⟩
      rcases List.mem_cons.mp hva' with rfl | hva'
      · exact Or.inl ⟨va', List.mem_singleton_self va', x, hx, hf⟩
      · exact Or.inr ⟨va', hva', x, (hkeep va' hva').trans hx, hf⟩

theorem foldl_unmapped (vas : List Nat) :
    ∀ {s : Core}, vas.Nodup → (∀ va ∈ vas, Present s d va) →
      Unmapped d pid vas s (vas.foldl (unmapAt d pid) s) := by
  induction vas with
  | nil =>
    intro s _ _
    refine ⟨rfl, rfl, fun _ _ => rfl, fun D hD => ⟨D, hD, rfl, rfl⟩, rfl, ?_⟩
    intro f
    simp
  | cons va vas ih =>
    intro s hnd hp
    rw [List.nodup_cons] at hnd
    obtain ⟨x, hx, hxp⟩ := hp va List.mem_cons_self
    have hkeep : ∀ va' ∈ vas, (unmap s d va x pid).pte d va' = s.pte d va' := by
      intro va' hva'
      refine pte_unmap d va' ?_
      rintro ⟨-, rfl⟩
      exact hnd.1 hva'
    rw [List.foldl_cons]
    have hat : unmapAt d pid s va = unmap s d va x pid := by
      unfold unmapAt
      rw [hx]
    rw [hat]
    refine (unmap_unmapped hx).cons hkeep (ih hnd.2 ?_)
    intro va' hva'
    unfold Present
    rw [hkeep va' hva']
    exact hp va' (List.mem_cons_of_mem _ hva')

/-- The frames that belong to a process: its stack, its directory, the page tables and
    the user pages in memory. -/
def OwnFrame (s : Core) (P : Proc) (f : Nat) : Prop :=
  f = P.kstack ∨ (∃ D, s.dirs P.page = some D ∧ (f = D.frame ∨ ∃ i < NPDENTRIES, D.tab i = some f)) ∨
    ∃ va, PGSIZE ∣ va ∧ va < KERNBASE ∧ Maps s P.page va f

/-- The user pages in memory. -/
def Resident (s : Core) (P : Proc) (va : Nat) : Prop :=
  PGSIZE ∣ va ∧ va < KERNBASE ∧ Present s P.page va

theorem mem_kfrees (L : List Nat) :
    ∀ {s : Core} {f : Nat}, f ∈ (L.foldl Vm.kfree s).freelist ↔ f ∈ L ∨ f ∈ s.freelist := by
  induction L with
  | nil => simp
  | cons g L ih =>
    intro s f
    rw [List.foldl_cons, ih]
    change f ∈ L ∨ f ∈ g :: s.freelist ↔ _
    simp only [List.mem_cons]
    tauto

/-- Everything that `freeuvm` does with directory `d` of process `pid`. -/
structure Freed (s t : Core) (d pid : Nat) (D : Dir) (vas : List Nat) : Prop where
  nodup : vas.Nodup
  mem : ∀ va, va ∈ vas ↔ PGSIZE ∣ va ∧ va < KERNBASE ∧ Present s d va
  queue : (t.pgqueue, t.swapMap) =
    (vas.map fun va => va ||| pid).foldl release (s.pgqueue, s.swapMap)
  procs : t.procs = s.procs
  dirs : ∀ d', d' ≠ d → t.dirs d' = s.dirs d'
  swap : t.swap = s.swap
  free : ∀ f, f ∈ t.freelist ↔ f ∈ s.freelist ∨ (∃ va ∈ vas, ∃ x, s.pte d va = some x ∧ x.frame = f) ∨
    f = D.frame ∨ ∃ i < NPDENTRIES, D.tab i = some f

variable (pid) in
theorem freeuvm_freed {D : Dir} (hD : s.dirs d = some D) :
    ∃ t vas, freeuvm s d pid = .ok t ∧ Freed s t d pid D vas := by
  obtain ⟨vas, hnd, hmem, heq⟩ := deallocLoop_eq d KERNBASE pid
    (KERNBASE / PGSIZE + 1) (i := pgroundup 0) (s := s) (pgroundup_dvd 0)
    (Or.inl (Dvd.intro 0 rfl)) (by unfold pgroundup KERNBASE PGSIZE; omega)
  have hzero : pgroundup 0 = 0 := by decide
  have hmem' : ∀ va, va ∈ vas ↔ PGSIZE ∣ va ∧ va < KERNBASE ∧ Present s d va := by
    intro va
    rw [hmem, hzero]
    exact ⟨fun h => ⟨h.1, h.2.2.1, h.2.2.2⟩, fun h => ⟨h.1, Nat.zero_le _, h.2.1, h.2.2⟩⟩
  obtain ⟨u, hu⟩ : ∃ u, u = vas.foldl (unmapAt d pid) s := ⟨_, rfl⟩
  have hun : Unmapped d pid vas s u := by
    rw [hu]
    exact foldl_unmapped vas hnd fun va hva => ((hmem va).mp hva).2.2.2
  obtain ⟨D', hD', htab, hframe⟩ := hun.dir D hD
  have hfree : freeuvm s d pid = .ok ((kfree (freeTables D' u) D'.frame).dropDir d) := by
    unfold freeuvm deallocuvm
    rw [if_neg (by decide), hD]
    dsimp only
    rw [heq, ← hu]
    simp only [bind, Except.bind, hD']
    rfl
  obtain ⟨v, hv⟩ : ∃ v, v = (D'.tables ++ [D'.frame]).foldl Vm.kfree (u.dropDir d) := ⟨_, rfl⟩
  have hlist : (kfree (freeTables D' u) D'.frame).dropDir d = v := by
    rw [hv, freeTables_eq, ← kfrees_dropDir, List.foldl_append]
    rfl
  obtain ⟨hkd, hkp, hkq, hks⟩ := kfrees_same (D'.tables ++ [D'.frame]) (u.dropDir d)
  have hkw : v.swap = u.swap := by
    rw [hv]
    exact List.foldlRecOn (motive := fun w : Core => w.swap = u.swap) _ _ rfl fun _ hw _ _ => hw
  have hkf : ∀ f, f ∈ v.freelist ↔ f ∈ D'.tables ++ [D'.frame] ∨ f ∈ u.freelist := by
    intro f
    rw [hv]
    exact mem_kfrees _
  rw [← hv] at hkd hkp hkq hks
  refine ⟨v, vas, by rw [hfree, hlist], hnd, hmem', ?_, hkp.trans hun.procs, ?_, hkw.trans hun.swap, ?_⟩
  · rw [hkq, hks]
    exact hun.queue
  · intro d' hne
    rw [hkd]
    exact (Function.update_of_ne hne _ _).trans (hun.dirs d' hne)
  · intro f
    have htabs : f ∈ D'.tables ↔ ∃ i < NPDENTRIES, D.tab i = some f := by
      unfold Dir.tables
      simp only [List.mem_filterMap, List.mem_range, htab]
    rw [hkf, hun.free, List.mem_append, List.mem_singleton, htabs, hframe]
    constructor
    · rintro ((hi | hf) | hf | hva)
      · exact Or.inr (Or.inr (Or.inr hi))
      · exact Or.inr (Or.inr (Or.inl hf))
      · exact Or.inl hf
      · exact Or.inr (Or.inl hva)
    · rintro (hf | hva | hf | hi)
      · exact Or.inr (Or.inl hf)
      · exact Or.inr (Or.inr hva)
      · exact Or.inl (Or.inr hf)
      · exact Or.inl (Or.inl hi)

/-- Everything that `wait` does with the memory of a process. -/
structure Waited (s t : Core) (q : Nat) (P : Proc) (vas : List Nat) : Prop where
  nodup : vas.Nodup
  mem : ∀ va, va ∈ vas ↔ Resident s P va
  queue : (t.pgqueue, t.swapMap) =
    (vas.map fun va => va ||| q).foldl release (s.pgqueue, s.swapMap)
  procs : t.procs = Function.update s.procs q none
  dirs : ∀ d, d ≠ P.page → t.dirs d = s.dirs d
  freed : ∀ f, OwnFrame s P f → f ∈ t.freelist

theorem wait_spec {q : Nat} {P : Proc} {D : Dir} (hD : s.dirs P.page = some D) :
    ∃ t vas, wait s q P = .ok t ∧ Waited s t q P vas := by
  obtain ⟨v, vas, hv, h⟩ := freeuvm_freed (s := kfree s P.kstack) q hD
  refine ⟨v.setProc q none, vas, ?_, h.nodup, h.mem, h.queue, ?_, h.dirs, ?_⟩
  · unfold wait
    rw [hv]
    rfl
  · change Function.update v.procs q none = _
    exact congrArg (fun p => Function.update p q none) h.procs
  · intro f hf
    refine (h.free f).mpr ?_
    rcases hf with rfl | ⟨E, hE, rfl | hE'⟩ | ⟨va, hva, hlt, x, hx, hp, rfl⟩
    · exact Or.inl List.mem_cons_self
    · rw [hD] at hE
      cases hE
      exact Or.inr (Or.inr (Or.inl rfl))
    · rw [hD] at hE
      cases hE
      exact Or.inr (Or.inr (Or.inr hE'))
    · exact Or.inr (Or.inl ⟨va, (h.mem va).mpr ⟨hva, hlt, x, hx, hp⟩, x, hx, rfl⟩)

/-! ### Reaping returns everything -/

/-- Process `q` is gone without a trace, and nobody else has noticed. -/
structure Reaped (s t : Core) (q : Nat) (P : Proc) : Prop where
  slots : ∀ i < SLOTSIZE, pteFlags (t.swapMap i) ≠ q
  queue : ∀ e ∈ t.pgqueue, pteFlags e.key ≠ q
  freed : ∀ f, OwnFrame s P f → t.freelist.count f = 1
  others : ∀ q' P', q' ≠ q → s.procs q' = some P' →
    t.procs q' = some P' ∧ t.dirs P'.page = s.dirs P'.page
  othersQueue : (t.pgqueue.filter fun e => e.dir ≠ P.page) = s.pgqueue.filter fun e => e.dir ≠ P.page
  othersSlots : ∀ i < SLOTSIZE, pteFlags (s.swapMap i) ≠ q → t.swapMap i = s.swapMap i

/-- What the search by present entries and by identifiers relies on. -/
structure Reapable (s : Core) (q : Nat) (P : Proc) : Prop where
  live : s.dirs P.page ≠ none
  queue : ∀ e ∈ s.pgqueue, pteFlags e.key = q → e.dir = P.page ∧ Resident s P (e.key - q)
  once : ∀ k, pteFlags k = q → (s.pgqueue.filter fun e => e.key = k).length ≤ 1
  slots : ∀ i < SLOTSIZE, pteFlags (s.swapMap i) = q →
    Queued s.pgqueue (s.swapMap i) ∧ ∀ j < SLOTSIZE, s.swapMap j = s.swapMap i → j = i

theorem pteFlags_or {va q : Nat} (hva : PGSIZE ∣ va) (hq : q < PGSIZE) : pteFlags (va ||| q) = q := by
  rw [or_eq_add hva (by unfold MAX_PID; unfold PGSIZE at hq; omega)]
  unfold pteFlags PGSIZE at *
  omega

/-- An identifier with process `q` is that of one page. -/
theorem key_page {k q : Nat} (hk : pteFlags k = q) : PGSIZE ∣ k - q ∧ (k - q ||| q) = k := by
  have hdvd : PGSIZE ∣ k - q := by
    unfold pteFlags PGSIZE at *
    omega
  refine ⟨hdvd, ?_⟩
  rw [or_eq_add hdvd (by unfold MAX_PID; unfold pteFlags PGSIZE at hk; omega)]
  unfold pteFlags PGSIZE at hk
  omega

theorem or_sub {va q : Nat} (hva : PGSIZE ∣ va) (hq : q < PGSIZE) : (va ||| q) - q = va := by
  rw [or_eq_add hva (by unfold MAX_PID; unfold PGSIZE at hq; omega)]
  omega

section Waited

variable {q : Nat} {P : Proc} {vas : List Nat} (h : Waited s t q P vas) (hq : q < PGSIZE)
include h hq

theorem Waited.keys_nodup : (vas.map fun va => va ||| q).Nodup := by
  refine List.Nodup.map_on ?_ h.nodup
  intro va hva va' hva' heq
  have h1 := or_sub ((h.mem va).mp hva).1 hq
  have h2 := or_sub ((h.mem va').mp hva').1 hq
  rw [← h1, ← h2, heq]

theorem Waited.mem_keys {k : Nat} :
    k ∈ (vas.map fun va => va ||| q) ↔ pteFlags k = q ∧ Resident s P (k - q) := by
  rw [List.mem_map]
  constructor
  · rintro ⟨va, hva, rfl⟩
    have hres := (h.mem va).mp hva
    rw [or_sub hres.1 hq]
    exact ⟨pteFlags_or hres.1 hq, hres⟩
  · rintro ⟨hk, hres⟩
    exact ⟨k - q, (h.mem _).mpr hres, (key_page hk).2⟩

theorem Waited.reaped (hr : Reapable s q P) (hpos : q ≠ 0) (hnd : t.freelist.Nodup)
    (halone : ∀ q' P', q' ≠ q → s.procs q' = some P' → P'.page ≠ P.page) : Reaped s t q P := by
  have hqueue : t.pgqueue = ((vas.map fun va => va ||| q).foldl release (s.pgqueue, s.swapMap)).1 :=
    congrArg Prod.fst h.queue
  have hslot : t.swapMap = ((vas.map fun va => va ||| q).foldl release (s.pgqueue, s.swapMap)).2 :=
    congrArg Prod.snd h.queue
  have hkey : ∀ k, Queued s.pgqueue k → pteFlags k = q → k ∈ vas.map fun va => va ||| q := by
    rintro k ⟨e, he, rfl⟩ hk
    exact (h.mem_keys hq).mpr ⟨hk, (hr.queue e he hk).2⟩
  refine ⟨?_, ?_, ?_, ?_, ?_, ?_⟩
  · intro i hi hflag
    rw [hslot] at hflag
    rcases release_slot_cases (vas.map fun va => va ||| q) s.pgqueue s.swapMap i with hc | hc
    · rw [hc] at hflag
      obtain ⟨hqd, huniq⟩ := hr.slots i hi hflag
      have hz : s.swapMap i ≠ 0 := by
        intro hz
        rw [hz] at hflag
        exact hpos hflag.symm
      rw [release_slot_unique hi (hkey _ hqd hflag) hqd hz huniq] at hc
      exact hz hc.symm
    · rw [hc] at hflag
      exact hpos hflag.symm
  · intro e he hflag
    rw [hqueue] at he
    have hes : e ∈ s.pgqueue := release_sublist.mem he
    have hin := hkey e.key ⟨e, hes, rfl⟩ hflag
    have hfil := release_queue (q := s.pgqueue) (m := s.swapMap) (h.keys_nodup hq) e.key
    rw [if_pos hin] at hfil
    have hlen := hr.once e.key hflag
    have hnil : (s.pgqueue.filter fun e' => e'.key = e.key).tail = [] := by
      rw [← List.length_eq_zero_iff, List.length_tail]
      omega
    rw [hnil, List.filter_eq_nil_iff] at hfil
    exact hfil e he (by simp)
  · intro f hf
    exact List.count_eq_one_of_mem hnd (h.freed f hf)
  · intro q' P' hne hP'
    refine ⟨?_, h.dirs _ (halone q' P' hne hP')⟩
    rw [h.procs, Function.update_of_ne hne]
    exact hP'
  · rw [hqueue]
    refine release_keeps ?_
    intro e he hin
    have hflag := ((h.mem_keys hq).mp hin).1
    simp [(hr.queue e he hflag).1]
  · intro i _ hflag
    rw [hslot]
    refine release_slot_other (Or.inl fun hin => hflag ?_)
    exact ((h.mem_keys hq).mp hin).1

theorem Waited.reapable (hr : Reaped s t q P) (hpos : q ≠ 0) (hlive : s.dirs P.page ≠ none) :
    Reapable s q P := by
  have hqueue : t.pgqueue = ((vas.map fun va => va ||| q).foldl release (s.pgqueue, s.swapMap)).1 :=
    congrArg Prod.fst h.queue
  have hslot : t.swapMap = ((vas.map fun va => va ||| q).foldl release (s.pgqueue, s.swapMap)).2 :=
    congrArg Prod.snd h.queue
  have hfil : ∀ k, pteFlags k = q → (t.pgqueue.filter fun e => e.key = k) = [] := by
    intro k hk
    refine List.filter_eq_nil_iff.mpr ?_
    intro e he hek
    rw [decide_eq_true_eq] at hek
    exact hr.queue e he (hek ▸ hk)
  have hgone : ∀ k, pteFlags k = q → Queued s.pgqueue k → k ∈ (vas.map fun va => va ||| q) := by
    intro k hk hqd
    by_contra hout
    have hf := release_queue (q := s.pgqueue) (m := s.swapMap) (h.keys_nodup hq) k
    rw [if_neg hout, ← hqueue, hfil k hk] at hf
    exact queued_iff.mp hqd hf.symm
  refine ⟨hlive, ?_, ?_, ?_⟩
  · intro e he hflag
    refine ⟨?_, ((h.mem_keys hq).mp (hgone e.key hflag ⟨e, he, rfl⟩)).2⟩
    by_contra hdir
    have hin : e ∈ s.pgqueue.filter fun e => e.dir ≠ P.page :=
      List.mem_filter.mpr ⟨he, by simpa using hdir⟩
    rw [← hr.othersQueue] at hin
    exact hr.queue e (List.mem_filter.mp hin).1 hflag
  · intro k hk
    have hf := release_queue (q := s.pgqueue) (m := s.swapMap) (h.keys_nodup hq) k
    rw [← hqueue, hfil k hk] at hf
    split at hf
    · have := congrArg List.length hf
      rw [List.length_tail, List.length_nil] at this
      omega
    · rw [← hf]
      exact Nat.zero_le 1
  · intro i hi hflag
    have hne : t.swapMap i ≠ s.swapMap i := by
      intro heq
      exact hr.slots i hi (heq ▸ hflag)
    have hz : s.swapMap i ≠ 0 := by
      intro hz
      rw [hz] at hflag
      exact hpos hflag.symm
    rw [hslot] at hne
    refine ⟨?_, ?_⟩
    · by_contra hnq
      exact hne (release_slot_other (Or.inr hnq))
    · intro j hj heq
      by_contra hji
      rcases release_slot_twice (q := s.pgqueue) (h.keys_nodup hq) (Ne.symm hji) heq hz with hc | hc
      · exact hne hc
      · refine hr.slots j hj ?_
        rw [hslot, hc]
        exact hflag

end Waited

theorem fork_procs {P : Proc} (ht : fork s pid P = .ok t) {q : Nat} (hq : q ≠ s.nextpid) :
    t.procs q = s.procs q := by
  obtain ⟨⟨u, o⟩, hu, ht⟩ := bind_eq_ok.mp ht
  have hpu : u.procs = s.procs := (kalloc_marks (S := noPage) hu).procs
  cases o with
  | none =>
    cases ht
    rw [hpu]
  | some k =>
    obtain ⟨⟨v, o'⟩, hv, ht⟩ := bind_eq_ok.mp ht
    have hpv : v.procs = s.procs := (copyuvm_marks hv).1.procs.trans hpu
    cases o' with
    | none =>
      cases ht
      exact congrFun hpv q
    | some td =>
      cases ht
      rw [procs_setProc, if_neg hq, hpv]

theorem procgrow_procs {P : Proc} {n : Int} (ht : procgrow s pid P n = .ok t) {q : Nat}
    (hq : q ≠ pid) : t.procs q = s.procs q := by
  have hend : ∀ {u : Core} {sz : Nat}, u.procs = s.procs →
      (if sz = 0 then u else u.setProc pid (some { P with size := sz })).procs q = s.procs q := by
    intro u sz hp
    split
    · rw [hp]
    · rw [procs_setProc, if_neg hq, hp]
  unfold procgrow at ht
  dsimp only at ht
  split at ht
  · obtain ⟨⟨u, sz⟩, hu, ht⟩ := bind_eq_ok.mp ht
    cases ht
    exact hend (allocuvm_procs hu)
  · split at ht
    · obtain ⟨⟨u, sz⟩, hu, ht⟩ := bind_eq_ok.mp ht
      cases ht
      exact hend (deallocuvm_marks (S := noPage) hu).procs
    · cases ht
      rfl

/-- The call is made by the process that the label names, in its state. -/
theorem threadAct_call {s t : Threads} {c : Call} (h : threadAct s (.vm (.call pid c)) = .ok t) :
    ∃ P, s.core.procs pid = some P ∧ call s.core pid P c = .ok t.core := by
  obtain ⟨u, hu, ht⟩ := bind_eq_ok.mp h
  cases ht
  unfold act at hu
  dsimp only at hu
  split at hu
  · rename_i P hP
    split at hu
    · cases hu
    · exact ⟨P, hP, hu⟩
  · cases hu

/-- The first process grows and forks. -/
theorem grown_fork_procs {l : List Nat} {m : Nat} {n : Int} {s₀ : Core} {s₁ s₂ : Threads}
    (hboot : boot l m [] = .ok s₀)
    (h₁ : threadAct ⟨s₀, fun _ => false⟩ (.vm (.call 1 (.sbrk n))) = .ok s₁)
    (h₂ : threadAct s₁ (.vm (.call 1 .fork)) = .ok s₂) (hnext : s₁.core.nextpid = 2) :
    ∀ q, q ≠ 1 → q ≠ 2 → s₂.core.procs q = none := by
  intro q hq₁ hq₂
  obtain ⟨P₁, -, hc₁⟩ := threadAct_call h₁
  obtain ⟨P₂, -, hc₂⟩ := threadAct_call h₂
  rw [fork_procs hc₂ (by rw [hnext]; exact hq₂), procgrow_procs hc₁ hq₁]
  by_contra hne
  obtain ⟨P, hP⟩ := Option.ne_none_iff_exists'.mp hne
  exact hq₁ ((Agree.boot hboot).2 q P hP)

/-! While nothing is queued, nothing is evicted. -/

theorem mapPage_swapMap {va f : Nat} {w u a r : Bool} (hq : s.pgqueue = [])
    (ht : mapPage s d va f w u a = .ok (t, r)) : t.swapMap = s.swapMap ∧ t.pgqueue = [] := by
  obtain ⟨⟨v, r'⟩, hv, ht⟩ := bind_eq_ok.mp ht
  have hv' := walkpgdir_swapMap hq hv
  cases r' with
  | false =>
    cases ht
    exact hv'
  | true =>
    dsimp only at ht
    split at ht
    · cases ht
    · split at ht
      · cases ht
      · cases ht
        exact hv'

theorem kernelTables_swapMap (l : List Nat) :
    ∀ {s t : Core} {r : Bool}, s.pgqueue = [] → kernelTables d l s = .ok (t, r) →
      t.swapMap = s.swapMap ∧ t.pgqueue = [] := by
  induction l with
  | nil =>
    intro s t r hq ht
    cases ht
    exact ⟨rfl, hq⟩
  | cons i l ih =>
    intro s t r hq ht
    obtain ⟨⟨u, r'⟩, hu, ht⟩ := bind_eq_ok.mp ht
    obtain ⟨hm, hqu⟩ := walkpgdir_swapMap hq hu
    cases r' with
    | false =>
      cases ht
      exact ⟨hm, hqu⟩
    | true =>
      obtain ⟨hm', hqt⟩ := ih hqu ht
      exact ⟨hm'.trans hm, hqt⟩

theorem setupkvm_swapMap {o : Option Nat} (hq : s.pgqueue = []) (ht : setupkvm s = .ok (t, o)) :
    t.swapMap = s.swapMap ∧ t.pgqueue = [] := by
  obtain ⟨⟨u, o'⟩, hu, ht⟩ := bind_eq_ok.mp ht
  obtain ⟨hm, hqu⟩ := kalloc_swapMap hq hu
  cases o' with
  | none =>
    cases ht
    exact ⟨hm, hqu⟩
  | some f =>
    obtain ⟨⟨v, r⟩, hv, ht⟩ := bind_eq_ok.mp ht
    obtain ⟨hm', hqv⟩ := kernelTables_swapMap (s := (u.setMem f Bytes.zero).newDir f) _ hqu hv
    cases r with
    | false =>
      cases ht
      exact ⟨hm'.trans hm, hqv⟩
    | true =>
      cases ht
      exact ⟨hm'.trans hm, hqv⟩

theorem boot_swapMap {l : List Nat} {m : Nat} {init : List UInt8} (ht : boot l m init = .ok t) :
    (∀ i, t.swapMap i = 0) ∧ t.pgqueue = [] := by
  obtain ⟨⟨u, o⟩, hu, ht⟩ := bind_eq_ok.mp ht
  obtain ⟨hmu, hqu⟩ := kalloc_swapMap rfl hu
  cases o with
  | none => cases ht
  | some k =>
    obtain ⟨⟨v, o'⟩, hv, ht⟩ := bind_eq_ok.mp ht
    obtain ⟨hmv, hqv⟩ := setupkvm_swapMap hqu hv
    cases o' with
    | none => cases ht
    | some d =>
      obtain ⟨w, hw, ht⟩ := bind_eq_ok.mp ht
      obtain ⟨⟨x, o''⟩, hx, hw⟩ := bind_eq_ok.mp hw
      obtain ⟨hmx, hqx⟩ := kalloc_swapMap hqv hx
      cases o'' with
      | none => cases hw
      | some f =>
        obtain ⟨⟨y, r⟩, hy, hw⟩ := bind_eq_ok.mp hw
        obtain rfl : y = w := Except.ok.inj hw
        obtain ⟨hmy, hqy⟩ := mapPage_swapMap (s := x.setMem f (initPage init)) hqx hy
        cases ht
        refine ⟨fun i => ?_, hqy⟩
        change y.swapMap i = 0
        rw [hmy]
        change x.swapMap i = 0
        rw [hmx, hmv, hmu]
        rfl

/-- `fork` of a process with one page. -/
theorem fork_swapMap {P : Proc} (hq : s.pgqueue = []) (hz : ∀ i, s.swapMap i = 0)
    (hsz : P.size = PGSIZE) (hpid : pid ≠ 0) (ht : fork s pid P = .ok t)
    (hnew : s.procs s.nextpid = none) (hok : t.procs s.nextpid ≠ none) :
    (∀ i, t.swapMap i = 0) ∧ t.pgqueue = [] := by
  obtain ⟨⟨u, o⟩, hu, ht⟩ := bind_eq_ok.mp ht
  obtain ⟨hmu, hqu⟩ := kalloc_swapMap (s := { s with nextpid := s.nextpid + 1 }) hq hu
  have hpu : u.procs = s.procs := (kalloc_marks (S := noPage) hu).procs
  cases o with
  | none =>
    cases ht
    exact (hok (by rw [hpu, hnew])).elim
  | some k =>
    obtain ⟨⟨v, o'⟩, hv, ht⟩ := bind_eq_ok.mp ht
    have hpv : v.procs = s.procs := (copyuvm_marks hv).1.procs.trans hpu
    cases o' with
    | none =>
      cases ht
      exact (hok ((congrFun hpv _).trans hnew)).elim
    | some td =>
      cases ht
      obtain ⟨⟨w, o''⟩, hw, hv⟩ := bind_eq_ok.mp hv
      obtain ⟨hmw, hqw⟩ := setupkvm_swapMap hqu hw
      have hzw : ∀ i, w.swapMap i = 0 := by
        intro i
        rw [hmw, hmu]
        exact hz i
      cases o'' with
      | none => cases hv
      | some td' =>
        obtain ⟨⟨x, r⟩, hx, hv⟩ := bind_eq_ok.mp hv
        cases r with
        | false =>
          obtain ⟨y, -, hv⟩ := bind_eq_ok.mp hv
          cases hv
        | true =>
          cases hv
          have hlist : pages 0 P.size = [0] := by
            rw [hsz]
            decide
          rw [hlist] at hx
          unfold copyLoop at hx
          split at hx
          · cases hx
          · rename_i e he
            obtain ⟨w', hw', hloop⟩ := bind_eq_ok.mp hx
            -- the page is present: there is no slot it could come from
            have hin : w' = w := by
              unfold pageInIf at hw'
              split at hw'
              · obtain ⟨u', f, i, y, hu', hi, -⟩ := pageIn_iff.mp hw'
                obtain ⟨-, -, hk⟩ := firstFrom_some hi
                rw [decide_eq_true_eq, (kalloc_swapMap hqw hu').1, hzw] at hk
                exact (@or_ne_zero 0 pid hpid ((Nat.or_comm _ _).trans hk.symm)).elim
              · cases hw'
                rfl
            rw [hin] at hloop
            split at hloop
            · cases hloop
            · rename_i e' he'
              obtain ⟨⟨y, o₃⟩, hy, hloop⟩ := bind_eq_ok.mp hloop
              obtain ⟨hmy, hqy⟩ := kalloc_swapMap hqw hy
              cases o₃ with
              | none => cases hloop
              | some g =>
                obtain ⟨⟨z, r'⟩, hz', hloop⟩ := bind_eq_ok.mp hloop
                obtain ⟨hmz, hqz⟩ := mapPage_swapMap (s := y.setMem g (y.mem e'.frame)) hqy hz'
                cases r' with
                | false => cases hloop
                | true =>
                  obtain ⟨z', hz'', hloop⟩ := bind_eq_ok.mp hloop
                  have hno : ¬ (0 < 0 ∧ e'.u = true) := by simp
                  unfold addPageIf at hz''
                  rw [decide_eq_false hno] at hz''
                  obtain rfl : z = z' := Except.ok.inj hz''
                  obtain rfl : z = v := congrArg Prod.fst (Except.ok.inj hloop)
                  refine ⟨fun i => ?_, hqz⟩
                  change z.swapMap i = 0
                  rw [hmz]
                  change y.swapMap i = 0
                  rw [hmy]
                  exact hzw i

end Yonix.Vm
