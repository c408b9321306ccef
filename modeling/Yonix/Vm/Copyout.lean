/-
  Yonix/Vm/Copyout.lean
  =====================
  **What `copyout` copies, and where it goes astray (`vm.c`).**

  `copyout` copies page by page up to the first page that is not present or not for the
  user; `uva2ka` finds that out from the page table entry.  Where the page table itself is
  missing, `walkpgdir` returns a null pointer and `uva2ka` reads through it.  So the copy is
  exact and total exactly when the first page that stops it has a page table
  (`copyout_exact_iff`).

  The bytes to copy are a list here, so they are not in the pages of the directory.
-/
import Yonix.Vm.Exec
import Yonix.Vm.Transparent

namespace Yonix.Vm

variable {s t u : Core} {d va a b k n : Nat} {src : List UInt8} {r : Bool}

/-! ### What should happen -/

/-- The page of `a` is present and for the user. -/
def Open (s : Core) (d a : Nat) : Prop := UserPage s d (pgrounddown a)

/-- What the user finds at `a`. -/
def userByte (s : Core) (d a : Nat) : Option UInt8 :=
  match s.pte d (pgrounddown a) with
  | some x => if x.p ∧ x.u then some ((s.mem x.frame).get (a - pgrounddown a)) else none
  | none => none

/-- The pages for the user have frames of their own. -/
def OwnFrames (s : Core) (d : Nat) : Prop :=
  ∀ {a b : Nat} {x y : Pte}, a < 2 ^ 32 → b < 2 ^ 32 → PGSIZE ∣ a → PGSIZE ∣ b →
    s.pte d a = some x → s.pte d b = some y →
    x.p = true → x.u = true → y.p = true → y.u = true → x.frame = y.frame → a = b

/-- The address is copied to: every page from the first on is open. -/
def Reached (s : Core) (d va n a : Nat) : Prop :=
  va ≤ a ∧ a < va + n ∧ ∀ b, va ≤ b → b ≤ a → Open s d b

/-- `copyout` returns and has copied what it should. -/
structure CopiesOut (s : Core) (d va : Nat) (src : List UInt8) (t : Core) (r : Bool) : Prop where
  returns : copyout s d va src = .ok (t, r)
  iff : r = true ↔ ∀ a, va ≤ a → a < va + src.length → Open s d a
  all : r = true → ∀ a < 2 ^ 32, userByte t d a =
    if va ≤ a ∧ a < va + src.length then some (src.getD (a - va) 0) else userByte s d a
  part : r = false → ∀ a < 2 ^ 32, userByte t d a ≠ userByte s d a → Reached s d va src.length a
  rest : Writes s t

/-- Every page that the copy gets to has a page table. -/
def RangeTabled (s : Core) (d va n : Nat) : Prop :=
  ∀ a, va ≤ a → a < va + n → (∀ b, va ≤ b → b < a → Open s d b) → (s.pte d (pgrounddown a)).isSome

/-! ### One page -/

theorem pgrounddown_same (h1 : va ≤ a) (h2 : a < pgrounddown va + PGSIZE) :
    pgrounddown a = pgrounddown va := by
  unfold pgrounddown at *
  unfold PGSIZE at *
  omega

theorem Open.same (h : Open s d va) (h1 : va ≤ a) (h2 : a < pgrounddown va + PGSIZE) :
    Open s d a := by
  unfold Open
  rw [pgrounddown_same h1 h2]
  exact h

theorem Writes.open_iff (h : Writes s t) (d a : Nat) : Open t d a ↔ Open s d a := by
  unfold Open UserPage
  rw [h.pte]

theorem Writes.ownFrames (h : Writes s t) (hs : OwnFrames s d) : OwnFrames t d := by
  intro a b x y ha hb hda hdb hx hy
  rw [h.pte] at hx hy
  exact hs ha hb hda hdb hx hy

theorem userByte_of_open {x : Pte} (hx : s.pte d (pgrounddown a) = some x) (hp : x.p = true)
    (hu : x.u = true) : userByte s d a = some ((s.mem x.frame).get (a - pgrounddown a)) := by
  unfold userByte
  rw [hx]
  exact if_pos ⟨hp, hu⟩

theorem userByte_of_not_open (h : ¬ Open s d a) : userByte s d a = none := by
  unfold userByte
  split
  · rename_i x hx
    split
    · rename_i hpu
      exact absurd ⟨x, hx, hpu⟩ h
    · rfl
  · rfl

/-- Copying into one page. -/
theorem userByte_patch {x : Pte} {f : Nat → UInt8} (hs : OwnFrames s d)
    (hx : s.pte d (pgrounddown va) = some x) (hp : x.p = true) (hu : x.u = true)
    (hva : va < 2 ^ 32) (hn : va + n ≤ pgrounddown va + PGSIZE) (ha : a < 2 ^ 32) :
    userByte (s.setMem x.frame ((s.mem x.frame).patch (va - pgrounddown va) f n)) d a =
      if va ≤ a ∧ a < va + n then some (f (a - va)) else userByte s d a := by
  have hw : Writes s (s.setMem x.frame ((s.mem x.frame).patch (va - pgrounddown va) f n)) := rfl
  have hdown := pgrounddown_le va
  have hle := pgrounddown_le a
  by_cases hopen : Open s d a
  · obtain ⟨y, hy, hyp, hyu⟩ := hopen
    rw [userByte_of_open ((hw.pte d _).trans hy) hyp hyu, userByte_of_open hy hyp hyu]
    by_cases hpage : pgrounddown a = pgrounddown va
    · rw [hpage, hx] at hy
      cases hy
      have hlt := sub_pgrounddown_lt a
      rw [hpage] at hlt hle ⊢
      unfold Core.setMem
      dsimp only
      rw [Function.update_self, Bytes.get_patch _ _ _ _ hlt]
      by_cases hin : va ≤ a ∧ a < va + n
      · rw [if_pos hin, if_pos (by omega)]
        congr 2
        omega
      · rw [if_neg hin, if_neg (by omega)]
    · have hne : y.frame ≠ x.frame := fun hf =>
        hpage (hs (by omega) (by omega) (pgrounddown_dvd a) (pgrounddown_dvd va) hy hx hyp hyu hp hu hf)
      have hout : ¬ (va ≤ a ∧ a < va + n) := fun h => hpage (pgrounddown_same h.1 (by omega))
      unfold Core.setMem
      dsimp only
      rw [Function.update_of_ne hne, if_neg hout]
  · have hout : ¬ (va ≤ a ∧ a < va + n) := fun h =>
      hopen (Open.same ⟨x, hx, hp, hu⟩ h.1 (by omega))
    rw [if_neg hout, userByte_of_not_open hopen,
      userByte_of_not_open (fun h => hopen ((hw.open_iff d a).mp h))]

/-! ### The loop -/

/-- What the loop has done when it ends. -/
structure CopiedOut (s : Core) (d va : Nat) (src : List UInt8) (t : Core) (r : Bool) : Prop where
  rest : Writes s t
  iff : r = true ↔ ∀ a, va ≤ a → a < va + src.length → Open s d a
  inside : ∀ a < 2 ^ 32, Reached s d va src.length a → userByte t d a = some (src.getD (a - va) 0)
  outside : ∀ a < 2 ^ 32, ¬ Reached s d va src.length a → userByte t d a = userByte s d a

theorem CopiedOut.nil (s : Core) (d va : Nat) : CopiedOut s d va [] s true where
  rest := Writes.refl s
  iff := iff_of_true rfl fun _ h1 h2 => absurd (Nat.lt_of_le_of_lt h1 h2) (Nat.lt_irrefl va)
  inside _ _ h := absurd (Nat.lt_of_le_of_lt h.1 h.2.1) (Nat.lt_irrefl va)
  outside _ _ _ := rfl

/-- The page of the first byte is not open. -/
theorem CopiedOut.stop (h : ¬ Open s d va) (hne : src ≠ []) : CopiedOut s d va src s false where
  rest := Writes.refl s
  iff := by
    have hpos := List.length_pos_iff.mpr hne
    exact iff_of_false (by simp) fun hall => h (hall va (Nat.le_refl va) (by omega))
  inside _ _ ha := absurd (ha.2.2 va (Nat.le_refl va) ha.1) h
  outside _ _ _ := rfl

/-- One page is copied, and then the others. -/
theorem CopiedOut.page {x : Pte} (hs : OwnFrames s d) (hx : s.pte d (pgrounddown va) = some x)
    (hp : x.p = true) (hu : x.u = true) (hva : va < 2 ^ 32)
    (hn : n = min (PGSIZE - (va - pgrounddown va)) src.length)
    (h : CopiedOut (s.setMem x.frame
        ((s.mem x.frame).patch (va - pgrounddown va) (fun j => src.getD j 0) n)) d
      (pgrounddown va + PGSIZE) (src.drop n) t r) : CopiedOut s d va src t r := by
  have hdown := pgrounddown_le va
  have hoff := sub_pgrounddown_lt va
  have hopen : Open s d va := ⟨x, hx, hp, hu⟩
  have hfirst : ∀ b, va ≤ b → b < va + n → Open s d b := fun b h1 h2 => hopen.same h1 (by omega)
  have hpatch := fun a (ha : a < 2 ^ 32) => userByte_patch (f := fun j => src.getD j 0) hs hx hp hu
    hva (show va + n ≤ pgrounddown va + PGSIZE by omega) ha
  obtain ⟨v, hv⟩ : ∃ v, v = s.setMem x.frame
      ((s.mem x.frame).patch (va - pgrounddown va) (fun j => src.getD j 0) n) := ⟨_, rfl⟩
  rw [← hv] at h hpatch
  have hw : Writes s v := hv ▸ rfl
  obtain ⟨hrest, hiff, hin, hout⟩ := h
  rw [List.length_drop] at hiff hin hout
  -- the rest of the loop reaches what the whole loop reaches after the first page
  have hreach : ∀ a, Reached s d va src.length a ↔
      va ≤ a ∧ a < va + n ∨ Reached v d (pgrounddown va + PGSIZE) (src.length - n) a := by
    intro a
    constructor
    · rintro ⟨h1, h2, h3⟩
      by_cases hlt : a < va + n
      · exact Or.inl ⟨h1, hlt⟩
      · refine Or.inr ⟨by omega, by omega, fun b hb1 hb2 => ?_⟩
        exact (hw.open_iff d b).mpr (h3 b (by omega) hb2)
    · rintro (⟨h1, h2⟩ | ⟨h1, h2, h3⟩)
      · exact ⟨h1, by omega, fun b hb1 hb2 => hfirst b hb1 (by omega)⟩
      · refine ⟨by omega, by omega, fun b hb1 hb2 => ?_⟩
        by_cases hlt : b < va + n
        · exact hfirst b hb1 hlt
        · exact (hw.open_iff d b).mp (h3 b (by omega) hb2)
  refine ⟨hw.trans hrest, hiff.trans ?_, ?_, ?_⟩
  · constructor
    · intro hall a h1 h2
      by_cases hlt : a < va + n
      · exact hfirst a h1 hlt
      · exact (hw.open_iff d a).mp (hall a (by omega) (by omega))
    · intro hall a h1 h2
      exact (hw.open_iff d a).mpr (hall a (by omega) (by omega))
  · intro a ha hra
    by_cases hlater : Reached v d (pgrounddown va + PGSIZE) (src.length - n) a
    · have h1 := hlater.1
      have h2 := hlater.2.1
      have hindex : n + (a - (pgrounddown va + PGSIZE)) = a - va := by omega
      rw [hin a ha hlater, List.getD_eq_getElem?_getD, List.getElem?_drop, hindex,
        ← List.getD_eq_getElem?_getD]
    · have hnow := ((hreach a).mp hra).resolve_right hlater
      rw [hout a ha hlater, hpatch a ha, if_pos hnow]
  · intro a ha hra
    rw [hreach, not_or] at hra
    rw [hout a ha hra.2, hpatch a ha, if_neg hra.1]

/-- What is left of the pages after the first one. -/
theorem RangeTabled.next (h : RangeTabled s d va n) (hopen : Open s d va) (hk : va + k = pgrounddown va + PGSIZE)
    (hle : k ≤ n) (hw : Writes s u) : RangeTabled u d (va + k) (n - k) := by
  intro a h1 h2 hall
  rw [hw.pte]
  refine h a (by omega) (by omega) fun b hb1 hb2 => ?_
  by_cases hlt : b < va + k
  · exact hopen.same hb1 (by omega)
  · exact (hw.open_iff d b).mp (hall b (by omega) hb2)

theorem rangeTabled_zero (s : Core) (d va : Nat) : RangeTabled s d va 0 :=
  fun _ h1 h2 _ => absurd (Nat.lt_of_le_of_lt h1 h2) (Nat.lt_irrefl va)

theorem copyoutLoop_copied (k : Nat) :
    ∀ {va : Nat} {src : List UInt8} {s : Core}, src.length ≤ k → va + src.length ≤ 2 ^ 32 →
      OwnFrames s d → RangeTabled s d va src.length →
      ∃ t r, copyoutLoop d k va src s = .ok (t, r) ∧ CopiedOut s d va src t r := by
  induction k with
  | zero =>
    intro va src s hlen _ _ _
    obtain rfl := List.length_eq_zero_iff.mp (Nat.le_zero.mp hlen)
    exact ⟨s, true, rfl, CopiedOut.nil s d va⟩
  | succ k ih =>
    intro va src s hlen hva hs htab
    unfold copyoutLoop
    by_cases hne : src = []
    · subst hne
      exact ⟨s, true, if_pos rfl, CopiedOut.nil s d va⟩
    · rw [if_neg hne]
      have hpos := List.length_pos_iff.mpr hne
      have hdown := pgrounddown_le va
      have hoff := sub_pgrounddown_lt va
      obtain ⟨x, hx⟩ := Option.isSome_iff_exists.mp (htab va (Nat.le_refl va) (by omega)
        fun b h1 h2 => absurd h1 (Nat.not_le_of_lt h2))
      dsimp only
      rw [hx]
      dsimp only
      by_cases hclosed : x.p = false ∨ x.u = false
      · refine ⟨s, false, if_pos hclosed, CopiedOut.stop ?_ hne⟩
        rintro ⟨y, hy, hyp, hyu⟩
        rw [hx] at hy
        cases hy
        rcases hclosed with h | h
        · rw [hyp] at h
          cases h
        · rw [hyu] at h
          cases h
      · rw [if_neg hclosed]
        simp only [not_or, Bool.not_eq_false] at hclosed
        obtain ⟨hp, hu⟩ := hclosed
        obtain ⟨n, hn⟩ : ∃ n, n = min (PGSIZE - (va - pgrounddown va)) src.length := ⟨_, rfl⟩
        rw [← hn]
        have hw : Writes s (s.setMem x.frame
          ((s.mem x.frame).patch (va - pgrounddown va) (fun j => src.getD j 0) n)) := rfl
        have hnext : RangeTabled (s.setMem x.frame
            ((s.mem x.frame).patch (va - pgrounddown va) (fun j => src.getD j 0) n)) d
            (pgrounddown va + PGSIZE) (src.drop n).length := by
          rw [List.length_drop]
          rcases Nat.lt_or_ge n src.length with hlt | hge
          · have hk : va + n = pgrounddown va + PGSIZE := by omega
            rw [← hk]
            exact htab.next ⟨x, hx, hp, hu⟩ hk hlt.le hw
          · rw [Nat.sub_eq_zero_of_le hge]
            exact rangeTabled_zero _ _ _
        have hend : pgrounddown va + PGSIZE ≤ 2 ^ 32 := by
          unfold pgrounddown PGSIZE
          omega
        obtain ⟨t, r, ht, hcopied⟩ := ih (by rw [List.length_drop]; omega)
          (by rw [List.length_drop]; omega) (hw.ownFrames hs) hnext
        exact ⟨t, r, ht, hcopied.page hs hx hp hu (by omega) hn⟩

/-- A loop that returns has found the page tables. -/
theorem tabled_of_copyoutLoop (k : Nat) :
    ∀ {va : Nat} {src : List UInt8} {s t : Core} {r : Bool}, src.length ≤ k →
      copyoutLoop d k va src s = .ok (t, r) → RangeTabled s d va src.length := by
  induction k with
  | zero =>
    intro va src s t r hlen _
    rw [Nat.le_zero.mp hlen]
    exact rangeTabled_zero s d va
  | succ k ih =>
    intro va src s t r hlen ht a h1 h2 hall
    unfold copyoutLoop at ht
    split at ht
    · rename_i hnil
      subst hnil
      exact absurd (Nat.lt_of_le_of_lt h1 h2) (Nat.lt_irrefl va)
    · dsimp only at ht
      split at ht
      · cases ht
      · rename_i x hx
        have hdown := pgrounddown_le va
        have hoff := sub_pgrounddown_lt va
        by_cases hpage : a < pgrounddown va + PGSIZE
        · rw [pgrounddown_same h1 hpage, hx]
          rfl
        · split at ht
          · -- the page of `va` is closed, so that no later page is reached
            rename_i hclosed
            obtain ⟨y, hy, hyp, hyu⟩ := hall va (Nat.le_refl va) (by omega)
            rw [hx] at hy
            cases hy
            rw [hyp, hyu] at hclosed
            rcases hclosed with h | h <;> cases h
          · have hlt := ih (by rw [List.length_drop]; omega) ht a (by omega)
              (by rw [List.length_drop]; omega)
            exact hlt fun b hb1 hb2 => hall b (by omega) hb2

/-- **`copyout` is total and exact exactly when every page that it gets to has a page
    table.** -/
theorem copyout_exact_iff (s : Core) (d va : Nat) (src : List UInt8) (hs : OwnFrames s d)
    (hva : va + src.length ≤ 2 ^ 32) :
    (∃ t r, CopiesOut s d va src t r) ↔ RangeTabled s d va src.length := by
  constructor
  · rintro ⟨t, r, h⟩
    exact tabled_of_copyoutLoop src.length (Nat.le_refl _) h.returns
  · intro htab
    obtain ⟨t, r, ht, h⟩ := copyoutLoop_copied src.length (Nat.le_refl _) hva hs htab
    refine ⟨t, r, ht, h.iff, ?_, ?_, h.rest⟩
    · intro hr a ha
      have hall := h.iff.mp hr
      split
      · rename_i hin
        exact h.inside a ha ⟨hin.1, hin.2, fun b hb1 hb2 => hall b hb1 (by omega)⟩
      · rename_i hin
        exact h.outside a ha fun hra => hin ⟨hra.1, hra.2.1⟩
    · intro _ a ha hne
      by_contra hra
      exact hne (h.outside a ha hra)

/-- A directory with one page table, whose first page is the only one that is present. -/
def soloPage : Core :=
  { empty [] 0 with
    dirs := fun d => if d = 0 then
      some ⟨1, fun i => if i = 0 then some 2 else none,
        fun a => if a = 0 then ⟨true, true, true, false, 3⟩ else .zero⟩ else none }

theorem soloPage_ownFrames : OwnFrames soloPage 0 := by
  have hzero : ∀ {a : Nat} {x : Pte}, soloPage.pte 0 a = some x → x.p = true → a = 0 := by
    intro a x hx hp
    obtain ⟨f, -, rfl⟩ := Option.map_eq_some_iff.mp hx
    by_contra ha
    dsimp only at hp
    rw [if_neg ha] at hp
    cases hp
  intro a b x y _ _ _ _ hx hy hxp _ hyp _ _
  rw [hzero hx hxp, hzero hy hyp]

/-- Three bytes over the end of the first page. -/
theorem copyout_exact_one_page : ∃ t r, CopiesOut soloPage 0 4094 [1, 2, 3] t r := by
  refine (copyout_exact_iff soloPage 0 4094 [1, 2, 3] soloPage_ownFrames (by decide)).mpr ?_
  intro a h1 h2 _
  change a < 4094 + 3 at h2
  have hpdx : pdx (pgrounddown a) = 0 := by
    unfold pdx pgrounddown NPTENTRIES PGSIZE
    omega
  change (Option.map _ (if pdx (pgrounddown a) = 0 then some 2 else none)).isSome
  rw [hpdx]
  rfl

/-- A byte at the start of the second four megabytes: the null pointer is read. -/
theorem copyout_reads_null : OwnFrames soloPage 0 ∧
    copyout soloPage 0 4194304 [1] = .error .stray ∧ ¬ ∃ t r, CopiesOut soloPage 0 4194304 [1] t r := by
  have hstray : copyout soloPage 0 4194304 [1] = .error .stray := rfl
  refine ⟨soloPage_ownFrames, hstray, ?_⟩
  rintro ⟨t, r, h⟩
  have hret := h.returns
  rw [hstray] at hret
  cases hret

end Yonix.Vm
