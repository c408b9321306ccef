/-
  Yonix/Vm/Marks.lean
  ===================
  **What each function of `vm.c` may make present.**

  `Marks S s t` says that between `s` and `t` only the entries in `S` may have become
  present, and that no directory lost a table while it was there.  Every function of
  the model has one lemma of this form.  `Fits s d sz` is what they are for: directory
  `d` is one of size `sz`, with nothing present from `sz` on and a table for every
  page below.  `allocuvm` and `deallocuvm` take a directory that fits its size to one
  that fits the size they return.
-/
import Yonix.Vm.Transparent

namespace Yonix.Vm

/-! ### Present entries and tables -/

variable {s t u : Core} {d va pid : Nat} {S S' : Nat → Nat → Prop}

/-- The entry is marked present, whether or not its table is there. -/
def Marked (s : Core) (d va : Nat) : Prop := ∃ D, s.dirs d = some D ∧ (D.pte va).p = true

def Tabled (s : Core) (d va : Nat) : Prop := ∃ D f, s.dirs d = some D ∧ D.tab (pdx va) = some f

theorem pte_eq_some {x : Pte} :
    s.pte d va = some x ↔ Tabled s d va ∧ ∃ D, s.dirs d = some D ∧ D.pte va = x := by
  unfold Core.pte Tabled
  cases hD : s.dirs d with
  | none => simp
  | some D => cases htab : D.tab (pdx va) <;> simp [htab]

theorem marked_of_pte {x : Pte} (h : s.pte d va = some x) : Marked s d va ↔ x.p = true := by
  obtain ⟨-, D, hD, rfl⟩ := pte_eq_some.mp h
  simp [Marked, hD]

/-- Only entries in `S` have become present, and no directory has lost a table while it
    was there. -/
structure Marks (S : Nat → Nat → Prop) (s t : Core) : Prop where
  procs : t.procs = s.procs
  nextDir : s.nextDir ≤ t.nextDir
  marked : ∀ d va, Marked t d va → Marked s d va ∨ S d va
  gone : ∀ d, d < s.nextDir → s.dirs d = none → t.dirs d = none
  tabled : ∀ d va, d < s.nextDir → Tabled s d va → t.dirs d = none ∨ Tabled t d va

/-- No entry. -/
def noPage (_ _ : Nat) : Prop := False

theorem Marks.of_dirs (hp : t.procs = s.procs) (hn : t.nextDir = s.nextDir)
    (hd : t.dirs = s.dirs) : Marks S s t := by
  refine ⟨hp, hn.ge, ?_, ?_, ?_⟩
  · intro d va h
    exact Or.inl (by unfold Marked at *; rwa [hd] at h)
  · intro d _ h
    rw [hd, h]
  · intro d va _ h
    exact Or.inr (by unfold Tabled at *; rwa [hd])

theorem Marks.refl (s : Core) : Marks S s s := Marks.of_dirs rfl rfl rfl

theorem Marks.mono (h : Marks S s t) (hS : ∀ d va, S d va → S' d va) : Marks S' s t :=
  ⟨h.procs, h.nextDir, fun d va hm => (h.marked d va hm).imp_right (hS d va), h.gone, h.tabled⟩

theorem Marks.of_none (h : Marks noPage s t) : Marks S s t := h.mono fun _ _ hf => hf.elim

theorem Marks.trans (h : Marks S s t) (h' : Marks S t u) : Marks S s u := by
  refine ⟨h'.procs.trans h.procs, h.nextDir.trans h'.nextDir, ?_, ?_, ?_⟩
  · intro d va hm
    rcases h'.marked d va hm with hm | hS
    · exact h.marked d va hm
    · exact Or.inr hS
  · intro d hlt hn
    exact h'.gone d (hlt.trans_le h.nextDir) (h.gone d hlt hn)
  · intro d va hlt ht
    have hlt' := hlt.trans_le h.nextDir
    rcases h.tabled d va hlt ht with hn | ht
    · exact Or.inl (h'.gone d hlt' hn)
    · exact h'.tabled d va hlt' ht

theorem Marks.tabled_of_live (h : Marks S s t) (hlt : d < s.nextDir) (hlive : t.dirs d ≠ none)
    (ht : Tabled s d va) : Tabled t d va :=
  (h.tabled d va hlt ht).resolve_left hlive

theorem Marks.setPte (x : Pte) (hx : x.p = true → ¬ Marked s d va → S d va) :
    Marks S s (s.setPte d va x) := by
  have hdirs : ∀ d', d' ≠ d → (s.setPte d va x).dirs d' = s.dirs d' := by
    intro d' hne
    simp [Core.setPte, hne]
  refine ⟨rfl, le_rfl, ?_, ?_, ?_⟩
  · rintro d' va' ⟨D, hD, hp⟩
    by_cases hd : d' = d
    · subst hd
      cases hD' : s.dirs d' with
      | none => simp [Core.setPte, hD'] at hD
      | some D' =>
        simp only [Core.setPte, hD', Function.update_self, Option.map_some, Option.some.injEq] at hD
        subst hD
        by_cases hva : va' = va
        · subst hva
          by_cases hm : Marked s d' va'
          · exact Or.inl hm
          · exact Or.inr (hx (by simpa using hp) hm)
        · exact Or.inl ⟨D', hD', by simpa [hva] using hp⟩
    · rw [hdirs d' hd] at hD
      exact Or.inl ⟨D, hD, hp⟩
  · intro d' _ hn
    exact (dirs_setPte s d va x d').mpr hn
  · rintro d' va' _ ⟨D, f, hD, hf⟩
    right
    by_cases hd : d' = d
    · subst hd
      exact ⟨{ D with pte := Function.update D.pte va x }, f, by simp [Core.setPte, hD], hf⟩
    · exact ⟨D, f, by rw [hdirs d' hd]; exact hD, hf⟩

theorem Marks.setTab (i f : Nat) : Marks S s (s.setTab d i f) := by
  have hdirs : ∀ d', d' ≠ d → (s.setTab d i f).dirs d' = s.dirs d' := by
    intro d' hne
    simp [Core.setTab, hne]
  refine ⟨rfl, le_rfl, ?_, ?_, ?_⟩
  · rintro d' va' ⟨D, hD, hp⟩
    left
    by_cases hd : d' = d
    · subst hd
      cases hD' : s.dirs d' with
      | none => simp [Core.setTab, hD'] at hD
      | some D' =>
        simp only [Core.setTab, hD', Function.update_self, Option.map_some, Option.some.injEq] at hD
        subst hD
        exact ⟨D', hD', hp⟩
    · rw [hdirs d' hd] at hD
      exact ⟨D, hD, hp⟩
  · intro d' _ hn
    exact (dirs_setTab s d i f d').mpr hn
  · rintro d' va' _ ⟨D, g, hD, hg⟩
    right
    by_cases hd : d' = d
    · subst hd
      by_cases hi : pdx va' = i
      · exact ⟨{ D with tab := Function.update D.tab i (some f) }, f, by simp [Core.setTab, hD],
          by simp [hi]⟩
      · exact ⟨{ D with tab := Function.update D.tab i (some f) }, g, by simp [Core.setTab, hD],
          by simpa [hi] using hg⟩
    · exact ⟨D, g, by rw [hdirs d' hd]; exact hD, hg⟩

theorem Marks.newDir (f : Nat) : Marks S s (s.newDir f) := by
  have hdirs : ∀ d', d' ≠ s.nextDir → (s.newDir f).dirs d' = s.dirs d' := by
    intro d' hne
    simp [Core.newDir, hne]
  refine ⟨rfl, Nat.le_succ _, ?_, ?_, ?_⟩
  · rintro d' va' ⟨D, hD, hp⟩
    by_cases hd : d' = s.nextDir
    · subst hd
      simp only [Core.newDir, Function.update_self, Option.some.injEq] at hD
      subst hD
      cases hp
    · rw [hdirs d' hd] at hD
      exact Or.inl ⟨D, hD, hp⟩
  · intro d' hlt hn
    rwa [hdirs d' hlt.ne]
  · rintro d' va' hlt ⟨D, g, hD, hg⟩
    exact Or.inr ⟨D, g, by rwa [hdirs d' hlt.ne], hg⟩

theorem Marks.dropDir : Marks S s (s.dropDir d) := by
  have hdirs : ∀ d', d' ≠ d → (s.dropDir d).dirs d' = s.dirs d' := by
    intro d' hne
    simp [Core.dropDir, hne]
  have hd : (s.dropDir d).dirs d = none := by simp [Core.dropDir]
  refine ⟨rfl, le_rfl, ?_, ?_, ?_⟩
  · rintro d' va' ⟨D, hD, hp⟩
    by_cases hne : d' = d
    · subst hne
      rw [hd] at hD
      cases hD
    · rw [hdirs d' hne] at hD
      exact Or.inl ⟨D, hD, hp⟩
  · intro d' _ hn
    by_cases hne : d' = d
    · rw [hne, hd]
    · rwa [hdirs d' hne]
  · rintro d' va' _ ⟨D, g, hD, hg⟩
    by_cases hne : d' = d
    · exact Or.inl (by rw [hne, hd])
    · exact Or.inr ⟨D, g, by rwa [hdirs d' hne], hg⟩

/-! ### Allocation -/

theorem pageOut_marks (ht : pageOut s = .ok t) : Marks S s t := by
  obtain ⟨q, e, x, i, -, -, -, -, rfl⟩ := pageOut_eq ht
  have h : Marks S s (s.setPte e.dir e.va { x with p := false }) :=
    Marks.setPte _ (fun hf => by cases hf)
  exact h.trans (Marks.of_dirs rfl rfl rfl)

theorem kfree_marks (f : Nat) : Marks S s (kfree s f) := by
  unfold kfree
  exact Marks.of_dirs rfl rfl rfl

theorem takeFrame_eq (s : Core) :
    ∃ l n, (takeFrame s).1 = { s with freelist := l, nfreeblock := n } := by
  unfold takeFrame
  cases s.freelist with
  | nil => exact ⟨_, _, rfl⟩
  | cons f l => exact ⟨_, _, rfl⟩

theorem takeFrame_marks (s : Core) : Marks S s (takeFrame s).1 := by
  obtain ⟨l, n, h⟩ := takeFrame_eq s
  rw [h]
  exact Marks.of_dirs rfl rfl rfl

theorem kalloc_marks {o : Option Nat} (ht : kalloc s = .ok (t, o)) : Marks S s t := by
  have htake : ∀ {u}, takeFrame u = (t, o) → Marks S u t := by
    intro u hu
    have := takeFrame_marks (S := S) u
    rwa [hu] at this
  unfold kalloc at ht
  split at ht
  · cases hu : pageOut s with
    | error e => simp [hu, Except.map] at ht
    | ok u =>
      rw [hu] at ht
      exact (pageOut_marks hu).trans (htake (Except.ok.inj ht))
  · exact htake (Except.ok.inj ht)

theorem allocSlab_marks (ht : allocSlab s = .ok t) : Marks S s t := by
  unfold allocSlab at ht
  split at ht
  · obtain ⟨⟨u, o⟩, hu, ht⟩ := bind_eq_ok.mp ht
    cases o with
    | none => cases ht
    | some f =>
      cases ht
      exact (kalloc_marks hu).trans (Marks.of_dirs rfl rfl rfl)
  · cases ht
    exact Marks.of_dirs rfl rfl rfl

theorem addPage_marks (ht : addPage s d va pid = .ok t) : Marks S s t := by
  obtain ⟨u, hu, ht⟩ := bind_eq_ok.mp ht
  split at ht
  · cases ht
  · cases ht
    exact (allocSlab_marks hu).trans (Marks.of_dirs rfl rfl rfl)

theorem addPageIf_marks {test : Bool} (ht : addPageIf test s d va pid = .ok t) : Marks S s t := by
  unfold addPageIf at ht
  split at ht
  · exact addPage_marks ht
  · cases ht
    exact Marks.refl s

/-! ### Tables and mappings -/

theorem tabled_setTab {f : Nat} (hd : s.dirs d ≠ none) : Tabled (s.setTab d (pdx va) f) d va := by
  obtain ⟨D, hD⟩ := Option.ne_none_iff_exists'.mp hd
  exact ⟨{ D with tab := Function.update D.tab (pdx va) (some f) }, f, by simp [Core.setTab, hD],
    by simp⟩

theorem dirs_kalloc {o : Option Nat} (ht : kalloc s = .ok (t, o)) :
    t.dirs d = none ↔ s.dirs d = none := by
  have htake : ∀ {u}, takeFrame u = (t, o) → t.dirs = u.dirs := by
    intro u hu
    have := takeFrame_dirs u
    rwa [hu] at this
  unfold kalloc at ht
  split at ht
  · cases hu : pageOut s with
    | error e => simp [hu, Except.map] at ht
    | ok u =>
      rw [hu] at ht
      rw [htake (Except.ok.inj ht)]
      obtain ⟨q, e, x, i, -, -, -, -, rfl⟩ := pageOut_eq hu
      exact dirs_setPte s e.dir e.va _ d
  · rw [htake (Except.ok.inj ht)]

theorem walkpgdir_marks {alloc r : Bool} (ht : walkpgdir s d va alloc = .ok (t, r)) :
    Marks S s t ∧ (r = true → Tabled t d va) ∧ s.dirs d ≠ none := by
  unfold walkpgdir at ht
  split at ht
  · cases ht
  · rename_i D hD
    have hlive : s.dirs d ≠ none := by simp [hD]
    split at ht
    · rename_i htab
      cases ht
      obtain ⟨f, hf⟩ := Option.isSome_iff_exists.mp htab
      exact ⟨Marks.refl s, fun _ => ⟨D, f, hD, hf⟩, hlive⟩
    · split at ht
      · cases ht
        exact ⟨Marks.refl s, by simp, hlive⟩
      · obtain ⟨⟨u, o⟩, hu, ht⟩ := bind_eq_ok.mp ht
        have hm : Marks S s u := kalloc_marks hu
        cases o with
        | none =>
          cases ht
          exact ⟨hm, by simp, hlive⟩
        | some f =>
          cases ht
          have hset : Marks S u (u.setMem f Bytes.zero) := Marks.of_dirs rfl rfl rfl
          refine ⟨(hm.trans hset).trans (Marks.setTab _ _), fun _ => tabled_setTab ?_, hlive⟩
          exact fun hn => hlive ((dirs_kalloc hu).mp hn)

/-- The entry that `mappages` fills. -/
def onePage (d va : Nat) (d' va' : Nat) : Prop := d' = d ∧ va' = va

theorem mapPage_marks {f : Nat} {w u a r : Bool} (ht : mapPage s d va f w u a = .ok (t, r)) :
    if r then Marks (onePage d va) s t ∧ Tabled t d va else Marks noPage s t := by
  obtain ⟨⟨v, r'⟩, hv, ht⟩ := bind_eq_ok.mp ht
  cases r' with
  | false =>
    cases ht
    exact (walkpgdir_marks hv).1
  | true =>
    obtain ⟨hm, htab, -⟩ := walkpgdir_marks (S := onePage d va) hv
    dsimp only at ht
    split at ht
    · cases ht
    · split at ht
      · cases ht
      · cases ht
        have hset : Marks (onePage d va) v (v.setPte d va ⟨true, w, u, a, f⟩) :=
          Marks.setPte _ fun _ _ => ⟨rfl, rfl⟩
        refine ⟨hm.trans hset, ?_⟩
        obtain ⟨D, g, hD, hg⟩ := htab rfl
        exact ⟨{ D with pte := Function.update D.pte va ⟨true, w, u, a, f⟩ }, g,
          by simp [Core.setPte, hD], hg⟩

theorem kernelTables_marks (l : List Nat) :
    ∀ {s t : Core} {r : Bool}, kernelTables d l s = .ok (t, r) → Marks S s t := by
  induction l with
  | nil =>
    intro s t r ht
    cases ht
    exact Marks.refl _
  | cons i l ih =>
    intro s t r ht
    obtain ⟨⟨u, r'⟩, hu, ht⟩ := bind_eq_ok.mp ht
    have hm : Marks S s u := (walkpgdir_marks hu).1
    cases r' with
    | false =>
      cases ht
      exact hm
    | true => exact hm.trans (ih ht)

/-- The directory that `setupkvm` makes is new and has no present entry. -/
theorem setupkvm_marks {o : Option Nat} (ht : setupkvm s = .ok (t, o)) :
    Marks S s t ∧ ∀ d, o = some d → s.nextDir ≤ d ∧ d < t.nextDir ∧ ∀ va, ¬ Marked t d va := by
  obtain ⟨⟨u, o'⟩, hu, ht⟩ := bind_eq_ok.mp ht
  have hm : Marks S s u := kalloc_marks hu
  cases o' with
  | none =>
    cases ht
    exact ⟨hm, by simp⟩
  | some f =>
    obtain ⟨⟨v, r⟩, hv, ht⟩ := bind_eq_ok.mp ht
    have hnew : ∀ {S : Nat → Nat → Prop}, Marks S (u.setMem f Bytes.zero)
      ((u.setMem f Bytes.zero).newDir f) := Marks.newDir f
    have htabs : ∀ {S : Nat → Nat → Prop}, Marks S ((u.setMem f Bytes.zero).newDir f) v :=
      kernelTables_marks _ hv
    have hset : Marks S u (u.setMem f Bytes.zero) := Marks.of_dirs rfl rfl rfl
    have hall : Marks S s v := ((hm.trans hset).trans hnew).trans htabs
    cases r with
    | false =>
      cases ht
      exact ⟨hall, by simp⟩
    | true =>
      cases ht
      refine ⟨hall, ?_⟩
      rintro d hd
      cases hd
      refine ⟨hm.nextDir, ?_, ?_⟩
      · exact Nat.lt_of_lt_of_le (Nat.lt_succ_self _) (htabs (S := S)).nextDir
      · intro va hmk
        rcases (htabs (S := noPage)).marked _ va hmk with ⟨D, hD, hp⟩ | hf
        · have hD' : D = ⟨f, fun _ => none, fun _ => Pte.zero⟩ := by
            simpa [Core.newDir, Core.setMem] using hD.symm
          rw [hD'] at hp
          cases hp
        · exact hf

/-! ### Freeing -/

theorem unmap_marks (x : Pte) : Marks S s (unmap s d va x pid) := by
  obtain ⟨m, hm⟩ := freePage_eq s (va ||| pid) true
  have h : Marks S s (kfree (freePage s (va ||| pid) true) x.frame) := by
    rw [hm]
    exact Marks.of_dirs rfl rfl rfl
  exact h.trans (Marks.setPte _ (fun hf => by cases hf))

theorem deallocLoop_marks (startva k : Nat) :
    ∀ (i : Nat) (s : Core), Marks S s (deallocLoop d startva pid k i s) := by
  induction k with
  | zero => exact fun _ s => Marks.refl s
  | succ k ih =>
    intro i s
    unfold deallocLoop
    split
    · exact Marks.refl s
    · split
      · exact ih _ s
      · split
        · exact (unmap_marks _).trans (ih _ _)
        · exact ih _ s

theorem not_marked_unmap (x : Pte) : ¬ Marked (unmap s d va x pid) d va := by
  rintro ⟨D, hD, hp⟩
  simp only [unmap, Core.setPte, Function.update_self] at hD
  obtain ⟨D', -, rfl⟩ := Option.map_eq_some_iff.mp hD
  simp [Pte.zero] at hp

/-- Where there are tables, `deallocuvm` skips nothing. -/
theorem deallocLoop_clears (startva k : Nat) :
    ∀ (i : Nat) (s : Core), d < s.nextDir → PGSIZE ∣ i → startva ≤ i + k * PGSIZE →
      (∀ va, PGSIZE ∣ va → i ≤ va → va < startva → Tabled s d va) →
      ∀ va, PGSIZE ∣ va → i ≤ va → va < startva → ¬ Marked (deallocLoop d startva pid k i s) d va := by
  induction k with
  | zero =>
    intro i s _ _ hf _ va _ h1 h2
    omega
  | succ k ih =>
    intro i s hlt hi hf htab va hva h1 h2
    unfold deallocLoop
    rw [if_neg (by omega)]
    obtain ⟨D, f, hD, hfr⟩ := htab i hi le_rfl (by omega)
    have hpte : s.pte d i = some (D.pte i) := pte_eq_some.mpr ⟨⟨D, f, hD, hfr⟩, D, hD, rfl⟩
    rw [hpte]
    have hnext : PGSIZE ∣ i + PGSIZE := Dvd.dvd.add hi (dvd_refl _)
    have hfuel : startva ≤ i + PGSIZE + k * PGSIZE := by
      rw [Nat.succ_mul] at hf
      omega
    have hle : va ≠ i → i + PGSIZE ≤ va := by
      intro hne
      unfold PGSIZE at *
      omega
    dsimp only
    split
    · have hm : Marks noPage s (unmap s d i (D.pte i) pid) := unmap_marks _
      have hlive : (unmap s d i (D.pte i) pid).dirs d ≠ none := by
        intro hn
        have := ((unmap_unmaps s d i (D.pte i) pid).dirs d).mp hn
        rw [hD] at this
        cases this
      by_cases hne : va = i
      · subst hne
        intro hmk
        rcases (deallocLoop_marks (S := noPage) startva k (va + PGSIZE) _).marked d va hmk with h | h
        · exact not_marked_unmap _ h
        · exact h
      · refine ih _ _ (hlt.trans_le hm.nextDir) hnext hfuel ?_ va hva (hle hne) h2
        intro va' hva' h1' h2'
        exact hm.tabled_of_live hlt hlive (htab va' hva' (by omega) h2')
    · rename_i hp
      by_cases hne : va = i
      · subst hne
        intro hmk
        rcases (deallocLoop_marks (S := noPage) startva k (va + PGSIZE) s).marked d va hmk with h | h
        · exact hp ((marked_of_pte hpte).mp h)
        · exact h
      · exact ih _ _ hlt hnext hfuel (fun va' hva' h1' h2' => htab va' hva' (by omega) h2')
          va hva (hle hne) h2

theorem deallocuvm_marks {startva endva sz : Nat}
    (ht : deallocuvm s d startva endva pid = .ok (t, sz)) : Marks S s t := by
  unfold deallocuvm at ht
  split at ht
  · cases ht
    exact Marks.refl s
  · split at ht
    · cases ht
    · cases ht
      exact deallocLoop_marks _ _ _ _

theorem freeTables_marks (D : Dir) (s : Core) : Marks S s (freeTables D s) := by
  unfold freeTables
  refine List.foldlRecOn (motive := fun t => Marks S s t) _ _ (Marks.refl s) ?_
  intro t ht i _
  split
  · exact ht
  · exact ht.trans (kfree_marks _)

theorem freeuvm_marks (ht : freeuvm s d pid = .ok t) : Marks S s t := by
  obtain ⟨⟨u, sz⟩, hu, ht⟩ := bind_eq_ok.mp ht
  dsimp only at ht
  split at ht
  · cases ht
  · rename_i D hD
    cases ht
    have h : Marks S u (kfree (freeTables D u) D.frame) :=
      (freeTables_marks D u).trans (kfree_marks _)
    exact ((deallocuvm_marks hu).trans h).trans Marks.dropDir

/-! ### The size of a directory -/

/-- Directory `d` is one of size `sz`: nothing is present from `sz` on, and there is a
    table for every page below. -/
structure Fits (s : Core) (d sz : Nat) : Prop where
  known : d < s.nextDir
  within : ∀ va, PGSIZE ∣ va → Marked s d va → va < sz
  full : s.dirs d ≠ none → ∀ va, PGSIZE ∣ va → va < sz → Tabled s d va

/-- Below `sz` everything is free to change. -/
theorem Fits.marks {sz : Nat} (h : Fits s d sz) (hm : Marks S s t)
    (hS : ∀ va, PGSIZE ∣ va → S d va → va < sz) : Fits t d sz := by
  refine ⟨h.known.trans_le hm.nextDir, ?_, ?_⟩
  · intro va hva hmk
    rcases hm.marked d va hmk with hmk | hin
    · exact h.within va hva hmk
    · exact hS va hva hin
  · intro hlive va hva hlt
    have hs : s.dirs d ≠ none := fun hn => hlive (hm.gone d h.known hn)
    exact hm.tabled_of_live h.known hlive (h.full hs va hva hlt)

theorem Fits.keep {sz : Nat} (h : Fits s d sz) (hm : Marks noPage s t) : Fits t d sz :=
  h.marks hm fun _ _ hf => hf.elim

/-- The pages of a list, in one directory. -/
def pagesIn (d : Nat) (l : List Nat) (d' va' : Nat) : Prop := d' = d ∧ va' ∈ l

theorem allocPage_marks {base i : Nat} {r : Bool} (ht : allocPage s d base pid i = .ok (t, r)) :
    if r then Marks (onePage d i) s t ∧ (d < s.nextDir → t.dirs d ≠ none → Tabled t d i)
    else Marks noPage s t := by
  obtain ⟨⟨u, o⟩, hu, ht⟩ := bind_eq_ok.mp ht
  cases o with
  | none =>
    cases ht
    exact kalloc_marks hu
  | some f =>
    obtain ⟨⟨v, r'⟩, hv, ht⟩ := bind_eq_ok.mp ht
    have hmap := mapPage_marks hv
    have hset : ∀ {S : Nat → Nat → Prop}, Marks S s (u.setMem f Bytes.zero) :=
      (kalloc_marks hu).trans (Marks.of_dirs rfl rfl rfl)
    cases r' with
    | false =>
      cases ht
      exact (hset.trans hmap).trans (kfree_marks _)
    | true =>
      obtain ⟨hmap, htab⟩ := hmap
      obtain ⟨w, hw, ht⟩ := bind_eq_ok.mp ht
      cases ht
      have hadd : Marks (onePage d i) v t := addPageIf_marks hw
      have hall : Marks (onePage d i) s v := hset.trans hmap
      exact ⟨hall.trans hadd, fun hlt hlive =>
        hadd.tabled_of_live (hlt.trans_le hall.nextDir) hlive htab⟩

theorem Marks.cons {i : Nat} {l : List Nat} (h : Marks (onePage d i) s t)
    (h' : Marks (pagesIn d l) t u) : Marks (pagesIn d (i :: l)) s u := by
  refine (h.mono ?_).trans (h'.mono ?_)
  · rintro d' va' ⟨rfl, rfl⟩
    exact ⟨rfl, List.mem_cons_self⟩
  · rintro d' va' ⟨rfl, hmem⟩
    exact ⟨rfl, List.mem_cons_of_mem _ hmem⟩

/-- The loop of `allocuvm` fills the pages of its list; when memory runs out, those
    before the page it reports. -/
theorem allocLoop_marks {base : Nat} (l : List Nat) :
    ∀ {s t : Core} {o : Option Nat}, allocLoop d base pid l s = .ok (t, o) → d < s.nextDir →
      ∃ l₁ l₂, l = l₁ ++ l₂ ∧ o = l₂.head? ∧ Marks (pagesIn d l₁) s t ∧
        (t.dirs d ≠ none → ∀ va ∈ l₁, Tabled t d va) := by
  induction l with
  | nil =>
    intro s t o ht _
    cases ht
    exact ⟨[], [], rfl, rfl, Marks.refl _, by simp⟩
  | cons i l ih =>
    intro s t o ht hlt
    obtain ⟨⟨u, r⟩, hu, ht⟩ := bind_eq_ok.mp ht
    have hpage := allocPage_marks hu
    cases r with
    | false =>
      cases ht
      exact ⟨[], i :: l, rfl, rfl, Marks.of_none hpage, by simp⟩
    | true =>
      obtain ⟨hm, htab⟩ := hpage
      have hlt' := hlt.trans_le hm.nextDir
      obtain ⟨l₁, l₂, rfl, ho, hm', htab'⟩ := ih ht hlt'
      refine ⟨i :: l₁, l₂, rfl, ho, hm.cons hm', ?_⟩
      intro hlive va hva
      rcases List.mem_cons.mp hva with rfl | hva
      · have hu' : u.dirs d ≠ none := fun hn => hlive (hm'.gone d hlt' hn)
        exact hm'.tabled_of_live hlt' hlive (htab hlt hu')
      · exact htab' hlive va hva

theorem pages_eq_append {a b i : Nat} {l₁ l₂ : List Nat} (h : pages a b = l₁ ++ i :: l₂) :
    ∀ va, va ∈ l₁ ↔ PGSIZE ∣ va ∧ pgroundup a ≤ va ∧ va < i := by
  have hsort : (pages a b).Pairwise (· < ·) := by
    refine List.Pairwise.map _ ?_ List.pairwise_lt_range
    intro x y hxy
    unfold PGSIZE
    omega
  rw [h, List.pairwise_append] at hsort
  obtain ⟨-, h2, h3⟩ := hsort
  have hi : i < b := (mem_pages_iff.mp (h ▸ by simp : i ∈ pages a b)).2.2
  intro va
  constructor
  · intro hva
    obtain ⟨h4, h5, -⟩ := mem_pages_iff.mp (h ▸ List.mem_append_left _ hva : va ∈ pages a b)
    exact ⟨h4, h5, h3 va hva i List.mem_cons_self⟩
  · rintro ⟨h4, h5, h6⟩
    have hmem : va ∈ l₁ ++ i :: l₂ := h ▸ mem_pages_iff.mpr ⟨h4, h5, h6.trans hi⟩
    rcases List.mem_append.mp hmem with hmem | hmem
    · exact hmem
    · rcases List.mem_cons.mp hmem with rfl | hmem
      · omega
      · have := (List.pairwise_cons.mp h2).1 va hmem
        omega

/-- Shrinking a directory. -/
theorem Fits.deallocuvm {startva endva sz : Nat} (h : Fits s d startva)
    (ht : deallocuvm s d startva endva pid = .ok (t, sz)) : Fits t d sz := by
  have hm : Marks noPage s t := deallocuvm_marks ht
  unfold Vm.deallocuvm at ht
  split at ht
  · cases ht
    exact h
  · rename_i hlt
    split at ht
    · cases ht
    · rename_i D hD
      cases ht
      have hlive : s.dirs d ≠ none := by simp [hD]
      have hkeep := h.keep hm
      refine ⟨hkeep.known, ?_, ?_⟩
      · intro va hva hmk
        by_contra hge
        refine deallocLoop_clears startva (startva / PGSIZE + 1) (pgroundup endva) s h.known
          (pgroundup_dvd endva) ?_ (fun va hva _ hlt => h.full hlive va hva hlt) va hva ?_
          (hkeep.within va hva hmk) hmk
        · unfold PGSIZE
          omega
        · exact not_lt.mp fun hc => hge ((lt_pgroundup_iff hva).mp hc)
      · intro hl va hva hlt'
        exact hkeep.full hl va hva (by omega)

/-- The pages from `a` up to `b` have been filled. -/
theorem Fits.extend {a b : Nat} {l : List Nat} (h : Fits s d a) (hab : a ≤ b)
    (hl : ∀ va, va ∈ l ↔ PGSIZE ∣ va ∧ pgroundup a ≤ va ∧ va < b) (hm : Marks (pagesIn d l) s t)
    (htab : t.dirs d ≠ none → ∀ va ∈ l, Tabled t d va) : Fits t d b := by
  refine ⟨h.known.trans_le hm.nextDir, ?_, ?_⟩
  · intro va hva hmk
    rcases hm.marked d va hmk with hmk | ⟨-, hin⟩
    · exact (h.within va hva hmk).trans_le hab
    · exact ((hl va).mp hin).2.2
  · intro hlive va hva hlt
    by_cases hold : va < a
    · have hs : s.dirs d ≠ none := fun hn => hlive (hm.gone d h.known hn)
      exact hm.tabled_of_live h.known hlive (h.full hs va hva hold)
    · refine htab hlive va ((hl va).mpr ?_)
      exact ⟨hva, not_lt.mp fun hc => hold ((lt_pgroundup_iff hva).mp hc), hlt⟩

/-- Growing a directory: afterwards it fits the size `allocuvm` returns, or its old size
    when that is 0. -/
theorem Fits.allocuvm {startva endva sz : Nat} (h : Fits s d startva)
    (ht : allocuvm s d startva endva pid = .ok (t, sz)) :
    Fits t d (if sz = 0 then startva else sz) ∧
      Marks (fun d' va' => d' = d ∧ startva ≤ va') s t := by
  unfold Vm.allocuvm at ht
  split at ht
  · cases ht
    exact ⟨h, Marks.refl s⟩
  · split at ht
    · cases ht
      exact ⟨by simpa using h, Marks.refl s⟩
    · rename_i hge
      obtain ⟨⟨u, o⟩, hu, ht⟩ := bind_eq_ok.mp ht
      obtain ⟨l₁, l₂, hl, ho, hm, htab⟩ := allocLoop_marks _ hu h.known
      have hS : ∀ d' va', pagesIn d l₁ d' va' → d' = d ∧ startva ≤ va' := by
        rintro d' va' ⟨rfl, hva⟩
        have := mem_pages_iff.mp (hl ▸ List.mem_append_left _ hva : va' ∈ pages startva endva)
        exact ⟨rfl, (le_pgroundup startva).trans this.2.1⟩
      cases l₂ with
      | nil =>
        cases ho
        cases ht
        rw [List.append_nil] at hl
        have hgrow : Fits t d endva := by
          refine h.extend (not_lt.mp hge) (fun va => ?_) hm htab
          rw [← hl, mem_pages_iff]
        refine ⟨?_, hm.mono hS⟩
        split
        · rename_i h0
          have : startva = endva := by omega
          rwa [this]
        · exact hgrow
      | cons i l₂ =>
        cases ho
        obtain ⟨⟨v, sz'⟩, hv, ht⟩ := bind_eq_ok.mp ht
        cases ht
        have hi : startva ≤ i :=
          (le_pgroundup _).trans (mem_pages_iff.mp (hl ▸ by simp : i ∈ pages startva endva)).2.1
        have hu' : Fits u d i := h.extend hi (pages_eq_append hl) hm htab
        have hsz : sz' = startva := by
          unfold Vm.deallocuvm at hv
          split at hv
          · cases hv
            omega
          · split at hv
            · cases hv
            · cases hv
              rfl
        refine ⟨?_, (hm.mono hS).trans (deallocuvm_marks hv)⟩
        rw [if_pos rfl, ← hsz]
        exact hu'.deallocuvm hv

/-! ### Faults and copies -/

theorem pageIn_marks (ht : pageIn s pid d va = .ok t) : Marks (onePage d va) s t := by
  obtain ⟨⟨u, o⟩, hu, ht⟩ := bind_eq_ok.mp ht
  have hm : Marks (onePage d va) s u := kalloc_marks hu
  cases o with
  | none => cases ht
  | some f =>
    obtain ⟨slotn, -, ht⟩ := bind_eq_ok.mp ht
    obtain ⟨v, hv, ht⟩ := bind_eq_ok.mp ht
    have hv' : Marks (onePage d va) u v := by
      unfold freeSlot at hv
      dsimp only at hv
      split at hv
      · cases hv
      · cases hv
        exact Marks.of_dirs rfl rfl rfl
    split at ht
    · cases ht
    · have hset : ∀ x, Marks (onePage d va) v (v.setPte d va x) :=
        fun x => Marks.setPte x fun _ _ => ⟨rfl, rfl⟩
      exact ((hm.trans hv').trans (hset _)).trans (addPage_marks ht)

theorem copyLoop_marks {sd ppid td : Nat} (l : List Nat) :
    ∀ {s t : Core} {r : Bool}, copyLoop sd ppid td pid l s = .ok (t, r) → td < s.nextDir →
      Marks (fun d' va' => (d' = sd ∨ d' = td) ∧ va' ∈ l) s t ∧
        (r = true → t.dirs td ≠ none → ∀ va ∈ l, Tabled t td va) := by
  induction l with
  | nil =>
    intro s t r ht _
    cases ht
    exact ⟨Marks.refl _, by simp⟩
  | cons i l ih =>
    intro s t r ht hlt
    have hsd : ∀ d' va', onePage sd i d' va' → (d' = sd ∨ d' = td) ∧ va' ∈ i :: l := by
      rintro d' va' ⟨rfl, rfl⟩
      exact ⟨Or.inl rfl, List.mem_cons_self⟩
    have htd : ∀ d' va', onePage td i d' va' → (d' = sd ∨ d' = td) ∧ va' ∈ i :: l := by
      rintro d' va' ⟨rfl, rfl⟩
      exact ⟨Or.inr rfl, List.mem_cons_self⟩
    unfold copyLoop at ht
    split at ht
    · cases ht
    · rename_i x hx
      obtain ⟨u, hu, ht⟩ := bind_eq_ok.mp ht
      have hin : Marks (onePage sd i) s u := by
        unfold pageInIf at hu
        split at hu
        · exact pageIn_marks hu
        · cases hu
          exact Marks.refl _
      split at ht
      · cases ht
      · rename_i y hy
        obtain ⟨⟨v, o⟩, hv, ht⟩ := bind_eq_ok.mp ht
        have hsv := (hin.mono hsd).trans (kalloc_marks hv)
        cases o with
        | none =>
          cases ht
          exact ⟨hsv, by simp⟩
        | some m =>
          obtain ⟨⟨w, r'⟩, hw, ht⟩ := bind_eq_ok.mp ht
          have hmap := mapPage_marks hw
          have hset := hsv.trans (Marks.of_dirs rfl rfl rfl :
            Marks _ v (v.setMem m (v.mem y.frame)))
          cases r' with
          | false =>
            cases ht
            exact ⟨hset.trans hmap.of_none, by simp⟩
          | true =>
            obtain ⟨hmap, htab⟩ := hmap
            obtain ⟨z, hz, ht⟩ := bind_eq_ok.mp ht
            have hsw := hset.trans (hmap.mono htd)
            have hwz : Marks noPage w z := addPageIf_marks hz
            have hsz := hsw.trans hwz.of_none
            have hlt' := hlt.trans_le hsz.nextDir
            obtain ⟨hzt, htab'⟩ := ih ht hlt'
            refine ⟨hsz.trans (hzt.mono fun d' va' h => ⟨h.1, List.mem_cons_of_mem _ h.2⟩), ?_⟩
            intro hr hlive va hva
            rcases List.mem_cons.mp hva with rfl | hva
            · have hzl : z.dirs td ≠ none := fun hn => hlive (hzt.gone td hlt' hn)
              have hwl : td < w.nextDir := hlt.trans_le hsw.nextDir
              exact hzt.tabled_of_live hlt' hlive (hwz.tabled_of_live hwl hzl htab)
            · exact htab' hr hlive va hva

/-- The copy is a new directory of the size that was copied. -/
theorem copyuvm_marks {sd sz ppid : Nat} {o : Option Nat}
    (ht : copyuvm s sd sz ppid pid = .ok (t, o)) :
    Marks (fun d' va' => d' = sd ∧ va' < sz ∨ s.nextDir ≤ d') s t ∧
      ∀ d, o = some d → s.nextDir ≤ d ∧ Fits t d sz := by
  obtain ⟨⟨u, o'⟩, hu, ht⟩ := bind_eq_ok.mp ht
  obtain ⟨hm, hnew⟩ := setupkvm_marks hu
  cases o' with
  | none =>
    cases ht
    exact ⟨hm, by simp⟩
  | some td =>
    obtain ⟨hge, hlt, hfree⟩ := hnew td rfl
    obtain ⟨⟨v, r⟩, hv, ht⟩ := bind_eq_ok.mp ht
    obtain ⟨hcopy, htab⟩ := copyLoop_marks _ hv hlt
    have hsv : Marks (fun d' va' => d' = sd ∧ va' < sz ∨ s.nextDir ≤ d') s v := by
      refine hm.trans (hcopy.mono ?_)
      rintro d' va' ⟨rfl | rfl, hva⟩
      · exact Or.inl ⟨rfl, (mem_pages hva).2⟩
      · exact Or.inr hge
    cases r with
    | true =>
      cases ht
      refine ⟨hsv, ?_⟩
      rintro d hd
      cases hd
      refine ⟨hge, hlt.trans_le hcopy.nextDir, ?_, ?_⟩
      · intro va _ hmk
        rcases hcopy.marked _ va hmk with hmk | ⟨-, hin⟩
        · exact (hfree va hmk).elim
        · exact (mem_pages hin).2
      · intro hlive va hva hva'
        refine htab rfl hlive va (mem_pages_iff.mpr ⟨hva, ?_, hva'⟩)
        exact Nat.zero_le _
    | false =>
      obtain ⟨w, hw, ht⟩ := bind_eq_ok.mp ht
      cases ht
      exact ⟨hsv.trans (freeuvm_marks hw), by simp⟩

/-! ### Images -/

theorem Writes.marks (h : Writes s t) : Marks S s t := by
  refine Marks.of_dirs ?_ ?_ ?_ <;> rw [h]

theorem loadPh_marks {img : Image} {ph : Ph} {sz : Nat} {o : Option Nat}
    (ht : loadPh d pid img ph sz s = .ok (t, o)) (h : Fits s d sz) :
    Marks (fun d' _ => d' = d) s t ∧ ∀ sz', o = some sz' → Fits t d sz' := by
  unfold loadPh at ht
  split at ht
  · cases ht
    refine ⟨Marks.refl s, ?_⟩
    rintro sz' ⟨⟩
    exact h
  · split at ht
    · cases ht
      exact ⟨Marks.refl s, by simp⟩
    · split at ht
      · cases ht
        exact ⟨Marks.refl s, by simp⟩
      · obtain ⟨⟨u, sz'⟩, hu, ht⟩ := bind_eq_ok.mp ht
        obtain ⟨hfit, hm⟩ := h.allocuvm hu
        have hm' : Marks (fun d' _ => d' = d) s u := hm.mono fun _ _ hd => hd.1
        dsimp only at ht
        split at ht
        · cases ht
          exact ⟨hm', by simp⟩
        · rename_i hne
          rw [if_neg hne] at hfit
          split at ht
          · cases ht
            exact ⟨hm', by simp⟩
          · obtain ⟨⟨v, r⟩, hv, ht⟩ := bind_eq_ok.mp ht
            have hw : Writes u v := (loadLoop_spec _ hv).1
            cases r with
            | false =>
              cases ht
              exact ⟨hm'.trans hw.marks, by simp⟩
            | true =>
              cases ht
              refine ⟨hm'.trans hw.marks, ?_⟩
              rintro _ ⟨⟩
              exact hfit.keep hw.marks

theorem loadPhs_marks {img : Image} (l : List (Option Ph)) :
    ∀ {s t : Core} {sz : Nat} {o : Option Nat}, loadPhs d pid img l sz s = .ok (t, o) →
      Fits s d sz → Marks (fun d' _ => d' = d) s t ∧ ∀ sz', o = some sz' → Fits t d sz' := by
  induction l with
  | nil =>
    intro s t sz o ht h
    cases ht
    refine ⟨Marks.refl _, ?_⟩
    rintro sz' ⟨⟩
    exact h
  | cons a l ih =>
    intro s t sz o ht h
    cases a with
    | none =>
      cases ht
      exact ⟨Marks.refl _, by simp⟩
    | some ph =>
      obtain ⟨⟨u, o'⟩, hu, ht⟩ := bind_eq_ok.mp ht
      obtain ⟨hm, hfit⟩ := loadPh_marks hu h
      cases o' with
      | none =>
        cases ht
        exact ⟨hm, by simp⟩
      | some sz' =>
        obtain ⟨hm', hfit'⟩ := ih ht (hfit sz' rfl)
        exact ⟨hm.trans hm', hfit'⟩

theorem Fits.pgroundup {sz : Nat} (h : Fits s d sz) : Fits s d (pgroundup sz) := by
  refine ⟨h.known, ?_, ?_⟩
  · intro va hva hmk
    exact (lt_pgroundup_iff hva).mpr (h.within va hva hmk)
  · intro hlive va hva hlt
    exact h.full hlive va hva ((lt_pgroundup_iff hva).mp hlt)

theorem buildImage_marks {img : Image} {o : Option Nat}
    (ht : buildImage d pid img s = .ok (t, o)) (h : Fits s d 0) :
    Marks (fun d' _ => d' = d) s t ∧ ∀ sz, o = some sz → Fits t d sz := by
  obtain ⟨⟨u, o'⟩, hu, ht⟩ := bind_eq_ok.mp ht
  obtain ⟨hm, hfit⟩ := loadPhs_marks _ hu h
  cases o' with
  | none =>
    cases ht
    exact ⟨hm, by simp⟩
  | some sz =>
    obtain ⟨⟨v, sz'⟩, hv, ht⟩ := bind_eq_ok.mp ht
    obtain ⟨hfit', hm'⟩ := (hfit sz rfl).pgroundup.allocuvm hv
    have hsv : Marks (fun d' _ => d' = d) s v := hm.trans (hm'.mono fun _ _ hd => hd.1)
    dsimp only at ht
    split at ht
    · cases ht
      exact ⟨hsv, by simp⟩
    · rename_i hne
      rw [if_neg hne] at hfit'
      obtain ⟨w, hw, ht⟩ := bind_eq_ok.mp ht
      obtain ⟨x, hx, rfl⟩ := clearpteu_eq hw
      have hclear : ∀ {S}, Marks S v (v.setPte d (sz' - 2 * PGSIZE) { x with u := false }) :=
        Marks.setPte _ fun hp hmk => absurd ((marked_of_pte hx).mpr hp) hmk
      obtain ⟨⟨z, r⟩, hz, ht⟩ := bind_eq_ok.mp ht
      have hstack : ∀ {S}, Marks S (v.setPte d (sz' - 2 * PGSIZE) { x with u := false }) z :=
        (buildStack_writes hz).marks
      have hsz := (hsv.trans hclear).trans hstack
      cases r with
      | false =>
        cases ht
        exact ⟨hsz, by simp⟩
      | true =>
        cases ht
        refine ⟨hsz, ?_⟩
        rintro _ ⟨⟩
        exact (hfit'.keep hclear).keep hstack

end Yonix.Vm
