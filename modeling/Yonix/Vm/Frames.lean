/-
  Yonix/Vm/Frames.lean
  ====================
  **Every frame has at most one use.**

  A frame is free, in the hands of the rest of the kernel or of the function that is
  running (`held`), a user page, a page table, a page directory or a kernel stack, and
  never two of these at once.  Four rules say what can happen to a frame: it changes
  hands among those who hold it or is forgotten, a holder puts it to a use, a use ends.
  Every function of `vm.c` is built from these, so the invariant needs no condition on
  the page queue or on the identifiers, and it holds with threads that share a
  directory as well.
-/
import Yonix.Vm.Threads

namespace Yonix.Vm

/-! ### Uses -/

inductive Use where
  | page (d va : Nat)
  | tab (d i : Nat)
  | dir (d : Nat)
  | stack (pid : Nat)
deriving DecidableEq

/-- What frame `f` is used for; `st` are the kernel stackOf. -/
def Uses (st : Nat → Option Nat) (s : Core) (f : Nat) : Use → Prop
  | .page d va => ∃ D, s.dirs d = some D ∧ (D.pte va).p = true ∧ (D.pte va).frame = f
  | .tab d i => ∃ D, s.dirs d = some D ∧ D.tab i = some f
  | .dir d => ∃ D, s.dirs d = some D ∧ D.frame = f
  | .stack pid => st pid = some f

/-- The frames without a use. -/
def unused (held : List Nat) (s : Core) : List Nat := s.freelist ++ s.kheld ++ held

structure Frames (st : Nat → Option Nat) (held : List Nat) (s : Core) : Prop where
  count : s.nfreeblock = s.freelist.length
  nodup : (unused held s).Nodup
  apart : ∀ u f, Uses st s f u → f ∉ unused held s
  inj : ∀ u u' f, Uses st s f u → Uses st s f u' → u = u'

variable {st st' : Nat → Option Nat} {held held' : List Nat} {s t : Core} {d va pid f : Nat}

theorem uses_congr (hd : t.dirs = s.dirs) (u : Use) : Uses st t f u ↔ Uses st s f u := by
  cases u <;> simp [Uses, hd]

theorem uses_setPte (x : Pte) (u : Use) (hu : Uses st (s.setPte d va x) f u) :
    Uses st s f u ∧ u ≠ .page d va ∨ u = .page d va ∧ x.p = true ∧ x.frame = f := by
  cases u with
  | page d' va' =>
    obtain ⟨D, hD, hp, hf⟩ := hu
    by_cases hd : d' = d
    · subst hd
      simp only [Core.setPte, Function.update_self, Option.map_eq_some_iff] at hD
      obtain ⟨D₀, hD₀, rfl⟩ := hD
      by_cases hva : va' = va
      · subst hva
        simp only [Function.update_self] at hp hf
        exact Or.inr ⟨rfl, hp, hf⟩
      · simp only [Function.update_of_ne hva] at hp hf
        exact Or.inl ⟨⟨D₀, hD₀, hp, hf⟩, by simp [hva]⟩
    · simp only [Core.setPte, Function.update_of_ne hd] at hD
      exact Or.inl ⟨⟨D, hD, hp, hf⟩, by simp [hd]⟩
  | tab d' i =>
    obtain ⟨D, hD, hf⟩ := hu
    refine Or.inl ⟨?_, by simp⟩
    by_cases hd : d' = d
    · subst hd
      simp only [Core.setPte, Function.update_self, Option.map_eq_some_iff] at hD
      obtain ⟨D₀, hD₀, rfl⟩ := hD
      exact ⟨D₀, hD₀, hf⟩
    · simp only [Core.setPte, Function.update_of_ne hd] at hD
      exact ⟨D, hD, hf⟩
  | dir d' =>
    obtain ⟨D, hD, hf⟩ := hu
    refine Or.inl ⟨?_, by simp⟩
    by_cases hd : d' = d
    · subst hd
      simp only [Core.setPte, Function.update_self, Option.map_eq_some_iff] at hD
      obtain ⟨D₀, hD₀, rfl⟩ := hD
      exact ⟨D₀, hD₀, hf⟩
    · simp only [Core.setPte, Function.update_of_ne hd] at hD
      exact ⟨D, hD, hf⟩
  | stack pid => exact Or.inl ⟨hu, by simp⟩

theorem uses_setTab (i g : Nat) (u : Use) (hu : Uses st (s.setTab d i g) f u) :
    Uses st s f u ∨ u = .tab d i ∧ f = g := by
  cases u with
  | tab d' i' =>
    obtain ⟨D, hD, hf⟩ := hu
    by_cases hd : d' = d
    · subst hd
      simp only [Core.setTab, Function.update_self, Option.map_eq_some_iff] at hD
      obtain ⟨D₀, hD₀, rfl⟩ := hD
      by_cases hi : i' = i
      · subst hi
        simp only [Function.update_self, Option.some.injEq] at hf
        exact Or.inr ⟨rfl, hf.symm⟩
      · simp only [Function.update_of_ne hi] at hf
        exact Or.inl ⟨D₀, hD₀, hf⟩
    · simp only [Core.setTab, Function.update_of_ne hd] at hD
      exact Or.inl ⟨D, hD, hf⟩
  | page d' va' =>
    obtain ⟨D, hD, hp, hf⟩ := hu
    by_cases hd : d' = d
    · subst hd
      simp only [Core.setTab, Function.update_self, Option.map_eq_some_iff] at hD
      obtain ⟨D₀, hD₀, rfl⟩ := hD
      exact Or.inl ⟨D₀, hD₀, hp, hf⟩
    · simp only [Core.setTab, Function.update_of_ne hd] at hD
      exact Or.inl ⟨D, hD, hp, hf⟩
  | dir d' =>
    obtain ⟨D, hD, hf⟩ := hu
    by_cases hd : d' = d
    · subst hd
      simp only [Core.setTab, Function.update_self, Option.map_eq_some_iff] at hD
      obtain ⟨D₀, hD₀, rfl⟩ := hD
      exact Or.inl ⟨D₀, hD₀, hf⟩
    · simp only [Core.setTab, Function.update_of_ne hd] at hD
      exact Or.inl ⟨D, hD, hf⟩
  | stack pid => exact Or.inl hu

theorem uses_newDir (g : Nat) (u : Use) (hu : Uses st (s.newDir g) f u) :
    Uses st s f u ∨ u = .dir s.nextDir ∧ f = g := by
  cases u with
  | page d' va' =>
    obtain ⟨D, hD, hp, hf⟩ := hu
    by_cases hd : d' = s.nextDir
    · subst hd
      simp only [Core.newDir, Function.update_self, Option.some.injEq] at hD
      subst hD
      cases hp
    · simp only [Core.newDir, Function.update_of_ne hd] at hD
      exact Or.inl ⟨D, hD, hp, hf⟩
  | tab d' i =>
    obtain ⟨D, hD, hf⟩ := hu
    by_cases hd : d' = s.nextDir
    · subst hd
      simp only [Core.newDir, Function.update_self, Option.some.injEq] at hD
      subst hD
      cases hf
    · simp only [Core.newDir, Function.update_of_ne hd] at hD
      exact Or.inl ⟨D, hD, hf⟩
  | dir d' =>
    obtain ⟨D, hD, hf⟩ := hu
    by_cases hd : d' = s.nextDir
    · subst hd
      simp only [Core.newDir, Function.update_self, Option.some.injEq] at hD
      subst hD
      exact Or.inr ⟨rfl, hf.symm⟩
    · simp only [Core.newDir, Function.update_of_ne hd] at hD
      exact Or.inl ⟨D, hD, hf⟩
  | stack pid => exact Or.inl hu

/-- The directory a use belongs to. -/
def Use.inDir (d : Nat) : Use → Prop
  | .page d' _ => d' = d
  | .tab d' _ => d' = d
  | .dir d' => d' = d
  | .stack _ => False

theorem uses_dropDir (u : Use) :
    Uses st (s.dropDir d) f u ↔ Uses st s f u ∧ ¬ u.inDir d := by
  cases u with
  | page d' va' =>
    by_cases hd : d' = d <;> simp [Uses, Core.dropDir, Use.inDir, hd]
  | tab d' i =>
    by_cases hd : d' = d <;> simp [Uses, Core.dropDir, Use.inDir, hd]
  | dir d' =>
    by_cases hd : d' = d <;> simp [Uses, Core.dropDir, Use.inDir, hd]
  | stack pid => simp [Uses, Use.inDir]

/-! ### The rules -/

/-- Frames change hands or are forgotten, and no use begins. -/
theorem Frames.mono (h : Frames st held s) (hc : t.nfreeblock = t.freelist.length)
    (hsub : (unused held' t).Subperm (unused held s))
    (hU : ∀ u f, Uses st' t f u → Uses st s f u) : Frames st' held' t := by
  refine ⟨hc, ?_, ?_, ?_⟩
  · obtain ⟨l, hl, hsub⟩ := hsub
    exact hl.nodup_iff.mp (hsub.nodup h.nodup)
  · intro u f hu hf
    exact h.apart u f (hU u f hu) (hsub.subset hf)
  · intro u u' f hu hu'
    exact h.inj u u' f (hU u f hu) (hU u' f hu')

/-- The same lists and directories. -/
theorem Frames.congr (h : Frames st held s) (hl : t.freelist = s.freelist)
    (hk : t.kheld = s.kheld) (hn : t.nfreeblock = s.nfreeblock) (hd : t.dirs = s.dirs) :
    Frames st held t := by
  refine h.mono (by rw [hn, hl, h.count]) ?_ fun u f => (uses_congr hd u).mp
  unfold unused
  rw [hl, hk]

/-- A frame at hand is put to use. -/
theorem Frames.gain (h : Frames st (f :: held) s) (u₀ : Use)
    (hl : t.freelist = s.freelist) (hk : t.kheld = s.kheld) (hn : t.nfreeblock = s.nfreeblock)
    (hU : ∀ u g, Uses st' t g u → Uses st s g u ∨ u = u₀ ∧ g = f) : Frames st' held t := by
  have hsame : unused (f :: held) s = s.freelist ++ s.kheld ++ f :: held := rfl
  have hunused : unused held t = s.freelist ++ s.kheld ++ held := by
    unfold unused
    rw [hl, hk]
  have hnd := h.nodup
  rw [hsame, List.nodup_middle, List.nodup_cons] at hnd
  have hout : ∀ u, ¬ Uses st s f u := by
    intro u hu
    exact h.apart u f hu (by simp [hsame])
  refine ⟨by rw [hn, hl, h.count], ?_, ?_, ?_⟩
  · rw [hunused]
    exact hnd.2
  · intro u g hu hg
    rw [hunused] at hg
    rcases hU u g hu with hu | ⟨-, rfl⟩
    · refine h.apart u g hu ?_
      rw [hsame]
      simp only [List.mem_append, List.mem_cons] at hg ⊢
      tauto
    · exact hnd.1 hg
  · intro u u' g hu hu'
    rcases hU u g hu with h1 | ⟨h1, h2⟩
    · rcases hU u' g hu' with h1' | ⟨-, rfl⟩
      · exact h.inj u u' g h1 h1'
      · exact (hout u h1).elim
    · rcases hU u' g hu' with h1' | ⟨h1', -⟩
      · rw [h2] at h1'
        exact (hout u' h1').elim
      · rw [h1, h1']

/-- Uses end, and their frames are at hand. -/
theorem Frames.lose {L : List Nat} (h : Frames st held s) (hnd : L.Nodup)
    (hl : t.freelist = s.freelist) (hk : t.kheld = s.kheld) (hn : t.nfreeblock = s.nfreeblock)
    (hL : ∀ f ∈ L, ∃ u, Uses st s f u ∧ ¬ Uses st' t f u)
    (hU : ∀ u g, Uses st' t g u → Uses st s g u) : Frames st' (L ++ held) t := by
  have hunused : unused (L ++ held) t = s.freelist ++ s.kheld ++ (L ++ held) := by
    unfold unused
    rw [hl, hk]
  have hperm : (unused (L ++ held) t).Perm (L ++ unused held s) := by
    rw [hunused]
    unfold unused
    have h0 : (s.freelist ++ s.kheld ++ L).Perm (L ++ (s.freelist ++ s.kheld)) :=
      List.perm_append_comm
    have h1 := h0.append_right held
    simpa [List.append_assoc] using h1
  have hdisj : ∀ f ∈ L, f ∉ unused held s := by
    intro f hf
    obtain ⟨u, hu, -⟩ := hL f hf
    exact h.apart u f hu
  refine ⟨by rw [hn, hl, h.count], ?_, ?_, ?_⟩
  · rw [hperm.nodup_iff]
    refine List.nodup_append.mpr ⟨hnd, h.nodup, ?_⟩
    rintro f hf g hg rfl
    exact hdisj f hf hg
  · intro u g hu hg
    rcases List.mem_append.mp (hperm.mem_iff.mp hg) with hg | hg
    · obtain ⟨u', hu', hno⟩ := hL g hg
      rw [← h.inj u u' g (hU u g hu) hu'] at hno
      exact hno hu
    · exact h.apart u g (hU u g hu) hg
  · intro u u' g hu hu'
    exact h.inj u u' g (hU u g hu) (hU u' g hu')

theorem Frames.drop {l : List Nat} (h : Frames st (l ++ held) s) : Frames st held s := by
  refine h.mono h.count ?_ fun _ _ hu => hu
  unfold unused
  refine List.Sublist.subperm ?_
  exact (List.Sublist.refl _).append (List.sublist_append_right l held)

/-! ### Frames -/

theorem Frames.kfree (h : Frames st (f :: held) s) : Frames st held (kfree s f) := by
  refine h.mono ?_ ?_ fun u g => (uses_congr rfl u).mp
  · change s.nfreeblock + 1 = s.freelist.length + 1
    rw [h.count]
  · change ((f :: s.freelist) ++ s.kheld ++ held).Subperm (s.freelist ++ s.kheld ++ f :: held)
    exact List.perm_middle.symm.subperm

theorem Frames.takeFrame {o : Option Nat} (h : Frames st held s) (hne : s.freelist ≠ [])
    (ht : takeFrame s = (t, o)) : Frames st (o.toList ++ held) t ∧ o ≠ none := by
  unfold Vm.takeFrame at ht
  split at ht
  · rename_i hnil
    exact (hne hnil).elim
  · rename_i g l hl
    cases ht
    have hc := h.count
    rw [hl, List.length_cons] at hc
    refine ⟨h.mono ?_ ?_ fun u f => (uses_congr rfl u).mp, by simp⟩
    · change s.nfreeblock - 1 = l.length
      omega
    · unfold unused
      rw [hl]
      change (l ++ s.kheld ++ g :: held).Subperm (g :: l ++ s.kheld ++ held)
      exact List.perm_middle.subperm

theorem Frames.pageOut (h : Frames st held s) (ht : pageOut s = .ok t) :
    Frames st held t ∧ t.freelist ≠ [] := by
  obtain ⟨q, e, x, i, -, hx, hp, -, rfl⟩ := pageOut_eq ht
  obtain ⟨-, D, hD, rfl⟩ := pte_eq_some.mp hx
  have huse : Uses st s (D.pte e.va).frame (.page e.dir e.va) := ⟨D, hD, hp, rfl⟩
  have hlose : Frames st ([(D.pte e.va).frame] ++ held)
      (s.setPte e.dir e.va { D.pte e.va with p := false }) := by
    refine h.lose (List.nodup_singleton _) rfl rfl rfl ?_ ?_
    · intro f hf
      rw [List.mem_singleton] at hf
      subst hf
      refine ⟨_, huse, ?_⟩
      intro hu
      rcases uses_setPte _ _ hu with ⟨-, hne⟩ | ⟨-, hp, -⟩
      · exact hne rfl
      · cases hp
    · intro u g hu
      rcases uses_setPte _ _ hu with ⟨hu, -⟩ | ⟨-, hp, -⟩
      · exact hu
      · cases hp
  exact ⟨(Frames.kfree hlose).congr rfl rfl rfl rfl, List.cons_ne_nil _ _⟩

/-- With a right count of free frames `kalloc` returns one. -/
theorem Frames.kalloc {o : Option Nat} (h : Frames st held s) (ht : kalloc s = .ok (t, o)) :
    ∃ f, o = some f ∧ Frames st (f :: held) t := by
  have htake : ∀ {u : Core}, Frames st held u → u.freelist ≠ [] → Vm.takeFrame u = (t, o) →
      ∃ f, o = some f ∧ Frames st (f :: held) t := by
    intro u hu hne htk
    obtain ⟨hf, ho⟩ := hu.takeFrame hne htk
    obtain ⟨f, rfl⟩ := Option.ne_none_iff_exists'.mp ho
    exact ⟨f, rfl, hf⟩
  unfold Vm.kalloc at ht
  split at ht
  · cases hu : Vm.pageOut s with
    | error e => simp [hu, Except.map] at ht
    | ok u =>
      rw [hu] at ht
      obtain ⟨hfu, hne⟩ := h.pageOut hu
      exact htake hfu hne (Except.ok.inj ht)
  · rename_i hne
    refine htake h ?_ (Except.ok.inj ht)
    intro hnil
    apply hne
    rw [h.count, hnil]
    rfl

theorem Frames.allocSlab (h : Frames st held s) (ht : allocSlab s = .ok t) : Frames st held t := by
  unfold Vm.allocSlab at ht
  split at ht
  · obtain ⟨⟨u, o⟩, hu, ht⟩ := bind_eq_ok.mp ht
    obtain ⟨f, rfl, hf⟩ := h.kalloc hu
    cases ht
    exact (Frames.drop (l := [f]) hf).congr rfl rfl rfl rfl
  · cases ht
    exact h.congr rfl rfl rfl rfl

theorem Frames.addPage (h : Frames st held s) (ht : addPage s d va pid = .ok t) :
    Frames st held t := by
  obtain ⟨u, hu, ht⟩ := bind_eq_ok.mp ht
  split at ht
  · cases ht
  · cases ht
    exact (h.allocSlab hu).congr rfl rfl rfl rfl

theorem Frames.addPageIf {test : Bool} (h : Frames st held s)
    (ht : addPageIf test s d va pid = .ok t) : Frames st held t := by
  unfold Vm.addPageIf at ht
  split at ht
  · exact h.addPage ht
  · cases ht
    exact h

/-! ### Page tables -/

theorem Frames.walkpgdir {alloc r : Bool} (h : Frames st held s)
    (ht : walkpgdir s d va alloc = .ok (t, r)) : Frames st held t := by
  unfold Vm.walkpgdir at ht
  split at ht
  · cases ht
  · split at ht
    · cases ht
      exact h
    · split at ht
      · cases ht
        exact h
      · obtain ⟨⟨u, o⟩, hu, ht⟩ := bind_eq_ok.mp ht
        obtain ⟨f, rfl, hf⟩ := h.kalloc hu
        cases ht
        exact hf.gain (.tab d (pdx va)) rfl rfl rfl fun u' g hu' => uses_setTab (pdx va) f u' hu'

theorem Frames.mapPage {w u a r : Bool} (h : Frames st (f :: held) s)
    (ht : mapPage s d va f w u a = .ok (t, r)) :
    if r then Frames st held t else Frames st (f :: held) t := by
  obtain ⟨⟨v, r'⟩, hv, ht⟩ := bind_eq_ok.mp ht
  have hv' := h.walkpgdir hv
  cases r' with
  | false =>
    cases ht
    exact hv'
  | true =>
    dsimp only at ht
    split at ht
    · cases ht
    · split at ht
      · cases ht
      · cases ht
        refine hv'.gain (.page d va) rfl rfl rfl ?_
        intro u' g hu'
        rcases uses_setPte _ _ hu' with ⟨hu', -⟩ | ⟨rfl, -, rfl⟩
        · exact Or.inl hu'
        · exact Or.inr ⟨rfl, rfl⟩

theorem Frames.kernelTables (l : List Nat) :
    ∀ {s t : Core} {r : Bool}, Frames st held s → kernelTables d l s = .ok (t, r) →
      Frames st held t := by
  induction l with
  | nil =>
    intro s t r h ht
    cases ht
    exact h
  | cons i l ih =>
    intro s t r h ht
    obtain ⟨⟨u, r'⟩, hu, ht⟩ := bind_eq_ok.mp ht
    have hu' := h.walkpgdir hu
    cases r' with
    | false =>
      cases ht
      exact hu'
    | true => exact ih hu' ht

theorem Frames.setupkvm {o : Option Nat} (h : Frames st held s)
    (ht : setupkvm s = .ok (t, o)) : Frames st held t := by
  obtain ⟨⟨u, o'⟩, hu, ht⟩ := bind_eq_ok.mp ht
  obtain ⟨f, rfl, hf⟩ := h.kalloc hu
  obtain ⟨⟨v, r⟩, hv, ht⟩ := bind_eq_ok.mp ht
  have hnew : Frames st held ((u.setMem f Bytes.zero).newDir f) :=
    hf.gain (.dir u.nextDir) rfl rfl rfl fun u' g hu' => uses_newDir f u' hu'
  have hv' := Frames.kernelTables _ hnew hv
  cases r with
  | false =>
    cases ht
    exact hv'
  | true =>
    cases ht
    exact hv'

/-! ### Freeing -/

theorem Frames.unmap {x : Pte} (h : Frames st held s) (hx : s.pte d va = some x)
    (hp : x.p = true) : Frames st held (unmap s d va x pid) := by
  obtain ⟨m, hm⟩ := freePage_eq s (va ||| pid) true
  obtain ⟨-, D, hD, rfl⟩ := pte_eq_some.mp hx
  have hq : Frames st held (freePage s (va ||| pid) true) := by
    rw [hm]
    exact h.congr rfl rfl rfl rfl
  have huse : Uses st (freePage s (va ||| pid) true) (D.pte va).frame (.page d va) := by
    rw [hm]
    exact ⟨D, hD, hp, rfl⟩
  have hlose : Frames st ([(D.pte va).frame] ++ held)
      ((freePage s (va ||| pid) true).setPte d va Pte.zero) := by
    refine hq.lose (List.nodup_singleton _) rfl rfl rfl ?_ ?_
    · intro f hf
      rw [List.mem_singleton] at hf
      subst hf
      refine ⟨_, huse, ?_⟩
      intro hu
      rcases uses_setPte _ _ hu with ⟨-, hne⟩ | ⟨-, hp, -⟩
      · exact hne rfl
      · cases hp
    · intro u g hu
      rcases uses_setPte _ _ hu with ⟨hu, -⟩ | ⟨-, hp, -⟩
      · exact hu
      · cases hp
  exact (Frames.kfree hlose).congr rfl rfl rfl rfl

theorem Frames.deallocLoop (startva k : Nat) :
    ∀ (i : Nat) {s : Core}, Frames st held s →
      Frames st held (deallocLoop d startva pid k i s) := by
  induction k with
  | zero => exact fun _ _ h => h
  | succ k ih =>
    intro i s h
    unfold Vm.deallocLoop
    split
    · exact h
    · split
      · exact ih _ h
      · rename_i x hx
        split
        · rename_i hp
          exact ih _ (h.unmap hx hp)
        · exact ih _ h

theorem Frames.deallocuvm {startva endva sz : Nat} (h : Frames st held s)
    (ht : deallocuvm s d startva endva pid = .ok (t, sz)) : Frames st held t := by
  unfold Vm.deallocuvm at ht
  split at ht
  · cases ht
    exact h
  · split at ht
    · cases ht
    · cases ht
      exact Frames.deallocLoop _ _ _ h

/-- The frames of the page tables, in the order in which `freeuvm` meets them. -/
def Dir.tables (D : Dir) : List Nat := (List.range NPDENTRIES).filterMap D.tab

theorem freeTables_eq (D : Dir) (s : Core) : freeTables D s = D.tables.foldl Vm.kfree s := by
  unfold freeTables Dir.tables
  rw [List.foldl_filterMap]
  congr 1
  funext s i
  cases D.tab i <;> rfl

theorem Frames.kfrees (L : List Nat) :
    ∀ {s : Core}, Frames st (L ++ held) s → Frames st held (L.foldl Vm.kfree s) := by
  induction L with
  | nil => exact fun h => h
  | cons f L ih =>
    intro s h
    exact ih (Frames.kfree h)

theorem kfrees_dropDir (L : List Nat) :
    ∀ (s : Core), (L.foldl Vm.kfree s).dropDir d = L.foldl Vm.kfree (s.dropDir d) := by
  induction L with
  | nil => exact fun _ => rfl
  | cons f L ih => exact fun s => ih (Vm.kfree s f)

theorem kfrees_same (L : List Nat) : ∀ (s : Core), (L.foldl Vm.kfree s).dirs = s.dirs ∧
    (L.foldl Vm.kfree s).procs = s.procs ∧ (L.foldl Vm.kfree s).pgqueue = s.pgqueue ∧
    (L.foldl Vm.kfree s).swapMap = s.swapMap := by
  induction L with
  | nil => exact fun _ => ⟨rfl, rfl, rfl, rfl⟩
  | cons f L ih => exact fun s => ih (Vm.kfree s f)

/-- A directory goes, and its tables and its own frame are at hand. -/
theorem Frames.dropDir {D : Dir} (h : Frames st held s) (hD : s.dirs d = some D) :
    Frames st ((D.tables ++ [D.frame]) ++ held) (s.dropDir d) := by
  refine h.lose ?_ rfl rfl rfl ?_ fun u g hu => ((uses_dropDir u).mp hu).1
  · refine List.nodup_append.mpr ⟨?_, List.nodup_singleton _, ?_⟩
    · refine List.Nodup.filterMap ?_ List.nodup_range
      intro i j f hi hj
      have := h.inj (.tab d i) (.tab d j) f ⟨D, hD, hi⟩ ⟨D, hD, hj⟩
      cases this
      rfl
    · intro f hf g hg heq
      rw [List.mem_singleton] at hg
      subst heq hg
      obtain ⟨i, -, hi⟩ := List.mem_filterMap.mp hf
      have := h.inj (.tab d i) (.dir d) D.frame ⟨D, hD, hi⟩ ⟨D, hD, rfl⟩
      cases this
  · intro f hf
    rcases List.mem_append.mp hf with hf | hf
    · obtain ⟨i, -, hi⟩ := List.mem_filterMap.mp hf
      refine ⟨.tab d i, ⟨D, hD, hi⟩, ?_⟩
      intro hu
      exact ((uses_dropDir _).mp hu).2 rfl
    · rw [List.mem_singleton] at hf
      subst hf
      refine ⟨.dir d, ⟨D, hD, rfl⟩, ?_⟩
      intro hu
      exact ((uses_dropDir _).mp hu).2 rfl

theorem Frames.freeuvm (h : Frames st held s) (ht : freeuvm s d pid = .ok t) :
    Frames st held t := by
  obtain ⟨⟨u, sz⟩, hu, ht⟩ := bind_eq_ok.mp ht
  dsimp only at ht
  split at ht
  · cases ht
  · rename_i D hD
    cases ht
    have hlist : (Vm.kfree (freeTables D u) D.frame).dropDir d =
        (D.tables ++ [D.frame]).foldl Vm.kfree (u.dropDir d) := by
      rw [freeTables_eq, ← kfrees_dropDir, List.foldl_append]
      rfl
    rw [hlist]
    exact Frames.kfrees _ ((h.deallocuvm hu).dropDir hD)

/-! ### Address spaces -/

theorem Frames.setMem (h : Frames st held s) (x : Page) : Frames st held (s.setMem f x) :=
  h.congr rfl rfl rfl rfl

theorem Frames.allocPage {base i : Nat} {r : Bool} (h : Frames st held s)
    (ht : allocPage s d base pid i = .ok (t, r)) : Frames st held t := by
  obtain ⟨⟨u, o⟩, hu, ht⟩ := bind_eq_ok.mp ht
  obtain ⟨f, rfl, hf⟩ := h.kalloc hu
  obtain ⟨⟨v, r'⟩, hv, ht⟩ := bind_eq_ok.mp ht
  have hmap := (hf.setMem Bytes.zero).mapPage hv
  cases r' with
  | false =>
    cases ht
    exact Frames.kfree hmap
  | true =>
    obtain ⟨w, hw, ht⟩ := bind_eq_ok.mp ht
    cases ht
    exact Frames.addPageIf hmap hw

theorem Frames.allocLoop {base : Nat} (l : List Nat) :
    ∀ {s t : Core} {o : Option Nat}, Frames st held s →
      allocLoop d base pid l s = .ok (t, o) → Frames st held t := by
  induction l with
  | nil =>
    intro s t o h ht
    cases ht
    exact h
  | cons i l ih =>
    intro s t o h ht
    obtain ⟨⟨u, r⟩, hu, ht⟩ := bind_eq_ok.mp ht
    have hu' := h.allocPage hu
    cases r with
    | false =>
      cases ht
      exact hu'
    | true => exact ih hu' ht

theorem Frames.allocuvm {startva endva sz : Nat} (h : Frames st held s)
    (ht : allocuvm s d startva endva pid = .ok (t, sz)) : Frames st held t := by
  unfold Vm.allocuvm at ht
  split at ht
  · cases ht
    exact h
  · split at ht
    · cases ht
      exact h
    · obtain ⟨⟨u, o⟩, hu, ht⟩ := bind_eq_ok.mp ht
      have hu' := Frames.allocLoop _ h hu
      cases o with
      | none =>
        cases ht
        exact hu'
      | some i =>
        obtain ⟨⟨v, sz'⟩, hv, ht⟩ := bind_eq_ok.mp ht
        cases ht
        exact hu'.deallocuvm hv

theorem Frames.pageIn (h : Frames st held s) (ht : pageIn s pid d va = .ok t) :
    Frames st held t := by
  obtain ⟨⟨u, o⟩, hu, ht⟩ := bind_eq_ok.mp ht
  obtain ⟨f, rfl, hf⟩ := h.kalloc hu
  obtain ⟨slotn, -, ht⟩ := bind_eq_ok.mp ht
  obtain ⟨v, hv, ht⟩ := bind_eq_ok.mp ht
  have hfv : Frames st (f :: held) v := by
    rw [freeSlot_spec hv]
    exact hf.congr rfl rfl rfl rfl
  split at ht
  · cases ht
  · refine Frames.addPage ?_ ht
    refine hfv.gain (.page d va) rfl rfl rfl ?_
    intro u' g hu'
    rcases uses_setPte _ _ hu' with ⟨hu', -⟩ | ⟨rfl, -, rfl⟩
    · exact Or.inl hu'
    · exact Or.inr ⟨rfl, rfl⟩

theorem Frames.copyLoop {sd ppid td : Nat} (l : List Nat) :
    ∀ {s t : Core} {r : Bool}, Frames st held s →
      copyLoop sd ppid td pid l s = .ok (t, r) → Frames st held t := by
  induction l with
  | nil =>
    intro s t r h ht
    cases ht
    exact h
  | cons i l ih =>
    intro s t r h ht
    unfold Vm.copyLoop at ht
    split at ht
    · cases ht
    · obtain ⟨u, hu, ht⟩ := bind_eq_ok.mp ht
      have hin : Frames st held u := by
        unfold pageInIf at hu
        split at hu
        · exact h.pageIn hu
        · cases hu
          exact h
      split at ht
      · cases ht
      · obtain ⟨⟨v, o⟩, hv, ht⟩ := bind_eq_ok.mp ht
        obtain ⟨m, rfl, hm⟩ := hin.kalloc hv
        obtain ⟨⟨w, r'⟩, hw, ht⟩ := bind_eq_ok.mp ht
        have hmap := (hm.setMem _).mapPage hw
        cases r' with
        | false =>
          cases ht
          exact Frames.drop (l := [m]) hmap
        | true =>
          obtain ⟨z, hz, ht⟩ := bind_eq_ok.mp ht
          exact ih (Frames.addPageIf hmap hz) ht

theorem Frames.copyuvm {sd sz ppid : Nat} {o : Option Nat} (h : Frames st held s)
    (ht : copyuvm s sd sz ppid pid = .ok (t, o)) : Frames st held t := by
  obtain ⟨⟨u, o'⟩, hu, ht⟩ := bind_eq_ok.mp ht
  have hu' := h.setupkvm hu
  cases o' with
  | none =>
    cases ht
    exact hu'
  | some td =>
    obtain ⟨⟨v, r⟩, hv, ht⟩ := bind_eq_ok.mp ht
    have hv' := Frames.copyLoop _ hu' hv
    cases r with
    | true =>
      cases ht
      exact hv'
    | false =>
      obtain ⟨w, hw, ht⟩ := bind_eq_ok.mp ht
      cases ht
      exact hv'.freeuvm hw

theorem Frames.writes (h : Frames st held s) (hw : Writes s t) : Frames st held t := by
  rw [hw]
  exact h.congr rfl rfl rfl rfl

/-- An entry keeps its frame and stays as it was in the present bit. -/
theorem Frames.retag {x y : Pte} (h : Frames st held s) (hx : s.pte d va = some x)
    (hp : y.p = x.p) (hf : y.frame = x.frame) : Frames st held (s.setPte d va y) := by
  obtain ⟨-, D, hD, rfl⟩ := pte_eq_some.mp hx
  refine h.mono h.count (List.Subperm.refl _) ?_
  intro u g hu
  rcases uses_setPte _ _ hu with ⟨hu, -⟩ | ⟨rfl, h1, h2⟩
  · exact hu
  · rw [hp] at h1
    rw [hf] at h2
    exact ⟨D, hD, h1, h2⟩

theorem Frames.loadPhs {img : Image} (l : List (Option Ph)) :
    ∀ {s t : Core} {sz : Nat} {o : Option Nat}, Frames st held s →
      loadPhs d pid img l sz s = .ok (t, o) → Frames st held t := by
  induction l with
  | nil =>
    intro s t sz o h ht
    cases ht
    exact h
  | cons a l ih =>
    intro s t sz o h ht
    cases a with
    | none =>
      cases ht
      exact h
    | some ph =>
      obtain ⟨⟨u, o'⟩, hu, ht⟩ := bind_eq_ok.mp ht
      have hu' : Frames st held u := by
        rcases loadPh_cases hu with ⟨rfl, -⟩ | ⟨v, endva, sz', hv, hw, -⟩
        · exact h
        · exact (h.allocuvm hv).writes hw
      cases o' with
      | none =>
        cases ht
        exact hu'
      | some sz' => exact ih hu' ht

theorem Frames.buildImage {img : Image} {o : Option Nat} (h : Frames st held s)
    (ht : buildImage d pid img s = .ok (t, o)) : Frames st held t := by
  obtain ⟨⟨u, o'⟩, hu, ht⟩ := bind_eq_ok.mp ht
  have hu' := Frames.loadPhs _ h hu
  cases o' with
  | none =>
    cases ht
    exact hu'
  | some sz =>
    obtain ⟨⟨v, sz'⟩, hv, ht⟩ := bind_eq_ok.mp ht
    have hv' := hu'.allocuvm hv
    dsimp only at ht
    split at ht
    · cases ht
      exact hv'
    · obtain ⟨w, hw, ht⟩ := bind_eq_ok.mp ht
      obtain ⟨x, hx, rfl⟩ := clearpteu_eq hw
      obtain ⟨⟨z, r⟩, hz, ht⟩ := bind_eq_ok.mp ht
      have hz' := (hv'.retag (y := { x with u := false }) hx rfl rfl).writes (buildStack_writes hz)
      cases r with
      | false =>
        cases ht
        exact hz'
      | true =>
        cases ht
        exact hz'

/-! ### Processes -/

/-- The kernel stackOf of the processes. -/
def stackOf (s : Core) (pid : Nat) : Option Nat := (s.procs pid).map Proc.kstack

theorem stackOf_congr (h : t.procs = s.procs) : stackOf t = stackOf s := by
  funext pid
  unfold stackOf
  rw [h]

theorem stackOf_setProc (P : Option Proc) (pid' : Nat) :
    stackOf (s.setProc pid P) pid' = if pid' = pid then P.map Proc.kstack else stackOf s pid' := by
  unfold stackOf
  rw [procs_setProc]
  split <;> rfl

/-- A process record with the same stack. -/
theorem stackOf_setProc_self {P Q : Proc} (hP : s.procs pid = some P) (hQ : Q.kstack = P.kstack) :
    stackOf (s.setProc pid (some Q)) = stackOf s := by
  funext pid'
  rw [stackOf_setProc]
  split
  · rename_i h
    subst h
    simp [stackOf, hP, hQ]
  · rfl

/-- A stack at hand becomes that of a process. -/
theorem Frames.setStack {P : Proc} (h : Frames (stackOf s) (P.kstack :: held) s) :
    Frames (stackOf (s.setProc pid (some P))) held (s.setProc pid (some P)) := by
  refine h.gain (.stack pid) rfl rfl rfl ?_
  intro u g hu
  have hu' := (uses_congr (t := s.setProc pid (some P)) (s := s) rfl u).mp hu
  cases u with
  | stack pid' =>
    have heq : stackOf (s.setProc pid (some P)) pid' = some g := hu'
    rw [stackOf_setProc] at heq
    split at heq
    · rename_i hpid
      subst hpid
      exact Or.inr ⟨rfl, (Option.some.inj heq).symm⟩
    · exact Or.inl heq
  | page d va => exact Or.inl hu'
  | tab d i => exact Or.inl hu'
  | dir d => exact Or.inl hu'

/-- The stack of a process is at hand when the process is no longer counted. -/
theorem Frames.freeStack {P : Proc} (h : Frames (stackOf s) held s) (hP : s.procs pid = some P) :
    Frames (fun pid' => if pid' = pid then none else stackOf s pid') held (Vm.kfree s P.kstack) := by
  refine Frames.kfree ?_
  refine Frames.lose (L := [P.kstack]) h (List.nodup_singleton _) rfl rfl rfl ?_ ?_
  · intro f hf
    rw [List.mem_singleton] at hf
    subst hf
    refine ⟨.stack pid, by simp [Uses, stackOf, hP], by simp [Uses]⟩
  · intro u g hu
    cases u with
    | stack pid' =>
      change (if pid' = pid then none else stackOf s pid') = some g at hu
      change stackOf s pid' = some g
      split at hu
      · cases hu
      · exact hu
    | page d va => exact hu
    | tab d i => exact hu
    | dir d => exact hu

theorem stackOf_setProc_none :
    stackOf (s.setProc pid none) = fun pid' => if pid' = pid then none else stackOf s pid' := by
  funext pid'
  rw [stackOf_setProc]
  rfl

/-- The invariant of whole states. -/
def Tidy (s : Core) : Prop := Frames (stackOf s) [] s

theorem Tidy.of_frames (h : Frames (stackOf s) [] t) (hp : t.procs = s.procs) : Tidy t := by
  unfold Tidy
  rw [stackOf_congr hp]
  exact h

theorem Tidy.setProc {P Q : Proc} (h : Tidy s) (hP : s.procs pid = some P)
    (hQ : Q.kstack = P.kstack) : Tidy (s.setProc pid (some Q)) := by
  unfold Tidy
  rw [stackOf_setProc_self hP hQ]
  exact Frames.congr h rfl rfl rfl rfl

theorem Tidy.fork {P : Proc} (h : Tidy s) (ht : fork s pid P = .ok t) : Tidy t := by
  obtain ⟨⟨u, o⟩, hu, ht⟩ := bind_eq_ok.mp ht
  have h0 : Frames (stackOf s) [] { s with nextpid := s.nextpid + 1 } :=
    Frames.congr h rfl rfl rfl rfl
  obtain ⟨k, rfl, hk⟩ := h0.kalloc hu
  have hpu : u.procs = s.procs := (kalloc_marks (S := noPage) hu).procs
  obtain ⟨⟨v, o'⟩, hv, ht⟩ := bind_eq_ok.mp ht
  have hv' := hk.copyuvm hv
  have hpv : v.procs = s.procs := (copyuvm_marks hv).1.procs.trans hpu
  cases o' with
  | none =>
    cases ht
    exact Tidy.of_frames (Frames.kfree hv') hpv
  | some td =>
    cases ht
    rw [← stackOf_congr hpv] at hv'
    exact Frames.setStack hv'

/-! ### What the functions leave of the processes -/

theorem allocLoop_procs {base : Nat} (l : List Nat) :
    ∀ {s t : Core} {o : Option Nat}, allocLoop d base pid l s = .ok (t, o) →
      t.procs = s.procs := by
  induction l with
  | nil =>
    intro s t o ht
    cases ht
    rfl
  | cons i l ih =>
    intro s t o ht
    obtain ⟨⟨u, r⟩, hu, ht⟩ := bind_eq_ok.mp ht
    have hpage := allocPage_marks hu
    cases r with
    | false =>
      cases ht
      exact hpage.procs
    | true => exact (ih ht).trans hpage.1.procs

theorem allocuvm_procs {startva endva sz : Nat}
    (ht : allocuvm s d startva endva pid = .ok (t, sz)) : t.procs = s.procs := by
  unfold allocuvm at ht
  split at ht
  · cases ht
    rfl
  · split at ht
    · cases ht
      rfl
    · obtain ⟨⟨u, o⟩, hu, ht⟩ := bind_eq_ok.mp ht
      have hu' := allocLoop_procs _ hu
      cases o with
      | none =>
        cases ht
        exact hu'
      | some i =>
        obtain ⟨⟨v, sz'⟩, hv, ht⟩ := bind_eq_ok.mp ht
        cases ht
        exact (deallocuvm_marks (S := noPage) hv).procs.trans hu'

theorem loadPhs_procs {img : Image} (l : List (Option Ph)) :
    ∀ {s t : Core} {sz : Nat} {o : Option Nat}, loadPhs d pid img l sz s = .ok (t, o) →
      t.procs = s.procs := by
  induction l with
  | nil =>
    intro s t sz o ht
    cases ht
    rfl
  | cons a l ih =>
    intro s t sz o ht
    cases a with
    | none =>
      cases ht
      rfl
    | some ph =>
      obtain ⟨⟨u, o'⟩, hu, ht⟩ := bind_eq_ok.mp ht
      have hu' : u.procs = s.procs := by
        rcases loadPh_cases hu with ⟨rfl, -⟩ | ⟨v, endva, sz', hv, hw, -⟩
        · rfl
        · exact (hw.marks (S := noPage)).procs.trans (allocuvm_procs hv)
      cases o' with
      | none =>
        cases ht
        exact hu'
      | some sz' => exact (ih ht).trans hu'

theorem buildImage_procs {img : Image} {o : Option Nat}
    (ht : buildImage d pid img s = .ok (t, o)) : t.procs = s.procs := by
  obtain ⟨⟨u, o'⟩, hu, ht⟩ := bind_eq_ok.mp ht
  have hu' := loadPhs_procs _ hu
  cases o' with
  | none =>
    cases ht
    exact hu'
  | some sz =>
    obtain ⟨⟨v, sz'⟩, hv, ht⟩ := bind_eq_ok.mp ht
    have hv' := (allocuvm_procs hv).trans hu'
    dsimp only at ht
    split at ht
    · cases ht
      exact hv'
    · obtain ⟨w, hw, ht⟩ := bind_eq_ok.mp ht
      obtain ⟨x, -, rfl⟩ := clearpteu_eq hw
      obtain ⟨⟨z, r⟩, hz, ht⟩ := bind_eq_ok.mp ht
      have hz' := ((buildStack_writes hz).marks (S := noPage)).procs.trans hv'
      cases r with
      | false =>
        cases ht
        exact hz'
      | true =>
        cases ht
        exact hz'

/-! ### Every action -/

theorem Tidy.procgrow {P : Proc} {n : Int} (h : Tidy s) (hP : s.procs pid = some P)
    (ht : procgrow s pid P n = .ok t) : Tidy t := by
  have hend : ∀ {u : Core} {sz : Nat}, Frames (stackOf s) [] u → u.procs = s.procs →
      Tidy (if sz = 0 then u else u.setProc pid (some { P with size := sz })) := by
    intro u sz hu hp
    have hu' := Tidy.of_frames hu hp
    split
    · exact hu'
    · exact hu'.setProc (P := P) (by rw [hp, hP]) rfl
  unfold Vm.procgrow at ht
  dsimp only at ht
  split at ht
  · obtain ⟨⟨u, sz⟩, hu, ht⟩ := bind_eq_ok.mp ht
    cases ht
    exact hend (Frames.allocuvm h hu) (allocuvm_procs hu)
  · split at ht
    · obtain ⟨⟨u, sz⟩, hu, ht⟩ := bind_eq_ok.mp ht
      cases ht
      exact hend (Frames.deallocuvm h hu) (deallocuvm_marks (S := noPage) hu).procs
    · cases ht
      exact h

theorem Tidy.exec {P : Proc} {img : Image} (h : Tidy s) (hP : s.procs pid = some P)
    (ht : exec s pid P img = .ok t) : Tidy t := by
  unfold Vm.exec at ht
  split at ht
  · cases ht
    exact h
  · obtain ⟨⟨u, o⟩, hu, ht⟩ := bind_eq_ok.mp ht
    have hu' := Frames.setupkvm h hu
    have hpu : u.procs = s.procs := (setupkvm_marks (S := noPage) hu).1.procs
    cases o with
    | none =>
      cases ht
      exact Tidy.of_frames hu' hpu
    | some d =>
      obtain ⟨⟨v, o'⟩, hv, ht⟩ := bind_eq_ok.mp ht
      have hv' := hu'.buildImage hv
      have hpv : v.procs = s.procs := (buildImage_procs hv).trans hpu
      cases o' with
      | none =>
        have hpt : t.procs = v.procs := (freeuvm_marks (S := noPage) ht).procs
        exact Tidy.of_frames (hv'.freeuvm ht) (hpt.trans hpv)
      | some sz =>
        have hset : Tidy (v.setProc pid (some { P with page := d, size := sz })) :=
          (Tidy.of_frames hv' hpv).setProc (P := P) (by rw [hpv, hP]) rfl
        exact Tidy.of_frames (Frames.freeuvm hset ht) (freeuvm_marks (S := noPage) ht).procs

theorem Tidy.call {P : Proc} {c : Call} (h : Tidy s) (hP : s.procs pid = some P)
    (ht : call s pid P c = .ok t) : Tidy t := by
  have hfault : ∀ va, pgfltHandle s pid P va = .ok t → Tidy t := by
    intro va ht
    unfold pgfltHandle at ht
    dsimp only at ht
    split at ht
    · exact Tidy.of_frames (Frames.pageIn h ht) (pageIn_marks ht).procs
    · cases ht
  cases c with
  | fork => exact h.fork ht
  | sbrk n => exact h.procgrow hP ht
  | exec img => exact h.exec hP ht
  | exit =>
    cases ht
    exact h.setProc hP rfl
  | fault va =>
    unfold Vm.call at ht
    dsimp only at ht
    split at ht
    · split at ht
      · cases ht
      · exact hfault va ht
    · exact hfault va ht
  | store va b =>
    unfold Vm.call store at ht
    dsimp only at ht
    split at ht
    · cases ht
    · rename_i x hx
      split at ht
      · cases ht
        refine Tidy.of_frames (s := s) ?_ rfl
        exact Frames.retag (Frames.setMem h _) (x := x) hx rfl rfl
      · cases ht

theorem Tidy.wait {P : Proc} (h : Tidy s) (hP : s.procs pid = some P)
    (ht : wait s pid P = .ok t) : Tidy t := by
  obtain ⟨u, hu, ht⟩ := bind_eq_ok.mp ht
  cases ht
  have hu' := (Frames.freeStack h hP).freeuvm hu
  have hpu : u.procs = s.procs := (freeuvm_marks (S := noPage) hu).procs
  unfold Tidy
  rw [stackOf_setProc_none, stackOf_congr hpu]
  exact hu'.congr rfl rfl rfl rfl

theorem Tidy.act {a : Act} (h : Tidy s) (ht : act s a = .ok t) : Tidy t := by
  cases a with
  | call pid c =>
    unfold Vm.act at ht
    dsimp only at ht
    split at ht
    · rename_i P hP
      split at ht
      · cases ht
      · exact h.call hP ht
    · cases ht
  | wait pid =>
    unfold Vm.act at ht
    dsimp only at ht
    split at ht
    · rename_i P hP
      split at ht
      · exact h.wait hP ht
      · cases ht
    · cases ht
  | readRef pid ref =>
    cases ht
    exact Tidy.of_frames (Frames.congr h rfl rfl rfl rfl) rfl
  | kalloc =>
    obtain ⟨⟨u, o⟩, hu, ht⟩ := bind_eq_ok.mp ht
    have hpu : u.procs = s.procs := (kalloc_marks (S := noPage) hu).procs
    obtain ⟨f, rfl, hf⟩ := Frames.kalloc h hu
    cases ht
    refine Tidy.of_frames (s := s) ?_ hpu
    refine hf.mono hf.count ?_ fun u g => (uses_congr rfl u).mp
    change (u.freelist ++ (f :: u.kheld) ++ []).Subperm (u.freelist ++ u.kheld ++ [f])
    refine List.Perm.subperm ?_
    rw [List.append_nil, List.append_assoc]
    exact List.Perm.append_left _ (List.perm_append_singleton f u.kheld).symm
  | kfree f =>
    unfold Vm.act at ht
    dsimp only at ht
    split at ht
    · rename_i hmem
      cases ht
      refine Tidy.of_frames (s := s) ?_ rfl
      refine Frames.mono h ?_ ?_ fun u g => (uses_congr rfl u).mp
      · change s.nfreeblock + 1 = s.freelist.length + 1
        rw [h.count]
      · change ((f :: s.freelist) ++ s.kheld.erase f ++ []).Subperm (s.freelist ++ s.kheld ++ [])
        refine List.Perm.subperm ?_
        rw [List.append_nil, List.append_nil, List.cons_append]
        refine List.perm_middle.symm.trans ?_
        exact List.Perm.append_left _ (List.perm_cons_erase hmem).symm
    · cases ht
  | allocSlab => exact Tidy.of_frames (Frames.allocSlab h ht) (allocSlab_marks (S := noPage) ht).procs
  | freeSlab =>
    cases ht
    exact Tidy.of_frames (Frames.congr h rfl rfl rfl rfl) rfl

theorem Tidy.threadAct {s t : Threads} {a : ThreadAct} (h : Tidy s.core)
    (ht : threadAct s a = .ok t) : Tidy t.core := by
  cases a with
  | vm a =>
    obtain ⟨c, hc, ht⟩ := bind_eq_ok.mp ht
    cases ht
    exact h.act hc
  | lwpCreate pid =>
    unfold Vm.threadAct at ht
    dsimp only at ht
    split at ht
    · cases ht
    · rename_i P hP
      split at ht
      · cases ht
      · obtain ⟨⟨c, o⟩, hc, ht⟩ := bind_eq_ok.mp ht
        obtain ⟨⟨u, k⟩, hu, hc⟩ := bind_eq_ok.mp hc
        have h0 : Frames (stackOf s.core) [] { s.core with nextpid := s.core.nextpid + 1 } :=
          Frames.congr h rfl rfl rfl rfl
        obtain ⟨k, rfl, hk⟩ := h0.kalloc hu
        have hpu : u.procs = s.core.procs := (kalloc_marks (S := noPage) hu).procs
        cases hc
        cases ht
        rw [← stackOf_congr hpu] at hk
        exact Frames.setStack (P := ⟨P.page, P.size, k, false⟩) hk
  | lwpJoin pid =>
    unfold Vm.threadAct at ht
    dsimp only at ht
    split at ht
    · cases ht
    · rename_i P hP
      split at ht
      · cases ht
        unfold Tidy lwpJoin
        rw [stackOf_setProc_none]
        exact (Frames.freeStack h hP).congr rfl rfl rfl rfl
      · cases ht

theorem Tidy.boot {l : List Nat} {m : Nat} {init : List UInt8} (hl : l.Nodup)
    (ht : boot l m init = .ok t) : Tidy t := by
  have hempty : Frames (fun _ => none) [] { empty l m with nextpid := 2 } := by
    refine ⟨rfl, ?_, ?_, ?_⟩
    · simpa [unused, empty] using hl
    · intro u f hu
      cases u <;> simp [Uses, empty] at hu
    · intro u u' f hu
      cases u <;> simp [Uses, empty] at hu
  obtain ⟨⟨u, o⟩, hu, ht⟩ := bind_eq_ok.mp ht
  obtain ⟨k, rfl, hk⟩ := hempty.kalloc hu
  have hpu := (kalloc_marks (S := noPage) hu).procs
  obtain ⟨⟨v, o'⟩, hv, ht⟩ := bind_eq_ok.mp ht
  have hv' := hk.setupkvm hv
  have hpv := (setupkvm_marks (S := noPage) hv).1.procs.trans hpu
  cases o' with
  | none => cases ht
  | some d =>
    obtain ⟨w, hw, ht⟩ := bind_eq_ok.mp ht
    obtain ⟨⟨x, o''⟩, hx, hw⟩ := bind_eq_ok.mp hw
    obtain ⟨f, rfl, hf⟩ := hv'.kalloc hx
    have hpx := (kalloc_marks (S := noPage) hx).procs.trans hpv
    obtain ⟨⟨y, r⟩, hy, hw⟩ := bind_eq_ok.mp hw
    obtain rfl : y = w := Except.ok.inj hw
    have hmap := (hf.setMem _).mapPage hy
    have hyk : Frames (fun _ => none) [k] y := by
      cases r with
      | false => exact Frames.drop (l := [f]) hmap
      | true => exact hmap
    have hpy : y.procs = fun _ => none := by
      have hm := mapPage_marks hy
      cases r with
      | false => exact hm.procs.trans hpx
      | true => exact hm.1.procs.trans hpx
    have hst : stackOf y = fun _ => none := by
      funext pid
      simp [stackOf, hpy]
    cases ht
    rw [← hst] at hyk
    exact Frames.setStack (P := ⟨d, PGSIZE, k, false⟩) hyk

/-- No frame has two uses, in every state of every run. -/
theorem Tidy.run {l : List Nat} {m : Nat} {init : List UInt8} {as : List ThreadAct}
    {s₀ : Core} {s : Threads} (hl : l.Nodup) (hboot : Vm.boot l m init = .ok s₀)
    (hrun : Run (fun s a t => Vm.threadAct s a = .ok t) ⟨s₀, fun _ => false⟩ as s) :
    Tidy s.core := by
  refine hrun.invariant (fun s => Tidy s.core) (Tidy.boot hl hboot) ?_
  intro t a u ht hstep
  exact ht.threadAct hstep

end Yonix.Vm
