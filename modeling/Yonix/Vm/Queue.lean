/-
  Yonix/Vm/Queue.lean
  ===================
  **The page queue under each function of `vm.c`.**

  Between system calls every process owns one page directory; inside `fork` and
  `exec` there is one more.  `own` says which process identifier each directory
  works under, and `Sound own s` that every queue entry points at a present entry of
  an owned directory under the identifier made from its page and that owner, and
  that no identifier occurs twice.  Evicting, mapping, queueing and faulting in a
  page each keep it.  For freeing a directory the queue is split in two: a search by
  identifier finds an entry of the first part before one of the second, which is what
  `exec` relies on when both its directories have entries.
-/
import Yonix.Vm.Model

namespace Yonix.Vm

/-! ### Identifiers -/

theorem or_eq_add {va pid : Nat} (hva : PGSIZE ∣ va) (hpid : pid ≤ MAX_PID) :
    va ||| pid = va + pid := by
  obtain ⟨k, rfl⟩ := hva
  have hlt : pid < 2 ^ 12 := by
    unfold MAX_PID at hpid
    omega
  exact (Nat.two_pow_add_eq_or_of_lt hlt k).symm

theorem key_inj {va va' pid pid' : Nat} (hva : PGSIZE ∣ va) (hva' : PGSIZE ∣ va')
    (hpid : pid ≤ MAX_PID) (hpid' : pid' ≤ MAX_PID) (h : va ||| pid = va' ||| pid') :
    va = va' ∧ pid = pid' := by
  rw [or_eq_add hva hpid, or_eq_add hva' hpid'] at h
  unfold PGSIZE MAX_PID at *
  omega

/-! ### Entries of the page tables -/

def Present (s : Core) (d va : Nat) : Prop := ∃ x, s.pte d va = some x ∧ x.p = true

theorem pte_setPte (s : Core) (d va : Nat) (x : Pte) (d' va' : Nat) :
    (s.setPte d va x).pte d' va' =
      if d' = d ∧ va' = va then (s.pte d va).map fun _ => x else s.pte d' va' := by
  unfold Core.setPte Core.pte
  by_cases hd : d' = d
  · subst hd
    cases hD : s.dirs d' with
    | none => simp
    | some D =>
      by_cases hva : va' = va
      · subst hva
        cases htab : D.tab (pdx va') <;> simp [htab]
      · simp [hva]
  · simp [hd]

theorem dirs_setPte (s : Core) (d va : Nat) (x : Pte) (d' : Nat) :
    (s.setPte d va x).dirs d' = none ↔ s.dirs d' = none := by
  unfold Core.setPte
  by_cases hd : d' = d
  · subst hd
    simp
  · simp [hd]

theorem pte_setTab (s : Core) (d i f d' va : Nat) :
    (s.setTab d i f).pte d' va =
      if d' = d ∧ pdx va = i then (s.dirs d).map fun D => D.pte va else s.pte d' va := by
  unfold Core.setTab Core.pte
  by_cases hd : d' = d
  · subst hd
    cases hD : s.dirs d' with
    | none => simp
    | some D =>
      by_cases hi : pdx va = i
      · subst hi
        simp
      · simp [hi]
  · simp [hd]

theorem pte_setTab_of_some {s : Core} {d' va : Nat} {x : Pte} (h : s.pte d' va = some x)
    (d i f : Nat) : (s.setTab d i f).pte d' va = some x := by
  rw [pte_setTab]
  split
  · rename_i hc
    obtain ⟨rfl, -⟩ := hc
    unfold Core.pte at h
    cases hD : s.dirs d' with
    | none => simp [hD] at h
    | some D =>
      rw [hD] at h
      cases htab : D.tab (pdx va) with
      | none => simp [htab] at h
      | some g => simpa [htab] using h
  · exact h

theorem dirs_setTab (s : Core) (d i f d' : Nat) :
    (s.setTab d i f).dirs d' = none ↔ s.dirs d' = none := by
  unfold Core.setTab
  by_cases hd : d' = d
  · subst hd
    simp
  · simp [hd]

theorem present_setPte_of_ne {s : Core} {d va d' va' : Nat} {x : Pte} (h : Present s d' va')
    (hne : ¬ (d' = d ∧ va' = va)) : Present (s.setPte d va x) d' va' := by
  obtain ⟨y, hy, hp⟩ := h
  refine ⟨y, ?_, hp⟩
  rw [pte_setPte, if_neg hne]
  exact hy

theorem present_setPte {s : Core} {d va d' va' : Nat} {x y : Pte} (h : Present s d' va')
    (hx : s.pte d va = some y) (hp : x.p = true) : Present (s.setPte d va x) d' va' := by
  by_cases hne : d' = d ∧ va' = va
  · obtain ⟨rfl, rfl⟩ := hne
    refine ⟨x, ?_, hp⟩
    rw [pte_setPte, if_pos ⟨rfl, rfl⟩, hx]
    rfl
  · exact present_setPte_of_ne h hne

/-! ### The invariant -/

/-- Owners and directories. -/
structure Base (own : Nat → Nat → Prop) (s : Core) : Prop where
  count : s.nfreeblock = s.freelist.length
  owner : ∀ pid pid' d, own pid d → own pid' d → pid = pid'
  small : ∀ pid d, own pid d → pid ≤ MAX_PID
  live : ∀ pid d, own pid d → s.dirs d ≠ none
  fresh : ∀ d, s.nextDir ≤ d → s.dirs d = none

/-- What an entry of the queue must be. -/
def EntryOk (own : Nat → Nat → Prop) (s : Core) (e : Entry) : Prop :=
  ∃ pid, own pid e.dir ∧ e.key = e.va ||| pid ∧ Present s e.dir e.va ∧ PGSIZE ∣ e.va ∧ e.va < KERNBASE

structure Sound (own : Nat → Nat → Prop) (s : Core) : Prop extends Base own s where
  entry : ∀ e ∈ s.pgqueue, EntryOk own s e
  nodup : (s.pgqueue.map Entry.key).Nodup

variable {own : Nat → Nat → Prop} {s t : Core}

/-- An entry is determined by its identifier, up to the directories of one owner. -/
theorem EntryOk.key_eq (hb : Base own s) {e : Entry} (h : EntryOk own s e) {pid d : Nat}
    (hown : own pid d) (hd : e.dir = d) : e.key = e.va ||| pid := by
  obtain ⟨pid', hown', hkey, -⟩ := h
  rw [hd] at hown'
  rw [hkey, hb.owner pid' pid d hown' hown]

theorem EntryOk.of_key (hb : Base own s) {e : Entry} (h : EntryOk own s e) {va pid : Nat}
    (hva : PGSIZE ∣ va) (hpid : pid ≤ MAX_PID) (hkey : e.key = va ||| pid) :
    e.va = va ∧ own pid e.dir ∧ Present s e.dir va := by
  obtain ⟨pid', hown', hkey', hpres, halign, -⟩ := h
  obtain ⟨hva', hpid'⟩ := key_inj halign hva (hb.small pid' e.dir hown') hpid (hkey'.symm.trans hkey)
  rw [hva'] at hpres
  rw [hpid'] at hown'
  exact ⟨hva', hown', hpres⟩

/-- The state only gained or kept entries of its page tables. -/
theorem EntryOk.mono {e : Entry} (h : EntryOk own s e)
    (hp : Present s e.dir e.va → Present t e.dir e.va) : EntryOk own t e := by
  obtain ⟨pid, h1, h2, h3, h4, h5⟩ := h
  exact ⟨pid, h1, h2, hp h3, h4, h5⟩

/-! ### Choosing and evicting -/

/-- Entries that differ at most in their reference bits. -/
def SamePage (e e' : Entry) : Prop := e.dir = e'.dir ∧ e.va = e'.va ∧ e.key = e'.key

theorem secondChance_spec (q : List Entry) :
    List.Forall₂ SamePage (secondChance q).1 q ∧
      ∀ e, (secondChance q).2 = some e → e ∈ (secondChance q).1 := by
  induction q with
  | nil => exact ⟨List.Forall₂.nil, by simp [secondChance]⟩
  | cons e l ih =>
    unfold secondChance
    split
    · refine ⟨List.Forall₂.cons ⟨rfl, rfl, rfl⟩ ih.1, ?_⟩
      intro e' he'
      exact List.mem_cons_of_mem _ (ih.2 e' he')
    · refine ⟨List.forall₂_same.mpr fun x _ => ⟨rfl, rfl, rfl⟩, ?_⟩
      intro e' he'
      cases he'
      exact List.mem_cons_self

theorem selPage_spec {q q' : List Entry} {e : Entry} (h : selPage q = (q', some e)) :
    List.Forall₂ SamePage q' q ∧ e ∈ q' := by
  have hs := secondChance_spec q
  unfold selPage at h
  split at h
  · rename_i q1 e1 h1
    rw [h1] at hs
    cases h
    exact ⟨hs.1, hs.2 e rfl⟩
  · rename_i q1 h1
    rw [h1] at hs
    rw [Prod.mk.injEq] at h
    obtain ⟨rfl, h2⟩ := h
    exact ⟨hs.1, List.mem_of_mem_head? h2⟩

theorem map_key_of_samePage {q q' : List Entry} (h : List.Forall₂ SamePage q' q) :
    q'.map Entry.key = q.map Entry.key := by
  induction h with
  | nil => rfl
  | cons h1 _ ih => simp only [List.map_cons, h1.2.2, ih]

theorem mem_of_samePage {q q' : List Entry} (h : List.Forall₂ SamePage q' q) {e : Entry}
    (he : e ∈ q') : ∃ e' ∈ q, SamePage e e' := by
  induction h with
  | nil => cases he
  | cons h1 _ ih =>
    rcases List.mem_cons.mp he with rfl | he
    · exact ⟨_, List.mem_cons_self, h1⟩
    · obtain ⟨e', he', hs⟩ := ih he
      exact ⟨e', List.mem_cons_of_mem _ he', hs⟩

/-- In a list without repeated identifiers, removing the first entry with an identifier
    removes every entry with it. -/
theorem key_ne_of_mem_eraseP {q : List Entry} {k : Nat} (hnd : (q.map Entry.key).Nodup) {e : Entry}
    (he : e ∈ q.eraseP fun e => e.key = k) : e.key ≠ k := by
  induction q with
  | nil => simp at he
  | cons a l ih =>
    rw [List.map_cons, List.nodup_cons] at hnd
    by_cases ha : a.key = k
    · rw [List.eraseP_cons_of_pos (by simpa using ha)] at he
      intro hk
      apply hnd.1
      rw [ha, ← hk]
      exact List.mem_map_of_mem he
    · rw [List.eraseP_cons_of_neg (by simpa using ha)] at he
      rcases List.mem_cons.mp he with rfl | he
      · exact ha
      · exact ih hnd.2 he

theorem freePage_eq (s : Core) (k : Nat) (flag : Bool) :
    ∃ m, freePage s k flag =
      { s with pgqueue := s.pgqueue.eraseP fun e => e.key = k, swapMap := m } := by
  unfold freePage
  split
  · rename_i h
    refine ⟨s.swapMap, ?_⟩
    rw [List.eraseP_of_forall_not]
    intro e he
    have := List.find?_eq_none.mp h e he
    simpa using this
  · dsimp only
    split
    · unfold freePageSlot
      split <;> exact ⟨_, rfl⟩
    · exact ⟨_, rfl⟩

theorem freePage_false (s : Core) (k : Nat) :
    freePage s k false = { s with pgqueue := s.pgqueue.eraseP fun e => e.key = k } := by
  unfold freePage
  split
  · rename_i h
    rw [List.eraseP_of_forall_not]
    intro e he
    have := List.find?_eq_none.mp h e he
    simpa using this
  · rfl

/-- Everything that a `page_out` does. -/
theorem pageOut_eq (h : pageOut s = .ok t) :
    ∃ q e x i, selPage s.pgqueue = (q, some e) ∧ s.pte e.dir e.va = some x ∧ x.p = true ∧
      firstFrom (fun i => s.swapMap i = 0) SLOTSIZE 0 = some i ∧
      t = { kfree (s.setPte e.dir e.va { x with p := false }) x.frame with
        pgqueue := q.eraseP fun e' => e'.key = e.key
        swapMap := Function.update s.swapMap i e.key
        swap := Function.update s.swap (swapm2secno i) (s.mem x.frame)
        filled := Function.update s.filled e.key (swapm2secno i) } := by
  unfold pageOut at h
  split at h
  · cases h
  · rename_i q e hsel
    unfold pageOutEntry at h
    split at h
    · cases h
    · rename_i x hx
      split at h
      · cases h
      · rename_i hp
        obtain ⟨⟨u, slotn⟩, hu, h⟩ := bind_eq_ok.mp h
        unfold allocSlot at hu
        split at hu
        · cases hu
        · rename_i i hi
          cases hu
          cases h
          refine ⟨q, e, x, i, hsel, hx, by simpa using hp, hi, ?_⟩
          rw [freePage_false]
          rfl

/-- What other code sees of an allocation that had to evict pages: nothing but fewer
    queue entries, and fewer present pages among those that were queued. -/
structure Evicts (s t : Core) : Prop where
  procs : t.procs = s.procs
  nextpid : t.nextpid = s.nextpid
  nextDir : t.nextDir = s.nextDir
  dirs : ∀ d, t.dirs d = none ↔ s.dirs d = none
  queue : ∀ e ∈ t.pgqueue, ∃ e' ∈ s.pgqueue, SamePage e e'
  kept : ∀ d va, Present s d va → (∀ e ∈ s.pgqueue, ¬ (e.dir = d ∧ e.va = va)) → Present t d va

theorem Evicts.refl (s : Core) : Evicts s s :=
  ⟨rfl, rfl, rfl, fun _ => Iff.rfl, fun e he => ⟨e, he, rfl, rfl, rfl⟩, fun _ _ h _ => h⟩

theorem pageOut_spec (h : Sound own s) (ht : pageOut s = .ok t) :
    Sound own t ∧ Evicts s t ∧ t.freelist ≠ [] := by
  obtain ⟨q, e, x, i, hsel, hx, hp, -, rfl⟩ := pageOut_eq ht
  obtain ⟨hsame, he⟩ := selPage_spec hsel
  have hq : ∀ e' ∈ q, EntryOk own s e' := by
    intro e' he'
    obtain ⟨e0, he0, h1, h2, h3⟩ := mem_of_samePage hsame he'
    unfold EntryOk
    rw [h1, h2, h3]
    exact h.entry e0 he0
  have hnd : (q.map Entry.key).Nodup := by
    rw [map_key_of_samePage hsame]
    exact h.nodup
  have hpres : ∀ d va, Present s d va → ¬ (d = e.dir ∧ va = e.va) →
      Present (s.setPte e.dir e.va { x with p := false }) d va :=
    fun d va h1 h2 => present_setPte_of_ne h1 h2
  refine ⟨⟨⟨?_, h.owner, h.small, ?_, ?_⟩, ?_, ?_⟩, ⟨rfl, rfl, rfl, ?_, ?_, ?_⟩, ?_⟩
  · simp only [kfree, List.length_cons]
    exact congrArg (· + 1) h.count
  · intro pid d hd
    exact fun hn => h.live pid d hd ((dirs_setPte s e.dir e.va _ d).mp hn)
  · intro d hd
    exact (dirs_setPte s e.dir e.va _ d).mpr (h.fresh d hd)
  · intro e' he'
    have hmem : e' ∈ q := List.mem_of_mem_eraseP he'
    have hne := key_ne_of_mem_eraseP hnd he'
    refine (hq e' hmem).mono fun h1 => hpres _ _ h1 ?_
    rintro ⟨h2, h3⟩
    -- the other entry of this page would have the identifier that was removed
    obtain ⟨pid, hown, hkey, -⟩ := hq e he
    apply hne
    rw [(hq e' hmem).key_eq h.toBase hown h2, hkey, h3]
  · exact hnd.sublist (List.eraseP_sublist.map _)
  · exact fun d => dirs_setPte s e.dir e.va _ d
  · exact fun e' he' => mem_of_samePage hsame (List.mem_of_mem_eraseP he')
  · intro d va h1 h2
    refine hpres d va h1 ?_
    rintro ⟨rfl, rfl⟩
    obtain ⟨e0, he0, h3, h4, -⟩ := mem_of_samePage hsame he
    exact h2 e0 he0 ⟨h3.symm, h4.symm⟩
  · simp [kfree]

/-- Two states that agree on everything the queue is about. -/
theorem Sound.congr (h : Sound own s) (hd : t.dirs = s.dirs) (hq : t.pgqueue = s.pgqueue)
    (hn : t.nextDir = s.nextDir) (hc : t.nfreeblock = t.freelist.length) : Sound own t := by
  have hpte : ∀ d va, t.pte d va = s.pte d va := by
    intro d va
    simp only [Core.pte, hd]
  refine ⟨⟨hc, h.owner, h.small, ?_, ?_⟩, ?_, ?_⟩
  · rw [hd]
    exact h.live
  · rw [hd, hn]
    exact h.fresh
  · intro e he
    rw [hq] at he
    refine (h.entry e he).mono ?_
    rintro ⟨x, hx⟩
    exact ⟨x, by rw [hpte]; exact hx⟩
  · rw [hq]
    exact h.nodup

theorem Evicts.trans {u : Core} (h : Evicts s t) (h' : Evicts t u) : Evicts s u := by
  refine ⟨h'.procs.trans h.procs, h'.nextpid.trans h.nextpid, h'.nextDir.trans h.nextDir,
    fun d => (h'.dirs d).trans (h.dirs d), ?_, ?_⟩
  · intro e he
    obtain ⟨e1, he1, h1, h2, h3⟩ := h'.queue e he
    obtain ⟨e2, he2, h4, h5, h6⟩ := h.queue e1 he1
    exact ⟨e2, he2, h1.trans h4, h2.trans h5, h3.trans h6⟩
  · intro d va hp hq
    refine h'.kept d va (h.kept d va hp hq) ?_
    rintro e he ⟨h1, h2⟩
    obtain ⟨e1, he1, h3, h4, -⟩ := h.queue e he
    exact hq e1 he1 ⟨h3.symm.trans h1, h4.symm.trans h2⟩

theorem Evicts.of_eq (hp : t.procs = s.procs) (hi : t.nextpid = s.nextpid)
    (hn : t.nextDir = s.nextDir) (hd : t.dirs = s.dirs) (hq : t.pgqueue = s.pgqueue) :
    Evicts s t := by
  refine ⟨hp, hi, hn, by simp [hd], ?_, ?_⟩
  · intro e he
    rw [hq] at he
    exact ⟨e, he, rfl, rfl, rfl⟩
  · rintro d va ⟨x, hx⟩ -
    exact ⟨x, by simpa only [Core.pte, hd] using hx⟩

theorem takeFrame_spec {o : Option Nat} (h : Sound own s) (hne : s.freelist ≠ [])
    (hk : takeFrame s = (t, o)) : Sound own t ∧ Evicts s t ∧ ∃ f, o = some f := by
  obtain ⟨f, l, hl⟩ := List.exists_cons_of_ne_nil hne
  have hc := h.count
  simp only [takeFrame, hl, Prod.mk.injEq] at hk
  rw [hl, List.length_cons] at hc
  obtain ⟨rfl, rfl⟩ := hk
  refine ⟨h.congr rfl rfl rfl ?_, Evicts.of_eq rfl rfl rfl rfl rfl, f, rfl⟩
  change s.nfreeblock - 1 = l.length
  omega

/-- With a right count of free frames, `kalloc` returns one. -/
theorem kalloc_spec {o : Option Nat} (h : Sound own s) (hk : kalloc s = .ok (t, o)) :
    Sound own t ∧ Evicts s t ∧ ∃ f, o = some f := by
  unfold kalloc at hk
  split at hk
  · cases hu : pageOut s with
    | error e => simp [hu, Except.map] at hk
    | ok u =>
      rw [hu] at hk
      obtain ⟨hs, he, hne⟩ := pageOut_spec h hu
      obtain ⟨hs', he', hf⟩ := takeFrame_spec hs hne (Except.ok.inj hk)
      exact ⟨hs', he.trans he', hf⟩
  · rename_i hne
    refine takeFrame_spec h ?_ (Except.ok.inj hk)
    intro hnil
    apply hne
    rw [h.count, hnil]
    rfl

theorem allocSlab_spec (h : Sound own s) (ht : allocSlab s = .ok t) : Sound own t ∧ Evicts s t := by
  unfold allocSlab at ht
  split at ht
  · obtain ⟨⟨u, o⟩, hu, ht⟩ := bind_eq_ok.mp ht
    obtain ⟨hs, he, f, rfl⟩ := kalloc_spec h hu
    cases ht
    exact ⟨hs.congr rfl rfl rfl hs.count, he.trans (Evicts.of_eq rfl rfl rfl rfl rfl)⟩
  · cases ht
    exact ⟨h.congr rfl rfl rfl h.count, Evicts.of_eq rfl rfl rfl rfl rfl⟩

/-! ### Mapping -/

/-- Directories only gained tables and present pages. -/
theorem Sound.grow (h : Sound own s) (hd : ∀ d, t.dirs d = none ↔ s.dirs d = none)
    (hp : ∀ d va, Present s d va → Present t d va) (hq : t.pgqueue = s.pgqueue)
    (hn : t.nextDir = s.nextDir) (hc : t.nfreeblock = t.freelist.length) : Sound own t := by
  refine ⟨⟨hc, h.owner, h.small, ?_, ?_⟩, ?_, ?_⟩
  · exact fun pid d hown hn => h.live pid d hown ((hd d).mp hn)
  · rw [hn]
    exact fun d hd' => (hd d).mpr (h.fresh d hd')
  · rw [hq]
    exact fun e he => (h.entry e he).mono (hp e.dir e.va)
  · rw [hq]
    exact h.nodup

theorem walkpgdir_spec {d va : Nat} {r : Bool} (h : Sound own s)
    (hw : walkpgdir s d va true = .ok (t, r)) :
    Sound own t ∧ Evicts s t ∧ r = true := by
  unfold walkpgdir at hw
  split at hw
  · cases hw
  · split at hw
    · cases hw
      exact ⟨h, Evicts.refl s, rfl⟩
    · rw [if_neg (by decide)] at hw
      obtain ⟨⟨u, o⟩, hu, hw⟩ := bind_eq_ok.mp hw
      obtain ⟨hs, he, f, rfl⟩ := kalloc_spec h hu
      cases hw
      have hd : ∀ d', ((u.setMem f Bytes.zero).setTab d (pdx va) f).dirs d' = none ↔
          u.dirs d' = none := dirs_setTab (u.setMem f Bytes.zero) d (pdx va) f
      have hp : ∀ d' va', Present u d' va' →
          Present ((u.setMem f Bytes.zero).setTab d (pdx va) f) d' va' := by
        rintro d' va' ⟨x, hx, hp⟩
        exact ⟨x, pte_setTab_of_some (s := u.setMem f Bytes.zero) hx d (pdx va) f, hp⟩
      refine ⟨hs.grow hd hp rfl rfl hs.count, he.trans ⟨rfl, rfl, rfl, hd, ?_, ?_⟩, rfl⟩
      · exact fun e hmem => ⟨e, hmem, rfl, rfl, rfl⟩
      · exact fun d' va' h1 _ => hp d' va' h1

theorem Sound.setPte {d va : Nat} {x y : Pte} (h : Sound own s) (hx : s.pte d va = some y)
    (hp : x.p = true) : Sound own (s.setPte d va x) ∧ Evicts s (s.setPte d va x) := by
  have hd := dirs_setPte s d va x
  have hg : ∀ d' va', Present s d' va' → Present (s.setPte d va x) d' va' :=
    fun d' va' h' => present_setPte h' hx hp
  exact ⟨h.grow hd hg rfl rfl h.count, rfl, rfl, rfl, hd, fun e he => ⟨e, he, rfl, rfl, rfl⟩,
    fun d' va' h' _ => hg d' va' h'⟩

theorem mapPage_spec {d va f : Nat} {w u a r : Bool} (h : Sound own s)
    (hm : mapPage s d va f w u a = .ok (t, r)) :
    Sound own t ∧ Evicts s t ∧ r = true ∧ Present t d va ∧
      ∀ e ∈ t.pgqueue, ¬ (e.dir = d ∧ e.va = va) := by
  unfold mapPage at hm
  obtain ⟨⟨v, r'⟩, hv, hm⟩ := bind_eq_ok.mp hm
  obtain ⟨hs, he, rfl⟩ := walkpgdir_spec h hv
  dsimp only at hm
  split at hm
  · cases hm
  · rename_i x hx
    split at hm
    · cases hm
    · rename_i hp
      cases hm
      obtain ⟨hs', he'⟩ := hs.setPte (x := ⟨true, w, u, a, f⟩) hx rfl
      refine ⟨hs', he.trans he', rfl, ?_, ?_⟩
      · refine ⟨⟨true, w, u, a, f⟩, ?_, rfl⟩
        rw [pte_setPte, if_pos ⟨rfl, rfl⟩, hx]
        rfl
      · -- a queued page is present
        rintro e hmem ⟨rfl, rfl⟩
        obtain ⟨-, -, -, ⟨y, hy, hyp⟩, -⟩ := hs.entry e hmem
        rw [hx] at hy
        cases hy
        exact hp hyp

/-- The queue gains at most entries of directory `d`. -/
structure Evol (d : Nat) (s t : Core) : Prop where
  procs : t.procs = s.procs
  nextpid : t.nextpid = s.nextpid
  nextDir : t.nextDir = s.nextDir
  dirs : ∀ d', t.dirs d' = none ↔ s.dirs d' = none
  queue : ∀ e ∈ t.pgqueue, (∃ e' ∈ s.pgqueue, SamePage e e') ∨ e.dir = d

theorem Evicts.evol (h : Evicts s t) (d : Nat) : Evol d s t :=
  ⟨h.procs, h.nextpid, h.nextDir, h.dirs, fun e he => Or.inl (h.queue e he)⟩

theorem Evol.trans {d : Nat} {u : Core} (h : Evol d s t) (h' : Evol d t u) : Evol d s u := by
  refine ⟨h'.procs.trans h.procs, h'.nextpid.trans h.nextpid, h'.nextDir.trans h.nextDir,
    fun d' => (h'.dirs d').trans (h.dirs d'), ?_⟩
  intro e he
  rcases h'.queue e he with ⟨e1, he1, h1, h2, h3⟩ | hd
  · rcases h.queue e1 he1 with ⟨e2, he2, h4, h5, h6⟩ | hd
    · exact Or.inl ⟨e2, he2, h1.trans h4, h2.trans h5, h3.trans h6⟩
    · exact Or.inr (h1.trans hd)
  · exact Or.inr hd

theorem addPage_spec {d va pid : Nat} (h : Sound own s) (hown : own pid d) (hp : Present s d va)
    (hva : PGSIZE ∣ va) (hlt : va < KERNBASE) (hnew : ∀ e ∈ s.pgqueue, e.key ≠ va ||| pid)
    (ht : addPage s d va pid = .ok t) : Sound own t ∧ Evol d s t := by
  unfold addPage at ht
  obtain ⟨u, hu, ht⟩ := bind_eq_ok.mp ht
  obtain ⟨hs, he⟩ := allocSlab_spec h hu
  have hp' : Present u d va := by
    refine he.kept d va hp ?_
    rintro e hmem ⟨h1, h2⟩
    apply hnew e hmem
    rw [(h.entry e hmem).key_eq h.toBase hown h1, h2]
  split at ht
  · cases ht
  · rename_i x hx
    cases ht
    refine ⟨⟨⟨hs.count, hs.owner, hs.small, hs.live, hs.fresh⟩, ?_, ?_⟩, he.procs, he.nextpid, he.nextDir, he.dirs, ?_⟩
    · intro e hmem
      rcases List.mem_append.mp hmem with hmem | hmem
      · exact hs.entry e hmem
      · rw [List.mem_singleton] at hmem
        subst hmem
        exact ⟨pid, hown, rfl, hp', hva, hlt⟩
    · rw [List.map_append]
      refine List.nodup_append.mpr ⟨hs.nodup, by simp, ?_⟩
      intro k hk k' hk' heq
      obtain ⟨e, hmem, rfl⟩ := List.mem_map.mp hk
      obtain ⟨e', hmem', -, -, hkey⟩ := he.queue e hmem
      rw [List.map_cons, List.map_nil, List.mem_singleton] at hk'
      exact hnew e' hmem' (hkey.symm.trans (heq.trans hk'))
    · intro e hmem
      rcases List.mem_append.mp hmem with hmem | hmem
      · exact Or.inl (he.queue e hmem)
      · rw [List.mem_singleton] at hmem
        subst hmem
        exact Or.inr rfl

/-! ### The page loops -/

theorem pgroundup_dvd (a : Nat) : PGSIZE ∣ pgroundup a := Dvd.intro_left _ rfl

theorem mem_pages {a b va : Nat} (h : va ∈ pages a b) : PGSIZE ∣ va ∧ va < b := by
  obtain ⟨k, hk, rfl⟩ := List.mem_map.mp h
  rw [List.mem_range] at hk
  refine ⟨Dvd.dvd.add (pgroundup_dvd a) (Dvd.intro_left _ rfl), ?_⟩
  unfold PGSIZE at *
  omega

/-- Entries under the identifiers of these pages, in the name of `pid`, are entries of
    `d`. -/
def KeysIn (d pid : Nat) (q : List Entry) (l : List Nat) : Prop :=
  ∀ va ∈ l, ∀ e ∈ q, e.key = va ||| pid → e.dir = d

theorem KeysIn.evol {d pid : Nat} {l : List Nat} (h : KeysIn d pid s.pgqueue l) (he : Evol d s t) :
    KeysIn d pid t.pgqueue l := by
  intro va hva e hmem hkey
  rcases he.queue e hmem with ⟨e', hmem', h1, -, h3⟩ | hd
  · rw [h1]
    exact h va hva e' hmem' (h3.symm.trans hkey)
  · exact hd

theorem addPageIf_spec {d va pid : Nat} {test : Bool} (h : Sound own s) (hown : own pid d)
    (hp : Present s d va) (hva : PGSIZE ∣ va) (hlt : va < KERNBASE)
    (hnew : test = true → ∀ e ∈ s.pgqueue, e.key ≠ va ||| pid)
    (ht : addPageIf test s d va pid = .ok t) : Sound own t ∧ Evol d s t := by
  unfold addPageIf at ht
  split at ht
  · rename_i hc
    exact addPage_spec h hown hp hva hlt (hnew hc) ht
  · cases ht
    exact ⟨h, (Evicts.refl s).evol d⟩

theorem allocPage_spec {d base pid i : Nat} {r : Bool} (hown : own pid d) (h : Sound own s)
    (hi : PGSIZE ∣ i) (hlt : i < KERNBASE)
    (hk : base < i → ∀ e ∈ s.pgqueue, e.key = i ||| pid → e.dir = d)
    (ht : allocPage s d base pid i = .ok (t, r)) : Sound own t ∧ Evol d s t ∧ r = true := by
  unfold allocPage at ht
  obtain ⟨⟨u, g⟩, hu, ht⟩ := bind_eq_ok.mp ht
  obtain ⟨hsu, heu, f, rfl⟩ := kalloc_spec h hu
  obtain ⟨⟨v, r'⟩, hv, ht⟩ := bind_eq_ok.mp ht
  have hsu' : Sound own (u.setMem f Bytes.zero) := hsu.congr rfl rfl rfl hsu.count
  have heu' : Evicts s (u.setMem f Bytes.zero) := heu.trans (Evicts.of_eq rfl rfl rfl rfl rfl)
  obtain ⟨hsv, hev, rfl, hpv, hqv⟩ := mapPage_spec hsu' hv
  obtain ⟨w, hw, ht⟩ := bind_eq_ok.mp ht
  cases ht
  have hsv' := heu'.trans hev
  have hnew : decide (base < i) = true → ∀ e ∈ v.pgqueue, e.key ≠ i ||| pid := by
    intro hb e hmem hkey
    obtain ⟨e', hmem', h1, -, h3⟩ := hsv'.queue e hmem
    have hd := hk (by simpa using hb) e' hmem' (h3.symm.trans hkey)
    obtain ⟨hva, -, -⟩ := (hsv.entry e hmem).of_key hsv.toBase hi (hsv.small pid d hown) hkey
    exact hqv e hmem ⟨h1.trans hd, hva⟩
  obtain ⟨hsw, hew⟩ := addPageIf_spec hsv hown hpv hi hlt hnew hw
  exact ⟨hsw, (hsv'.evol d).trans hew, rfl⟩

theorem allocLoop_spec {d base pid : Nat} (hown : own pid d) (l : List Nat) :
    ∀ {s t : Core} {o : Option Nat}, Sound own s → (∀ va ∈ l, PGSIZE ∣ va ∧ va < KERNBASE) →
      KeysIn d pid s.pgqueue (l.filter (base < ·)) → allocLoop d base pid l s = .ok (t, o) →
      Sound own t ∧ Evol d s t ∧ o = none := by
  induction l with
  | nil =>
    intro s t o h _ _ ht
    cases ht
    exact ⟨h, (Evicts.refl s).evol d, rfl⟩
  | cons i l ih =>
    intro s t o h hl hk ht
    obtain ⟨hi, hlt⟩ := hl i List.mem_cons_self
    unfold allocLoop at ht
    obtain ⟨⟨u, r⟩, hu, ht⟩ := bind_eq_ok.mp ht
    obtain ⟨hs, he, rfl⟩ := allocPage_spec hown h hi hlt
      (fun hb => hk i (List.mem_filter.mpr ⟨List.mem_cons_self, by simpa using hb⟩)) hu
    have hk' : KeysIn d pid u.pgqueue (l.filter (base < ·)) := by
      refine KeysIn.evol (fun va hva => hk va ?_) he
      exact List.Sublist.mem hva ((List.sublist_cons_self i l).filter _)
    obtain ⟨hst, het, ho⟩ := ih hs (fun va hva => hl va (List.mem_cons_of_mem _ hva)) hk' ht
    exact ⟨hst, he.trans het, ho⟩

/-- What `allocuvm` returns when memory does not run out. -/
def allocSize (startva endva : Nat) : Nat :=
  if KERNBASE ≤ endva then 0 else if endva < startva then startva else endva

/-- The pages that `allocuvm` maps, and whether it queues them. -/
def allocPages (startva endva : Nat) : List (Nat × Bool) :=
  if KERNBASE ≤ endva ∨ endva < startva then []
  else (pages startva endva).map fun va => (va, decide (pgroundup startva < va))

/-- The pages among these that are queued. -/
def queuedOf (l : List (Nat × Bool)) : List Nat := (l.filter Prod.snd).map Prod.fst

theorem allocuvm_spec {d startva endva pid sz : Nat} (hown : own pid d) (h : Sound own s)
    (hk : KeysIn d pid s.pgqueue (queuedOf (allocPages startva endva)))
    (ht : allocuvm s d startva endva pid = .ok (t, sz)) :
    Sound own t ∧ Evol d s t ∧ sz = allocSize startva endva := by
  unfold allocuvm at ht
  unfold allocSize
  split at ht
  · rename_i hkern
    cases ht
    exact ⟨h, (Evicts.refl s).evol d, (if_pos hkern).symm⟩
  · rename_i hkern
    split at ht
    · rename_i hend
      cases ht
      exact ⟨h, (Evicts.refl s).evol d, by rw [if_neg hkern, if_pos hend]⟩
    · rename_i hend
      obtain ⟨⟨u, o⟩, hu, ht⟩ := bind_eq_ok.mp ht
      have hl : ∀ va ∈ pages startva endva, PGSIZE ∣ va ∧ va < KERNBASE := by
        intro va hva
        obtain ⟨h1, h2⟩ := mem_pages hva
        exact ⟨h1, by omega⟩
      have hk' : KeysIn d pid s.pgqueue ((pages startva endva).filter (pgroundup startva < ·)) := by
        intro va hva
        refine hk va ?_
        rw [allocPages, if_neg (by omega), queuedOf, List.mem_map]
        rw [List.mem_filter] at hva
        exact ⟨(va, true), List.mem_filter.mpr
          ⟨List.mem_map.mpr ⟨va, hva.1, by rw [hva.2]⟩, rfl⟩, rfl⟩
      obtain ⟨hs, he, rfl⟩ := allocLoop_spec hown _ h hl hk' hu
      cases ht
      exact ⟨hs, he, by rw [if_neg hkern, if_neg hend]⟩

/-! ### New directories -/

/-- The owners, with directory `d` for `pid` added. -/
def adopt (own : Nat → Nat → Prop) (pid d : Nat) (pid' d' : Nat) : Prop :=
  own pid' d' ∨ (pid' = pid ∧ d' = d)

theorem kernelTables_spec {d : Nat} (l : List Nat) :
    ∀ {s t : Core} {r : Bool}, Sound own s → kernelTables d l s = .ok (t, r) →
      Sound own t ∧ Evicts s t ∧ r = true := by
  induction l with
  | nil =>
    intro s t r h ht
    cases ht
    exact ⟨h, Evicts.refl s, rfl⟩
  | cons i l ih =>
    intro s t r h ht
    unfold kernelTables at ht
    obtain ⟨⟨u, r'⟩, hu, ht⟩ := bind_eq_ok.mp ht
    obtain ⟨hs, he, rfl⟩ := walkpgdir_spec h hu
    obtain ⟨hst, het, hr⟩ := ih hs ht
    exact ⟨hst, he.trans het, hr⟩

/-- An empty directory, owned by `pid` from then on. -/
theorem Sound.newDir {pid : Nat} (h : Sound own s) (hpid : pid ≤ MAX_PID) (f : Nat) :
    Sound (adopt own pid s.nextDir) (s.newDir f) := by
  have hnot : ∀ pid' d, own pid' d → d ≠ s.nextDir := by
    rintro pid' d hown rfl
    exact h.live pid' _ hown (h.fresh _ (Nat.le_refl _))
  refine ⟨⟨h.count, ?_, ?_, ?_, ?_⟩, ?_, h.nodup⟩
  · rintro pid1 pid2 d (h1 | ⟨rfl, rfl⟩) (h2 | ⟨rfl, h2⟩)
    · exact h.owner pid1 pid2 d h1 h2
    · exact absurd h2 (hnot pid1 d h1)
    · exact absurd rfl (hnot pid2 _ h2)
    · rfl
  · rintro pid' d (h1 | ⟨rfl, -⟩)
    · exact h.small pid' d h1
    · exact hpid
  · rintro pid' d (h1 | ⟨rfl, rfl⟩)
    · change Function.update s.dirs s.nextDir _ d ≠ none
      rw [Function.update_of_ne (hnot pid' d h1)]
      exact h.live pid' d h1
    · change Function.update s.dirs s.nextDir _ s.nextDir ≠ none
      simp
  · intro d hd
    change s.nextDir + 1 ≤ d at hd
    change Function.update s.dirs s.nextDir _ d = none
    rw [Function.update_of_ne (by omega)]
    exact h.fresh d (by omega)
  · intro e hmem
    obtain ⟨pid', h1, h2, ⟨x, hx, hp⟩, h4⟩ := h.entry e hmem
    refine ⟨pid', Or.inl h1, h2, ⟨x, ?_, hp⟩, h4⟩
    simpa only [Core.pte, Core.newDir, Function.update_of_ne (hnot pid' e.dir h1)] using hx

theorem setupkvm_spec {pid : Nat} {o : Option Nat} (h : Sound own s) (hpid : pid ≤ MAX_PID)
    (ht : setupkvm s = .ok (t, o)) :
    o = some s.nextDir ∧ Sound (adopt own pid s.nextDir) t ∧ t.procs = s.procs ∧
      t.nextpid = s.nextpid ∧ ∀ e ∈ t.pgqueue, ∃ e' ∈ s.pgqueue, SamePage e e' := by
  unfold setupkvm at ht
  obtain ⟨⟨u, g⟩, hu, ht⟩ := bind_eq_ok.mp ht
  obtain ⟨hs, he, f, rfl⟩ := kalloc_spec h hu
  obtain ⟨⟨v, r⟩, hv, ht⟩ := bind_eq_ok.mp ht
  have hsm : Sound own (u.setMem f Bytes.zero) := hs.congr rfl rfl rfl hs.count
  obtain ⟨hst, het, rfl⟩ := kernelTables_spec kernelPdx (hsm.newDir hpid f) hv
  cases ht
  rw [← he.nextDir]
  refine ⟨rfl, hst, het.procs.trans he.procs, het.nextpid.trans he.nextpid, ?_⟩
  intro e hmem
  obtain ⟨e1, he1, h1, h2, h3⟩ := het.queue e hmem
  obtain ⟨e2, he2, h4, h5, h6⟩ := he.queue e1 he1
  exact ⟨e2, he2, h1.trans h4, h2.trans h5, h3.trans h6⟩

/-! ### Faults and `fork` -/

theorem findSlot_spec {key n : Nat} (h : findSlot s key = .ok n) :
    ∃ i, firstFrom (fun i => s.swapMap i = key) SLOTSIZE 0 = some i ∧ n = swapm2secno i := by
  unfold findSlot at h
  split at h
  · cases h
  · rename_i i hi
    cases h
    exact ⟨i, hi, rfl⟩

theorem freeSlot_spec {n : Nat} (h : freeSlot s n = .ok t) :
    t = { s with swapMap := Function.update s.swapMap (secno2swapm n) 0 } := by
  unfold freeSlot at h
  dsimp only at h
  split at h
  · cases h
  · cases h
    rfl

/-- `page_in` for a page that is not queued by the time it is read back. -/
theorem pageIn_spec {pid d va : Nat} (h : Sound own s) (hown : own pid d) (hva : PGSIZE ∣ va)
    (hlt : va < KERNBASE)
    (hnew : ∀ u o n, kalloc s = .ok (u, o) → findSlot u (pid ||| va) = .ok n →
      ∀ e ∈ u.pgqueue, e.key ≠ va ||| pid)
    (ht : pageIn s pid d va = .ok t) : Sound own t ∧ Evol d s t := by
  unfold pageIn at ht
  obtain ⟨⟨u, o⟩, hu, ht⟩ := bind_eq_ok.mp ht
  obtain ⟨hs, he, f, rfl⟩ := kalloc_spec h hu
  dsimp only at ht
  obtain ⟨n, hn, ht⟩ := bind_eq_ok.mp ht
  obtain ⟨v, hv, ht⟩ := bind_eq_ok.mp ht
  have hsv : Sound own v := by
    rw [freeSlot_spec hv]
    exact hs.congr rfl rfl rfl hs.count
  have hev : Evicts s v := by
    rw [freeSlot_spec hv]
    exact he.trans (Evicts.of_eq rfl rfl rfl rfl rfl)
  have hnewv : ∀ e ∈ v.pgqueue, e.key ≠ va ||| pid := by
    rw [freeSlot_spec hv]
    exact hnew u _ n hu hn
  split at ht
  · cases ht
  · rename_i x hx
    obtain ⟨hs', he'⟩ := hsv.setPte (x := { x with p := true, frame := f }) hx rfl
    have hp : Present (v.setPte d va { x with p := true, frame := f }) d va := by
      refine ⟨{ x with p := true, frame := f }, ?_, rfl⟩
      rw [pte_setPte, if_pos ⟨rfl, rfl⟩, hx]
      rfl
    obtain ⟨hst, het⟩ := addPage_spec hs' hown hp hva hlt hnewv ht
    exact ⟨hst, ((hev.trans he').evol d).trans het⟩

/-- A fault on a page that is not present, by a process with one directory. -/
theorem pageIn_of_not_present {pid d va : Nat} (h : Sound own s) (hown : own pid d)
    (huniq : ∀ d', own pid d' → d' = d) (hnp : ¬ Present s d va) (hva : PGSIZE ∣ va)
    (hlt : va < KERNBASE) (ht : pageIn s pid d va = .ok t) : Sound own t ∧ Evol d s t := by
  refine pageIn_spec h hown hva hlt ?_ ht
  intro u o n hu _ e hmem hkey
  obtain ⟨-, he, -⟩ := kalloc_spec h hu
  obtain ⟨e', hmem', -, -, hkey'⟩ := he.queue e hmem
  obtain ⟨-, hown', hp⟩ := (h.entry e' hmem').of_key h.toBase hva (h.small pid d hown)
    (hkey'.symm.trans hkey)
  rw [huniq _ hown'] at hp
  exact hnp hp

theorem copyLoop_spec {sd ppid td pid : Nat} (hsd : own ppid sd) (htd : own pid td)
    (huniq : ∀ d, own ppid d → d = sd) (huniq' : ∀ d, own pid d → d = td) (l : List Nat) :
    ∀ {s t : Core} {r : Bool}, Sound own s → (∀ va ∈ l, PGSIZE ∣ va ∧ va < KERNBASE) →
      copyLoop sd ppid td pid l s = .ok (t, r) →
      Sound own t ∧ t.procs = s.procs ∧ t.nextpid = s.nextpid ∧ r = true := by
  induction l with
  | nil =>
    intro s t r h _ ht
    cases ht
    exact ⟨h, rfl, rfl, rfl⟩
  | cons i l ih =>
    intro s t r h hl ht
    obtain ⟨hi, hlt⟩ := hl i List.mem_cons_self
    unfold copyLoop at ht
    split at ht
    · cases ht
    · rename_i x hx
      obtain ⟨u, hu, ht⟩ := bind_eq_ok.mp ht
      have hmid : Sound own u ∧ u.procs = s.procs ∧ u.nextpid = s.nextpid := by
        unfold pageInIf at hu
        split at hu
        · rename_i hp
          have hnp : ¬ Present s sd i := by
            rintro ⟨y, hy, hyp⟩
            rw [hx] at hy
            cases hy
            simp [hyp] at hp
          obtain ⟨hsu, heu⟩ := pageIn_of_not_present h hsd huniq hnp hi hlt hu
          exact ⟨hsu, heu.procs, heu.nextpid⟩
        · cases hu
          exact ⟨h, rfl, rfl⟩
      obtain ⟨hsu, hpu, hnu⟩ := hmid
      split at ht
      · cases ht
      · rename_i y hy
        obtain ⟨⟨v, o⟩, hv, ht⟩ := bind_eq_ok.mp ht
        obtain ⟨hsv, hev, m, rfl⟩ := kalloc_spec hsu hv
        dsimp only at ht
        obtain ⟨⟨w, r'⟩, hw, ht⟩ := bind_eq_ok.mp ht
        obtain ⟨hsw, hew, rfl, hpw, hqw⟩ := mapPage_spec
          (s := v.setMem m (v.mem y.frame)) (hsv.congr rfl rfl rfl hsv.count) hw
        dsimp only at ht
        obtain ⟨z, hz, ht⟩ := bind_eq_ok.mp ht
        have hnew : ∀ e ∈ w.pgqueue, e.key ≠ i ||| pid := by
          intro e hmem hkey
          obtain ⟨hva, hown', -⟩ :=
            (hsw.entry e hmem).of_key hsw.toBase hi (hsw.small pid td htd) hkey
          exact hqw e hmem ⟨huniq' _ hown', hva⟩
        obtain ⟨hsz, hez⟩ := addPageIf_spec hsw htd hpw hi hlt (fun _ => hnew) hz
        obtain ⟨hst, hpt, hnt, hr⟩ := ih hsz (fun va hva => hl va (List.mem_cons_of_mem _ hva)) ht
        refine ⟨hst, ?_, ?_, hr⟩
        · rw [hpt, hez.procs, hew.procs]
          exact hev.procs.trans hpu
        · rw [hnt, hez.nextpid, hew.nextpid]
          exact hev.nextpid.trans hnu

end Yonix.Vm
