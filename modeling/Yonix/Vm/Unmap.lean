/-
  Yonix/Vm/Unmap.lean
  ===================
  **Taking pages out of an address space: `deallocuvm` and `freeuvm`.**

  `free_page` searches the queue by identifier and `exec` frees a directory while
  another one of the same process has entries too, so the queue is taken in two
  parts.  The first part has at most one entry for each identifier, and every entry of
  the directory that is being freed is in it: the search meets that entry first.
-/
import Yonix.Vm.Queue

namespace Yonix.Vm

variable {own : Nat → Nat → Prop} {d pid : Nat} {q₁ q₂ : List Entry} {s t : Core}

/-- The queue in two parts, as seen by a walk over directory `d`. -/
structure Split (own : Nat → Nat → Prop) (d : Nat) (q₁ q₂ : List Entry) (s : Core) : Prop
    extends Base own s where
  queue : s.pgqueue = q₁ ++ q₂
  entry : ∀ e ∈ s.pgqueue, EntryOk own s e
  nodup₁ : (q₁.map Entry.key).Nodup
  nodup₂ : (q₂.map Entry.key).Nodup
  other : ∀ e ∈ q₂, e.dir ≠ d

theorem Sound.split (h : Sound own s) (d : Nat) : Split own d s.pgqueue [] s :=
  ⟨h.toBase, (List.append_nil _).symm, h.entry, h.nodup, List.nodup_nil, by simp⟩

theorem Split.sound (h : Split own d q₁ q₂ s)
    (hdisj : ∀ e ∈ q₁, ∀ e' ∈ q₂, e.key ≠ e'.key) : Sound own s := by
  refine ⟨h.toBase, h.entry, ?_⟩
  rw [h.queue, List.map_append]
  refine List.nodup_append.mpr ⟨h.nodup₁, h.nodup₂, ?_⟩
  intro k hk k' hk' heq
  obtain ⟨e, he, rfl⟩ := List.mem_map.mp hk
  obtain ⟨e', he', rfl⟩ := List.mem_map.mp hk'
  exact hdisj e he e' he' heq

theorem Split.congr (h : Split own d q₁ q₂ s) (hd : t.dirs = s.dirs) (hq : t.pgqueue = s.pgqueue)
    (hn : t.nextDir = s.nextDir) (hc : t.nfreeblock = t.freelist.length) :
    Split own d q₁ q₂ t := by
  have hpte : ∀ d va, t.pte d va = s.pte d va := by
    intro d va
    simp only [Core.pte, hd]
  refine ⟨⟨hc, h.owner, h.small, ?_, ?_⟩, hq.trans h.queue, ?_, h.nodup₁, h.nodup₂, h.other⟩
  · rw [hd]
    exact h.live
  · rw [hd, hn]
    exact h.fresh
  · intro e he
    rw [hq] at he
    refine (h.entry e he).mono ?_
    rintro ⟨x, hx⟩
    exact ⟨x, by rw [hpte]; exact hx⟩

/-! ### One page -/

/-- What unmapping leaves alone. -/
structure Unmaps (s t : Core) : Prop where
  procs : t.procs = s.procs
  nextpid : t.nextpid = s.nextpid
  nextDir : t.nextDir = s.nextDir
  dirs : ∀ d, t.dirs d = none ↔ s.dirs d = none
  tables : ∀ d va, t.pte d va = none ↔ s.pte d va = none

theorem Unmaps.refl (s : Core) : Unmaps s s := ⟨rfl, rfl, rfl, fun _ => Iff.rfl, fun _ _ => Iff.rfl⟩

theorem Unmaps.trans {u : Core} (h : Unmaps s t) (h' : Unmaps t u) : Unmaps s u :=
  ⟨h'.procs.trans h.procs, h'.nextpid.trans h.nextpid, h'.nextDir.trans h.nextDir,
    fun d => (h'.dirs d).trans (h.dirs d), fun d va => (h'.tables d va).trans (h.tables d va)⟩

theorem pte_setPte_eq_none (s : Core) (d va : Nat) (x : Pte) (d' va' : Nat) :
    (s.setPte d va x).pte d' va' = none ↔ s.pte d' va' = none := by
  rw [pte_setPte]
  split
  · rename_i h
    rw [h.1, h.2, Option.map_eq_none_iff]
  · rfl

theorem unmap_unmaps (s : Core) (d va : Nat) (x : Pte) (pid : Nat) :
    Unmaps s (unmap s d va x pid) := by
  unfold unmap
  obtain ⟨m, hm⟩ := freePage_eq s (va ||| pid) true
  rw [hm]
  exact ⟨rfl, rfl, rfl, fun d' => dirs_setPte s d va Pte.zero d',
    fun d' va' => pte_setPte_eq_none s d va Pte.zero d' va'⟩

/-- The first entry under an identifier goes, from the first part if it has one. -/
theorem eraseP_split (q₂ : List Entry) (k : Nat) (hnd : (q₁.map Entry.key).Nodup) :
    ∃ q₁' q₂' : List Entry, List.Sublist q₁' q₁ ∧ List.Sublist q₂' q₂ ∧
      ((q₁ ++ q₂).eraseP fun e => e.key = k) = q₁' ++ q₂' ∧ ∀ e ∈ q₁', e.key ≠ k := by
  rw [List.eraseP_append]
  split
  · exact ⟨_, q₂, List.eraseP_sublist, List.Sublist.refl _, rfl,
      fun e he => key_ne_of_mem_eraseP hnd he⟩
  · rename_i hany
    refine ⟨q₁, _, List.Sublist.refl _, List.eraseP_sublist, rfl, ?_⟩
    intro e he hk
    apply hany
    rw [List.any_eq_true]
    exact ⟨e, he, by simpa using hk⟩

theorem Split.unmap (h : Split own d q₁ q₂ s) (hown : own pid d) (va : Nat) (x : Pte) :
    ∃ q₁' q₂', List.Sublist q₁' q₁ ∧ List.Sublist q₂' q₂ ∧
      Split own d q₁' q₂' (unmap s d va x pid) ∧ ∀ e ∈ q₁', ¬ (e.dir = d ∧ e.va = va) := by
  obtain ⟨q₁', q₂', hsub₁, hsub₂, heq, hkey⟩ := eraseP_split q₂ (va ||| pid) h.nodup₁
  have hgone : ∀ e ∈ q₁', ¬ (e.dir = d ∧ e.va = va) := by
    rintro e he ⟨h1, h2⟩
    have hmem : e ∈ s.pgqueue := by
      rw [h.queue]
      exact List.mem_append_left _ (hsub₁.mem he)
    apply hkey e he
    rw [(h.entry e hmem).key_eq h.toBase hown h1, h2]
  refine ⟨q₁', q₂', hsub₁, hsub₂, ?_, hgone⟩
  unfold Vm.unmap
  obtain ⟨m, hm⟩ := freePage_eq s (va ||| pid) true
  rw [hm]
  refine ⟨⟨?_, h.owner, h.small, ?_, ?_⟩, ?_, ?_, h.nodup₁.sublist (hsub₁.map _),
    h.nodup₂.sublist (hsub₂.map _), fun e he => h.other e (hsub₂.mem he)⟩
  · exact congrArg (· + 1) h.count
  · exact fun pid' d' h1 hn => h.live pid' d' h1 ((dirs_setPte s d va Pte.zero d').mp hn)
  · exact fun d' hd' => (dirs_setPte s d va Pte.zero d').mpr (h.fresh d' hd')
  · change s.pgqueue.eraseP _ = _
    rw [h.queue, heq]
  · intro e he
    change e ∈ s.pgqueue.eraseP _ at he
    refine (h.entry e (List.mem_of_mem_eraseP he)).mono ?_
    intro hp
    refine present_setPte_of_ne (s := s) hp ?_
    rw [h.queue, heq] at he
    rcases List.mem_append.mp he with he | he
    · exact hgone e he
    · exact fun hc => h.other e (hsub₂.mem he) hc.1

theorem Sound.unmap (h : Sound own s) (hown : own pid d) (va : Nat) (x : Pte) :
    Sound own (unmap s d va x pid) := by
  obtain ⟨q₁, q₂, -, hsub, hsp, -⟩ := (h.split d).unmap hown va x
  have hnil : q₂ = [] := List.sublist_nil.mp hsub
  subst hnil
  exact hsp.sound (by simp)

/-! ### The loop -/

/-- A table covers `NPTENTRIES` pages. -/
def TABSIZE : Nat := NPTENTRIES * PGSIZE

theorem pte_eq_none_of_pdx {va va' : Nat} (h : pdx va = pdx va') (hp : s.pte d va = none) :
    s.pte d va' = none := by
  unfold Core.pte at *
  cases hD : s.dirs d with
  | none => rfl
  | some D =>
    rw [hD] at hp
    simpa [h] using hp

/-- The address at which the walk stands is in a table, or is where a table would
    start. -/
def Walks (s : Core) (d i : Nat) : Prop := TABSIZE ∣ i ∨ s.pte d i ≠ none

theorem Walks.next {i : Nat} (hi : PGSIZE ∣ i) (h : s.pte d i ≠ none) : Walks s d (i + PGSIZE) := by
  by_cases hd : TABSIZE ∣ i + PGSIZE
  · exact Or.inl hd
  · refine Or.inr fun hn => h (pte_eq_none_of_pdx ?_ hn)
    unfold pdx
    unfold TABSIZE at hd
    unfold NPTENTRIES PGSIZE at *
    omega

theorem Walks.skip {i : Nat} (h : Walks s d i) (hn : s.pte d i = none) :
    Walks s d (i + (NPTENTRIES - 1) * PGSIZE + PGSIZE) ∧
      ∀ va, i ≤ va → Present s d va → i + (NPTENTRIES - 1) * PGSIZE + PGSIZE ≤ va := by
  have hd : TABSIZE ∣ i := h.resolve_right (fun hc => hc hn)
  constructor
  · left
    unfold TABSIZE NPTENTRIES PGSIZE at *
    omega
  · rintro va hle ⟨x, hx, -⟩
    by_contra hlt
    have hpdx : pdx i = pdx va := by
      unfold pdx
      unfold TABSIZE at hd
      unfold NPTENTRIES PGSIZE at *
      omega
    rw [pte_eq_none_of_pdx hpdx hn] at hx
    cases hx

theorem deallocLoop_unmaps (d startva pid k : Nat) :
    ∀ (i : Nat) (s : Core), Unmaps s (deallocLoop d startva pid k i s) := by
  induction k with
  | zero => exact fun _ s => Unmaps.refl s
  | succ k ih =>
    intro i s
    unfold deallocLoop
    split
    · exact Unmaps.refl s
    · split
      · exact ih _ s
      · split
        · exact (unmap_unmaps s d i _ pid).trans (ih _ _)
        · exact ih _ s

theorem deallocLoop_spec (startva : Nat) (hown : own pid d) (k : Nat) :
    ∀ {i : Nat} {s : Core} {q₁ q₂ : List Entry}, PGSIZE ∣ i → Split own d q₁ q₂ s →
      ∃ q₁' q₂', List.Sublist q₁' q₁ ∧ List.Sublist q₂' q₂ ∧
        Split own d q₁' q₂' (deallocLoop d startva pid k i s) ∧
        (Walks s d i → (∀ e ∈ q₁, e.dir = d → i ≤ e.va) → startva ≤ i + k * PGSIZE →
          ∀ e ∈ q₁', e.dir = d → startva ≤ e.va) := by
  induction k with
  | zero =>
    intro i s q₁ q₂ _ h
    refine ⟨q₁, q₂, List.Sublist.refl _, List.Sublist.refl _, h, ?_⟩
    intro _ hge hle e he hd
    have := hge e he hd
    omega
  | succ k ih =>
    intro i s q₁ q₂ hi h
    have hfuel : startva ≤ i + (k + 1) * PGSIZE ↔ startva ≤ i + PGSIZE + k * PGSIZE := by
      rw [Nat.succ_mul]
      omega
    have hnext : PGSIZE ∣ i + PGSIZE := Dvd.dvd.add hi (dvd_refl _)
    have hva : ∀ e ∈ q₁, PGSIZE ∣ e.va ∧ Present s e.dir e.va := by
      intro e he
      obtain ⟨-, -, -, h1, h2, -⟩ := h.entry e (by rw [h.queue]; exact List.mem_append_left _ he)
      exact ⟨h2, h1⟩
    have hstep : ∀ e ∈ q₁, e.va ≠ i → i ≤ e.va → i + PGSIZE ≤ e.va := by
      intro e he hne hle
      have := (hva e he).1
      unfold PGSIZE at *
      omega
    unfold deallocLoop
    split
    · rename_i hge
      refine ⟨q₁, q₂, List.Sublist.refl _, List.Sublist.refl _, h, ?_⟩
      exact fun _ hle _ e he hd => hge.trans (hle e he hd)
    · split
      · rename_i hnone
        have hskip : PGSIZE ∣ i + (NPTENTRIES - 1) * PGSIZE + PGSIZE :=
          Dvd.dvd.add (Dvd.dvd.add hi (Dvd.intro_left _ rfl)) (dvd_refl _)
        obtain ⟨q₁', q₂', hsub₁, hsub₂, hsp, hgone⟩ := ih hskip h
        refine ⟨q₁', q₂', hsub₁, hsub₂, hsp, ?_⟩
        intro hw hle hf
        obtain ⟨hw', hfar⟩ := hw.skip hnone
        refine hgone hw' ?_ ?_
        · intro e he hd
          refine hfar e.va (hle e he hd) ?_
          rw [← hd]
          exact (hva e he).2
        · have := hfuel.mp hf
          omega
      · rename_i x hx
        have hsome : s.pte d i ≠ none := by simp [hx]
        split
        · obtain ⟨q₃, q₄, hsub₃, hsub₄, hsp, hgone⟩ := h.unmap hown i x
          have hun := unmap_unmaps s d i x pid
          obtain ⟨q₁', q₂', hsub₁, hsub₂, hsp', hgone'⟩ := ih hnext hsp
          refine ⟨q₁', q₂', hsub₁.trans hsub₃, hsub₂.trans hsub₄, hsp', ?_⟩
          intro _ hle hf
          refine hgone' (Walks.next hi fun hc => hsome ((hun.tables d i).mp hc)) ?_ (hfuel.mp hf)
          intro e he hd
          exact hstep e (hsub₃.mem he) (fun hc => hgone e he ⟨hd, hc⟩) (hle e (hsub₃.mem he) hd)
        · rename_i hp
          obtain ⟨q₁', q₂', hsub₁, hsub₂, hsp', hgone'⟩ := ih hnext h
          refine ⟨q₁', q₂', hsub₁, hsub₂, hsp', ?_⟩
          intro _ hle hf
          refine hgone' (Walks.next hi hsome) ?_ (hfuel.mp hf)
          intro e he hd
          refine hstep e he ?_ (hle e he hd)
          rintro rfl
          obtain ⟨y, hy, hyp⟩ := (hva e he).2
          rw [hd, hx] at hy
          cases hy
          exact hp hyp

theorem deallocuvm_spec {startva endva r : Nat} (hown : own pid d) (h : Split own d q₁ q₂ s)
    (ht : deallocuvm s d startva endva pid = .ok (t, r)) :
    ∃ q₁' q₂', List.Sublist q₁' q₁ ∧ List.Sublist q₂' q₂ ∧ Split own d q₁' q₂' t ∧ Unmaps s t ∧
      r ≤ startva ∧ (endva = 0 → ∀ e ∈ q₁', e.dir = d → startva ≤ e.va) := by
  unfold deallocuvm at ht
  split at ht
  · rename_i hle
    cases ht
    exact ⟨q₁, q₂, List.Sublist.refl _, List.Sublist.refl _, h, Unmaps.refl _, Nat.le_refl _,
      fun h0 e _ _ => by omega⟩
  · rename_i hlt
    split at ht
    · cases ht
    · cases ht
      obtain ⟨q₁', q₂', hsub₁, hsub₂, hsp, hgone⟩ :=
        deallocLoop_spec startva hown (startva / PGSIZE + 1) (pgroundup_dvd endva) h
      refine ⟨q₁', q₂', hsub₁, hsub₂, hsp, deallocLoop_unmaps _ _ _ _ _ _, by omega, ?_⟩
      rintro rfl
      have h0 : pgroundup 0 = 0 := by decide
      rw [h0] at hgone
      refine hgone (Or.inl (dvd_zero _)) (fun e _ _ => Nat.zero_le _) ?_
      unfold PGSIZE
      omega

/-! ### A whole directory -/

/-- The owners, without directory `d`. -/
def disown (own : Nat → Nat → Prop) (d : Nat) (pid' d' : Nat) : Prop := own pid' d' ∧ d' ≠ d

/-- Frames were freed and nothing else happened. -/
def Frees (s t : Core) : Prop :=
  t = { s with mem := t.mem, freelist := t.freelist, nfreeblock := t.nfreeblock } ∧
    (s.nfreeblock = s.freelist.length → t.nfreeblock = t.freelist.length)

theorem Frees.kfree (h : Frees s t) (f : Nat) : Frees s (kfree t f) := by
  constructor
  · rw [h.1]
    rfl
  · intro hc
    exact congrArg (· + 1) (h.2 hc)

theorem freeTables_frees (D : Dir) (s : Core) : Frees s (freeTables D s) := by
  unfold freeTables
  refine List.foldlRecOn _ _ ⟨rfl, id⟩ ?_
  intro u hu i _
  split
  · exact hu
  · exact hu.kfree _

/-- `freeuvm` leaves no entry of the directory. -/
theorem freeuvm_spec (hown : own pid d) (h : Split own d q₁ q₂ s) (ht : freeuvm s d pid = .ok t) :
    ∃ q₁' q₂', List.Sublist q₁' q₁ ∧ List.Sublist q₂' q₂ ∧
      Split (disown own d) d q₁' q₂' t ∧ t.procs = s.procs ∧ t.nextpid = s.nextpid := by
  unfold freeuvm at ht
  obtain ⟨⟨u, r⟩, hu, ht⟩ := bind_eq_ok.mp ht
  obtain ⟨q₁', q₂', hsub₁, hsub₂, hsp, hun, -, hgone⟩ := deallocuvm_spec hown h hu
  dsimp only at ht
  split at ht
  · cases ht
  · rename_i D hD
    cases ht
    have hfr := (freeTables_frees D u).kfree D.frame
    revert hfr
    generalize kfree (freeTables D u) D.frame = v
    intro hfr
    obtain ⟨hv, hc⟩ := hfr
    have hdirs : v.dirs = u.dirs := by rw [hv]
    have hq : v.pgqueue = u.pgqueue := by rw [hv]
    have hnext : v.nextDir = u.nextDir := by rw [hv]
    have hne : ∀ e ∈ u.pgqueue, e.dir ≠ d := by
      intro e he hd
      obtain ⟨-, -, -, -, -, hlt⟩ := hsp.entry e he
      rw [hsp.queue] at he
      rcases List.mem_append.mp he with he | he
      · have := hgone rfl e he hd
        omega
      · exact hsp.other e he hd
    refine ⟨q₁', q₂', hsub₁, hsub₂, ⟨⟨hc hsp.count, ?_, ?_, ?_, ?_⟩, hq.trans hsp.queue, ?_,
      hsp.nodup₁, hsp.nodup₂, hsp.other⟩, ?_, ?_⟩
    · exact fun pid1 pid2 d' h1 h2 => hsp.owner pid1 pid2 d' h1.1 h2.1
    · exact fun pid' d' h1 => hsp.small pid' d' h1.1
    · intro pid' d' h1
      change Function.update v.dirs d none d' ≠ none
      rw [Function.update_of_ne h1.2, hdirs]
      exact hsp.live pid' d' h1.1
    · intro d' hd'
      change Function.update v.dirs d none d' = none
      by_cases hdd : d' = d
      · rw [hdd, Function.update_self]
      · rw [Function.update_of_ne hdd, hdirs]
        exact hsp.fresh d' (hnext ▸ hd')
    · intro e he
      change e ∈ v.pgqueue at he
      rw [hq] at he
      obtain ⟨pid', h1, h2, ⟨x, hx, hp⟩, h4⟩ := hsp.entry e he
      refine ⟨pid', ⟨h1, hne e he⟩, h2, ⟨x, ?_, hp⟩, h4⟩
      simpa only [Core.pte, Core.dropDir, Function.update_of_ne (hne e he), hdirs] using hx
    · change v.procs = s.procs
      rw [hv]
      exact hun.procs
    · change v.nextpid = s.nextpid
      rw [hv]
      exact hun.nextpid

end Yonix.Vm
