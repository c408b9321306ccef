/-
  Yonix/Vm/Threads.lean
  =====================
  **Threads and the size of the memory they share (`lwp_create`, `lwp_join`, `procgrow`).**

  `lwp_create` gives the new thread the page directory of its creator and a copy of
  the size.  Every later `sbrk` changes the size of the caller's slot only, while the
  pages it maps or frees are those of the shared directory.  So the sizes of the
  threads of one directory stay equal as long as nobody resizes memory that another
  live slot shares, and then `allocuvm` meets no page that is mapped already.

  The labels are those of `Vm/Model.lean` with the two calls above.  The stores of
  `lwp_create` to the stack of the new thread change no page table; a fault that they
  raise is a label of its own.
-/
import Yonix.Vm.Marks

namespace Yonix.Vm

/-! ### The two calls -/

/-- `lwp_create`, with the memory part of `procalloc`; the second component is the
    process identifier of the thread. -/
def lwpCreate (s : Core) (P : Proc) : Except Stop (Core × Option Nat) := do
  let pid := s.nextpid
  match ← kalloc { s with nextpid := pid + 1 } with
  | (s, none) => return (s, none)
  | (s, some k) => return (s.setProc pid (some ⟨P.page, P.size, k, false⟩), some pid)

/-- What `lwp_join` does with a thread that is a zombie: the directory stays. -/
def lwpJoin (s : Core) (pid : Nat) (P : Proc) : Core := (kfree s P.kstack).setProc pid none

/-- Memory, and which process identifiers belong to threads (`p_procp` is 0). -/
structure Threads where
  core : Core
  lwp : Nat → Bool

inductive ThreadAct where
  | vm (a : Act)
  | lwpCreate (pid : Nat)
  | lwpJoin (pid : Nat)

def threadAct (s : Threads) : ThreadAct → Except Stop Threads
  | .vm a => do
    let c ← act s.core a
    return { s with core := c }
  | .lwpCreate pid =>
    match s.core.procs pid with
    | none => .error .notCalled
    | some P =>
      if P.zombie then .error .notCalled
      else do
        match ← lwpCreate s.core P with
        | (c, none) => return { s with core := c }
        | (c, some pid') => return ⟨c, Function.update s.lwp pid' true⟩
  | .lwpJoin pid =>
    match s.core.procs pid with
    | none => .error .notCalled
    | some P =>
      if P.zombie ∧ s.lwp pid then .ok { s with core := lwpJoin s.core pid P }
      else .error .notCalled

/-! ### Live slots -/

variable {s t u : Core} {d va pid : Nat} {S S' : Nat → Nat → Prop}

/-- A slot that is neither free nor a zombie. -/
def Live (s : Core) (pid : Nat) (P : Proc) : Prop := s.procs pid = some P ∧ P.zombie = false

/-- Every live slot knows the size of its directory, so those that share one agree. -/
structure Agree (s : Core) : Prop where
  fits : ∀ pid P, Live s pid P → Fits s P.page P.size
  size : ∀ pid pid' P P', Live s pid P → Live s pid' P' → P.page = P'.page → P.size = P'.size

theorem Agree.marks (h : Agree s) (hm : Marks S s t)
    (hS : ∀ pid P va, Live s pid P → S P.page va → va < P.size) : Agree t := by
  have hlive : ∀ pid P, Live t pid P → Live s pid P := by
    intro pid P hP
    unfold Live at *
    rwa [hm.procs] at hP
  refine ⟨?_, ?_⟩
  · intro pid P hP
    exact (h.fits pid P (hlive pid P hP)).marks hm fun va _ => hS pid P va (hlive pid P hP)
  · intro pid pid' P P' hP hP'
    exact h.size pid pid' P P' (hlive pid P hP) (hlive pid' P' hP')

theorem Agree.keep (h : Agree s) (hm : Marks noPage s t) : Agree t :=
  h.marks hm fun _ _ _ _ hf => hf.elim

/-- A step that only touches new directories. -/
theorem Agree.marks_new (h : Agree s) (hm : Marks (fun d' _ => s.nextDir ≤ d') s t) : Agree t := by
  refine h.marks hm fun pid P va hP hge => ?_
  have := (h.fits pid P hP).known
  omega

theorem live_setProc {Q : Option Proc} {pid' : Nat} {P : Proc} (h : Live (s.setProc pid Q) pid' P) :
    pid' = pid ∧ Q = some P ∧ P.zombie = false ∨ pid' ≠ pid ∧ Live s pid' P := by
  obtain ⟨h1, h2⟩ := h
  rw [procs_setProc] at h1
  split at h1
  · rename_i hpid
    exact Or.inl ⟨hpid, h1, h2⟩
  · rename_i hpid
    exact Or.inr ⟨hpid, h1, h2⟩

theorem Fits.setProc {sz : Nat} {Q : Option Proc} (h : Fits s d sz) : Fits (s.setProc pid Q) d sz :=
  ⟨h.known, h.within, h.full⟩

/-- A slot is given a new value; `h` need not hold for its old one. -/
theorem Agree.setProc {Q : Option Proc}
    (hfit : ∀ pid' P, pid' ≠ pid → Live s pid' P → Fits s P.page P.size)
    (hsize : ∀ pid' pid'' P P', pid' ≠ pid → pid'' ≠ pid → Live s pid' P → Live s pid'' P' →
      P.page = P'.page → P.size = P'.size)
    (hQ : ∀ P, Q = some P → P.zombie = false → Fits s P.page P.size ∧
      ∀ pid' P', pid' ≠ pid → Live s pid' P' → P.page = P'.page → P.size = P'.size) :
    Agree (s.setProc pid Q) := by
  refine ⟨?_, ?_⟩
  · intro pid' P hP
    rcases live_setProc hP with ⟨-, hq, hz⟩ | ⟨hne, hP⟩
    · exact (hQ P hq hz).1.setProc
    · exact (hfit pid' P hne hP).setProc
  · intro pid' pid'' P P' hP hP' hpage
    rcases live_setProc hP with ⟨-, hq, hz⟩ | ⟨hne, hP⟩
    · rcases live_setProc hP' with ⟨-, hq', -⟩ | ⟨hne', hP'⟩
      · rw [hq] at hq'
        cases hq'
        rfl
      · exact (hQ P hq hz).2 pid'' P' hne' hP' hpage
    · rcases live_setProc hP' with ⟨-, hq', hz'⟩ | ⟨hne', hP'⟩
      · exact ((hQ P' hq' hz').2 pid' P hne hP hpage.symm).symm
      · exact hsize pid' pid'' P P' hne hne' hP hP' hpage

theorem Agree.setProc_of {Q : Option Proc} (h : Agree s)
    (hQ : ∀ P, Q = some P → P.zombie = false → Fits s P.page P.size ∧
      ∀ pid' P', pid' ≠ pid → Live s pid' P' → P.page = P'.page → P.size = P'.size) :
    Agree (s.setProc pid Q) :=
  Agree.setProc (fun pid' P _ => h.fits pid' P) (fun pid' pid'' P P' _ _ => h.size pid' pid'' P P') hQ

/-! ### The calls -/

/-- Another live slot has the same directory. -/
def Shared (s : Core) (pid : Nat) (P : Proc) : Prop :=
  ∃ pid' P', pid' ≠ pid ∧ Live s pid' P' ∧ P'.page = P.page

/-- The new end that `procgrow` computes. -/
def newEnd (P : Proc) (n : Int) : Nat := ((P.size + n) % 2 ^ 32).toNat

/-- The increments that change the size: the new end is on the right side of the old one,
    and is neither 0 nor in the kernel's half. -/
def Resizes (P : Proc) (n : Int) : Prop :=
  0 < n ∧ P.size < newEnd P n ∧ newEnd P n < KERNBASE ∨ n < 0 ∧ 0 < newEnd P n ∧ newEnd P n < P.size

theorem live_marks (hm : Marks S s t) {P : Proc} : Live t pid P ↔ Live s pid P := by
  unfold Live
  rw [hm.procs]

/-- The pages above the size of one directory came and went. -/
theorem Agree.refit {P : Proc} (h : Agree s) (hP : Live s pid P)
    (hm : Marks (fun d' va' => d' = P.page ∧ P.size ≤ va') s t) (hfit : Fits t P.page P.size) :
    Agree t := by
  refine ⟨?_, ?_⟩
  · intro pid' P' hP'
    have hP'' := (live_marks hm).mp hP'
    by_cases hpage : P'.page = P.page
    · rw [hpage, h.size pid' pid P' P hP'' hP hpage]
      exact hfit
    · exact (h.fits pid' P' hP'').marks hm fun va _ hin => absurd hin.1 hpage
  · intro pid' pid'' P' P'' h1 h2
    exact h.size pid' pid'' P' P'' ((live_marks hm).mp h1) ((live_marks hm).mp h2)

theorem Agree.resize {P : Proc} {sz : Nat} (h : Agree s) (hP : Live s pid P)
    (hm : Marks (fun d' va' => d' = P.page ∧ P.size ≤ va') s t) (hfit : Fits t P.page sz)
    (hsh : sz ≠ P.size → ¬ Shared s pid P) : Agree (t.setProc pid (some { P with size := sz })) := by
  by_cases hsz : sz = P.size
  · subst hsz
    refine (h.refit hP hm hfit).setProc_of ?_
    rintro Q ⟨⟩ _
    refine ⟨hfit, ?_⟩
    intro pid' P' _ hP' hpage
    exact h.size pid pid' P P' hP ((live_marks hm).mp hP') hpage
  · have hother : ∀ pid' P', pid' ≠ pid → Live t pid' P' → P'.page ≠ P.page := by
      intro pid' P' hne hP' hpage
      exact hsh hsz ⟨pid', P', hne, (live_marks hm).mp hP', hpage⟩
    refine Agree.setProc ?_ ?_ ?_
    · intro pid' P' hne hP'
      exact (h.fits pid' P' ((live_marks hm).mp hP')).marks hm
        fun va _ hin => absurd hin.1 (hother pid' P' hne hP')
    · intro pid' pid'' P' P'' _ _ h1 h2
      exact h.size pid' pid'' P' P'' ((live_marks hm).mp h1) ((live_marks hm).mp h2)
    · rintro Q ⟨⟩ _
      refine ⟨hfit, ?_⟩
      intro pid' P' hne hP' hpage
      exact absurd hpage.symm (hother pid' P' hne hP')

theorem allocuvm_size {startva endva sz : Nat} (ht : allocuvm s d startva endva pid = .ok (t, sz)) :
    sz = 0 ∨ sz = startva ∨ sz = endva ∧ startva ≤ endva ∧ endva < KERNBASE := by
  unfold allocuvm at ht
  split at ht
  · cases ht
    exact Or.inl rfl
  · split at ht
    · cases ht
      exact Or.inr (Or.inl rfl)
    · obtain ⟨⟨u, o⟩, hu, ht⟩ := bind_eq_ok.mp ht
      cases o with
      | none =>
        cases ht
        exact Or.inr (Or.inr ⟨rfl, by omega, by omega⟩)
      | some i =>
        obtain ⟨⟨v, sz'⟩, hv, ht⟩ := bind_eq_ok.mp ht
        cases ht
        exact Or.inl rfl

theorem deallocuvm_size {startva endva sz : Nat}
    (ht : deallocuvm s d startva endva pid = .ok (t, sz)) :
    sz = startva ∨ sz = endva ∧ endva < startva := by
  unfold deallocuvm at ht
  split at ht
  · cases ht
    exact Or.inl rfl
  · split at ht
    · cases ht
    · cases ht
      exact Or.inr ⟨rfl, by omega⟩

theorem Agree.procgrow {P : Proc} {n : Int} (h : Agree s) (hP : Live s pid P)
    (hsh : Resizes P n → ¬ Shared s pid P) (ht : procgrow s pid P n = .ok t) : Agree t := by
  have hfit := h.fits pid P hP
  unfold Vm.procgrow at ht
  dsimp only at ht
  split at ht
  · rename_i hn
    obtain ⟨⟨u, sz⟩, hu, ht⟩ := bind_eq_ok.mp ht
    obtain ⟨hfit', hm⟩ := hfit.allocuvm hu
    dsimp only at ht
    split at ht
    · rename_i h0
      cases ht
      rw [if_pos h0] at hfit'
      exact h.refit hP hm hfit'
    · rename_i h0
      cases ht
      rw [if_neg h0] at hfit'
      refine h.resize hP hm hfit' fun hne => hsh (Or.inl ⟨hn, ?_⟩)
      rcases allocuvm_size hu with hsz | hsz | ⟨rfl, hle, hlt⟩
      · exact absurd hsz h0
      · exact absurd hsz hne
      · exact ⟨lt_of_le_of_ne hle (Ne.symm hne), hlt⟩
  · split at ht
    · rename_i hn
      obtain ⟨⟨u, sz⟩, hu, ht⟩ := bind_eq_ok.mp ht
      dsimp only at ht
      split at ht
      · cases ht
        exact h.keep (deallocuvm_marks hu)
      · rename_i h0
        cases ht
        refine h.resize hP (deallocuvm_marks hu) (hfit.deallocuvm hu) fun hne => hsh (Or.inr ⟨hn, ?_⟩)
        rcases deallocuvm_size hu with hsz | ⟨rfl, hlt⟩
        · exact absurd hsz hne
        · exact ⟨Nat.pos_of_ne_zero h0, hlt⟩
    · cases ht
      exact h

theorem Agree.fork {P : Proc} (h : Agree s) (hP : Live s pid P) (ht : fork s pid P = .ok t) :
    Agree t := by
  obtain ⟨⟨u, o⟩, hu, ht⟩ := bind_eq_ok.mp ht
  have hsu : ∀ {S}, Marks S s u := by
    intro S
    have h0 : Marks S s { s with nextpid := s.nextpid + 1 } := Marks.of_dirs rfl rfl rfl
    exact h0.trans (kalloc_marks hu)
  have hu' : Agree u := h.keep hsu
  have hPu : Live u pid P := (live_marks (S := noPage) hsu).mpr hP
  cases o with
  | none =>
    cases ht
    exact hu'
  | some k =>
    obtain ⟨⟨v, o'⟩, hv, ht⟩ := bind_eq_ok.mp ht
    obtain ⟨hm, hnew⟩ := copyuvm_marks hv
    have hv' : Agree v := by
      refine hu'.marks hm ?_
      rintro pid' P' va hP' (⟨hpage, hlt⟩ | hge)
      · rwa [hu'.size pid' pid P' P hP' hPu hpage]
      · have := (hu'.fits pid' P' hP').known
        omega
    cases o' with
    | none =>
      cases ht
      exact hv'.keep (kfree_marks _)
    | some td =>
      cases ht
      obtain ⟨hge, hfit⟩ := hnew td rfl
      refine hv'.setProc_of ?_
      rintro Q ⟨⟩ _
      refine ⟨hfit, ?_⟩
      intro pid' P' _ hP' hpage
      have := (hu'.fits pid' P' ((live_marks hm).mp hP')).known
      dsimp only at hpage
      omega

theorem Agree.exec {P : Proc} {img : Image} (h : Agree s)
    (ht : exec s pid P img = .ok t) : Agree t := by
  unfold Vm.exec at ht
  split at ht
  · cases ht
    exact h
  · obtain ⟨⟨u, o⟩, hu, ht⟩ := bind_eq_ok.mp ht
    obtain ⟨hm, hnew⟩ := setupkvm_marks hu
    have hu' : Agree u := h.keep hm
    cases o with
    | none =>
      cases ht
      exact hu'
    | some d =>
      obtain ⟨hge, hlt, hfree⟩ := hnew d rfl
      have hempty : Fits u d 0 :=
        ⟨hlt, fun va _ hmk => (hfree va hmk).elim, fun _ va _ hlt => by omega⟩
      obtain ⟨⟨v, o'⟩, hv, ht⟩ := bind_eq_ok.mp ht
      obtain ⟨hm', hfit⟩ := buildImage_marks hv hempty
      have hsv : Marks (fun d' _ => s.nextDir ≤ d') s v :=
        hm.of_none.trans (hm'.mono fun d' _ hd => hd ▸ hge)
      have hv' : Agree v := h.marks_new hsv
      cases o' with
      | none => exact hv'.keep (freeuvm_marks ht)
      | some sz =>
        refine Agree.keep (hv'.setProc_of ?_) (freeuvm_marks ht)
        rintro Q ⟨⟩ _
        refine ⟨hfit sz rfl, ?_⟩
        intro pid' P' _ hP' hpage
        have := (h.fits pid' P' ((live_marks hsv).mp hP')).known
        dsimp only at hpage
        omega

theorem Agree.call {P : Proc} {c : Call} (h : Agree s) (hP : Live s pid P)
    (hsh : ∀ n, c = .sbrk n → Resizes P n → ¬ Shared s pid P) (ht : call s pid P c = .ok t) :
    Agree t := by
  have hfault : ∀ va, pgfltHandle s pid P va = .ok t → Agree t := by
    intro va ht
    unfold pgfltHandle at ht
    dsimp only at ht
    split at ht
    · rename_i hlt
      refine h.marks (pageIn_marks ht) ?_
      rintro pid' P' va' hP' ⟨hpage, rfl⟩
      rwa [h.size pid' pid P' P hP' hP hpage]
    · cases ht
  cases c with
  | fork => exact h.fork hP ht
  | sbrk n => exact h.procgrow hP (hsh n rfl) ht
  | exec img => exact h.exec ht
  | exit =>
    cases ht
    refine h.setProc_of ?_
    rintro Q ⟨⟩ hz
    cases hz
  | fault va =>
    unfold Vm.call at ht
    dsimp only at ht
    split at ht
    · split at ht
      · cases ht
      · exact hfault va ht
    · exact hfault va ht
  | store va b =>
    unfold Vm.call Vm.store at ht
    dsimp only at ht
    split at ht
    · cases ht
    · rename_i x hx
      split at ht
      · rename_i hp
        cases ht
        have h1 : Marks noPage s (s.setMem x.frame
            ((s.mem x.frame).patch (va - pgrounddown va) (fun _ => b) 1)) :=
          Marks.of_dirs rfl rfl rfl
        refine h.keep (h1.trans (Marks.setPte _ fun _ hmk => hmk ?_))
        exact (marked_of_pte (s := s.setMem _ _) hx).mpr hp.1
      · cases ht

/-! ### Runs -/

/-- Nobody resizes memory that another live slot shares. -/
def Alone (s : Threads) : ThreadAct → Prop
  | .vm (.call pid (.sbrk n)) =>
    ∀ P, s.core.procs pid = some P → Resizes P n → ¬ Shared s.core pid P
  | _ => True

theorem Agree.act {a : Act} (h : Agree s)
    (hsh : ∀ pid n, a = .call pid (.sbrk n) → ∀ P, s.procs pid = some P → Resizes P n →
      ¬ Shared s pid P) (ht : act s a = .ok t) : Agree t := by
  cases a with
  | call pid c =>
    unfold Vm.act at ht
    dsimp only at ht
    split at ht
    · rename_i P hP
      split at ht
      · cases ht
      · rename_i hz
        refine h.call ⟨hP, by simpa using hz⟩ ?_ ht
        rintro n rfl
        exact hsh pid n rfl P hP
    · cases ht
  | wait pid =>
    unfold Vm.act at ht
    dsimp only at ht
    split at ht
    · rename_i P hP
      split at ht
      · obtain ⟨u, hu, ht⟩ := bind_eq_ok.mp ht
        cases ht
        refine (h.keep ((kfree_marks _).trans (freeuvm_marks hu))).setProc_of ?_
        rintro Q ⟨⟩
      · cases ht
    · cases ht
  | readRef pid ref =>
    cases ht
    exact h.keep (Marks.of_dirs rfl rfl rfl)
  | kalloc =>
    obtain ⟨⟨u, o⟩, hu, ht⟩ := bind_eq_ok.mp ht
    cases o with
    | none =>
      cases ht
      exact h.keep (kalloc_marks hu)
    | some f =>
      cases ht
      exact h.keep ((kalloc_marks hu).trans (Marks.of_dirs rfl rfl rfl))
  | kfree f =>
    unfold Vm.act at ht
    dsimp only at ht
    split at ht
    · cases ht
      have h1 : Marks noPage (Vm.kfree s f) { Vm.kfree s f with kheld := s.kheld.erase f } :=
        Marks.of_dirs rfl rfl rfl
      exact h.keep ((kfree_marks f).trans h1)
    · cases ht
  | allocSlab => exact h.keep (allocSlab_marks ht)
  | freeSlab =>
    cases ht
    exact h.keep (Marks.of_dirs rfl rfl rfl)

theorem Agree.threadAct {s t : Threads} {a : ThreadAct} (h : Agree s.core) (hsh : Alone s a)
    (ht : threadAct s a = .ok t) : Agree t.core := by
  cases a with
  | vm a =>
    obtain ⟨c, hc, ht⟩ := bind_eq_ok.mp ht
    cases ht
    refine h.act ?_ hc
    rintro pid n rfl
    exact hsh
  | lwpCreate pid =>
    unfold Vm.threadAct at ht
    dsimp only at ht
    split at ht
    · cases ht
    · rename_i P hP
      split at ht
      · cases ht
      · rename_i hz
        have hlive : Live s.core pid P := ⟨hP, by simpa using hz⟩
        obtain ⟨⟨c, o⟩, hc, ht⟩ := bind_eq_ok.mp ht
        obtain ⟨⟨u, k⟩, hu, hc⟩ := bind_eq_ok.mp hc
        have h0 : ∀ {S}, Marks S s.core { s.core with nextpid := s.core.nextpid + 1 } :=
          Marks.of_dirs rfl rfl rfl
        have hsu : Marks noPage s.core u := h0.trans (kalloc_marks hu)
        have hu' : Agree u := h.keep hsu
        cases k with
        | none =>
          cases hc
          cases ht
          exact hu'
        | some k =>
          cases hc
          cases ht
          refine hu'.setProc_of ?_
          rintro Q ⟨⟩ _
          have hPu : Live u pid P := (live_marks hsu).mpr hlive
          refine ⟨hu'.fits pid P hPu, ?_⟩
          intro pid' P' _ hP' hpage
          exact hu'.size pid pid' P P' hPu hP' hpage
  | lwpJoin pid =>
    unfold Vm.threadAct at ht
    dsimp only at ht
    split at ht
    · cases ht
    · split at ht
      · cases ht
        refine (h.keep (kfree_marks _)).setProc_of ?_
        rintro Q ⟨⟩
      · cases ht

/-! ### No page is mapped twice -/

/-- The computation does not end in the panic of `mappages`. -/
def NoDuplicate {α : Type} (x : Except Stop α) : Prop := x ≠ .error (.panic .duplicateMapping)

theorem NoDuplicate.bind {α β : Type} {x : Except Stop α} {f : α → Except Stop β}
    (hx : NoDuplicate x) (hf : ∀ a, x = .ok a → NoDuplicate (f a)) : NoDuplicate (x >>= f) := by
  intro herr
  rcases bind_error.mp herr with h | ⟨a, ha, h⟩
  · exact hx h
  · exact hf a ha h

theorem kalloc_noDuplicate (s : Core) : NoDuplicate (kalloc s) := by
  have hout : NoDuplicate (pageOut s) := by
    unfold pageOut
    split
    · intro h
      cases h
    · unfold pageOutEntry
      split
      · intro h
        cases h
      · split
        · intro h
          cases h
        · refine NoDuplicate.bind ?_ ?_
          · unfold allocSlot
            split <;> intro h <;> cases h
          · intro a _ h
            cases h
  unfold kalloc
  split
  · cases hp : pageOut s with
    | error e =>
      rw [hp] at hout
      intro h
      cases h
      exact hout rfl
    | ok u =>
      intro h
      cases h
  · intro h
    cases h

theorem addPage_noDuplicate (s : Core) (d va pid : Nat) : NoDuplicate (addPage s d va pid) := by
  refine NoDuplicate.bind ?_ ?_
  · unfold allocSlab
    split
    · refine (kalloc_noDuplicate s).bind ?_
      rintro ⟨u, o⟩ -
      cases o with
      | none =>
        intro h
        cases h
      | some f =>
        intro h
        cases h
    · intro h
      cases h
  · intro u _
    split <;> intro h <;> cases h

theorem mapPage_noDuplicate {f : Nat} {w u a : Bool} (h : ¬ Marked s d va) :
    NoDuplicate (mapPage s d va f w u a) := by
  refine NoDuplicate.bind ?_ ?_
  · unfold walkpgdir
    split
    · intro h
      cases h
    · split
      · intro h
        cases h
      · split
        · intro h
          cases h
        · refine (kalloc_noDuplicate s).bind ?_
          rintro ⟨v, o⟩ -
          cases o with
          | none =>
            intro h
            cases h
          | some f =>
            intro h
            cases h
  · rintro ⟨v, r⟩ hv
    cases r with
    | false =>
      intro h
      cases h
    | true =>
      dsimp only
      split
      · intro h
        cases h
      · rename_i x hx
        split
        · rename_i hp
          have hm : Marks noPage s v := (walkpgdir_marks hv).1
          rcases hm.marked d va ((marked_of_pte hx).mpr hp) with hmk | hf
          · exact absurd hmk h
          · exact hf.elim
        · intro h
          cases h

theorem allocLoop_noDuplicate {base : Nat} (l : List Nat) (hnd : l.Nodup) :
    ∀ {s : Core}, (∀ va ∈ l, ¬ Marked s d va) → NoDuplicate (allocLoop d base pid l s) := by
  induction l with
  | nil =>
    intro s _ h
    cases h
  | cons i l ih =>
    intro s hfree
    obtain ⟨hi, hnd⟩ := List.nodup_cons.mp hnd
    refine NoDuplicate.bind ?_ ?_
    · refine (kalloc_noDuplicate s).bind ?_
      rintro ⟨u, o⟩ hu
      cases o with
      | none =>
        intro h
        cases h
      | some f =>
        have hm : Marks noPage s (u.setMem f Bytes.zero) :=
          (kalloc_marks hu).trans (Marks.of_dirs rfl rfl rfl)
        refine (mapPage_noDuplicate ?_).bind ?_
        · intro hmk
          rcases hm.marked d i hmk with hmk | hf
          · exact hfree i List.mem_cons_self hmk
          · exact hf
        · rintro ⟨v, r⟩ -
          cases r with
          | false =>
            intro h
            cases h
          | true =>
            refine NoDuplicate.bind ?_ ?_
            · unfold addPageIf
              split
              · exact addPage_noDuplicate v d i pid
              · intro h
                cases h
            · intro w _ h
              cases h
    · rintro ⟨u, r⟩ hu
      cases r with
      | false =>
        intro h
        cases h
      | true =>
        obtain ⟨hm, -⟩ := allocPage_marks hu
        refine ih hnd ?_
        intro va hva hmk
        rcases hm.marked d va hmk with hmk | ⟨-, rfl⟩
        · exact hfree va (List.mem_cons_of_mem _ hva) hmk
        · exact hi hva

theorem deallocuvm_noDuplicate (s : Core) (d startva endva pid : Nat) :
    NoDuplicate (deallocuvm s d startva endva pid) := by
  unfold deallocuvm
  split
  · intro h
    cases h
  · split <;> intro h <;> cases h

/-- A directory that fits its size is grown without a clash. -/
theorem Fits.noDuplicate {startva endva : Nat} (h : Fits s d startva) :
    NoDuplicate (Vm.allocuvm s d startva endva pid) := by
  unfold Vm.allocuvm
  split
  · intro h
    cases h
  · split
    · intro h
      cases h
    · refine NoDuplicate.bind (allocLoop_noDuplicate _ (nodup_pages _ _) ?_) ?_
      · intro va hva hmk
        obtain ⟨hdvd, hge, -⟩ := mem_pages_iff.mp hva
        have := h.within va hdvd hmk
        have := le_pgroundup startva
        omega
      · rintro ⟨u, o⟩ -
        cases o with
        | none =>
          intro h
          cases h
        | some i =>
          refine (deallocuvm_noDuplicate u d i startva pid).bind ?_
          intro v _ h
          cases h

/-! ### Start-up -/

theorem Agree.boot {l : List Nat} {m : Nat} {init : List UInt8} (ht : boot l m init = .ok t) :
    Agree t ∧ ∀ pid P, t.procs pid = some P → pid = 1 := by
  have hempty : Sound (fun _ _ => False) { empty l m with nextpid := 2 } :=
    ⟨⟨rfl, by simp, by simp, by simp, fun _ _ => rfl⟩, by simp [empty], List.nodup_nil⟩
  obtain ⟨⟨u, o⟩, hu, ht⟩ := bind_eq_ok.mp ht
  obtain ⟨hsu, -, k, rfl⟩ := kalloc_spec hempty hu
  obtain ⟨⟨v, o'⟩, hv, ht⟩ := bind_eq_ok.mp ht
  obtain ⟨rfl, hsv, -, -, -⟩ := setupkvm_spec hsu (by decide : 1 ≤ MAX_PID) hv
  obtain ⟨w, hw, ht⟩ := bind_eq_ok.mp ht
  obtain ⟨⟨x, o''⟩, hx, hw⟩ := bind_eq_ok.mp hw
  obtain ⟨hsx, -, f, rfl⟩ := kalloc_spec hsv hx
  obtain ⟨⟨y, r⟩, hy, hw⟩ := bind_eq_ok.mp hw
  have hset : Sound (adopt (fun _ _ => False) 1 u.nextDir) (x.setMem f (initPage init)) :=
    hsx.congr rfl rfl rfl hsx.count
  obtain ⟨-, -, rfl, -, -⟩ := mapPage_spec hset hy
  obtain rfl : y = w := Except.ok.inj hw
  obtain rfl := Except.ok.inj ht
  obtain ⟨hsetup, hnew⟩ := setupkvm_marks (S := noPage) hv
  obtain ⟨-, hlt, hfree⟩ := hnew _ rfl
  obtain ⟨hmap, htab⟩ := mapPage_marks hy
  have hvx : Marks (onePage u.nextDir 0) v x := kalloc_marks hx
  have hvy : Marks (onePage u.nextDir 0) v y :=
    (hvx.trans (Marks.of_dirs rfl rfl rfl : Marks _ x (x.setMem f (initPage init)))).trans hmap
  have hprocs : y.procs = fun _ => none :=
    hvy.procs.trans (hsetup.procs.trans (kalloc_marks (S := noPage) hu).procs)
  have hnone : ∀ pid P, ¬ Live y pid P := by
    intro pid P hP
    have := hP.1
    rw [hprocs] at this
    cases this
  have hfit : Fits y u.nextDir PGSIZE := by
    refine ⟨hlt.trans_le hvy.nextDir, ?_, ?_⟩
    · intro va _ hmk
      rcases hvy.marked _ va hmk with hmk | ⟨-, rfl⟩
      · exact (hfree va hmk).elim
      · decide
    · intro _ va hva hlt
      have h0 : va = 0 := Nat.eq_zero_of_dvd_of_lt hva hlt
      subst h0
      exact htab
  refine ⟨?_, ?_⟩
  · refine Agree.setProc (fun pid P _ hP => absurd hP (hnone pid P))
      (fun pid _ P _ _ _ hP => absurd hP (hnone pid P)) ?_
    rintro Q ⟨⟩ _
    exact ⟨hfit, fun pid P _ hP => absurd hP (hnone pid P)⟩
  · intro pid P hP
    by_contra hne
    rw [procs_setProc, if_neg hne, hprocs] at hP
    cases hP

/-! ### The sizes of the threads of one directory -/

end Yonix.Vm
