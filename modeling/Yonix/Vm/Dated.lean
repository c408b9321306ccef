/-
  Yonix/Vm/Dated.lean
  ===================
  **No queue entry points into a directory that is still to come.**

  An entry of the page queue can outlive the directory it points into, but it was made for
  a directory that was there.  So a new directory starts without entries, whatever stray
  ones the queue has.
-/
import Yonix.Vm.Frames

namespace Yonix.Vm

variable {s t : Core} {d va pid : Nat}

structure Dated (s : Core) : Prop where
  dirs : ∀ d, s.dirs d ≠ none → d < s.nextDir
  queue : ∀ e ∈ s.pgqueue, e.dir < s.nextDir

/-- No directory and no entry that was not there before. -/
theorem Dated.mono (h : Dated s) (hn : t.nextDir = s.nextDir)
    (hd : ∀ d, s.dirs d = none → t.dirs d = none)
    (hq : ∀ e ∈ t.pgqueue, ∃ e' ∈ s.pgqueue, e'.dir = e.dir) : Dated t := by
  refine ⟨?_, ?_⟩
  · intro d hne
    rw [hn]
    exact h.dirs d fun hnone => hne (hd d hnone)
  · intro e he
    obtain ⟨e', he', hdir⟩ := hq e he
    rw [hn, ← hdir]
    exact h.queue e' he'

theorem Dated.congr (h : Dated s) (hn : t.nextDir = s.nextDir) (hd : t.dirs = s.dirs)
    (hq : t.pgqueue = s.pgqueue) : Dated t :=
  h.mono hn (fun _ hnone => by rwa [hd]) fun e he => ⟨e, by rwa [hq] at he, rfl⟩

theorem Dated.writes (h : Dated s) (hw : Writes s t) : Dated t := by
  refine h.congr ?_ ?_ ?_ <;> rw [hw]

theorem Dated.setPte (h : Dated s) (x : Pte) : Dated (s.setPte d va x) :=
  h.mono rfl (fun d' hnone => (dirs_setPte s d va x d').mpr hnone) fun e he => ⟨e, he, rfl⟩

theorem Dated.setTab (h : Dated s) (i f : Nat) : Dated (s.setTab d i f) :=
  h.mono rfl (fun d' hnone => (dirs_setTab s d i f d').mpr hnone) fun e he => ⟨e, he, rfl⟩

theorem Dated.kfree (h : Dated s) (f : Nat) : Dated (kfree s f) := h.congr rfl rfl rfl

theorem Dated.pageOut (h : Dated s) (ht : pageOut s = .ok t) : Dated t := by
  obtain ⟨q, e, x, i, hsel, -, -, -, rfl⟩ := pageOut_eq ht
  obtain ⟨hsame, -⟩ := selPage_spec hsel
  refine h.mono rfl (fun d hnone => (dirs_setPte s e.dir e.va _ d).mpr hnone) ?_
  intro e' he'
  obtain ⟨e₀, he₀, hdir, -⟩ := mem_of_samePage hsame (List.mem_of_mem_eraseP he')
  exact ⟨e₀, he₀, hdir.symm⟩

theorem Dated.takeFrame (h : Dated s) : Dated (takeFrame s).1 := by
  obtain ⟨fl, n, heq⟩ := takeFrame_eq s
  rw [heq]
  exact h.congr rfl rfl rfl

theorem Dated.kalloc {o : Option Nat} (h : Dated s) (ht : kalloc s = .ok (t, o)) : Dated t := by
  unfold Vm.kalloc at ht
  split at ht
  · cases hu : Vm.pageOut s with
    | error e => simp [hu, Except.map] at ht
    | ok u =>
      rw [hu] at ht
      have htake := (h.pageOut hu).takeFrame
      rwa [Except.ok.inj ht] at htake
  · have htake := h.takeFrame
    rwa [Except.ok.inj ht] at htake

theorem Dated.allocSlab (h : Dated s) (ht : allocSlab s = .ok t) : Dated t := by
  unfold Vm.allocSlab at ht
  split at ht
  · obtain ⟨⟨u, o⟩, hu, ht⟩ := bind_eq_ok.mp ht
    cases o with
    | none => cases ht
    | some f =>
      cases ht
      exact (h.kalloc hu).congr rfl rfl rfl
  · cases ht
    exact h.congr rfl rfl rfl

/-- The entry points into a directory that is there. -/
theorem Dated.addPage (h : Dated s) (ht : addPage s d va pid = .ok t) : Dated t := by
  obtain ⟨u, hu, ht⟩ := bind_eq_ok.mp ht
  have hdu := h.allocSlab hu
  split at ht
  · cases ht
  · rename_i x hx
    cases ht
    obtain ⟨-, D, hD, -⟩ := pte_eq_some.mp hx
    refine ⟨hdu.dirs, ?_⟩
    intro e he
    rcases List.mem_append.mp he with he | he
    · exact hdu.queue e he
    · rw [List.mem_singleton] at he
      subst he
      exact hdu.dirs d (by rw [hD]; exact Option.some_ne_none D)

theorem Dated.addPageIf {test : Bool} (h : Dated s) (ht : addPageIf test s d va pid = .ok t) :
    Dated t := by
  unfold Vm.addPageIf at ht
  split at ht
  · exact h.addPage ht
  · cases ht
    exact h

theorem Dated.walkpgdir {alloc r : Bool} (h : Dated s) (ht : walkpgdir s d va alloc = .ok (t, r)) :
    Dated t := by
  unfold Vm.walkpgdir at ht
  split at ht
  · cases ht
  · split at ht
    · cases ht
      exact h
    · split at ht
      · cases ht
        exact h
      · obtain ⟨⟨u, o⟩, hu, ht⟩ := bind_eq_ok.mp ht
        have hdu := h.kalloc hu
        cases o with
        | none =>
          cases ht
          exact hdu
        | some f =>
          cases ht
          exact Dated.setTab (s := u.setMem f Bytes.zero) (hdu.congr rfl rfl rfl) (pdx va) f

theorem Dated.mapPage {f : Nat} {w u a r : Bool} (h : Dated s)
    (ht : mapPage s d va f w u a = .ok (t, r)) : Dated t := by
  obtain ⟨⟨v, r'⟩, hv, ht⟩ := bind_eq_ok.mp ht
  have hdv := h.walkpgdir hv
  cases r' with
  | false =>
    cases ht
    exact hdv
  | true =>
    dsimp only at ht
    split at ht
    · cases ht
    · split at ht
      · cases ht
      · cases ht
        exact hdv.setPte _

theorem Dated.kernelTables (l : List Nat) :
    ∀ {s t : Core} {r : Bool}, Dated s → kernelTables d l s = .ok (t, r) → Dated t := by
  induction l with
  | nil =>
    intro s t r h ht
    cases ht
    exact h
  | cons i l ih =>
    intro s t r h ht
    unfold Vm.kernelTables at ht
    obtain ⟨⟨u, r'⟩, hu, ht⟩ := bind_eq_ok.mp ht
    have hdu := h.walkpgdir hu
    cases r' with
    | false =>
      cases ht
      exact hdu
    | true => exact ih hdu ht

theorem Dated.newDir (h : Dated s) (f : Nat) : Dated (s.newDir f) := by
  refine ⟨?_, fun e he => Nat.lt_succ_of_lt (h.queue e he)⟩
  intro d hne
  change d < s.nextDir + 1
  by_cases heq : d = s.nextDir
  · omega
  · change Function.update s.dirs s.nextDir _ d ≠ none at hne
    rw [Function.update_of_ne heq] at hne
    exact Nat.lt_succ_of_lt (h.dirs d hne)

theorem Dated.setupkvm {o : Option Nat} (h : Dated s) (ht : setupkvm s = .ok (t, o)) : Dated t := by
  obtain ⟨⟨u, o'⟩, hu, ht⟩ := bind_eq_ok.mp ht
  have hdu := h.kalloc hu
  cases o' with
  | none =>
    cases ht
    exact hdu
  | some f =>
    obtain ⟨⟨v, r⟩, hv, ht⟩ := bind_eq_ok.mp ht
    have hnew : Dated ((u.setMem f Bytes.zero).newDir f) :=
      Dated.newDir (s := u.setMem f Bytes.zero) (hdu.congr rfl rfl rfl) f
    have hdv := Dated.kernelTables _ hnew hv
    cases r with
    | false =>
      cases ht
      exact hdv
    | true =>
      cases ht
      exact hdv

/-! ### Freeing -/

theorem Dated.unmap (h : Dated s) (x : Pte) : Dated (unmap s d va x pid) := by
  obtain ⟨m, hm⟩ := freePage_eq s (va ||| pid) true
  unfold Vm.unmap
  rw [hm]
  refine Dated.setPte (Dated.kfree ?_ _) _
  exact h.mono rfl (fun _ hnone => hnone) fun e he => ⟨e, List.mem_of_mem_eraseP he, rfl⟩

theorem Dated.deallocLoop (startva k : Nat) :
    ∀ (i : Nat) {s : Core}, Dated s → Dated (deallocLoop d startva pid k i s) := by
  induction k with
  | zero => exact fun _ _ h => h
  | succ k ih =>
    intro i s h
    unfold Vm.deallocLoop
    split
    · exact h
    · split
      · exact ih _ h
      · rename_i x hx
        split
        · exact ih _ (h.unmap x)
        · exact ih _ h

theorem Dated.deallocuvm {startva endva sz : Nat} (h : Dated s)
    (ht : deallocuvm s d startva endva pid = .ok (t, sz)) : Dated t := by
  unfold Vm.deallocuvm at ht
  split at ht
  · cases ht
    exact h
  · split at ht
    · cases ht
    · cases ht
      exact Dated.deallocLoop _ _ _ h

theorem Dated.freeuvm (h : Dated s) (ht : freeuvm s d pid = .ok t) : Dated t := by
  obtain ⟨⟨u, sz⟩, hu, ht⟩ := bind_eq_ok.mp ht
  have hdu := h.deallocuvm hu
  dsimp only at ht
  split at ht
  · cases ht
  · rename_i D hD
    cases ht
    rw [freeTables_eq]
    obtain ⟨v, hv⟩ : ∃ v, v = D.tables.foldl Vm.kfree u := ⟨_, rfl⟩
    have hdv : Dated v := by
      rw [hv]
      exact List.foldlRecOn _ _ hdu fun _ hw f _ => Dated.kfree hw f
    rw [← hv]
    refine Dated.mono (hdv.kfree D.frame) rfl ?_ fun e he => ⟨e, he, rfl⟩
    intro d' hnone
    change Function.update (Vm.kfree v D.frame).dirs d none d' = none
    rw [Function.update_apply]
    split
    · rfl
    · exact hnone

/-! ### User memory -/

theorem Dated.allocPage {base i : Nat} {r : Bool} (h : Dated s)
    (ht : allocPage s d base pid i = .ok (t, r)) : Dated t := by
  obtain ⟨⟨u, o⟩, hu, ht⟩ := bind_eq_ok.mp ht
  have hdu := h.kalloc hu
  cases o with
  | none =>
    cases ht
    exact hdu
  | some f =>
    obtain ⟨⟨v, r'⟩, hv, ht⟩ := bind_eq_ok.mp ht
    have hdv := Dated.mapPage (s := u.setMem f Bytes.zero) (hdu.congr rfl rfl rfl) hv
    cases r' with
    | false =>
      cases ht
      exact hdv.kfree f
    | true =>
      obtain ⟨w, hw, ht⟩ := bind_eq_ok.mp ht
      cases ht
      exact hdv.addPageIf hw

theorem Dated.allocLoop {base : Nat} (l : List Nat) :
    ∀ {s t : Core} {o : Option Nat}, Dated s → allocLoop d base pid l s = .ok (t, o) → Dated t := by
  induction l with
  | nil =>
    intro s t o h ht
    cases ht
    exact h
  | cons i l ih =>
    intro s t o h ht
    unfold Vm.allocLoop at ht
    obtain ⟨⟨u, r⟩, hu, ht⟩ := bind_eq_ok.mp ht
    have hdu := h.allocPage hu
    cases r with
    | false =>
      cases ht
      exact hdu
    | true => exact ih hdu ht

theorem Dated.allocuvm {startva endva sz : Nat} (h : Dated s)
    (ht : allocuvm s d startva endva pid = .ok (t, sz)) : Dated t := by
  unfold Vm.allocuvm at ht
  split at ht
  · cases ht
    exact h
  · split at ht
    · cases ht
      exact h
    · obtain ⟨⟨u, o⟩, hu, ht⟩ := bind_eq_ok.mp ht
      have hdu := Dated.allocLoop _ h hu
      cases o with
      | none =>
        cases ht
        exact hdu
      | some i =>
        obtain ⟨⟨v, sz'⟩, hv, ht⟩ := bind_eq_ok.mp ht
        cases ht
        exact hdu.deallocuvm hv

theorem Dated.pageIn (h : Dated s) (ht : pageIn s pid d va = .ok t) : Dated t := by
  obtain ⟨⟨u, o⟩, hu, ht⟩ := bind_eq_ok.mp ht
  have hdu := h.kalloc hu
  cases o with
  | none => cases ht
  | some f =>
    obtain ⟨slotn, -, ht⟩ := bind_eq_ok.mp ht
    obtain ⟨v, hv, ht⟩ := bind_eq_ok.mp ht
    have hdv : Dated v := by
      rw [freeSlot_spec hv]
      exact hdu.congr rfl rfl rfl
    split at ht
    · cases ht
    · exact Dated.addPage (hdv.setPte _) ht

theorem Dated.copyLoop {sd ppid td : Nat} (l : List Nat) :
    ∀ {s t : Core} {r : Bool}, Dated s → copyLoop sd ppid td pid l s = .ok (t, r) → Dated t := by
  induction l with
  | nil =>
    intro s t r h ht
    cases ht
    exact h
  | cons i l ih =>
    intro s t r h ht
    unfold Vm.copyLoop at ht
    split at ht
    · cases ht
    · obtain ⟨u, hu, ht⟩ := bind_eq_ok.mp ht
      have hdu : Dated u := by
        unfold pageInIf at hu
        split at hu
        · exact h.pageIn hu
        · cases hu
          exact h
      split at ht
      · cases ht
      · obtain ⟨⟨v, o⟩, hv, ht⟩ := bind_eq_ok.mp ht
        have hdv := hdu.kalloc hv
        cases o with
        | none =>
          cases ht
          exact hdv
        | some m =>
          obtain ⟨⟨w, r'⟩, hw, ht⟩ := bind_eq_ok.mp ht
          have hdw := Dated.mapPage (s := v.setMem m _) (hdv.congr rfl rfl rfl) hw
          cases r' with
          | false =>
            cases ht
            exact hdw
          | true =>
            obtain ⟨z, hz, ht⟩ := bind_eq_ok.mp ht
            exact ih (hdw.addPageIf hz) ht

theorem Dated.copyuvm {sd sz ppid : Nat} {o : Option Nat} (h : Dated s)
    (ht : copyuvm s sd sz ppid pid = .ok (t, o)) : Dated t := by
  obtain ⟨⟨u, o'⟩, hu, ht⟩ := bind_eq_ok.mp ht
  have hdu := h.setupkvm hu
  cases o' with
  | none =>
    cases ht
    exact hdu
  | some td =>
    obtain ⟨⟨v, r⟩, hv, ht⟩ := bind_eq_ok.mp ht
    have hdv := Dated.copyLoop _ hdu hv
    cases r with
    | true =>
      cases ht
      exact hdv
    | false =>
      obtain ⟨w, hw, ht⟩ := bind_eq_ok.mp ht
      cases ht
      exact hdv.freeuvm hw

theorem Dated.loadPhs {img : Image} (l : List (Option Ph)) :
    ∀ {s t : Core} {sz : Nat} {o : Option Nat}, Dated s →
      loadPhs d pid img l sz s = .ok (t, o) → Dated t := by
  induction l with
  | nil =>
    intro s t sz o h ht
    cases ht
    exact h
  | cons a l ih =>
    intro s t sz o h ht
    cases a with
    | none =>
      cases ht
      exact h
    | some ph =>
      obtain ⟨⟨u, o'⟩, hu, ht⟩ := bind_eq_ok.mp ht
      have hdu : Dated u := by
        rcases loadPh_cases hu with ⟨rfl, -⟩ | ⟨v, endva, sz', hv, hw, -⟩
        · exact h
        · exact (h.allocuvm hv).writes hw
      cases o' with
      | none =>
        cases ht
        exact hdu
      | some sz' => exact ih hdu ht

theorem Dated.buildImage {img : Image} {o : Option Nat} (h : Dated s)
    (ht : buildImage d pid img s = .ok (t, o)) : Dated t := by
  obtain ⟨⟨u, o'⟩, hu, ht⟩ := bind_eq_ok.mp ht
  have hdu := Dated.loadPhs _ h hu
  cases o' with
  | none =>
    cases ht
    exact hdu
  | some sz =>
    obtain ⟨⟨v, sz'⟩, hv, ht⟩ := bind_eq_ok.mp ht
    have hdv := hdu.allocuvm hv
    dsimp only at ht
    split at ht
    · cases ht
      exact hdv
    · obtain ⟨w, hw, ht⟩ := bind_eq_ok.mp ht
      obtain ⟨x, -, rfl⟩ := clearpteu_eq hw
      obtain ⟨⟨z, r⟩, hz, ht⟩ := bind_eq_ok.mp ht
      have hdz := (hdv.setPte { x with u := false }).writes (buildStack_writes hz)
      cases r with
      | false =>
        cases ht
        exact hdz
      | true =>
        cases ht
        exact hdz

/-! ### Every action -/

theorem Dated.setProc (h : Dated s) (P : Option Proc) : Dated (s.setProc pid P) := h.congr rfl rfl rfl

theorem Dated.fork {P : Proc} (h : Dated s) (ht : fork s pid P = .ok t) : Dated t := by
  obtain ⟨⟨u, o⟩, hu, ht⟩ := bind_eq_ok.mp ht
  have hdu : Dated u :=
    Dated.kalloc (s := { s with nextpid := s.nextpid + 1 }) (h.congr rfl rfl rfl) hu
  cases o with
  | none =>
    cases ht
    exact hdu
  | some k =>
    obtain ⟨⟨v, o'⟩, hv, ht⟩ := bind_eq_ok.mp ht
    have hdv := hdu.copyuvm hv
    cases o' with
    | none =>
      cases ht
      exact hdv.kfree k
    | some td =>
      cases ht
      exact hdv.setProc _

theorem Dated.procgrow {P : Proc} {n : Int} (h : Dated s) (ht : procgrow s pid P n = .ok t) :
    Dated t := by
  have hend : ∀ {u : Core} {sz : Nat}, Dated u →
      Dated (if sz = 0 then u else u.setProc pid (some { P with size := sz })) := by
    intro u sz hu
    split
    · exact hu
    · exact hu.setProc _
  unfold Vm.procgrow at ht
  dsimp only at ht
  split at ht
  · obtain ⟨⟨u, sz⟩, hu, ht⟩ := bind_eq_ok.mp ht
    cases ht
    exact hend (h.allocuvm hu)
  · split at ht
    · obtain ⟨⟨u, sz⟩, hu, ht⟩ := bind_eq_ok.mp ht
      cases ht
      exact hend (h.deallocuvm hu)
    · cases ht
      exact h

theorem Dated.exec {P : Proc} {img : Image} (h : Dated s) (ht : exec s pid P img = .ok t) : Dated t := by
  unfold Vm.exec at ht
  split at ht
  · cases ht
    exact h
  · obtain ⟨⟨u, o⟩, hu, ht⟩ := bind_eq_ok.mp ht
    have hdu := h.setupkvm hu
    cases o with
    | none =>
      cases ht
      exact hdu
    | some d =>
      obtain ⟨⟨v, o'⟩, hv, ht⟩ := bind_eq_ok.mp ht
      have hdv := hdu.buildImage hv
      cases o' with
      | none => exact hdv.freeuvm ht
      | some sz => exact Dated.freeuvm (hdv.setProc _) ht

theorem Dated.call {P : Proc} {c : Call} (h : Dated s) (ht : call s pid P c = .ok t) : Dated t := by
  have hfault : ∀ va, pgfltHandle s pid P va = .ok t → Dated t := by
    intro va ht
    unfold pgfltHandle at ht
    dsimp only at ht
    split at ht
    · exact h.pageIn ht
    · cases ht
  cases c with
  | fork => exact h.fork ht
  | sbrk n => exact h.procgrow ht
  | exec img => exact h.exec ht
  | exit =>
    cases ht
    exact h.setProc _
  | fault va =>
    unfold Vm.call at ht
    dsimp only at ht
    split at ht
    · split at ht
      · cases ht
      · exact hfault va ht
    · exact hfault va ht
  | store va b =>
    unfold Vm.call store at ht
    dsimp only at ht
    split at ht
    · cases ht
    · rename_i x hx
      split at ht
      · cases ht
        exact Dated.setPte (s := s.setMem x.frame _) (h.congr rfl rfl rfl) _
      · cases ht

theorem Dated.act {a : Act} (h : Dated s) (ht : act s a = .ok t) : Dated t := by
  cases a with
  | call pid c =>
    unfold Vm.act at ht
    dsimp only at ht
    split at ht
    · split at ht
      · cases ht
      · exact h.call ht
    · cases ht
  | wait pid =>
    unfold Vm.act at ht
    dsimp only at ht
    split at ht
    · rename_i P hP
      split at ht
      · obtain ⟨u, hu, ht⟩ := bind_eq_ok.mp ht
        cases ht
        exact Dated.setProc ((h.kfree P.kstack).freeuvm hu) none
      · cases ht
    · cases ht
  | readRef pid ref =>
    cases ht
    refine h.mono rfl (fun _ hnone => hnone) ?_
    intro e he
    obtain ⟨e', he', rfl⟩ := List.mem_map.mp he
    refine ⟨e', he', ?_⟩
    split <;> rfl
  | kalloc =>
    obtain ⟨⟨u, o⟩, hu, ht⟩ := bind_eq_ok.mp ht
    have hdu := h.kalloc hu
    cases o with
    | none =>
      cases ht
      exact hdu
    | some f =>
      cases ht
      exact hdu.congr rfl rfl rfl
  | kfree f =>
    unfold Vm.act at ht
    dsimp only at ht
    split at ht
    · cases ht
      exact (h.kfree f).congr rfl rfl rfl
    · cases ht
  | allocSlab => exact h.allocSlab ht
  | freeSlab =>
    cases ht
    exact h.congr rfl rfl rfl

theorem Dated.threadAct {s t : Threads} {a : ThreadAct} (h : Dated s.core)
    (ht : threadAct s a = .ok t) : Dated t.core := by
  cases a with
  | vm a =>
    obtain ⟨c, hc, ht⟩ := bind_eq_ok.mp ht
    cases ht
    exact h.act hc
  | lwpCreate pid =>
    unfold Vm.threadAct at ht
    dsimp only at ht
    split at ht
    · cases ht
    · rename_i P hP
      split at ht
      · cases ht
      · obtain ⟨⟨c, o⟩, hc, ht⟩ := bind_eq_ok.mp ht
        obtain ⟨⟨u, k⟩, hu, hc⟩ := bind_eq_ok.mp hc
        have hdu : Dated u := Dated.kalloc (s := { s.core with nextpid := s.core.nextpid + 1 })
          (h.congr rfl rfl rfl) hu
        cases k with
        | none =>
          cases hc
          cases ht
          exact hdu
        | some k =>
          cases hc
          cases ht
          exact hdu.setProc _
  | lwpJoin pid =>
    unfold Vm.threadAct at ht
    dsimp only at ht
    split at ht
    · cases ht
    · rename_i P hP
      split at ht
      · cases ht
        exact Dated.setProc (h.kfree P.kstack) none
      · cases ht

theorem Dated.boot {l : List Nat} {m : Nat} {init : List UInt8} (ht : boot l m init = .ok t) :
    Dated t := by
  have hempty : Dated { empty l m with nextpid := 2 } :=
    ⟨fun _ hne => absurd rfl hne, fun e he => absurd he List.not_mem_nil⟩
  obtain ⟨⟨u, o⟩, hu, ht⟩ := bind_eq_ok.mp ht
  have hdu := hempty.kalloc hu
  cases o with
  | none => cases ht
  | some k =>
    obtain ⟨⟨v, o⟩, hv, ht⟩ := bind_eq_ok.mp ht
    have hdv := hdu.setupkvm hv
    cases o with
    | none => cases ht
    | some d =>
      obtain ⟨w, hw, ht⟩ := bind_eq_ok.mp ht
      cases ht
      obtain ⟨⟨x, o⟩, hx, hw⟩ := bind_eq_ok.mp hw
      have hdx := hdv.kalloc hx
      cases o with
      | none => cases hw
      | some f =>
        obtain ⟨⟨y, r⟩, hy, hw⟩ := bind_eq_ok.mp hw
        cases hw
        exact Dated.setProc (Dated.mapPage (s := x.setMem f _) (hdx.congr rfl rfl rfl) hy) _

theorem Dated.run {l : List Nat} {slabs : Nat} {init : List UInt8} {as : List ThreadAct} {s₀ : Core}
    {k : Threads} (hboot : Vm.boot l slabs init = .ok s₀)
    (hrun : Run (fun s a t => Vm.threadAct s a = .ok t) ⟨s₀, fun _ => false⟩ as k) : Dated k.core := by
  refine hrun.invariant (fun s => Dated s.core) (Dated.boot hboot) ?_
  intro s a t hs hstep
  exact hs.threadAct hstep

end Yonix.Vm
