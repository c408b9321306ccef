/-
  Yonix/Vm/FailedExec.lean
  ========================
  **What an `exec` that returns -1 leaves behind.**

  `freeuvm` gives the frames of the new image back.  The queue and the swap area it
  searches by identifier, and the old image has the same process number as the new one: a
  page of the new image at an address where the old one has a queued page, or a queued page
  where the old one has a slot, takes the entry or the slot of the old one away and leaves
  its own behind.  A frame that was taken for slabs does not come back either.  When none
  of this happens, nothing is different.
-/
import Yonix.Vm.Built
import Yonix.Vm.Dated

namespace Yonix.Vm

variable {s t u : Core} {d pid : Nat} {st : Nat → Option Nat} {l : List (Nat × Bool)} {D : Dir}
  {G : List Nat}

/-! ### The process -/

/-- What `exec` may change of a process besides its memory: `p_name`, the registers in
    `p_tf`, and the open files and the current directory. -/
structure Task where
  name : List UInt8
  eip : Nat
  esp : Nat
  regs : List Nat
  ofile : List (Option Nat)
  cwd : Nat

/-- The path after its last slash. -/
def lastOf : List UInt8 → List UInt8 → List UInt8
  | last, [] => last
  | last, c :: s => lastOf (if c = 47 then s else last) s

-- `sizeof(proc->p_name)`
def NAMESIZE : Nat := 16

def safestrcpy (src : List UInt8) (n : Nat) : List UInt8 := src.take (n - 1)

/-- `exec` of a path that `namei` finds nothing at, or finds `file` at; the last component
    is whether it returns 0. -/
def execPath (s : Core) (pid : Nat) (P : Proc) (T : Task) (path : List UInt8) (file : Option File)
    (args : List (List UInt8)) : Except Stop (Core × Task × Bool) :=
  match file with
  | none => .ok (s, T, false)
  | some f => do
    match ← execRet s pid P f args with
    | (s, none) => return (s, T, false)
    | (s, some r) =>
      return (s, { T with name := safestrcpy (lastOf path path) NAMESIZE, eip := r.eip, esp := r.esp },
        true)

/-! ### What should be the same -/

/-- The identifier is one of process `pid`. -/
def belongs (pid k : Nat) : Bool := pgrounddown k ||| pid = k

/-- Process `pid` with memory `P` is as it was, with its pages, queue entries and slots,
    and the same frames are free. -/
structure Unharmed (s t : Core) (T T' : Task) (pid : Nat) (P : Proc) : Prop where
  procs : t.procs pid = s.procs pid
  task : T' = T
  pages : ∀ va, t.pte P.page va = s.pte P.page va
  bytes : ∀ va x, s.pte P.page va = some x → x.p = true → t.mem x.frame = s.mem x.frame
  queue : (t.pgqueue.filter fun e => belongs pid e.key) = s.pgqueue.filter fun e => belongs pid e.key
  slots : ∀ i < SLOTSIZE, s.swapMap i ≠ 0 ∧ belongs pid (s.swapMap i) = true ∨
    t.swapMap i ≠ 0 ∧ belongs pid (t.swapMap i) = true →
    t.swapMap i = s.swapMap i ∧ t.swap (swapm2secno i) = s.swap (swapm2secno i)
  free : ∀ f, f ∈ t.freelist ↔ f ∈ s.freelist

/-- The pages `l` of the new image get by with the slabs that are there, no identifier of a
    page is in the queue, and none of a queued page is in the swap map. -/
structure Apart (s : Core) (pid : Nat) (l : List (Nat × Bool)) : Prop where
  slabs : (queuedOf l).length ≤ s.slabs
  queue : ∀ va ∈ l.map Prod.fst, ¬ Queued s.pgqueue (va ||| pid)
  slots : ∀ va ∈ queuedOf l, ∀ i < SLOTSIZE, s.swapMap i ≠ 0 → s.swapMap i ≠ va ||| pid

theorem Unharmed.refl (T : Task) (P : Proc) : Unharmed s s T T pid P :=
  ⟨rfl, rfl, fun _ => rfl, fun _ _ _ _ => rfl, rfl, fun _ _ _ => ⟨rfl, rfl⟩, fun _ => Iff.rfl⟩

variable (pid) in
theorem belongs_or {va : Nat} (hva : PGSIZE ∣ va) : belongs pid (va ||| pid) = true := by
  obtain ⟨n, rfl⟩ := hva
  have hshift : ∀ k, pgrounddown k = (k >>> 12) <<< 12 := by
    intro k
    unfold pgrounddown PGSIZE
    rw [Nat.shiftLeft_eq, Nat.shiftRight_eq_div_pow]
  have hn : PGSIZE * n = n <<< 12 := by
    rw [Nat.shiftLeft_eq, Nat.mul_comm]
    rfl
  unfold belongs
  rw [decide_eq_true_eq, hshift, hn]
  refine Nat.eq_of_testBit_eq fun i => ?_
  simp only [Nat.testBit_or, Nat.testBit_shiftLeft, Nat.testBit_shiftRight]
  by_cases hi : 12 ≤ i
  · have hback : 12 + (i - 12) = i := by omega
    simp [hi, hback]
  · simp [hi]

theorem mem_queuedOf {va : Nat} (h : va ∈ queuedOf l) : va ∈ l.map Prod.fst := by
  obtain ⟨p, hp, rfl⟩ := List.mem_map.mp h
  exact List.mem_map.mpr ⟨p, (List.mem_filter.mp hp).1, rfl⟩

theorem key_entries {e : Entry} (he : e ∈ entries d pid l) :
    e.dir = d ∧ ∃ va ∈ queuedOf l, e.key = va ||| pid := by
  obtain ⟨va, hva, rfl⟩ := List.mem_map.mp he
  exact ⟨rfl, va, hva, rfl⟩

/-! ### The new image is freed -/

section Freed

variable {vas : List Nat} (hg : Grown st s d pid l D G u) (hfr : Freed u t d pid D vas)
include hg hfr

theorem Grown.mem_vas {va : Nat} : va ∈ vas ↔ va ∈ l.map Prod.fst := by
  rw [hfr.mem]
  constructor
  · rintro ⟨-, -, x, hx, hp⟩
    rw [hg.built.pte] at hx
    obtain ⟨-, -, rfl⟩ := Option.map_eq_some_iff.mp hx
    exact (hg.pages va).mp hp
  · intro hin
    obtain ⟨hdvd, hlt⟩ := hg.good va hin
    obtain ⟨f, hf⟩ := Option.ne_none_iff_exists'.mp (hg.tabled va hin)
    refine ⟨hdvd, hlt, D.pte va, ?_, (hg.pages va).mpr hin⟩
    rw [hg.built.pte, hf]
    rfl

/-- What was free is free again, but for the frames of the slabs. -/
theorem Grown.free_iff (f : Nat) : f ∈ s.freelist ↔ f ∈ t.freelist ∨ f ∈ G := by
  rw [hg.built.free, hfr.free]
  have hpage : (∃ va ∈ vas, ∃ x, u.pte d va = some x ∧ x.frame = f) ↔
      ∃ va, (D.pte va).p = true ∧ (D.pte va).frame = f := by
    constructor
    · rintro ⟨va, hva, x, hx, hf⟩
      rw [hg.built.pte] at hx
      obtain ⟨-, -, rfl⟩ := Option.map_eq_some_iff.mp hx
      exact ⟨va, (hg.pages va).mpr ((hg.mem_vas hfr).mp hva), hf⟩
    · rintro ⟨va, hp, hf⟩
      have hin := (hg.pages va).mp hp
      obtain ⟨g, hgt⟩ := Option.ne_none_iff_exists'.mp (hg.tabled va hin)
      refine ⟨va, (hg.mem_vas hfr).mpr hin, D.pte va, ?_, hf⟩
      rw [hg.built.pte, hgt]
      rfl
  have htab : (∃ i < NPDENTRIES, D.tab i = some f) ↔ ∃ i, D.tab i = some f := by
    constructor
    · rintro ⟨i, -, hi⟩
      exact ⟨i, hi⟩
    · rintro ⟨i, hi⟩
      exact ⟨i, hg.built.tabs i (by rw [hi]; exact Option.some_ne_none f), hi⟩
  rw [hpage, htab]
  unfold Dir.Has
  constructor
  · rintro (hf | (hf | hf | hf) | hf)
    · exact Or.inl (Or.inl hf)
    · exact Or.inl (Or.inr (Or.inr (Or.inl hf)))
    · exact Or.inl (Or.inr (Or.inr (Or.inr hf)))
    · exact Or.inl (Or.inr (Or.inl hf))
    · exact Or.inr hf
  · rintro ((hf | hf | hf | hf) | hf)
    · exact Or.inl hf
    · exact Or.inr (Or.inl (Or.inr (Or.inr hf)))
    · exact Or.inr (Or.inl (Or.inl hf))
    · exact Or.inr (Or.inl (Or.inr (Or.inl hf)))
    · exact Or.inr (Or.inr hf)

theorem Grown.queue_eq : t.pgqueue =
    ((vas.map fun va => va ||| pid).foldl release (s.pgqueue ++ entries d pid l, s.swapMap)).1 := by
  rw [← hg.built.queue, ← hg.built.swapMap]
  exact congrArg Prod.fst hfr.queue

theorem Grown.swapMap_eq : t.swapMap =
    ((vas.map fun va => va ||| pid).foldl release (s.pgqueue ++ entries d pid l, s.swapMap)).2 := by
  rw [← hg.built.queue, ← hg.built.swapMap]
  exact congrArg Prod.snd hfr.queue

theorem Grown.mem_keys {k : Nat} :
    (k ∈ vas.map fun va => va ||| pid) ↔ ∃ va ∈ l.map Prod.fst, va ||| pid = k := by
  rw [List.mem_map]
  simp only [hg.mem_vas hfr]

/-- No more entries were queued than are released. -/
theorem Grown.count_le (k : Nat) :
    ((entries d pid l).filter fun e => e.key = k).length ≤ (vas.map fun va => va ||| pid).count k := by
  have hsub : (queuedOf l).Subperm vas := by
    refine List.subperm_of_subset ?_ ?_
    · exact hg.nodup.sublist (List.Sublist.map Prod.fst List.filter_sublist)
    · exact fun va hva => (hg.mem_vas hfr).mpr (mem_queuedOf hva)
  have hentries : ((entries d pid l).filter fun e => e.key = k).length =
      ((queuedOf l).map fun va => va ||| pid).count k := by
    unfold entries
    rw [← List.countP_eq_length_filter, List.countP_map, List.count, List.countP_map]
    refine List.countP_congr fun va _ => ?_
    simp
  obtain ⟨vs, hperm, hsubl⟩ := hsub
  rw [hentries, ← (hperm.map _).count_eq]
  exact (hsubl.map _).count_le k

/-- The queue is as it was when no old entry has the identifier of a new page. -/
theorem Grown.queue_same (hap : ∀ va ∈ l.map Prod.fst, ¬ Queued s.pgqueue (va ||| pid)) :
    t.pgqueue = s.pgqueue := by
  obtain ⟨ks, hks⟩ : ∃ ks, ks = vas.map fun va => va ||| pid := ⟨_, rfl⟩
  have hq := hg.queue_eq hfr
  have hkeys : ∀ k, k ∈ ks ↔ ∃ va ∈ l.map Prod.fst, va ||| pid = k := fun k => by
    rw [hks]
    exact hg.mem_keys hfr
  have hcount := hg.count_le hfr
  rw [← hks] at hq hcount
  have hold : ∀ e ∈ s.pgqueue, e.key ∉ ks := by
    intro e he hin
    obtain ⟨va, hva, hk⟩ := (hkeys e.key).mp hin
    exact hap va hva ⟨e, he, hk.symm⟩
  have hnew : ∀ e ∈ entries d pid l, e.key ∈ ks := by
    intro e he
    obtain ⟨-, va, hva, hk⟩ := key_entries he
    exact (hkeys e.key).mpr ⟨va, mem_queuedOf hva, hk.symm⟩
  -- none of the entries that are left has an identifier that was released
  have hgone : ∀ e ∈ t.pgqueue, e.key ∉ ks := by
    intro e he hin
    have hfil : (t.pgqueue.filter fun e' => e'.key = e.key) = [] := by
      have hnil : (s.pgqueue.filter fun e' => e'.key = e.key) = [] := by
        refine List.filter_eq_nil_iff.mpr ?_
        intro e' he' hk
        rw [decide_eq_true_eq] at hk
        exact hold e' he' (hk ▸ hin)
      rw [hq, release_drop, List.filter_append, hnil, List.nil_append, List.drop_eq_nil_iff]
      exact hcount e.key
    exact List.filter_eq_nil_iff.mp hfil e he (by simp)
  have hkeep : (t.pgqueue.filter fun e => e.key ∉ ks) =
      (s.pgqueue ++ entries d pid l).filter fun e => e.key ∉ ks := by
    rw [hq]
    exact release_keeps fun e _ hin => by simpa using hin
  have ht : (t.pgqueue.filter fun e => e.key ∉ ks) = t.pgqueue :=
    List.filter_eq_self.mpr fun e he => by simpa using hgone e he
  have hs : (s.pgqueue.filter fun e => e.key ∉ ks) = s.pgqueue :=
    List.filter_eq_self.mpr fun e he => by simpa using hold e he
  have hn : ((entries d pid l).filter fun e => e.key ∉ ks) = [] :=
    List.filter_eq_nil_iff.mpr fun e he => by simpa using hnew e he
  rw [ht, List.filter_append, hs, hn, List.append_nil] at hkeep
  exact hkeep

theorem Grown.slots_same (hap : Apart s pid l) {i : Nat} (hi : i < SLOTSIZE) :
    t.swapMap i = s.swapMap i := by
  rw [hg.swapMap_eq hfr]
  by_cases hz : s.swapMap i = 0
  · rcases release_slot_cases (vas.map fun va => va ||| pid) (s.pgqueue ++ entries d pid l) s.swapMap i
      with h | h
    · exact h
    · rw [h, hz]
  · refine release_slot_other ?_
    by_contra hor
    rw [not_or, not_not, not_not] at hor
    obtain ⟨hin, e, he, hk⟩ := hor
    obtain ⟨va, hva, hkey⟩ := (hg.mem_keys hfr).mp hin
    rcases List.mem_append.mp he with he | he
    · exact hap.queue va hva ⟨e, he, hk.trans hkey.symm⟩
    · obtain ⟨-, va', hva', hk'⟩ := key_entries he
      exact hap.slots va' hva' i hi hz (hk.symm.trans hk')

/-- An old entry with the identifier of a new page is gone. -/
theorem Grown.queue_apart (hd : ∀ e ∈ s.pgqueue, e.dir ≠ d) {va : Nat} (hva : va ∈ l.map Prod.fst)
    (hsame : (t.pgqueue.filter fun e => e.key = va ||| pid) = s.pgqueue.filter fun e => e.key = va ||| pid) :
    ¬ Queued s.pgqueue (va ||| pid) := by
  rw [queued_iff, not_not]
  by_contra hne
  have hin : va ||| pid ∈ vas.map fun va => va ||| pid := (hg.mem_keys hfr).mpr ⟨va, hva, rfl⟩
  have hpos := List.count_pos_iff.mpr hin
  rw [hg.queue_eq hfr, release_drop, List.filter_append] at hsame
  have hdir : ∀ e ∈ s.pgqueue.filter fun e => e.key = va ||| pid, e.dir ≠ d :=
    fun e he => hd e (List.mem_filter.mp he).1
  have hnew : ∀ e ∈ (entries d pid l).filter fun e => e.key = va ||| pid, e.dir = d :=
    fun e he => (key_entries (List.mem_filter.mp he).1).1
  revert hsame hne hpos hdir hnew
  generalize (s.pgqueue.filter fun e => e.key = va ||| pid) = A
  generalize ((entries d pid l).filter fun e => e.key = va ||| pid) = B
  generalize (vas.map fun va => va ||| pid).count (va ||| pid) = c
  intro hsame hne hpos hdir hnew
  have hlen := congrArg List.length hsame
  rw [List.length_drop, List.length_append] at hlen
  have hA := List.length_pos_iff.mpr hne
  -- as many entries were queued as were released, so one of them is the last
  have hB : B ≠ [] := by
    rintro rfl
    rw [List.length_nil] at hlen
    omega
  obtain ⟨B', b, rfl⟩ : ∃ B' b, B = B' ++ [b] :=
    ⟨B.dropLast, B.getLast hB, (List.dropLast_append_getLast hB).symm⟩
  have hb : b ∈ A := by
    rw [List.length_append, List.length_singleton] at hlen
    rw [← hsame, ← List.append_assoc, List.drop_append_of_le_length (by
      rw [List.length_append]
      omega)]
    exact List.mem_append_right _ (List.mem_singleton_self b)
  exact hdir b hb (hnew b (List.mem_append_right _ (List.mem_singleton_self b)))

theorem Grown.slots_apart {va : Nat} (hva : va ∈ queuedOf l)
    (hsame : ∀ i < SLOTSIZE, s.swapMap i ≠ 0 → s.swapMap i = va ||| pid → t.swapMap i = s.swapMap i) :
    ∀ i < SLOTSIZE, s.swapMap i ≠ 0 → s.swapMap i ≠ va ||| pid := by
  intro i hi hz hk
  have hin : va ||| pid ∈ vas.map fun va => va ||| pid :=
    (hg.mem_keys hfr).mpr ⟨va, mem_queuedOf hva, rfl⟩
  have hq : Queued (s.pgqueue ++ entries d pid l) (va ||| pid) :=
    ⟨⟨d, va, va ||| pid, false⟩, List.mem_append_right _ (List.mem_map.mpr ⟨va, hva, rfl⟩), rfl⟩
  obtain ⟨j, hj, hjk, hgone⟩ := release_slot_first hin hq (hk ▸ hz) ⟨i, hi, hk⟩
  rw [← hg.swapMap_eq hfr] at hgone
  have hzj : s.swapMap j ≠ 0 := by
    rw [hjk, ← hk]
    exact hz
  exact hzj ((hsame j hj hzj hjk).symm.trans hgone)

end Freed

/-- The directory of the caller is not the new one, and its frames were not free. -/
theorem Grown.unharmed_iff {P : Proc} {T : Task} (hf : Frames st [] s) (hdated : Dated s)
    (hpage : P.page < s.nextDir) (hg : Grown st s s.nextDir pid l D G u)
    (ht : freeuvm u s.nextDir pid = .ok t) : Unharmed s t T T pid P ↔ Apart s pid l := by
  obtain ⟨t', vas, ht', hfr⟩ := freeuvm_freed pid hg.built.dir
  obtain rfl := Except.ok.inj (ht'.symm.trans ht)
  have hne : P.page ≠ s.nextDir := by omega
  have hold : ∀ e ∈ s.pgqueue, e.dir ≠ s.nextDir := fun e he => Nat.ne_of_lt (hdated.queue e he)
  have hfree := hg.free_iff hfr
  have hframes : Frames st G t' := hg.built.frames.freeuvm ht
  have hG : ∀ f ∈ G, f ∉ t'.freelist := by
    intro f hfG hin
    have hnd := hframes.nodup
    unfold unused at hnd
    rw [List.append_assoc, List.nodup_append] at hnd
    exact hnd.2.2 f hin f (List.mem_append_right _ hfG) rfl
  have hdirs : t'.dirs P.page = s.dirs P.page := (hfr.dirs _ hne).trans (hg.built.dirs _ hne)
  have hswap : t'.swap = s.swap := hfr.swap.trans hg.built.swap
  constructor
  · intro h
    have hkey : ∀ va ∈ l.map Prod.fst, (t'.pgqueue.filter fun e => e.key = va ||| pid) =
        s.pgqueue.filter fun e => e.key = va ||| pid := by
      intro va hva
      have hbel := belongs_or pid (hg.good va hva).1
      have hsub : ∀ q : List Entry, (q.filter fun e => e.key = va ||| pid) =
          (q.filter fun e => belongs pid e.key).filter fun e => e.key = va ||| pid := by
        intro q
        rw [List.filter_filter]
        refine List.filter_congr fun e _ => ?_
        by_cases hk : e.key = va ||| pid
        · simp [hk, hbel]
        · simp [hk]
      rw [hsub t'.pgqueue, hsub s.pgqueue, h.queue]
    refine ⟨?_, fun va hva => hg.queue_apart hfr hold hva (hkey va hva), ?_⟩
    · rcases hg.ledger with ⟨-, hsum⟩ | ⟨hnil, -⟩
      · omega
      · obtain ⟨f, hfG⟩ := List.exists_mem_of_ne_nil G hnil
        exact (hG f hfG ((h.free f).mpr ((hfree f).mpr (Or.inr hfG)))).elim
    · intro va hva
      refine hg.slots_apart hfr hva ?_
      intro i hi hz hk
      refine (h.slots i hi (Or.inl ⟨hz, ?_⟩)).1
      rw [hk]
      exact belongs_or pid (hg.good va (mem_queuedOf hva)).1
  · intro hap
    have hnil : G = [] := by
      rcases hg.ledger with ⟨hnil, -⟩ | ⟨-, hlt⟩
      · exact hnil
      · have := hap.slabs
        omega
    refine ⟨?_, rfl, ?_, ?_, ?_, ?_, ?_⟩
    · exact congrFun (hfr.procs.trans hg.built.procs) pid
    · intro va
      unfold Core.pte
      rw [hdirs]
    · intro va x hx hp
      have huse := pte_use st hx hp
      have hnot : x.frame ∉ s.freelist := by
        have hapart := hf.apart _ _ huse
        unfold unused at hapart
        simp only [List.mem_append, not_or] at hapart
        exact hapart.1.1
      obtain ⟨w, hw, -, -, hmem⟩ := freeuvm_elsewhere st pid (s := u) (d := s.nextDir)
        (by rw [hg.built.dir]; exact Option.some_ne_none D)
      obtain rfl := Except.ok.inj (hw.symm.trans ht)
      rw [hmem x.frame, hg.built.mem _ hnot]
      -- the page of the old image is not one of the new directory
      intro v hv huse'
      have hx' : u.pte P.page va = some x := by
        unfold Core.pte at hx ⊢
        rwa [hg.built.dirs _ hne]
      have heq := hg.built.frames.inj _ _ _ (pte_use st hx' hp) huse'
      subst heq
      exact hne hv
    · rw [hg.queue_same hfr hap.queue]
    · intro i hi _
      exact ⟨hg.slots_same hfr hap hi, by rw [hswap]⟩
    · intro f
      rw [hfree, hnil]
      simp

section Reachable

variable {frames : List Nat} {slabs : Nat} {init : List UInt8} {as : List ThreadAct} {s₀ : Core}
  {k : Threads}

/-- **`exec` that returns -1 with frames to spare leaves everything as it was exactly when no
    page of the new image has the identifier of a queued or swapped page.** -/
theorem exec_fails_cleanly_iff (hl : frames.Nodup) (hboot : boot frames slabs init = .ok s₀)
    (hrun : Run (fun s a t => threadAct s a = .ok t) ⟨s₀, fun _ => false⟩ as k) {P : Proc} {T T' : Task}
    {path : List UInt8} {file : Option File} {args : List (List UInt8)}
    (hP : k.core.procs pid = some P)
    (hroom : ∀ f, file = some f → f.header = true → EnoughFrames k.core (f.image args))
    (ht : execPath k.core pid P T path file args = .ok (t, T', false)) :
    Unharmed k.core t T T' pid P ↔
      ∀ f, file = some f → f.header = true → Apart k.core pid (plan (f.image args)).1 := by
  have htidy : Tidy k.core := Tidy.run hl hboot hrun
  have hpage := Known.run hboot hrun pid P hP
  have hdated := Dated.run hboot hrun
  unfold execPath at ht
  cases file with
  | none =>
    cases ht
    refine iff_of_true (Unharmed.refl _ P) ?_
    intro f hf
    cases hf
  | some f =>
    obtain ⟨⟨u, o⟩, hu, ht⟩ := bind_eq_ok.mp ht
    cases o with
    | some r => cases ht
    | none =>
      cases ht
      cases hheader : f.header with
      | false =>
        unfold execRet at hu
        rw [if_pos hheader] at hu
        cases hu
        refine iff_of_true (Unharmed.refl _ P) ?_
        rintro f' ⟨⟩ h
        rw [hheader] at h
        cases h
      | true =>
        obtain ⟨D, G, v, hg, hv⟩ := execRet_grown htidy hheader (hroom f rfl hheader) hu
        rw [hg.unharmed_iff htidy hdated hpage hv]
        constructor
        · rintro h f' ⟨⟩ -
          exact h
        · exact fun h => h f rfl hheader

end Reachable

/-- Two segments: three pages at 0, and one with more bytes in the file than in memory. -/
def brokenFile : File where
  size := 120
  byte := fun i => [0x7f, 0x45, 0x4c, 0x46, 0, 0, 0, 0, 0, 0, 0, 0, 0, 0, 0, 0,
    0, 0, 0, 0, 0, 0, 0, 0, 2, 0, 0, 0, 52, 0, 0, 0, 0, 0, 0, 0, 0, 0, 0, 0, 0, 0, 0, 0, 2, 0, 0, 0,
    0, 0, 0, 0, 1, 0, 0, 0, 116, 0, 0, 0, 0, 0, 0, 0, 0, 0, 0, 0, 4, 0, 0, 0, 0, 48, 0, 0, 0, 0, 0, 0,
    0, 0, 0, 0, 1, 0, 0, 0, 0, 0, 0, 0, 0, 0, 0, 0, 0, 0, 0, 0, 1, 0, 0, 0, 0, 0, 0, 0, 0, 0, 0, 0,
    0, 0, 0, 0, 9, 8, 7, 6].getD i 0
  small := by decide

def idle : Task := ⟨[], 0, 0, [], [], 0⟩

/-- The loading part gives up. -/
def givesUp (pid : Nat) (img : Image) (s : Core) : Bool :=
  okWith (fun x => match x with
    | (_, none) => false
    | (s, some d) => okWith (fun y => y.2.isNone && (y.1.dirs d).isSome) (loadImage d pid img s))
    (setupkvm s)

theorem execPath_gives_up {P : Proc} {f : File} {args : List (List UInt8)} (T : Task)
    (path : List UInt8) (hheader : f.header = true) (h : givesUp pid (f.image args) s = true) :
    ∃ t, execRet s pid P f args = .ok (t, none) ∧
      execPath s pid P T path (some f) args = .ok (t, T, false) := by
  obtain ⟨⟨u, o⟩, hu, h⟩ := okWith_eq_true.mp h
  cases o with
  | none => cases h
  | some d =>
    obtain ⟨⟨v, o⟩, hv, h⟩ := okWith_eq_true.mp h
    rw [Bool.and_eq_true] at h
    obtain ⟨ho, hd⟩ := h
    obtain rfl := Option.isNone_iff_eq_none.mp ho
    obtain ⟨D, hD⟩ := Option.isSome_iff_exists.mp hd
    obtain ⟨t, vas, ht, -⟩ := freeuvm_freed pid hD
    have hload : load pid (f.image args) s = .ok (t, none) := by
      unfold load
      rw [hu]
      change (do
        match ← loadImage d pid (f.image args) u with
        | (s, none) =>
          let s ← freeuvm s d pid
          return (s, none)
        | (s, some sz) => return (s, some (d, sz))) = _
      rw [hv]
      change (freeuvm v d pid >>= fun s => .ok (s, none)) = _
      rw [ht]
      rfl
    have hret : execRet s pid P f args = .ok (t, none) := by
      unfold execRet
      rw [if_neg (by simp [hheader]), hload]
      rfl
    refine ⟨t, hret, ?_⟩
    unfold execPath
    change execRet s pid P f args >>= _ = _
    rw [hret]
    rfl

/-- Right after the start nothing is queued yet. -/
theorem exec_fails_cleanly_start : ∃ s₀ P t, boot (List.range 80) 10 [] = .ok s₀ ∧
    s₀.procs 1 = some P ∧ execPath s₀ 1 P idle [47, 115, 104] (some brokenFile) [] = .ok (t, idle, false) ∧
    Unharmed s₀ t idle idle 1 P := by
  have heval : okWith (fun s₀ => (s₀.procs 1).isSome && (givesUp 1 (brokenFile.image []) s₀ &&
      decide (EnoughFrames s₀ (brokenFile.image []) ∧
        (queuedOf (plan (brokenFile.image [])).1).length ≤ s₀.slabs)))
      (boot (List.range 80) 10 []) = true := by decide
  obtain ⟨s₀, hboot, heval⟩ := okWith_eq_true.mp heval
  rw [Bool.and_eq_true, Bool.and_eq_true, decide_eq_true_eq] at heval
  obtain ⟨hsome, hup, hroom, hslabs⟩ := heval
  obtain ⟨P, hP⟩ := Option.isSome_iff_exists.mp hsome
  obtain ⟨t, -, ht⟩ := execPath_gives_up (P := P) idle [47, 115, 104] (by decide) hup
  obtain ⟨hz, hq⟩ := boot_swapMap hboot
  refine ⟨s₀, P, t, hboot, hP, ht, ?_⟩
  refine (exec_fails_cleanly_iff List.nodup_range hboot Run.nil hP ?_ ht).mpr ?_
  · rintro f ⟨⟩ -
    exact hroom
  · rintro f ⟨⟩ -
    refine ⟨hslabs, ?_, fun _ _ i _ hne => absurd (hz i) hne⟩
    rintro va - ⟨e, he, -⟩
    rw [hq] at he
    cases he

/-- `sbrk(8192)` queues a page at 8192, where the new image has a page as well: the entry of
    the old page goes and the one of the new page stays. -/
theorem failed_exec_takes_entry : ∃ s₀ k P t, boot (List.range 80) 10 [] = .ok s₀ ∧
    Run (fun s a t => threadAct s a = .ok t) ⟨s₀, fun _ => false⟩ [.vm (.call 1 (.sbrk 8192))] k ∧
    k.core.procs 1 = some P ∧ EnoughFrames k.core (brokenFile.image []) ∧
    execPath k.core 1 P idle [47, 115, 104] (some brokenFile) [] = .ok (t, idle, false) ∧
    ¬ Unharmed k.core t idle idle 1 P := by
  have heval : okWith (fun s₀ => okWith (fun k : Threads => (k.core.procs 1).isSome &&
      (givesUp 1 (brokenFile.image []) k.core &&
      decide (EnoughFrames k.core (brokenFile.image []) ∧ Queued k.core.pgqueue (8192 ||| 1))))
      (threadAct ⟨s₀, fun _ => false⟩ (.vm (.call 1 (.sbrk 8192)))))
      (boot (List.range 80) 10 []) = true := by decide
  obtain ⟨s₀, hboot, heval⟩ := okWith_eq_true.mp heval
  obtain ⟨k, hk, heval⟩ := okWith_eq_true.mp heval
  rw [Bool.and_eq_true, Bool.and_eq_true, decide_eq_true_eq] at heval
  obtain ⟨hsome, hup, hroom, hqueued⟩ := heval
  obtain ⟨P, hP⟩ := Option.isSome_iff_exists.mp hsome
  obtain ⟨t, hret, ht⟩ := execPath_gives_up (P := P) idle [47, 115, 104] (by decide) hup
  have hrun : Run (fun s a t => threadAct s a = .ok t) ⟨s₀, fun _ => false⟩
      [.vm (.call 1 (.sbrk 8192))] k := Run.single hk
  refine ⟨s₀, k, P, t, hboot, hrun, hP, hroom, ht, ?_⟩
  intro h
  have htidy : Tidy k.core := Tidy.run List.nodup_range hboot hrun
  obtain ⟨D, G, v, hg, hv⟩ := execRet_grown htidy (by decide) hroom hret
  have hap := (hg.unharmed_iff htidy (Dated.run hboot hrun) (Known.run hboot hrun 1 P hP) hv).mp h
  exact hap.queue 8192 (by decide) hqueued

end Yonix.Vm
