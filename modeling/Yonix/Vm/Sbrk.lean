/-
  Yonix/Vm/Sbrk.lean
  ==================
  **`sbrk`: when it does exactly what it returns.**

  `allocuvm` and `deallocuvm` return the new size, and `0` for an error, and sizes are
  unsigned.  So a shrink to size zero is done and reported as an error, and a shrink below
  zero wraps round, does nothing and is reported as done.  When memory runs out in the
  middle, `page_out` panics before `kalloc` could return null, so that nothing is rolled
  back.  And a page that is swapped out is not released by a shrink.  In all other cases
  the process has exactly the pages of its new size afterwards, with the right bytes, or
  nothing has changed.
-/
import Yonix.Vm.Stock
import Yonix.Vm.Reaping

namespace Yonix.Vm

variable {own M : Nat → Nat → Prop} {c : Content} {s t : Core} {d pid : Nat} {P : Proc} {n : Int}

/-! ### What a process has -/

/-- The page is in a frame or in the swap area. -/
def Kept (s : Core) (d pid va : Nat) : Prop := Present s d va ∨ ∃ i < SLOTSIZE, s.swapMap i = va ||| pid

/-- The pages are exactly those below `PGROUNDUP(sz)`, and hold these bytes. -/
structure Space (s : Core) (d pid sz : Nat) (c : Nat → UInt8) : Prop where
  pages : ∀ va, PGSIZE ∣ va → (Kept s d pid va ↔ va < pgroundup sz)
  frame : ∀ va f, PGSIZE ∣ va → Maps s d va f → ∀ k < PGSIZE, (s.mem f).get k = c (va + k)
  slot : ∀ va i, PGSIZE ∣ va → i < SLOTSIZE → s.swapMap i = va ||| pid →
    ¬ Present s d va ∧ ∀ k < PGSIZE, (s.swap (swapm2secno i)).get k = c (va + k)

theorem Backed.space {sz : Nat} (h : Backed own M c [] s) (hown : own pid d)
    (hM : ∀ va, M pid va ↔ PGSIZE ∣ va ∧ va < sz) : Space s d pid sz (c pid) := by
  refine ⟨?_, ?_, ?_⟩
  · intro va hva
    rw [lt_pgroundup_iff hva]
    constructor
    · rintro (hp | ⟨i, hi, hkey⟩)
      · obtain ⟨f, hf⟩ := present_iff.mp hp
        exact ((hM va).mp (h.here pid d va f hown hva hf).1).2
      · exact ((hM va).mp (h.slot pid d va i hown hva hi hkey).1).2
    · intro hlt
      by_cases hp : Present s d va
      · exact Or.inl hp
      · exact Or.inr (h.away pid d va hown ((hM va).mpr ⟨hva, hlt⟩) hp)
  · intro va f hva hf
    exact (h.here pid d va f hown hva hf).2
  · intro va i hva hi hkey
    obtain ⟨-, hnp, -, hc⟩ := h.slot pid d va i hown hva hi hkey
    exact ⟨hnp, hc⟩

theorem Space.setProc {sz q : Nat} {Q : Option Proc} {c : Nat → UInt8} (h : Space s d pid sz c) :
    Space (s.setProc q Q) d pid sz c := ⟨h.pages, h.frame, h.slot⟩

/-! ### `procgrow` and what it returns -/

/-- `procgrow` with its result. -/
def procgrowRet (s : Core) (pid : Nat) (P : Proc) (n : Int) : Except Stop (Core × Int) := do
  let endva := ((P.size + n) % 2 ^ 32).toNat
  if 0 < n then
    let (s, sz) ← allocuvm s P.page P.size endva pid
    return if sz = 0 then (s, -1) else (s.setProc pid (some { P with size := sz }), 0)
  else if n < 0 then
    let (s, sz) ← deallocuvm s P.page P.size endva pid
    return if sz = 0 then (s, -1) else (s.setProc pid (some { P with size := sz }), 0)
  else return (s, 0)

theorem procgrowRet_fst (s : Core) (pid : Nat) (P : Proc) (n : Int) :
    (procgrowRet s pid P n).map Prod.fst = procgrow s pid P n := by
  have hbind : ∀ (x : Except Stop (Core × Nat)) (g : Core → Nat → Core),
      (x >>= fun v => pure (if v.2 = 0 then (v.1, (-1 : Int)) else (g v.1 v.2, 0))).map Prod.fst =
        x >>= fun v => pure (if v.2 = 0 then v.1 else g v.1 v.2) := by
    intro x g
    cases x with
    | error e => rfl
    | ok v =>
      change Except.ok _ = Except.ok _
      split <;> rfl
  unfold procgrowRet procgrow
  dsimp only
  split
  · exact hbind _ fun s sz => s.setProc pid (some { P with size := sz })
  · split
    · exact hbind _ fun s sz => s.setProc pid (some { P with size := sz })
    · rfl

/-- There are frames, evictable pages, free slots and slabs for growing to `endva`. -/
def affords (s : Core) (P : Proc) (endva : Nat) : Bool :=
  match s.dirs P.page with
  | none => false
  | some D => (Stock.pages (pgroundup P.size) (pages P.size endva) (fun r => (D.tab r).isSome)
      s.stock).isSome

/-- The size is `n` larger, with the pages to it; the new ones are zero. -/
def Resized (s t : Core) (pid : Nat) (P : Proc) (n : Int) (c : Nat → UInt8) : Prop :=
  ∃ (sz : Nat) (c' : Nat → UInt8), (sz : Int) = P.size + n ∧
    t.procs = Function.update s.procs pid (some { P with size := sz }) ∧ Space t P.page pid sz c' ∧
    (∀ va < min P.size sz, c' va = c va) ∧ ∀ va, pgroundup P.size ≤ va → va < pgroundup sz → c' va = 0

/-- `procgrow` is exact: it returns `0` and the size is changed by `n`, or `-1` for one of
    three reasons and nothing is changed. -/
def SbrkExact (s : Core) (pid : Nat) (P : Proc) (n : Int) (c : Nat → UInt8) : Prop :=
  ∃ t r, procgrowRet s pid P n = .ok (t, r) ∧
    (r = 0 ∧ Resized s t pid P n c ∨
      r = -1 ∧ t.procs = s.procs ∧ Space t P.page pid P.size c ∧
        (P.size + n < 0 ∨ KERNBASE ≤ P.size + n ∨
          0 < n ∧ affords s P (P.size + n).toNat = false))

/-- The shrinks and growths that come out right. -/
def Sbrkable (s : Core) (P : Proc) (n : Int) : Prop :=
  n = 0 ∨ (n < 0 ∧ P.size = 0) ∨
  (0 < n ∧ (KERNBASE ≤ P.size + n ∨ affords s P (P.size + n).toNat = true)) ∨
  (n < 0 ∧ 0 < P.size + n ∧
    ∀ va : Nat, PGSIZE ∣ va → P.size + n ≤ va → va < P.size → Present s P.page va)

/-! ### Growing -/

theorem grow_exact_iff (hinv : Inv s) (hb : Backed (owns s) M c [] s) (hP : s.procs pid = some P)
    (hM : ∀ va, M pid va ↔ PGSIZE ∣ va ∧ va < P.size) (hn : 0 < n) (hmax : n ≤ INT_MAX) :
    SbrkExact s pid P n (c pid) ↔ KERNBASE ≤ P.size + n ∨ affords s P (P.size + n).toNat = true := by
  have hsize := hinv.size pid P hP
  have hown : owns s pid P.page := ⟨P, hP, rfl⟩
  obtain ⟨e, he⟩ : ∃ e : Nat, (P.size : Int) + n = e := ⟨(P.size + n).toNat, by omega⟩
  have hmod : ((P.size + n) % 2 ^ 32).toNat = e := by
    rw [he]
    unfold KERNBASE INT_MAX at *
    omega
  have hret : procgrowRet s pid P n = (do
      let (s, sz) ← allocuvm s P.page P.size e pid
      return if sz = 0 then (s, -1) else (s.setProc pid (some { P with size := sz }), 0)) := by
    unfold procgrowRet
    dsimp only
    rw [if_pos hn, hmod]
  have htoNat : ((P.size : Int) + n).toNat = e := by omega
  rw [htoNat]
  unfold SbrkExact
  rw [hret, htoNat, he]
  by_cases hkern : KERNBASE ≤ e
  · refine iff_of_true ⟨s, -1, ?_, Or.inr ⟨rfl, rfl, hb.space hown hM, Or.inr (Or.inl ?_)⟩⟩ (Or.inl ?_)
    · rw [allocuvm, if_pos hkern]
      rfl
    · exact_mod_cast hkern
    · exact_mod_cast hkern
  · have hlt : ¬ e < P.size := by omega
    have hl : ∀ va ∈ pages P.size e, PGSIZE ∣ va ∧ va < KERNBASE := by
      intro va hva
      obtain ⟨h1, h2⟩ := mem_pages hva
      exact ⟨h1, by omega⟩
    have hnew : ∀ va ∈ pages P.size e, ¬ M pid va := by
      intro va hva hm
      have h1 := (mem_pages_iff.mp hva).2.1
      have h2 := ((hM va).mp hm).2
      have h3 := le_pgroundup P.size
      omega
    -- the bytes the process sees afterwards
    obtain ⟨c', hc'⟩ : ∃ c' : Content, c' = fun pid' va =>
        if pid' = pid ∧ pgroundup P.size ≤ va then 0 else c pid' va := ⟨_, rfl⟩
    have hsame : ∀ pid' va, M pid' va → ∀ k < PGSIZE, c' pid' (va + k) = c pid' (va + k) := by
      intro pid' va hm k hk
      rw [hc']
      dsimp only
      rw [if_neg]
      rintro ⟨rfl, hge⟩
      obtain ⟨h1, h2⟩ := (hM va).mp hm
      unfold pgroundup PGSIZE at *
      omega
    have hzero : ∀ va, pgroundup P.size ≤ va → c' pid va = 0 := by
      intro va hva
      rw [hc']
      exact if_pos ⟨rfl, hva⟩
    obtain ⟨D, hD⟩ := Option.ne_none_iff_exists'.mp (hinv.sound.live pid P.page hown)
    have hfol := allocLoop_follows (pgroundup P.size) hown (pages P.size e)
      hinv.sound (hb.recontent hsame) ⟨D, hD, fun _ => rfl⟩ hl (nodup_pages _ _) hnew
      fun va hva k _ => hzero _ ((mem_pages_iff.mp hva).2.1.trans (Nat.le_add_right _ _))
    have hafford : affords s P e = true ↔ ∃ v, allocLoop P.page (pgroundup P.size) pid
        (pages P.size e) s = .ok v := by
      rw [hfol.isSome, affords, hD]
    constructor
    · rintro ⟨t, r, ht, -⟩
      right
      rw [hafford]
      obtain ⟨v, hv, -⟩ := bind_eq_ok.mp ht
      rw [allocuvm, if_neg hkern, if_neg hlt] at hv
      obtain ⟨w, hw, -⟩ := bind_eq_ok.mp hv
      exact ⟨w, hw⟩
    · intro hor
      obtain ⟨⟨u, o⟩, hu⟩ := hafford.mp (hor.resolve_left fun hle => hkern (by exact_mod_cast hle))
      have hk : KeysIn P.page pid s.pgqueue ((pages P.size e).filter (pgroundup P.size < ·)) :=
        hinv.keysIn hP fun va hva => (hl va (List.mem_filter.mp hva).1).1
      obtain ⟨-, hevol, rfl⟩ := allocLoop_spec hown _ hinv.sound hl hk hu
      have halloc : allocuvm s P.page P.size e pid = .ok (u, e) := by
        rw [allocuvm, if_neg hkern, if_neg hlt, hu]
        rfl
      have hpos : ¬ e = 0 := by omega
      have hbu := allocuvm_backed hinv hb hP hM hsame hzero halloc
        (by rw [allocSize, if_neg hkern, if_neg hlt])
      rw [if_neg hpos] at hbu
      refine ⟨u.setProc pid (some { P with size := e }), 0, ?_, Or.inl ⟨rfl, e, c' pid, he.symm, ?_, ?_, ?_, ?_⟩⟩
      · rw [halloc]
        change Except.ok (if e = 0 then _ else _) = _
        rw [if_neg hpos]
      · change Function.update u.procs pid _ = _
        rw [hevol.procs]
      · exact (hbu.space hown fun va => resized_self).setProc
      · intro va hva
        rw [hc']
        dsimp only
        rw [if_neg]
        rintro ⟨-, hge⟩
        have := le_pgroundup P.size
        omega
      · exact fun va hva _ => hzero va hva

/-! ### Shrinking -/

/-- A slot of a page that is not present stays. -/
theorem dealloc_slot_stays {startva endva r va i : Nat} (hs : Sound own s) (hown : own pid d)
    (hva : PGSIZE ∣ va) (hnp : ¬ Present s d va) (hkey : s.swapMap i = va ||| pid)
    (ht : deallocuvm s d startva endva pid = .ok (t, r)) : t.swapMap i = va ||| pid := by
  unfold deallocuvm at ht
  split at ht
  · cases ht
    exact hkey
  · split at ht
    · cases ht
    · obtain ⟨vas, hnd, hmem, heq⟩ := deallocLoop_visits d startva pid (startva / PGSIZE + 1)
        (i := pgroundup endva) (s := s) (pgroundup_dvd endva) (by unfold PGSIZE; omega)
      obtain rfl := congrArg Prod.fst (Except.ok.inj ht)
      dsimp only
      rw [heq]
      have hun : Unmapped d pid vas s (vas.foldl (unmapAt d pid) s) :=
        foldl_unmapped vas hnd fun va hva => ((hmem va).mp hva).2.2.2.1
      have hout : s.swapMap i ∉ vas.map fun va => va ||| pid := by
        rw [hkey]
        intro hin
        obtain ⟨va', hva', hk⟩ := List.mem_map.mp hin
        obtain ⟨hdvd, -, -, hp, -⟩ := (hmem va').mp hva'
        have hpid := hs.small pid d hown
        obtain ⟨rfl, -⟩ := key_inj hdvd hva hpid hpid hk
        exact hnp hp
      have hslot := congrArg (fun r => r.2 i) hun.queue
      exact hslot.trans ((release_slot_other (Or.inl hout)).trans hkey)

theorem shrink_exact_iff (hinv : Inv s) (hb : Backed (owns s) M c [] s) (hP : s.procs pid = some P)
    (hM : ∀ va, M pid va ↔ PGSIZE ∣ va ∧ va < P.size) (hn : n < 0) (hmin : INT_MIN ≤ n) :
    SbrkExact s pid P n (c pid) ↔ P.size = 0 ∨ (0 < P.size + n ∧
      ∀ va : Nat, PGSIZE ∣ va → P.size + n ≤ va → va < P.size → Present s P.page va) := by
  have hsize := hinv.size pid P hP
  have hown : owns s pid P.page := ⟨P, hP, rfl⟩
  have hret : procgrowRet s pid P n = (do
      let (s, sz) ← deallocuvm s P.page P.size ((P.size + n) % 2 ^ 32).toNat pid
      return if sz = 0 then (s, -1) else (s.setProc pid (some { P with size := sz }), 0)) := by
    unfold procgrowRet
    dsimp only
    rw [if_neg (by omega), if_pos hn]
  unfold SbrkExact
  rw [hret]
  rcases Nat.eq_zero_or_pos P.size with hz | hpos
  · -- nothing to release, and size zero is taken for an error
    refine iff_of_true ⟨s, -1, ?_, Or.inr ⟨rfl, rfl, hb.space hown hM, Or.inl (by omega)⟩⟩ (Or.inl hz)
    rw [deallocuvm, if_pos (by omega), hz]
    rfl
  · have hor : ∀ Q : Prop, (P.size = 0 ∨ Q) ↔ Q := fun Q => or_iff_right (by omega)
    rw [hor]
    rcases lt_or_ge (P.size + n) 0 with hneg | hge
    · -- the end wraps round to an address above the size
      have hwrap : P.size ≤ ((P.size + n) % 2 ^ 32).toNat := by
        unfold KERNBASE INT_MIN at *
        omega
      refine iff_of_false ?_ fun h => by omega
      rintro ⟨t, r, ht, hr⟩
      rw [deallocuvm, if_pos hwrap] at ht
      change Except.ok (if P.size = 0 then _ else _) = _ at ht
      rw [if_neg (by omega)] at ht
      cases ht
      rcases hr with ⟨-, sz, -, hsz, -⟩ | ⟨hr, -⟩
      · omega
      · cases hr
    · obtain ⟨e, he⟩ : ∃ e : Nat, (P.size : Int) + n = e := ⟨(P.size + n).toNat, by omega⟩
      have hmod : ((P.size + n) % 2 ^ 32).toNat = e := by
        rw [he]
        unfold KERNBASE at *
        omega
      rw [hmod, he]
      obtain ⟨D, hD⟩ := Option.ne_none_iff_exists'.mp (hinv.sound.live pid P.page hown)
      obtain ⟨u, hu⟩ : ∃ u, deallocuvm s P.page P.size e pid = .ok (u, e) := by
        rw [deallocuvm, if_neg (by omega), hD]
        exact ⟨_, rfl⟩
      rw [hu]
      obtain ⟨q₁, q₂, -, -, -, hun, -⟩ := deallocuvm_spec hown (hinv.sound.split P.page) hu
      rcases Nat.eq_zero_or_pos e with hz | hepos
      · -- everything is released, and the new size is taken for an error
        refine iff_of_false ?_ fun h => by omega
        rintro ⟨t, r, ht, hr⟩
        change Except.ok (if e = 0 then _ else _) = _ at ht
        rw [if_pos hz] at ht
        cases ht
        rcases hr with ⟨hr, -⟩ | ⟨-, -, -, h | h | h⟩
        · cases hr
        · omega
        · unfold KERNBASE at h
          omega
        · omega
      · have hret' : (Except.ok (u, e) >>= fun v : Core × Nat =>
            (pure (if v.2 = 0 then (v.1, (-1 : Int)) else
              (v.1.setProc pid (some { P with size := v.2 }), 0)) : Except Stop (Core × Int))) =
            .ok (u.setProc pid (some { P with size := e }), 0) := by
          change Except.ok (if e = 0 then _ else _) = _
          rw [if_neg (by omega)]
        constructor
        · rintro ⟨t, r, ht, hr⟩
          obtain ⟨rfl, rfl⟩ := Prod.mk.inj (Except.ok.inj (hret'.symm.trans ht))
          refine ⟨by omega, ?_⟩
          rcases hr with ⟨-, sz, c', hsz, -, hspace, -⟩ | ⟨hr, -⟩
          · obtain rfl : sz = e := by omega
            intro va hva hle hlt
            by_contra hnp
            obtain ⟨i, hi, hkey⟩ := hb.away pid P.page va hown ((hM va).mpr ⟨hva, hlt⟩) hnp
            have hstay := dealloc_slot_stays hinv.sound hown hva hnp hkey hu
            have hin := (hspace.pages va hva).mp (Or.inr ⟨i, hi, hstay⟩)
            rw [lt_pgroundup_iff hva] at hin
            omega
          · cases hr
        · rintro ⟨-, hall⟩
          obtain ⟨hbu, -⟩ := deallocuvm_backed hinv hb hP hM
            (fun _ va hva hle hlt => hall va hva (by omega) hlt) hu
          refine ⟨_, 0, hret', Or.inl ⟨rfl, e, c pid, he.symm, ?_, ?_, fun _ _ => rfl, ?_⟩⟩
          · change Function.update u.procs pid _ = _
            rw [hun.procs]
          · exact (hbu.space hown fun va => resized_self).setProc
          · intro va h1 h2
            unfold pgroundup PGSIZE at h1 h2
            omega

end Yonix.Vm
