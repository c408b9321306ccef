/-
  Yonix/Vm/Transparent.lean
  =========================
  **Swapping is transparent to the processes.**

  Processes store bytes, grow and shrink, and fault; the rest of the kernel takes and
  returns frames and slabs at any time, and each allocation may move pages to the swap
  area.  `written` says from the actions alone which bytes each process should see.
  Along every run that starts with all pages in memory, a byte of a present page is
  the right one, and for a page that is away the search by identifier finds the slot
  that was filled last, and `page_in` brings the right bytes back.  A shrinking `sbrk`
  must not release a page that is away, because its slot would stay behind, and must
  leave some memory.
-/
import Yonix.Vm.Swap
import Yonix.Vm.Integrity

namespace Yonix.Vm

variable {s t : Core} {c : Content}

/-! ### Reading -/

/-- The byte at `va`, when its page is present. -/
def readByte (s : Core) (d va : Nat) : Option UInt8 :=
  match s.pte d (pgrounddown va) with
  | some x => if x.p then some ((s.mem x.frame).get (va - pgrounddown va)) else none
  | none => none

/-- What the processes see in a state with all pages in memory. -/
def contents (s : Core) (pid va : Nat) : UInt8 :=
  match s.procs pid with
  | some P => (readByte s P.page va).getD 0
  | none => 0

/-- What the processes should see after an action.  New pages are zero; there is no page
    above the new size. -/
def written (s : Core) (c : Content) : Act → Content
  | .call pid (.store va b) => fun pid' va' => if pid' = pid ∧ va' = va then b else c pid' va'
  | .call pid (.sbrk n) => fun pid' va' =>
    match s.procs pid with
    | some P => if pid' = pid ∧ 0 < n ∧ pgroundup P.size ≤ va' then 0 else c pid' va'
    | none => c pid' va'
  | _ => c

/-- The actions of a run. -/
def Paging : Act → Bool
  | .call _ (.store _ _) | .call _ (.sbrk _) | .call _ (.fault _) => true
  | .kalloc | .kfree _ | .allocSlab | .freeSlab | .readRef _ _ => true
  | _ => false

/-- A shrinking `sbrk` leaves some memory and finds every page it releases present. -/
def Shrinks (s : Core) : Act → Prop
  | .call pid (.sbrk n) => ∀ P, s.procs pid = some P → n < 0 →
    ((P.size + n) % 2 ^ 32).toNat < P.size →
    ((P.size + n) % 2 ^ 32).toNat ≠ 0 ∧
    ∀ va, PGSIZE ∣ va → ((P.size + n) % 2 ^ 32).toNat ≤ va → va < P.size → Present s P.page va
  | _ => True

/-- Every page of every process is in memory, in a frame of its own. -/
structure Loaded (s : Core) : Prop where
  inv : Inv s
  pos : ∀ pid P, s.procs pid = some P → pid ≠ 0
  blank : ∀ pid P, s.procs pid = some P → Blank s P.page
  resident : ∀ pid P va, s.procs pid = some P → PGSIZE ∣ va → (Present s P.page va ↔ va < P.size)
  nodup : (s.freelist ++ s.kheld).Nodup
  apart : ∀ pid P va f, s.procs pid = some P → PGSIZE ∣ va → Maps s P.page va f →
    f ∉ s.freelist ++ s.kheld
  inj : ∀ pid P va pid' P' va' f, s.procs pid = some P → s.procs pid' = some P' → PGSIZE ∣ va →
    PGSIZE ∣ va' → Maps s P.page va f → Maps s P'.page va' f → P.page = P'.page ∧ va = va'
  noSlot : ∀ pid P va i, s.procs pid = some P → PGSIZE ∣ va → i < SLOTSIZE →
    s.swapMap i ≠ va ||| pid

/-! ### The invariant -/

/-- The pages of the processes. -/
def pagesOf (s : Core) (pid va : Nat) : Prop :=
  ∃ P, s.procs pid = some P ∧ PGSIZE ∣ va ∧ va < P.size

structure Mirror (c : Content) (s : Core) : Prop where
  inv : Inv s
  backed : Backed (owns s) (pagesOf s) c [] s

theorem pgrounddown_dvd (va : Nat) : PGSIZE ∣ pgrounddown va := Dvd.intro_left _ rfl

theorem pgrounddown_le (va : Nat) : pgrounddown va ≤ va := Nat.div_mul_le_self va PGSIZE

theorem sub_pgrounddown_lt (va : Nat) : va - pgrounddown va < PGSIZE := by
  unfold pgrounddown PGSIZE
  omega

theorem readByte_of_maps {d va f : Nat} (h : Maps s d (pgrounddown va) f) :
    readByte s d va = some ((s.mem f).get (va - pgrounddown va)) := by
  obtain ⟨x, hx, hp, rfl⟩ := h
  unfold readByte
  rw [hx]
  simp [hp]

/-- A present page shows the right byte. -/
theorem Mirror.read {pid va : Nat} {P : Proc} (h : Mirror c s) (hP : s.procs pid = some P)
    (hp : Present s P.page (pgrounddown va)) : readByte s P.page va = some (c pid va) := by
  obtain ⟨f, hf⟩ := present_iff.mp hp
  obtain ⟨-, hc⟩ := h.backed.here pid P.page _ f ⟨P, hP, rfl⟩ (pgrounddown_dvd va) hf
  rw [readByte_of_maps hf, hc _ (sub_pgrounddown_lt va), Nat.add_sub_cancel' (pgrounddown_le va)]

theorem Mirror.of_loaded (h : Loaded s) : Mirror (contents s) s := by
  refine ⟨h.inv, ?_⟩
  refine ⟨?_, ?_, ?_, ?_, ?_, ?_, ?_, ?_, ?_, ?_⟩
  · rintro pid d d' ⟨P, hP, rfl⟩ h2
    exact (owns_uniq hP h2).symm
  · rintro pid d ⟨P, hP, rfl⟩
    exact h.pos pid P hP
  · rintro pid d ⟨P, hP, rfl⟩
    exact h.blank pid P hP
  · rw [List.append_nil]
    exact h.nodup
  · rintro pid d va f ⟨P, hP, rfl⟩ hva hf
    rw [List.append_nil]
    exact h.apart pid P va f hP hva hf
  · rintro pid d va pid' d' va' f ⟨P, hP, rfl⟩ ⟨P', hP', rfl⟩
    exact h.inj pid P va pid' P' va' f hP hP'
  · rintro pid d va f ⟨P, hP, rfl⟩ hva hf
    refine ⟨⟨P, hP, hva, (h.resident pid P va hP hva).mp hf.present⟩, ?_⟩
    intro k hk
    have hdown : pgrounddown (va + k) = va := by
      unfold pgrounddown PGSIZE at *
      omega
    unfold contents
    rw [hP]
    dsimp only
    rw [readByte_of_maps (s := s) (f := f) (by rw [hdown]; exact hf), hdown, Nat.add_sub_cancel_left]
    rfl
  · rintro pid d va i ⟨P, hP, rfl⟩ hva hi hk
    exact absurd hk (h.noSlot pid P va i hP hva hi)
  · rintro pid d va ⟨P, hP, rfl⟩ ⟨Q, hQ, hva, hlt⟩ hnp
    rw [hP] at hQ
    cases hQ
    exact absurd ((h.resident pid P va hP hva).mpr hlt) hnp
  · rintro pid d va ⟨P, hP, rfl⟩ ⟨Q, hQ, hva, hlt⟩
    rw [hP] at hQ
    cases hQ
    obtain ⟨x, hx, -⟩ := (h.resident pid P va hP hva).mpr hlt
    exact ⟨hva, by simp [hx]⟩

/-! ### One action -/

theorem pagesOf_congr (h : t.procs = s.procs) : pagesOf t = pagesOf s := by
  unfold pagesOf
  rw [h]

/-- The processes are the same. -/
theorem Mirror.of_procs (hinv : Inv t) (hp : t.procs = s.procs)
    (hb : Backed (owns s) (pagesOf s) c [] t) : Mirror c t := by
  refine ⟨hinv, ?_⟩
  rw [owns_congr hp, pagesOf_congr hp]
  exact hb

/-- The size of one process changes. -/
theorem pagesOf_setProc {pid sz : Nat} {P : Proc} (h : t.procs = s.procs) :
    pagesOf (t.setProc pid (some { P with size := sz })) = fun pid' va =>
      (pagesOf s pid' va ∧ pid' ≠ pid) ∨ (pid' = pid ∧ PGSIZE ∣ va ∧ va < sz) := by
  funext pid' va
  apply propext
  unfold pagesOf
  rw [procs_setProc, h]
  by_cases hpid : pid' = pid
  · simp [hpid]
  · simp [hpid]

theorem mem_pages_iff {a b va : Nat} :
    va ∈ pages a b ↔ PGSIZE ∣ va ∧ pgroundup a ≤ va ∧ va < b := by
  constructor
  · intro h
    obtain ⟨h1, h2⟩ := mem_pages h
    obtain ⟨k, -, rfl⟩ := List.mem_map.mp h
    exact ⟨h1, Nat.le_add_right _ _, h2⟩
  · rintro ⟨h1, h2, h3⟩
    have h4 := pgroundup_dvd a
    obtain ⟨k, hk⟩ := Nat.dvd_sub h1 h4
    refine List.mem_map.mpr ⟨k, ?_, ?_⟩
    · rw [List.mem_range]
      unfold PGSIZE at *
      omega
    · rw [Nat.mul_comm, ← hk]
      omega

theorem nodup_pages (a b : Nat) : (pages a b).Nodup := by
  refine List.Nodup.map ?_ List.nodup_range
  intro i j hij
  dsimp only at hij
  unfold PGSIZE at hij
  omega

theorem le_pgroundup (a : Nat) : a ≤ pgroundup a := by
  unfold pgroundup PGSIZE
  omega

theorem lt_pgroundup_iff {a va : Nat} (h : PGSIZE ∣ va) : va < pgroundup a ↔ va < a := by
  unfold pgroundup PGSIZE at *
  omega

theorem Mirror.store {pid va : Nat} {P : Proc} {b : UInt8} (h : Mirror c s)
    (hP : s.procs pid = some P) (ht : store s P va b = .ok t) :
    Mirror (written s c (.call pid (.store va b))) t := by
  have hinv := h.inv.store ht
  have hown : owns s pid P.page := ⟨P, hP, rfl⟩
  unfold Vm.store at ht
  dsimp only at ht
  split at ht
  · cases ht
  · rename_i x hx
    split at ht
    · rename_i hxp
      cases ht
      have hmaps : Maps s P.page (pgrounddown va) x.frame := ⟨x, hx, hxp.1, rfl⟩
      have hoff := sub_pgrounddown_lt va
      have hle := pgrounddown_le va
      obtain ⟨-, hc⟩ := h.backed.here pid P.page _ _ hown (pgrounddown_dvd va) hmaps
      have hw : Backed (owns s) (pagesOf s) (written s c (.call pid (.store va b))) []
          (s.setMem x.frame
            ((s.mem x.frame).patch (va - pgrounddown va) (fun _ => b) 1)) := by
        refine Backed.write h.inv.sound h.backed hown (pgrounddown_dvd va) hmaps ?_ ?_
        · intro k hk
          rw [Bytes.get_patch _ _ _ _ hk]
          unfold written
          dsimp only
          by_cases hkv : k = va - pgrounddown va
          · rw [if_pos (by omega), if_pos ⟨rfl, by omega⟩]
          · rw [if_neg (by omega), if_neg (by omega)]
            exact hc k hk
        · intro pid' va' hva' hne k hk
          unfold written
          dsimp only
          rw [if_neg]
          rintro ⟨rfl, hva⟩
          apply hne
          refine ⟨rfl, ?_⟩
          rw [← hva]
          unfold pgrounddown PGSIZE at *
          omega
      exact Mirror.of_procs hinv rfl (hw.retag (y := x) hx rfl rfl)
    · cases ht

/-- Only bytes at pages of the processes matter. -/
theorem Backed.recontent {own M : Nat → Nat → Prop} {c' : Content} {held : List Nat}
    (h : Backed own M c held s)
    (hc : ∀ pid va, M pid va → ∀ k < PGSIZE, c' pid (va + k) = c pid (va + k)) :
    Backed own M c' held s := by
  refine ⟨h.func, h.pos, h.blank, h.nodup, h.apart, h.inj, ?_, ?_, h.away, h.mapped⟩
  · intro pid d va f h1 h2 h3
    obtain ⟨hm, hh⟩ := h.here pid d va f h1 h2 h3
    exact ⟨hm, hh.congr rfl (hc pid va hm)⟩
  · intro pid d va i h1 h2 h3 h4
    obtain ⟨hm, hnp, hfl, hh⟩ := h.slot pid d va i h1 h2 h3 h4
    exact ⟨hm, hnp, hfl, hh.congr rfl (hc pid va hm)⟩

/-- Writing the process record changes no byte. -/
theorem Mirror.setProc {pid sz : Nat} {P : Proc} (hP : s.procs pid = some P)
    (hinv : Inv (t.setProc pid (some { P with size := sz }))) (hp : t.procs = s.procs)
    (hb : Backed (owns s) (fun pid' va => (pagesOf s pid' va ∧ pid' ≠ pid) ∨
      (pid' = pid ∧ PGSIZE ∣ va ∧ va < sz)) c [] t) :
    Mirror c (t.setProc pid (some { P with size := sz })) := by
  refine ⟨hinv, ?_⟩
  have howns := owns_setProc (Q := { P with size := sz }) hP hp rfl
  rw [howns, pagesOf_setProc hp]
  exact hb.congr rfl rfl rfl rfl rfl rfl rfl

/-- The pages of process `pid` are now those below `sz`. -/
def resized (M : Nat → Nat → Prop) (pid sz : Nat) (pid' va : Nat) : Prop :=
  (M pid' va ∧ pid' ≠ pid) ∨ (pid' = pid ∧ PGSIZE ∣ va ∧ va < sz)

theorem resized_self {M : Nat → Nat → Prop} {pid sz va : Nat} :
    resized M pid sz pid va ↔ PGSIZE ∣ va ∧ va < sz := by
  simp [resized]

/-- The same size again. -/
theorem resized_same {M : Nat → Nat → Prop} {pid sz : Nat}
    (hM : ∀ va, M pid va ↔ PGSIZE ∣ va ∧ va < sz) : resized M pid sz = M := by
  funext pid' va
  apply propext
  unfold resized
  by_cases hpid : pid' = pid
  · subst hpid
    simp [hM]
  · simp [hpid]

theorem pagesOf_iff {pid va : Nat} {P : Proc} (hP : s.procs pid = some P) :
    pagesOf s pid va ↔ PGSIZE ∣ va ∧ va < P.size := by
  simp [pagesOf, hP]

theorem allocuvm_backed {pid endva sz : Nat} {P : Proc} {c' : Content} {M : Nat → Nat → Prop}
    (hinv : Inv s) (hback : Backed (owns s) M c [] s) (hP : s.procs pid = some P)
    (hM : ∀ va, M pid va ↔ PGSIZE ∣ va ∧ va < P.size)
    (hc : ∀ pid' va, M pid' va → ∀ k < PGSIZE, c' pid' (va + k) = c pid' (va + k))
    (hzero : ∀ va, pgroundup P.size ≤ va → c' pid va = 0)
    (ht : allocuvm s P.page P.size endva pid = .ok (t, sz)) (hsz : sz = allocSize P.size endva) :
    Backed (owns s) (if sz = 0 then M else resized M pid sz) c' [] t := by
  have hown : owns s pid P.page := ⟨P, hP, rfl⟩
  have hb := hback.recontent hc
  unfold allocuvm at ht
  unfold allocSize at hsz
  split at ht
  · rename_i hkern
    rw [if_pos hkern] at hsz
    subst hsz
    cases ht
    rw [if_pos rfl]
    exact hb
  · rename_i hkern
    rw [if_neg hkern] at hsz
    split at ht
    · rename_i hend
      rw [if_pos hend] at hsz
      subst hsz
      cases ht
      rw [resized_same hM, ite_self]
      exact hb
    · rename_i hend
      rw [if_neg hend] at hsz
      obtain ⟨⟨u, o⟩, hu, ht⟩ := bind_eq_ok.mp ht
      have hl : ∀ va ∈ pages P.size endva, PGSIZE ∣ va ∧ va < KERNBASE := by
        intro va hva
        obtain ⟨h1, h2⟩ := mem_pages hva
        exact ⟨h1, by omega⟩
      have hnew : ∀ va ∈ pages P.size endva, ¬ M pid va := by
        intro va hva hm
        have h1 := (mem_pages_iff.mp hva).2.1
        have h2 := ((hM va).mp hm).2
        have h3 := le_pgroundup P.size
        omega
      have hz : ∀ va ∈ pages P.size endva, ∀ k < PGSIZE, c' pid (va + k) = 0 := by
        intro va hva k _
        have h1 := (mem_pages_iff.mp hva).2.1
        exact hzero _ (by omega)
      have hk : KeysIn P.page pid s.pgqueue
          ((pages P.size endva).filter (pgroundup P.size < ·)) :=
        hinv.keysIn hP fun va hva => (hl va (List.mem_filter.mp hva).1).1
      obtain ⟨-, -, rfl⟩ := allocLoop_spec hown _ hinv.sound hl hk hu
      obtain ⟨hbu, -⟩ :=
        allocLoop_backed hown _ hinv.sound hb hl (nodup_pages _ _) hnew hz hu
      cases ht
      have hfun : (fun pid' va => M pid' va ∨ (pid' = pid ∧ va ∈ pages P.size endva)) =
          resized M pid endva := by
        funext pid' va
        apply propext
        unfold resized
        by_cases hpid : pid' = pid
        · subst hpid
          simp only [hM, mem_pages_iff, true_and, ne_eq, not_true_eq_false, and_false,
            false_or]
          constructor
          · rintro (⟨h1, h2⟩ | ⟨h1, -, h2⟩)
            · exact ⟨h1, by omega⟩
            · exact ⟨h1, h2⟩
          · rintro ⟨h1, h2⟩
            by_cases h3 : va < P.size
            · exact Or.inl ⟨h1, h3⟩
            · refine Or.inr ⟨h1, ?_, h2⟩
              have := lt_pgroundup_iff (a := P.size) h1
              omega
        · simp [hpid]
      rw [hfun] at hbu
      split
      · rename_i h0
        subst h0
        have hsize : P.size = 0 := by omega
        have heq := resized_same hM
        rw [hsize] at heq
        rw [heq] at hbu
        exact hbu
      · exact hbu

theorem deallocuvm_backed {pid endva sz : Nat} {P : Proc} {M : Nat → Nat → Prop} (hinv : Inv s)
    (hback : Backed (owns s) M c [] s) (hP : s.procs pid = some P)
    (hM : ∀ va, M pid va ↔ PGSIZE ∣ va ∧ va < P.size)
    (hall : endva < P.size → ∀ va, PGSIZE ∣ va → endva ≤ va → va < P.size → Present s P.page va)
    (ht : deallocuvm s P.page P.size endva pid = .ok (t, sz)) :
    Backed (owns s) (resized M pid sz) c [] t ∧
      sz = if P.size ≤ endva then P.size else endva := by
  have hown : owns s pid P.page := ⟨P, hP, rfl⟩
  unfold deallocuvm at ht
  split at ht
  · rename_i hle
    cases ht
    rw [if_pos hle, resized_same hM]
    exact ⟨hback, rfl⟩
  · rename_i hlt
    split at ht
    · cases ht
    · cases ht
      refine ⟨?_, (if_neg hlt).symm⟩
      have hup := le_pgroundup endva
      obtain ⟨hb, -⟩ := deallocLoop_backed P.size hown (P.size / PGSIZE + 1)
        (pgroundup_dvd endva) hinv.sound hback
        (fun va h1 h2 h3 => hall (by omega) va h1 (by omega) h3) (by
          unfold PGSIZE
          omega)
      have hfun : (fun pid' va => M pid' va ∧
          ¬ (pid' = pid ∧ pgroundup endva ≤ va ∧ va < P.size)) = resized M pid endva := by
        funext pid' va
        apply propext
        unfold resized
        by_cases hpid : pid' = pid
        · subst hpid
          simp only [hM, true_and, ne_eq, not_true_eq_false, and_false, false_or]
          constructor
          · rintro ⟨⟨h1, h2⟩, h3⟩
            have := lt_pgroundup_iff (a := endva) h1
            exact ⟨h1, by omega⟩
          · rintro ⟨h1, h2⟩
            exact ⟨⟨h1, by omega⟩, by omega⟩
        · simp [hpid]
      rw [hfun] at hb
      exact hb

theorem Mirror.procgrow {pid : Nat} {P : Proc} {n : Int} (h : Mirror c s)
    (hP : s.procs pid = some P) (hsh : Shrinks s (.call pid (.sbrk n)))
    (ht : procgrow s pid P n = .ok t) : Mirror (written s c (.call pid (.sbrk n))) t := by
  have hinv := h.inv.procgrow hP ht
  have hown : owns s pid P.page := ⟨P, hP, rfl⟩
  have hM : ∀ va, pagesOf s pid va ↔ PGSIZE ∣ va ∧ va < P.size := fun va => pagesOf_iff hP
  unfold Vm.procgrow at ht
  dsimp only at ht
  split at ht
  · rename_i hn
    have hc : ∀ pid' va, pagesOf s pid' va → ∀ k < PGSIZE,
        written s c (.call pid (.sbrk n)) pid' (va + k) = c pid' (va + k) := by
      intro pid' va hm k hk
      unfold written
      simp only [hP]
      rw [if_neg]
      rintro ⟨rfl, -, hge⟩
      obtain ⟨h1, h2⟩ := (pagesOf_iff hP).mp hm
      unfold pgroundup PGSIZE at *
      omega
    have hzero : ∀ va, pgroundup P.size ≤ va → written s c (.call pid (.sbrk n)) pid va = 0 := by
      intro va hva
      unfold written
      simp only [hP]
      rw [if_pos ⟨trivial, hn, hva⟩]
    obtain ⟨⟨u, sz⟩, hu, ht⟩ := bind_eq_ok.mp ht
    obtain ⟨-, he, hsz⟩ := allocuvm_spec hown h.inv.sound
      (h.inv.keysIn hP fun va hva => mem_queuedOf_allocPages hva) hu
    have hb := allocuvm_backed h.inv h.backed hP hM hc hzero hu hsz
    dsimp only at ht
    split at ht
    · rename_i h0
      cases ht
      rw [if_pos h0] at hb
      exact Mirror.of_procs hinv he.procs hb
    · rename_i h0
      cases ht
      rw [if_neg h0] at hb
      exact Mirror.setProc hP hinv he.procs hb
  · rename_i hn
    have hw : written s c (.call pid (.sbrk n)) = c := by
      funext pid' va
      unfold written
      simp only [hP]
      rw [if_neg (by omega)]
    rw [hw]
    split at ht
    · rename_i hneg
      obtain ⟨⟨u, sz⟩, hu, ht⟩ := bind_eq_ok.mp ht
      obtain ⟨hb, hsz⟩ := deallocuvm_backed h.inv h.backed hP hM (fun hlt => (hsh P hP hneg hlt).2) hu
      obtain ⟨q₁, q₂, -, -, -, hun, -⟩ := deallocuvm_spec hown (h.inv.sound.split P.page) hu
      dsimp only at ht
      split at ht
      · rename_i h0
        cases ht
        -- the size was zero already
        have hsize : P.size = 0 := by
          by_contra hne
          split at hsz
          · omega
          · rename_i hlt
            exact (hsh P hP hneg (by omega)).1 (hsz.symm.trans h0)
        have heq := resized_same hM
        rw [hsize] at heq
        rw [h0, heq] at hb
        exact Mirror.of_procs hinv hun.procs hb
      · cases ht
        exact Mirror.setProc hP hinv hun.procs hb
    · cases ht
      exact h

theorem Mirror.pgfltHandle {pid va : Nat} {P : Proc} (h : Mirror c s) (hP : s.procs pid = some P)
    (ht : pgfltHandle s pid P va = .ok t) : Mirror c t := by
  unfold Vm.pgfltHandle at ht
  dsimp only at ht
  split at ht
  · have hsize := h.inv.size pid P hP
    obtain ⟨hs, he, hb, -, -⟩ := pageIn_backed h.inv.sound h.backed ⟨P, hP, rfl⟩
      (pgrounddown_dvd va) (by omega) ht
    exact Mirror.of_procs (h.inv.congr hs he.procs he.nextpid) he.procs hb
  · cases ht

theorem Mirror.kalloc {o : Option Nat} (h : Mirror c s) (ht : kalloc s = .ok (t, o)) :
    ∃ f, o = some f ∧ Mirror c { t with kheld := f :: t.kheld } := by
  obtain ⟨hs, he, -⟩ := kalloc_spec h.inv.sound ht
  obtain ⟨f, rfl, hb, -, -⟩ := kalloc_backed h.inv.sound h.backed ht
  have hperm : List.Perm (t.freelist ++ (f :: t.kheld) ++ []) (t.freelist ++ t.kheld ++ [f]) := by
    rw [List.append_nil, List.append_assoc]
    exact (List.perm_append_singleton f t.kheld).symm.append_left t.freelist
  have hinv : Inv { t with kheld := f :: t.kheld } :=
    h.inv.congr (hs.congr rfl rfl rfl hs.count) he.procs he.nextpid
  refine ⟨f, rfl, Mirror.of_procs (s := s) hinv he.procs ⟨hb.func, hb.pos, hb.blank, ?_, ?_, hb.inj,
    hb.here, hb.slot, hb.away, hb.mapped⟩⟩
  · exact hperm.nodup_iff.mpr hb.nodup
  · exact fun pid d va g h1 h2 h3 hmem => hb.apart pid d va g h1 h2 h3 (hperm.mem_iff.mp hmem)

theorem Mirror.kfree {f : Nat} (h : Mirror c s) (hf : f ∈ s.kheld) :
    Mirror c { kfree s f with kheld := s.kheld.erase f } := by
  have hb := h.backed
  have hperm : List.Perm ((f :: s.freelist) ++ s.kheld.erase f ++ []) (s.freelist ++ s.kheld ++ []) := by
    rw [List.append_nil, List.append_nil, List.cons_append]
    exact List.perm_middle.symm.trans ((List.perm_cons_erase hf).symm.append_left s.freelist)
  have hinv : Inv { Vm.kfree s f with kheld := s.kheld.erase f } :=
    h.inv.congr (h.inv.sound.congr rfl rfl rfl (congrArg (· + 1) h.inv.sound.count)) rfl rfl
  refine Mirror.of_procs (s := s) hinv rfl ⟨hb.func, hb.pos, hb.blank, hperm.nodup_iff.mpr hb.nodup,
    ?_, hb.inj, ?_, hb.slot, hb.away, hb.mapped⟩
  · exact fun pid d va g h1 h2 h3 hmem => hb.apart pid d va g h1 h2 h3 (hperm.mem_iff.mp hmem)
  · intro pid d va g h1 h2 h3
    obtain ⟨hm, hc⟩ := hb.here pid d va g h1 h2 h3
    refine ⟨hm, hc.congr (Function.update_of_ne ?_ _ _) fun _ _ => rfl⟩
    rintro rfl
    apply hb.apart pid d va g h1 h2 h3
    rw [List.append_nil]
    exact List.mem_append_right _ hf

theorem Mirror.act {a : Act} (h : Mirror c s) (hp : Paging a = true) (hsh : Shrinks s a)
    (ht : act s a = .ok t) : Mirror (written s c a) t := by
  cases a with
  | call pid cl =>
    unfold Vm.act at ht
    dsimp only at ht
    split at ht
    · rename_i P hP
      split at ht
      · cases ht
      · cases cl with
        | store va b => exact h.store hP ht
        | sbrk n => exact h.procgrow hP hsh ht
        | fault va =>
          have ht' : Vm.pgfltHandle s pid P va = .ok t := by
            unfold Vm.call at ht
            dsimp only at ht
            split at ht
            · split at ht
              · cases ht
              · exact ht
            · exact ht
          exact h.pgfltHandle hP ht'
        | fork => exact absurd hp Bool.false_ne_true
        | exec img => exact absurd hp Bool.false_ne_true
        | exit => exact absurd hp Bool.false_ne_true
    · cases ht
  | wait pid => exact absurd hp Bool.false_ne_true
  | readRef pid ref =>
    cases ht
    exact Mirror.of_procs h.inv.readRef rfl (h.backed.congr rfl rfl rfl rfl rfl rfl rfl)
  | kalloc =>
    obtain ⟨⟨u, o⟩, hu, ht⟩ := bind_eq_ok.mp ht
    obtain ⟨f, rfl, hm⟩ := h.kalloc hu
    cases ht
    exact hm
  | kfree f =>
    unfold Vm.act at ht
    dsimp only at ht
    split at ht
    · rename_i hf
      cases ht
      exact h.kfree hf
    · cases ht
  | allocSlab =>
    obtain ⟨hs, he⟩ := allocSlab_spec h.inv.sound ht
    obtain ⟨hb, -, -⟩ := allocSlab_backed h.inv.sound h.backed ht
    exact Mirror.of_procs (h.inv.congr hs he.procs he.nextpid) he.procs hb
  | freeSlab =>
    cases ht
    exact Mirror.of_procs (h.inv.congr (h.inv.sound.congr rfl rfl rfl h.inv.sound.count) rfl rfl) rfl
      (h.backed.congr rfl rfl rfl rfl rfl rfl rfl)

/-! ### Runs -/

/-- One action, with what the processes should see. -/
def PagingStep (σ : Core × Content) (a : Act) (τ : Core × Content) : Prop :=
  Step σ.1 a τ.1 ∧ τ.2 = written σ.1 σ.2 a ∧ Paging a = true

/-- Before the first page is queued nothing is evicted. -/
theorem kalloc_swapMap {o : Option Nat} (hq : s.pgqueue = []) (ht : kalloc s = .ok (t, o)) :
    t.swapMap = s.swapMap ∧ t.pgqueue = [] := by
  unfold kalloc at ht
  split at ht
  · have hp : pageOut s = .error (.panic .noPageToPageOut) := by
      unfold pageOut
      rw [hq]
      rfl
    rw [hp] at ht
    cases ht
  · have htake : (takeFrame s).1.swapMap = s.swapMap ∧ (takeFrame s).1.pgqueue = s.pgqueue := by
      unfold takeFrame
      cases s.freelist with
      | nil => exact ⟨rfl, rfl⟩
      | cons f l => exact ⟨rfl, rfl⟩
    rw [Except.ok.inj ht, hq] at htake
    exact htake

theorem walkpgdir_swapMap {d va : Nat} {r : Bool} (hq : s.pgqueue = [])
    (ht : walkpgdir s d va true = .ok (t, r)) : t.swapMap = s.swapMap ∧ t.pgqueue = [] := by
  unfold walkpgdir at ht
  split at ht
  · cases ht
  · split at ht
    · cases ht
      exact ⟨rfl, hq⟩
    · rw [if_neg (by decide)] at ht
      obtain ⟨⟨u, o⟩, hu, ht⟩ := bind_eq_ok.mp ht
      have hsame := kalloc_swapMap hq hu
      cases o with
      | none =>
        cases ht
        exact hsame
      | some f =>
        cases ht
        exact hsame

theorem kernelTables_backed {own M : Nat → Nat → Prop} {held : List Nat} {d : Nat} (l : List Nat) :
    ∀ {s t : Core} {r : Bool}, Sound own s → Backed own M c held s → s.pgqueue = [] →
      kernelTables d l s = .ok (t, r) →
      Backed own M c held t ∧ t.swapMap = s.swapMap ∧ t.pgqueue = [] := by
  induction l with
  | nil =>
    intro s t r _ h hq ht
    cases ht
    exact ⟨h, rfl, hq⟩
  | cons i l ih =>
    intro s t r hs h hq ht
    unfold kernelTables at ht
    obtain ⟨⟨u, r'⟩, hu, ht⟩ := bind_eq_ok.mp ht
    obtain ⟨hsu, -, rfl⟩ := walkpgdir_spec hs hu
    obtain ⟨hbu, -, -⟩ := walkpgdir_backed hs h hu
    obtain ⟨hm, hqu⟩ := walkpgdir_swapMap hq hu
    obtain ⟨hbt, hmt, hqt⟩ := ih hsu hbu hqu ht
    exact ⟨hbt, hmt.trans hm, hqt⟩

/-- An empty directory for a process that has none. -/
theorem Backed.adopt {own M : Nat → Nat → Prop} {held : List Nat} {pid f : Nat}
    (h : Backed own M c held s) (hpid : pid ≠ 0) (hno : ∀ d', ¬ own pid d')
    (hd : ∀ pid' d', own pid' d' → d' ≠ s.nextDir) (hM : ∀ va, ¬ M pid va)
    (hslot : ∀ i < SLOTSIZE, ∀ va, PGSIZE ∣ va → s.swapMap i ≠ va ||| pid) :
    Backed (Vm.adopt own pid s.nextDir) M c held (s.newDir f) := by
  have hpte : ∀ {pid' d'}, own pid' d' → ∀ va, (s.newDir f).pte d' va = s.pte d' va := by
    intro pid' d' h1 va
    simp only [Core.pte, Core.newDir, Function.update_of_ne (hd pid' d' h1)]
  have hnew : ∀ va, (s.newDir f).pte s.nextDir va = none := by
    intro va
    simp [Core.pte, Core.newDir]
  have hmaps : ∀ {pid' d'}, Vm.adopt own pid s.nextDir pid' d' → ∀ {va g},
      Maps (s.newDir f) d' va g → own pid' d' ∧ Maps s d' va g := by
    rintro pid' d' (h1 | ⟨-, rfl⟩) va g ⟨x, hx, h2⟩
    · rw [hpte h1] at hx
      exact ⟨h1, x, hx, h2⟩
    · rw [hnew] at hx
      cases hx
  refine ⟨?_, ?_, ?_, h.nodup, ?_, ?_, ?_, ?_, ?_, ?_⟩
  · rintro pid' d₁ d₂ (h1 | ⟨rfl, rfl⟩) (h2 | ⟨h2, h3⟩)
    · exact h.func pid' d₁ d₂ h1 h2
    · subst h2
      exact absurd h1 (hno d₁)
    · exact absurd h2 (hno d₂)
    · exact h3.symm
  · rintro pid' d' (h1 | ⟨rfl, -⟩)
    · exact h.pos pid' d' h1
    · exact hpid
  · rintro pid' d' (h1 | ⟨-, rfl⟩) D va hD htab
    · change Function.update s.dirs s.nextDir _ d' = some D at hD
      rw [Function.update_of_ne (hd pid' d' h1)] at hD
      exact h.blank pid' d' h1 D va hD htab
    · change Function.update s.dirs s.nextDir _ s.nextDir = some D at hD
      rw [Function.update_self] at hD
      cases hD
      rfl
  · intro pid' d' va g h1 h2 h3
    obtain ⟨h4, h5⟩ := hmaps h1 h3
    exact h.apart pid' d' va g h4 h2 h5
  · intro pid₁ d₁ va₁ pid₂ d₂ va₂ g h1 h2 h3 h4 h5 h6
    obtain ⟨h7, h8⟩ := hmaps h1 h5
    obtain ⟨h9, h10⟩ := hmaps h2 h6
    exact h.inj pid₁ d₁ va₁ pid₂ d₂ va₂ g h7 h9 h3 h4 h8 h10
  · intro pid' d' va g h1 h2 h3
    obtain ⟨h4, h5⟩ := hmaps h1 h3
    exact h.here pid' d' va g h4 h2 h5
  · rintro pid' d' va i (h1 | ⟨rfl, rfl⟩) h2 h3 h4
    · obtain ⟨hm, hnp, hrest⟩ := h.slot pid' d' va i h1 h2 h3 h4
      refine ⟨hm, ?_, hrest⟩
      unfold Present
      rw [hpte h1]
      exact hnp
    · exact absurd h4 (hslot i h3 va h2)
  · rintro pid' d' va (h1 | ⟨rfl, rfl⟩) hm hnp
    · unfold Present at hnp
      rw [hpte h1] at hnp
      exact h.away pid' d' va h1 hm hnp
    · exact absurd hm (hM va)
  · rintro pid' d' va (h1 | ⟨rfl, rfl⟩) hm
    · rw [hpte h1]
      exact h.mapped pid' d' va h1 hm
    · exact absurd hm (hM va)

theorem setupkvm_backed {pid : Nat} {o : Option Nat} {own M : Nat → Nat → Prop} {held : List Nat}
    (hs : Sound own s) (h : Backed own M c held s) (hq : s.pgqueue = []) (hpid : pid ≠ 0)
    (hsmall : pid ≤ MAX_PID) (hno : ∀ d, ¬ own pid d) (hM : ∀ va, ¬ M pid va)
    (hslot : ∀ i, s.swapMap i = 0) (ht : setupkvm s = .ok (t, o)) :
    Backed (adopt own pid s.nextDir) M c held t ∧ t.swapMap = s.swapMap ∧ t.pgqueue = [] := by
  unfold setupkvm at ht
  obtain ⟨⟨u, g⟩, hu, ht⟩ := bind_eq_ok.mp ht
  obtain ⟨hsu, heu, -⟩ := kalloc_spec hs hu
  obtain ⟨f, rfl, hbu, -, -⟩ := kalloc_backed hs h hu
  obtain ⟨hmu, hqu⟩ := kalloc_swapMap hq hu
  obtain ⟨⟨v, r⟩, hv, ht⟩ := bind_eq_ok.mp ht
  have hsm : Sound own (u.setMem f Bytes.zero) := hsu.congr rfl rfl rfl hsu.count
  have hbm : Backed own M c held (u.setMem f Bytes.zero) :=
    Backed.drop (l := [f]) (hbu.setMem List.mem_cons_self)
  have hzero : ∀ i < SLOTSIZE, ∀ va, PGSIZE ∣ va → (u.setMem f Bytes.zero).swapMap i ≠ va ||| pid := by
    intro i _ va _ hc
    change u.swapMap i = va ||| pid at hc
    rw [hmu, hslot i] at hc
    exact or_ne_zero hpid hc.symm
  have hfresh : ∀ pid' d', own pid' d' → d' ≠ (u.setMem f Bytes.zero).nextDir := by
    rintro pid' d' hown rfl
    exact hsm.live pid' _ hown (hsm.fresh _ (Nat.le_refl _))
  obtain ⟨-, -, rfl⟩ := kernelTables_spec kernelPdx (hsm.newDir hsmall f) hv
  obtain ⟨hbt, hmt, hqt⟩ := kernelTables_backed kernelPdx (hsm.newDir hsmall f)
    (hbm.adopt hpid hno hfresh hM hzero) hqu hv
  cases ht
  rw [← heu.nextDir]
  exact ⟨hbt, hmt.trans hmu, hqt⟩

/-- The bytes of the first page. -/
def initPage (init : List UInt8) : Page :=
  Bytes.zero.patch 0 (fun k => init.getD k 0) init.length

/-- The state that `userinit` leaves has all its pages in memory. -/
theorem Loaded.boot {l : List Nat} {m : Nat} {init : List UInt8} (hl : l.Nodup)
    (ht : boot l m init = .ok t) : Loaded t := by
  have hinv := Inv.boot ht
  let c : Content := fun _ va => (initPage init).get va
  have hempty : Sound (fun _ _ => False) { empty l m with nextpid := 2 } :=
    ⟨⟨rfl, by simp, by simp, by simp, fun _ _ => rfl⟩, by simp [empty], List.nodup_nil⟩
  have hb0 : Backed (fun _ _ => False) (fun _ _ => False) c [] { empty l m with nextpid := 2 } := by
    constructor <;> simp [empty, hl]
  unfold Vm.boot at ht
  obtain ⟨⟨u, o⟩, hu, ht⟩ := bind_eq_ok.mp ht
  obtain ⟨hsu, heu, -⟩ := kalloc_spec hempty hu
  obtain ⟨k, rfl, hbu, -, -⟩ := kalloc_backed hempty hb0 hu
  obtain ⟨hmu, hqu⟩ := kalloc_swapMap rfl hu
  obtain ⟨⟨v, o'⟩, hv, ht⟩ := bind_eq_ok.mp ht
  have hone : (1 : Nat) ≤ MAX_PID := by decide
  obtain ⟨rfl, hsv, hpv, -, -⟩ := setupkvm_spec hsu hone hv
  obtain ⟨hbv, hmv, hqv⟩ := setupkvm_backed hsu (Backed.drop (l := [k]) hbu) hqu Nat.one_ne_zero
    hone (fun _ => id) (fun _ => id) (fun i => by rw [hmu]; rfl) hv
  dsimp only at ht
  obtain ⟨w, hw, ht⟩ := bind_eq_ok.mp ht
  unfold inituvm at hw
  obtain ⟨⟨x, o''⟩, hx, hw⟩ := bind_eq_ok.mp hw
  obtain ⟨hsx, hex, -⟩ := kalloc_spec hsv hx
  obtain ⟨f, rfl, hbx, -, -⟩ := kalloc_backed hsv hbv hx
  dsimp only at hw
  obtain ⟨⟨y, r⟩, hy, hw⟩ := bind_eq_ok.mp hw
  have hsx' : Sound (adopt (fun _ _ => False) 1 u.nextDir) (x.setMem f (initPage init)) :=
    hsx.congr rfl rfl rfl hsx.count
  have hframe : Holds ((x.setMem f (initPage init)).mem f) c 1 0 := by
    intro k _
    rw [Nat.zero_add]
    exact congrArg (Bytes.get · k) (Function.update_self f _ _)
  obtain ⟨-, hey, -, hpy, -⟩ := mapPage_spec hsx' hy
  obtain ⟨hby, -⟩ := mapPage_backed hsx' (hbx.setMem List.mem_cons_self) (Or.inr ⟨rfl, rfl⟩)
    (dvd_zero _) id hframe hy
  obtain rfl : y = w := Except.ok.inj hw
  obtain rfl := Except.ok.inj ht
  have hprocs : y.procs = fun _ => none := hey.procs.trans (hex.procs.trans (hpv.trans heu.procs))
  -- there is one process, with one page
  have hproc : ∀ pid P, (y.setProc 1 (some ⟨u.nextDir, PGSIZE, k, false⟩)).procs pid = some P →
      pid = 1 ∧ P.page = u.nextDir ∧ P.size = PGSIZE := by
    intro pid P hP
    rw [procs_setProc] at hP
    split at hP
    · rename_i hpid
      cases hP
      exact ⟨hpid, rfl, rfl⟩
    · rw [hprocs] at hP
      cases hP
  have hown : ∀ pid P, (y.setProc 1 (some ⟨u.nextDir, PGSIZE, k, false⟩)).procs pid = some P →
      adopt (fun _ _ => False) 1 u.nextDir pid P.page := by
    intro pid P hP
    obtain ⟨h1, h2, -⟩ := hproc pid P hP
    exact Or.inr ⟨h1, h2⟩
  have hone' : ∀ {pid va : Nat}, plus (fun _ _ => False) 1 0 pid va → va = 0 := by
    rintro pid va (h | ⟨-, h⟩)
    · exact h.elim
    · exact h
  refine ⟨hinv, ?_, ?_, ?_, ?_, ?_, ?_, ?_⟩
  · intro pid P hP
    exact hby.pos pid P.page (hown pid P hP)
  · intro pid P hP
    exact hby.blank pid P.page (hown pid P hP)
  · intro pid P va hP hva
    obtain ⟨h1, h2, h3⟩ := hproc pid P hP
    rw [h2, h3]
    constructor
    · intro hp
      obtain ⟨g, hg⟩ := present_iff.mp hp
      rw [hone' (hby.here 1 u.nextDir va g (Or.inr ⟨rfl, rfl⟩) hva hg).1]
      decide
    · intro hlt
      have h0 : va = 0 := Nat.eq_zero_of_dvd_of_lt hva hlt
      subst h0
      exact hpy
  · have := hby.nodup
    rwa [List.append_nil] at this
  · intro pid P va g hP hva hg
    have := hby.apart pid P.page va g (hown pid P hP) hva hg
    rwa [List.append_nil] at this
  · exact fun pid P va pid' P' va' g hP hP' h1 h2 h3 h4 =>
      hby.inj pid P.page va pid' P'.page va' g (hown pid P hP) (hown pid' P' hP') h1 h2 h3 h4
  · intro pid P va i hP hva hi hk
    obtain ⟨hm, hnp, -⟩ := hby.slot pid P.page va i (hown pid P hP) hva hi hk
    rw [hone' hm, (hproc pid P hP).2.1] at hnp
    exact hnp hpy

/-! ### Two runs -/

/-- The same as a function. -/
def pagingStep (σ : Core × Content) (a : Act) : Except Stop (Core × Content) :=
  if Paging a then (act σ.1 a).map fun t => (t, written σ.1 σ.2 a) else .error .notCalled

theorem pagingStep_spec {σ τ : Core × Content} {a : Act} (h : pagingStep σ a = .ok τ) :
    PagingStep σ a τ := by
  unfold pagingStep at h
  split at h
  · rename_i hp
    cases ht : act σ.1 a with
    | error e => simp [ht, Except.map] at h
    | ok t =>
      rw [ht] at h
      cases h
      exact ⟨ht, rfl, hp⟩
  · cases h

end Yonix.Vm
