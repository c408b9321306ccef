/-
  Yonix/Vm/Loader.lean
  ====================
  **The program loader: total, and faithful to the file.**

  With enough free frames for the pages of the image, every allocation of the loading
  part of `exec` gets a frame from the free list, so each function returns and only
  frames that were free are taken and written.  `Layout` says what the new directory has:
  exactly the pages of a set, in frames of their own, with the bytes of a memory.  A page
  that is mapped adds zeros, a chunk of a segment that is read writes its bytes, and so
  the image below the stack is zero memory with the segments written over it in order.
-/
import Yonix.Vm.Elf

namespace Yonix.Vm

variable {s t : Core} {d pid : Nat} {st : Nat → Option Nat}

/-! ### Frames to spare -/

/-- Only frames that were free have been taken and written. -/
structure Leaves (s t : Core) : Prop where
  freelist : ∀ f ∈ t.freelist, f ∈ s.freelist
  mem : ∀ f, f ∉ s.freelist → t.mem f = s.mem f

theorem Leaves.refl (s : Core) : Leaves s s := ⟨fun _ hf => hf, fun _ _ => rfl⟩

theorem Leaves.trans {u : Core} (h : Leaves s t) (h' : Leaves t u) : Leaves s u := by
  refine ⟨fun f hf => h.freelist f (h'.freelist f hf), ?_⟩
  intro f hf
  rw [h'.mem f fun hin => hf (h.freelist f hin), h.mem f hf]

theorem Leaves.setMem {f : Nat} {x : Page} (h : Leaves s t) (hf : f ∈ s.freelist) :
    Leaves s (t.setMem f x) := by
  refine ⟨h.freelist, ?_⟩
  intro g hg
  have hne : g ≠ f := fun heq => hg (heq.symm ▸ hf)
  exact (Function.update_of_ne hne _ _).trans (h.mem g hg)

theorem kalloc_spare (hc : s.nfreeblock = s.freelist.length) (hpos : 1 ≤ s.nfreeblock) :
    ∃ t f, kalloc s = .ok (t, some f) ∧ Leaves s t ∧ f ∈ s.freelist := by
  obtain ⟨f, l, hl⟩ := List.exists_cons_of_length_pos (Nat.lt_of_lt_of_eq hpos hc)
  refine ⟨{ s with freelist := l, nfreeblock := s.nfreeblock - 1 }, f, ?_, ⟨?_, fun _ _ => rfl⟩, ?_⟩
  · unfold kalloc takeFrame
    rw [if_neg (by omega), hl]
  · intro g hg
    rw [hl]
    exact List.mem_cons_of_mem _ hg
  · rw [hl]
    exact List.mem_cons_self

theorem walkpgdir_spare (va : Nat) (hc : s.nfreeblock = s.freelist.length) (hd : s.dirs d ≠ none)
    (hroom : s.pte d va = none → 1 ≤ s.nfreeblock) :
    ∃ t, walkpgdir s d va true = .ok (t, true) ∧ Leaves s t := by
  obtain ⟨D, hD⟩ := Option.ne_none_iff_exists'.mp hd
  unfold walkpgdir
  rw [hD]
  dsimp only
  cases htab : D.tab (pdx va) with
  | some g => exact ⟨s, rfl, Leaves.refl s⟩
  | none =>
    have hn : s.pte d va = none := by
      unfold Core.pte
      rw [hD]
      dsimp only
      rw [htab]
      rfl
    obtain ⟨u, f, hu, hleaves, hf⟩ := kalloc_spare hc (hroom hn)
    refine ⟨(u.setMem f Bytes.zero).setTab d (pdx va) f, ?_, ?_⟩
    · rw [if_neg (by simp), if_neg (by simp), hu]
      rfl
    · have hset := hleaves.setMem (x := Bytes.zero) hf
      exact ⟨hset.freelist, hset.mem⟩

theorem mapPage_spare {va f : Nat} {w u a : Bool} (hc : s.nfreeblock = s.freelist.length)
    (hd : s.dirs d ≠ none) (hroom : s.pte d va = none → 1 ≤ s.nfreeblock) (hnm : ¬ Marked s d va) :
    ∃ t, mapPage s d va f w u a = .ok (t, true) ∧ Leaves s t := by
  obtain ⟨v, hv, hleaves⟩ := walkpgdir_spare _ hc hd hroom
  obtain ⟨-, -, hne⟩ := walkpgdir_quiet hc hroom hv
  obtain ⟨hm, -, -⟩ := walkpgdir_marks (S := noPage) hv
  obtain ⟨x, hx⟩ := Option.ne_none_iff_exists'.mp hne
  have hp : ¬ x.p = true := by
    intro hp
    rcases hm.marked d va ((marked_of_pte hx).mpr hp) with hmk | hf
    · exact hnm hmk
    · exact hf
  refine ⟨v.setPte d va ⟨true, w, u, a, f⟩, ?_, ⟨hleaves.freelist, hleaves.mem⟩⟩
  unfold mapPage
  rw [hv]
  simp only [bind, Except.bind, hx]
  rw [if_neg hp]
  rfl

theorem addPage_spare {va : Nat} (hc : s.nfreeblock = s.freelist.length) (hp : Present s d va)
    (hroom : s.slabs = 0 → 1 ≤ s.nfreeblock) : ∃ t, addPage s d va pid = .ok t ∧ Leaves s t ∧
      Steady (if s.slabs = 0 then 1 else 0) s t ∧ t.slabs = slabsAfter s.slabs := by
  have hslab : ∃ u, allocSlab s = .ok u ∧ Leaves s u := by
    unfold allocSlab
    split
    · rename_i h0
      obtain ⟨u, f, hu, hleaves, -⟩ := kalloc_spare hc (hroom h0)
      refine ⟨{ u with slabs := PGSIZE / SLABSIZE - 1 - 1 }, ?_, ⟨hleaves.freelist, hleaves.mem⟩⟩
      rw [hu]
      rfl
    · exact ⟨_, rfl, ⟨fun _ hf => hf, fun _ _ => rfl⟩⟩
  obtain ⟨u, hu, hleaves⟩ := hslab
  obtain ⟨hst, -, hsl⟩ := allocSlab_quiet hc hroom hu
  obtain ⟨x, hx, -⟩ := hst.present hp
  refine ⟨{ u with pgqueue := u.pgqueue ++ [⟨d, va, va ||| pid, x.a⟩] }, ?_,
    ⟨hleaves.freelist, hleaves.mem⟩,
    ⟨hst.procs, hst.nextpid, hst.nextDir, hst.dirs, hst.kept, hst.tables, hst.count, hst.room⟩, hsl⟩
  unfold addPage
  rw [hu]
  simp only [bind, Except.bind, hx]
  rfl

variable (pid) in
theorem addPageIf_spare {va : Nat} {test : Bool} (hc : s.nfreeblock = s.freelist.length)
    (hp : Present s d va) (hroom : test = true ∧ s.slabs = 0 → 1 ≤ s.nfreeblock) :
    ∃ t, addPageIf test s d va pid = .ok t ∧ Leaves s t ∧
      Steady (if test = true ∧ s.slabs = 0 then 1 else 0) s t ∧
      t.slabs = if test then slabsAfter s.slabs else s.slabs := by
  cases test with
  | true =>
    simp only [true_and] at hroom ⊢
    exact addPage_spare hc hp hroom
  | false => exact ⟨s, rfl, Leaves.refl s, Steady.of_dirs rfl rfl rfl rfl hc (by simp), rfl⟩

variable (pid) in
/-- A page is mapped, filled with zeros, and queued. -/
theorem allocPage_spare {i base : Nat} {l : List (Nat × Bool)} (hf : Frames st [] s)
    (hd : s.dirs d ≠ none) (hnm : ¬ Marked s d i) (haff : Affords d s ((i, decide (base < i)) :: l)) :
    ∃ t f, allocPage s d base pid i = .ok (t, true) ∧ Leaves s t ∧ Affords d t l ∧
      (∃ n, Steady n s t) ∧ t.pte d i = some ⟨true, true, true, false, f⟩ ∧ t.mem f = Bytes.zero := by
  obtain ⟨u, f, hu, hleaves, hfree⟩ := kalloc_spare hf.count haff.pos
  obtain ⟨hqu, -⟩ := kalloc_quiet hf.count haff.pos hu
  obtain ⟨f', hf', hfu⟩ := hf.kalloc hu
  obtain rfl := Option.some.inj hf'
  have hmk : ¬ Marked (u.setMem f Bytes.zero) d i := by
    intro hmk
    rcases (kalloc_marks (S := noPage) hu).marked d i hmk with hmk | hno
    · exact hnm hmk
    · exact hno
  have hqu' : Quiet 1 s (u.setMem f Bytes.zero) :=
    ⟨⟨hqu.procs, hqu.nextpid, hqu.nextDir, hqu.dirs, hqu.kept, hqu.tables, hqu.count, hqu.room⟩,
      hqu.pgqueue, hqu.slabs⟩
  have howes := haff.owes hqu'
  have hdu : (u.setMem f Bytes.zero).dirs d ≠ none := fun hn => hd ((hqu.dirs d).mp hn)
  obtain ⟨v, hv, hleavesv⟩ := mapPage_spare (f := f) (w := true) (u := true) (a := false) hqu'.count hdu
    howes.table hmk
  obtain ⟨hqv, -, -, hpte⟩ := mapPage_quiet hqu'.count howes.table hv
  have howes := howes.mapped hqv
  obtain ⟨w, hw, hleavesw, hstw, hsl⟩ := addPageIf_spare pid hqv.count ⟨_, hpte, rfl⟩ howes.slab
  have hne : v.pte d i ≠ none := by
    rw [hpte]
    exact Option.some_ne_none _
  -- the frame of the page is not free any more, so nothing later writes into it
  have hnot : f ∉ u.freelist := by
    have hnd := hfu.nodup
    unfold unused at hnd
    intro hin
    rw [List.append_assoc, List.nodup_append] at hnd
    exact hnd.2.2 f hin f (by simp) rfl
  refine ⟨w, f, ?_, (hleaves.setMem hfree).trans (hleavesv.trans hleavesw), howes.queued hne hstw hsl,
    ⟨_, (hqu'.trans hqv).toSteady.trans hstw⟩, hstw.kept d i _ hpte rfl, ?_⟩
  · unfold allocPage
    rw [hu]
    simp only [bind, Except.bind, hv, hw]
    rfl
  · rw [(hleavesv.trans hleavesw).mem f hnot]
    exact Function.update_self f _ _

/-! ### The pages of the new directory -/

/-- Directory `d` has exactly the pages in `M`, in frames of their own; those in `usr`
    are open to the process, and the bytes are those of `m`. -/
structure Layout (st : Nat → Option Nat) (d : Nat) (M : Nat → Prop) (usr : Nat → Bool)
    (m : Nat → UInt8) (s : Core) : Prop where
  frames : Frames st [] s
  live : s.dirs d ≠ none
  page : ∀ va, M va → ∃ x, s.pte d va = some x ∧ x.p = true ∧ x.u = usr va ∧
    ∀ k < PGSIZE, (s.mem x.frame).get k = m (va + k)
  only : ∀ va, PGSIZE ∣ va → Marked s d va → M va
  dvd : ∀ va, M va → PGSIZE ∣ va

variable {M : Nat → Prop} {usr : Nat → Bool} {m : Nat → UInt8}

variable (st) in
theorem pte_use {va : Nat} {x : Pte} (hx : s.pte d va = some x) (hp : x.p = true) :
    Uses st s x.frame (.page d va) := by
  obtain ⟨-, D, hD, rfl⟩ := pte_eq_some.mp hx
  exact ⟨D, hD, hp, rfl⟩

theorem Layout.congr {M' : Nat → Prop} (h : Layout st d M usr m s) (hM : ∀ va, M' va ↔ M va) :
    Layout st d M' usr m s :=
  ⟨h.frames, h.live, fun va hva => h.page va ((hM va).mp hva),
    fun va hdvd hmk => (hM va).mpr (h.only va hdvd hmk), fun va hva => h.dvd va ((hM va).mp hva)⟩

/-- The free frames are written, the frames of pages are not. -/
theorem Layout.kept {n va : Nat} (h : Layout st d M usr m s) (hl : Leaves s t) (hst : Steady n s t)
    (hva : M va) : ∃ x, t.pte d va = some x ∧ x.p = true ∧ x.u = usr va ∧
      ∀ k < PGSIZE, (t.mem x.frame).get k = m (va + k) := by
  obtain ⟨x, hx, hp, hu, hm⟩ := h.page va hva
  have hnot : x.frame ∉ s.freelist := by
    have hapart := h.frames.apart _ _ (pte_use st hx hp)
    unfold unused at hapart
    simp only [List.mem_append, not_or] at hapart
    exact hapart.1.1
  refine ⟨x, hst.kept d va x hx hp, hp, hu, ?_⟩
  rw [hl.mem _ hnot]
  exact hm

variable (pid) in
/-- One more page of zeros. -/
theorem Layout.allocPage {i base : Nat} {l : List (Nat × Bool)} (h : Layout st d M usr m s)
    (hi : PGSIZE ∣ i) (hnew : ¬ M i) (husr : usr i = true) (hzero : ∀ k < PGSIZE, m (i + k) = 0)
    (haff : Affords d s ((i, decide (base < i)) :: l)) :
    ∃ t, allocPage s d base pid i = .ok (t, true) ∧ Affords d t l ∧
      Layout st d (fun va => M va ∨ va = i) usr m t := by
  obtain ⟨t, f, ht, hleaves, hafft, ⟨n, hst⟩, hpte, hmem⟩ :=
    allocPage_spare pid h.frames h.live (fun hmk => hnew (h.only i hi hmk)) haff
  have hmarks := allocPage_marks ht
  rw [if_pos rfl] at hmarks
  refine ⟨t, ht, hafft, h.frames.allocPage ht, fun hn => h.live ((hst.dirs d).mp hn), ?_, ?_, ?_⟩
  · rintro va (hva | rfl)
    · exact h.kept hleaves hst hva
    · refine ⟨_, hpte, rfl, husr.symm, ?_⟩
      intro k hk
      rw [hmem, Bytes.get_zero, hzero k hk]
  · intro va hva hmk
    rcases hmarks.1.marked d va hmk with hmk | ⟨-, rfl⟩
    · exact Or.inl (h.only va hva hmk)
    · exact Or.inr rfl
  · rintro va (hva | rfl)
    · exact h.dvd va hva
    · exact hi

variable (pid) in
theorem Layout.allocLoop {base : Nat} {rest : List (Nat × Bool)} (l : List Nat) :
    ∀ {M : Nat → Prop} {s : Core}, Layout st d M usr m s → l.Nodup → (∀ va ∈ l, PGSIZE ∣ va) →
      (∀ va ∈ l, ¬ M va) → (∀ va ∈ l, usr va = true) →
      (∀ va ∈ l, ∀ k < PGSIZE, m (va + k) = 0) →
      Affords d s ((l.map fun va => (va, decide (base < va))) ++ rest) →
      ∃ t, allocLoop d base pid l s = .ok (t, none) ∧ Affords d t rest ∧
        Layout st d (fun va => M va ∨ va ∈ l) usr m t := by
  induction l with
  | nil =>
    intro M s h _ _ _ _ _ haff
    exact ⟨s, rfl, haff, h.congr fun va => by simp⟩
  | cons i l ih =>
    intro M s h hnd hdvd hnew husr hzero haff
    obtain ⟨hi, hnd⟩ := List.nodup_cons.mp hnd
    obtain ⟨u, hu, haffu, hlu⟩ := h.allocPage pid (hdvd i List.mem_cons_self)
      (hnew i List.mem_cons_self) (husr i List.mem_cons_self) (hzero i List.mem_cons_self) haff
    obtain ⟨t, ht, hafft, hlt⟩ := ih hlu hnd (fun va hva => hdvd va (List.mem_cons_of_mem _ hva))
      (by
        rintro va hva (hM | rfl)
        · exact hnew va (List.mem_cons_of_mem _ hva) hM
        · exact hi hva)
      (fun va hva => husr va (List.mem_cons_of_mem _ hva))
      (fun va hva => hzero va (List.mem_cons_of_mem _ hva)) haffu
    refine ⟨t, ?_, hafft, hlt.congr fun va => ?_⟩
    · unfold Vm.allocLoop
      simp only [bind, Except.bind, hu]
      exact ht
    · rw [List.mem_cons, or_assoc]

/-- The pages below a size. -/
def below (sz va : Nat) : Prop := PGSIZE ∣ va ∧ va < sz

variable (pid) in
/-- `allocuvm` with frames to spare returns the size that `allocSize` says. -/
theorem Layout.allocuvm {startva endva : Nat} {rest : List (Nat × Bool)}
    (h : Layout st d (below startva) usr m s) (husr : ∀ va, usr va = true)
    (hzero : ∀ a, startva ≤ a → m a = 0) (haff : Affords d s (allocPages startva endva ++ rest)) :
    ∃ t, Vm.allocuvm s d startva endva pid = .ok (t, allocSize startva endva) ∧ Affords d t rest ∧
      (KERNBASE ≤ endva ∧ t = s ∨
        endva < KERNBASE ∧ Layout st d (below (max startva endva)) usr m t) := by
  unfold Vm.allocuvm allocSize
  unfold allocPages at haff
  by_cases hkern : KERNBASE ≤ endva
  · rw [if_pos hkern, if_pos hkern]
    rw [if_pos (Or.inl hkern)] at haff
    exact ⟨s, rfl, haff, Or.inl ⟨hkern, rfl⟩⟩
  · rw [if_neg hkern, if_neg hkern]
    by_cases hend : endva < startva
    · rw [if_pos hend, if_pos hend]
      rw [if_pos (Or.inr hend)] at haff
      refine ⟨s, rfl, haff, Or.inr ⟨by omega, ?_⟩⟩
      rwa [Nat.max_eq_left hend.le]
    · rw [if_neg hend, if_neg hend]
      rw [if_neg (by omega)] at haff
      have hge := le_pgroundup startva
      obtain ⟨t, ht, hafft, hlt⟩ := h.allocLoop pid (pages startva endva) (nodup_pages _ _)
        (fun va hva => (mem_pages_iff.mp hva).1)
        (fun va hva hM => by
          have := (mem_pages_iff.mp hva).2.1
          have := hM.2
          omega)
        (fun va _ => husr va)
        (fun va hva k _ => hzero _ (by
          have := (mem_pages_iff.mp hva).2.1
          omega)) haff
      refine ⟨t, ?_, hafft, Or.inr ⟨by omega, hlt.congr fun va => ?_⟩⟩
      · simp only [bind, Except.bind, ht]
        rfl
      · rw [Nat.max_eq_right (by omega), mem_pages_iff]
        unfold below
        constructor
        · rintro ⟨hdvd, hlt⟩
          by_cases hold : va < startva
          · exact Or.inl ⟨hdvd, hold⟩
          · have := (lt_pgroundup_iff (a := startva) hdvd).not.mpr hold
            exact Or.inr ⟨hdvd, by omega, hlt⟩
        · rintro (⟨hdvd, hlt⟩ | ⟨hdvd, -, hlt⟩)
          · exact ⟨hdvd, by omega⟩
          · exact ⟨hdvd, hlt⟩

/-! ### Reading the segments -/

/-- A run of bytes is written into a page. -/
theorem Layout.patch {va : Nat} (off n : Nat) {x : Pte} (h : Layout st d M usr m s) (src : Nat → UInt8)
    (hva : M va) (hx : s.pte d va = some x) (hle : off + n ≤ PGSIZE) :
    Layout st d M usr (Memory.write m (va + off) n src)
      (s.setMem x.frame ((s.mem x.frame).patch off src n)) := by
  obtain ⟨x', hx', hp, -, hm⟩ := h.page va hva
  obtain rfl := Option.some.inj (hx.symm.trans hx')
  refine ⟨h.frames.setMem _, h.live, ?_, h.only, h.dvd⟩
  intro va' hva'
  obtain ⟨y, hy, hyp, hyu, hym⟩ := h.page va' hva'
  refine ⟨y, hy, hyp, hyu, ?_⟩
  intro k hk
  by_cases heq : va' = va
  · subst heq
    obtain rfl := Option.some.inj (hx.symm.trans hy)
    have hself : (s.setMem x.frame ((s.mem x.frame).patch off src n)).mem x.frame =
        (s.mem x.frame).patch off src n := Function.update_self _ _ _
    rw [hself]
    by_cases hin : off ≤ k ∧ k < off + n
    · rw [Bytes.get_patch_of_mem _ _ hk hin.1 hin.2, Memory.write_in (by omega) (by omega)]
      congr 1
      omega
    · rw [Bytes.get_patch_of_not_mem _ _ (by omega), Memory.write_out (by omega)]
      exact hm k hk
  · have hne : y.frame ≠ x.frame := by
      intro hfr
      have huse := pte_use st hy hyp
      rw [hfr] at huse
      have := h.frames.inj _ _ _ huse (pte_use st hx hp)
      exact heq (Use.page.inj this).2
    have hother : (s.setMem x.frame ((s.mem x.frame).patch off src n)).mem y.frame = s.mem y.frame :=
      Function.update_of_ne hne _ _
    have hd := h.dvd va hva
    have hd' := h.dvd va' hva'
    rw [hother, hym k hk, Memory.write_out]
    unfold PGSIZE at *
    omega

/-- The chunk of a segment for the page at offset `i`. -/
def chunk (img : Image) (addr off sz : Nat) (m : Nat → UInt8) (i : Nat) : Nat → UInt8 :=
  Memory.write m (addr + i) (min PGSIZE (sz - i)) fun k => img.file ((off + i) % 2 ^ 32 + k)

theorem Layout.loadLoop {addr : Nat} (off sz : Nat) (img : Image) (l : List Nat) :
    ∀ {m : Nat → UInt8} {s : Core}, Layout st d M usr m s → (∀ i ∈ l, M (addr + i)) →
      ∃ t r, loadLoop d addr off sz img l s = .ok (t, r) ∧
        (r = true → Layout st d M usr (l.foldl (chunk img addr off sz) m) t) := by
  induction l with
  | nil => exact fun h _ => ⟨_, true, rfl, fun _ => h⟩
  | cons i l ih =>
    intro m s h hl
    have hM := hl i List.mem_cons_self
    obtain ⟨x, hx, hp, -⟩ := h.page _ hM
    unfold Vm.loadLoop
    rw [hx]
    dsimp only
    rw [if_neg (by simp [hp])]
    split
    · exact ⟨s, false, rfl, fun hr => by cases hr⟩
    · have hpatch := h.patch 0 (min PGSIZE (sz - i))
        (fun k => img.file ((off + i) % 2 ^ 32 + k)) hM hx (by omega)
      exact ih hpatch fun j hj => hl j (List.mem_cons_of_mem _ hj)

/-- The chunks that are in the file do not wrap round. -/
theorem chunk_no_wrap {img : Image} {off sz : Nat} (hsmall : img.fileSize < 2 ^ 32)
    (hoff : off < 2 ^ 32) (hall : (pages 0 sz).all (chunkIn img off sz) = true) (k : Nat)
    (hk : k * PGSIZE < sz) : off + k * PGSIZE < 2 ^ 32 := by
  induction k with
  | zero => omega
  | succ k ih =>
    rw [Nat.succ_mul] at hk
    have hprev := ih (by omega)
    have hin := List.all_eq_true.mp hall (k * PGSIZE) (mem_pages_iff.mpr
      ⟨Dvd.intro_left _ rfl, by simp [pgroundup, PGSIZE], by omega⟩)
    unfold chunkIn at hin
    rw [decide_eq_true_eq, Nat.mod_eq_of_lt hprev] at hin
    rw [Nat.succ_mul]
    omega

/-- A segment that is read is its bytes in the file, written at its address. -/
theorem foldl_chunk {img : Image} {off sz : Nat} (addr : Nat) (m : Nat → UInt8)
    (hsmall : img.fileSize < 2 ^ 32) (hoff : off < 2 ^ 32)
    (hall : (pages 0 sz).all (chunkIn img off sz) = true) :
    (pages 0 sz).foldl (chunk img addr off sz) m =
      Memory.write m addr sz fun k => img.file (off + k) := by
  have hpages : pages 0 sz = (List.range ((sz + PGSIZE - 1) / PGSIZE)).map fun k => k * PGSIZE := by
    simp [pages, pgroundup, PGSIZE]
  have hchunks : ∀ (K : Nat) (m : Nat → UInt8), (∀ k < K, k * PGSIZE < sz) →
      (List.range K).foldl (fun m k => chunk img addr off sz m (k * PGSIZE)) m =
        (List.range K).foldl (fun m k => Memory.write m (addr + k * PGSIZE)
          (min PGSIZE (sz - k * PGSIZE)) fun j => img.file (off + (k * PGSIZE + j))) m := by
    intro K m hK
    refine List.foldl_ext _ _ m fun m' k hk => ?_
    have hlt := chunk_no_wrap hsmall hoff hall k (hK k (List.mem_range.mp hk))
    unfold chunk
    rw [Nat.mod_eq_of_lt hlt]
    simp only [Nat.add_assoc]
  rw [hpages, List.foldl_map, hchunks]
  · rw [Memory.foldl_write PGSIZE m addr sz fun k => img.file (off + k)]
    congr 1
    unfold PGSIZE
    omega
  · intro k hk
    unfold PGSIZE at *
    omega

/-! ### The segments -/

/-- One segment written into memory. -/
def segment (file : Nat → UInt8) (m : Nat → UInt8) (ph : Ph) : Nat → UInt8 :=
  if ph.type = ELF_PROG_LOAD then Memory.write m ph.vaddr ph.filesz fun k => file (ph.off + k) else m

/-- Zero memory with the segments written over it in order. -/
def imageOf (img : Image) : Nat → UInt8 :=
  img.phs.reduceOption.foldl (segment img.file) fun _ => 0

/-- The fields of a header are 32-bit words. -/
structure Ph.Words (ph : Ph) : Prop where
  off : ph.off < 2 ^ 32
  vaddr : ph.vaddr < 2 ^ 32
  memsz : ph.memsz < 2 ^ 32

variable (pid) in
theorem Layout.loadPh {img : Image} {ph : Ph} {sz : Nat} {rest : List (Nat × Bool)}
    (h : Layout st d (below sz) usr m s) (husr : ∀ va, usr va = true)
    (hzero : ∀ a, sz ≤ a → m a = 0) (hsmall : img.fileSize < 2 ^ 32) (hph : ph.Words)
    (haff : Affords d s ((planPh img ph sz).1 ++ rest)) :
    ∃ t o, loadPh d pid img ph sz s = .ok (t, o) ∧ t.dirs d ≠ none ∧
      ∀ sz', o = some sz' → (planPh img ph sz).2 = some sz' ∧ Affords d t rest ∧
        (∀ a, sz' ≤ a → segment img.file m ph a = 0) ∧
        Layout st d (below sz') usr (segment img.file m ph) t := by
  unfold Vm.loadPh segment
  unfold planPh at haff ⊢
  by_cases htype : ph.type = ELF_PROG_LOAD
  · rw [if_neg (not_not.mpr htype), if_pos htype]
    rw [if_neg (not_not.mpr htype)] at haff ⊢
    split
    · exact ⟨s, none, rfl, h.live, fun _ ho => by cases ho⟩
    · rename_i hsz
      rw [if_neg hsz] at haff
      split
      · exact ⟨s, none, rfl, h.live, fun _ ho => by cases ho⟩
      · rename_i hwrap
        rw [if_neg hwrap] at haff
        dsimp only at haff ⊢
        -- the sum did not wrap round
        have hend : (ph.vaddr + ph.memsz) % 2 ^ 32 = ph.vaddr + ph.memsz := by
          have := hph.vaddr
          have := hph.memsz
          omega
        rw [hend] at haff ⊢
        obtain ⟨u, hu, haffu, hcase⟩ := h.allocuvm pid husr hzero haff
        have hliveu : u.dirs d ≠ none := by
          rcases hcase with ⟨-, rfl⟩ | ⟨-, hlu⟩
          · exact h.live
          · exact hlu.live
        simp only [bind, Except.bind, hu]
        split
        · exact ⟨u, none, rfl, hliveu, fun _ ho => by cases ho⟩
        · rename_i hne
          split
          · exact ⟨u, none, rfl, hliveu, fun _ ho => by cases ho⟩
          · rename_i halign
            rcases hcase with ⟨hkern, -⟩ | ⟨hkern, hlu⟩
            · exact absurd (if_pos hkern) hne
            · have hsize : allocSize sz (ph.vaddr + ph.memsz) = max sz (ph.vaddr + ph.memsz) := by
                unfold allocSize
                rw [if_neg (by omega)]
                split <;> omega
              have hin : ∀ i ∈ pages 0 ph.filesz, below (max sz (ph.vaddr + ph.memsz)) (ph.vaddr + i) := by
                intro i hi
                obtain ⟨hdvd, -, hlt⟩ := mem_pages_iff.mp hi
                exact ⟨Dvd.dvd.add (Nat.dvd_of_mod_eq_zero (not_not.mp halign)) hdvd, by omega⟩
              obtain ⟨t, r, ht, hlt⟩ := hlu.loadLoop ph.off ph.filesz img _ hin
              obtain ⟨hw, hr⟩ := loadLoop_spec _ ht
              have htd : t.dirs d ≠ none := by
                rw [hw]
                exact hliveu
              unfold loaduvm
              rw [ht]
              cases r with
              | false => exact ⟨t, none, rfl, htd, fun _ ho => by cases ho⟩
              | true =>
                refine ⟨t, _, rfl, htd, ?_⟩
                rintro sz' ⟨⟩
                have hlt := hlt rfl
                rw [foldl_chunk _ _ hsmall hph.off hr.symm] at hlt
                rw [if_pos hr.symm, hsize]
                refine ⟨rfl, haffu.writes hw, ?_, hlt⟩
                intro a ha
                rw [Memory.write_out (by omega)]
                exact hzero a (by omega)
  · rw [if_pos htype, if_neg htype]
    rw [if_pos htype] at haff ⊢
    refine ⟨s, some sz, rfl, h.live, ?_⟩
    rintro sz' ⟨⟩
    exact ⟨rfl, haff, hzero, h⟩

variable (pid) in
theorem Layout.loadPhs {img : Image} {rest : List (Nat × Bool)} (husr : ∀ va, usr va = true)
    (hsmall : img.fileSize < 2 ^ 32) (l : List (Option Ph)) :
    ∀ {m : Nat → UInt8} {sz : Nat} {s : Core}, Layout st d (below sz) usr m s →
      (∀ a, sz ≤ a → m a = 0) → (∀ ph, some ph ∈ l → ph.Words) →
      Affords d s ((planPhs img l sz).1 ++ rest) →
      ∃ t o, loadPhs d pid img l sz s = .ok (t, o) ∧ t.dirs d ≠ none ∧
        ∀ sz', o = some sz' → (planPhs img l sz).2 = some sz' ∧ Affords d t rest ∧
          (∀ a, sz' ≤ a → l.reduceOption.foldl (segment img.file) m a = 0) ∧
          Layout st d (below sz') usr (l.reduceOption.foldl (segment img.file) m) t := by
  induction l with
  | nil =>
    intro m sz s h hzero _ haff
    refine ⟨s, some sz, rfl, h.live, ?_⟩
    rintro sz' ⟨⟩
    exact ⟨rfl, haff, hzero, h⟩
  | cons a l ih =>
    intro m sz s h hzero hwords haff
    cases a with
    | none => exact ⟨s, none, rfl, h.live, fun _ ho => by cases ho⟩
    | some ph =>
      -- the frames for this segment, and those for the rest if it is read
      have hsplit : ∃ more, (planPhs img (some ph :: l) sz).1 ++ rest = (planPh img ph sz).1 ++ more ∧
          ∀ sz', (planPh img ph sz).2 = some sz' → more = (planPhs img l sz').1 ++ rest ∧
            (planPhs img (some ph :: l) sz).2 = (planPhs img l sz').2 := by
        rw [planPhs]
        split
        · rename_i n heq
          rw [heq]
          exact ⟨rest, rfl, fun _ ho => by cases ho⟩
        · rename_i n sz₁ heq
          rw [heq]
          refine ⟨_, List.append_assoc _ _ _, ?_⟩
          rintro sz' ⟨⟩
          exact ⟨rfl, rfl⟩
      obtain ⟨more, hmore, hnext⟩ := hsplit
      rw [hmore] at haff
      obtain ⟨u, o, hu, hud, hou⟩ := h.loadPh pid husr hzero hsmall
        (hwords ph List.mem_cons_self) haff
      unfold Vm.loadPhs
      simp only [bind, Except.bind, hu]
      cases o with
      | none => exact ⟨u, none, rfl, hud, fun _ ho => by cases ho⟩
      | some sz₁ =>
        obtain ⟨hplan, haffu, hzerou, hlu⟩ := hou sz₁ rfl
        obtain ⟨rfl, heq⟩ := hnext sz₁ hplan
        rw [heq, List.reduceOption_cons_of_some]
        exact ih hlu hzerou (fun ph' hph' => hwords ph' (List.mem_cons_of_mem _ hph')) haffu

/-- Every page but the guard page below the stack. -/
def unguarded (sz va : Nat) : Bool := va ≠ sz - 2 * PGSIZE

/-- What the loading part leaves: the pages below `sz`, the image, and zeros on the stack. -/
structure Loads (st : Nat → Option Nat) (d sz : Nat) (img : Image) (s : Core) : Prop where
  layout : Layout st d (below sz) (unguarded sz) (imageOf img) s
  dvd : PGSIZE ∣ sz
  two : 2 * PGSIZE ≤ sz
  lt : sz < KERNBASE

theorem Layout.clearpteu {sz guard : Nat} (h : Layout st d (below sz) (fun _ => true) m s)
    (hguard : guard = sz - 2 * PGSIZE) (hin : below sz guard) :
    ∃ t, clearpteu s d guard = .ok t ∧ Layout st d (below sz) (unguarded sz) m t := by
  obtain ⟨x, hx, hp, -, hm⟩ := h.page _ hin
  have ht : Vm.clearpteu s d guard = .ok (s.setPte d guard { x with u := false }) := by
    unfold Vm.clearpteu
    rw [hx]
  refine ⟨_, ht, ⟨h.frames.retag hx rfl rfl, ?_, ?_, ?_, h.dvd⟩⟩
  · exact fun hn => h.live ((dirs_setPte s d _ _ d).mp hn)
  · intro va hva
    by_cases heq : va = guard
    · subst heq
      refine ⟨{ x with u := false }, ?_, hp, ?_, hm⟩
      · rw [pte_setPte, if_pos ⟨rfl, rfl⟩, hx]
        rfl
      · simp [unguarded, hguard]
    · obtain ⟨y, hy, hyp, hyu, hym⟩ := h.page va hva
      refine ⟨y, ?_, hyp, ?_, hym⟩
      · rw [pte_setPte, if_neg fun hc => heq hc.2]
        exact hy
      · rw [hyu]
        rw [hguard] at heq
        simp [unguarded, heq]
  · intro va hva hmk
    by_cases hpres : below sz va
    · exact hpres
    · refine h.only va hva ?_
      obtain ⟨D, hD, hDp⟩ := hmk
      obtain ⟨-, D₀, hD₀, rfl⟩ := pte_eq_some.mp hx
      simp only [Core.setPte, Function.update_self, Option.map_eq_some_iff] at hD
      obtain ⟨D₁, hD₁, rfl⟩ := hD
      refine ⟨D₁, hD₁, ?_⟩
      have hne : va ≠ guard := fun heq => hpres (heq ▸ hin)
      simp only [Function.update_of_ne hne] at hDp
      exact hDp

variable (pid) in
/-- The image has its bytes below the stack. -/
theorem loadImage_spare {img : Image} (h : Layout st d (below 0) (fun _ => true) (fun _ => 0) s)
    (hsmall : img.fileSize < 2 ^ 32) (hwords : ∀ ph, some ph ∈ img.phs → ph.Words)
    (haff : Affords d s (plan img).1) :
    ∃ t o, loadImage d pid img s = .ok (t, o) ∧ t.dirs d ≠ none ∧ ∀ sz, o = some sz →
      Loads st d sz img t := by
  obtain ⟨rest, hrest, hstack⟩ : ∃ rest, (plan img).1 = (planPhs img img.phs 0).1 ++ rest ∧
      ∀ sz, (planPhs img img.phs 0).2 = some sz →
        rest = allocPages (pgroundup sz) (pgroundup sz + 2 * PGSIZE) := by
    unfold plan
    split
    · rename_i n heq
      rw [heq]
      exact ⟨[], (List.append_nil _).symm, fun _ ho => by cases ho⟩
    · rename_i n sz heq
      rw [heq]
      refine ⟨_, rfl, ?_⟩
      rintro sz' ⟨⟩
      rfl
  rw [hrest] at haff
  obtain ⟨u, o, hu, hud, hou⟩ := h.loadPhs pid (fun _ => rfl) hsmall img.phs
    (fun _ _ => rfl) hwords haff
  unfold loadImage
  simp only [bind, Except.bind, hu]
  cases o with
  | none => exact ⟨u, none, rfl, hud, fun _ ho => by cases ho⟩
  | some sz =>
    obtain ⟨hplan, haffu, hzero, hlu⟩ := hou sz rfl
    rw [hstack sz hplan] at haffu
    have hge := le_pgroundup sz
    have hup : Layout st d (below (pgroundup sz)) (fun _ => true) (imageOf img) u :=
      hlu.congr fun va => and_congr_right fun hva => lt_pgroundup_iff hva
    rw [← List.append_nil (allocPages _ _)] at haffu
    obtain ⟨v, hv, -, hcase⟩ := hup.allocuvm pid (fun _ => rfl)
      (fun a ha => hzero a (by omega)) haffu
    simp only [hv]
    rcases hcase with ⟨hkern, rfl⟩ | ⟨hkern, hlv⟩
    · have hsize : allocSize (pgroundup sz) (pgroundup sz + 2 * PGSIZE) = 0 := if_pos hkern
      rw [if_pos hsize]
      exact ⟨v, none, rfl, hud, fun _ ho => by cases ho⟩
    · have hsize : allocSize (pgroundup sz) (pgroundup sz + 2 * PGSIZE) =
          pgroundup sz + 2 * PGSIZE := by
        unfold allocSize
        rw [if_neg (by omega), if_neg (by omega)]
      have hdvd : PGSIZE ∣ pgroundup sz + 2 * PGSIZE :=
        (pgroundup_dvd sz).add (Dvd.intro_left _ rfl)
      rw [Nat.max_eq_right (by omega)] at hlv
      obtain ⟨t, ht, hlt⟩ := hlv.clearpteu rfl ⟨Nat.dvd_sub hdvd (Dvd.intro_left _ rfl), by
        unfold PGSIZE
        omega⟩
      rw [hsize, if_neg (by unfold PGSIZE; omega)]
      simp only [ht]
      refine ⟨t, _, rfl, hlt.live, ?_⟩
      rintro sz' ⟨⟩
      exact ⟨hlt, hdvd, by omega, hkern⟩

/-! ### Freeing a directory leaves the others alone -/

/-- Frame `f` is not used in directory `d`. -/
def OffDir (st : Nat → Option Nat) (d f : Nat) (s : Core) : Prop := ∀ u : Use, u.inDir d → ¬ Uses st s f u

/-- What is done to a directory: the others are as they were, and so are the frames that
    it does not use. -/
structure Elsewhere (st : Nat → Option Nat) (d : Nat) (s t : Core) : Prop where
  procs : t.procs = s.procs
  dirs : ∀ d', d' ≠ d → t.dirs d' = s.dirs d'
  mem : ∀ f, OffDir st d f s → t.mem f = s.mem f
  off : ∀ f, OffDir st d f s → OffDir st d f t

theorem Elsewhere.refl (s : Core) : Elsewhere st d s s :=
  ⟨rfl, fun _ _ => rfl, fun _ _ => rfl, fun _ hoff => hoff⟩

theorem Elsewhere.trans {u : Core} (h : Elsewhere st d s t) (h' : Elsewhere st d t u) :
    Elsewhere st d s u :=
  ⟨h'.procs.trans h.procs, fun d' hd' => (h'.dirs d' hd').trans (h.dirs d' hd'),
    fun f hoff => (h'.mem f (h.off f hoff)).trans (h.mem f hoff),
    fun f hoff => h'.off f (h.off f hoff)⟩

theorem unmap_elsewhere {va : Nat} {x : Pte} (hx : s.pte d va = some x) (hp : x.p = true) :
    Elsewhere st d s (unmap s d va x pid) := by
  obtain ⟨m, hm⟩ := freePage_eq s (va ||| pid) true
  unfold unmap
  rw [hm]
  refine ⟨rfl, fun d' hd' => Function.update_of_ne hd' _ _, ?_, ?_⟩
  · intro f hoff
    have hne : f ≠ x.frame := fun heq => hoff (.page d va) rfl (heq ▸ pte_use st hx hp)
    exact Function.update_of_ne hne _ _
  · intro f hoff u hu huse
    rcases uses_setPte _ _ huse with ⟨huse, -⟩ | ⟨-, hpz, -⟩
    · exact hoff u hu ((uses_congr rfl u).mp huse)
    · cases hpz

variable (pid) in
theorem deallocLoop_elsewhere (startva k : Nat) :
    ∀ (i : Nat) (s : Core), Elsewhere st d s (deallocLoop d startva pid k i s) := by
  induction k with
  | zero => exact fun _ s => Elsewhere.refl s
  | succ k ih =>
    intro i s
    unfold deallocLoop
    split
    · exact Elsewhere.refl s
    · split
      · exact ih _ s
      · rename_i x hx
        split
        · rename_i hp
          exact (unmap_elsewhere hx hp).trans (ih _ _)
        · exact ih _ s

theorem kfrees_mem {f : Nat} (L : List Nat) :
    ∀ {s : Core}, f ∉ L → (L.foldl kfree s).mem f = s.mem f := by
  induction L with
  | nil => exact fun _ => rfl
  | cons g L ih =>
    intro s hf
    rw [List.mem_cons, not_or] at hf
    exact (ih hf.2).trans (Function.update_of_ne hf.1 _ _)

/-- `freeuvm` of a directory that is there returns, and is only about that directory. -/
theorem freeuvm_elsewhere (st : Nat → Option Nat) (pid : Nat) (hd : s.dirs d ≠ none) :
    ∃ t, freeuvm s d pid = .ok t ∧ t.procs = s.procs ∧ (∀ d', d' ≠ d → t.dirs d' = s.dirs d') ∧
      ∀ f, OffDir st d f s → t.mem f = s.mem f := by
  obtain ⟨D₀, hD₀⟩ := Option.ne_none_iff_exists'.mp hd
  have hun := deallocLoop_unmaps d KERNBASE pid (KERNBASE / PGSIZE + 1) (pgroundup 0) s
  have helse : Elsewhere st d s _ :=
    deallocLoop_elsewhere pid KERNBASE (KERNBASE / PGSIZE + 1) (pgroundup 0) s
  obtain ⟨u, hu⟩ : ∃ u, deallocLoop d KERNBASE pid (KERNBASE / PGSIZE + 1) (pgroundup 0) s = u :=
    ⟨_, rfl⟩
  rw [hu] at hun helse
  obtain ⟨D, hD⟩ := Option.ne_none_iff_exists'.mp fun hn => hd ((hun.dirs d).mp hn)
  have hlist : (D.tables ++ [D.frame]).foldl kfree (u.dropDir d) =
      (kfree (freeTables D u) D.frame).dropDir d := by
    rw [freeTables_eq, ← kfrees_dropDir, List.foldl_append]
    rfl
  have hfree : freeuvm s d pid = .ok ((D.tables ++ [D.frame]).foldl kfree (u.dropDir d)) := by
    unfold freeuvm deallocuvm
    rw [if_neg (by decide), hD₀]
    simp only [bind, Except.bind]
    rw [hu, hD, hlist]
    rfl
  obtain ⟨hkd, hkp, -⟩ := kfrees_same (D.tables ++ [D.frame]) (u.dropDir d)
  refine ⟨_, hfree, hkp.trans helse.procs, ?_, ?_⟩
  · intro d' hd'
    rw [hkd]
    exact (Function.update_of_ne hd' _ _).trans (helse.dirs d' hd')
  · intro f hoff
    have hnot : f ∉ D.tables ++ [D.frame] := by
      intro hin
      rcases List.mem_append.mp hin with hin | hin
      · obtain ⟨i, -, hi⟩ := List.mem_filterMap.mp hin
        exact helse.off f hoff (.tab d i) rfl ⟨D, hD, hi⟩
      · rw [List.mem_singleton] at hin
        exact helse.off f hoff (.dir d) rfl ⟨D, hD, hin.symm⟩
    exact (kfrees_mem _ hnot).trans (helse.mem f hoff)

/-! ### The loading part as a whole -/

theorem kernelTables_spare (l : List Nat) :
    ∀ {s : Core}, s.nfreeblock = s.freelist.length → s.dirs d ≠ none → l.length ≤ s.nfreeblock →
      ∃ t, kernelTables d l s = .ok (t, true) ∧ t.dirs d ≠ none := by
  induction l with
  | nil => exact fun _ hd _ => ⟨_, rfl, hd⟩
  | cons i l ih =>
    intro s hc hd hle
    rw [List.length_cons] at hle
    obtain ⟨u, hu, -⟩ := walkpgdir_spare (i * (NPTENTRIES * PGSIZE)) hc hd fun _ => by omega
    obtain ⟨hq, -, -⟩ := walkpgdir_quiet hc (fun _ => by omega) hu
    have hone : (if s.pte d (i * (NPTENTRIES * PGSIZE)) = none then 1 else 0) ≤ 1 := by
      split <;> omega
    have hroom := hq.room
    obtain ⟨t, ht, htd⟩ := ih hq.count (fun hn => hd ((hq.dirs d).mp hn)) (by omega)
    refine ⟨t, ?_, htd⟩
    unfold kernelTables
    simp only [bind, Except.bind, hu]
    exact ht

/-- An empty directory. -/
theorem setupkvm_spare (hf : Frames st [] s) (hroom : setupFrames ≤ s.nfreeblock) :
    ∃ t, setupkvm s = .ok (t, some s.nextDir) ∧
      Layout st s.nextDir (below 0) (fun _ => true) (fun _ => 0) t := by
  have hlen : setupFrames = 1 + kernelPdx.length := rfl
  obtain ⟨u, f, hu, -⟩ := kalloc_spare hf.count (by omega)
  obtain ⟨hq, -⟩ := kalloc_quiet hf.count (by omega) hu
  have hroomu := hq.room
  have hlive : ((u.setMem f Bytes.zero).newDir f).dirs u.nextDir ≠ none := by
    change Function.update u.dirs u.nextDir _ u.nextDir ≠ none
    rw [Function.update_self]
    exact Option.some_ne_none _
  obtain ⟨t, ht, htd⟩ := kernelTables_spare kernelPdx (s := (u.setMem f Bytes.zero).newDir f)
    hq.count hlive (by
      change _ ≤ u.nfreeblock
      omega)
  have hset : setupkvm s = .ok (t, some s.nextDir) := by
    unfold setupkvm
    simp only [bind, Except.bind, hu]
    rw [ht, ← hq.nextDir]
    rfl
  obtain ⟨-, hnew⟩ := setupkvm_marks (S := noPage) hset
  obtain ⟨-, -, hnone⟩ := hnew s.nextDir rfl
  rw [hq.nextDir] at htd
  refine ⟨t, hset, ⟨hf.setupkvm hset, htd, ?_, ?_, fun va hva => hva.1⟩⟩
  · exact fun va hva => absurd hva.2 (Nat.not_lt_zero va)
  · exact fun va _ hmk => absurd hmk (hnone va)

/-- The free frames are enough for everything that `exec` allocates. -/
def EnoughFrames (s : Core) (img : Image) : Prop :=
  setupFrames + framesFor [] s.slabs (plan img).1 ≤ s.nfreeblock

instance (s : Core) (img : Image) : Decidable (EnoughFrames s img) := inferInstanceAs (Decidable (_ ≤ _))

/-- The loading part returns, and if it does not give up the directory is loaded. -/
theorem load_spare {img : Image} (pid : Nat) (hf : Frames st [] s) (hroom : EnoughFrames s img)
    (hsmall : img.fileSize < 2 ^ 32) (hwords : ∀ ph, some ph ∈ img.phs → ph.Words) :
    ∃ t o, load pid img s = .ok (t, o) ∧
      ∀ d sz, o = some (d, sz) → d = s.nextDir ∧ Loads st d sz img t := by
  unfold EnoughFrames at hroom
  obtain ⟨u, hu, hlu⟩ := setupkvm_spare hf (by omega)
  obtain ⟨-, hsl, hleft⟩ := setupkvm_quiet hf.count (by omega) hu
  have haff : Affords s.nextDir u (plan img).1 := by
    refine ⟨[], by simp, ?_⟩
    rw [hsl]
    omega
  obtain ⟨v, o, hv, hvd, hov⟩ := loadImage_spare pid hlu hsmall hwords haff
  unfold load
  simp only [bind, Except.bind, hu, hv]
  cases o with
  | none =>
    obtain ⟨t, ht, -⟩ := freeuvm_elsewhere st pid hvd
    simp only [ht]
    exact ⟨t, none, rfl, fun _ _ ho => by cases ho⟩
  | some sz =>
    refine ⟨v, _, rfl, ?_⟩
    rintro d sz' ⟨⟩
    exact ⟨rfl, hov sz rfl⟩

/-- The headers of a file are words. -/
theorem File.words (f : File) (args : List (List UInt8)) {ph : Ph} (h : some ph ∈ (f.image args).phs) :
    ph.Words := by
  obtain ⟨i, -, hi⟩ := List.mem_map.mp h
  unfold File.ph at hi
  dsimp only at hi
  split at hi
  · cases hi
    exact ⟨Memory.word_lt _ _, Memory.word_lt _ _, Memory.word_lt _ _⟩
  · cases hi

end Yonix.Vm
