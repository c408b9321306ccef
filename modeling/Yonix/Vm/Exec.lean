/-
  Yonix/Vm/Exec.lean
  ==================
  **`exec` and the page queue.**

  While `exec` builds the new image, the process has two directories, and pages of
  both at one address have one identifier.  There are two ways through.  If the new
  image queues no page under an identifier that is already there, identifiers stay
  unique and everything works as elsewhere.  If it does, the old entries come first in
  the queue, so a search finds the entry of the old directory: that is right when the
  next thing to be freed is the old directory, which takes an image that loads and
  enough free frames that no eviction searches the queue before.

  `plan` says from the file alone which pages the new image has and whether it loads;
  `framesFor` counts the frames that mapping pages takes.
-/
import Yonix.Vm.Unmap

namespace Yonix.Vm

variable {own : Nat → Nat → Prop} {d pid : Nat} {s t : Core}

/-! ### The plan -/

/-- `readi` of the part of the segment for the page at offset `i` gets all of it. -/
def chunkIn (img : Image) (off sz i : Nat) : Bool :=
  (off + i) % 2 ^ 32 + min PGSIZE (sz - i) ≤ img.fileSize

/-- The pages that one segment maps from size `sz` on, and the size it ends with, or
    `none` for a jump to `bad`. -/
def planPh (img : Image) (ph : Ph) (sz : Nat) : List (Nat × Bool) × Option Nat :=
  if ph.type ≠ ELF_PROG_LOAD then ([], some sz)
  else if ph.memsz < ph.filesz then ([], none)
  else if (ph.vaddr + ph.memsz) % 2 ^ 32 < ph.vaddr then ([], none)
  else
    let endva := (ph.vaddr + ph.memsz) % 2 ^ 32
    (allocPages sz endva,
      if allocSize sz endva = 0 then none
      else if ph.vaddr % PGSIZE ≠ 0 then none
      else if (pages 0 ph.filesz).all (chunkIn img ph.off ph.filesz) then some (allocSize sz endva)
      else none)

def planPhs (img : Image) : List (Option Ph) → Nat → List (Nat × Bool) × Option Nat
  | [], sz => ([], some sz)
  | none :: _, _ => ([], none)
  | some ph :: l, sz =>
    match planPh img ph sz with
    | (m, none) => (m, none)
    | (m, some sz) => (m ++ (planPhs img l sz).1, (planPhs img l sz).2)

/-- The arguments, the first of them number `argc`, fit in the `room` that is left of
    the stack page. -/
def argsFit : List (List UInt8) → Nat → Nat → Bool
  | [], argc, room => (3 + argc + 1) * 4 ≤ room
  | arg :: l, argc, room =>
    argc < MAXARG && arg.length + 1 ≤ room &&
      argsFit l (argc + 1) ((room - (arg.length + 1)) / 4 * 4)

/-- The pages of the new image, and whether `exec` gets to its end. -/
def plan (img : Image) : List (Nat × Bool) × Bool :=
  match planPhs img img.phs 0 with
  | (l, none) => (l, false)
  | (l, some sz) =>
    (l ++ allocPages (pgroundup sz) (pgroundup sz + 2 * PGSIZE),
      allocSize (pgroundup sz) (pgroundup sz + 2 * PGSIZE) ≠ 0 && argsFit img.args 0 PGSIZE)

/-- One slab less, after a refill if there was none. -/
def slabsAfter (slabs : Nat) : Nat := if slabs = 0 then PGSIZE / SLABSIZE - 1 - 1 else slabs - 1

/-- The frames taken by mapping pages in order, when the directory has tables `tabs`
    and `slabs` slabs are left. -/
def framesFor (tabs : List Nat) (slabs : Nat) : List (Nat × Bool) → Nat
  | [] => 0
  | (va, queued) :: l =>
    let table := if pdx va ∈ tabs then 0 else 1
    let slab := if queued ∧ slabs = 0 then 1 else 0
    1 + table + slab + framesFor (pdx va :: tabs) (if queued then slabsAfter slabs else slabs) l

/-! ### Writing into the new image -/

/-- Only the contents of pages changed. -/
def Writes (s t : Core) : Prop := t = { s with mem := t.mem }

theorem Writes.refl (s : Core) : Writes s s := rfl

theorem Writes.trans {u : Core} (h : Writes s t) (h' : Writes t u) : Writes s u := by
  unfold Writes at *
  rw [h', h]

theorem Writes.pte (h : Writes s t) (d va : Nat) : t.pte d va = s.pte d va := by
  rw [h]
  rfl

theorem Sound.writes (h : Sound own s) (hw : Writes s t) : Sound own t := by
  refine h.congr ?_ ?_ ?_ ?_ <;> rw [hw]
  exact h.count

theorem Writes.evol (h : Writes s t) (d : Nat) : Evol d s t := by
  refine (Evicts.of_eq ?_ ?_ ?_ ?_ ?_).evol d <;> rw [h]

theorem loadLoop_spec {addr off sz : Nat} {img : Image} (l : List Nat) :
    ∀ {s t : Core} {r : Bool}, loadLoop d addr off sz img l s = .ok (t, r) →
      Writes s t ∧ r = l.all (chunkIn img off sz) := by
  induction l with
  | nil =>
    intro s t r h
    cases h
    exact ⟨Writes.refl _, rfl⟩
  | cons i l ih =>
    intro s t r h
    unfold loadLoop at h
    split at h
    · cases h
    · rename_i x hx
      split at h
      · cases h
      · dsimp only at h
        split at h
        · rename_i hlt
          cases h
          refine ⟨Writes.refl _, ?_⟩
          have : chunkIn img off sz i = false := by
            unfold chunkIn
            simpa using hlt
          simp [this]
        · rename_i hle
          obtain ⟨hw, hr⟩ := ih h
          refine ⟨Writes.trans ?_ hw, ?_⟩
          · rfl
          have : chunkIn img off sz i = true := by
            unfold chunkIn
            simpa using hle
          simp [this, hr]

theorem copyoutLoop_writes (k : Nat) :
    ∀ {va : Nat} {src : List UInt8} {s t : Core} {r : Bool},
      copyoutLoop d k va src s = .ok (t, r) → Writes s t := by
  induction k with
  | zero =>
    intro va src s t r h
    cases h
    exact Writes.refl _
  | succ k ih =>
    intro va src s t r h
    unfold copyoutLoop at h
    split at h
    · cases h
      exact Writes.refl _
    · dsimp only at h
      split at h
      · cases h
      · split at h
        · cases h
          exact Writes.refl _
        · refine Writes.trans ?_ (ih h)
          rfl

theorem pushArgs_writes (l : List (List UInt8)) :
    ∀ {argc sp : Nat} {ustack : List Nat} {s t : Core} {o : Option (Nat × List Nat)},
      pushArgs d l argc sp ustack s = .ok (t, o) → Writes s t := by
  induction l with
  | nil =>
    intro argc sp ustack s t o h
    cases h
    exact Writes.refl _
  | cons arg l ih =>
    intro argc sp ustack s t o h
    unfold pushArgs at h
    split at h
    · cases h
      exact Writes.refl _
    · obtain ⟨⟨u, r⟩, hu, h⟩ := bind_eq_ok.mp h
      have hw : Writes s u := copyoutLoop_writes _ hu
      cases r with
      | false =>
        cases h
        exact hw
      | true => exact hw.trans (ih h)

theorem buildStack_writes {sz : Nat} {img : Image} {r : Bool}
    (h : buildStack d sz img s = .ok (t, r)) : Writes s t := by
  unfold buildStack at h
  obtain ⟨⟨u, o⟩, hu, h⟩ := bind_eq_ok.mp h
  have hw := pushArgs_writes _ hu
  cases o with
  | none =>
    cases h
    exact hw
  | some p => exact hw.trans (copyoutLoop_writes _ h)

theorem clearpteu_eq {va : Nat} (h : clearpteu s d va = .ok t) :
    ∃ x, s.pte d va = some x ∧ t = s.setPte d va { x with u := false } := by
  unfold clearpteu at h
  split at h
  · cases h
  · rename_i x hx
    cases h
    exact ⟨x, hx, rfl⟩

/-- The present pages are the same. -/
theorem present_clearpteu {va d' va' : Nat} (h : clearpteu s d va = .ok t) :
    Present t d' va' ↔ Present s d' va' := by
  obtain ⟨x, hx, rfl⟩ := clearpteu_eq h
  unfold Present
  rw [pte_setPte]
  split
  · rename_i hc
    obtain ⟨rfl, rfl⟩ := hc
    simp [hx]
  · rfl

/-! ### An image without a known identifier -/

theorem mem_queuedOf_append {l l' : List (Nat × Bool)} {va : Nat} :
    va ∈ queuedOf (l ++ l') ↔ va ∈ queuedOf l ∨ va ∈ queuedOf l' := by
  simp [queuedOf, List.filter_append, List.map_append]

/-- A segment either maps nothing, or is one call of `allocuvm` and the reading of it. -/
theorem loadPh_cases {img : Image} {ph : Ph} {sz : Nat} {o : Option Nat}
    (ht : loadPh d pid img ph sz s = .ok (t, o)) :
    (t = s ∧ planPh img ph sz = ([], o)) ∨
      ∃ u endva sz', allocuvm s d sz endva pid = .ok (u, sz') ∧ Writes u t ∧
        (u = t ∨ ∃ r, loaduvm u d ph.vaddr ph.off ph.filesz img = .ok (t, r)) ∧
        (planPh img ph sz).1 = allocPages sz endva ∧
        (sz' = allocSize sz endva → o = (planPh img ph sz).2) := by
  unfold loadPh at ht
  unfold planPh
  split at ht
  · rename_i h1
    rw [if_pos h1]
    cases ht
    exact Or.inl ⟨rfl, rfl⟩
  · rename_i h1
    rw [if_neg h1]
    split at ht
    · rename_i h2
      rw [if_pos h2]
      cases ht
      exact Or.inl ⟨rfl, rfl⟩
    · rename_i h2
      rw [if_neg h2]
      split at ht
      · rename_i h3
        rw [if_pos h3]
        cases ht
        exact Or.inl ⟨rfl, rfl⟩
      · rename_i h3
        rw [if_neg h3]
        right
        obtain ⟨⟨u, sz'⟩, hu, ht⟩ := bind_eq_ok.mp ht
        refine ⟨u, _, sz', hu, ?_⟩
        dsimp only at ht ⊢
        split at ht
        · rename_i h4
          cases ht
          refine ⟨Writes.refl _, Or.inl rfl, rfl, ?_⟩
          rintro rfl
          rw [if_pos h4]
        · rename_i h4
          split at ht
          · rename_i h5
            cases ht
            refine ⟨Writes.refl _, Or.inl rfl, rfl, ?_⟩
            rintro rfl
            rw [if_neg h4, if_pos h5]
          · rename_i h5
            obtain ⟨⟨v, r⟩, hv, ht⟩ := bind_eq_ok.mp ht
            obtain ⟨hw, rfl⟩ := loadLoop_spec _ hv
            have hvt : v = t ∧ o = if (pages 0 ph.filesz).all (chunkIn img ph.off ph.filesz) then
                some sz' else none := by
              cases hall : (pages 0 ph.filesz).all (chunkIn img ph.off ph.filesz) <;>
              · rw [hall] at ht
                cases ht
                exact ⟨rfl, rfl⟩
            obtain ⟨rfl, rfl⟩ := hvt
            refine ⟨hw, Or.inr ⟨_, hv⟩, rfl, ?_⟩
            rintro rfl
            rw [if_neg h4, if_neg h5]

theorem loadPh_spec {img : Image} {ph : Ph} {sz : Nat} {o : Option Nat} (hown : own pid d)
    (h : Sound own s) (hk : KeysIn d pid s.pgqueue (queuedOf (planPh img ph sz).1))
    (ht : loadPh d pid img ph sz s = .ok (t, o)) :
    Sound own t ∧ Evol d s t ∧ o = (planPh img ph sz).2 := by
  rcases loadPh_cases ht with ⟨rfl, hp⟩ | ⟨u, endva, sz', hu, hw, -, hp, ho⟩
  · rw [hp]
    exact ⟨h, (Evicts.refl _).evol d, rfl⟩
  · rw [hp] at hk
    obtain ⟨hs, he, hsz⟩ := allocuvm_spec hown h hk hu
    exact ⟨hs.writes hw, he.trans (hw.evol d), ho hsz⟩

theorem loadPhs_spec {img : Image} (hown : own pid d) (l : List (Option Ph)) :
    ∀ {sz : Nat} {s t : Core} {o : Option Nat}, Sound own s →
      KeysIn d pid s.pgqueue (queuedOf (planPhs img l sz).1) →
      loadPhs d pid img l sz s = .ok (t, o) →
      Sound own t ∧ Evol d s t ∧ o = (planPhs img l sz).2 := by
  induction l with
  | nil =>
    intro sz s t o h _ ht
    cases ht
    exact ⟨h, (Evicts.refl _).evol d, rfl⟩
  | cons x l ih =>
    intro sz s t o h hk ht
    cases x with
    | none =>
      cases ht
      exact ⟨h, (Evicts.refl _).evol d, rfl⟩
    | some ph =>
      unfold loadPhs at ht
      unfold planPhs at hk ⊢
      obtain ⟨⟨u, o'⟩, hu, ht⟩ := bind_eq_ok.mp ht
      have hk' : KeysIn d pid s.pgqueue (queuedOf (planPh img ph sz).1) := by
        intro va hva
        refine hk va ?_
        split
        · rename_i heq
          rw [heq] at hva
          exact hva
        · rename_i heq
          rw [heq] at hva
          exact mem_queuedOf_append.mpr (Or.inl hva)
      obtain ⟨hs, he, ho⟩ := loadPh_spec hown h hk' hu
      split at hk
      · rename_i heq
        rw [heq] at ho
        subst ho
        cases ht
        exact ⟨hs, he, rfl⟩
      · rename_i m sz' heq
        rw [heq] at ho
        subst ho
        have hk2 : KeysIn d pid u.pgqueue (queuedOf (planPhs img l sz').1) := by
          refine KeysIn.evol (fun va hva => hk va ?_) he
          exact mem_queuedOf_append.mpr (Or.inr hva)
        obtain ⟨hst, het, hot⟩ := ih hs hk2 ht
        exact ⟨hst, he.trans het, hot⟩

theorem Sound.clearpteu {va : Nat} (h : Sound own s) (hc : clearpteu s d va = .ok t) :
    Sound own t ∧ Evol d s t := by
  have hp : ∀ d' va', Present t d' va' ↔ Present s d' va' := fun d' va' => present_clearpteu hc
  obtain ⟨x, -, rfl⟩ := clearpteu_eq hc
  refine ⟨⟨⟨h.count, h.owner, h.small, ?_, ?_⟩, ?_, h.nodup⟩, rfl, rfl, rfl, ?_, ?_⟩
  · exact fun pid' d' h1 hn => h.live pid' d' h1 ((dirs_setPte s d va _ d').mp hn)
  · exact fun d' hd' => (dirs_setPte s d va _ d').mpr (h.fresh d' hd')
  · exact fun e he => (h.entry e he).mono (hp e.dir e.va).mpr
  · exact fun d' => dirs_setPte s d va _ d'
  · exact fun e he => Or.inl ⟨e, he, rfl, rfl, rfl⟩

theorem buildImage_spec {img : Image} {o : Option Nat} (hown : own pid d) (h : Sound own s)
    (hk : KeysIn d pid s.pgqueue (queuedOf (plan img).1))
    (ht : buildImage d pid img s = .ok (t, o)) :
    Sound own t ∧ Evol d s t ∧ ∀ sz, o = some sz → sz < KERNBASE := by
  unfold buildImage at ht
  obtain ⟨⟨u, o'⟩, hu, ht⟩ := bind_eq_ok.mp ht
  have hk1 : KeysIn d pid s.pgqueue (queuedOf (planPhs img img.phs 0).1) := by
    intro va hva
    refine hk va ?_
    unfold plan
    split
    · rename_i heq
      rw [heq] at hva
      exact hva
    · rename_i heq
      rw [heq] at hva
      exact mem_queuedOf_append.mpr (Or.inl hva)
  obtain ⟨hs, he, rfl⟩ := loadPhs_spec hown _ h hk1 hu
  unfold plan at hk
  split at hk
  · rename_i heq
    rw [heq] at ht
    cases ht
    exact ⟨hs, he, by simp⟩
  · rename_i l sz heq
    rw [heq] at ht
    dsimp only at ht
    obtain ⟨⟨v, sz'⟩, hv, ht⟩ := bind_eq_ok.mp ht
    have hk2 : KeysIn d pid u.pgqueue
        (queuedOf (allocPages (pgroundup sz) (pgroundup sz + 2 * PGSIZE))) := by
      refine KeysIn.evol (fun va hva => hk va ?_) he
      exact mem_queuedOf_append.mpr (Or.inr hva)
    obtain ⟨hsv, hev, hsz⟩ := allocuvm_spec hown hs hk2 hv
    have hev' := he.trans hev
    dsimp only at ht
    split at ht
    · cases ht
      exact ⟨hsv, hev', by simp⟩
    · rename_i h0
      obtain ⟨w, hw, ht⟩ := bind_eq_ok.mp ht
      obtain ⟨hsw, hew⟩ := hsv.clearpteu hw
      obtain ⟨⟨z, r⟩, hz, ht⟩ := bind_eq_ok.mp ht
      have hwr := buildStack_writes hz
      have hsz' := hsw.writes hwr
      have hez := (hev'.trans hew).trans (hwr.evol d)
      cases r with
      | false =>
        cases ht
        exact ⟨hsz', hez, by simp⟩
      | true =>
        cases ht
        refine ⟨hsz', hez, ?_⟩
        rintro sz'' h1
        cases h1
        unfold allocSize at hsz
        split at hsz
        · exact absurd hsz h0
        · split at hsz <;> omega

/-! ### Frames to spare -/

/-- At most `n` frames were taken and nothing was evicted. -/
structure Steady (n : Nat) (s t : Core) : Prop where
  procs : t.procs = s.procs
  nextpid : t.nextpid = s.nextpid
  nextDir : t.nextDir = s.nextDir
  dirs : ∀ d, t.dirs d = none ↔ s.dirs d = none
  kept : ∀ d va x, s.pte d va = some x → x.p = true → t.pte d va = some x
  tables : ∀ d va, s.pte d va ≠ none → t.pte d va ≠ none
  count : t.nfreeblock = t.freelist.length
  room : s.nfreeblock ≤ t.nfreeblock + n

structure Quiet (n : Nat) (s t : Core) : Prop extends Steady n s t where
  pgqueue : t.pgqueue = s.pgqueue
  slabs : t.slabs = s.slabs

theorem Steady.of_dirs {n : Nat} (hp : t.procs = s.procs) (hi : t.nextpid = s.nextpid)
    (hn : t.nextDir = s.nextDir) (hd : t.dirs = s.dirs) (hc : t.nfreeblock = t.freelist.length)
    (hr : s.nfreeblock ≤ t.nfreeblock + n) : Steady n s t := by
  have hpte : ∀ d va, t.pte d va = s.pte d va := fun d va => by simp only [Core.pte, hd]
  exact ⟨hp, hi, hn, fun d => by rw [hd], fun d va x hx _ => (hpte d va).trans hx,
    fun d va hx => by rwa [hpte], hc, hr⟩

theorem Steady.trans {n m : Nat} {u : Core} (h : Steady n s t) (h' : Steady m t u) :
    Steady (n + m) s u := by
  refine ⟨h'.procs.trans h.procs, h'.nextpid.trans h.nextpid, h'.nextDir.trans h.nextDir,
    fun d => (h'.dirs d).trans (h.dirs d),
    fun d va x hx hp => h'.kept d va x (h.kept d va x hx hp) hp,
    fun d va hx => h'.tables d va (h.tables d va hx), h'.count, ?_⟩
  have := h.room
  have := h'.room
  omega

theorem Steady.present {n : Nat} (h : Steady n s t) {d va : Nat} (hp : Present s d va) :
    Present t d va := by
  obtain ⟨x, hx, hxp⟩ := hp
  exact ⟨x, h.kept d va x hx hxp, hxp⟩

theorem Quiet.refl (hc : s.nfreeblock = s.freelist.length) : Quiet 0 s s :=
  ⟨Steady.of_dirs rfl rfl rfl rfl hc (Nat.le_refl _), rfl, rfl⟩

theorem Quiet.trans {n m : Nat} {u : Core} (h : Quiet n s t) (h' : Quiet m t u) :
    Quiet (n + m) s u :=
  ⟨h.toSteady.trans h'.toSteady, h'.pgqueue.trans h.pgqueue, h'.slabs.trans h.slabs⟩

theorem kalloc_quiet {o : Option Nat} (hc : s.nfreeblock = s.freelist.length)
    (hpos : 1 ≤ s.nfreeblock) (hk : kalloc s = .ok (t, o)) : Quiet 1 s t ∧ ∃ f, o = some f := by
  unfold kalloc at hk
  rw [if_neg (by omega)] at hk
  cases hl : s.freelist with
  | nil =>
    rw [hl, List.length_nil] at hc
    omega
  | cons f l =>
    rw [hl, List.length_cons] at hc
    simp only [takeFrame, hl, Except.ok.injEq, Prod.mk.injEq] at hk
    obtain ⟨rfl, rfl⟩ := hk
    refine ⟨⟨Steady.of_dirs rfl rfl rfl rfl ?_ ?_, rfl, rfl⟩, f, rfl⟩
    · change s.nfreeblock - 1 = l.length
      omega
    · change s.nfreeblock ≤ s.nfreeblock - 1 + 1
      omega

theorem walkpgdir_quiet {va : Nat} {r : Bool} (hc : s.nfreeblock = s.freelist.length)
    (hroom : s.pte d va = none → 1 ≤ s.nfreeblock) (hw : walkpgdir s d va true = .ok (t, r)) :
    Quiet (if s.pte d va = none then 1 else 0) s t ∧ r = true ∧ t.pte d va ≠ none := by
  unfold walkpgdir at hw
  split at hw
  · cases hw
  · rename_i D hD
    have hpte : s.pte d va = none ↔ ¬ (D.tab (pdx va)).isSome = true := by
      simp [Core.pte, hD]
    split at hw
    · rename_i htab
      cases hw
      have hne : s.pte d va ≠ none := fun hn => hpte.mp hn htab
      rw [if_neg hne]
      exact ⟨Quiet.refl hc, rfl, hne⟩
    · rename_i htab
      rw [if_neg (by decide)] at hw
      rw [if_pos (hpte.mpr htab)]
      obtain ⟨⟨u, o⟩, hu, hw⟩ := bind_eq_ok.mp hw
      obtain ⟨hq, f, rfl⟩ := kalloc_quiet hc (hroom (hpte.mpr htab)) hu
      cases hw
      have hset : Quiet 0 u ((u.setMem f Bytes.zero).setTab d (pdx va) f) := by
        refine ⟨⟨rfl, rfl, rfl, dirs_setTab (u.setMem f Bytes.zero) d (pdx va) f, ?_, ?_,
          hq.count, Nat.le_refl _⟩, rfl, rfl⟩
        · exact fun d' va' x hx _ => pte_setTab_of_some (s := u.setMem f Bytes.zero) hx d (pdx va) f
        · intro d' va' hx
          obtain ⟨x, hx⟩ := Option.ne_none_iff_exists'.mp hx
          rw [pte_setTab_of_some (s := u.setMem f Bytes.zero) hx d (pdx va) f]
          exact Option.some_ne_none x
      refine ⟨hq.trans hset, rfl, ?_⟩
      rw [pte_setTab, if_pos ⟨rfl, rfl⟩]
      have hdir : u.dirs d ≠ none := fun hn => by simp [(hq.dirs d).mp hn] at hD
      exact fun hn => hdir (Option.map_eq_none_iff.mp hn)

theorem mapPage_quiet {va f : Nat} {w u a r : Bool} (hc : s.nfreeblock = s.freelist.length)
    (hroom : s.pte d va = none → 1 ≤ s.nfreeblock) (hm : mapPage s d va f w u a = .ok (t, r)) :
    Quiet (if s.pte d va = none then 1 else 0) s t ∧ r = true ∧ ¬ Present s d va ∧
      t.pte d va = some ⟨true, w, u, a, f⟩ := by
  unfold mapPage at hm
  obtain ⟨⟨v, r'⟩, hv, hm⟩ := bind_eq_ok.mp hm
  obtain ⟨hq, rfl, -⟩ := walkpgdir_quiet hc hroom hv
  dsimp only at hm
  split at hm
  · cases hm
  · rename_i x hx
    split at hm
    · cases hm
    · rename_i hp
      cases hm
      have hnp : ¬ Present v d va := by
        rintro ⟨y, hy, hyp⟩
        rw [hx] at hy
        cases hy
        exact hp hyp
      have hset : Quiet 0 v (v.setPte d va ⟨true, w, u, a, f⟩) := by
        refine ⟨⟨rfl, rfl, rfl, dirs_setPte v d va _, ?_, ?_, hq.count, Nat.le_refl _⟩, rfl, rfl⟩
        · intro d' va' y hy hyp
          rw [pte_setPte, if_neg]
          · exact hy
          · rintro ⟨rfl, rfl⟩
            exact hnp ⟨y, hy, hyp⟩
        · intro d' va' hy hn
          exact hy ((pte_setPte_eq_none v d va _ d' va').mp hn)
      refine ⟨hq.trans hset, rfl, fun hn => hnp (hq.present hn), ?_⟩
      rw [pte_setPte, if_pos ⟨rfl, rfl⟩, hx]
      rfl

theorem allocSlab_quiet (hc : s.nfreeblock = s.freelist.length)
    (hroom : s.slabs = 0 → 1 ≤ s.nfreeblock) (ht : allocSlab s = .ok t) :
    Steady (if s.slabs = 0 then 1 else 0) s t ∧ t.pgqueue = s.pgqueue ∧
      t.slabs = slabsAfter s.slabs := by
  unfold allocSlab at ht
  unfold slabsAfter
  split at ht
  · rename_i h0
    obtain ⟨⟨u, o⟩, hu, ht⟩ := bind_eq_ok.mp ht
    obtain ⟨hq, f, rfl⟩ := kalloc_quiet hc (hroom h0) hu
    cases ht
    rw [if_pos h0, if_pos h0]
    exact ⟨⟨hq.procs, hq.nextpid, hq.nextDir, hq.dirs, hq.kept, hq.tables, hq.count, hq.room⟩,
      hq.pgqueue, rfl⟩
  · rename_i h0
    cases ht
    rw [if_neg h0, if_neg h0]
    exact ⟨Steady.of_dirs rfl rfl rfl rfl hc (Nat.le_refl _), rfl, rfl⟩

/-! ### Loading with frames to spare -/

/-- The queue is the old one with entries of the new directory `d` behind it. -/
def Calm (own : Nat → Nat → Prop) (d₀ d : Nat) (q : List Entry) (s : Core) : Prop :=
  ∃ q', Split own d₀ q q' s ∧ ∀ e ∈ q', e.dir = d

variable {d₀ : Nat} {q : List Entry}

theorem Calm.count (h : Calm own d₀ d q s) : s.nfreeblock = s.freelist.length := by
  obtain ⟨q', hsp, -⟩ := h
  exact hsp.count

theorem Split.steady {n : Nat} {q' : List Entry} (h : Split own d₀ q q' s) (hst : Steady n s t)
    (hq : t.pgqueue = s.pgqueue) : Split own d₀ q q' t := by
  refine ⟨⟨hst.count, h.owner, h.small, ?_, ?_⟩, hq.trans h.queue, ?_, h.nodup₁, h.nodup₂, h.other⟩
  · exact fun pid' d' h1 hn => h.live pid' d' h1 ((hst.dirs d').mp hn)
  · rw [hst.nextDir]
    exact fun d' hd' => (hst.dirs d').mpr (h.fresh d' hd')
  · rw [hq]
    exact fun e he => (h.entry e he).mono hst.present

theorem Calm.steady {n : Nat} (h : Calm own d₀ d q s) (hst : Steady n s t)
    (hq : t.pgqueue = s.pgqueue) : Calm own d₀ d q t := by
  obtain ⟨q', hsp, hd⟩ := h
  exact ⟨q', hsp.steady hst hq, hd⟩

theorem Calm.not_queued {va : Nat} (h : Calm own d₀ d q s) (hnp : ¬ Present s d va) :
    ∀ e ∈ s.pgqueue, ¬ (e.dir = d ∧ e.va = va) := by
  rintro e he ⟨rfl, rfl⟩
  obtain ⟨q', hsp, -⟩ := h
  obtain ⟨-, -, -, hp, -⟩ := hsp.entry e he
  exact hnp hp

/-- The free frames pay for these pages of directory `d`. -/
def Affords (d : Nat) (s : Core) (l : List (Nat × Bool)) : Prop :=
  ∃ tabs : List Nat, (∀ va, pdx va ∈ tabs → s.pte d va ≠ none) ∧
    framesFor tabs s.slabs l ≤ s.nfreeblock

theorem addPage_calm {va : Nat} (h : Calm own d₀ d q s) (hne : d ≠ d₀) (hown : own pid d)
    (hp : Present s d va) (hva : PGSIZE ∣ va) (hlt : va < KERNBASE)
    (hnew : ∀ e ∈ s.pgqueue, ¬ (e.dir = d ∧ e.va = va))
    (hroom : s.slabs = 0 → 1 ≤ s.nfreeblock) (ht : addPage s d va pid = .ok t) :
    Calm own d₀ d q t ∧ Steady (if s.slabs = 0 then 1 else 0) s t ∧
      t.slabs = slabsAfter s.slabs := by
  unfold addPage at ht
  obtain ⟨u, hu, ht⟩ := bind_eq_ok.mp ht
  obtain ⟨hst, hq, hsl⟩ := allocSlab_quiet h.count hroom hu
  obtain ⟨q', hsp, hd⟩ := h
  have hspu := hsp.steady hst hq
  have hpu := hst.present hp
  split at ht
  · cases ht
  · rename_i x hx
    cases ht
    refine ⟨⟨q' ++ [⟨d, va, va ||| pid, x.a⟩], ⟨⟨hspu.count, hspu.owner, hspu.small, hspu.live,
      hspu.fresh⟩, ?_, ?_, hsp.nodup₁, ?_, ?_⟩, ?_⟩,
      ⟨hst.procs, hst.nextpid, hst.nextDir, hst.dirs, hst.kept, hst.tables, hst.count, hst.room⟩,
      hsl⟩
    · change u.pgqueue ++ _ = _
      rw [hspu.queue, List.append_assoc]
    · intro e he
      rcases List.mem_append.mp he with he | he
      · exact hspu.entry e he
      · rw [List.mem_singleton] at he
        subst he
        exact ⟨pid, hown, rfl, hpu, hva, hlt⟩
    · rw [List.map_append]
      refine List.nodup_append.mpr ⟨hsp.nodup₂, by simp, ?_⟩
      intro k hk k' hk' heq
      obtain ⟨e, he, rfl⟩ := List.mem_map.mp hk
      rw [List.map_cons, List.map_nil, List.mem_singleton] at hk'
      have hmem : e ∈ s.pgqueue := by
        rw [hsp.queue]
        exact List.mem_append_right _ he
      obtain ⟨hva', -, -⟩ := (hsp.entry e hmem).of_key hsp.toBase hva (hsp.small pid d hown)
        (heq.trans hk')
      exact hnew e hmem ⟨hd e he, hva'⟩
    · intro e he
      rcases List.mem_append.mp he with he | he
      · exact hsp.other e he
      · rw [List.mem_singleton] at he
        subst he
        exact hne
    · intro e he
      rcases List.mem_append.mp he with he | he
      · exact hd e he
      · rw [List.mem_singleton] at he
        subst he
        rfl

/-- A page that the process may read and write. -/
def UserPage (s : Core) (d va : Nat) : Prop :=
  ∃ x, s.pte d va = some x ∧ x.p = true ∧ x.u = true

theorem Steady.userPage {n va : Nat} (h : Steady n s t) (hp : UserPage s d va) :
    UserPage t d va := by
  obtain ⟨x, hx, hxp, hxu⟩ := hp
  exact ⟨x, h.kept d va x hx hxp, hxp, hxu⟩

theorem addPageIf_calm {va : Nat} {test : Bool} (h : Calm own d₀ d q s) (hne : d ≠ d₀)
    (hown : own pid d) (hp : Present s d va) (hva : PGSIZE ∣ va) (hlt : va < KERNBASE)
    (hnew : ∀ e ∈ s.pgqueue, ¬ (e.dir = d ∧ e.va = va))
    (hroom : test = true ∧ s.slabs = 0 → 1 ≤ s.nfreeblock)
    (ht : addPageIf test s d va pid = .ok t) :
    Calm own d₀ d q t ∧ Steady (if test = true ∧ s.slabs = 0 then 1 else 0) s t ∧
      t.slabs = if test then slabsAfter s.slabs else s.slabs := by
  cases test with
  | true =>
    simp only [true_and] at hroom ⊢
    exact addPage_calm h hne hown hp hva hlt hnew hroom ht
  | false =>
    cases ht
    exact ⟨h, Steady.of_dirs rfl rfl rfl rfl h.count (by simp), rfl⟩

/-- The free frames pay for the rest of page `i`, the table (if `table`) and the slab of
    its queue entry (if `queued`), and for the pages `l`. -/
def Owes (d : Nat) (s : Core) (i : Nat) (table queued : Bool) (l : List (Nat × Bool)) : Prop :=
  ∃ tabs : List Nat, (∀ va, pdx va ∈ tabs → s.pte d va ≠ none) ∧
    (if table = true ∧ pdx i ∉ tabs then 1 else 0) + (if queued = true ∧ s.slabs = 0 then 1 else 0) +
      framesFor (pdx i :: tabs) (if queued then slabsAfter s.slabs else s.slabs) l ≤ s.nfreeblock

theorem Affords.pos {i : Nat} {queued : Bool} {l : List (Nat × Bool)}
    (h : Affords d s ((i, queued) :: l)) : 1 ≤ s.nfreeblock := by
  obtain ⟨tabs, -, hfr⟩ := h
  unfold framesFor at hfr
  dsimp only at hfr
  omega

theorem Affords.owes {i : Nat} {queued : Bool} {l : List (Nat × Bool)}
    (h : Affords d s ((i, queued) :: l)) (hq : Quiet 1 s t) : Owes d t i true queued l := by
  obtain ⟨tabs, htabs, hfr⟩ := h
  unfold framesFor at hfr
  dsimp only at hfr
  have hroom := hq.room
  refine ⟨tabs, fun va hva => hq.tables d va (htabs va hva), ?_⟩
  have htable : (if true = true ∧ pdx i ∉ tabs then 1 else 0) = if pdx i ∈ tabs then 0 else 1 := by
    by_cases hin : pdx i ∈ tabs <;> simp [hin]
  rw [htable, hq.slabs]
  omega

theorem Owes.table {i : Nat} {queued : Bool} {l : List (Nat × Bool)} (h : Owes d s i true queued l)
    (hn : s.pte d i = none) : 1 ≤ s.nfreeblock := by
  obtain ⟨tabs, htabs, hfr⟩ := h
  rw [if_pos ⟨rfl, fun hin => htabs i hin hn⟩] at hfr
  omega

theorem Owes.mapped {i : Nat} {queued : Bool} {l : List (Nat × Bool)} (h : Owes d s i true queued l)
    (hq : Quiet (if s.pte d i = none then 1 else 0) s t) : Owes d t i false queued l := by
  obtain ⟨tabs, htabs, hfr⟩ := h
  have hroom := hq.room
  refine ⟨tabs, fun va hva => hq.tables d va (htabs va hva), ?_⟩
  have hle : (if s.pte d i = none then 1 else 0) ≤ if true = true ∧ pdx i ∉ tabs then 1 else 0 := by
    split
    · rename_i hn
      rw [if_pos ⟨rfl, fun hin => htabs i hin hn⟩]
    · exact Nat.zero_le _
  rw [if_neg (by simp), hq.slabs]
  omega

theorem Owes.slab {i : Nat} {queued : Bool} {l : List (Nat × Bool)} (h : Owes d s i false queued l)
    (hs : queued = true ∧ s.slabs = 0) : 1 ≤ s.nfreeblock := by
  obtain ⟨tabs, -, hfr⟩ := h
  rw [if_pos hs] at hfr
  omega

theorem Owes.queued {i : Nat} {queued : Bool} {l : List (Nat × Bool)} (h : Owes d s i false queued l)
    (hi : s.pte d i ≠ none) (hst : Steady (if queued = true ∧ s.slabs = 0 then 1 else 0) s t)
    (hsl : t.slabs = if queued then slabsAfter s.slabs else s.slabs) : Affords d t l := by
  obtain ⟨tabs, htabs, hfr⟩ := h
  have hroom := hst.room
  refine ⟨pdx i :: tabs, ?_, ?_⟩
  · intro va hmem
    apply hst.tables d va
    rcases List.mem_cons.mp hmem with hpd | hmem
    · exact fun hn => hi (pte_eq_none_of_pdx hpd hn)
    · exact htabs va hmem
  · rw [hsl]
    omega

/-- Mapping and queueing the first of the pages that the free frames pay for. -/
theorem allocPage_calm {i base : Nat} {r : Bool} {l : List (Nat × Bool)} (hne : d ≠ d₀)
    (hown : own pid d) (h : Calm own d₀ d q s) (hi : PGSIZE ∣ i) (hlt : i < KERNBASE)
    (haff : Affords d s ((i, decide (base < i)) :: l))
    (ht : allocPage s d base pid i = .ok (t, r)) :
    Calm own d₀ d q t ∧ Affords d t l ∧ (∃ n, Steady n s t) ∧ UserPage t d i ∧ r = true := by
  unfold allocPage at ht
  obtain ⟨⟨u, o⟩, hu, ht⟩ := bind_eq_ok.mp ht
  obtain ⟨hqu, g, rfl⟩ := kalloc_quiet h.count haff.pos hu
  have hqu' : Quiet 1 s (u.setMem g Bytes.zero) :=
    ⟨⟨hqu.procs, hqu.nextpid, hqu.nextDir, hqu.dirs, hqu.kept, hqu.tables, hqu.count, hqu.room⟩,
      hqu.pgqueue, hqu.slabs⟩
  have howes := haff.owes hqu'
  obtain ⟨⟨v, r'⟩, hv, ht⟩ := bind_eq_ok.mp ht
  obtain ⟨hqv, rfl, hnp, hpte⟩ := mapPage_quiet hqu'.count howes.table hv
  have hsv := hqu'.trans hqv
  have howes := howes.mapped hqv
  have hnew : ∀ e ∈ v.pgqueue, ¬ (e.dir = d ∧ e.va = i) := by
    rw [hqv.pgqueue]
    exact (h.steady hqu'.toSteady hqu'.pgqueue).not_queued hnp
  obtain ⟨w, hw, ht⟩ := bind_eq_ok.mp ht
  cases ht
  obtain ⟨hcw, hstw, hsl⟩ := addPageIf_calm (h.steady hsv.toSteady hsv.pgqueue) hne hown
    ⟨_, hpte, rfl⟩ hi hlt hnew howes.slab hw
  have hpw : t.pte d i = some ⟨true, true, true, false, g⟩ := hstw.kept d i _ hpte rfl
  have hne' : v.pte d i ≠ none := by
    rw [hpte]
    exact Option.some_ne_none _
  exact ⟨hcw, howes.queued hne' hstw hsl, ⟨_, hsv.toSteady.trans hstw⟩, ⟨_, hpw, rfl, rfl⟩, rfl⟩

theorem allocLoop_calm {base : Nat} (hne : d ≠ d₀) (hown : own pid d) (l : List Nat) :
    ∀ {s t : Core} {o : Option Nat} {rest : List (Nat × Bool)}, Calm own d₀ d q s →
      (∀ va ∈ l, PGSIZE ∣ va ∧ va < KERNBASE) →
      Affords d s ((l.map fun va => (va, decide (base < va))) ++ rest) →
      allocLoop d base pid l s = .ok (t, o) →
      Calm own d₀ d q t ∧ Affords d t rest ∧ (∃ n, Steady n s t) ∧ (∀ va ∈ l, UserPage t d va) ∧
        o = none := by
  induction l with
  | nil =>
    intro s t o rest h _ haff ht
    cases ht
    exact ⟨h, haff, ⟨0, Steady.of_dirs rfl rfl rfl rfl h.count (Nat.le_refl _)⟩, by simp, rfl⟩
  | cons i l ih =>
    intro s t o rest h hl haff ht
    obtain ⟨hi, hlt⟩ := hl i List.mem_cons_self
    unfold allocLoop at ht
    obtain ⟨⟨u, r⟩, hu, ht⟩ := bind_eq_ok.mp ht
    obtain ⟨hcu, hau, ⟨n, hsu⟩, hpu, rfl⟩ := allocPage_calm hne hown h hi hlt haff hu
    obtain ⟨hct, hat, ⟨m, hst⟩, hpt, ho⟩ :=
      ih hcu (fun va hva => hl va (List.mem_cons_of_mem _ hva)) hau ht
    refine ⟨hct, hat, ⟨n + m, hsu.trans hst⟩, ?_, ho⟩
    intro va hva
    rcases List.mem_cons.mp hva with rfl | hva
    · exact hst.userPage hpu
    · exact hpt va hva

theorem allocuvm_calm {startva endva sz : Nat} {rest : List (Nat × Bool)} (hne : d ≠ d₀)
    (hown : own pid d) (h : Calm own d₀ d q s)
    (haff : Affords d s (allocPages startva endva ++ rest))
    (ht : allocuvm s d startva endva pid = .ok (t, sz)) :
    Calm own d₀ d q t ∧ Affords d t rest ∧ (∃ n, Steady n s t) ∧ sz = allocSize startva endva ∧
      ∀ p ∈ allocPages startva endva, UserPage t d p.1 := by
  have hrefl : Steady 0 s s := Steady.of_dirs rfl rfl rfl rfl h.count (Nat.le_refl _)
  unfold allocuvm at ht
  unfold allocSize
  unfold allocPages at haff ⊢
  split at ht
  · rename_i hkern
    cases ht
    rw [if_pos (Or.inl hkern)] at haff ⊢
    exact ⟨h, haff, ⟨0, hrefl⟩, (if_pos hkern).symm, by simp⟩
  · rename_i hkern
    split at ht
    · rename_i hend
      cases ht
      rw [if_pos (Or.inr hend)] at haff ⊢
      exact ⟨h, haff, ⟨0, hrefl⟩, by rw [if_neg hkern, if_pos hend], by simp⟩
    · rename_i hend
      have hcond : ¬ (KERNBASE ≤ endva ∨ endva < startva) := by omega
      rw [if_neg hcond] at haff ⊢
      obtain ⟨⟨u, o⟩, hu, ht⟩ := bind_eq_ok.mp ht
      have hl : ∀ va ∈ pages startva endva, PGSIZE ∣ va ∧ va < KERNBASE := by
        intro va hva
        obtain ⟨h1, h2⟩ := mem_pages hva
        exact ⟨h1, by omega⟩
      obtain ⟨hc, ha, hst, hup, rfl⟩ := allocLoop_calm hne hown _ h hl haff hu
      cases ht
      refine ⟨hc, ha, hst, by rw [if_neg hkern, if_neg hend], ?_⟩
      intro p hp
      obtain ⟨va, hva, rfl⟩ := List.mem_map.mp hp
      exact hup va hva

theorem Writes.steady (h : Writes s t) (hc : s.nfreeblock = s.freelist.length) : Steady 0 s t := by
  refine Steady.of_dirs ?_ ?_ ?_ ?_ ?_ ?_ <;> rw [h]
  · exact hc
  · exact Nat.le_refl _

theorem Calm.writes (h : Calm own d₀ d q s) (hw : Writes s t) : Calm own d₀ d q t :=
  h.steady (hw.steady h.count) (by rw [hw])

theorem Affords.writes {l : List (Nat × Bool)} (h : Affords d s l) (hw : Writes s t) :
    Affords d t l := by
  rw [hw]
  exact h

theorem loadPh_calm {img : Image} {ph : Ph} {sz : Nat} {o : Option Nat}
    {rest : List (Nat × Bool)} (hne : d ≠ d₀) (hown : own pid d) (h : Calm own d₀ d q s)
    (haff : Affords d s ((planPh img ph sz).1 ++ rest))
    (ht : loadPh d pid img ph sz s = .ok (t, o)) :
    Calm own d₀ d q t ∧ Affords d t rest ∧ (∃ n, Steady n s t) ∧ o = (planPh img ph sz).2 := by
  rcases loadPh_cases ht with ⟨rfl, hp⟩ | ⟨u, endva, sz', hu, hw, -, hp, ho⟩
  · rw [hp] at haff ⊢
    exact ⟨h, haff, ⟨0, Steady.of_dirs rfl rfl rfl rfl h.count (Nat.le_refl _)⟩, rfl⟩
  · rw [hp] at haff
    obtain ⟨hc, ha, ⟨n, hst⟩, hsz, -⟩ := allocuvm_calm hne hown h haff hu
    exact ⟨hc.writes hw, ha.writes hw, ⟨n, hst.trans (hw.steady hc.count)⟩, ho hsz⟩

theorem loadPhs_calm {img : Image} (hne : d ≠ d₀) (hown : own pid d) (l : List (Option Ph)) :
    ∀ {sz : Nat} {s t : Core} {o : Option Nat} {rest : List (Nat × Bool)}, Calm own d₀ d q s →
      Affords d s ((planPhs img l sz).1 ++ rest) → (planPhs img l sz).2.isSome = true →
      loadPhs d pid img l sz s = .ok (t, o) →
      Calm own d₀ d q t ∧ Affords d t rest ∧ (∃ n, Steady n s t) ∧ o = (planPhs img l sz).2 := by
  induction l with
  | nil =>
    intro sz s t o rest h haff _ ht
    cases ht
    exact ⟨h, haff, ⟨0, Steady.of_dirs rfl rfl rfl rfl h.count (Nat.le_refl _)⟩, rfl⟩
  | cons x l ih =>
    intro sz s t o rest h haff hsome ht
    cases x with
    | none => cases hsome
    | some ph =>
      unfold loadPhs at ht
      unfold planPhs at haff hsome ⊢
      obtain ⟨⟨u, o'⟩, hu, ht⟩ := bind_eq_ok.mp ht
      split at hsome
      · cases hsome
      · rename_i m sz' heq
        rw [heq] at haff
        dsimp only at haff
        rw [List.append_assoc] at haff
        have haff' : Affords d s ((planPh img ph sz).1 ++ ((planPhs img l sz').1 ++ rest)) := by
          rw [heq]
          exact haff
        obtain ⟨hc, ha, ⟨n, hst⟩, ho⟩ := loadPh_calm hne hown h haff' hu
        rw [heq] at ho
        subst ho
        obtain ⟨hct, hat, ⟨k, hst'⟩, hot⟩ := ih hc ha hsome ht
        exact ⟨hct, hat, ⟨n + k, hst.trans hst'⟩, hot⟩

/-! ### The stack page -/

theorem Writes.userPage {va : Nat} (h : Writes s t) (hp : UserPage s d va) : UserPage t d va := by
  obtain ⟨x, hx⟩ := hp
  exact ⟨x, by rw [h.pte]; exact hx⟩

/-- A copy that stays inside one user page gets through. -/
theorem copyout_page {base va : Nat} {src : List UInt8} {r : Bool} (hb : PGSIZE ∣ base)
    (hp : UserPage s d base) (hle : base ≤ va) (hfit : va + src.length ≤ base + PGSIZE)
    (ht : copyout s d va src = .ok (t, r)) : r = true := by
  unfold copyout at ht
  cases src with
  | nil =>
    cases ht
    rfl
  | cons b l =>
    rw [List.length_cons] at hfit ht
    unfold copyoutLoop at ht
    rw [if_neg (List.cons_ne_nil b l)] at ht
    have hva : pgrounddown va = base := by
      unfold pgrounddown PGSIZE at *
      omega
    obtain ⟨x, hx, hxp, hxu⟩ := hp
    simp only [hva, hx] at ht
    rw [if_neg (by simp [hxp, hxu])] at ht
    have hn : min (PGSIZE - (va - base)) (b :: l).length = (b :: l).length := by
      rw [List.length_cons]
      omega
    rw [hn, List.drop_length] at ht
    cases l with
    | nil =>
      cases ht
      rfl
    | cons c l =>
      rw [List.length_cons] at ht
      unfold copyoutLoop at ht
      rw [if_pos rfl] at ht
      cases ht
      rfl

/-- The address that `exec` pushes `n` bytes at. -/
theorem sp_sub {base room n : Nat} (hb : PGSIZE ∣ base) (hn : n ≤ room) (hlt : base + room < 2 ^ 32) :
    (base + room + 2 ^ 32 - n) % 2 ^ 32 / 4 * 4 = base + (room - n) / 4 * 4 := by
  have : (base + room + 2 ^ 32 - n) % 2 ^ 32 = base + (room - n) := by omega
  rw [this]
  unfold PGSIZE at hb
  omega

theorem pushArgs_fit {base : Nat} (hb : PGSIZE ∣ base) (hlt : base + PGSIZE < 2 ^ 32)
    (l : List (List UInt8)) :
    ∀ {argc room : Nat} {ustack : List Nat} {s t : Core} {o : Option (Nat × List Nat)},
      room ≤ PGSIZE → UserPage s d base → argsFit l argc room = true →
      pushArgs d l argc (base + room) ustack s = .ok (t, o) →
      ∃ room' us, o = some (base + room', us) ∧ (3 + (argc + l.length) + 1) * 4 ≤ room' ∧
        room' ≤ PGSIZE ∧ us.length = ustack.length + l.length := by
  induction l with
  | nil =>
    intro argc room ustack s t o hle _ hfit ht
    cases ht
    refine ⟨room, ustack, rfl, ?_, hle, rfl⟩
    simpa [argsFit] using hfit
  | cons arg l ih =>
    intro argc room ustack s t o hle hp hfit ht
    simp only [argsFit, Bool.and_eq_true, decide_eq_true_eq] at hfit
    obtain ⟨⟨hargc, hroom⟩, hfit⟩ := hfit
    unfold pushArgs at ht
    rw [if_neg (by omega)] at ht
    rw [sp_sub hb hroom (by omega)] at ht
    obtain ⟨⟨u, r⟩, hu, ht⟩ := bind_eq_ok.mp ht
    have hr : r = true := by
      refine copyout_page hb hp (Nat.le_add_right _ _) ?_ hu
      rw [List.length_append, List.length_singleton]
      omega
    subst hr
    have hpu : UserPage u d base := (copyoutLoop_writes _ hu).userPage hp
    obtain ⟨room', us, ho, h1, h2, h3⟩ := ih (by omega) hpu hfit ht
    refine ⟨room', us, ho, ?_, h2, ?_⟩
    · rw [List.length_cons]
      omega
    · rw [h3, List.length_append, List.length_cons, List.length_cons, List.length_nil]
      omega

theorem length_words (l : List Nat) : (l.flatMap wordBytes).length = l.length * 4 := by
  induction l with
  | nil => rfl
  | cons a l ih =>
    rw [List.flatMap_cons, List.length_append, ih, List.length_cons]
    have : (wordBytes a).length = 4 := rfl
    omega

theorem buildStack_fit {sz : Nat} {img : Image} {r : Bool} (hsz : PGSIZE ∣ sz) (hpos : PGSIZE ≤ sz)
    (hlt : sz < KERNBASE) (hp : UserPage s d (sz - PGSIZE)) (hfit : argsFit img.args 0 PGSIZE = true)
    (ht : buildStack d sz img s = .ok (t, r)) : r = true := by
  have hb : PGSIZE ∣ sz - PGSIZE := Nat.dvd_sub hsz (dvd_refl _)
  have hk : sz - PGSIZE + PGSIZE < 2 ^ 32 := by
    unfold KERNBASE at hlt
    omega
  unfold buildStack at ht
  obtain ⟨⟨u, o⟩, hu, ht⟩ := bind_eq_ok.mp ht
  have hsum : sz = sz - PGSIZE + PGSIZE := by omega
  rw [hsum] at hu
  obtain ⟨room, us, rfl, h1, h2, h3⟩ := pushArgs_fit hb hk _ (Nat.le_refl _) hp hfit hu
  dsimp only at ht
  rw [Nat.zero_add] at h1
  have hmod : (sz - PGSIZE + room + 2 ^ 32 - (3 + img.args.length + 1) * 4) % 2 ^ 32 =
      sz - PGSIZE + room - (3 + img.args.length + 1) * 4 := by omega
  rw [hmod] at ht
  refine copyout_page hb ((pushArgs_writes _ hu).userPage hp) (by omega) ?_ ht
  rw [length_words, List.length_append, List.length_append, h3]
  simp only [List.length_cons, List.length_nil]
  omega

theorem Calm.clearpteu {va : Nat} (h : Calm own d₀ d q s) (hc : clearpteu s d va = .ok t) :
    Calm own d₀ d q t := by
  have hp : ∀ d' va', Present t d' va' ↔ Present s d' va' := fun d' va' => present_clearpteu hc
  obtain ⟨x, -, rfl⟩ := clearpteu_eq hc
  obtain ⟨q', hsp, hd⟩ := h
  refine ⟨q', ⟨⟨hsp.count, hsp.owner, hsp.small, ?_, ?_⟩, hsp.queue, ?_, hsp.nodup₁, hsp.nodup₂,
    hsp.other⟩, hd⟩
  · exact fun pid' d' h1 hn => hsp.live pid' d' h1 ((dirs_setPte s d va _ d').mp hn)
  · exact fun d' hd' => (dirs_setPte s d va _ d').mpr (hsp.fresh d' hd')
  · exact fun e he => (hsp.entry e he).mono (hp e.dir e.va).mpr

theorem mem_allocPages_stack {a : Nat} (ha : PGSIZE ∣ a) (hlt : a + 2 * PGSIZE < KERNBASE) :
    ∃ p ∈ allocPages a (a + 2 * PGSIZE), p.1 = a + PGSIZE := by
  have hup : pgroundup a = a := by
    unfold pgroundup
    unfold PGSIZE at *
    omega
  unfold allocPages
  rw [if_neg (by omega)]
  refine ⟨_, List.mem_map.mpr ⟨a + PGSIZE, List.mem_map.mpr ⟨1, ?_, ?_⟩, rfl⟩, rfl⟩
  · rw [hup, List.mem_range]
    unfold PGSIZE
    omega
  · rw [hup, Nat.one_mul]

/-- With frames to spare, an image that should load does. -/
theorem buildImage_calm {img : Image} {o : Option Nat} (hne : d ≠ d₀) (hown : own pid d)
    (h : Calm own d₀ d q s) (haff : Affords d s (plan img).1) (hplan : (plan img).2 = true)
    (ht : buildImage d pid img s = .ok (t, o)) :
    Calm own d₀ d q t ∧ t.procs = s.procs ∧ t.nextpid = s.nextpid ∧
      ∃ sz, o = some sz ∧ sz < KERNBASE := by
  unfold plan at haff hplan
  split at hplan
  · cases hplan
  · rename_i l sz heq
    rw [heq] at haff
    dsimp only at haff hplan
    rw [Bool.and_eq_true] at hplan
    obtain ⟨hsz, hfit⟩ := hplan
    unfold buildImage at ht
    obtain ⟨⟨u, o'⟩, hu, ht⟩ := bind_eq_ok.mp ht
    have haff1 : Affords d s ((planPhs img img.phs 0).1 ++
        allocPages (pgroundup sz) (pgroundup sz + 2 * PGSIZE)) := by
      rw [heq]
      exact haff
    obtain ⟨hcu, hau, ⟨n, hsu⟩, ho⟩ := loadPhs_calm hne hown _ h haff1 (by rw [heq]; rfl) hu
    rw [heq] at ho
    subst ho
    dsimp only at ht
    obtain ⟨⟨v, sz'⟩, hv, ht⟩ := bind_eq_ok.mp ht
    rw [← List.append_nil (allocPages _ _)] at hau
    obtain ⟨hcv, -, ⟨m, hsv⟩, hsz', hup⟩ := allocuvm_calm hne hown hcu hau hv
    have hlt : pgroundup sz + 2 * PGSIZE < KERNBASE := by
      unfold allocSize at hsz
      by_contra hge
      rw [if_pos (by omega)] at hsz
      simp at hsz
    have hsize : allocSize (pgroundup sz) (pgroundup sz + 2 * PGSIZE) =
        pgroundup sz + 2 * PGSIZE := by
      unfold allocSize
      rw [if_neg (by omega), if_neg (by omega)]
    rw [hsize] at hsz'
    have hpos : sz' ≠ 0 := by
      rw [hsz']
      unfold PGSIZE
      omega
    dsimp only at ht
    rw [if_neg hpos, hsz'] at ht
    obtain ⟨w, hw, ht⟩ := bind_eq_ok.mp ht
    obtain ⟨⟨z, r⟩, hz, ht⟩ := bind_eq_ok.mp ht
    have hdvd := pgroundup_dvd sz
    obtain ⟨p, hp, hp1⟩ := mem_allocPages_stack hdvd hlt
    have hstack : UserPage w d (pgroundup sz + 2 * PGSIZE - PGSIZE) := by
      have hpage : pgroundup sz + 2 * PGSIZE - PGSIZE = pgroundup sz + PGSIZE := by omega
      obtain ⟨x, hx, hxp⟩ := hup p hp
      rw [hp1] at hx
      obtain ⟨y, -, rfl⟩ := clearpteu_eq hw
      refine ⟨x, ?_, hxp⟩
      rw [hpage, pte_setPte, if_neg]
      · exact hx
      · rintro ⟨-, h1⟩
        unfold PGSIZE at h1
        omega
    have hr : r = true := buildStack_fit (Dvd.dvd.add hdvd (Dvd.intro_left _ rfl)) (by omega) hlt
      hstack hfit hz
    subst hr
    cases ht
    have hcw := hcv.clearpteu hw
    have hwr := buildStack_writes hz
    obtain ⟨y, -, rfl⟩ := clearpteu_eq hw
    refine ⟨hcw.writes hwr, ?_, ?_, _, rfl, hlt⟩
    · rw [hwr]
      exact hsv.procs.trans hsu.procs
    · rw [hwr]
      exact hsv.nextpid.trans hsu.nextpid

theorem kernelTables_quiet (l : List Nat) :
    ∀ {s t : Core} {r : Bool}, s.nfreeblock = s.freelist.length → l.length ≤ s.nfreeblock →
      kernelTables d l s = .ok (t, r) → Quiet l.length s t ∧ r = true := by
  induction l with
  | nil =>
    intro s t r hc _ ht
    cases ht
    exact ⟨Quiet.refl hc, rfl⟩
  | cons i l ih =>
    intro s t r hc hle ht
    rw [List.length_cons] at hle
    unfold kernelTables at ht
    obtain ⟨⟨u, r'⟩, hu, ht⟩ := bind_eq_ok.mp ht
    obtain ⟨hq, rfl, -⟩ := walkpgdir_quiet hc (fun _ => by omega) hu
    have hroom := hq.room
    have hone : (if s.pte d (i * (NPTENTRIES * PGSIZE)) = none then 1 else 0) ≤ 1 := by
      split <;> omega
    obtain ⟨hqt, hr⟩ := ih hq.count (by omega) ht
    have hst := hq.trans hqt
    refine ⟨⟨⟨hst.procs, hst.nextpid, hst.nextDir, hst.dirs, hst.kept, hst.tables, hst.count, ?_⟩,
      hst.pgqueue, hst.slabs⟩, hr⟩
    have := hst.room
    rw [List.length_cons]
    omega

/-- The frames of an empty directory. -/
def setupFrames : Nat := 1 + kernelPdx.length

theorem setupkvm_quiet {o : Option Nat} (hc : s.nfreeblock = s.freelist.length)
    (hroom : setupFrames ≤ s.nfreeblock) (ht : setupkvm s = .ok (t, o)) :
    t.pgqueue = s.pgqueue ∧ t.slabs = s.slabs ∧ s.nfreeblock ≤ t.nfreeblock + setupFrames := by
  unfold setupFrames at *
  unfold setupkvm at ht
  obtain ⟨⟨u, g⟩, hu, ht⟩ := bind_eq_ok.mp ht
  obtain ⟨hq, f, rfl⟩ := kalloc_quiet hc (by omega) hu
  have hr1 := hq.room
  obtain ⟨⟨v, r⟩, hv, ht⟩ := bind_eq_ok.mp ht
  obtain ⟨hqv, rfl⟩ := kernelTables_quiet kernelPdx (by exact hq.count)
    (by change _ ≤ u.nfreeblock; omega) hv
  cases ht
  have hr2 : u.nfreeblock ≤ t.nfreeblock + kernelPdx.length := hqv.room
  exact ⟨hqv.pgqueue.trans hq.pgqueue, hqv.slabs.trans hq.slabs, by omega⟩

end Yonix.Vm
