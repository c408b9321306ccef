/-
  Yonix/Vm/Built.lean
  ===================
  **The new image of `exec` is made of free frames.**

  While frames are free and `EnoughFrames` holds, nothing is evicted: every frame of the
  new directory was free before, and every queue entry is behind the old ones.  `Built`
  says what has been taken and what has been queued, `Grown` adds which pages that is for.
  It holds at every point at which `exec` can give up, so the pages that are there then
  are those that `plan` says.
-/
import Yonix.Vm.NewImage
import Yonix.Vm.Reaping

namespace Yonix.Vm

variable {s t u : Core} {d pid f va : Nat} {D : Dir} {st : Nat → Option Nat} {G : List Nat}
  {N : List Entry}

/-! ### Frames taken and entries queued -/

/-- The frames of a directory. -/
def Dir.Has (D : Dir) (f : Nat) : Prop :=
  f = D.frame ∨ (∃ i, D.tab i = some f) ∨ ∃ va, (D.pte va).p = true ∧ (D.pte va).frame = f

theorem Dir.has_iff (hD : s.dirs d = some D) : D.Has f ↔ ∃ w : Use, w.inDir d ∧ Uses st s f w := by
  constructor
  · rintro (rfl | ⟨i, hi⟩ | ⟨va, hp, hf⟩)
    · exact ⟨.dir d, rfl, D, hD, rfl⟩
    · exact ⟨.tab d i, rfl, D, hD, hi⟩
    · exact ⟨.page d va, rfl, D, hD, hp, hf⟩
  · rintro ⟨w, hw, huse⟩
    cases w with
    | page d' va =>
      obtain rfl : d' = d := hw
      obtain ⟨E, hE, hp, hf⟩ := huse
      obtain rfl := Option.some.inj (hD.symm.trans hE)
      exact Or.inr (Or.inr ⟨va, hp, hf⟩)
    | tab d' i =>
      obtain rfl : d' = d := hw
      obtain ⟨E, hE, hf⟩ := huse
      obtain rfl := Option.some.inj (hD.symm.trans hE)
      exact Or.inr (Or.inl ⟨i, hf⟩)
    | dir d' =>
      obtain rfl : d' = d := hw
      obtain ⟨E, hE, hf⟩ := huse
      obtain rfl := Option.some.inj (hD.symm.trans hE)
      exact Or.inl hf.symm
    | stack q => exact hw.elim

/-- From `s` on, directory `d` has become `D` out of free frames, the frames `G` have been
    taken for something else, and the entries `N` have been queued. -/
structure Built (st : Nat → Option Nat) (s : Core) (d : Nat) (D : Dir) (G : List Nat) (N : List Entry)
    (t : Core) : Prop where
  frames : Frames st G t
  procs : t.procs = s.procs
  dir : t.dirs d = some D
  dirs : ∀ d', d' ≠ d → t.dirs d' = s.dirs d'
  mem : ∀ f, f ∉ s.freelist → t.mem f = s.mem f
  free : ∀ f, f ∈ s.freelist ↔ f ∈ t.freelist ∨ D.Has f ∨ f ∈ G
  tabs : ∀ i, D.tab i ≠ none → i < NPDENTRIES
  queue : t.pgqueue = s.pgqueue ++ N
  swapMap : t.swapMap = s.swapMap
  swap : t.swap = s.swap

theorem Built.pte (h : Built st s d D G N t) (va : Nat) :
    t.pte d va = (D.tab (pdx va)).map fun _ => D.pte va := by
  unfold Core.pte
  rw [h.dir]

/-- The directory may write into its own frames. -/
theorem Built.setMem {x : Page} (h : Built st s d D G N t) (hf : D.Has f ∨ f ∈ G) :
    Built st s d D G N (t.setMem f x) := by
  refine ⟨h.frames.setMem x, h.procs, h.dir, h.dirs, ?_, h.free, h.tabs, h.queue, h.swapMap, h.swap⟩
  intro g hg
  have hne : g ≠ f := by
    rintro rfl
    exact hg ((h.free g).mpr (Or.inr hf))
  exact (Function.update_of_ne hne _ _).trans (h.mem g hg)

theorem kalloc_take {o : Option Nat} (hc : t.nfreeblock = t.freelist.length) (hpos : 1 ≤ t.nfreeblock)
    (ht : kalloc t = .ok (u, o)) :
    ∃ f l, o = some f ∧ t.freelist = f :: l ∧
      u = { t with freelist := l, nfreeblock := t.nfreeblock - 1 } := by
  obtain ⟨f, l, hl⟩ := List.exists_cons_of_length_pos (Nat.lt_of_lt_of_eq hpos hc)
  unfold kalloc takeFrame at ht
  rw [if_neg (by omega), hl] at ht
  cases ht
  exact ⟨f, l, rfl, hl, rfl⟩

theorem Built.kalloc {o : Option Nat} (h : Built st s d D G N t) (hpos : 1 ≤ t.nfreeblock)
    (ht : kalloc t = .ok (u, o)) :
    ∃ f, o = some f ∧ Built st s d D (f :: G) N u ∧ u.slabs = t.slabs := by
  obtain ⟨f, hof, hfu⟩ := h.frames.kalloc ht
  obtain ⟨g, l, hog, hl, rfl⟩ := kalloc_take h.frames.count hpos ht
  obtain rfl := Option.some.inj (hof.symm.trans hog)
  refine ⟨f, hof, ⟨hfu, h.procs, h.dir, h.dirs, h.mem, ?_, h.tabs, h.queue, h.swapMap, h.swap⟩, rfl⟩
  intro g
  rw [h.free, hl, List.mem_cons, List.mem_cons]
  tauto

/-- A frame in hand becomes part of the directory. -/
theorem Built.gain {D' : Dir} (h : Built st s d D (f :: G) N t) (hframes : Frames st G u)
    (hprocs : u.procs = t.procs) (hdir : u.dirs d = some D') (hdirs : ∀ d', d' ≠ d → u.dirs d' = t.dirs d')
    (hmem : u.mem = t.mem) (hfree : u.freelist = t.freelist) (hhas : ∀ g, D'.Has g ↔ g = f ∨ D.Has g)
    (htabs : ∀ i, D'.tab i ≠ none → i < NPDENTRIES) (hq : u.pgqueue = t.pgqueue)
    (hm : u.swapMap = t.swapMap) (hsw : u.swap = t.swap) : Built st s d D' G N u := by
  refine ⟨hframes, hprocs.trans h.procs, hdir, fun d' hd' => (hdirs d' hd').trans (h.dirs d' hd'), ?_, ?_,
    htabs, hq.trans h.queue, hm.trans h.swapMap, hsw.trans h.swap⟩
  · intro g hg
    rw [hmem]
    exact h.mem g hg
  · intro g
    rw [h.free, hfree, hhas, List.mem_cons]
    tauto

theorem Dir.has_setTab {i : Nat} (hi : D.tab i = none) (g : Nat) :
    ({ D with tab := Function.update D.tab i (some f) } : Dir).Has g ↔ g = f ∨ D.Has g := by
  constructor
  · rintro (hg | ⟨j, hj⟩ | hg)
    · exact Or.inr (Or.inl hg)
    · dsimp only at hj
      by_cases hij : j = i
      · subst hij
        rw [Function.update_self] at hj
        exact Or.inl (Option.some.inj hj).symm
      · rw [Function.update_of_ne hij] at hj
        exact Or.inr (Or.inr (Or.inl ⟨j, hj⟩))
    · exact Or.inr (Or.inr (Or.inr hg))
  · rintro (rfl | hg | ⟨j, hj⟩ | hg)
    · exact Or.inr (Or.inl ⟨i, Function.update_self _ _ _⟩)
    · exact Or.inl hg
    · have hij : j ≠ i := by
        rintro rfl
        rw [hi] at hj
        cases hj
      exact Or.inr (Or.inl ⟨j, (Function.update_of_ne hij _ _).trans hj⟩)
    · exact Or.inr (Or.inr hg)

theorem Dir.has_setPte {x : Pte} (hp : (D.pte va).p = false) (hx : x.p = true) (g : Nat) :
    ({ D with pte := Function.update D.pte va x } : Dir).Has g ↔ g = x.frame ∨ D.Has g := by
  constructor
  · rintro (hg | hg | ⟨a, ha, hg⟩)
    · exact Or.inr (Or.inl hg)
    · exact Or.inr (Or.inr (Or.inl hg))
    · dsimp only at ha hg
      by_cases hav : a = va
      · subst hav
        rw [Function.update_self] at hg
        exact Or.inl hg.symm
      · rw [Function.update_of_ne hav] at ha hg
        exact Or.inr (Or.inr (Or.inr ⟨a, ha, hg⟩))
  · rintro (rfl | hg | hg | ⟨a, ha, hg⟩)
    · refine Or.inr (Or.inr ⟨va, ?_, ?_⟩) <;> dsimp only <;> rw [Function.update_self]
      exact hx
    · exact Or.inl hg
    · exact Or.inr (Or.inl hg)
    · have hav : a ≠ va := by
        rintro rfl
        rw [hp] at ha
        cases ha
      refine Or.inr (Or.inr ⟨a, ?_, ?_⟩) <;> dsimp only <;> rw [Function.update_of_ne hav]
      · exact ha
      · exact hg

/-- A page table when there is none yet. -/
theorem Built.walkpgdir {r : Bool} (h : Built st s d D G N t)
    (hroom : t.pte d va = none → 1 ≤ t.nfreeblock) (hva : pdx va < NPDENTRIES)
    (ht : walkpgdir t d va true = .ok (u, r)) :
    r = true ∧ ∃ D', Built st s d D' G N u ∧ D'.pte = D.pte ∧ D'.tab (pdx va) ≠ none ∧
      (∀ i, D.tab i ≠ none → D'.tab i ≠ none) ∧ u.slabs = t.slabs := by
  unfold Vm.walkpgdir at ht
  rw [h.dir] at ht
  dsimp only at ht
  split at ht
  · rename_i htab
    cases ht
    exact ⟨rfl, D, h, rfl, Option.isSome_iff_ne_none.mp htab, fun _ hi => hi, rfl⟩
  · rename_i htab
    have hnone : D.tab (pdx va) = none := Option.not_isSome_iff_eq_none.mp htab
    rw [if_neg (by decide)] at ht
    obtain ⟨⟨v, o⟩, hv, ht⟩ := bind_eq_ok.mp ht
    obtain ⟨f, rfl, hb, hsl⟩ := h.kalloc (hroom (by rw [h.pte, hnone]; rfl)) hv
    cases ht
    have hbm : Built st s d D (f :: G) N (v.setMem f Bytes.zero) := hb.setMem (Or.inr List.mem_cons_self)
    have hdir : ((v.setMem f Bytes.zero).setTab d (pdx va) f).dirs d =
        some { D with tab := Function.update D.tab (pdx va) (some f) } := by
      change Function.update v.dirs d ((v.dirs d).map _) d = _
      rw [Function.update_self, hb.dir]
      rfl
    have htabs : ∀ i, Function.update D.tab (pdx va) (some f) i ≠ none → i < NPDENTRIES := by
      intro i hi
      by_cases hip : i = pdx va
      · exact hip ▸ hva
      · rw [Function.update_of_ne hip] at hi
        exact h.tabs i hi
    have hframes : Frames st G ((v.setMem f Bytes.zero).setTab d (pdx va) f) :=
      hbm.frames.gain (.tab d (pdx va)) rfl rfl rfl fun w g hw => uses_setTab (pdx va) f w hw
    have hgain := hbm.gain hframes rfl hdir (fun d' hd' => Function.update_of_ne hd' _ _) rfl rfl
      (Dir.has_setTab hnone) htabs rfl rfl rfl
    refine ⟨rfl, _, hgain, rfl, ?_, ?_, hsl⟩
    · dsimp only
      rw [Function.update_self]
      exact Option.some_ne_none _
    · intro i hi
      dsimp only
      by_cases hip : i = pdx va
      · rw [hip, Function.update_self]
        exact Option.some_ne_none _
      · rw [Function.update_of_ne hip]
        exact hi

/-- The frame in hand becomes a page. -/
theorem Built.mapPage {w x a r : Bool} (h : Built st s d D (f :: G) N t)
    (hroom : t.pte d va = none → 1 ≤ t.nfreeblock) (hva : pdx va < NPDENTRIES)
    (ht : mapPage t d va f w x a = .ok (u, r)) :
    r = true ∧ (D.pte va).p = false ∧ ∃ D', Built st s d D' G N u ∧
      D'.pte = Function.update D.pte va ⟨true, w, x, a, f⟩ ∧ D'.tab (pdx va) ≠ none ∧
      (∀ i, D.tab i ≠ none → D'.tab i ≠ none) ∧ u.slabs = t.slabs := by
  have hframes := h.frames.mapPage ht
  unfold Vm.mapPage at ht
  obtain ⟨⟨v, r'⟩, hv, ht⟩ := bind_eq_ok.mp ht
  obtain ⟨rfl, D₁, hb, hpte, htab, hmono, hsl⟩ := h.walkpgdir hroom hva hv
  dsimp only at ht
  split at ht
  · cases ht
  · rename_i y hy
    split at ht
    · cases ht
    · rename_i hp
      cases ht
      have hyD : D₁.pte va = y := by
        rw [hb.pte] at hy
        obtain ⟨-, -, hy⟩ := Option.map_eq_some_iff.mp hy
        exact hy
      have hpf : (D₁.pte va).p = false := by
        rw [hyD]
        simpa using hp
      have hdir : (v.setPte d va ⟨true, w, x, a, f⟩).dirs d =
          some { D₁ with pte := Function.update D₁.pte va ⟨true, w, x, a, f⟩ } := by
        change Function.update v.dirs d ((v.dirs d).map _) d = _
        rw [Function.update_self, hb.dir]
        rfl
      rw [if_pos rfl] at hframes
      refine ⟨rfl, hpte ▸ hpf, _, hb.gain hframes rfl hdir (fun d' hd' => Function.update_of_ne hd' _ _)
        rfl rfl (Dir.has_setPte hpf rfl) hb.tabs rfl rfl rfl, ?_, htab, hmono, hsl⟩
      rw [hpte]

/-- A slab for a queue entry; a frame of new slabs is not given back. -/
theorem Built.allocSlab (h : Built st s d D G N t) (hroom : t.slabs = 0 → 1 ≤ t.nfreeblock)
    (ht : allocSlab t = .ok u) :
    ∃ G', Built st s d D G' N u ∧ u.slabs = slabsAfter t.slabs ∧
      (t.slabs = 0 ∧ G' ≠ [] ∨ t.slabs ≠ 0 ∧ G' = G) := by
  unfold Vm.allocSlab at ht
  unfold slabsAfter
  split at ht
  · rename_i h0
    obtain ⟨⟨v, o⟩, hv, ht⟩ := bind_eq_ok.mp ht
    obtain ⟨f, rfl, hb, -⟩ := h.kalloc (hroom h0) hv
    cases ht
    rw [if_pos h0]
    exact ⟨f :: G, ⟨hb.frames.congr rfl rfl rfl rfl, hb.procs, hb.dir, hb.dirs, hb.mem, hb.free, hb.tabs,
      hb.queue, hb.swapMap, hb.swap⟩, rfl, Or.inl ⟨h0, List.cons_ne_nil f G⟩⟩
  · rename_i h0
    cases ht
    rw [if_neg h0]
    exact ⟨G, ⟨h.frames.congr rfl rfl rfl rfl, h.procs, h.dir, h.dirs, h.mem, h.free, h.tabs, h.queue,
      h.swapMap, h.swap⟩, rfl, Or.inr ⟨h0, rfl⟩⟩

theorem Built.addPage {x : Pte} (h : Built st s d D G N t) (hroom : t.slabs = 0 → 1 ≤ t.nfreeblock)
    (htab : D.tab (pdx va) ≠ none) (hx : D.pte va = x) (ht : addPage t d va pid = .ok u) :
    ∃ G', Built st s d D G' (N ++ [⟨d, va, va ||| pid, x.a⟩]) u ∧ u.slabs = slabsAfter t.slabs ∧
      (t.slabs = 0 ∧ G' ≠ [] ∨ t.slabs ≠ 0 ∧ G' = G) := by
  unfold Vm.addPage at ht
  obtain ⟨v, hv, ht⟩ := bind_eq_ok.mp ht
  obtain ⟨G', hb, hsl, hG⟩ := h.allocSlab hroom hv
  obtain ⟨f, hf⟩ := Option.ne_none_iff_exists'.mp htab
  have hpte : v.pte d va = some x := by
    rw [hb.pte, hf, hx]
    rfl
  rw [hpte] at ht
  cases ht
  refine ⟨G', ⟨hb.frames.congr rfl rfl rfl rfl, hb.procs, hb.dir, hb.dirs, hb.mem, hb.free, hb.tabs, ?_,
    hb.swapMap, hb.swap⟩, hsl, hG⟩
  change v.pgqueue ++ _ = _
  rw [hb.queue, List.append_assoc]

/-! ### The pages of the new image -/

/-- The queue entries of the pages `l` of directory `d`. -/
def entries (d pid : Nat) (l : List (Nat × Bool)) : List Entry :=
  (queuedOf l).map fun va => ⟨d, va, va ||| pid, false⟩

/-- The pages `l` have been mapped, and nothing else has been done. -/
structure Grown (st : Nat → Option Nat) (s : Core) (d pid : Nat) (l : List (Nat × Bool)) (D : Dir)
    (G : List Nat) (t : Core) : Prop where
  built : Built st s d D G (entries d pid l) t
  pages : ∀ va, (D.pte va).p = true ↔ va ∈ l.map Prod.fst
  tabled : ∀ va ∈ l.map Prod.fst, D.tab (pdx va) ≠ none
  good : ∀ va ∈ l.map Prod.fst, PGSIZE ∣ va ∧ va < KERNBASE
  nodup : (l.map Prod.fst).Nodup
  ledger : G = [] ∧ (queuedOf l).length + t.slabs = s.slabs ∨ G ≠ [] ∧ s.slabs < (queuedOf l).length

variable {l rest : List (Nat × Bool)}

theorem queuedOf_append (l l' : List (Nat × Bool)) : queuedOf (l ++ l') = queuedOf l ++ queuedOf l' := by
  unfold queuedOf
  rw [List.filter_append, List.map_append]

theorem entries_append (l l' : List (Nat × Bool)) :
    entries d pid (l ++ l') = entries d pid l ++ entries d pid l' := by
  unfold entries
  rw [queuedOf_append, List.map_append]

theorem Grown.ledger_queued {slabs : Nat} {G' : List Nat} (h : Grown st s d pid l D G t)
    (hsl : slabs = slabsAfter t.slabs) (hG : t.slabs = 0 ∧ G' ≠ [] ∨ t.slabs ≠ 0 ∧ G' = G) (va : Nat) :
    G' = [] ∧ (queuedOf (l ++ [(va, true)])).length + slabs = s.slabs ∨
      G' ≠ [] ∧ s.slabs < (queuedOf (l ++ [(va, true)])).length := by
  have hlen : (queuedOf (l ++ [(va, true)])).length = (queuedOf l).length + 1 := by
    rw [queuedOf_append, List.length_append]
    rfl
  rw [hlen, hsl]
  unfold slabsAfter
  rcases hG with ⟨h0, hne⟩ | ⟨h0, rfl⟩
  · rcases h.ledger with ⟨-, hsum⟩ | ⟨-, hlt⟩
    · exact Or.inr ⟨hne, by omega⟩
    · exact Or.inr ⟨hne, by omega⟩
  · rw [if_neg h0]
    rcases h.ledger with ⟨hnil, hsum⟩ | ⟨hne, hlt⟩
    · exact Or.inl ⟨hnil, by omega⟩
    · exact Or.inr ⟨hne, by omega⟩

/-- One more page. -/
theorem Grown.allocPage {base i : Nat} {r : Bool} (h : Grown st s d pid l D G t) (hi : PGSIZE ∣ i)
    (hlt : i < KERNBASE) (haff : Affords d t ((i, decide (base < i)) :: rest))
    (ht : allocPage t d base pid i = .ok (u, r)) :
    r = true ∧ Affords d u rest ∧ ∃ D' G', Grown st s d pid (l ++ [(i, decide (base < i))]) D' G' u := by
  have hc := h.built.frames.count
  unfold Vm.allocPage at ht
  obtain ⟨⟨v, o⟩, hv, ht⟩ := bind_eq_ok.mp ht
  obtain ⟨hqv, -⟩ := kalloc_quiet hc haff.pos hv
  obtain ⟨g, rfl, hbv, hslv⟩ := h.built.kalloc haff.pos hv
  have hqv' : Quiet 1 t (v.setMem g Bytes.zero) :=
    ⟨⟨hqv.procs, hqv.nextpid, hqv.nextDir, hqv.dirs, hqv.kept, hqv.tables, hqv.count, hqv.room⟩,
      hqv.pgqueue, hqv.slabs⟩
  have howes := haff.owes hqv'
  have hset : Built st s d D (g :: G) (entries d pid l) (v.setMem g Bytes.zero) :=
    hbv.setMem (Or.inr List.mem_cons_self)
  obtain ⟨⟨w, r'⟩, hw, ht⟩ := bind_eq_ok.mp ht
  have hpdx : pdx i < NPDENTRIES := by
    unfold pdx
    unfold KERNBASE at hlt
    rw [Nat.div_lt_iff_lt_mul (by decide)]
    exact hlt.trans (by decide)
  obtain ⟨hqw, -, -, hptew⟩ := mapPage_quiet hqv'.count howes.table hw
  obtain ⟨rfl, hnew, D', hbw, hpte, htab, hmono, hslw⟩ := hset.mapPage howes.table hpdx hw
  have howes := howes.mapped hqw
  obtain ⟨z, hz, ht⟩ := bind_eq_ok.mp ht
  cases ht
  have hnone : w.pte d i ≠ none := by
    rw [hptew]
    exact Option.some_ne_none _
  have hslt : w.slabs = t.slabs := hslw.trans hslv
  have hout : i ∉ l.map Prod.fst := by
    intro hin
    rw [(h.pages i).mpr hin] at hnew
    cases hnew
  -- everything but the queue and the ledger is as `mapPage` has left it
  have hgrown : ∀ {b : Bool} {G' : List Nat}, Built st s d D' G' (entries d pid (l ++ [(i, b)])) u →
      (G' = [] ∧ (queuedOf (l ++ [(i, b)])).length + u.slabs = s.slabs ∨
        G' ≠ [] ∧ s.slabs < (queuedOf (l ++ [(i, b)])).length) →
      Grown st s d pid (l ++ [(i, b)]) D' G' u := by
    intro b G' hbu hled
    have hmap : (l ++ [(i, b)]).map Prod.fst = l.map Prod.fst ++ [i] := List.map_append
    refine ⟨hbu, ?_, ?_, ?_, ?_, hled⟩
    · intro va
      rw [hmap, hpte, List.mem_append, List.mem_singleton, Function.update_apply]
      split
      · rename_i heq
        exact ⟨fun _ => Or.inr heq, fun _ => rfl⟩
      · rename_i hne
        rw [h.pages]
        exact ⟨Or.inl, fun hor => hor.resolve_right hne⟩
    · intro va hva
      rw [hmap, List.mem_append, List.mem_singleton] at hva
      rcases hva with hva | rfl
      · exact hmono _ (h.tabled va hva)
      · exact htab
    · intro va hva
      rw [hmap, List.mem_append, List.mem_singleton] at hva
      rcases hva with hva | rfl
      · exact h.good va hva
      · exact ⟨hi, hlt⟩
    · rw [hmap]
      exact List.nodup_append.mpr ⟨h.nodup, List.nodup_singleton i, by
        rintro a ha b hb rfl
        rw [List.mem_singleton] at hb
        exact hout (hb ▸ ha)⟩
  obtain ⟨u', hu', -, hst, hsl⟩ := addPageIf_spare pid hqw.count ⟨_, hptew, rfl⟩ howes.slab
  obtain rfl := Except.ok.inj (hu'.symm.trans hz)
  refine ⟨rfl, howes.queued hnone hst hsl, ?_⟩
  have hroom := howes.slab
  revert hz hroom hgrown
  generalize decide (base < i) = b
  intro hz hgrown hroom
  unfold addPageIf at hz
  cases b with
  | true =>
    obtain ⟨G', hbz, hslz, hG⟩ := hbw.addPage (fun h0 => hroom ⟨rfl, h0⟩) htab
      (by rw [hpte, Function.update_self]) hz
    rw [hslt] at hslz hG
    refine ⟨D', G', hgrown ?_ (h.ledger_queued hslz hG i)⟩
    rw [entries_append]
    exact hbz
  | false =>
    cases hz
    have hsame : queuedOf (l ++ [(i, false)]) = queuedOf l := by
      rw [queuedOf_append]
      exact List.append_nil _
    refine ⟨D', G, hgrown ?_ ?_⟩
    · unfold entries
      rw [hsame]
      exact hbw
    · rw [hsame, hslt]
      exact h.ledger

theorem Grown.allocLoop {base : Nat} (vas : List Nat) :
    ∀ {l : List (Nat × Bool)} {D : Dir} {G : List Nat} {t u : Core} {o : Option Nat},
      Grown st s d pid l D G t → (∀ va ∈ vas, PGSIZE ∣ va ∧ va < KERNBASE) →
      Affords d t ((vas.map fun va => (va, decide (base < va))) ++ rest) →
      allocLoop d base pid vas t = .ok (u, o) →
      o = none ∧ Affords d u rest ∧
        ∃ D' G', Grown st s d pid (l ++ vas.map fun va => (va, decide (base < va))) D' G' u := by
  induction vas with
  | nil =>
    intro l D G t u o h _ haff ht
    cases ht
    refine ⟨rfl, haff, D, G, ?_⟩
    rw [List.map_nil, List.append_nil]
    exact h
  | cons i vas ih =>
    intro l D G t u o h hgood haff ht
    obtain ⟨hi, hlt⟩ := hgood i List.mem_cons_self
    unfold Vm.allocLoop at ht
    obtain ⟨⟨v, r⟩, hv, ht⟩ := bind_eq_ok.mp ht
    obtain ⟨rfl, haffv, D₁, G₁, hgv⟩ := h.allocPage hi hlt haff hv
    obtain ⟨ho, haffu, D', G', hgu⟩ :=
      ih hgv (fun va hva => hgood va (List.mem_cons_of_mem _ hva)) haffv ht
    refine ⟨ho, haffu, D', G', ?_⟩
    rw [List.append_assoc] at hgu
    exact hgu

theorem Grown.allocuvm {startva endva sz : Nat} (h : Grown st s d pid l D G t)
    (haff : Affords d t (allocPages startva endva ++ rest))
    (ht : allocuvm t d startva endva pid = .ok (u, sz)) :
    sz = allocSize startva endva ∧ Affords d u rest ∧
      ∃ D' G', Grown st s d pid (l ++ allocPages startva endva) D' G' u := by
  unfold Vm.allocuvm at ht
  unfold allocSize
  unfold allocPages at haff ⊢
  split at ht
  · rename_i hkern
    cases ht
    rw [if_pos (Or.inl hkern)] at haff ⊢
    rw [List.append_nil, if_pos hkern]
    exact ⟨rfl, haff, D, G, h⟩
  · rename_i hkern
    split at ht
    · rename_i hend
      cases ht
      rw [if_pos (Or.inr hend)] at haff ⊢
      rw [List.append_nil, if_neg hkern, if_pos hend]
      exact ⟨rfl, haff, D, G, h⟩
    · rename_i hend
      have hcond : ¬ (KERNBASE ≤ endva ∨ endva < startva) := by omega
      rw [if_neg hcond] at haff ⊢
      obtain ⟨⟨v, o⟩, hv, ht⟩ := bind_eq_ok.mp ht
      have hgood : ∀ va ∈ Vm.pages startva endva, PGSIZE ∣ va ∧ va < KERNBASE := by
        intro va hva
        obtain ⟨hdvd, hlt⟩ := mem_pages hva
        exact ⟨hdvd, by omega⟩
      obtain ⟨rfl, haffv, hgv⟩ := h.allocLoop _ hgood haff hv
      cases ht
      rw [if_neg hkern, if_neg hend]
      exact ⟨rfl, haffv, hgv⟩

/-! ### What is written into the new image -/

/-- The frames of the new image change, and nothing else. -/
theorem Grown.written (h : Grown st s d pid l D G t) (hb : Built st s d D G (entries d pid l) u)
    (hw : Writes t u) : Grown st s d pid l D G u := by
  refine ⟨hb, h.pages, h.tabled, h.good, h.nodup, ?_⟩
  rw [hw]
  exact h.ledger

theorem Built.page_frame {x : Pte} (h : Built st s d D G N t) (hx : t.pte d va = some x)
    (hp : x.p = true) : D.Has x.frame := by
  rw [h.pte] at hx
  obtain ⟨-, -, rfl⟩ := Option.map_eq_some_iff.mp hx
  exact Or.inr (Or.inr ⟨va, hp, rfl⟩)

theorem Built.loadLoop {addr off sz : Nat} {img : Image} (vas : List Nat) :
    ∀ {t u : Core} {r : Bool}, Built st s d D G N t → loadLoop d addr off sz img vas t = .ok (u, r) →
      Built st s d D G N u := by
  induction vas with
  | nil =>
    intro t u r h ht
    cases ht
    exact h
  | cons i vas ih =>
    intro t u r h ht
    unfold Vm.loadLoop at ht
    split at ht
    · cases ht
    · rename_i x hx
      split at ht
      · cases ht
      · rename_i hp
        dsimp only at ht
        split at ht
        · cases ht
          exact h
        · exact ih (h.setMem (Or.inl (h.page_frame hx (by simpa using hp)))) ht

theorem Built.copyoutLoop (k : Nat) :
    ∀ {va : Nat} {src : List UInt8} {t u : Core} {r : Bool}, Built st s d D G N t →
      copyoutLoop d k va src t = .ok (u, r) → Built st s d D G N u := by
  induction k with
  | zero =>
    intro va src t u r h ht
    cases ht
    exact h
  | succ k ih =>
    intro va src t u r h ht
    unfold Vm.copyoutLoop at ht
    split at ht
    · cases ht
      exact h
    · dsimp only at ht
      split at ht
      · cases ht
      · rename_i x hx
        split at ht
        · cases ht
          exact h
        · rename_i hopen
          rw [not_or, Bool.not_eq_false] at hopen
          exact ih (h.setMem (Or.inl (h.page_frame hx hopen.1))) ht

theorem Built.pushArgs (args : List (List UInt8)) :
    ∀ {argc sp : Nat} {ustack : List Nat} {t u : Core} {o : Option (Nat × List Nat)},
      Built st s d D G N t → pushArgs d args argc sp ustack t = .ok (u, o) → Built st s d D G N u := by
  induction args with
  | nil =>
    intro argc sp ustack t u o h ht
    cases ht
    exact h
  | cons arg args ih =>
    intro argc sp ustack t u o h ht
    unfold Vm.pushArgs at ht
    split at ht
    · cases ht
      exact h
    · obtain ⟨⟨v, r⟩, hv, ht⟩ := bind_eq_ok.mp ht
      have hb : Built st s d D G N v := h.copyoutLoop _ hv
      cases r with
      | false =>
        cases ht
        exact hb
      | true => exact ih hb ht

theorem Built.buildStackRet {sz : Nat} {img : Image} {o : Option Nat} (h : Built st s d D G N t)
    (ht : buildStackRet d sz img t = .ok (u, o)) : Built st s d D G N u := by
  unfold Vm.buildStackRet at ht
  obtain ⟨⟨v, o'⟩, hv, ht⟩ := bind_eq_ok.mp ht
  have hb := h.pushArgs _ hv
  cases o' with
  | none =>
    cases ht
    exact hb
  | some a =>
    obtain ⟨⟨w, r⟩, hw, ht⟩ := bind_eq_ok.mp ht
    have hbw : Built st s d D G N w := hb.copyoutLoop _ hw
    cases r with
    | false =>
      cases ht
      exact hbw
    | true =>
      cases ht
      exact hbw

theorem Built.has_retag {x y : Pte} (hx : D.pte va = x) (hp : y.p = x.p) (hf : y.frame = x.frame) (g : Nat) :
    ({ D with pte := Function.update D.pte va y } : Dir).Has g ↔ D.Has g := by
  have hsame : ∀ a, (Function.update D.pte va y a).p = (D.pte a).p ∧
      (Function.update D.pte va y a).frame = (D.pte a).frame := by
    intro a
    rw [Function.update_apply]
    split
    · rename_i heq
      rw [heq, hx]
      exact ⟨hp, hf⟩
    · exact ⟨rfl, rfl⟩
  unfold Dir.Has
  dsimp only
  simp only [hsame]

/-- The guard page below the stack. -/
theorem Grown.clearpteu (h : Grown st s d pid l D G t) (ht : clearpteu t d va = .ok u) :
    ∃ D', Grown st s d pid l D' G u := by
  obtain ⟨x, hx, rfl⟩ := clearpteu_eq ht
  have hxD : D.pte va = x := by
    rw [h.built.pte] at hx
    obtain ⟨-, -, hx⟩ := Option.map_eq_some_iff.mp hx
    exact hx
  have hb := h.built
  have hdir : (t.setPte d va { x with u := false }).dirs d =
      some { D with pte := Function.update D.pte va { x with u := false } } := by
    change Function.update t.dirs d ((t.dirs d).map _) d = _
    rw [Function.update_self, hb.dir]
    rfl
  refine ⟨_, ⟨hb.frames.retag hx rfl rfl, hb.procs, hdir, ?_, hb.mem, ?_, hb.tabs, hb.queue, hb.swapMap,
    hb.swap⟩, ?_, h.tabled, h.good, h.nodup, h.ledger⟩
  · exact fun d' hd' => (Function.update_of_ne hd' _ _).trans (hb.dirs d' hd')
  · intro f
    rw [hb.free, Built.has_retag (y := { x with u := false }) hxD rfl rfl]
    rfl
  · intro a
    rw [← h.pages]
    dsimp only
    rw [Function.update_apply]
    split
    · rename_i heq
      rw [heq, hxD]
    · rfl

/-! ### The loading part -/

theorem Grown.loadPh {img : Image} {ph : Ph} {sz : Nat} {o : Option Nat} (h : Grown st s d pid l D G t)
    (haff : Affords d t ((planPh img ph sz).1 ++ rest)) (ht : loadPh d pid img ph sz t = .ok (u, o)) :
    o = (planPh img ph sz).2 ∧ Affords d u rest ∧
      ∃ D' G', Grown st s d pid (l ++ (planPh img ph sz).1) D' G' u := by
  rcases loadPh_cases ht with ⟨rfl, hp⟩ | ⟨v, endva, sz', hv, hw, hread, hp, ho⟩
  · rw [hp] at haff ⊢
    rw [List.append_nil]
    exact ⟨rfl, haff, D, G, h⟩
  · rw [hp] at haff ⊢
    obtain ⟨hsz, haffv, D', G', hgv⟩ := h.allocuvm haff hv
    refine ⟨ho hsz, haffv.writes hw, D', G', hgv.written ?_ hw⟩
    rcases hread with rfl | ⟨r, hr⟩
    · exact hgv.built
    · exact hgv.built.loadLoop _ hr

theorem Grown.loadPhs {img : Image} (phs : List (Option Ph)) :
    ∀ {l : List (Nat × Bool)} {D : Dir} {G : List Nat} {sz : Nat} {t u : Core} {o : Option Nat},
      Grown st s d pid l D G t → Affords d t ((planPhs img phs sz).1 ++ rest) →
      loadPhs d pid img phs sz t = .ok (u, o) →
      o = (planPhs img phs sz).2 ∧ Affords d u rest ∧
        ∃ D' G', Grown st s d pid (l ++ (planPhs img phs sz).1) D' G' u := by
  induction phs with
  | nil =>
    intro l D G sz t u o h haff ht
    cases ht
    refine ⟨rfl, haff, D, G, ?_⟩
    unfold planPhs
    rw [List.append_nil]
    exact h
  | cons x phs ih =>
    intro l D G sz t u o h haff ht
    cases x with
    | none =>
      cases ht
      refine ⟨rfl, haff, D, G, ?_⟩
      unfold planPhs
      rw [List.append_nil]
      exact h
    | some ph =>
      unfold Vm.loadPhs at ht
      unfold planPhs at haff ⊢
      obtain ⟨⟨v, o'⟩, hv, ht⟩ := bind_eq_ok.mp ht
      cases hplan : planPh img ph sz with
      | mk m o₁ =>
        have hm : (planPh img ph sz).1 = m := by rw [hplan]
        have ho₁ : (planPh img ph sz).2 = o₁ := by rw [hplan]
        rw [hplan] at haff
        cases o₁ with
        | none =>
          obtain ⟨ho, haffv, hgv⟩ := h.loadPh (by rw [hm]; exact haff) hv
          rw [ho₁] at ho
          subst ho
          rw [hm] at hgv
          cases ht
          exact ⟨rfl, haffv, hgv⟩
        | some sz' =>
          dsimp only at haff
          rw [List.append_assoc] at haff
          obtain ⟨ho, haffv, D₁, G₁, hgv⟩ := h.loadPh (by rw [hm]; exact haff) hv
          rw [ho₁] at ho
          subst ho
          rw [hm] at hgv
          obtain ⟨ho, haffu, hgu⟩ := ih hgv haffv ht
          refine ⟨ho, haffu, ?_⟩
          dsimp only
          rw [← List.append_assoc]
          exact hgu

/-- The pages are those of the plan, whether the loading part gives up or not. -/
theorem Grown.loadImage {img : Image} {o : Option Nat} (h : Grown st s d pid [] D G t)
    (haff : Affords d t (plan img).1) (ht : loadImage d pid img t = .ok (u, o)) :
    ∃ D' G', Grown st s d pid (plan img).1 D' G' u := by
  unfold Vm.loadImage at ht
  obtain ⟨⟨v, o'⟩, hv, ht⟩ := bind_eq_ok.mp ht
  unfold plan at haff ⊢
  cases hplan : planPhs img img.phs 0 with
  | mk m o₁ =>
    have hm : (planPhs img img.phs 0).1 = m := by rw [hplan]
    have ho₁ : (planPhs img img.phs 0).2 = o₁ := by rw [hplan]
    rw [hplan] at haff
    cases o₁ with
    | none =>
      rw [← List.append_nil m] at haff
      obtain ⟨ho, -, hgv⟩ := h.loadPhs _ (by rw [hm]; exact haff) hv
      rw [ho₁] at ho
      subst ho
      rw [hm] at hgv
      cases ht
      exact hgv
    | some sz =>
      dsimp only at haff
      obtain ⟨ho, haffv, D₁, G₁, hgv⟩ := h.loadPhs _ (by rw [hm]; exact haff) hv
      rw [ho₁] at ho
      subst ho
      rw [hm, List.nil_append] at hgv
      dsimp only at ht
      obtain ⟨⟨w, sz'⟩, hw, ht⟩ := bind_eq_ok.mp ht
      rw [← List.append_nil (allocPages _ _)] at haffv
      obtain ⟨-, -, D₂, G₂, hgw⟩ := hgv.allocuvm haffv hw
      dsimp only at ht ⊢
      split at ht
      · cases ht
        exact ⟨D₂, G₂, hgw⟩
      · obtain ⟨x, hx, ht⟩ := bind_eq_ok.mp ht
        cases ht
        obtain ⟨D', hgu⟩ := hgw.clearpteu hx
        exact ⟨D', G₂, hgu⟩

/-! ### The empty directory -/

theorem Built.kernelTables (tabs : List Nat) :
    ∀ {D : Dir} {t u : Core} {r : Bool}, Built st s d D G N t → (∀ i ∈ tabs, i < NPDENTRIES) →
      tabs.length ≤ t.nfreeblock → kernelTables d tabs t = .ok (u, r) →
      r = true ∧ ∃ D', Built st s d D' G N u ∧ D'.pte = D.pte ∧ u.slabs = t.slabs := by
  induction tabs with
  | nil =>
    intro D t u r h _ _ ht
    cases ht
    exact ⟨rfl, D, h, rfl, rfl⟩
  | cons i tabs ih =>
    intro D t u r h hlt hroom ht
    rw [List.length_cons] at hroom
    unfold Vm.kernelTables at ht
    obtain ⟨⟨v, r'⟩, hv, ht⟩ := bind_eq_ok.mp ht
    obtain ⟨hq, -, -⟩ := walkpgdir_quiet h.frames.count (fun _ => by omega) hv
    have hpdx : pdx (i * (NPTENTRIES * PGSIZE)) = i := Nat.mul_div_cancel i (by decide)
    obtain ⟨rfl, D₁, hb, hpte, -, -, hsl⟩ := h.walkpgdir (fun _ => by omega)
      (by rw [hpdx]; exact hlt i List.mem_cons_self) hv
    have hleft := hq.room
    have hone : (if t.pte d (i * (NPTENTRIES * PGSIZE)) = none then 1 else 0) ≤ 1 := by
      split <;> omega
    obtain ⟨hr, D', hb', hpte', hsl'⟩ :=
      ih hb (fun j hj => hlt j (List.mem_cons_of_mem _ hj)) (by omega) ht
    exact ⟨hr, D', hb', hpte'.trans hpte, hsl'.trans hsl⟩

variable (pid) in
theorem Grown.setupkvm {o : Option Nat} (hf : Frames st [] s) (hroom : setupFrames ≤ s.nfreeblock)
    (ht : setupkvm s = .ok (t, o)) : o = some s.nextDir ∧ ∃ D, Grown st s s.nextDir pid [] D [] t := by
  have hlen : setupFrames = 1 + kernelPdx.length := rfl
  unfold Vm.setupkvm at ht
  obtain ⟨⟨u, g⟩, hu, ht⟩ := bind_eq_ok.mp ht
  obtain ⟨f, rfl, hfu⟩ := hf.kalloc hu
  obtain ⟨f', l, hff, hl, rfl⟩ := kalloc_take hf.count (by omega) hu
  obtain rfl := Option.some.inj hff
  obtain ⟨⟨v, r⟩, hv, ht⟩ := bind_eq_ok.mp ht
  dsimp only at hv
  obtain ⟨w, hw⟩ : ∃ w, w = (({ s with freelist := l, nfreeblock := s.nfreeblock - 1 } : Core).setMem f
      Bytes.zero).newDir f := ⟨_, rfl⟩
  have hframes : Frames st [] w := by
    rw [hw]
    exact hfu.gain (.dir s.nextDir) rfl rfl rfl fun u' g hu' => uses_newDir f u' hu'
  -- the directory has no frame but its own
  have hhas : ∀ g, (⟨f, fun _ => none, fun _ => Pte.zero⟩ : Dir).Has g ↔ g = f := by
    intro g
    constructor
    · rintro (hg | ⟨i, hi⟩ | ⟨va, hp, -⟩)
      · exact hg
      · cases hi
      · cases hp
    · exact Or.inl
  have hb : Built st s s.nextDir ⟨f, fun _ => none, fun _ => Pte.zero⟩ [] [] w := by
    refine ⟨hframes, ?_, ?_, ?_, ?_, ?_, ?_, ?_, ?_, ?_⟩
    · rw [hw]
      rfl
    · rw [hw]
      exact Function.update_self _ _ _
    · intro d' hd'
      rw [hw]
      exact Function.update_of_ne hd' _ _
    · intro g hg
      rw [hw]
      refine Function.update_of_ne ?_ _ _
      rintro rfl
      rw [hl] at hg
      exact hg List.mem_cons_self
    · intro g
      have hfree : w.freelist = l := by
        rw [hw]
        rfl
      rw [hl, hfree, hhas, List.mem_cons]
      simp only [List.not_mem_nil, or_false]
      exact or_comm
    · exact fun i hi => absurd rfl hi
    · rw [hw, List.append_nil]
      rfl
    · rw [hw]
      rfl
    · rw [hw]
      rfl
  rw [← hw] at hv
  have hleft : w.nfreeblock = s.nfreeblock - 1 := by
    rw [hw]
    rfl
  have hslabs : w.slabs = s.slabs := by
    rw [hw]
    rfl
  obtain ⟨rfl, D, hbv, hpte, hsl⟩ := hb.kernelTables kernelPdx (by decide) (by omega) hv
  cases ht
  refine ⟨rfl, D, hbv, ?_, ?_, ?_, List.nodup_nil, Or.inl ⟨rfl, ?_⟩⟩
  · intro va
    rw [hpte]
    simp [Pte.zero]
  · exact fun va hva => absurd hva List.not_mem_nil
  · exact fun va hva => absurd hva List.not_mem_nil
  · rw [hsl, hslabs]
    exact Nat.zero_add _

/-- An `exec` that returns -1 has mapped the pages of the plan and then freed them. -/
theorem execRet_grown {P : Proc} {f : File} {args : List (List UInt8)} (hf : Frames st [] s)
    (hheader : f.header = true) (hroom : EnoughFrames s (f.image args))
    (ht : execRet s pid P f args = .ok (t, none)) :
    ∃ D G u, Grown st s s.nextDir pid (plan (f.image args)).1 D G u ∧ freeuvm u s.nextDir pid = .ok t := by
  unfold EnoughFrames at hroom
  unfold execRet at ht
  rw [if_neg (by simp [hheader])] at ht
  obtain ⟨⟨u, o⟩, hu, ht⟩ := bind_eq_ok.mp ht
  unfold load at hu
  obtain ⟨⟨v, o'⟩, hv, hu⟩ := bind_eq_ok.mp hu
  obtain ⟨rfl, D₀, hg₀⟩ := Grown.setupkvm pid hf (by omega) hv
  obtain ⟨-, hsl, hleft⟩ := setupkvm_quiet hf.count (by omega) hv
  have haff : Affords s.nextDir v (plan (f.image args)).1 := by
    refine ⟨[], by simp, ?_⟩
    rw [hsl]
    omega
  obtain ⟨⟨w, o''⟩, hw, hu⟩ := bind_eq_ok.mp hu
  obtain ⟨D, G, hg⟩ := hg₀.loadImage haff hw
  cases o'' with
  | none =>
    obtain ⟨x, hx, hu⟩ := bind_eq_ok.mp hu
    cases hu
    cases ht
    exact ⟨D, G, w, hg, hx⟩
  | some sz =>
    cases hu
    obtain ⟨⟨x, o₁⟩, hx, ht⟩ := bind_eq_ok.mp ht
    have hb := hg.built.buildStackRet hx
    cases o₁ with
    | none =>
      obtain ⟨y, hy, ht⟩ := bind_eq_ok.mp ht
      cases ht
      have hstack : buildStack s.nextDir sz (f.image args) u = .ok (x, false) := by
        rw [buildStackRet_fst, hx]
        rfl
      exact ⟨D, G, x, hg.written hb (buildStack_writes hstack), hy⟩
    | some esp =>
      obtain ⟨y, -, ht⟩ := bind_eq_ok.mp ht
      cases ht

end Yonix.Vm
