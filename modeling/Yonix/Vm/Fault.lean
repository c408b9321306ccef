/-
  Yonix/Vm/Fault.lean
  ===================
  **Page faults in user mode (`trap`, `pgflt_handle`, `page_in`).**

  `trap` hands every page fault of a process to `pgflt_handle`, which looks at nothing
  but the size, and panics when that fails.  `page_in` then needs a frame, a slot under
  the identifier of the page, the page table, and a slab for the queue entry; the frame
  and the slab may each need a page to be evicted first.  A fault is contained exactly
  when all of these are there.  The two places in `page_in` that set `p_killed` go on to
  use the null pointer, so no process is ever killed for a fault.
-/
import Yonix.Vm.Frames

namespace Yonix.Vm

/-! ### The handler -/

/-- `trap` for a page fault in user mode; the second component is `p_killed` of every
    process. -/
def trapPgflt (s : Core) (killed : Nat → Bool) (pid : Nat) (P : Proc) (cr2 : Nat) :
    Except Stop (Core × (Nat → Bool)) := do
  let s ← pgfltHandle s pid P cr2
  return (s, killed)

/-! ### Evictions -/

/-- The entry that `page_out` picks. -/
def victim (q : List Entry) : Option Entry := (selPage q).2

/-- The queue after `page_out`. -/
def restOf (q : List Entry) : List Entry :=
  match victim q with
  | some e => (selPage q).1.eraseP fun e' => e'.key = e.key
  | none => q

/-- The queue after `kalloc`. -/
def queueAfter (s : Core) : List Entry := if s.freelist = [] then restOf s.pgqueue else s.pgqueue

/-- `page_out` picks the entry of page `va` of directory `d`. -/
def Picks (q : List Entry) (d va : Nat) : Prop := ∃ e, victim q = some e ∧ e.dir = d ∧ e.va = va

def SlotFree (s : Core) : Prop := ∃ i < SLOTSIZE, s.swapMap i = 0

variable {st : Nat → Option Nat} {held : List Nat} {s t u : Core} {d va pid f : Nat}

theorem pageOut_of {e : Entry} (he : victim s.pgqueue = some e) (hp : Present s e.dir e.va)
    (hf : SlotFree s) : ∃ t, pageOut s = .ok t := by
  obtain ⟨x, hx, hxp⟩ := hp
  obtain ⟨j, hj, hz⟩ := hf
  obtain ⟨i, hi⟩ := firstFrom_isSome (t := fun i => s.swapMap i = 0) (Nat.zero_le j)
    (by omega : j < 0 + SLOTSIZE) (by simpa using hz)
  have hsel : selPage s.pgqueue = ((selPage s.pgqueue).1, some e) := Prod.ext rfl he
  cases hpo : pageOut s with
  | ok t => exact ⟨t, rfl⟩
  | error err =>
    exfalso
    unfold pageOut at hpo
    rw [hsel] at hpo
    dsimp only at hpo
    unfold pageOutEntry at hpo
    split at hpo
    · rename_i hn
      have hn' : s.pte e.dir e.va = none := hn
      rw [hx] at hn'
      cases hn'
    · rename_i y hy
      have hy' : s.pte e.dir e.va = some y := hy
      rw [hx] at hy'
      cases hy'
      split at hpo
      · rename_i hnp
        rw [hxp] at hnp
        cases hnp
      · rcases bind_error.mp hpo with herr | ⟨a, -, herr⟩
        · unfold allocSlot at herr
          split at herr
          · rename_i hn
            have hn' : firstFrom (fun i => s.swapMap i = 0) SLOTSIZE 0 = none := hn
            rw [hi] at hn'
            cases hn'
          · cases herr
        · cases herr

/-- `kalloc` takes the first free frame, or the one that an eviction frees. -/
theorem kalloc_cases {o : Option Nat} (hc : s.nfreeblock = s.freelist.length)
    (ht : kalloc s = .ok (u, o)) :
    (∃ f l, o = some f ∧ s.freelist = f :: l ∧
      u = { s with freelist := l, nfreeblock := s.nfreeblock - 1 }) ∨
    s.freelist = [] ∧ ∃ e x i, o = some x.frame ∧ victim s.pgqueue = some e ∧
      s.pte e.dir e.va = some x ∧ x.p = true ∧ i < SLOTSIZE ∧ s.swapMap i = 0 ∧
      (∀ g, g ≠ x.frame → u.mem g = s.mem g) ∧
      u = { s.setPte e.dir e.va { x with p := false } with
        mem := u.mem
        freelist := []
        nfreeblock := 0
        pgqueue := restOf s.pgqueue
        swapMap := Function.update s.swapMap i e.key
        swap := Function.update s.swap (swapm2secno i) (s.mem x.frame)
        filled := Function.update s.filled e.key (swapm2secno i) } := by
  unfold kalloc at ht
  split at ht
  · rename_i hzero
    have hnil : s.freelist = [] := List.length_eq_zero_iff.mp (hc ▸ hzero)
    cases hv : pageOut s with
    | error e => simp [hv, Except.map] at ht
    | ok v =>
      rw [hv] at ht
      obtain ⟨q, e, x, i, hsel, hx, hp, hi, rfl⟩ := pageOut_eq hv
      have hvic : victim s.pgqueue = some e := by
        unfold victim
        rw [hsel]
      have hrest : restOf s.pgqueue = q.eraseP fun e' => e'.key = e.key := by
        unfold restOf
        rw [hvic, hsel]
      obtain ⟨-, hlt, hz⟩ := firstFrom_some hi
      have htake := Except.ok.inj ht
      unfold takeFrame at htake
      dsimp only [Vm.kfree] at htake
      rw [Prod.mk.injEq] at htake
      obtain ⟨rfl, rfl⟩ := htake
      refine Or.inr ⟨hnil, e, x, i, rfl, hvic, hx, hp, by omega, by simpa using hz, ?_, ?_⟩
      · intro g hg
        exact Function.update_of_ne hg _ _
      · rw [hrest]
        have h0 : s.nfreeblock = 0 := hzero
        simp only [Core.setPte, hnil, h0]
  · rename_i hne
    left
    have htake := Except.ok.inj ht
    unfold takeFrame at htake
    split at htake
    · rename_i hnil
      rw [hc, hnil] at hne
      exact (hne rfl).elim
    · rename_i g l hl
      rw [Prod.mk.injEq] at htake
      obtain ⟨rfl, rfl⟩ := htake
      exact ⟨g, l, rfl, hl, rfl⟩

/-- What a `kalloc` that succeeds leaves behind. -/
structure Took (s u : Core) : Prop where
  queue : u.pgqueue = queueAfter s
  slabs : u.slabs = s.slabs
  free : u.freelist = s.freelist.tail
  some : ∀ d va, u.pte d va = none ↔ s.pte d va = none
  present : ∀ d va, Present u d va ↔
    Present s d va ∧ ¬ (s.freelist = [] ∧ Picks s.pgqueue d va)

theorem kalloc_took {o : Option Nat} (hc : s.nfreeblock = s.freelist.length)
    (ht : kalloc s = .ok (u, o)) : Took s u := by
  rcases kalloc_cases hc ht with ⟨f, l, -, hl, rfl⟩ | ⟨hnil, e, x, i, -, hvic, hx, hp, -, -, -, hu⟩
  · have hne : s.freelist ≠ [] := by simp [hl]
    refine ⟨?_, rfl, by rw [hl]; rfl, fun d va => Iff.rfl, ?_⟩
    · unfold queueAfter
      rw [if_neg hne]
    · intro d va
      exact ⟨fun h => ⟨h, fun hn => hne hn.1⟩, fun h => h.1⟩
  · have hpte : ∀ d va, u.pte d va =
        if d = e.dir ∧ va = e.va then some { x with p := false } else s.pte d va := by
      intro d va
      rw [hu]
      change (s.setPte e.dir e.va { x with p := false }).pte d va = _
      rw [pte_setPte, hx]
      rfl
    refine ⟨?_, by rw [hu]; rfl, by rw [hu, hnil]; rfl, ?_, ?_⟩
    · rw [hu]
      unfold queueAfter
      rw [if_pos hnil]
    · intro d va
      rw [hpte]
      split
      · rename_i heq
        rw [heq.1, heq.2, hx]
        simp
      · rfl
    · intro d va
      have hpick : Picks s.pgqueue d va ↔ d = e.dir ∧ va = e.va := by
        unfold Picks
        rw [hvic]
        constructor
        · rintro ⟨e', he', rfl, rfl⟩
          cases he'
          exact ⟨rfl, rfl⟩
        · rintro ⟨rfl, rfl⟩
          exact ⟨e, rfl, rfl, rfl⟩
      unfold Present
      rw [hpte, hpick]
      by_cases heq : d = e.dir ∧ va = e.va
      · simp [heq, hnil]
      · simp [heq]

/-- `kalloc` succeeds when there is a free frame or a page that can go. -/
theorem kalloc_of (hc : s.nfreeblock = s.freelist.length) (hf : SlotFree s)
    (h : s.freelist = [] → ∃ e, victim s.pgqueue = some e ∧ Present s e.dir e.va) :
    ∃ u f, kalloc s = .ok (u, some f) := by
  unfold kalloc
  by_cases hnil : s.freelist = []
  · obtain ⟨e, he, hp⟩ := h hnil
    obtain ⟨v, hv⟩ := pageOut_of he hp hf
    have hzero : s.nfreeblock = 0 := by rw [hc, hnil]; rfl
    rw [if_pos hzero, hv]
    obtain ⟨q, e, x, i, -, -, -, -, rfl⟩ := pageOut_eq hv
    exact ⟨_, _, rfl⟩
  · obtain ⟨g, l, hl⟩ := List.exists_cons_of_ne_nil hnil
    have hpos : s.nfreeblock ≠ 0 := by rw [hc, hl]; simp
    rw [if_neg hpos]
    unfold takeFrame
    rw [hl]
    exact ⟨_, _, rfl⟩

theorem kalloc_victim {o : Option Nat} (hc : s.nfreeblock = s.freelist.length)
    (ht : kalloc s = .ok (u, o)) (hnil : s.freelist = []) :
    ∃ e, victim s.pgqueue = some e ∧ Present s e.dir e.va := by
  rcases kalloc_cases hc ht with ⟨f, l, -, hl, -⟩ | ⟨-, e, x, i, -, hvic, hx, hp, -⟩
  · rw [hnil] at hl
    cases hl
  · exact ⟨e, hvic, x, hx, hp⟩

/-! ### Slots under an identifier -/

def HasSlot (s : Core) (key : Nat) : Prop := ∃ i < SLOTSIZE, s.swapMap i = key

/-- The page is what the swap area holds under the identifier, from before or from the
    eviction that makes room for it. -/
def SwappedOut (s : Core) (key : Nat) (page : Page) : Prop :=
  (∃ i < SLOTSIZE, s.swapMap i = key ∧ s.swap (swapm2secno i) = page) ∨
    s.freelist = [] ∧ ∃ e x, victim s.pgqueue = some e ∧ e.key = key ∧
      s.pte e.dir e.va = some x ∧ s.mem x.frame = page

theorem kalloc_slot {o : Option Nat} {i key : Nat} (hc : s.nfreeblock = s.freelist.length)
    (ht : kalloc s = .ok (u, o)) (hi : i < SLOTSIZE) (hk : u.swapMap i = key) :
    SwappedOut s key (u.swap (swapm2secno i)) := by
  rcases kalloc_cases hc ht with ⟨f, l, -, -, rfl⟩ | ⟨hnil, e, x, j, -, hvic, hx, -, -, -, -, hu⟩
  · exact Or.inl ⟨i, hi, hk, rfl⟩
  · rw [hu] at hk ⊢
    dsimp only at hk ⊢
    by_cases hij : i = j
    · subst hij
      rw [Function.update_self] at hk
      exact Or.inr ⟨hnil, e, x, hvic, hk, hx, by rw [Function.update_self]⟩
    · rw [Function.update_of_ne hij] at hk
      rw [Function.update_of_ne fun h => hij (swapm2secno_inj h)]
      exact Or.inl ⟨i, hi, hk, rfl⟩

theorem kalloc_hasSlot {o : Option Nat} {key : Nat} (hc : s.nfreeblock = s.freelist.length)
    (ht : kalloc s = .ok (u, o)) (hne : key ≠ 0) :
    HasSlot u key ↔ HasSlot s key ∨
      s.freelist = [] ∧ ∃ e, victim s.pgqueue = some e ∧ e.key = key := by
  constructor
  · rintro ⟨i, hi, hk⟩
    rcases kalloc_slot hc ht hi hk with ⟨j, hj, hj', -⟩ | ⟨hnil, e, x, he, hkey, -⟩
    · exact Or.inl ⟨j, hj, hj'⟩
    · exact Or.inr ⟨hnil, e, he, hkey⟩
  · intro h
    rcases kalloc_cases hc ht with ⟨f, l, -, hl, rfl⟩ | ⟨hnil, e, x, j, -, hvic, -, -, hj, hz, -, hu⟩
    · rcases h with h | ⟨hnil, -⟩
      · exact h
      · rw [hl] at hnil
        cases hnil
    · rw [hu]
      rcases h with ⟨i, hi, hk⟩ | ⟨-, e', he', hk⟩
      · refine ⟨i, hi, ?_⟩
        have hij : i ≠ j := by
          rintro rfl
          exact hne (hk.symm.trans hz)
        exact (Function.update_of_ne hij _ _).trans hk
      · rw [hvic] at he'
        cases he'
        exact ⟨j, hj, (Function.update_self _ _ _).trans hk⟩

theorem firstFrom_hasSlot {key : Nat} :
    (∃ i, firstFrom (fun i => s.swapMap i = key) SLOTSIZE 0 = some i) ↔ HasSlot s key := by
  constructor
  · rintro ⟨i, hi⟩
    obtain ⟨-, hlt, hk⟩ := firstFrom_some hi
    exact ⟨i, by omega, by simpa using hk⟩
  · rintro ⟨i, hi, hk⟩
    exact firstFrom_isSome (Nat.zero_le i) (by omega) (by simpa using hk)

/-! ### `page_in` -/

/-- The state in which `page_in` queues the page: slot `i` is read into frame `f`. -/
def readIn (u : Core) (d va f i : Nat) (x : Pte) : Core :=
  Core.setPte { u.setMem f (u.swap (swapm2secno i)) with
    swapMap := Function.update u.swapMap i 0 } d va { x with p := true, frame := f }

theorem pageIn_iff :
    pageIn s pid d va = .ok t ↔ ∃ u f i x, kalloc s = .ok (u, some f) ∧
      firstFrom (fun i => u.swapMap i = (pid ||| va)) SLOTSIZE 0 = some i ∧
      u.pte d va = some x ∧ addPage (readIn u d va f i x) d va pid = .ok t := by
  have hfree : ∀ (v : Core) {i : Nat}, i < SLOTSIZE → freeSlot v (swapm2secno i) =
      .ok { v with swapMap := Function.update v.swapMap i 0 } := by
    intro v i hi
    unfold freeSlot
    dsimp only
    rw [secno2swapm_swapm2secno, if_neg (by omega)]
  constructor
  · intro h
    obtain ⟨⟨u, o⟩, hu, h⟩ := bind_eq_ok.mp h
    cases o with
    | none => cases h
    | some f =>
      obtain ⟨n, hn, h⟩ := bind_eq_ok.mp h
      obtain ⟨i, hi, rfl⟩ := findSlot_spec hn
      obtain ⟨-, hlt, -⟩ := firstFrom_some hi
      obtain ⟨v, hv, h⟩ := bind_eq_ok.mp h
      rw [hfree _ (by omega)] at hv
      cases hv
      split at h
      · cases h
      · rename_i x hx
        exact ⟨u, f, i, x, hu, hi, hx, h⟩
  · rintro ⟨u, f, i, x, hu, hi, hx, h⟩
    obtain ⟨-, hlt, -⟩ := firstFrom_some hi
    unfold pageIn
    refine bind_eq_ok.mpr ⟨(u, some f), hu, ?_⟩
    dsimp only
    refine bind_eq_ok.mpr ⟨swapm2secno i, ?_, ?_⟩
    · unfold findSlot
      rw [hi]
    · refine bind_eq_ok.mpr ⟨_, hfree _ (by omega), ?_⟩
      split
      · rename_i hnone
        cases hnone.symm.trans hx
      · rename_i y hy
        obtain rfl : y = x := Option.some.inj (hy.symm.trans hx)
        exact h

/-! ### The slab for the queue entry -/

theorem allocSlab_of (hc : s.nfreeblock = s.freelist.length) (hf : SlotFree s)
    (h : s.slabs = 0 → s.freelist = [] → ∃ e, victim s.pgqueue = some e ∧ Present s e.dir e.va) :
    ∃ t, allocSlab s = .ok t := by
  unfold allocSlab
  by_cases hz : s.slabs = 0
  · rw [if_pos hz]
    obtain ⟨u, f, hu⟩ := kalloc_of hc hf (h hz)
    rw [hu]
    exact ⟨_, rfl⟩
  · rw [if_neg hz]
    exact ⟨_, rfl⟩

theorem allocSlab_victim (hc : s.nfreeblock = s.freelist.length) (ht : allocSlab s = .ok t)
    (hz : s.slabs = 0) (hnil : s.freelist = []) :
    ∃ e, victim s.pgqueue = some e ∧ Present s e.dir e.va := by
  unfold allocSlab at ht
  rw [if_pos hz] at ht
  obtain ⟨⟨u, o⟩, hu, -⟩ := bind_eq_ok.mp ht
  exact kalloc_victim hc hu hnil

theorem allocSlab_present (hc : s.nfreeblock = s.freelist.length) (ht : allocSlab s = .ok t)
    (d va : Nat) : Present t d va ↔
      Present s d va ∧ ¬ (s.slabs = 0 ∧ s.freelist = [] ∧ Picks s.pgqueue d va) := by
  unfold allocSlab at ht
  split at ht
  · rename_i hz
    obtain ⟨⟨u, o⟩, hu, ht⟩ := bind_eq_ok.mp ht
    cases o with
    | none => cases ht
    | some f =>
      cases ht
      have hiff := (kalloc_took hc hu).present d va
      change Present u d va ↔ _
      rw [hiff]
      simp [hz]
  · rename_i hz
    cases ht
    have : Present { s with slabs := s.slabs - 1 } d va ↔ Present s d va := Iff.rfl
    rw [this]
    simp [hz]

/-- A page that is still there afterwards has kept its contents. -/
theorem allocSlab_mem (h : Frames st held s) (ht : allocSlab s = .ok t) {x : Pte}
    (hx : t.pte d va = some x) (hp : x.p = true) :
    s.pte d va = some x ∧ t.mem x.frame = s.mem x.frame := by
  unfold allocSlab at ht
  split at ht
  · obtain ⟨⟨u, o⟩, hu, ht⟩ := bind_eq_ok.mp ht
    cases o with
    | none => cases ht
    | some f =>
      cases ht
      have hx' : u.pte d va = some x := hx
      rcases kalloc_cases h.count hu with ⟨f, l, -, -, rfl⟩ |
        ⟨-, e, y, i, -, -, hy, hyp, -, -, hm, hueq⟩
      · exact ⟨hx', rfl⟩
      · have hpte : u.pte d va = (s.setPte e.dir e.va { y with p := false }).pte d va := by
          rw [hueq]
          rfl
        rw [hpte, pte_setPte, hy] at hx'
        split at hx'
        · cases hx'
          cases hp
        · rename_i hne
          refine ⟨hx', hm _ ?_⟩
          intro heq
          obtain ⟨-, D, hD, rfl⟩ := pte_eq_some.mp hx'
          obtain ⟨-, E, hE, rfl⟩ := pte_eq_some.mp hy
          have := h.inj (.page d va) (.page e.dir e.va) _ ⟨D, hD, hp, rfl⟩ ⟨E, hE, hyp, heq.symm⟩
          rw [Use.page.injEq] at this
          exact hne this
  · cases ht
    exact ⟨hx, rfl⟩

/-! ### Contained faults -/

/-- `trap` returns with the page present and its swapped-out contents in it, or has
    marked the process killed and nobody else. -/
def Contained (s : Core) (killed : Nat → Bool) (pid : Nat) (P : Proc) (cr2 : Nat) : Prop :=
  ∃ t killed', trapPgflt s killed pid P cr2 = .ok (t, killed') ∧
    (killed' = killed ∧ (∃ x, t.pte P.page (pgrounddown cr2) = some x ∧ x.p = true ∧
      SwappedOut s (pid ||| pgrounddown cr2) (t.mem x.frame)) ∨
    killed' = Function.update killed pid true ∧ killed pid = false)

/-- Everything that `page_in` needs for page `va` of process `pid`, in the state before
    the fault. -/
structure Recovers (s : Core) (pid : Nat) (P : Proc) (va : Nat) : Prop where
  below : va < P.size
  table : s.pte P.page va ≠ none
  slot : HasSlot s (pid ||| va) ∨
    s.freelist = [] ∧ ∃ e, victim s.pgqueue = some e ∧ e.key = (pid ||| va)
  frame : s.freelist = [] → ∃ e, victim s.pgqueue = some e ∧ Present s e.dir e.va
  -- a second frame for slabs: the page that has to go for it is present, is not the one
  -- that went for the first frame, and is not the faulting page
  slab : s.slabs = 0 → s.freelist.tail = [] → ∃ e, victim (queueAfter s) = some e ∧
    Present s e.dir e.va ∧ ¬ (s.freelist = [] ∧ Picks s.pgqueue e.dir e.va) ∧
    ¬ (e.dir = P.page ∧ e.va = va)

/-- The facts about the state in which `page_in` queues the page. -/
structure ReadIn (st : Nat → Option Nat) (s : Core) (d va f : Nat) (page : Page) (v : Core) :
    Prop where
  frames : Frames st [] v
  queue : v.pgqueue = queueAfter s
  slabs : v.slabs = s.slabs
  free : v.freelist = s.freelist.tail
  slot : SlotFree v
  here : ∃ y, v.pte d va = some y ∧ y.p = true ∧ y.frame = f
  mem : v.mem f = page
  present : ∀ d' va', ¬ (d' = d ∧ va' = va) → (Present v d' va' ↔
    Present s d' va' ∧ ¬ (s.freelist = [] ∧ Picks s.pgqueue d' va'))

theorem readIn_spec {i : Nat} {x : Pte} (h : Frames st [] s) (hu : kalloc s = .ok (u, some f))
    (hi : i < SLOTSIZE) (hx : u.pte d va = some x) :
    ReadIn st s d va f (u.swap (swapm2secno i)) (readIn u d va f i x) := by
  have htook := kalloc_took h.count hu
  obtain ⟨f', hf', hfr⟩ := h.kalloc hu
  cases hf'
  have hpte : ∀ d' va', (readIn u d va f i x).pte d' va' =
      if d' = d ∧ va' = va then some { x with p := true, frame := f } else u.pte d' va' := by
    intro d' va'
    unfold readIn
    rw [pte_setPte]
    have hx' : Core.pte { u.setMem f (u.swap (swapm2secno i)) with
        swapMap := Function.update u.swapMap i 0 } d va = some x := hx
    rw [hx']
    rfl
  refine ⟨?_, htook.queue, htook.slabs, htook.free, ⟨i, hi, Function.update_self _ _ _⟩, ?_, ?_, ?_⟩
  · refine hfr.gain (.page d va) rfl rfl rfl ?_
    intro u' g hu'
    rcases uses_setPte _ _ hu' with ⟨hu', -⟩ | ⟨rfl, -, rfl⟩
    · exact Or.inl hu'
    · exact Or.inr ⟨rfl, rfl⟩
  · refine ⟨_, by rw [hpte, if_pos ⟨rfl, rfl⟩], rfl, rfl⟩
  · exact Function.update_self _ _ _
  · intro d' va' hne
    rw [← htook.present]
    unfold Present
    rw [hpte, if_neg hne]

/-- The page is still present after it was queued, unless the slab took its frame. -/
theorem addPage_present (hc : s.nfreeblock = s.freelist.length) (ht : addPage s d va pid = .ok t) :
    Present t d va ↔ Present s d va ∧ ¬ (s.slabs = 0 ∧ s.freelist = [] ∧ Picks s.pgqueue d va) := by
  obtain ⟨u, hu, ht⟩ := bind_eq_ok.mp ht
  split at ht
  · cases ht
  · cases ht
    exact allocSlab_present hc hu d va

theorem addPage_mem (h : Frames st held s) (ht : addPage s d va pid = .ok t) {x : Pte}
    (hx : t.pte d va = some x) (hp : x.p = true) :
    s.pte d va = some x ∧ t.mem x.frame = s.mem x.frame := by
  obtain ⟨u, hu, ht⟩ := bind_eq_ok.mp ht
  split at ht
  · cases ht
  · cases ht
    exact allocSlab_mem h hu hx hp

theorem addPage_of (pid : Nat) (hc : s.nfreeblock = s.freelist.length) (hf : SlotFree s)
    (hp : Present s d va)
    (h : s.slabs = 0 → s.freelist = [] → ∃ e, victim s.pgqueue = some e ∧ Present s e.dir e.va) :
    ∃ t, addPage s d va pid = .ok t := by
  obtain ⟨u, hu⟩ := allocSlab_of hc hf h
  obtain ⟨x, hx, -⟩ := hp
  have hne : u.pte d va ≠ none := by
    intro hn
    unfold allocSlab at hu
    split at hu
    · obtain ⟨⟨v, o⟩, hv, hu⟩ := bind_eq_ok.mp hu
      cases o with
      | none => cases hu
      | some f =>
        cases hu
        have := ((kalloc_took hc hv).some d va).mp hn
        rw [hx] at this
        cases this
    · cases hu
      have : s.pte d va = none := hn
      rw [hx] at this
      cases this
  obtain ⟨y, hy⟩ := Option.ne_none_iff_exists'.mp hne
  refine ⟨{ u with pgqueue := u.pgqueue ++ [⟨d, va, va ||| pid, y.a⟩] },
    bind_eq_ok.mpr ⟨u, hu, ?_⟩⟩
  rw [hy]
  rfl

theorem Recovers.pageIn {P : Proc} (hr : Recovers s pid P va) (h : Frames st [] s) (hpid : pid ≠ 0)
    (hf : SlotFree s) : ∃ t x, pageIn s pid P.page va = .ok t ∧ t.pte P.page va = some x ∧
      x.p = true ∧ SwappedOut s (pid ||| va) (t.mem x.frame) := by
  obtain ⟨u, f, hu⟩ := kalloc_of h.count hf hr.frame
  have hkey : (pid ||| va) ≠ 0 := by
    rw [Nat.or_comm]
    exact or_ne_zero hpid
  obtain ⟨i, hi⟩ := firstFrom_hasSlot.mpr ((kalloc_hasSlot h.count hu hkey).mpr hr.slot)
  obtain ⟨-, hlt, hk⟩ := firstFrom_some hi
  obtain ⟨x, hx⟩ := Option.ne_none_iff_exists'.mp
    fun hn => hr.table (((kalloc_took h.count hu).some P.page va).mp hn)
  have hv := readIn_spec h hu (by omega : i < SLOTSIZE) hx
  obtain ⟨y, hy, hyp, hyf⟩ := hv.here
  have hslab : (readIn u P.page va f i x).slabs = 0 → (readIn u P.page va f i x).freelist = [] →
      ∃ e, victim (readIn u P.page va f i x).pgqueue = some e ∧
        Present (readIn u P.page va f i x) e.dir e.va ∧ ¬ (e.dir = P.page ∧ e.va = va) := by
    rw [hv.slabs, hv.free, hv.queue]
    intro hz hnil
    obtain ⟨e, he, hp, hfirst, hne⟩ := hr.slab hz hnil
    exact ⟨e, he, (hv.present e.dir e.va hne).mpr ⟨hp, hfirst⟩, hne⟩
  obtain ⟨t, ht⟩ := addPage_of pid hv.frames.count hv.slot ⟨y, hy, hyp⟩ fun hz hnil => by
    obtain ⟨e, he, hp, -⟩ := hslab hz hnil
    exact ⟨e, he, hp⟩
  have hpres : Present t P.page va := by
    refine (addPage_present hv.frames.count ht).mpr ⟨⟨y, hy, hyp⟩, ?_⟩
    rintro ⟨hz, hnil, e', he', hd, hva⟩
    obtain ⟨e, he, -, hne⟩ := hslab hz hnil
    rw [he] at he'
    cases he'
    exact hne ⟨hd, hva⟩
  obtain ⟨z, hz, hzp⟩ := hpres
  obtain ⟨hz', hmem⟩ := addPage_mem hv.frames ht hz hzp
  rw [hy] at hz'
  cases hz'
  refine ⟨t, y, pageIn_iff.mpr ⟨u, f, i, x, hu, hi, hx, ht⟩, hz, hzp, ?_⟩
  rw [hmem, hyf, hv.mem]
  exact kalloc_slot h.count hu (by omega) (by simpa using hk)

theorem recovers_of_pageIn {P : Proc} (h : Frames st [] s) (hpid : pid ≠ 0)
    (hlt : va < P.size) (ht : pageIn s pid P.page va = .ok t) (hp : Present t P.page va) :
    Recovers s pid P va := by
  obtain ⟨u, f, i, x, hu, hi, hx, hadd⟩ := pageIn_iff.mp ht
  have hkey : (pid ||| va) ≠ 0 := by
    rw [Nat.or_comm]
    exact or_ne_zero hpid
  obtain ⟨-, hilt, -⟩ := firstFrom_some hi
  have hv := readIn_spec h hu (by omega : i < SLOTSIZE) hx
  refine ⟨hlt, ?_, ?_, kalloc_victim h.count hu, ?_⟩
  · intro hn
    rw [((kalloc_took h.count hu).some P.page va).mpr hn] at hx
    cases hx
  · exact (kalloc_hasSlot h.count hu hkey).mp (firstFrom_hasSlot.mp ⟨i, hi⟩)
  · intro hz hnil
    rw [← hv.slabs] at hz
    rw [← hv.free] at hnil
    obtain ⟨w, hw, -⟩ := bind_eq_ok.mp hadd
    obtain ⟨e, he, hpe⟩ := allocSlab_victim hv.frames.count hw hz hnil
    have hne : ¬ (e.dir = P.page ∧ e.va = va) := by
      rintro ⟨hd, hva⟩
      exact ((addPage_present hv.frames.count hadd).mp hp).2 ⟨hz, hnil, e, he, hd, hva⟩
    obtain ⟨hps, hfirst⟩ := (hv.present e.dir e.va hne).mp hpe
    rw [hv.queue] at he
    exact ⟨e, he, hps, hfirst, hne⟩

end Yonix.Vm
