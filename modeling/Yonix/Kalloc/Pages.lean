/-
  Yonix/Kalloc/Pages.lean
  =======================
  **The free list and its counter.**

  In every state the pointers from `kmem.freelist` on link the pages of a finite list
  (`Pool`): they are pages that `kfree` accepts, none of them was returned and not freed, and
  the counter has their number.  So `kalloc` asks for a page to be moved out exactly when the
  list is empty, and what it takes then is the page that was moved out.
-/
import Yonix.Kalloc.Model
import Yonix.Vm.Swap

namespace Yonix.Kalloc

/-! ### Pages -/

section Pool

variable {kend v : Nat} {s t : Kmem} {l ps : List Nat}

/-- A page that `kfree` accepts. -/
structure Good (kend v : Nat) : Prop where
  aligned : v % PGSIZE = 0
  above : kend ≤ v
  below : v2p v < PHYSTOP
  address : v < 2 ^ 32

/-- The free list. -/
structure Pool (kend : Nat) (s : Kmem) (l : List Nat) : Prop where
  head : s.freelist = first id l 0
  links : Links s.next id l 0
  nodup : (l ++ s.taken).Nodup
  good : ∀ p ∈ l ++ s.taken, Good kend p
  count : s.nfreeblock = l.length
  early : s.booted = false → ∀ p ∈ l ++ s.taken, p < p2v FOURMB

theorem Good.range (h : Good kend v) : KERNBASE ≤ v ∧ v < KERNBASE + PHYSTOP := by
  obtain ⟨-, -, hbelow, haddr⟩ := h
  unfold v2p at hbelow
  unfold KERNBASE PHYSTOP at *
  omega

theorem Good.ne_zero (h : Good kend v) : v ≠ 0 := by
  have := h.range.1
  unfold KERNBASE at this
  omega

/-- There are not more pages than physical memory has. -/
theorem good_length (hnd : l.Nodup) (hg : ∀ p ∈ l, Good kend p) : l.length ≤ PHYSTOP / PGSIZE := by
  have hsub : l ⊆ (List.range (PHYSTOP / PGSIZE)).map fun i => KERNBASE + i * PGSIZE := by
    intro p hp
    obtain ⟨hlo, hhi⟩ := (hg p hp).range
    have haligned := (hg p hp).aligned
    refine List.mem_map.mpr ⟨(p - KERNBASE) / PGSIZE, List.mem_range.mpr ?_, ?_⟩
    · unfold KERNBASE PHYSTOP PGSIZE at *
      omega
    · unfold KERNBASE PHYSTOP PGSIZE at *
      omega
  have := (List.subperm_of_subset hnd hsub).length_le
  rwa [List.length_map, List.length_range] at this

theorem Pool.length (h : Pool kend s l) : l.length ≤ PHYSTOP / PGSIZE :=
  good_length (List.nodup_append.mp h.nodup).1 fun p hp => h.good p (List.mem_append_left _ hp)

/-- Nothing is seen of the rest of the memory. -/
theorem Pool.congr (h : Pool kend s l) (hmem : ∀ p ∈ l, t.mem (p + 4) = s.mem (p + 4))
    (hhead : t.freelist = s.freelist) (hcount : t.nfreeblock = s.nfreeblock)
    (htaken : t.taken = s.taken) (hbooted : t.booted = s.booted) : Pool kend t l := by
  refine ⟨hhead.trans h.head, h.links.congr hmem, ?_, ?_, hcount.trans h.count, ?_⟩
  · rw [htaken]
    exact h.nodup
  · rw [htaken]
    exact h.good
  · rw [htaken, hbooted]
    exact h.early

/-- A page that is taken has no node of the list in it. -/
theorem Pool.store (h : Pool kend s l) {a : Nat} (ha : pageOf a ∈ s.taken) {p : Nat} (hp : p ∈ l) :
    p + 4 ≠ a := by
  rintro rfl
  have haligned := (h.good p (List.mem_append_left _ hp)).aligned
  have hpage : pageOf (p + 4) = p := by
    unfold pageOf PGSIZE at *
    omega
  rw [hpage] at ha
  exact (List.nodup_append.mp h.nodup).2.2 p hp p ha rfl

/-! ### `kfree` -/

theorem kfree_eq_ok (h : kfree kend s v = .ok t) : v % PGSIZE = 0 ∧ kend ≤ v ∧ v2p v < PHYSTOP ∧
    t = { s.setFpage v PGSIZE s.freelist with
      freelist := v, nfreeblock := (s.nfreeblock + 1) % 2 ^ 32, taken := s.taken.erase v } := by
  unfold kfree at h
  split at h
  · cases h
  · rename_i hok
    rw [not_or, not_or, not_not, not_lt, not_le] at hok
    cases h
    exact ⟨hok.1, hok.2.1, hok.2.2, rfl⟩

theorem Good.kfree (h : Good kend v) (s : Kmem) : ∃ t, kfree kend s v = .ok t := by
  have hok : ¬ (v % PGSIZE ≠ 0 ∨ v < kend ∨ PHYSTOP ≤ v2p v) := by
    rw [not_or, not_or, not_not, not_lt, not_le]
    exact ⟨h.aligned, h.above, h.below⟩
  exact ⟨_, if_neg hok⟩

/-- The page that is freed becomes the first one of the list. -/
theorem Pool.push (h : Pool kend s l) (hv : v < 2 ^ 32) (hnew : v ∉ l ++ s.taken.erase v)
    (hearly : s.booted = false → v < p2v FOURMB) (ht : kfree kend s v = .ok t) :
    Pool kend t (v :: l) := by
  obtain ⟨haligned, habove, hbelow, rfl⟩ := kfree_eq_ok ht
  have hgood : Good kend v := ⟨haligned, habove, hbelow, hv⟩
  rw [List.mem_append, not_or] at hnew
  obtain ⟨hl, htaken⟩ := hnew
  have hsub : (l ++ s.taken.erase v).Sublist (l ++ s.taken) := List.erase_sublist.append_left l
  have hkeep : ∀ p ∈ l, Function.update (Function.update s.mem v PGSIZE) (v + 4) s.freelist (p + 4) =
      s.mem (p + 4) := by
    intro p hp
    have hpv : p ≠ v := by
      rintro rfl
      exact hl hp
    have hpa := (h.good p (List.mem_append_left _ hp)).aligned
    rw [Function.update_of_ne (by omega), Function.update_of_ne]
    unfold PGSIZE at *
    omega
  refine ⟨rfl, ⟨?_, h.links.congr hkeep⟩, ?_, ?_, ?_, ?_⟩
  · exact (Function.update_self _ _ _).trans h.head
  · exact List.nodup_cons.mpr ⟨List.mem_append.not.mpr (not_or.mpr ⟨hl, htaken⟩), hsub.nodup h.nodup⟩
  · intro p hp
    rcases List.mem_cons.mp hp with rfl | hp
    · exact hgood
    · exact h.good p (hsub.subset hp)
  · have hlen := h.length
    change (s.nfreeblock + 1) % 2 ^ 32 = l.length + 1
    rw [h.count]
    unfold PHYSTOP PGSIZE at hlen
    omega
  · intro hb p hp
    rcases List.mem_cons.mp hp with rfl | hp
    · exact hearly hb
    · exact h.early hb p (hsub.subset hp)

/-- A page that is taken is freed. -/
theorem Pool.kfree (h : Pool kend s l) (hv : v ∈ s.taken) :
    ∃ t, kfree kend s v = .ok t ∧ Pool kend t (v :: l) := by
  have hmem : v ∈ l ++ s.taken := List.mem_append_right l hv
  have hgood := h.good v hmem
  obtain ⟨t, ht⟩ := hgood.kfree s
  obtain ⟨-, hnd, hdisj⟩ := List.nodup_append.mp h.nodup
  refine ⟨t, ht, h.push hgood.address ?_ (fun hb => h.early hb v hmem) ht⟩
  rw [List.mem_append, not_or]
  exact ⟨fun hl => hdisj v hl v hv rfl, hnd.not_mem_erase⟩

/-- Memory that no page of was known yet. -/
theorem Pool.frees : ∀ {ps l : List Nat} {s : Kmem}, Pool kend s l → (ps ++ (l ++ s.taken)).Nodup →
    (∀ p ∈ ps, p < 2 ^ 32) → (s.booted = false → ∀ p ∈ ps, p < p2v FOURMB) →
    ps.foldlM (Kalloc.kfree kend) s = .ok t →
      Pool kend t (ps.reverse ++ l) ∧ t.taken = s.taken ∧ t.booted = s.booted := by
  intro ps
  induction ps with
  | nil =>
    intro l s h _ _ _ ht
    cases ht
    exact ⟨h, rfl, rfl⟩
  | cons p ps ih =>
    intro l s h hnd haddr hearly ht
    rw [List.foldlM_cons] at ht
    obtain ⟨u, hu, ht⟩ := bind_eq_ok.mp ht
    rw [List.cons_append, List.nodup_cons, List.mem_append, not_or] at hnd
    obtain ⟨⟨hps, hp⟩, hnd⟩ := hnd
    have herase : s.taken.erase p = s.taken := by
      rw [List.erase_of_not_mem]
      exact fun hmem => hp (List.mem_append_right l hmem)
    have hpush := h.push (haddr p List.mem_cons_self) (by rw [herase]; exact hp)
      (fun hb => hearly hb p List.mem_cons_self) hu
    obtain ⟨-, -, -, rfl⟩ := kfree_eq_ok hu
    obtain ⟨hpool, htaken, hbooted⟩ := ih hpush (by
        change (ps ++ (p :: l ++ s.taken.erase p)).Nodup
        rw [herase, List.cons_append]
        exact List.nodup_middle.mpr (List.nodup_cons.mpr ⟨by
          rw [List.mem_append, not_or]
          exact ⟨hps, hp⟩, hnd⟩))
      (fun q hq => haddr q (List.mem_cons_of_mem p hq))
      (fun hb q hq => hearly hb q (List.mem_cons_of_mem p hq)) ht
    refine ⟨?_, htaken.trans herase, hbooted⟩
    rw [List.reverse_cons, List.append_assoc]
    exact hpool

theorem mem_upTo {p stop step a : Nat} (hstep : 0 < step) (h : a ∈ upTo p stop step) :
    p ≤ a ∧ a < stop ∧ ∃ i, a = p + step * i := by
  obtain ⟨i, hi, rfl⟩ := List.mem_range'.mp h
  refine ⟨Nat.le_add_right _ _, ?_, i, rfl⟩
  have hlt := (Nat.lt_div_iff_mul_lt hstep).mp hi
  have : step * i = i * step := Nat.mul_comm _ _
  omega

theorem upTo_nodup {p stop step : Nat} (hstep : 0 < step) : (upTo p stop step).Nodup :=
  List.nodup_range' step hstep

end Pool

/-! ### `kalloc` -/

theorem map_eq_ok {α β ε : Type} {x : Except ε α} {f : α → β} {b : β} (h : x.map f = .ok b) :
    ∃ a, x = .ok a ∧ f a = b := by
  cases x with
  | error e => cases h
  | ok a => exact ⟨a, rfl, Except.ok.inj h⟩

section Take

variable {kend p key : Nat} {s t : Kmem} {l : List Nat} {q : List Entry}

/-- The first page of the list is taken. -/
theorem Pool.take (h : Pool kend s (p :: l)) : (takePage s).2 = p ∧ Pool kend (takePage s).1 l ∧
    (takePage s).1.taken = p :: s.taken ∧ (takePage s).1.booted = s.booted := by
  have hp : s.freelist = p := h.head
  have hne : s.freelist ≠ 0 := hp ▸ (h.good p List.mem_cons_self).ne_zero
  have hperm : ∀ a, a ∈ l ++ p :: s.taken → a ∈ p :: l ++ s.taken := fun a ha =>
    (List.perm_middle.mem_iff).mp ha
  have hcount : dec s.nfreeblock = l.length := by
    rw [h.count]
    rfl
  unfold takePage
  rw [if_pos hne, hp]
  refine ⟨rfl, ⟨h.links.1, h.links.2.congr ?_, List.nodup_middle.mpr h.nodup, ?_, hcount, ?_⟩, rfl,
    rfl⟩
  · intro a _
    unfold Kmem.next
    rfl
  · exact fun a ha => h.good a (hperm a ha)
  · exact fun hb a ha => h.early hb a (hperm a ha)

theorem secondChance_length (q : List Entry) : (secondChance q).1.length = q.length := by
  induction q with
  | nil => rfl
  | cons e q ih =>
    rw [secondChance]
    split
    · rw [List.length_cons, List.length_cons, ih]
    · rfl

/-- An entry is chosen if there is one. -/
theorem selPage_some (hq : q ≠ []) : ∃ q' e, selPage q = (q', some e) := by
  have hlen := secondChance_length q
  unfold selPage
  rcases hs : secondChance q with ⟨q', _ | e⟩
  · rw [hs] at hlen
    cases q' with
    | nil => exact absurd (List.length_eq_zero_iff.mp hlen.symm) hq
    | cons e q' => exact ⟨e :: q', e, rfl⟩
  · exact ⟨q', e, rfl⟩

theorem allocSlot_eq_ok (h : allocSlot s key = .ok t) : ∃ m, t = { s with swapMap := m } := by
  unfold allocSlot at h
  split at h
  · cases h
  · cases h
    exact ⟨_, rfl⟩

theorem allocSlot_ok (key : Nat) (h : ∃ i < SLOTSIZE, s.swapMap i = 0) : ∃ t, allocSlot s key = .ok t := by
  obtain ⟨i, hi, hfree⟩ := h
  obtain ⟨j, hj⟩ := Vm.firstFrom_isSome (t := fun i => s.swapMap i = 0) (Nat.zero_le i)
    (show i < 0 + SLOTSIZE by rwa [Nat.zero_add]) (decide_eq_true hfree)
  unfold allocSlot
  rw [hj]
  exact ⟨_, rfl⟩

/-- The page of the entry that is chosen is freed. -/
theorem Pool.pageOut (h : Pool kend s l)
    (hvictim : ∀ e ∈ (selPage s.pgqueue).2, p2v (pteAddr (s.pte e.ptrPte)) ∈ s.taken)
    (ht : pageOut kend s = .ok t) :
    ∃ p, Pool kend t (p :: l) ∧ t.booted = s.booted := by
  unfold Kalloc.pageOut at ht
  rcases hsel : selPage s.pgqueue with ⟨q, _ | e⟩
  · rw [hsel] at ht
    cases ht
  · rw [hsel] at ht hvictim
    obtain ⟨u, hu, ht⟩ := bind_eq_ok.mp ht
    obtain ⟨v, hv, ht⟩ := bind_eq_ok.mp ht
    cases ht
    obtain ⟨m, rfl⟩ := allocSlot_eq_ok hu
    obtain ⟨v', hv', hpool⟩ := (h.congr (fun _ _ => rfl) rfl rfl rfl rfl :
      Pool kend { s with
        pgqueue := q
        pte := Function.update s.pte e.ptrPte (s.pte e.ptrPte ^^^ PTE_P)
        swapMap := m } l).kfree (hvictim e rfl)
    rw [hv'] at hv
    cases hv
    refine ⟨_, hpool.congr (fun _ _ => rfl) rfl rfl rfl rfl, ?_⟩
    obtain ⟨-, -, -, rfl⟩ := kfree_eq_ok hv'
    rfl

theorem Pool.pageOut_ok (h : Pool kend s l) (hq : s.pgqueue ≠ [])
    (hslot : ∃ i < SLOTSIZE, s.swapMap i = 0)
    (hvictim : ∀ e ∈ (selPage s.pgqueue).2, p2v (pteAddr (s.pte e.ptrPte)) ∈ s.taken) :
    ∃ t, Kalloc.pageOut kend s = .ok t := by
  obtain ⟨q, e, hsel⟩ := selPage_some hq
  rw [hsel] at hvictim
  unfold Kalloc.pageOut
  rw [hsel]
  obtain ⟨u, hu⟩ := allocSlot_ok (s := { s with
    pgqueue := q, pte := Function.update s.pte e.ptrPte (s.pte e.ptrPte ^^^ PTE_P) }) e.pnPid hslot
  have hgood := h.good _ (List.mem_append_right l (hvictim e rfl))
  obtain ⟨v, hv⟩ := hgood.kfree u
  exact ⟨_, bind_eq_ok.mpr ⟨u, hu, bind_eq_ok.mpr ⟨v, hv, rfl⟩⟩⟩

theorem Pool.empty (h : Pool kend s l) (hzero : s.nfreeblock = 0) : l = [] :=
  List.length_eq_zero_iff.mp (h.count.symm.trans hzero)

/-- What `kalloc` returns is a page. -/
theorem Pool.kalloc (h : Pool kend s l) (hvictim : s.Victim) (ht : kalloc kend s = .ok (t, p)) :
    ∃ l', Pool kend t l' ∧ p ≠ 0 ∧ p ∈ t.taken ∧ t.booted = s.booted := by
  have htake : ∀ {u : Kmem} {a : Nat} {r : List Nat}, Pool kend u (a :: r) → takePage u = (t, p) →
      ∃ l', Pool kend t l' ∧ p ≠ 0 ∧ p ∈ t.taken ∧ t.booted = u.booted := by
    intro u a r hu heq
    obtain ⟨hp, hpool, htaken, hbooted⟩ := hu.take
    rw [heq] at hp hpool htaken hbooted
    obtain rfl : p = a := hp
    refine ⟨r, hpool, (hu.good p List.mem_cons_self).ne_zero, ?_, hbooted⟩
    rw [htaken]
    exact List.mem_cons_self
  unfold Kalloc.kalloc at ht
  split at ht
  · rename_i hzero
    obtain ⟨u, hu, heq⟩ := map_eq_ok ht
    obtain ⟨a, hpool, hbooted⟩ := h.pageOut (hvictim hzero.1) hu
    rw [← hbooted]
    exact htake hpool heq
  · rename_i hsome
    have hne : s.nfreeblock ≠ 0 := fun hzero => hsome ⟨hzero, by decide⟩
    cases l with
    | nil => exact absurd h.count hne
    | cons a l => exact htake h (Except.ok.inj ht)

/-- `kalloc` returns if there is a page on the list, or one to be moved out and a slot for it. -/
theorem Pool.kalloc_ok (h : Pool kend s l)
    (hroom : l ≠ [] ∨ s.pgqueue ≠ [] ∧ (∃ i < SLOTSIZE, s.swapMap i = 0) ∧ s.Victim) :
    ∃ t p, Kalloc.kalloc kend s = .ok (t, p) := by
  unfold Kalloc.kalloc
  split
  · rename_i hzero
    obtain ⟨hq, hslot, hvictim⟩ := hroom.resolve_left (not_not.mpr (h.empty hzero.1))
    obtain ⟨t, ht⟩ := h.pageOut_ok hq hslot (hvictim hzero.1)
    rw [ht]
    exact ⟨_, _, rfl⟩
  · exact ⟨_, _, rfl⟩

end Take

/-! ### Slabs and start-up -/

section Init

variable {kend v : Nat} {s t : Kmem} {l : List Nat}

/-- A slab lies in a page that is taken. -/
theorem Pool.freeSlab (h : Pool kend s l) (hpage : pageOf v ∈ s.taken) :
    Pool kend (freeSlab s v) l := by
  refine h.congr (fun p hp => ?_) rfl rfl rfl rfl
  have h1 := h.store hpage hp
  have h2 : p + 4 ≠ v + 4 := by
    intro heq
    have haligned := (h.good p (List.mem_append_left _ hp)).aligned
    have hpv : pageOf v = p := by
      unfold pageOf PGSIZE at *
      omega
    rw [hpv] at hpage
    exact (List.nodup_append.mp h.nodup).2.2 p hp p hpage rfl
  change Function.update (Function.update s.mem v SLABSIZE) (v + 4) s.slablist (p + 4) = _
  rw [Function.update_of_ne h2, Function.update_of_ne h1]

theorem Pool.freeSlabs : ∀ (vs : List Nat) {s : Kmem}, Pool kend s l →
    (∀ v ∈ vs, pageOf v ∈ s.taken) → Pool kend (vs.foldl Kalloc.freeSlab s) l ∧
      (vs.foldl Kalloc.freeSlab s).booted = s.booted := by
  intro vs
  induction vs with
  | nil => exact fun h _ => ⟨h, rfl⟩
  | cons v vs ih =>
    intro s h hvs
    exact ih (s := Kalloc.freeSlab s v) (h.freeSlab (hvs v List.mem_cons_self))
      fun w hw => hvs w (List.mem_cons_of_mem v hw)

theorem Pool.slabinit (h : Pool kend s l) (hvictim : s.Victim) (ht : slabinit kend s = .ok t) :
    ∃ l', Pool kend t l' ∧ t.booted = s.booted := by
  obtain ⟨⟨u, start⟩, hu, ht⟩ := bind_eq_ok.mp ht
  cases ht
  obtain ⟨l', hpool, -, htaken, hbooted⟩ := h.kalloc hvictim hu
  have haligned := (hpool.good start (List.mem_append_right l' htaken)).aligned
  obtain ⟨hslabs, hbooted'⟩ := Pool.freeSlabs (upTo start (start + PGSIZE - SLABSIZE) SLABSIZE) hpool (by
    intro v hv
    obtain ⟨hlo, hhi, i, rfl⟩ := mem_upTo (by decide) hv
    have hpage : pageOf (start + SLABSIZE * i) = start := by
      unfold pageOf PGSIZE SLABSIZE at *
      omega
    exact hpage.symm ▸ htaken)
  exact ⟨l', hslabs, hbooted'.trans hbooted⟩

theorem Pool.takeSlab (h : Pool kend s l) : Pool kend (takeSlab s) l := by
  unfold Kalloc.takeSlab
  split
  · exact h.congr (fun _ _ => rfl) rfl rfl rfl rfl
  · exact h.congr (fun _ _ => rfl) rfl rfl rfl rfl

theorem Pool.allocSlab (h : Pool kend s l) (hvictim : s.slabs = 0 → s.Victim)
    (ht : allocSlab kend s = .ok t) : ∃ l', Pool kend t l' := by
  unfold Kalloc.allocSlab at ht
  split at ht
  · rename_i hzero
    obtain ⟨u, hu, rfl⟩ := map_eq_ok ht
    obtain ⟨l', hl', -⟩ := h.slabinit (hvictim hzero) hu
    exact ⟨l', hl'.takeSlab⟩
  · cases ht
    exact ⟨l, h.takeSlab⟩

theorem Pool.kinit1 {m : Nat → Nat} (ht : kinit1 kend (start m) = .ok t) : ∃ l, Pool kend t l := by
  have hstart : Pool kend (start m) [] :=
    ⟨rfl, trivial, List.nodup_nil, fun p hp => absurd hp List.not_mem_nil, rfl,
      fun _ p hp => absurd hp List.not_mem_nil⟩
  have hbelow : ∀ p ∈ upTo (pgroundup kend) (p2v FOURMB) PGSIZE, p < p2v FOURMB := fun p hp =>
    (mem_upTo (by decide) hp).2.1
  obtain ⟨hpool, -, -⟩ := hstart.frees (by
    rw [show [] ++ (start m).taken = [] from rfl, List.append_nil]
    exact upTo_nodup (by decide)) (fun p hp => Nat.lt_trans (hbelow p hp) (by decide))
    (fun _ => hbelow) ht
  exact ⟨_, hpool⟩

theorem Pool.kinit2 (h : Pool kend s l) (hb : s.booted = false) (ht : kinit2 kend s = .ok t) :
    ∃ l', Pool kend t l' := by
  obtain ⟨u, hu, ht⟩ := bind_eq_ok.mp ht
  have hbooted : Pool kend { s with booted := true } l :=
    ⟨h.head, h.links, h.nodup, h.good, h.count, fun h => nomatch h⟩
  have hround : pgroundup (p2v FOURMB) = p2v FOURMB := by decide
  have hrange : ∀ p ∈ upTo (pgroundup (p2v FOURMB)) (p2v PHYSTOP) PGSIZE,
      p2v FOURMB ≤ p ∧ p < p2v PHYSTOP := by
    intro p hp
    obtain ⟨hlo, hhi, -⟩ := mem_upTo (by decide) hp
    exact ⟨hround ▸ hlo, hhi⟩
  obtain ⟨hpool, -, -⟩ := hbooted.frees (by
    refine List.nodup_append.mpr ⟨upTo_nodup (by decide), h.nodup, ?_⟩
    rintro p hp q hq rfl
    have := h.early hb p hq
    have := (hrange p hp).1
    omega) (fun p hp => Nat.lt_trans (hrange p hp).2 (by decide)) (fun h => nomatch h) hu
  -- the list is not empty, so that no page is moved out
  have hvictim : u.Victim := by
    intro hzero
    have hempty := hpool.empty hzero
    rw [List.append_eq_nil_iff, List.reverse_eq_nil_iff] at hempty
    have := congrArg List.length hempty.1
    unfold upTo at this
    rw [List.length_range'] at this
    exact absurd this (by decide)
  obtain ⟨l', hl', -⟩ := hpool.slabinit hvictim ht
  exact ⟨l', hl'⟩

end Init

/-! ### Every run -/

section Runs

variable {kend : Nat} {s s₀ t : Kmem} {l : List Nat}

theorem Pool.step {a : Act} (h : Pool kend s l) (hs : Step kend s a t) : ∃ l', Pool kend t l' := by
  obtain ⟨he, hallowed⟩ := hs
  cases a with
  | kalloc =>
    obtain ⟨r, hk, rfl⟩ := map_eq_ok he
    obtain ⟨l', hl', -⟩ := h.kalloc hallowed hk
    exact ⟨l', hl'⟩
  | kfree v =>
    obtain ⟨t', ht', hpool⟩ := h.kfree hallowed
    cases ht'.symm.trans he
    exact ⟨_, hpool⟩
  | allocSlab => exact h.allocSlab hallowed he
  | freeSlab v =>
    cases he
    exact ⟨l, h.freeSlab hallowed⟩
  | kinit2 => exact h.kinit2 hallowed he
  | store a w =>
    cases he
    refine ⟨l, h.congr (fun p hp => ?_) rfl rfl rfl rfl⟩
    exact Function.update_of_ne (h.store hallowed hp) _ _
  | rest q pte swapMap =>
    cases he
    exact ⟨l, h.congr (fun _ _ => rfl) rfl rfl rfl rfl⟩

/-- **The page allocator.**  After `kinit1`, whatever pages are taken and freed, whenever memory
    runs out and `kinit2` is called: the free list is a list of different pages with the right
    count, none of them is taken, and `kalloc` returns a page if there is one. -/
theorem page_allocator {m : Nat → Nat} {as : List Act} (hinit : kinit1 kend (start m) = .ok s₀)
    (hr : Run (Step kend) s₀ as s) :
    ∃ l, s.freelist = first id l 0 ∧ Links s.next id l 0 ∧ l.Nodup ∧
      (∀ p ∈ l, p % PGSIZE = 0 ∧ p ≠ 0) ∧ s.nfreeblock = l.length ∧ (∀ p ∈ l, p ∉ s.taken) ∧
      (l ≠ [] ∨ s.pgqueue ≠ [] ∧ (∃ i < SLOTSIZE, s.swapMap i = 0) ∧ s.Victim →
        ∃ t p, kalloc kend s = .ok (t, p)) ∧
      ∀ t p, s.Victim → kalloc kend s = .ok (t, p) → p ≠ 0 ∧ p ∈ t.taken := by
  obtain ⟨l, h⟩ : ∃ l, Pool kend s l := by
    refine hr.invariant (fun s => ∃ l, Pool kend s l) (Pool.kinit1 hinit) ?_
    rintro u a v ⟨l, hl⟩ hs
    exact hl.step hs
  obtain ⟨hl, -, hdisj⟩ := List.nodup_append.mp h.nodup
  refine ⟨l, h.head, h.links, hl, fun p hp => ?_, h.count, fun p hp ht => hdisj p hp p ht rfl,
    h.kalloc_ok, fun t p hvictim ht => ?_⟩
  · have hgood := h.good p (List.mem_append_left _ hp)
    exact ⟨hgood.aligned, hgood.ne_zero⟩
  · obtain ⟨-, -, hne, htaken, -⟩ := h.kalloc hvictim ht
    exact ⟨hne, htaken⟩

/-- Two pages are taken, one of them is moved out, and the other one is freed. -/
def twoPages : List Act :=
  [.kalloc, .kalloc, .rest [⟨PTE_A, 0x1001, 8⟩] (fun _ => 0x3fe027) (fun _ => 0), .kalloc,
    .kfree 0x803ff000, .store 0x803fe008 1]

theorem page_allocator_two : ∃ s₀ s l, kinit1 0x803fe000 (start fun _ => 0) = .ok s₀ ∧
    Run (Step 0x803fe000) s₀ twoPages s ∧ s.taken = [0x803fe000] ∧ s.freelist = first id l 0 ∧
      Links s.next id l 0 ∧ s.nfreeblock = l.length := by
  have hinit : okWith (fun s₀ => okWith (fun s : Kmem => decide (s.taken = [0x803fe000]))
      (twoPages.foldlM (fun s a => if s.Allowed a then s.exec 0x803fe000 a else .error .kfree) s₀))
      (kinit1 0x803fe000 (start fun _ => 0)) = true := by
    decide
  obtain ⟨s₀, hs₀, hrun⟩ := okWith_eq_true.mp hinit
  obtain ⟨s, hs, htaken⟩ := okWith_eq_true.mp hrun
  have hsteps : Run (Step 0x803fe000) s₀ twoPages s := by
    refine (Run.of_foldlM hs).mono fun u a v huv => ?_
    split at huv
    · rename_i hallowed
      exact ⟨huv, hallowed⟩
    · cases huv
  obtain ⟨l, hhead, hlinks, -, -, hcount, -⟩ := page_allocator hs₀ hsteps
  exact ⟨s₀, s, l, hs₀, hsteps, of_decide_eq_true htaken, hhead, hlinks, hcount⟩

end Runs

end Yonix.Kalloc
