/-
  Yonix/Slab/Conserved.lean
  =========================
  **Where the slabs are.**

  The slabs that were handed out are the entries of the queues, the entry that the
  scheduler holds, and those that are lost: `free_page` unlinks an entry of `pgqueue` and
  does not give its slab back.  Every other removal frees its entry or links it again.
  Each operation says which slabs it loses; in a run the losses add up and nothing brings
  a slab back, so the slabs are conserved exactly as long as no entry leaves `pgqueue`.
-/
import Yonix.Slab.Model

namespace Yonix.Slab

open Yonix.Proc (Slot Pcb Scheme slots)

/-! ### Accounts -/

/-- The entry that the scheduler holds. -/
def heldNode (s : Kernel) : List Nat := (s.cur.bind Running.held).toList

/-- The entries of all queues. -/
def linked (s : Kernel) : List Nat :=
  s.esqueue.map Node.addr ++ s.rdyqueue.map Node.addr ++
    (List.range Proc.NQUEUE).flatMap (fun i => (s.rdyQDy i).map Node.addr) ++
    s.pgqueue.map PageNode.addr

def Conserved (s : Kernel) : Prop :=
  s.out.length = s.esqueue.length + s.rdyqueue.length +
      ((List.range Proc.NQUEUE).map fun i => (s.rdyQDy i).length).sum + s.pgqueue.length +
      (heldNode s).length ∧
    s.nfreeblock = s.freelist.length

/-- The slabs that can be handed out before a page has to go. -/
def supply (s : Kernel) : Nat := s.nfreeblock + (PGSIZE / SLABSIZE - 1) * s.kmem.length

/-- The entries that a scheme's `init` frees. -/
def swept (s : Kernel) (p : Slot) : Scheme → Nat
  | .FIFO => if ∃ e ∈ s.rdyqueue, (s.proc e.slot).stat ≠ .READY then 1 else 0
  | .RR => 0
  | .PRIORITY => if s.rdyQDy (Proc.dyIndex (s.proc p)) ≠ [] ∧ s.rdyqueue ≠ [] then 1 else 0

def readyCount (s : Kernel) : Nat := slots.countP fun p => (s.proc p).stat = .READY

/-- No page entry is unlinked: there are frames and slabs for what the operation needs,
    and the page that is released has no entry. -/
def Enough (s : Kernel) : Act → Prop
  | .procalloc => s.esqueue = [] ∨ s.kmem ≠ []
  | .insertEs _ | .addPage _ _ _ => 1 ≤ supply s
  | .enqueue _ | .giveupCpu => s.scheme = .RR ∨ 1 ≤ supply s
  | .selectScheme scheme => scheme = .RR ∨
      ∀ r, s.cur = some r → readyCount s ≤ supply s + swept s r.slot scheme
  | .kalloc => s.kmem ≠ []
  | .pageIn _ _ => s.kmem ≠ [] ∧ 1 ≤ s.nfreeblock + (PGSIZE / SLABSIZE - 1) * (s.kmem.length - 1)
  | .freePage key => ∀ e ∈ s.pgqueue, e.key ≠ key
  | .sched | .back | .kfree _ | .procs _ => True

structure Inv (lost : List Nat) (s : Kernel) : Prop where
  out : ∀ v, s.out.count v = (linked s).count v + (heldNode s).count v + lost.count v
  free : s.nfreeblock = s.freelist.length

variable {s t : Kernel} {lost : List Nat}

theorem count_linked (s : Kernel) (v : Nat) : (linked s).count v =
    (s.esqueue.map Node.addr).count v + (s.rdyqueue.map Node.addr).count v +
      ((List.range Proc.NQUEUE).flatMap fun i => (s.rdyQDy i).map Node.addr).count v +
      (s.pgqueue.map PageNode.addr).count v := by
  unfold linked
  rw [List.count_append, List.count_append, List.count_append]

/-- One of the forty queues changes. -/
theorem count_update (f : Nat → List Node) {l : List Nat} (hl : l.Nodup) {i : Nat} (hi : i ∈ l)
    (q : List Node) (v : Nat) :
    (l.flatMap fun j => (Function.update f i q j).map Node.addr).count v +
        ((f i).map Node.addr).count v =
      (l.flatMap fun j => (f j).map Node.addr).count v + (q.map Node.addr).count v := by
  induction l with
  | nil => cases hi
  | cons j l ih =>
    obtain ⟨hj, hl⟩ := List.nodup_cons.mp hl
    rw [List.flatMap_cons, List.flatMap_cons, List.count_append, List.count_append]
    by_cases hij : i = j
    · subst hij
      have hrest : (l.flatMap fun j => (Function.update f i q j).map Node.addr) =
          l.flatMap fun j => (f j).map Node.addr := by
        refine List.flatMap_congr ?_
        intro k hk
        have hne : k ≠ i := fun h => hj (h ▸ hk)
        rw [Function.update_of_ne hne]
      rw [hrest, Function.update_self]
      omega
    · have hmem : i ∈ l := (List.mem_cons.mp hi).resolve_left hij
      have := ih hl hmem
      rw [Function.update_of_ne (Ne.symm hij)]
      omega

theorem length_linked (s : Kernel) : (linked s).length = s.esqueue.length + s.rdyqueue.length +
    ((List.range Proc.NQUEUE).map fun i => (s.rdyQDy i).length).sum + s.pgqueue.length := by
  unfold linked
  rw [List.length_append, List.length_append, List.length_append, List.length_flatMap, List.length_map,
    List.length_map, List.length_map]
  simp only [List.length_map]

theorem Inv.length (h : Inv lost s) :
    s.out.length = (linked s).length + (heldNode s).length + lost.length := by
  have hperm : s.out.Perm (linked s ++ heldNode s ++ lost) := by
    rw [List.perm_iff_count]
    intro v
    rw [List.count_append, List.count_append]
    exact h.out v
  have := hperm.length_eq
  rw [List.length_append, List.length_append] at this
  exact this

theorem Inv.conserved_iff (h : Inv lost s) : Conserved s ↔ lost = [] := by
  have hlen := h.length
  rw [length_linked] at hlen
  unfold Conserved
  constructor
  · rintro ⟨hout, -⟩
    exact List.eq_nil_of_length_eq_zero (by omega)
  · intro hl
    rw [hl, List.length_nil] at hlen
    exact ⟨by omega, h.free⟩

/-! ### Pages -/

/-- Of the page queue `q` the entries `ls` are gone. -/
def Unlinked (ls : List Nat) (q q' : List PageNode) : Prop :=
  ∀ v, (q.map PageNode.addr).count v = (q'.map PageNode.addr).count v + ls.count v

theorem secondChance_addr (q : List PageNode) :
    (secondChance q).1.map PageNode.addr = q.map PageNode.addr := by
  induction q with
  | nil => rfl
  | cons e l ih =>
    unfold secondChance
    split
    · rw [List.map_cons, ih, List.map_cons]
    · rfl

theorem secondChance_mem {q : List PageNode} {e : PageNode} (h : (secondChance q).2 = some e) :
    e ∈ (secondChance q).1 := by
  induction q with
  | nil => cases h
  | cons d l ih =>
    unfold secondChance at h ⊢
    split
    · rename_i href
      rw [if_pos href] at h
      exact List.mem_cons_of_mem _ (ih h)
    · rename_i href
      rw [if_neg href] at h
      cases h
      exact List.mem_cons_self

theorem selPage_eq {q q' : List PageNode} {e : PageNode} (h : selPage q = (q', some e)) :
    q'.map PageNode.addr = q.map PageNode.addr ∧ e ∈ q' := by
  have haddr := secondChance_addr q
  have hmem := @secondChance_mem q e
  unfold selPage at h
  generalize secondChance q = c at h haddr hmem
  obtain ⟨r, o⟩ := c
  cases o with
  | some d =>
    cases h
    exact ⟨haddr, hmem rfl⟩
  | none =>
    obtain ⟨hr, hhead⟩ := Prod.mk.inj h
    subst hr
    exact ⟨haddr, List.mem_of_mem_head? hhead⟩

/-- `free_page` loses a slab exactly when the page has an entry. -/
theorem freePage_unlinked (q : List PageNode) (key : Nat) :
    ∃ ls, Unlinked ls q (q.eraseP fun e => e.key = key) ∧ (ls = [] ↔ ∀ e ∈ q, e.key ≠ key) := by
  by_cases hex : ∃ e ∈ q, e.key = key
  · obtain ⟨e, he, hkey⟩ := hex
    obtain ⟨a, l₁, l₂, hl, ha, hq, herase⟩ :=
      List.exists_of_eraseP (p := fun e : PageNode => decide (e.key = key)) he (by simpa using hkey)
    refine ⟨[a.addr], ?_, ?_⟩
    · intro v
      rw [herase, hq, List.map_append, List.map_append, List.map_cons, List.count_append,
        List.count_append, List.count_cons, List.count_singleton]
      omega
    · refine iff_of_false (by simp) ?_
      intro h
      exact h e he hkey
  · have hne : ∀ e ∈ q, e.key ≠ key := fun e he hk => hex ⟨e, he, hk⟩
    refine ⟨[], ?_, iff_of_true rfl hne⟩
    intro v
    rw [List.eraseP_of_forall_not]
    · simp
    · intro e he
      simpa using hne e he

/-! ### Allocation -/

/-- `kalloc` takes one frame, and unlinks a page entry when there is none. -/
theorem kalloc_eq {o : Option Nat} (h : kalloc s = .ok (t, o)) :
    ∃ km pq ls, t = { s with kmem := km, pgqueue := pq } ∧ Unlinked ls s.pgqueue pq ∧
      (ls = [] ↔ s.kmem ≠ []) ∧ (s.kmem ≠ [] → km.length + 1 = s.kmem.length) ∧ o ≠ none := by
  unfold kalloc at h
  split at h
  · rename_i hempty
    obtain ⟨u, hu, htake⟩ : ∃ u, pageOut s = .ok u ∧ takeFrame u = (t, o) := by
      cases hp : pageOut s with
      | error e =>
        rw [hp] at h
        cases h
      | ok u =>
        rw [hp] at h
        exact ⟨u, rfl, Except.ok.inj h⟩
    unfold pageOut at hu
    split at hu
    · cases hu
    · rename_i q e hsel
      cases hu
      cases htake
      obtain ⟨haddr, hmem⟩ := selPage_eq hsel
      obtain ⟨ls, hls, hnil⟩ := freePage_unlinked q e.key
      refine ⟨_, _, ls, rfl, ?_, ?_, fun hne => (hne hempty).elim, by simp⟩
      · intro v
        rw [← haddr]
        exact hls v
      · refine iff_of_false ?_ (fun hne => hne hempty)
        intro hl
        exact hnil.mp hl e hmem rfl
  · rename_i hne
    obtain ⟨f, l, hkm⟩ := List.exists_cons_of_ne_nil hne
    unfold takeFrame at h
    rw [hkm] at h
    cases h
    refine ⟨l, s.pgqueue, [], rfl, fun v => by simp, iff_of_true rfl hne, ?_, by simp⟩
    intro _
    rw [hkm, List.length_cons]

theorem freeSlabs_eq (p : Nat) (l : List Nat) : ∀ s : Kernel,
    ∃ fl, l.foldl (fun s i => freeSlab s (p + i * SLABSIZE)) s =
        { s with freelist := fl, nfreeblock := s.nfreeblock + l.length } ∧
      fl.length = s.freelist.length + l.length := by
  induction l with
  | nil => exact fun s => ⟨s.freelist, rfl, rfl⟩
  | cons i l ih =>
    intro s
    obtain ⟨fl, hfold, hlen⟩ := ih (freeSlab s (p + i * SLABSIZE))
    refine ⟨fl, ?_, ?_⟩
    · have hn : (freeSlab s (p + i * SLABSIZE)).nfreeblock + l.length =
          s.nfreeblock + (i :: l).length := by
        rw [List.length_cons]
        unfold freeSlab
        dsimp only
        omega
      rw [List.foldl_cons, hfold, hn]
      rfl
    · rw [hlen]
      unfold freeSlab
      rw [List.length_cons, List.length_cons]
      omega

theorem takeSlab_eq {v : Nat} (hf : s.nfreeblock = s.freelist.length)
    (h : takeSlab s = .ok (t, v)) :
    ∃ fl, t = { s with freelist := fl, nfreeblock := fl.length, out := v :: s.out } ∧
      s.nfreeblock = fl.length + 1 := by
  unfold takeSlab at h
  split at h
  · cases h
  · rename_i x l hx
    cases h
    have hlen : s.nfreeblock = l.length + 1 := by
      rw [hf, hx, List.length_cons]
    refine ⟨l, ?_, hlen⟩
    rw [hlen, Nat.add_sub_cancel]

theorem slabs_of_page : PGSIZE / SLABSIZE - 1 = 127 := by decide

/-- `alloc_slab` hands out one slab, and unlinks a page entry when there is neither a slab
    nor a frame. -/
theorem allocSlab_eq {v : Nat} (hf : s.nfreeblock = s.freelist.length)
    (h : allocSlab s = .ok (t, v)) :
    ∃ fl km pq ls, t = { s with
        freelist := fl, nfreeblock := fl.length, kmem := km, pgqueue := pq, out := v :: s.out } ∧
      Unlinked ls s.pgqueue pq ∧ (ls = [] ↔ 1 ≤ supply s) ∧
      (1 ≤ supply s → supply t + 1 = supply s) := by
  unfold allocSlab at h
  split at h
  · rename_i hzero
    -- a new page of slabs
    obtain ⟨u, hu, h⟩ := bind_eq_ok.mp h
    unfold slabinit at hu
    obtain ⟨⟨w, o⟩, hw, hu⟩ := bind_eq_ok.mp hu
    obtain ⟨km, pq, ls, rfl, hls, hnil, hlen, hsome⟩ := kalloc_eq hw
    cases o with
    | none => exact (hsome rfl).elim
    | some p =>
      obtain ⟨fl, hfold, hfl⟩ := freeSlabs_eq p (List.range (PGSIZE / SLABSIZE - 1))
        { s with kmem := km, pgqueue := pq }
      rw [List.length_range, slabs_of_page] at hfold hfl
      cases (Except.ok.inj hu).symm.trans hfold
      rw [← hf, hzero] at hfl
      obtain ⟨l, rfl, hl⟩ := takeSlab_eq (by rw [hfl, hzero]) h
      have hl' : 127 = l.length + 1 := by
        rw [← hl, hzero]
      have hpos := @List.length_pos_iff _ s.kmem
      refine ⟨l, km, pq, ls, rfl, hls, ?_, ?_⟩
      · rw [hnil, ← hpos]
        unfold supply
        rw [hzero, slabs_of_page]
        omega
      · unfold supply
        rw [hzero, slabs_of_page]
        intro hone
        have := hlen (hpos.mp (by omega))
        dsimp only
        omega
  · rename_i hne
    obtain ⟨l, rfl, hl⟩ := takeSlab_eq hf h
    refine ⟨l, s.kmem, s.pgqueue, [], rfl, fun v => by simp, iff_of_true rfl ?_, ?_⟩
    · unfold supply
      omega
    · intro _
      unfold supply
      dsimp only
      omega

/-! ### Linking -/

/-- The operation loses the slabs `ls`, none if `c`. -/
def Loses (lost : List Nat) (t : Kernel) (c : Prop) : Prop :=
  ∃ ls, Inv (ls ++ lost) t ∧ (ls = [] ↔ c)

theorem Inv.loses (h : Inv lost s) {c : Prop} (hc : c) : Loses lost s c :=
  ⟨[], h, iff_of_true rfl hc⟩

theorem Inv.set (h : Inv lost s) (p : Slot) (f : Pcb → Pcb) : Inv lost (s.set p f) := ⟨h.out, h.free⟩

/-- A new slab is linked somewhere. -/
theorem Inv.link {u : Kernel} {v : Nat} (h : Inv lost s) (ha : allocSlab s = .ok (t, v))
    (hlink : ∀ w, (linked u).count w = (linked t).count w + [v].count w)
    (hheld : heldNode u = heldNode t) (hout : u.out = t.out)
    (hfree : u.nfreeblock = u.freelist.length) : Loses lost u (1 ≤ supply s) := by
  obtain ⟨fl, km, pq, ls, rfl, hls, hnil, -⟩ := allocSlab_eq h.free ha
  refine ⟨ls, ⟨?_, hfree⟩, hnil⟩
  intro w
  have h1 := h.out w
  have h2 := hls w
  have h3 := hlink w
  rw [count_linked] at h1
  rw [count_linked { s with freelist := _, nfreeblock := _, kmem := _, pgqueue := _, out := _ }] at h3
  dsimp only at h3
  rw [List.count_singleton] at h3
  rw [hout, hheld, h3, List.count_append]
  change List.count w (v :: s.out) = _ + (heldNode s).count w + _
  rw [List.count_cons]
  omega

theorem addPage_loses {key frame : Nat} {ref : Bool} (h : Inv lost s)
    (ht : addPage s key ref frame = .ok t) : Loses lost t (1 ≤ supply s) := by
  unfold addPage at ht
  obtain ⟨⟨u, v⟩, hu, ht⟩ := bind_eq_ok.mp ht
  obtain ⟨fl, km, pq, ls, hueq, -⟩ := allocSlab_eq h.free hu
  cases ht
  refine h.link hu ?_ rfl rfl (by rw [hueq])
  intro w
  rw [count_linked, count_linked]
  dsimp only
  rw [List.map_append, List.count_append]
  simp only [List.map_cons, List.map_nil]
  omega

theorem insertEs_loses {p : Slot} (h : Inv lost s) (ht : insertEs s p = .ok t) :
    Loses lost t (1 ≤ supply s) := by
  unfold insertEs at ht
  obtain ⟨⟨u, v⟩, hu, ht⟩ := bind_eq_ok.mp ht
  obtain ⟨fl, km, pq, ls, hueq, -⟩ := allocSlab_eq h.free hu
  cases ht
  refine h.link hu ?_ rfl rfl (by rw [hueq])
  intro w
  rw [count_linked, count_linked]
  dsimp only
  rw [List.map_append, List.count_append]
  simp only [List.map_cons, List.map_nil]
  omega

theorem insertFifo_loses {p : Slot} (h : Inv lost s) (ht : insertFifo s p = .ok t) :
    Loses lost t (1 ≤ supply s) := by
  unfold insertFifo at ht
  obtain ⟨⟨u, v⟩, hu, ht⟩ := bind_eq_ok.mp ht
  obtain ⟨fl, km, pq, ls, hueq, -⟩ := allocSlab_eq h.free hu
  cases ht
  refine h.link hu ?_ rfl rfl (by rw [hueq])
  intro w
  rw [count_linked, count_linked]
  dsimp only
  rw [List.map_append, List.count_append]
  simp only [List.map_cons, List.map_nil]
  omega

theorem dyQueue_lt {q : Pcb} {i : Nat} (h : dyQueue q = .ok i) :
    i ∈ List.range Proc.NQUEUE ∧ i = Proc.dyIndex q := by
  unfold dyQueue at h
  split at h
  · rename_i hq
    cases h
    refine ⟨?_, rfl⟩
    rw [List.mem_range]
    unfold Proc.dyIndex Proc.MAX_RT_PRI Proc.NQUEUE
    omega
  · cases h

/-- One of the forty queues gets another content. -/
theorem count_linked_update (s : Kernel) {i : Nat} (hi : i ∈ List.range Proc.NQUEUE) (q : List Node)
    (v : Nat) : (linked { s with rdyQDy := Function.update s.rdyQDy i q }).count v +
        ((s.rdyQDy i).map Node.addr).count v =
      (linked s).count v + (q.map Node.addr).count v := by
  have := count_update s.rdyQDy List.nodup_range hi q v
  rw [count_linked, count_linked]
  dsimp only
  omega

theorem insertDy_loses {p : Slot} (h : Inv lost s) (ht : insertDy s p = .ok t) :
    Loses lost t (1 ≤ supply s) := by
  unfold insertDy at ht
  obtain ⟨i, hi, ht⟩ := bind_eq_ok.mp ht
  obtain ⟨⟨u, v⟩, hu, ht⟩ := bind_eq_ok.mp ht
  obtain ⟨fl, km, pq, ls, hueq, -⟩ := allocSlab_eq h.free hu
  cases ht
  refine h.link hu ?_ rfl rfl (by rw [hueq])
  intro w
  have := count_linked_update u (dyQueue_lt hi).1 (u.rdyQDy i ++ [⟨v, p⟩]) w
  rw [List.map_append, List.count_append] at this
  simp only [List.map_cons, List.map_nil] at this
  omega

/-- What an insertion does besides. -/
structure Inserts (insert : Kernel → Slot → Except Stop Kernel) : Prop where
  loses : ∀ {lost s p t}, Inv lost s → insert s p = .ok t → Loses lost t (1 ≤ supply s)
  supply : ∀ {s p t}, s.nfreeblock = s.freelist.length → insert s p = .ok t → 1 ≤ supply s →
    Slab.supply t + 1 = Slab.supply s
  proc : ∀ {s p t}, s.nfreeblock = s.freelist.length → insert s p = .ok t → t.proc = s.proc

theorem inserts_fifo : Inserts insertFifo := by
  refine ⟨insertFifo_loses, ?_, ?_⟩
  · intro s p t hf ht hone
    unfold insertFifo at ht
    obtain ⟨⟨u, v⟩, hu, ht⟩ := bind_eq_ok.mp ht
    obtain ⟨-, -, -, -, -, -, -, hsupply⟩ := allocSlab_eq hf hu
    cases ht
    exact hsupply hone
  · intro s p t hf ht
    unfold insertFifo at ht
    obtain ⟨⟨u, v⟩, hu, hlink⟩ := bind_eq_ok.mp ht
    obtain ⟨_, _, _, _, hueq, -⟩ := allocSlab_eq hf hu
    cases hlink
    rw [hueq]

theorem inserts_dy : Inserts insertDy := by
  refine ⟨insertDy_loses, ?_, ?_⟩
  · intro s p t hf ht hone
    unfold insertDy at ht
    obtain ⟨i, hi, ht⟩ := bind_eq_ok.mp ht
    obtain ⟨⟨u, v⟩, hu, ht⟩ := bind_eq_ok.mp ht
    obtain ⟨-, -, -, -, -, -, -, hsupply⟩ := allocSlab_eq hf hu
    cases ht
    exact hsupply hone
  · intro s p t hf ht
    unfold insertDy at ht
    obtain ⟨i, hi, ht⟩ := bind_eq_ok.mp ht
    obtain ⟨⟨u, v⟩, hu, hlink⟩ := bind_eq_ok.mp ht
    obtain ⟨_, _, _, _, hueq, -⟩ := allocSlab_eq hf hu
    cases hlink
    rw [hueq]

/-- Linking one entry for each ready process. -/
theorem rebuild_loses {insert : Kernel → Slot → Except Stop Kernel} (hins : Inserts insert)
    (l : List Slot) : ∀ {s t : Kernel} {lost : List Nat}, Inv lost s → rebuild insert l s = .ok t →
      Loses lost t ((l.countP fun p => (s.proc p).stat = .READY) ≤ supply s) := by
  induction l with
  | nil =>
    intro s t lost h ht
    cases ht
    exact h.loses (Nat.zero_le _)
  | cons p l ih =>
    intro s t lost h ht
    unfold rebuild at ht
    split at ht
    · rename_i hready
      obtain ⟨u, hu, ht⟩ := bind_eq_ok.mp ht
      obtain ⟨ls, hinv, hnil⟩ := hins.loses h hu
      obtain ⟨ls', hinv', hnil'⟩ := ih hinv ht
      refine ⟨ls' ++ ls, by rw [List.append_assoc]; exact hinv', ?_⟩
      rw [hins.proc h.free hu] at hnil'
      rw [List.append_eq_nil_iff, hnil, hnil', List.countP_cons_of_pos (by simpa using hready)]
      have hsupply := hins.supply h.free hu
      constructor
      · rintro ⟨h1, h2⟩
        have := hsupply h2
        omega
      · intro hle
        have := hsupply (by omega)
        omega
    · rename_i hready
      rw [List.countP_cons_of_neg (by simpa using hready)]
      exact ih h ht

/-! ### Unlinking -/

/-- An entry that was linked or held is freed. -/
theorem Inv.giveBack {u : Kernel} {v : Nat} (h : Inv lost s) (hout : u.out = s.out)
    (hfree : u.nfreeblock = s.nfreeblock) (hlist : u.freelist = s.freelist)
    (hnode : ∀ w, (linked s).count w + (heldNode s).count w =
      (linked u).count w + (heldNode u).count w + [v].count w) : Inv lost (giveBack u v) := by
  refine ⟨?_, ?_⟩
  · intro w
    have h1 := h.out w
    have h2 := hnode w
    rw [List.count_singleton] at h2
    change (u.out.erase v).count w = (linked u).count w + (heldNode u).count w + _
    rw [hout, List.count_erase]
    omega
  · change u.nfreeblock + 1 = (v :: u.freelist).length
    rw [hfree, hlist, h.free, List.length_cons]

/-- Moving entries between queues and the scheduler. -/
theorem Inv.move {u : Kernel} (h : Inv lost s) (hout : u.out = s.out)
    (hfree : u.nfreeblock = s.nfreeblock) (hlist : u.freelist = s.freelist)
    (hnode : ∀ w, (linked s).count w + (heldNode s).count w =
      (linked u).count w + (heldNode u).count w) : Inv lost u := by
  refine ⟨?_, ?_⟩
  · intro w
    have h1 := h.out w
    have h2 := hnode w
    rw [hout]
    omega
  · rw [hfree, hlist, h.free]

/-- The entry that the search finds is the one that is unlinked. -/
theorem count_eraseP_find {q : List Node} {p : Slot} {e : Node}
    (h : (q.find? fun e => e.slot = p) = some e) (w : Nat) :
    (q.map Node.addr).count w =
      ((q.eraseP fun e => e.slot = p).map Node.addr).count w + [e.addr].count w := by
  induction q with
  | nil => cases h
  | cons d l ih =>
    by_cases hd : d.slot = p
    · rw [List.find?_cons_of_pos (by simpa using hd)] at h
      rw [List.eraseP_cons_of_pos (by simpa using hd), ← Option.some.inj h, List.map_cons,
        List.count_cons, List.count_singleton]
    · rw [List.find?_cons_of_neg (by simpa using hd)] at h
      have := ih h
      rw [List.eraseP_cons_of_neg (by simpa using hd), List.map_cons, List.map_cons, List.count_cons,
        List.count_cons]
      omega

/-- `sched_priority_after` moves the entry of the process. -/
theorem Inv.after {p : Slot} (h : Inv lost s) (ht : after s p = .ok t) : Inv lost t := by
  unfold Slab.after at ht
  split at ht
  · cases ht
    exact h.set _ _
  · cases ht
    exact h.set _ _
  · obtain ⟨i, hi, ht⟩ := bind_eq_ok.mp ht
    split at ht
    · cases ht
    · rename_i e he
      dsimp only at ht
      obtain ⟨j, hj, ht⟩ := bind_eq_ok.mp ht
      cases ht
      refine h.move rfl rfl rfl ?_
      intro w
      obtain ⟨q, hq⟩ : ∃ q, q = (s.rdyQDy i).eraseP fun e => e.slot = p := ⟨_, rfl⟩
      have h1 := count_linked_update s (dyQueue_lt hi).1 q w
      have h2 := count_linked_update { s with rdyQDy := Function.update s.rdyQDy i q }
        (dyQueue_lt hj).1 (Function.update s.rdyQDy i q j ++ [e]) w
      have h3 := count_eraseP_find he w
      rw [← hq] at h3 ⊢
      rw [List.map_append, List.count_append] at h2
      simp only [List.map_cons, List.map_nil] at h2
      change _ = (linked { s with
        rdyQDy := Function.update (Function.update s.rdyQDy i q) j
          (Function.update s.rdyQDy i q j ++ [e]) }).count w + (heldNode s).count w
      omega

theorem enqueue_loses {p : Slot} (h : Inv lost s) (ht : enqueue s p = .ok t) :
    Loses lost t (s.scheme = .RR ∨ 1 ≤ supply s) := by
  unfold enqueue at ht
  split at ht
  · rename_i hs
    obtain ⟨ls, hinv, hnil⟩ := insertFifo_loses h ht
    refine ⟨ls, hinv, hnil.trans ?_⟩
    simp [hs]
  · rename_i hs
    cases ht
    exact h.loses (Or.inl hs)
  · rename_i hs
    obtain ⟨ls, hinv, hnil⟩ := insertDy_loses h ht
    refine ⟨ls, hinv, hnil.trans ?_⟩
    simp [hs]

theorem giveupCpu_loses (h : Inv lost s) (ht : giveupCpu s = .ok t) :
    Loses lost t (s.scheme = .RR ∨ 1 ≤ supply s) := by
  unfold giveupCpu at ht
  split at ht
  · cases ht
  · rename_i r hr
    obtain ⟨u, hu, ht⟩ := bind_eq_ok.mp ht
    obtain ⟨ls, hinv, hnil⟩ := enqueue_loses (h.set _ _) hu
    exact ⟨ls, hinv.after ht, hnil⟩

theorem Inv.sched (h : Inv lost s) (ht : sched s = .ok t) : Inv lost t := by
  unfold Slab.sched at ht
  split at ht
  · cases ht
  · rename_i hcur _
    cases ht
    unfold schedFifo
    split
    · exact h
    · rename_i e l hq
      refine h.move rfl rfl rfl ?_
      intro w
      have hheld : heldNode s = [] := by
        unfold heldNode
        rw [hcur]
        rfl
      rw [count_linked, count_linked, hheld, hq]
      change _ = _ + [e.addr].count w
      simp only [switchTo, Kernel.set, List.map_cons, List.count_cons, List.count_nil]
      omega
  · rename_i hcur _
    cases ht
    unfold schedRr
    have hheld : heldNode s = [] := by
      unfold heldNode
      rw [hcur]
      rfl
    split
    · refine h.move rfl rfl rfl ?_
      intro w
      rw [hheld]
      rfl
    · exact ⟨h.out, h.free⟩
  · rename_i hcur _
    cases ht
    unfold schedPriority
    have hheld : heldNode s = [] := by
      unfold heldNode
      rw [hcur]
      rfl
    split
    · exact h
    · rename_i i hi
      split
      · exact h
      · rename_i e l hq
        refine h.move rfl rfl rfl ?_
        intro w
        have h1 := count_linked_update s (List.mem_of_find?_eq_some hi) l w
        rw [hq, List.map_cons, List.count_cons] at h1
        change _ = (linked { s with rdyQDy := Function.update s.rdyQDy i l }).count w + [e.addr].count w
        rw [hheld, List.count_nil, List.count_singleton]
        omega

theorem Inv.back (h : Inv lost s) (ht : back s = .ok t) : Inv lost t := by
  unfold Slab.back at ht
  split at ht
  · cases ht
  · rename_i p hcur
    cases ht
    refine h.move rfl rfl rfl ?_
    intro w
    have hheld : heldNode s = [] := by
      unfold heldNode
      rw [hcur]
      rfl
    rw [hheld]
    rfl
  · rename_i p v hcur
    cases ht
    refine h.giveBack (u := { s with cur := none }) rfl rfl rfl ?_
    intro w
    have hheld : heldNode s = [v] := by
      unfold heldNode
      rw [hcur]
      rfl
    rw [hheld]
    rfl

/-! ### Frames and pages -/

/-- Page entries are unlinked, and nothing else. -/
theorem Inv.unlink {km : List Nat} {pq : List PageNode} {ls : List Nat} (h : Inv lost s)
    (hls : Unlinked ls s.pgqueue pq) :
    Inv (ls ++ lost) { s with kmem := km, pgqueue := pq } := by
  refine ⟨?_, h.free⟩
  intro w
  have h1 := h.out w
  have h2 := hls w
  rw [count_linked] at h1 ⊢
  rw [List.count_append]
  change _ = _ + (heldNode s).count w + _
  dsimp only
  omega

theorem kalloc_loses {o : Option Nat} (h : Inv lost s) (ht : kalloc s = .ok (t, o)) :
    Loses lost t (s.kmem ≠ []) := by
  obtain ⟨km, pq, ls, rfl, hls, hnil, -⟩ := kalloc_eq ht
  exact ⟨ls, h.unlink hls, hnil⟩

theorem freePage_loses (h : Inv lost s) (key : Nat) :
    Loses lost (freePage s key) (∀ e ∈ s.pgqueue, e.key ≠ key) := by
  obtain ⟨ls, hls, hnil⟩ := freePage_unlinked s.pgqueue key
  exact ⟨ls, h.unlink hls, hnil⟩

theorem pageIn_loses {key : Nat} {ref : Bool} (h : Inv lost s) (ht : pageIn s key ref = .ok t) :
    Loses lost t (Enough s (.pageIn key ref)) := by
  unfold pageIn at ht
  obtain ⟨⟨u, o⟩, hu, hadd⟩ := bind_eq_ok.mp ht
  obtain ⟨km, pq, ls, hueq, hls, hnil, hlen, hsome⟩ := kalloc_eq hu
  cases o with
  | none => exact (hsome rfl).elim
  | some f =>
    have hinv : Inv (ls ++ lost) u := by
      rw [hueq]
      exact h.unlink hls
    obtain ⟨ls', hinv', hnil'⟩ := addPage_loses hinv hadd
    refine ⟨ls' ++ ls, by rw [List.append_assoc]; exact hinv', ?_⟩
    rw [List.append_eq_nil_iff, hnil', hnil, hueq]
    unfold Enough supply
    dsimp only
    constructor
    · rintro ⟨h1, h2⟩
      have := hlen h2
      rw [show s.kmem.length - 1 = km.length by omega]
      exact ⟨h2, h1⟩
    · rintro ⟨h2, h1⟩
      have := hlen h2
      rw [show s.kmem.length - 1 = km.length by omega] at h1
      exact ⟨h1, h2⟩

theorem procalloc_loses (h : Inv lost s) (ht : procalloc s = .ok t) :
    Loses lost t (Enough s .procalloc) := by
  unfold procalloc at ht
  split at ht
  · rename_i hes
    cases ht
    exact h.loses (Or.inl hes)
  · rename_i e l hes
    obtain ⟨⟨u, o⟩, hu, hstack⟩ := bind_eq_ok.mp ht
    have hback : Inv lost (giveBack { s with esqueue := l } e.addr) := by
      refine h.giveBack rfl rfl rfl ?_
      intro w
      rw [count_linked, count_linked, hes, List.map_cons, List.count_cons, List.count_singleton]
      change _ = _ + (heldNode s).count w + _
      dsimp only
      omega
    obtain ⟨ls, hinv, hnil⟩ := kalloc_loses (hback.set _ _) hu
    have hcond : s.kmem ≠ [] ↔ Enough s .procalloc := by
      unfold Enough
      rw [hes]
      simp
    cases o with
    | none =>
      cases hstack
      exact ⟨ls, hinv.set _ _, hnil.trans hcond⟩
    | some f =>
      cases hstack
      exact ⟨ls, hinv, hnil.trans hcond⟩

/-! ### Scheme switches -/

theorem fifoSweep_none {l r : List Node} (h : fifoSweep s l = .ok (r, none)) :
    r = l ∧ ∀ e ∈ l, (s.proc e.slot).stat = .READY := by
  induction l generalizing r with
  | nil =>
    cases h
    exact ⟨rfl, fun e he => nomatch he⟩
  | cons d l ih =>
    unfold fifoSweep at h
    split at h
    · rename_i hready
      obtain ⟨⟨l', x⟩, hl, h⟩ := bind_eq_ok.mp h
      cases h
      obtain ⟨rfl, hall⟩ := ih hl
      exact ⟨rfl, List.forall_mem_cons.mpr ⟨hready, hall⟩⟩
    · split at h
      · cases h
      · cases h

theorem fifoSweep_some {l r : List Node} {x : Node} (h : fifoSweep s l = .ok (r, some x)) :
    (∃ e ∈ l, (s.proc e.slot).stat ≠ .READY) ∧
      ∀ w, (l.map Node.addr).count w = (r.map Node.addr).count w + [x.addr].count w := by
  induction l generalizing r with
  | nil => cases h
  | cons d l ih =>
    unfold fifoSweep at h
    split at h
    · obtain ⟨⟨l', y⟩, hl, h⟩ := bind_eq_ok.mp h
      cases h
      obtain ⟨⟨e, he, hne⟩, hcount⟩ := ih hl
      refine ⟨⟨e, List.mem_cons_of_mem _ he, hne⟩, ?_⟩
      intro w
      have := hcount w
      rw [List.map_cons, List.map_cons, List.count_cons, List.count_cons]
      omega
    · rename_i hready
      split at h
      · cases h
        refine ⟨⟨x, List.mem_cons_self, hready⟩, ?_⟩
        intro w
        rw [List.map_cons, List.count_cons, List.count_singleton]
      · cases h

theorem supply_giveBack (u : Kernel) (v : Nat) : supply (giveBack u v) = supply u + 1 := by
  unfold supply
  change u.nfreeblock + 1 + _ = _
  dsimp only [giveBack, freeSlab]
  omega

theorem fifoInit_loses (h : Inv lost s) (p : Slot) (ht : fifoInit s = .ok t) :
    Loses lost t (readyCount s ≤ supply s + swept s p .FIFO) := by
  unfold fifoInit at ht
  obtain ⟨⟨l, x⟩, hsweep, hbuild⟩ := bind_eq_ok.mp ht
  cases x with
  | none =>
    obtain ⟨rfl, hall⟩ := fifoSweep_none hsweep
    have hzero : swept s p .FIFO = 0 := by
      refine if_neg ?_
      rintro ⟨e, he, hne⟩
      exact hne (hall e he)
    rw [hzero, Nat.add_zero]
    exact rebuild_loses inserts_fifo slots h hbuild
  | some x =>
    obtain ⟨hex, hcount⟩ := fifoSweep_some hsweep
    have hone : swept s p .FIFO = 1 := if_pos hex
    have hback : Inv lost (giveBack { s with rdyqueue := l } x.addr) := by
      refine h.giveBack rfl rfl rfl ?_
      intro w
      have := hcount w
      rw [count_linked, count_linked]
      change _ = _ + (heldNode s).count w + _
      dsimp only
      omega
    have hloses := rebuild_loses inserts_fifo slots hback hbuild
    rw [supply_giveBack] at hloses
    rw [hone]
    exact hloses

theorem priorityInit_loses {p : Slot} (h : Inv lost s) (ht : priorityInit s p = .ok t) :
    Loses lost t (readyCount s ≤ supply s + swept s p .PRIORITY) := by
  unfold priorityInit at ht
  obtain ⟨u, hsweep, hbuild⟩ := bind_eq_ok.mp ht
  unfold prioritySweep at hsweep
  obtain ⟨i, hi, hsweep⟩ := bind_eq_ok.mp hsweep
  have hidx := (dyQueue_lt hi).2
  split at hsweep
  · rename_i hq
    have hzero : swept s p .PRIORITY = 0 := by
      refine if_neg ?_
      rintro ⟨hne, -⟩
      rw [← hidx] at hne
      exact hne hq
    cases hsweep
    rw [hzero, Nat.add_zero]
    exact rebuild_loses inserts_dy slots h hbuild
  · rename_i hq _
    have hzero : swept s p .PRIORITY = 0 := by
      refine if_neg ?_
      rintro ⟨-, hne⟩
      exact hne hq
    cases hsweep
    rw [hzero, Nat.add_zero]
    exact rebuild_loses inserts_dy slots h hbuild
  · rename_i e l hq hne
    have hone : swept s p .PRIORITY = 1 := by
      refine if_pos ⟨?_, ?_⟩
      · rw [← hidx]
        exact hne
      · rw [hq]
        simp
    split at hsweep
    · cases hsweep
      have hback : Inv lost (giveBack { s with rdyqueue := l } e.addr) := by
        refine h.giveBack rfl rfl rfl ?_
        intro w
        rw [count_linked, count_linked, hq, List.map_cons, List.count_cons, List.count_singleton]
        change _ = _ + (heldNode s).count w + _
        dsimp only
        omega
      have hloses := rebuild_loses inserts_dy slots hback hbuild
      rw [supply_giveBack] at hloses
      rw [hone]
      exact hloses
    · cases hsweep

theorem selectScheme_loses {scheme : Scheme} (h : Inv lost s) (ht : selectScheme s scheme = .ok t) :
    Loses lost t (Enough s (.selectScheme scheme)) := by
  unfold selectScheme at ht
  split at ht
  · cases ht
  · rename_i r hr
    have hinv : Inv lost { s with scheme := scheme } := ⟨h.out, h.free⟩
    have hcond : Enough s (.selectScheme scheme) ↔
        scheme = .RR ∨ readyCount s ≤ supply s + swept s r.slot scheme := by
      unfold Enough
      rw [hr]
      simp
    cases scheme with
    | FIFO =>
      obtain ⟨ls, h1, h2⟩ := fifoInit_loses hinv r.slot ht
      refine ⟨ls, h1, h2.trans ?_⟩
      rw [hcond]
      exact ⟨Or.inr, fun hc => hc.resolve_left (by decide)⟩
    | RR =>
      cases ht
      exact hinv.loses (Or.inl rfl)
    | PRIORITY =>
      obtain ⟨ls, h1, h2⟩ := priorityInit_loses hinv ht
      refine ⟨ls, h1, h2.trans ?_⟩
      rw [hcond]
      exact ⟨Or.inr, fun hc => hc.resolve_left (by decide)⟩

/-! ### Runs -/

/-- A step loses a slab exactly when it unlinks a page entry. -/
theorem act_loses {a : Act} (h : Inv lost s) (ht : act s a = .ok t) : Loses lost t (Enough s a) := by
  cases a with
  | procalloc => exact procalloc_loses h ht
  | insertEs p => exact insertEs_loses h ht
  | enqueue p => exact enqueue_loses h ht
  | giveupCpu => exact giveupCpu_loses h ht
  | sched => exact (h.sched ht).loses trivial
  | back => exact (h.back ht).loses trivial
  | selectScheme scheme => exact selectScheme_loses h ht
  | kalloc =>
    change (kalloc s).map Prod.fst = .ok t at ht
    cases hk : kalloc s with
    | error e =>
      rw [hk] at ht
      cases ht
    | ok r =>
      rw [hk] at ht
      cases ht
      exact kalloc_loses h hk
  | kfree f =>
    cases ht
    have hinv : Inv lost { s with kmem := f :: s.kmem } := ⟨h.out, h.free⟩
    exact hinv.loses trivial
  | addPage key ref frame => exact addPage_loses h ht
  | freePage key =>
    cases ht
    exact freePage_loses h key
  | pageIn key ref => exact pageIn_loses h ht
  | procs proc =>
    cases ht
    have hinv : Inv lost { s with proc := proc } := ⟨h.out, h.free⟩
    exact hinv.loses trivial

theorem slabinit_inv (h : Inv lost s) (hk : s.kmem ≠ []) (ht : slabinit s = .ok t) :
    Inv lost t ∧ t.nfreeblock = s.nfreeblock + 127 := by
  unfold slabinit at ht
  obtain ⟨⟨u, o⟩, hu, hcut⟩ := bind_eq_ok.mp ht
  obtain ⟨km, pq, ls, hueq, hls, hnil, -, hsome⟩ := kalloc_eq hu
  cases o with
  | none => exact (hsome rfl).elim
  | some p =>
    obtain ⟨fl, hfold, hfl⟩ := freeSlabs_eq p (List.range (PGSIZE / SLABSIZE - 1)) u
    rw [List.length_range, slabs_of_page] at hfold hfl
    cases (Except.ok.inj hcut).symm.trans hfold
    have hinv : Inv lost u := by
      have hu' : Inv (ls ++ lost) { s with kmem := km, pgqueue := pq } := h.unlink hls
      rw [hnil.mpr hk, List.nil_append] at hu'
      rw [hueq]
      exact hu'
    refine ⟨⟨hinv.out, ?_⟩, ?_⟩
    · rw [hfl, hinv.free]
    · rw [hueq]

theorem insertEs_supply {p : Slot} (hf : s.nfreeblock = s.freelist.length)
    (ht : insertEs s p = .ok t) (hone : 1 ≤ supply s) : supply t + 1 = supply s := by
  unfold insertEs at ht
  obtain ⟨⟨u, v⟩, hu, hlink⟩ := bind_eq_ok.mp ht
  obtain ⟨_, _, _, _, -, -, -, hsupply⟩ := allocSlab_eq hf hu
  cases hlink
  exact hsupply hone

theorem insertAll_inv (l : List Slot) : ∀ {s t : Kernel}, Inv lost s → l.length ≤ supply s →
    insertAll l s = .ok t → Inv lost t := by
  induction l with
  | nil =>
    intro s t h _ ht
    cases ht
    exact h
  | cons p l ih =>
    intro s t h hle ht
    rw [List.length_cons] at hle
    obtain ⟨u, hu, hrest⟩ := bind_eq_ok.mp ht
    obtain ⟨ls, hinv, hnil⟩ := insertEs_loses h hu
    rw [hnil.mpr (by omega), List.nil_append] at hinv
    have := insertEs_supply h.free hu (by omega)
    exact ih hinv (by omega) hrest

/-- After booting all slabs are in `esqueue` or free. -/
theorem boot_inv {kmem : List Nat} {proc : Slot → Pcb} {scheme : Scheme}
    (h : boot kmem proc scheme = .ok s) : Inv [] s := by
  unfold boot at h
  obtain ⟨u, hu, hall⟩ := bind_eq_ok.mp h
  have hempty : Inv []
      { freelist := [], nfreeblock := 0, out := [], kmem := kmem, proc := proc, cur := none
        scheme := scheme, rr := 0, esqueue := [], rdyqueue := [], rdyQDy := fun _ => []
        pgqueue := [] } := by
    refine ⟨?_, rfl⟩
    intro v
    rw [count_linked]
    have hdy : (List.range Proc.NQUEUE).flatMap (fun _ => ([] : List Node).map Node.addr) = [] := by
      rw [List.flatMap_eq_nil_iff]
      exact fun _ _ => rfl
    rw [hdy]
    rfl
  by_cases hk : kmem = []
  · subst hk
    cases hu
  · obtain ⟨hinv, hn⟩ := slabinit_inv hempty hk hu
    refine insertAll_inv slots hinv ?_ hall
    have hlen : slots.length = 64 := List.length_finRange
    unfold supply
    rw [hn, hlen]
    omega

/-- **Slabs are conserved exactly until a page entry is unlinked.**  After any run the
    slabs handed out are the entries of the queues and the one that the scheduler holds
    if and only if there was always enough. -/
theorem slabs_conserved_iff {kmem : List Nat} {proc : Slot → Pcb} {scheme : Scheme}
    {s₀ : Kernel} {as : List Act} (hb : boot kmem proc scheme = .ok s₀)
    (hr : Run (fun s a t => act s a = .ok t) s₀ as s) :
    Conserved s ↔ Run (fun s a t => act s a = .ok t ∧ Enough s a) s₀ as s := by
  have hdet : ∀ (s : Kernel) a t t', act s a = .ok t → act s a = .ok t' → t = t' := by
    intro s a t t' h h'
    exact Except.ok.inj (h.symm.trans h')
  have hlost : ∃ lost, Inv lost s ∧
      (lost = [] ↔ Run (fun s a t => act s a = .ok t ∧ Enough s a) s₀ as s) := by
    induction hr with
    | nil => exact ⟨[], boot_inv hb, iff_of_true rfl Run.nil⟩
    | snoc hrun hst ih =>
      obtain ⟨lost, hinv, hnil⟩ := ih
      obtain ⟨ls, hinv', hnil'⟩ := act_loses hinv hst
      refine ⟨ls ++ lost, hinv', ?_⟩
      rw [List.append_eq_nil_iff, hnil, hnil']
      constructor
      · rintro ⟨henough, hrun'⟩
        exact Run.snoc hrun' ⟨hst, henough⟩
      · intro hrun'
        obtain ⟨v, hv, hvu⟩ := hrun'.unsnoc
        have hsame := Run.unique hdet hrun (hv.mono fun _ _ _ h => h.1)
        subst hsame
        exact ⟨hvu.2, hv⟩
  obtain ⟨lost, hinv, hnil⟩ := hlost
  exact hinv.conserved_iff.trans hnil

instance (s : Kernel) : Decidable (Conserved s) := inferInstanceAs (Decidable (_ ∧ _))

set_option maxRecDepth 20000 in
/-- Two processes under FIFO with a page each: the first is dispatched and gives up the
    CPU. -/
theorem slabs_conserved_fifo : ∃ s₀ s,
    boot [4096, 8192, 12288, 16384, 20480] (fun _ => Proc.unused) .FIFO = .ok s₀ ∧
      Run (fun s a t => act s a = .ok t) s₀
        [.procalloc, .addPage 4097 false 20480, .enqueue ⟨0, by decide⟩, .procalloc, .addPage 4098 false 16384,
          .enqueue ⟨1, by decide⟩, .sched, .giveupCpu] s ∧
      s.out.length = 67 ∧
      Run (fun s a t => act s a = .ok t ∧ Enough s a) s₀
        [.procalloc, .addPage 4097 false 20480, .enqueue ⟨0, by decide⟩, .procalloc, .addPage 4098 false 16384,
          .enqueue ⟨1, by decide⟩, .sched, .giveupCpu] s := by
  have hok : okWith (fun s₀ => okWith (fun s => decide (Conserved s ∧ s.out.length = 67))
      ([.procalloc, .addPage 4097 false 20480, .enqueue ⟨0, by decide⟩, .procalloc, .addPage 4098 false 16384,
        .enqueue ⟨1, by decide⟩, .sched, .giveupCpu].foldlM act s₀))
      (boot [4096, 8192, 12288, 16384, 20480] (fun _ => Proc.unused) .FIFO) = true := by decide
  obtain ⟨s₀, hb, hok⟩ := okWith_eq_true.mp hok
  obtain ⟨s, hs, hok⟩ := okWith_eq_true.mp hok
  obtain ⟨hcons, hlen⟩ := of_decide_eq_true hok
  have hr := Run.of_foldlM hs
  exact ⟨s₀, s, hb, hr, hlen, (slabs_conserved_iff hb hr).mp hcons⟩

set_option maxRecDepth 20000 in
/-- One page entry is linked and unlinked: 65 slabs are out, 64 are linked. -/
theorem freePage_leaks_slab : ∃ s₀ s,
    boot [4096, 8192] (fun _ => Proc.unused) .RR = .ok s₀ ∧
      Run (fun s a t => act s a = .ok t) s₀ [.addPage 4097 false 12288, .freePage 4097] s ∧
      s.out.length = 65 ∧ (linked s).length = 64 ∧ ¬ Conserved s := by
  have hok : okWith (fun s₀ => okWith
      (fun s => decide (s.out.length = 65 ∧ (linked s).length = 64 ∧ ¬ Conserved s))
      ([Act.addPage 4097 false 12288, .freePage 4097].foldlM act s₀))
      (boot [4096, 8192] (fun _ => Proc.unused) .RR) = true := by decide
  obtain ⟨s₀, hb, hok⟩ := okWith_eq_true.mp hok
  obtain ⟨s, hs, hok⟩ := okWith_eq_true.mp hok
  obtain ⟨hlen, hlinked, hcons⟩ := of_decide_eq_true hok
  exact ⟨s₀, s, hb, Run.of_foldlM hs, hlen, hlinked, hcons⟩

end Yonix.Slab
