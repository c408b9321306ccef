/-
  Yonix/Slab/Rebuild.lean
  =======================
  **What `select_scheme` makes of the ready queues.**

  The cleanup loops go on from a node after they have freed it, and they leave the nodes
  of ready processes where they are, so that `rebuild` enters these a second time.  Hence
  the structure of the new scheme is right exactly if nothing was left in it: then the
  loop has nothing to do.  `rebuild` itself is right, as long as there is a slab for each
  ready process.
-/
import Yonix.Slab.Conserved

namespace Yonix.Slab

open Yonix.Proc (Slot Pcb Scheme slots dyIndex)

/-! ### The loops, node by node -/

/-- What a loop does with the node at an address: it reads `slotptr`, reads the link, or
    frees the node. -/
inductive Touch where
  | slot (v : Nat)
  | link (v : Nat)
  | free (v : Nat)
deriving DecidableEq

def Touch.addr : Touch → Nat
  | .slot v | .link v | .free v => v

/-- The loop of `sched_fifo_init`, up to the first link it reads in a freed node. -/
def fifoTouches (s : Kernel) : List Node → List Touch
  | [] => []
  | e :: l =>
    if (s.proc e.slot).stat = .READY then .slot e.addr :: .link e.addr :: fifoTouches s l
    else [.slot e.addr, .free e.addr, .link e.addr]

/-- The loop of `sched_priority_init`, up to there, called by `p`. -/
def priorityTouches (s : Kernel) (p : Slot) : List Touch :=
  match s.rdyQDy (dyIndex (s.proc p)), s.rdyqueue with
  | [], _ => []
  | _, [] => []
  | _, e :: _ => [.free e.addr, .link e.addr]

def touches (s : Kernel) (p : Slot) : Scheme → List Touch
  | .FIFO => fifoTouches s s.rdyqueue
  | .RR => []
  | .PRIORITY => priorityTouches s p

/-- The nodes linked in a ready queue. -/
def readyNodes (s : Kernel) : List Nat :=
  s.rdyqueue.map Node.addr ++
    (List.range Proc.NQUEUE).flatMap fun i => (s.rdyQDy i).map Node.addr

/-- Only nodes of the ready queues are read and freed, and none after it has been freed. -/
structure Tidy (s : Kernel) (ts : List Touch) : Prop where
  linked : ∀ x ∈ ts, x.addr ∈ readyNodes s
  freed : ∀ a v b, ts = a ++ .free v :: b → ∀ x ∈ b, x.addr ≠ v

/-- The queues of the current scheme hold each ready process once, under `PRIORITY` in
    queue `p_dpri - 100`, and nothing else. -/
def Exact (s : Kernel) : Prop :=
  match s.scheme with
  | .FIFO => ∀ p, (s.rdyqueue.map Node.slot).count p = if (s.proc p).stat = .READY then 1 else 0
  | .RR => True
  | .PRIORITY => ∀ i < Proc.NQUEUE, ∀ p, ((s.rdyQDy i).map Node.slot).count p =
      if (s.proc p).stat = .READY ∧ (s.proc p).dpri = 100 + i then 1 else 0

/-- `select_scheme`, called by `p`, touches no freed node, comes back, and leaves exactly
    the ready processes in the queues. -/
def Rebuilds (s : Kernel) (p : Slot) (scheme : Scheme) : Prop :=
  Tidy s (touches s p scheme) ∧ ∃ t, selectScheme s scheme = .ok t ∧ t.scheme = scheme ∧ Exact t

/-- `p_dpri` indexes one of the forty queues. -/
def Ranged (q : Pcb) : Prop := 100 ≤ q.dpri ∧ q.dpri < 140

/-- Nothing is left in the structure of the scheme. -/
def Clear (s : Kernel) (p : Slot) : Scheme → Prop
  | .FIFO => s.rdyqueue = []
  | .RR => True
  | .PRIORITY => (∀ i < Proc.NQUEUE, s.rdyQDy i = []) ∧ Ranged (s.proc p) ∧
      ∀ q, (s.proc q).stat = .READY → Ranged (s.proc q)

/-- There is a slab for each ready process, or a page to make slabs from. -/
def Room (s : Kernel) (n : Nat) : Prop := n ≤ s.nfreeblock ∨ s.kmem ≠ [] ∨ s.pgqueue ≠ []

variable {s t u : Kernel} {p : Slot}

/-! ### Allocation succeeds -/

theorem secondChance_none {q : List PageNode} (h : (secondChance q).2 = none) :
    (secondChance q).1.length = q.length := by
  induction q with
  | nil => rfl
  | cons e l ih =>
    unfold secondChance at h ⊢
    split at h
    · rename_i href
      rw [if_pos href, List.length_cons, List.length_cons, ih h]
    · cases h

theorem selPage_none {q l : List PageNode} (h : selPage q = (l, none)) : q = [] := by
  unfold selPage at h
  split at h
  · cases h
  · rename_i l' hl
    have hlen := secondChance_none (q := q) (by rw [hl])
    rw [hl] at hlen
    obtain ⟨-, hhead⟩ := Prod.mk.inj h
    rw [List.head?_eq_none_iff.mp hhead] at hlen
    exact List.eq_nil_of_length_eq_zero hlen.symm

theorem pageOut_ok (h : s.pgqueue ≠ []) : ∃ t, pageOut s = .ok t ∧ t.kmem ≠ [] := by
  unfold pageOut
  split
  · rename_i l hsel
    exact absurd (selPage_none hsel) h
  · exact ⟨_, rfl, List.cons_ne_nil _ _⟩

theorem kalloc_ok (h : s.kmem ≠ [] ∨ s.pgqueue ≠ []) : ∃ t f, kalloc s = .ok (t, some f) := by
  have htake : ∀ {u : Kernel}, u.kmem ≠ [] → ∃ t f, takeFrame u = (t, some f) := by
    intro u hu
    obtain ⟨f, l, hl⟩ := List.exists_cons_of_ne_nil hu
    exact ⟨{ u with kmem := l }, f, by rw [takeFrame, hl]⟩
  unfold kalloc
  split
  · rename_i hempty
    obtain ⟨u, hu, hne⟩ := pageOut_ok (h.resolve_left fun hne => hne hempty)
    obtain ⟨t, f, ht⟩ := htake hne
    exact ⟨t, f, by rw [hu, Except.map, ht]⟩
  · rename_i hne
    obtain ⟨t, f, ht⟩ := htake hne
    exact ⟨t, f, by rw [ht]⟩

/-- `alloc_slab` from the list, or from a new page. -/
theorem allocSlab_ok (hf : s.nfreeblock = s.freelist.length) (h : Room s 1) :
    ∃ t v, allocSlab s = .ok (t, v) ∧ t.proc = s.proc ∧ t.nfreeblock = t.freelist.length ∧
      ∀ n ≤ 126, Room s (n + 1) → Room t n := by
  by_cases hzero : s.nfreeblock = 0
  · obtain ⟨w, f, hw⟩ := kalloc_ok (h.resolve_left (by omega))
    obtain ⟨fl, hfold, hlen⟩ := freeSlabs_eq f (List.range (PGSIZE / SLABSIZE - 1)) w
    obtain ⟨km, pq, ls, rfl, -⟩ := kalloc_eq hw
    rw [List.length_range, slabs_of_page] at hfold hlen
    dsimp only at hfold hlen
    rw [← hf, hzero, Nat.zero_add] at hlen
    obtain ⟨v, l, rfl⟩ := List.exists_cons_of_length_eq_add_one hlen
    have hl : l.length = 126 := Nat.succ.inj hlen
    refine ⟨{ s with
      freelist := l, nfreeblock := s.nfreeblock + 127 - 1, kmem := km, pgqueue := pq, out := v :: s.out },
      v, ?_, rfl, ?_, ?_⟩
    · rw [allocSlab, if_pos hzero, slabinit, hw]
      simp only [bind, Except.bind, pure, Except.pure]
      rw [slabs_of_page, hfold]
      rfl
    · dsimp only
      omega
    · intro n hn _
      left
      dsimp only
      omega
  · obtain ⟨v, l, hl⟩ := List.exists_cons_of_ne_nil (l := s.freelist) (by
      intro hnil
      rw [hnil] at hf
      exact hzero hf)
    have hlen : s.nfreeblock = l.length + 1 := by
      rw [hf, hl, List.length_cons]
    refine ⟨{ s with freelist := l, nfreeblock := s.nfreeblock - 1, out := v :: s.out }, v, ?_, rfl, ?_, ?_⟩
    · rw [allocSlab, if_neg hzero, takeSlab, hl]
    · dsimp only
      omega
    · intro n _ hroom
      refine hroom.imp_left ?_
      intro hle
      dsimp only
      omega

/-- With neither frames nor pages the slabs run out. -/
theorem allocSlab_dry {v : Nat} (hf : s.nfreeblock = s.freelist.length) (hk : s.kmem = [])
    (hq : s.pgqueue = []) (h : allocSlab s = .ok (t, v)) :
    t.nfreeblock + 1 = s.nfreeblock ∧ t.nfreeblock = t.freelist.length ∧ t.proc = s.proc ∧
      t.kmem = [] ∧ t.pgqueue = [] := by
  unfold allocSlab at h
  split at h
  · rw [slabinit, kalloc, if_pos hk, pageOut, hq] at h
    cases h
  · obtain ⟨l, rfl, hl⟩ := takeSlab_eq hf h
    exact ⟨hl.symm, rfl, rfl, hk, hq⟩

/-! ### An entry for each ready process -/

/-- An insertion is an allocation, possible for a process that `fits`, and a link. -/
structure Links (insert : Kernel → Slot → Except Stop Kernel) (fits : Pcb → Prop)
    (link : Kernel → Nat → Slot → Kernel) : Prop where
  eq_ok : ∀ {s p t}, s.nfreeblock = s.freelist.length → (insert s p = .ok t ↔
    fits (s.proc p) ∧ ∃ u v, allocSlab s = .ok (u, v) ∧ t = link u v p)
  frame : ∀ u v p, (link u v p).nfreeblock = u.nfreeblock ∧ (link u v p).freelist = u.freelist ∧
    (link u v p).kmem = u.kmem ∧ (link u v p).pgqueue = u.pgqueue ∧ (link u v p).proc = u.proc

def linkFifo (s : Kernel) (v : Nat) (p : Slot) : Kernel := { s with rdyqueue := s.rdyqueue ++ [⟨v, p⟩] }

def linkDy (s : Kernel) (v : Nat) (p : Slot) : Kernel :=
  let i := dyIndex (s.proc p)
  { s with rdyQDy := Function.update s.rdyQDy i (s.rdyQDy i ++ [⟨v, p⟩]) }

theorem links_fifo : Links insertFifo (fun _ => True) linkFifo := by
  refine ⟨?_, fun _ _ _ => ⟨rfl, rfl, rfl, rfl, rfl⟩⟩
  intro s p t _
  unfold insertFifo
  rw [bind_eq_ok]
  constructor
  · rintro ⟨⟨u, v⟩, hu, ht⟩
    exact ⟨trivial, u, v, hu, (Except.ok.inj ht).symm⟩
  · rintro ⟨-, u, v, hu, rfl⟩
    exact ⟨(u, v), hu, rfl⟩

theorem dyQueue_eq_ok {q : Pcb} {i : Nat} : dyQueue q = .ok i ↔ Ranged q ∧ i = dyIndex q := by
  unfold dyQueue
  split
  · rename_i h
    constructor
    · intro hi
      exact ⟨h, (Except.ok.inj hi).symm⟩
    · rintro ⟨-, rfl⟩
      rfl
  · rename_i h
    constructor
    · intro hi
      cases hi
    · rintro ⟨hr, -⟩
      exact (h hr).elim

theorem links_dy : Links insertDy Ranged linkDy := by
  refine ⟨?_, fun _ _ _ => ⟨rfl, rfl, rfl, rfl, rfl⟩⟩
  intro s p t hf
  unfold insertDy
  rw [bind_eq_ok]
  constructor
  · rintro ⟨i, hi, ht⟩
    obtain ⟨hr, rfl⟩ := dyQueue_eq_ok.mp hi
    obtain ⟨⟨u, v⟩, hu, ht⟩ := bind_eq_ok.mp ht
    obtain ⟨fl, km, pq, ls, rfl, -⟩ := allocSlab_eq hf hu
    exact ⟨hr, _, v, hu, (Except.ok.inj ht).symm⟩
  · rintro ⟨hr, u, v, hu, rfl⟩
    refine ⟨_, dyQueue_eq_ok.mpr ⟨hr, rfl⟩, ?_⟩
    obtain ⟨fl, km, pq, ls, rfl, -⟩ := allocSlab_eq hf hu
    rw [bind_eq_ok]
    exact ⟨(_, v), hu, rfl⟩

variable {insert : Kernel → Slot → Except Stop Kernel} {fits : Pcb → Prop}
  {link : Kernel → Nat → Slot → Kernel}

theorem rebuild_ok (hl : Links insert fits link) (l : List Slot) : ∀ {s : Kernel},
    s.nfreeblock = s.freelist.length → (∀ p ∈ l, (s.proc p).stat = .READY → fits (s.proc p)) →
      l.length ≤ 127 → Room s (l.countP fun p => (s.proc p).stat = .READY) →
      ∃ t, rebuild insert l s = .ok t := by
  induction l with
  | nil => exact fun _ _ _ _ => ⟨_, rfl⟩
  | cons p l ih =>
    intro s hf hfits hlen hroom
    obtain ⟨hp, hfits⟩ := List.forall_mem_cons.mp hfits
    rw [List.length_cons] at hlen
    unfold rebuild
    split
    · rename_i hready
      rw [List.countP_cons_of_pos (by simpa using hready)] at hroom
      have hcount := List.countP_le_length (p := fun p => decide ((s.proc p).stat = .READY)) (l := l)
      obtain ⟨u, v, hu, hproc, hfu, hnext⟩ := allocSlab_ok hf (hroom.imp_left (by omega))
      obtain ⟨h1, h2, h3, h4, h5⟩ := hl.frame u v p
      obtain ⟨t, ht⟩ := ih (s := link u v p) (by rw [h1, h2, hfu])
        (by rw [h5, hproc]; exact hfits) (by omega)
        (by rw [h5, hproc]; unfold Room; rw [h1, h3, h4]; exact hnext _ (by omega) hroom)
      exact ⟨t, bind_eq_ok.mpr ⟨_, (hl.eq_ok hf).mpr ⟨hp hready, u, v, hu, rfl⟩, ht⟩⟩
    · rename_i hready
      rw [List.countP_cons_of_neg (by simpa using hready)] at hroom
      exact ih hf hfits (by omega) hroom

/-- What `rebuild` needs. -/
theorem rebuild_needs (hl : Links insert fits link) (l : List Slot) : ∀ {s t : Kernel},
    s.nfreeblock = s.freelist.length → rebuild insert l s = .ok t →
      (∀ p ∈ l, (s.proc p).stat = .READY → fits (s.proc p)) ∧
      Room s (l.countP fun p => (s.proc p).stat = .READY) := by
  induction l with
  | nil => exact fun _ _ => ⟨List.forall_mem_nil _, Or.inl (Nat.zero_le _)⟩
  | cons p l ih =>
    intro s t hf ht
    unfold rebuild at ht
    rw [List.forall_mem_cons]
    split at ht
    · rename_i hready
      obtain ⟨w, hw, ht⟩ := bind_eq_ok.mp ht
      obtain ⟨hp, u, v, hu, rfl⟩ := (hl.eq_ok hf).mp hw
      obtain ⟨h1, h2, h3, h4, h5⟩ := hl.frame u v p
      obtain ⟨fl, km, pq, ls, hueq, -⟩ := allocSlab_eq hf hu
      have hproc : (link u v p).proc = s.proc := by
        rw [h5, hueq]
      have hfu : (link u v p).nfreeblock = (link u v p).freelist.length := by
        rw [h1, h2, hueq]
      obtain ⟨hfits, hroom⟩ := ih hfu ht
      rw [hproc] at hfits hroom
      refine ⟨⟨fun _ => hp, hfits⟩, ?_⟩
      rw [List.countP_cons_of_pos (by simpa using hready)]
      by_cases hpages : s.kmem = [] ∧ s.pgqueue = []
      · obtain ⟨hless, -, -, hk, hq⟩ := allocSlab_dry hf hpages.1 hpages.2 hu
        left
        rcases hroom with hroom | hroom | hroom
        · omega
        · exact absurd (h3.trans hk) hroom
        · exact absurd (h4.trans hq) hroom
      · right
        exact not_and_or.mp hpages
    · rename_i hready
      obtain ⟨hfits, hroom⟩ := ih hf ht
      rw [List.countP_cons_of_neg (by simpa using hready)]
      exact ⟨⟨fun h => (hready h).elim, hfits⟩, hroom⟩

/-- The ready ones among these. -/
def readyAmong (s : Kernel) (l : List Slot) : List Slot := l.filter fun p => (s.proc p).stat = .READY

theorem rebuildFifo_eq (l : List Slot) : ∀ {s t : Kernel}, s.nfreeblock = s.freelist.length →
    rebuild insertFifo l s = .ok t → t.proc = s.proc ∧ t.scheme = s.scheme ∧
      t.rdyqueue.map Node.slot = s.rdyqueue.map Node.slot ++ readyAmong s l := by
  induction l with
  | nil =>
    intro s t _ ht
    cases ht
    exact ⟨rfl, rfl, (List.append_nil _).symm⟩
  | cons p l ih =>
    intro s t hf ht
    unfold rebuild at ht
    unfold readyAmong at ih ⊢
    split at ht
    · rename_i hready
      obtain ⟨w, hw, ht⟩ := bind_eq_ok.mp ht
      obtain ⟨-, u, v, hu, rfl⟩ := (links_fifo.eq_ok hf).mp hw
      obtain ⟨fl, km, pq, ls, rfl, -⟩ := allocSlab_eq hf hu
      obtain ⟨hproc, hscheme, hq⟩ := ih (s := linkFifo _ v p) rfl ht
      refine ⟨hproc, hscheme, hq.trans ?_⟩
      change (s.rdyqueue ++ [Node.mk v p]).map Node.slot ++ readyAmong s l = _
      rw [List.filter_cons_of_pos (by simpa using hready), List.map_append, List.append_assoc]
      rfl
    · rename_i hready
      rw [List.filter_cons_of_neg (by simpa using hready)]
      exact ih hf ht

theorem rebuildDy_eq (l : List Slot) : ∀ {s t : Kernel}, s.nfreeblock = s.freelist.length →
    rebuild insertDy l s = .ok t → t.proc = s.proc ∧ t.scheme = s.scheme ∧
      ∀ i, (t.rdyQDy i).map Node.slot = (s.rdyQDy i).map Node.slot ++
        (readyAmong s l).filter fun p => dyIndex (s.proc p) = i := by
  induction l with
  | nil =>
    intro s t _ ht
    cases ht
    exact ⟨rfl, rfl, fun i => (List.append_nil _).symm⟩
  | cons p l ih =>
    intro s t hf ht
    unfold rebuild at ht
    unfold readyAmong at ih ⊢
    split at ht
    · rename_i hready
      obtain ⟨w, hw, ht⟩ := bind_eq_ok.mp ht
      obtain ⟨-, u, v, hu, rfl⟩ := (links_dy.eq_ok hf).mp hw
      obtain ⟨fl, km, pq, ls, rfl, -⟩ := allocSlab_eq hf hu
      obtain ⟨hproc, hscheme, hq⟩ := ih (s := linkDy _ v p) rfl ht
      refine ⟨hproc, hscheme, ?_⟩
      intro i
      refine (hq i).trans ?_
      change (Function.update s.rdyQDy (dyIndex (s.proc p)) (s.rdyQDy (dyIndex (s.proc p)) ++ [Node.mk v p])
        i).map Node.slot ++ (readyAmong s l).filter (fun p => dyIndex (s.proc p) = i) = _
      rw [List.filter_cons_of_pos (by simpa using hready)]
      by_cases hi : dyIndex (s.proc p) = i
      · rw [← hi, Function.update_self, List.map_append, List.append_assoc,
          List.filter_cons_of_pos (by simp)]
        rfl
      · rw [Function.update_of_ne (Ne.symm hi), List.filter_cons_of_neg (by simpa using hi)]
        rfl
    · rename_i hready
      rw [List.filter_cons_of_neg (by simpa using hready)]
      exact ih hf ht

theorem count_readyAmong (s : Kernel) (p : Slot) :
    (readyAmong s slots).count p = if (s.proc p).stat = .READY then 1 else 0 := by
  have hnodup : slots.Nodup := List.nodup_finRange _
  have hmem : p ∈ slots := List.mem_finRange p
  unfold readyAmong
  split
  · rename_i hready
    rw [List.count_filter (by simpa using hready)]
    exact List.count_eq_one_of_mem hnodup hmem
  · rename_i hready
    rw [List.count_eq_zero]
    intro h
    simpa [hready] using List.of_mem_filter h

/-! ### The sweep -/

theorem Tidy.nil (s : Kernel) : Tidy s [] := by
  refine ⟨List.forall_mem_nil _, ?_⟩
  intro a v b h
  exact absurd h.symm (by simp)

/-- A tidy loop frees nothing: it would go on from the node it has freed. -/
theorem fifoSweep_tidy {l : List Node} (hu : u.proc = s.proc)
    (h : ∀ a v b, fifoTouches s l = a ++ .free v :: b → ∀ x ∈ b, x.addr ≠ v) :
    fifoSweep u l = .ok (l, none) ∧ ∀ e ∈ l, (s.proc e.slot).stat = .READY := by
  induction l with
  | nil => exact ⟨rfl, List.forall_mem_nil _⟩
  | cons e l ih =>
    by_cases hready : (s.proc e.slot).stat = .READY
    · rw [fifoTouches, if_pos hready] at h
      obtain ⟨hsweep, hall⟩ := ih fun a v b hb =>
        h (.slot e.addr :: .link e.addr :: a) v b (by rw [hb, List.cons_append, List.cons_append])
      refine ⟨?_, List.forall_mem_cons.mpr ⟨hready, hall⟩⟩
      rw [fifoSweep, hu, if_pos hready, hsweep]
      rfl
    · rw [fifoTouches, if_neg hready] at h
      exact absurd rfl (h [.slot e.addr] e.addr [.link e.addr] rfl (.link e.addr) List.mem_cons_self)

theorem prioritySweep_tidy (hr : Ranged (s.proc p))
    (h : ∀ a v b, priorityTouches s p = a ++ .free v :: b → ∀ x ∈ b, x.addr ≠ v) :
    prioritySweep s p = .ok s := by
  unfold prioritySweep
  rw [bind_eq_ok]
  refine ⟨_, dyQueue_eq_ok.mpr ⟨hr, rfl⟩, ?_⟩
  unfold priorityTouches at h
  split
  · rfl
  · rfl
  · rename_i e l hq hne
    obtain ⟨d, m, hd⟩ := List.exists_cons_of_ne_nil hne
    rw [hq, hd] at h
    exact absurd rfl (h [] e.addr [.link e.addr] rfl (.link e.addr) List.mem_cons_self)

/-! ### When the queues are right -/

theorem fifo_rebuilds_iff {r : Running} (hf : s.nfreeblock = s.freelist.length) (hcur : s.cur = some r) :
    Rebuilds s r.slot .FIFO ↔ s.rdyqueue = [] ∧ Room s (readyCount s) := by
  have hselect : selectScheme s .FIFO = fifoInit { s with scheme := .FIFO } := by
    rw [selectScheme, hcur]
    rfl
  constructor
  · rintro ⟨htidy, t, ht, hscheme, hexact⟩
    rw [hselect, fifoInit] at ht
    obtain ⟨⟨l, x⟩, hl, ht⟩ := bind_eq_ok.mp ht
    obtain ⟨hsweep, hready⟩ := fifoSweep_tidy (s := s) (u := { s with scheme := .FIFO }) rfl htidy.freed
    cases Except.ok.inj (hl.symm.trans hsweep)
    change rebuild insertFifo slots { s with scheme := .FIFO } = .ok t at ht
    refine ⟨?_, (rebuild_needs (s := { s with scheme := .FIFO }) links_fifo slots hf ht).2⟩
    obtain ⟨hproc, -, hq⟩ := rebuildFifo_eq (s := { s with scheme := .FIFO }) slots hf ht
    rw [List.eq_nil_iff_forall_not_mem]
    intro e he
    unfold Exact at hexact
    rw [hscheme] at hexact
    have honce := hexact e.slot
    change t.proc = s.proc at hproc
    change t.rdyqueue.map Node.slot = s.rdyqueue.map Node.slot ++ readyAmong s slots at hq
    have hpos := List.count_pos_iff.mpr (List.mem_map_of_mem (f := Node.slot) he)
    -- the entry that stays, and the one that `rebuild` adds
    rw [hq, List.count_append, count_readyAmong, hproc, if_pos (hready e he)] at honce
    omega
  · rintro ⟨hempty, hroom⟩
    obtain ⟨t, ht⟩ := rebuild_ok (s := { s with scheme := .FIFO }) links_fifo slots hf (fun _ _ _ => trivial)
      (by decide) hroom
    obtain ⟨hproc, hscheme, hq⟩ := rebuildFifo_eq (s := { s with scheme := .FIFO }) slots hf ht
    have htouches : touches s r.slot .FIFO = [] := by
      rw [touches, hempty]
      rfl
    refine ⟨htouches ▸ Tidy.nil s, t, ?_, hscheme, ?_⟩
    · rw [hselect, fifoInit, bind_eq_ok]
      refine ⟨([], none), ?_, ?_⟩
      · dsimp only
        rw [hempty]
        rfl
      · rw [← ht, ← hempty]
        rfl
    · unfold Exact
      rw [hscheme]
      intro q
      rw [hq, hproc, List.count_append, hempty]
      exact (Nat.zero_add _).trans (count_readyAmong s q)

theorem count_filter_dyIndex (hr : ∀ q, (s.proc q).stat = .READY → Ranged (s.proc q)) (i : Nat) (q : Slot) :
    ((readyAmong s slots).filter fun p => dyIndex (s.proc p) = i).count q =
      if (s.proc q).stat = .READY ∧ (s.proc q).dpri = 100 + i then 1 else 0 := by
  have hcount := count_readyAmong s q
  have hindex : (s.proc q).stat = .READY → (dyIndex (s.proc q) = i ↔ (s.proc q).dpri = 100 + i) := by
    intro hready
    have hlow := (hr q hready).1
    unfold dyIndex Proc.MAX_RT_PRI
    omega
  by_cases hi : dyIndex (s.proc q) = i
  · rw [List.count_filter (by simpa using hi), hcount]
    by_cases hready : (s.proc q).stat = .READY
    · rw [if_pos hready, if_pos ⟨hready, (hindex hready).mp hi⟩]
    · rw [if_neg hready, if_neg fun h => hready h.1]
  · rw [if_neg fun h => hi ((hindex h.1).mpr h.2), List.count_eq_zero]
    intro hmem
    simpa [hi] using List.of_mem_filter hmem

theorem priority_rebuilds_iff {r : Running} (hf : s.nfreeblock = s.freelist.length)
    (hcur : s.cur = some r) :
    Rebuilds s r.slot .PRIORITY ↔ Clear s r.slot .PRIORITY ∧ Room s (readyCount s) := by
  have hselect : selectScheme s .PRIORITY = priorityInit { s with scheme := .PRIORITY } r.slot := by
    rw [selectScheme, hcur]
    rfl
  constructor
  · rintro ⟨htidy, t, ht, hscheme, hexact⟩
    rw [hselect, priorityInit] at ht
    obtain ⟨u, hsweep, ht⟩ := bind_eq_ok.mp ht
    have hrange : Ranged (s.proc r.slot) := by
      obtain ⟨i, hi, -⟩ := bind_eq_ok.mp hsweep
      exact (dyQueue_eq_ok.mp hi).1
    cases Except.ok.inj (hsweep.symm.trans
      (prioritySweep_tidy (s := { s with scheme := .PRIORITY }) hrange htidy.freed))
    obtain ⟨hready, hroom⟩ := rebuild_needs (s := { s with scheme := .PRIORITY }) links_dy slots hf ht
    obtain ⟨hproc, -, hq⟩ := rebuildDy_eq (s := { s with scheme := .PRIORITY }) slots hf ht
    have hranged : ∀ q, (s.proc q).stat = .READY → Ranged (s.proc q) :=
      fun q hq => hready q (List.mem_finRange q) hq
    refine ⟨⟨?_, hrange, hranged⟩, hroom⟩
    intro i hi
    rw [List.eq_nil_iff_forall_not_mem]
    intro e he
    unfold Exact at hexact
    rw [hscheme] at hexact
    have honce := hexact i hi e.slot
    have hqi : (t.rdyQDy i).map Node.slot = (s.rdyQDy i).map Node.slot ++
        (readyAmong s slots).filter fun p => dyIndex (s.proc p) = i := hq i
    change t.proc = s.proc at hproc
    have hpos := List.count_pos_iff.mpr (List.mem_map_of_mem (f := Node.slot) he)
    -- the entry that stays, and the one that `rebuild` adds if its process is ready
    rw [hqi, List.count_append, count_filter_dyIndex hranged, hproc] at honce
    split at honce <;> omega
  · rintro ⟨⟨hempty, hrange, hranged⟩, hroom⟩
    have hown : s.rdyQDy (dyIndex (s.proc r.slot)) = [] := by
      refine hempty _ ?_
      obtain ⟨hlow, hhigh⟩ := hrange
      unfold dyIndex Proc.MAX_RT_PRI Proc.NQUEUE
      omega
    have htouches : touches s r.slot .PRIORITY = [] := by
      rw [touches, priorityTouches, hown]
    obtain ⟨t, ht⟩ := rebuild_ok (s := { s with scheme := .PRIORITY }) links_dy slots hf
      (fun q _ hq => hranged q hq) (by decide) hroom
    obtain ⟨hproc, hscheme, hq⟩ := rebuildDy_eq (s := { s with scheme := .PRIORITY }) slots hf ht
    refine ⟨htouches ▸ Tidy.nil s, t, ?_, hscheme, ?_⟩
    · rw [hselect, priorityInit, bind_eq_ok]
      refine ⟨_, prioritySweep_tidy (s := { s with scheme := .PRIORITY }) hrange ?_, ht⟩
      change ∀ a v b, touches s r.slot .PRIORITY = a ++ .free v :: b → _
      rw [htouches]
      exact (Tidy.nil s).freed
    · unfold Exact
      rw [hscheme]
      intro i hi q
      rw [hq, hproc, List.count_append]
      dsimp only
      rw [hempty i hi]
      exact (Nat.zero_add _).trans (count_filter_dyIndex hranged i q)

/-- The free list and its counter agree in every run. -/
theorem run_free {kmem : List Nat} {proc : Slot → Pcb} {scheme : Scheme} {s₀ : Kernel} {as : List Act}
    (hb : boot kmem proc scheme = .ok s₀) (hr : Run (fun s a t => act s a = .ok t) s₀ as s) :
    s.nfreeblock = s.freelist.length := by
  have hinv : ∃ lost, Inv lost s := by
    refine hr.invariant (fun s => ∃ lost, Inv lost s) ⟨[], boot_inv hb⟩ ?_
    rintro t a u ⟨lost, h⟩ ht
    obtain ⟨ls, hinv, -⟩ := act_loses h ht
    exact ⟨ls ++ lost, hinv⟩
  obtain ⟨lost, h⟩ := hinv
  exact h.free

/-- The records of two processes in these states. -/
def pair (a b : Proc.Stat) : Slot → Pcb := fun p =>
  { Proc.unused with
    stat := if p.val = 0 then a else if p.val = 1 then b else .SUNUSED
    timeSlice := 100, spri := 120, dpri := 125 }

def pairActs : List Act :=
  [.procalloc, .procs (pair .READY .SUNUSED), .procalloc, .procs (pair .READY .READY), .sched]

def againActs : List Act :=
  pairActs ++ [.selectScheme .FIFO, .selectScheme .RR, .giveupCpu, .back, .sched,
    .procs (pair .READY .SSLEEPING), .back, .sched, .sched]

end Yonix.Slab
