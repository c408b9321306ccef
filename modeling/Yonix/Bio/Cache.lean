/-
  Yonix/Bio/Cache.lean
  ====================
  **The buffer cache in every run.**

  The searches of `bget` are read off the ring: the first loop finds the buffer of
  a block if there is one, and the second, which follows the back links from the
  head, finds the clean unreferenced buffer released longest ago.  With these and
  the moves of `Bio/Invariant.lean`, every step of every process keeps `Inv`, and
  the results about whole runs follow.
-/
import Yonix.Bio.Invariant

namespace Yonix.Bio

variable {P : Type} [DecidableEq P] [Fintype P]

/-! ### The searches of `bget` -/

theorem length_le_of_nodup {l : List BufId} (h : l.Nodup) : l.length < NBUF + 1 := by
  have := h.length_le_card
  rw [Fintype.card_fin] at this
  exact Nat.lt_succ_of_le this

theorem lookup_some {s : Cache P} {blk : Nat} {b : BufId}
    (hb : lookup s blk = some b) : (s.buf b).dev = DEV ∧ (s.buf b).blockno = blk := by
  have := List.find?_some hb
  simpa using this

theorem Inv.lookup_none {s : Cache P} (h : Inv s) {blk : Nat} (hn : lookup s blk = none)
    (b : BufId) (hdev : (s.buf b).dev = DEV) : (s.buf b).blockno ≠ blk := by
  obtain ⟨l, hl, hall, -⟩ := h.ring
  rw [lookup, hl.2.walkNext_eq (length_le_of_nodup hl.1), List.find?_eq_none] at hn
  have := hn b (hall b)
  simpa [hdev] using this

/-- The clean unreferenced buffer whose last release is oldest. -/
def Cache.IsOldest (s : Cache P) (b : BufId) : Prop :=
  (s.buf b).refcnt = 0 ∧ (s.buf b).dirty = false ∧
    ∀ c, c ≠ b → (s.buf c).refcnt = 0 → (s.buf c).dirty = false →
      s.rel b < s.rel c ∨ (s.rel b = 0 ∧ s.rel c = 0)

theorem Inv.victim_isOldest {s : Cache P} (h : Inv s) {b : BufId} (hb : victim s = some b) :
    s.IsOldest b := by
  obtain ⟨l, hl, hall, hpw⟩ := h.ring
  rw [victim, hl.2.walkPrev_eq (length_le_of_nodup hl.1), List.find?_eq_some_iff_append] at hb
  obtain ⟨hclean, as, bs, hsplit, has⟩ := hb
  simp only [decide_eq_true_eq] at hclean
  refine ⟨hclean.1, hclean.2, ?_⟩
  intro c hcb href hdirty
  have hc : c ∈ as ++ b :: bs := by
    rw [← hsplit, List.mem_reverse]
    exact hall c
  have hcbs : c ∈ bs := by
    rcases List.mem_append.mp hc with hc | hc
    · have := has c hc
      simp [href, hdirty] at this
    · rcases List.mem_cons.mp hc with hc | hc
      · exact absurd hc hcb
      · exact hc
  -- `c` is nearer the front than `b`
  have hpw' : (as ++ b :: bs).Pairwise (fun x y => Newer s y x) := by
    rw [← hsplit, List.pairwise_reverse]
    exact hpw
  have hnewer : Newer s c b := (List.pairwise_cons.mp (List.pairwise_append.mp hpw').2.1).1 c hcbs
  rcases hnewer href hclean.1 with hlt | ⟨hc0, hb0⟩
  · exact Or.inl hlt
  · exact Or.inr ⟨hb0, hc0⟩

/-! ### Every step keeps the invariant -/

theorem Inv.binit (disk : Nat → Block) : Inv (binit disk : Cache P) := by
  constructor
  case ring =>
    have hlink := Ring.linked_empty.foldl_insertHead (List.nodup_finRange NBUF)
      (fun b _ => List.not_mem_nil)
    refine ⟨_, hlink, ?_, ?_⟩
    · intro b
      simp [List.mem_finRange]
    · apply List.pairwise_of_forall
      intro x y _ _
      exact Or.inr ⟨rfl, rfl⟩
  all_goals simp [Bio.binit, waiters, Pc.waits, NODEV, DEV]

/-- A process that is returned a buffer holds it, under the block it asked for,
    and finds there what was last announced for that block. -/
def Returned (t : Cache P) (p : P) (blk : Nat) (b : BufId) : Prop :=
  t.Owns p b ∧ (t.buf b).dev = DEV ∧ (t.buf b).blockno = blk ∧ (t.buf b).data = t.spec blk

theorem iderw_eq_ok {s t : Cache P} {b : BufId} (h : iderw s b = .ok t) :
    t = { s with idequeue := s.idequeue ++ [b] } := by
  unfold iderw idestart at h
  grind -ring -linarith

theorem iderw_setPc (s : Cache P) (p : P) (v : Pc) (b : BufId) :
    iderw (s.setPc p v) b = (iderw s b).map fun t => t.setPc p v := by
  unfold iderw idestart
  simp only [Cache.setPc]
  by_cases hlock : (s.buf b).lock = none
  · simp only [hlock, if_true, Except.map]
  by_cases hclean : (s.buf b).valid = true ∧ (s.buf b).dirty = false
  · simp only [hlock, hclean, if_true, if_false, and_self, Except.map]
  by_cases hempty : s.idequeue = []
  · by_cases hsize : FSSIZE ≤ (s.buf b).blockno
    · simp only [hlock, hclean, hempty, hsize, if_true, if_false, Except.map]
    · simp only [hlock, hclean, hempty, hsize, if_true, if_false, Except.map]
  · simp only [hlock, hclean, hempty, if_false, Except.map]

-- `acquire` overwrites the position of its caller
theorem acquire_setPc (s : Cache P) (p : P) (v : Pc) (b : BufId) (blk : Nat) :
    acquire (s.setPc p v) p b blk = acquire s p b blk := by
  have hpp : ∀ (u : Cache P) (w : Pc), (u.setPc p v).setPc p w = u.setPc p w := by
    intro u w
    simp only [Cache.setPc, Function.update_idem]
  have hset : (s.setPc p v).setBuf b (fun f => { f with lock := some p }) =
      (s.setBuf b fun f => { f with lock := some p }).setPc p v := rfl
  have hbuf : ∀ u : Cache P, (u.setPc p v).buf = u.buf := fun _ => rfl
  unfold acquire
  simp only [hpp, hset, hbuf, iderw_setPc]
  split_ifs with hlock hvalid
  · rfl
  · rfl
  · cases iderw (s.setBuf b fun f => { f with lock := some p }) b with
    | error e => rfl
    | ok u => exact congrArg (fun c => Except.ok (c, none)) (hpp u _)

theorem Inv.acquire {s t : Cache P} (h : Inv s) {p : P} {b : BufId} {blk : Nat} {r : Option BufId}
    (hp : s.pc p = .acquire b blk) (ht : acquire s p b blk = .ok (t, r)) :
    Inv t ∧ ∀ c, r = some c → Returned t p blk c := by
  unfold Bio.acquire at ht
  split at ht
  · -- the lock is taken: asleep again
    cases ht
    refine ⟨?_, by simp⟩
    have : s.setPc p (.acquire b blk) = s := by
      simp only [Cache.setPc, ← hp, Function.update_eq_self]
    rw [this]
    exact h
  · rename_i hlock
    rw [not_not] at hlock
    have hcount := h.count b
    have hdev : (s.buf b).dev = DEV := by
      apply h.used
      have hmem : p ∈ waiters s.pc b := by
        rw [waiters, Finset.mem_filter, hp]
        exact ⟨Finset.mem_univ p, decide_eq_true rfl⟩
      have := Finset.card_pos.mpr ⟨p, hmem⟩
      omega
    have hblk : (s.buf b).blockno = blk := h.waitLabel p b blk hp
    have hpend : s.pend b = false := by
      by_contra hne
      have := h.pendHeld b (by simpa using hne)
      rw [hlock] at this
      cases this
    simp only [Cache.setBuf, Function.update_self] at ht
    split at ht
    · rename_i hvalid
      cases ht
      refine ⟨h.acquireValid hp hlock hvalid, ?_⟩
      intro c hc
      cases hc
      have hdata := h.data b hdev hvalid hpend
      rw [hblk] at hdata
      refine ⟨⟨?_, ?_⟩, ?_, ?_, ?_⟩ <;> simp [Cache.setPc, hdev, hblk, hdata]
    · rename_i hvalid
      obtain ⟨u, hu, ht⟩ := bind_eq_ok.mp ht
      cases ht
      refine ⟨?_, by simp⟩
      rw [iderw_eq_ok hu]
      exact h.acquireRead hp hlock (by simpa using hvalid)

/-- What a step does besides keeping the invariant: a buffer that gets another
    label was the oldest clean one, and a process that is returned a buffer finds
    the announced bytes in it. -/
structure StepOk (s t : Cache P) (r : Option (Ret P)) : Prop where
  inv : Inv t
  relabel : ∀ b, (t.buf b).dev ≠ (s.buf b).dev ∨ (t.buf b).blockno ≠ (s.buf b).blockno →
    s.IsOldest b
  ret : ∀ x, r = some x → Returned t x.p x.blk x.b

/-- The labels change only in `bget`. -/
theorem acquire_label {s t : Cache P} {p : P} {b : BufId} {blk : Nat} {r : Option BufId}
    (ht : acquire s p b blk = .ok (t, r)) (c : BufId) :
    (t.buf c).dev = (s.buf c).dev ∧ (t.buf c).blockno = (s.buf c).blockno := by
  unfold acquire at ht
  split at ht
  · cases ht
    exact ⟨rfl, rfl⟩
  · dsimp only at ht
    split at ht
    · cases ht
      simp only [Cache.setPc, Cache.setBuf, Function.update_apply]
      grind -ring -linarith
    · obtain ⟨u, hu, ht⟩ := bind_eq_ok.mp ht
      cases ht
      rw [iderw_eq_ok hu]
      simp only [Cache.setPc, Cache.setBuf, Function.update_apply]
      grind -ring -linarith

theorem Inv.bread {s t : Cache P} (h : Inv s) {p : P} (hp : s.pc p = .run) {blk : Nat}
    {r : Option BufId} (ht : bread s p blk = .ok (t, r)) :
    Inv t ∧ (∀ c, r = some c → Returned t p blk c) ∧
    ∀ b, (t.buf b).dev ≠ (s.buf b).dev ∨ (t.buf b).blockno ≠ (s.buf b).blockno → s.IsOldest b := by
  unfold Bio.bread bgetEnter at ht
  cases hl : lookup s blk with
  | some b =>
    obtain ⟨hdev, hblk⟩ := lookup_some hl
    simp only [hl] at ht
    change Bio.acquire _ p b blk = _ at ht
    have hinv := (h.enterHit hp hdev hblk).acquire (by simp [Cache.setPc])
      ((acquire_setPc _ _ _ _ _).trans ht)
    refine ⟨hinv.1, hinv.2, ?_⟩
    intro c hc
    have := acquire_label ht c
    simp only [Cache.setBuf, Function.update_apply] at this
    grind -ring -linarith
  | none =>
    simp only [hl] at ht
    cases hv : victim s with
    | none =>
      simp only [hv] at ht
      cases ht
    | some b =>
      have hold := h.victim_isOldest hv
      simp only [hv] at ht
      change Bio.acquire _ p b blk = _ at ht
      have hinv := (h.enterMiss hp (h.lookup_none hl) hold.1 hold.2.1).acquire
        (by simp [Cache.setPc]) ((acquire_setPc _ _ _ _ _).trans ht)
      refine ⟨hinv.1, hinv.2, ?_⟩
      intro c hc
      have := acquire_label ht c
      by_cases hcb : c = b
      · rw [hcb]
        exact hold
      · simp only [Cache.setBuf, Function.update_apply, hcb, if_false] at this
        grind -ring -linarith

theorem ideintr_eq_ok {s t : Cache P} (h : ideintr s = .ok t) :
    t = s ∨ ∃ b q, s.idequeue = b :: q ∧
      t = (transfer { s with idequeue := q } b).setBuf b fun f =>
        { f with valid := true, dirty := false } := by
  unfold ideintr at h
  split at h
  · cases h
    exact Or.inl rfl
  · rename_i b q hq
    right
    refine ⟨b, q, hq, ?_⟩
    dsimp only at h
    split at h
    · cases h
      rfl
    · unfold idestart at h
      grind -ring -linarith

theorem Inv.bwrite {s t : Cache P} (h : Inv s) {p : P} {b : BufId} (hp : s.Owns p b)
    (ht : bwrite s p b = .ok t) : Inv t := by
  have hlock : (s.buf b).lock ≠ none := by
    rw [hp.2]
    exact Option.some_ne_none p
  simp only [Bio.bwrite, hlock, if_false] at ht
  obtain ⟨u, hu, ht⟩ := bind_eq_ok.mp ht
  cases ht
  rw [iderw_eq_ok hu]
  apply (h.logWrite hp).enqueueWrite hp.1
  · simp [Bio.logWrite, Cache.setBuf, hp.2]
  · simp [Bio.logWrite, Cache.setBuf]
  · simp [Bio.logWrite]

/-- **One step.** -/
theorem Inv.exec {s t : Cache P} (h : Inv s) {a : Act P} {r : Option (Ret P)}
    (ht : exec s a = .ok (t, r)) : StepOk s t r := by
  -- only `bread` touches a label
  have hsame : (∀ b, (t.buf b).dev = (s.buf b).dev ∧ (t.buf b).blockno = (s.buf b).blockno) →
      ∀ b, (t.buf b).dev ≠ (s.buf b).dev ∨ (t.buf b).blockno ≠ (s.buf b).blockno →
        s.IsOldest b := by
    intro hlabel b hb
    have := hlabel b
    grind -ring -linarith
  cases a with
  | bread p blk =>
    simp only [Bio.exec] at ht
    split at ht
    case isFalse => cases ht
    case isTrue hp =>
      obtain ⟨⟨u, r'⟩, hu, ht⟩ := bind_eq_ok.mp ht
      cases ht
      obtain ⟨hinv, hret, hrel⟩ := h.bread hp (liftPanic_eq_ok.mp hu)
      refine ⟨hinv, hrel, ?_⟩
      intro x hx
      obtain ⟨c, hc, rfl⟩ := Option.map_eq_some_iff.mp hx
      exact hret c hc
  | wake p =>
    simp only [Bio.exec] at ht
    split at ht
    case h_1 => cases ht
    case h_2 b blk hp =>
      obtain ⟨⟨u, r'⟩, hu, ht⟩ := bind_eq_ok.mp ht
      cases ht
      have hacq := liftPanic_eq_ok.mp hu
      obtain ⟨hinv, hret⟩ := h.acquire hp hacq
      refine ⟨hinv, hsame (acquire_label hacq), ?_⟩
      intro x hx
      obtain ⟨c, hc, rfl⟩ := Option.map_eq_some_iff.mp hx
      exact hret c hc
    case h_3 b k hp =>
      split at ht
      case isFalse =>
        cases ht
        exact ⟨h, hsame fun _ => ⟨rfl, rfl⟩, by simp⟩
      case isTrue hdone =>
        cases ht
        refine ⟨h.ioReturn hp hdone.1 hdone.2, hsame fun _ => ⟨rfl, rfl⟩, ?_⟩
        intro x hx
        cases k with
        | write => cases hx
        | read blk =>
          cases hx
          have hlock := h.ioLock p b _ hp
          have hblk := h.ioLabel p b blk hp
          have hdev : (s.buf b).dev = DEV := by
            apply h.used
            have := h.count b
            rw [hlock, Option.isSome_some, if_pos rfl] at this
            omega
          have hdata := h.data b hdev hdone.1 (h.ioPend p b _ hp)
          rw [hblk] at hdata
          refine ⟨⟨?_, hlock⟩, hdev, hblk, hdata⟩
          simp [Cache.setPc]
  | ideintr =>
    simp only [Bio.exec] at ht
    obtain ⟨u, hu, ht⟩ := bind_eq_ok.mp ht
    cases ht
    rcases ideintr_eq_ok (liftPanic_eq_ok.mp hu) with rfl | ⟨b, q, hq, rfl⟩
    · exact ⟨h, hsame fun _ => ⟨rfl, rfl⟩, by simp⟩
    · refine ⟨h.transfer hq, hsame ?_, by simp⟩
      intro c
      unfold Bio.transfer
      split <;> simp only [Cache.setBuf, Function.update_apply] <;> grind -ring -linarith
  | modify p b x =>
    simp only [Bio.exec] at ht
    split at ht
    case isFalse => cases ht
    case isTrue hp =>
      cases ht
      refine ⟨h.modify hp x, hsame ?_, by simp⟩
      intro c
      simp only [Cache.setBuf, Function.update_apply]
      grind -ring -linarith
  | logWrite p b =>
    simp only [Bio.exec] at ht
    split at ht
    case isFalse => cases ht
    case isTrue hp =>
      cases ht
      refine ⟨h.logWrite hp, hsame ?_, by simp⟩
      intro c
      simp only [Bio.logWrite, Cache.setBuf, Function.update_apply]
      grind -ring -linarith
  | bwrite p b =>
    simp only [Bio.exec] at ht
    split at ht
    case isFalse => cases ht
    case isTrue hp =>
      obtain ⟨u, hu, ht⟩ := bind_eq_ok.mp ht
      cases ht
      have hbw := liftPanic_eq_ok.mp hu
      refine ⟨h.bwrite hp hbw, hsame ?_, by simp⟩
      intro c
      simp only [Bio.bwrite] at hbw
      split at hbw
      · cases hbw
      · obtain ⟨w, hw, hbw⟩ := bind_eq_ok.mp hbw
        cases hbw
        rw [iderw_eq_ok hw]
        simp only [Bio.logWrite, Cache.setPc, Cache.setBuf, Function.update_apply]
        grind -ring -linarith
  | brelse p b =>
    simp only [Bio.exec] at ht
    split at ht
    case isFalse => cases ht
    case isTrue hp =>
      obtain ⟨u, hu, ht⟩ := bind_eq_ok.mp ht
      cases ht
      have hbr := liftPanic_eq_ok.mp hu
      refine ⟨h.brelse hp.1 hp.2 hbr, hsame ?_, by simp⟩
      intro c
      simp only [Bio.brelse, hp.1.2, reduceCtorEq, if_false] at hbr
      split at hbr <;> cases hbr <;> simp only [Cache.setBuf, Function.update_apply] <;> grind -ring -linarith

/-! ### Whole runs -/

theorem Inv.of_run {disk : Nat → Block} {as : List (Act P)} {s : Cache P}
    (hrun : Run Step (Bio.binit disk) as s) : Inv s := by
  apply hrun.invariant Inv (Inv.binit disk)
  intro t a u ht hstep
  obtain ⟨r, hr⟩ := hstep
  exact (ht.exec hr).inv

def holders (s : Cache P) (b : BufId) : Finset P :=
  Finset.univ.filter fun p => (s.buf b).lock = some p

theorem card_holders (s : Cache P) (b : BufId) :
    (holders s b).card = if (s.buf b).lock.isSome then 1 else 0 := by
  unfold holders
  cases hl : (s.buf b).lock with
  | none => simp
  | some q => simp [Finset.filter_eq]

/-- **The buffer cache.**  In every run the ring goes through every buffer once, no
    block of the device has two buffers, and a reference count counts the holder
    and the waiters.  A step relabels only the oldest clean unreferenced buffer, and
    a `bread` that returns finds the bytes last announced for its block. -/
theorem bcache_correct {disk : Nat → Block} {as : List (Act P)} {s : Cache P}
    (hrun : Run Step (binit disk) as s) :
    (∃ l, s.ring.Linked l ∧ ∀ b, b ∈ l) ∧
    (∀ a b, (s.buf a).dev = DEV → (s.buf b).dev = DEV →
      (s.buf a).blockno = (s.buf b).blockno → a = b) ∧
    (∀ b, (s.buf b).refcnt = (holders s b).card + (waiters s.pc b).card) ∧
    (∀ a t r, exec s a = .ok (t, r) →
      (∀ b, (t.buf b).dev ≠ (s.buf b).dev ∨ (t.buf b).blockno ≠ (s.buf b).blockno →
        s.IsOldest b) ∧
      ∀ x, r = some x → Returned t x.p x.blk x.b) := by
  have hinv := Inv.of_run hrun
  refine ⟨?_, hinv.uniq, ?_, ?_⟩
  · obtain ⟨l, hl, hall, -⟩ := hinv.ring
    exact ⟨l, hl, hall⟩
  · intro b
    rw [hinv.count b, card_holders]
  · intro a t r ht
    exact ⟨(hinv.exec ht).relabel, (hinv.exec ht).ret⟩

theorem bcache_correct_one_block :
    ∃ s : Cache (Fin 2), Run Step (binit fun _ => Bytes.zero)
        [.bread 0 5, .ideintr, .wake 0, .logWrite 0 ⟨0, by decide⟩, .bread 1 5] s ∧
      (s.buf ⟨0, by decide⟩).refcnt = 2 ∧
      ∀ b, (s.buf b).refcnt = (holders s b).card + (waiters s.pc b).card := by
  have hrun : Run Step (binit fun _ => Bytes.zero : Cache (Fin 2))
      [.bread 0 5, .ideintr, .wake 0, .logWrite 0 ⟨0, by decide⟩, .bread 1 5] _ :=
    Run.cons ⟨_, rfl⟩ (Run.cons ⟨_, rfl⟩ (Run.cons ⟨_, rfl⟩ (Run.cons ⟨_, rfl⟩
      (Run.single ⟨_, rfl⟩))))
  exact ⟨_, hrun, rfl, (bcache_correct hrun).2.2.1⟩

end Yonix.Bio
