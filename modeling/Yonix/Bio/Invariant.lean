/-
  Yonix/Bio/Invariant.lean
  ========================
  **What holds of the buffer cache in every interleaving.**

  `Inv` is the conjunction that makes the induction go through.  Its parts are the
  ring with its LRU order, the labels, the reference counts, the position of each
  process relative to the lock and the request of its buffer, and the contents: a
  valid buffer whose change has been announced holds the announced bytes, and the
  disk holds them unless a dirty buffer does.

  Each call of the interface is a chain of elementary moves, and there is one
  lemma per move.  A `bread` first becomes a waiter for its buffer (`enterHit`,
  `enterMiss`) and then does what any waiter does that finds the lock free, so the
  calls from `bread` and from a wake-up share the lemmas for the rest.
-/
import Yonix.Bio.Model

namespace Yonix.Bio

variable {P : Type} [DecidableEq P] [Fintype P]

/-! ### Waiters -/

def Pc.waits (pc : Pc) (b : BufId) : Bool :=
  match pc with
  | .acquire c _ => decide (c = b)
  | _ => false

def waiters (pc : P → Pc) (b : BufId) : Finset P := Finset.univ.filter fun p => (pc p).waits b

/-- Moving one process changes the number of waiters by what that process did. -/
theorem card_waiters_update (pc : P → Pc) (p : P) (v : Pc) (b : BufId) :
    (waiters (Function.update pc p v) b).card + (if (pc p).waits b then 1 else 0) =
      (waiters pc b).card + (if v.waits b then 1 else 0) := by
  have hsum : ∀ f : P → Pc, (waiters f b).card =
      (if (f p).waits b then 1 else 0) +
        ∑ q ∈ Finset.univ.erase p, if (f q).waits b then 1 else 0 := by
    intro f
    rw [waiters, Finset.card_filter]
    exact (Finset.add_sum_erase _ _ (Finset.mem_univ p)).symm
  have hrest : (∑ q ∈ Finset.univ.erase p, if (Function.update pc p v q).waits b then 1 else 0) =
      ∑ q ∈ Finset.univ.erase p, if (pc q).waits b then 1 else 0 := by
    apply Finset.sum_congr rfl
    intro q hq
    rw [Function.update_of_ne (Finset.ne_of_mem_erase hq)]
  rw [hsum, hsum, hrest, Function.update_self]
  omega

/-! ### The invariant -/

/-- Of two unreferenced buffers, the one nearer the front was released later,
    unless neither ever was. -/
def Newer (s : Cache P) (a b : BufId) : Prop :=
  (s.buf a).refcnt = 0 → (s.buf b).refcnt = 0 → s.rel b < s.rel a ∨ (s.rel a = 0 ∧ s.rel b = 0)

structure Inv (s : Cache P) : Prop where
  ring : ∃ l, s.ring.Linked l ∧ (∀ b, b ∈ l) ∧ l.Pairwise (Newer s)
  clock : ∀ b, s.rel b ≤ s.clock
  uniq : ∀ a b, (s.buf a).dev = DEV → (s.buf b).dev = DEV →
    (s.buf a).blockno = (s.buf b).blockno → a = b
  count : ∀ b, (s.buf b).refcnt =
    (if (s.buf b).lock.isSome then 1 else 0) + (waiters s.pc b).card
  used : ∀ b, (s.buf b).refcnt ≠ 0 → (s.buf b).dev = DEV
  waitLabel : ∀ p b blk, s.pc p = .acquire b blk → (s.buf b).blockno = blk
  ioLock : ∀ p b k, s.pc p = .io b k → (s.buf b).lock = some p
  ioLabel : ∀ p b blk, s.pc p = .io b (.read blk) → (s.buf b).blockno = blk
  ioPend : ∀ p b k, s.pc p = .io b k → s.pend b = false
  queued : ∀ b ∈ s.idequeue, ∃ p k, s.pc p = .io b k
  nodup : s.idequeue.Nodup
  waiting : ∀ b ∈ s.idequeue, ¬ ((s.buf b).valid = true ∧ (s.buf b).dirty = false)
  pendHeld : ∀ b, s.pend b = true → (s.buf b).lock.isSome
  held : ∀ p b, (s.buf b).lock = some p → (∀ k, s.pc p ≠ .io b k) → (s.buf b).valid = true
  dirtyValid : ∀ b, (s.buf b).dirty = true → (s.buf b).valid = true ∧ (s.buf b).dev = DEV
  data : ∀ b, (s.buf b).dev = DEV → (s.buf b).valid = true → s.pend b = false →
    (s.buf b).data = s.spec (s.buf b).blockno
  disk : ∀ blk, (∀ b, (s.buf b).dev = DEV → (s.buf b).blockno = blk → (s.buf b).dirty = false) →
    s.disk blk = s.spec blk

theorem Inv.enterHit {s : Cache P} (h : Inv s) {p : P} (hp : s.pc p = .run) {b : BufId} {blk : Nat}
    (hdev : (s.buf b).dev = DEV) (hblk : (s.buf b).blockno = blk) :
    Inv ((s.setBuf b fun f => { f with refcnt := f.refcnt + 1 }).setPc p (.acquire b blk)) := by
  constructor
  case ring =>
    obtain ⟨l, hl, hall, hpw⟩ := h.ring
    refine ⟨l, hl, hall, hpw.imp ?_⟩
    simp only [Newer, Cache.setBuf, Cache.setPc, Function.update_apply]
    grind -ring -linarith
  all_goals
    simp only [Cache.setBuf, Cache.setPc, Function.update_apply]
  case count =>
    intro c
    have := card_waiters_update s.pc p (.acquire b blk) c
    have := h.count c
    grind -ring -linarith [Pc.waits]
  all_goals grind -ring -linarith [Inv]

theorem Inv.enterMiss {s : Cache P} (h : Inv s) {p : P} (hp : s.pc p = .run) {b : BufId} {blk : Nat}
    (hnone : ∀ c, (s.buf c).dev = DEV → (s.buf c).blockno ≠ blk)
    (href : (s.buf b).refcnt = 0) (hdirty : (s.buf b).dirty = false) :
    Inv ((s.setBuf b fun f => { f with
      dev := DEV, blockno := blk, valid := false, dirty := false, refcnt := 1 }).setPc p
        (.acquire b blk)) := by
  have hcount := h.count b
  have hlock : (s.buf b).lock = none := by
    cases hl : (s.buf b).lock with
    | none => rfl
    | some q =>
      rw [href, hl, Option.isSome_some, if_pos rfl] at hcount
      omega
  have hwait : waiters s.pc b = ∅ := by
    rw [← Finset.card_eq_zero]
    omega
  have hnowait : ∀ q blk', s.pc q ≠ .acquire b blk' := by
    intro q blk' hq
    have : q ∈ waiters s.pc b := by
      rw [waiters, Finset.mem_filter, hq]
      exact ⟨Finset.mem_univ q, decide_eq_true rfl⟩
    rw [hwait] at this
    exact Finset.notMem_empty q this
  constructor
  case ring =>
    obtain ⟨l, hl, hall, hpw⟩ := h.ring
    refine ⟨l, hl, hall, hpw.imp ?_⟩
    simp only [Newer, Cache.setBuf, Cache.setPc, Function.update_apply]
    grind -ring -linarith
  all_goals
    simp only [Cache.setBuf, Cache.setPc, Function.update_apply]
  case count =>
    intro c
    have := card_waiters_update s.pc p (.acquire b blk) c
    have := h.count c
    grind -ring -linarith [Pc.waits]
  all_goals grind -ring -linarith [Inv]

theorem Inv.acquireValid {s : Cache P} (h : Inv s) {p : P} {b : BufId} {blk : Nat}
    (hp : s.pc p = .acquire b blk) (hlock : (s.buf b).lock = none)
    (hvalid : (s.buf b).valid = true) :
    Inv ((s.setBuf b fun f => { f with lock := some p }).setPc p .run) := by
  constructor
  case ring =>
    obtain ⟨l, hl, hall, hpw⟩ := h.ring
    refine ⟨l, hl, hall, hpw.imp ?_⟩
    simp only [Newer, Cache.setBuf, Cache.setPc, Function.update_apply]
    grind -ring -linarith
  all_goals
    simp only [Cache.setBuf, Cache.setPc, Function.update_apply]
  case count =>
    intro c
    have := card_waiters_update s.pc p .run c
    have := h.count c
    grind -ring -linarith [Pc.waits]
  all_goals grind -ring -linarith [Inv]

theorem Inv.acquireRead {s : Cache P} (h : Inv s) {p : P} {b : BufId} {blk : Nat}
    (hp : s.pc p = .acquire b blk) (hlock : (s.buf b).lock = none)
    (hvalid : (s.buf b).valid = false) :
    Inv ({ s.setBuf b (fun f => { f with lock := some p }) with
      idequeue := s.idequeue ++ [b] }.setPc p (.io b (.read blk))) := by
  have hnotin : b ∉ s.idequeue := by
    intro hb
    obtain ⟨q, k, hq⟩ := h.queued b hb
    have := h.ioLock q b k hq
    rw [hlock] at this
    cases this
  constructor
  case ring =>
    obtain ⟨l, hl, hall, hpw⟩ := h.ring
    refine ⟨l, hl, hall, hpw.imp ?_⟩
    simp only [Newer, Cache.setBuf, Cache.setPc, Function.update_apply]
    grind -ring -linarith
  case nodup =>
    simp only [Cache.setBuf, Cache.setPc]
    exact h.nodup.append (List.nodup_singleton b) (by simpa using hnotin)
  all_goals
    simp only [Cache.setBuf, Cache.setPc, Function.update_apply]
  case count =>
    intro c
    have := card_waiters_update s.pc p (.io b (.read blk)) c
    have := h.count c
    grind -ring -linarith [Pc.waits]
  case queued =>
    intro c hc
    rcases List.mem_append.mp hc with hc | hc
    · obtain ⟨q, k, hq⟩ := h.queued c hc
      exact ⟨q, k, by grind -ring -linarith⟩
    · exact ⟨p, .read blk, by grind -ring -linarith⟩
  case held =>
    intro q c hc hio
    have := hio (.read blk)
    have := h.held q c
    grind -ring -linarith
  all_goals grind -ring -linarith [Inv]

theorem Inv.ioReturn {s : Cache P} (h : Inv s) {p : P} {b : BufId} {k : Io}
    (hp : s.pc p = .io b k) (hvalid : (s.buf b).valid = true) (hdirty : (s.buf b).dirty = false) :
    Inv (s.setPc p .run) := by
  constructor
  case ring => exact h.ring
  all_goals
    simp only [Cache.setPc, Function.update_apply]
  case count =>
    intro c
    have := card_waiters_update s.pc p .run c
    have := h.count c
    grind -ring -linarith [Pc.waits]
  case queued =>
    intro c hc
    obtain ⟨q, k', hq⟩ := h.queued c hc
    refine ⟨q, k', ?_⟩
    have := h.waiting c hc
    grind -ring -linarith
  all_goals grind -ring -linarith [Inv]

theorem Inv.enqueueWrite {s : Cache P} (h : Inv s) {p : P} {b : BufId} (hp : s.pc p = .run)
    (hlock : (s.buf b).lock = some p) (hdirty : (s.buf b).dirty = true) (hpend : s.pend b = false) :
    Inv ({ s with idequeue := s.idequeue ++ [b] }.setPc p (.io b .write)) := by
  have hnotin : b ∉ s.idequeue := by
    intro hb
    obtain ⟨q, k, hq⟩ := h.queued b hb
    have := h.ioLock q b k hq
    grind -ring -linarith
  constructor
  case ring => exact h.ring
  case nodup =>
    simp only [Cache.setPc]
    exact h.nodup.append (List.nodup_singleton b) (by simpa using hnotin)
  all_goals
    simp only [Cache.setPc, Function.update_apply]
  case count =>
    intro c
    have := card_waiters_update s.pc p (.io b .write) c
    have := h.count c
    grind -ring -linarith [Pc.waits]
  case queued =>
    intro c hc
    rcases List.mem_append.mp hc with hc | hc
    · obtain ⟨q, k, hq⟩ := h.queued c hc
      exact ⟨q, k, by grind -ring -linarith⟩
    · exact ⟨p, .write, by grind -ring -linarith⟩
  all_goals grind -ring -linarith [Inv]

theorem Inv.modify {s : Cache P} (h : Inv s) {p : P} {b : BufId} (hp : s.Owns p b) (x : Block) :
    Inv { s.setBuf b (fun f => { f with data := x }) with
      pend := Function.update s.pend b true } := by
  obtain ⟨hrun, hlock⟩ := hp
  constructor
  case ring =>
    obtain ⟨l, hl, hall, hpw⟩ := h.ring
    refine ⟨l, hl, hall, hpw.imp ?_⟩
    simp only [Newer, Cache.setBuf, Function.update_apply]
    grind -ring -linarith
  all_goals
    simp only [Cache.setBuf, Function.update_apply]
  all_goals grind -ring -linarith [Inv]

theorem Inv.logWrite {s : Cache P} (h : Inv s) {p : P} {b : BufId} (hp : s.Owns p b) :
    Inv (logWrite s b) := by
  obtain ⟨hrun, hlock⟩ := hp
  have hdev : (s.buf b).dev = DEV := by
    apply h.used
    have := h.count b
    rw [hlock] at this
    simp only [Option.isSome_some, if_true] at this
    omega
  constructor
  case ring =>
    obtain ⟨l, hl, hall, hpw⟩ := h.ring
    refine ⟨l, hl, hall, hpw.imp ?_⟩
    simp only [Newer, Bio.logWrite, Cache.setBuf, Function.update_apply]
    grind -ring -linarith
  all_goals
    simp only [Bio.logWrite, Cache.setBuf, Function.update_apply]
  all_goals grind -ring -linarith [Inv]

/-- The completed transfer: its buffer and the disk now agree with `spec`. -/
theorem Inv.transfer {s : Cache P} (h : Inv s) {b : BufId} {q : List BufId}
    (hq : s.idequeue = b :: q) :
    Inv ((transfer { s with idequeue := q } b).setBuf b fun f =>
      { f with valid := true, dirty := false }) := by
  have hb : b ∈ s.idequeue := by
    rw [hq]
    exact List.mem_cons_self
  obtain ⟨p, k, hp⟩ := h.queued b hb
  have hlock : (s.buf b).lock = some p := h.ioLock p b k hp
  have hpend : s.pend b = false := h.ioPend p b k hp
  have hdev : (s.buf b).dev = DEV := by
    apply h.used
    have := h.count b
    rw [hlock, Option.isSome_some, if_pos rfl] at this
    omega
  have hnd := h.nodup
  rw [hq, List.nodup_cons] at hnd
  have hqueued := h.queued
  have hwaiting := h.waiting
  rw [hq] at hqueued hwaiting
  constructor
  case ring =>
    obtain ⟨l, hl, hall, hpw⟩ := h.ring
    refine ⟨l, by unfold Bio.transfer; split <;> exact hl, hall, hpw.imp ?_⟩
    unfold Bio.transfer
    split <;> simp only [Newer, Cache.setBuf, Function.update_apply] <;> grind -ring -linarith
  case disk =>
    intro blk hclean
    -- a buffer that holds `blk` and is not the transferred one is clean
    have hother : ∀ b', b' ≠ b → (s.buf b').dev = DEV → (s.buf b').blockno = blk →
        (s.buf b').dirty = false := by
      intro b' hne
      have hb' := hclean b'
      unfold Bio.transfer at hb'
      split at hb' <;> simpa [Cache.setBuf, hne] using hb'
    by_cases hd : (s.buf b).dirty = true
    · unfold Bio.transfer
      rw [if_pos hd]
      show Function.update s.disk (s.buf b).blockno (s.buf b).data blk = s.spec blk
      by_cases hblk : blk = (s.buf b).blockno
      · rw [hblk, Function.update_self]
        exact h.data b hdev (h.dirtyValid b hd).1 hpend
      · rw [Function.update_of_ne hblk]
        exact h.disk blk fun b' hdev' hblk' =>
          hother b' (fun heq => hblk (by rw [← hblk', heq])) hdev' hblk'
    · unfold Bio.transfer
      rw [if_neg hd]
      refine h.disk blk fun b' hdev' hblk' => ?_
      by_cases heq : b' = b
      · rw [heq]
        exact Bool.eq_false_of_not_eq_true hd
      · exact hother b' heq hdev' hblk'
  all_goals
    unfold Bio.transfer
    split <;> simp only [Cache.setBuf, Function.update_apply]
  all_goals grind -ring -linarith [Inv]

theorem Inv.brelse {s t : Cache P} (h : Inv s) {p : P} {b : BufId} (hp : s.Owns p b)
    (hpend : s.pend b = false) (ht : brelse s b = .ok t) : Inv t := by
  obtain ⟨hrun, hlock⟩ := hp
  have hcount := h.count b
  rw [hlock, Option.isSome_some, if_pos rfl] at hcount
  obtain ⟨l, hl, hall, hpw⟩ := h.ring
  have hclock := h.clock
  simp only [Bio.brelse, hlock, reduceCtorEq, if_false] at ht
  split at ht
  · cases ht
    constructor
    case ring =>
      obtain ⟨l1, l2, rfl⟩ := List.append_of_mem (hall b)
      have hb : b ∉ l1 ++ l2 := by
        have := hl.1
        grind -ring -linarith
      refine ⟨b :: (l1 ++ l2), hl.unlink.insertHead hb, ?_, ?_⟩
      · intro c
        have := hall c
        grind -ring -linarith
      · refine List.pairwise_cons.mpr ⟨?_, ?_⟩
        · intro c hc _ _
          left
          have : c ≠ b := by
            rintro rfl
            exact hb hc
          simp only [Cache.setBuf, Function.update_apply, this, if_false, if_true]
          exact Nat.lt_succ_of_le (hclock c)
        · have hsub : (l1 ++ l2).Sublist (l1 ++ b :: l2) :=
            List.Sublist.append_left (List.sublist_cons_self _ _) _
          refine (hpw.sublist hsub).imp_of_mem ?_
          intro x y hx hy hxy
          simp only [Newer, Cache.setBuf, Function.update_apply] at hxy ⊢
          grind -ring -linarith
    all_goals
      simp only [Cache.setBuf, Function.update_apply]
    all_goals grind -ring -linarith [Inv]
  · rename_i href
    simp only [Cache.setBuf, Function.update_self] at href
    cases ht
    constructor
    case ring =>
      refine ⟨l, hl, hall, hpw.imp ?_⟩
      simp only [Newer, Cache.setBuf, Function.update_apply]
      grind -ring -linarith
    all_goals
      simp only [Cache.setBuf, Function.update_apply]
    all_goals grind -ring -linarith [Inv]

end Yonix.Bio
