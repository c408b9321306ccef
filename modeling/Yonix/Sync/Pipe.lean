/-
  Yonix/Sync/Pipe.lean
  ====================
  **Pipes (`pipe.c`).**

  Any number of processes call `pipewrite` and `piperead` on one pipe, close its ends
  and kill each other.  A process loses the CPU when it sleeps; what it does from there
  to its next `sleep` or to its return is one step.

  Every byte is delivered once and in order (`pipe_delivers`): the bytes copied out so
  far and then those between `nread` and `nwrite` are the bytes stored so far.  The
  counters run freely modulo `2 ^ 32`, which the size of the buffer divides.

  `pipewrite` wakes the readers before it sleeps and before it returns `n`, but not
  before it returns -1.  A writer that was killed, or whose readers closed their end,
  can fill the buffer and leave that way, and then a reader sleeps on a full buffer
  (`killed_writer_leaves_reader_asleep`).  In every run in which no writer does that,
  whoever sleeps on the pipe has a reason to (`pipe_sleepers_wait`).
-/
import Yonix.Lib.Fifo
import Yonix.Sync.Section

namespace Yonix.Sync.Pipes

def PIPESIZE : UInt32 := 512

/-- `struct pipe`.  `stored` and `copied` are bookkeeping: the bytes stored by
    `pipewrite` and the bytes copied out by `piperead` so far. -/
structure Pipe where
  data : Nat → UInt8
  nread : UInt32
  nwrite : UInt32
  readopen : Bool
  writeopen : Bool
  stored : List UInt8
  copied : List UInt8

/-- `p->data[p->nwrite++ % PIPESIZE] = c`. -/
def Pipe.put (m : Pipe) (c : UInt8) : Pipe :=
  { m with
    data := Function.update m.data (m.nwrite % PIPESIZE).toNat c
    nwrite := m.nwrite + 1
    stored := m.stored ++ [c] }

/-- `addr[i] = p->data[p->nread++ % PIPESIZE]`. -/
def Pipe.take (m : Pipe) : Pipe :=
  { m with
    nread := m.nread + 1
    copied := m.copied ++ [m.data (m.nread % PIPESIZE).toNat] }

def Pipe.Full (m : Pipe) : Prop := m.nwrite = m.nread + PIPESIZE
def Pipe.Empty (m : Pipe) : Prop := m.nread = m.nwrite

instance (m : Pipe) : Decidable m.Full := by unfold Pipe.Full; infer_instance
instance (m : Pipe) : Decidable m.Empty := by unfold Pipe.Empty; infer_instance

/-- How the loop of `pipewrite` ends: all is stored, it returns -1, or it sleeps with
    the bytes that are left. -/
inductive WriteEnd where
  | done
  | failed
  | full (src : List UInt8)

def writeLoop (killed : Bool) : List UInt8 → Pipe → Pipe × WriteEnd
  | [], m => (m, .done)
  | c :: src, m =>
    if m.Full then
      if m.readopen = false ∨ killed then (m, .failed) else (m, .full (c :: src))
    else writeLoop killed src (m.put c)

/-- The copying loop of `piperead`. -/
def readLoop : Nat → Pipe → Pipe
  | 0, m => m
  | n + 1, m => if m.Empty then m else readLoop n m.take

/-! ### The processes -/

/-- `&p->nread` and `&p->nwrite`. -/
inductive Chan where
  | nread
  | nwrite
deriving DecidableEq

/-- A process outside, in `pipewrite` with the bytes that are left, in `piperead`. -/
inductive Pc where
  | user
  | write (src : List UInt8)
  | read (n : Nat)

structure Mem (P : Type) where
  pipe : Pipe
  killed : P → Bool

inductive Call (P : Type) where
  | write (src : List UInt8)
  | read (n : Nat)
  | close (writable : Bool)
  | kill (q : P)

variable {P : Type} [DecidableEq P]

abbrev M (P : Type) := Machine P Chan Pc (Mem P)

def setPipe (s : M P) (m : Pipe) : M P := s.store { s.mem with pipe := m }

def pipeclose (s : M P) (writable : Bool) : M P :=
  if writable then (setPipe s { s.mem.pipe with writeopen := false }).wakeup .nread
  else (setPipe s { s.mem.pipe with readopen := false }).wakeup .nwrite

def kill (s : M P) (q : P) : M P :=
  (s.store { s.mem with killed := Function.update s.mem.killed q true }).rouse q

/-- A call by `p`; `trap` does not let a killed process in. -/
def enter (s : M P) (p : P) (c : Call P) : Except Stop (M P) :=
  match s.pc p, s.mem.killed p, c with
  | .user, false, .write src => .ok (s.goto p (.write src))
  | .user, false, .read n => .ok (s.goto p (.read n))
  | .user, false, .close writable => .ok (pipeclose s writable)
  | .user, false, .kill q => .ok (kill s q)
  | _, _, _ => .error .notCalled

/-- `pipewrite` from its loop on. -/
def pipewrite (s : M P) (p : P) (src : List UInt8) : M P :=
  match writeLoop (s.mem.killed p) src s.mem.pipe with
  | (m, .done) => ((setPipe s m).wakeup .nread).goto p .user
  | (m, .failed) => (setPipe s m).goto p .user
  | (m, .full src) => ((setPipe s m).wakeup .nread).sleep p .nwrite (.write src)

def piperead (s : M P) (p : P) (n : Nat) : M P :=
  if s.mem.pipe.Empty ∧ s.mem.pipe.writeopen then
    if s.mem.killed p then s.goto p .user else s.sleep p .nread (.read n)
  else ((setPipe s (readLoop n s.mem.pipe)).wakeup .nwrite).goto p .user

/-- The next step of `p`: the end of `sleep`, when it slept, and the loop. -/
def stmt (s : M P) (p : P) : Except Stop (M P) :=
  match s.pc p with
  | .user => .error .notCalled
  | .write src => .ok (pipewrite (s.setChan p none) p src)
  | .read n => .ok (piperead (s.setChan p none) p n)

def code : Program P Chan Pc (Mem P) (Call P) where
  enter := enter
  stmt := stmt

/-! ### The buffer -/

/-- The bytes of `data[nread..nwrite)`, taken modulo `PIPESIZE`. -/
def Pipe.unread (m : Pipe) : List UInt8 :=
  Fifo.pending m.data 512 m.nread.toNat (m.nwrite - m.nread).toNat

/-- The counters are at most `PIPESIZE` apart, and nothing is lost. -/
structure Pipe.Sound (m : Pipe) : Prop where
  room : (m.nwrite - m.nread).toNat ≤ 512
  order : m.stored = m.copied ++ m.unread

variable {m : Pipe} {c : UInt8} {n : Nat} {src : List UInt8} {killed : Bool}

theorem Pipe.full_iff : m.Full ↔ (m.nwrite - m.nread).toNat = 512 := by
  rw [Pipe.Full, PIPESIZE, ← UInt32.toNat_inj, UInt32.toNat_add, UInt32.toNat_sub]
  have := m.nwrite.toNat_lt
  have := m.nread.toNat_lt
  simp only [UInt32.reduceToNat]
  omega

theorem Pipe.empty_iff : m.Empty ↔ (m.nwrite - m.nread).toNat = 0 := by
  rw [Pipe.Empty, ← UInt32.toNat_inj, UInt32.toNat_sub]
  have := m.nwrite.toNat_lt
  have := m.nread.toNat_lt
  omega

theorem Pipe.cell (k : UInt32) : (k % PIPESIZE).toNat = k.toNat % 512 := by
  simp [PIPESIZE, UInt32.toNat_mod]

theorem Pipe.Sound.put (h : m.Sound) (hf : ¬ m.Full) : (m.put c).Sound := by
  have hroom := h.room
  rw [Pipe.full_iff] at hf
  have hw := m.nwrite.toNat_lt
  have hr := m.nread.toNat_lt
  have hdist : (m.nwrite + 1 - m.nread).toNat = (m.nwrite - m.nread).toNat + 1 := by
    simp only [UInt32.toNat_sub, UInt32.toNat_add, UInt32.reduceToNat] at *
    omega
  -- the cell that `nwrite` names lies behind the unread ones
  have hcell : (m.nwrite % PIPESIZE).toNat =
      (m.nread.toNat + (m.nwrite - m.nread).toNat) % 512 := by
    rw [Pipe.cell]
    simp only [UInt32.toNat_sub]
    omega
  constructor
  · change (m.nwrite + 1 - m.nread).toNat ≤ 512
    omega
  · have hun : (m.put c).unread = m.unread ++ [c] := by
      simp only [Pipe.unread, Pipe.put, hdist, hcell]
      exact Fifo.pending_put c (by omega)
    rw [hun, ← List.append_assoc, show (m.put c).copied = m.copied from rfl, ← h.order]
    rfl

theorem Pipe.Sound.take (h : m.Sound) (he : ¬ m.Empty) : m.take.Sound := by
  have hroom := h.room
  rw [Pipe.empty_iff] at he
  have hw := m.nwrite.toNat_lt
  have hr := m.nread.toNat_lt
  have hdist : (m.nwrite - m.nread).toNat = (m.nwrite - (m.nread + 1)).toNat + 1 := by
    simp only [UInt32.toNat_sub, UInt32.toNat_add, UInt32.reduceToNat] at *
    omega
  have hun : m.unread = m.data (m.nread % PIPESIZE).toNat :: m.take.unread := by
    have hnext : (m.nread + 1).toNat = (m.nread.toNat + 1) % 2 ^ 32 := by
      rw [UInt32.toNat_add]
      rfl
    rw [Pipe.unread, hdist, Fifo.pending_take, Pipe.cell, Pipe.unread]
    congr 1
    change _ = Fifo.pending m.data 512 (m.nread + 1).toNat (m.nwrite - (m.nread + 1)).toNat
    rw [hnext, Fifo.pending_mod (by decide)]
  constructor
  · change (m.nwrite - (m.nread + 1)).toNat ≤ 512
    omega
  · have horder := h.order
    rw [hun] at horder
    change m.stored = (m.copied ++ [m.data (m.nread % PIPESIZE).toNat]) ++ m.take.unread
    rw [horder]
    simp

theorem writeLoop_sound (h : m.Sound) : (writeLoop killed src m).1.Sound := by
  induction src generalizing m with
  | nil => exact h
  | cons c src ih =>
    rw [writeLoop]
    split
    · split
      · exact h
      · exact h
    · rename_i hf
      exact ih (h.put hf)

theorem readLoop_sound (h : m.Sound) : (readLoop n m).Sound := by
  induction n generalizing m with
  | zero => exact h
  | succ n ih =>
    rw [readLoop]
    split
    · exact h
    · rename_i he
      exact ih (h.take he)

/-! ### What one step does -/

variable {s t : M P} {p q : P} {a : Act P (Call P)}

/-- The pipe after a step: as before, with an end closed, or after one of the loops. -/
theorem step_pipe (h : Step code s a t) :
    t.mem.pipe = s.mem.pipe ∨ t.mem.pipe = { s.mem.pipe with writeopen := false } ∨
      t.mem.pipe = { s.mem.pipe with readopen := false } ∨
      (∃ k src, t.mem.pipe = (writeLoop k src s.mem.pipe).1) ∨
      ∃ n, t.mem.pipe = readLoop n s.mem.pipe := by
  rcases step_cases h with ⟨p, -, -, -, rfl⟩ | ⟨p, -, -, -, -, rfl⟩ | ⟨p, -, rfl⟩ |
    ⟨p, c, -, -, he⟩ | ⟨p, -, -, he⟩
  · exact .inl rfl
  · exact .inl rfl
  · left
    split
    · rfl
    · rfl
  · simp only [code, enter] at he
    split at he
    · left
      rw [← Except.ok.inj he]
      rfl
    · left
      rw [← Except.ok.inj he]
      rfl
    · rename_i writable _ _
      rw [← Except.ok.inj he]
      cases writable with
      | false => exact .inr (.inr (.inl rfl))
      | true => exact .inr (.inl rfl)
    · left
      rw [← Except.ok.inj he]
      rfl
    · simp at he
  · simp only [code, stmt] at he
    split at he
    · simp at he
    · rename_i src hpc
      rw [← Except.ok.inj he]
      refine .inr (.inr (.inr (.inl ⟨s.mem.killed p, src, ?_⟩)))
      simp only [pipewrite, Machine.setChan_mem]
      split
      all_goals
        rename_i heq
        rw [heq]
        rfl
    · rename_i n hpc
      rw [← Except.ok.inj he]
      simp only [piperead, Machine.setChan_mem]
      split
      · left
        split
        · rfl
        · rfl
      · exact .inr (.inr (.inr (.inr ⟨n, rfl⟩)))

theorem sound_step (hs : s.mem.pipe.Sound) (h : Step code s a t) : t.mem.pipe.Sound := by
  rcases step_pipe h with ht | ht | ht | ⟨k, src, ht⟩ | ⟨n, ht⟩
  · rw [ht]
    exact hs
  · rw [ht]
    exact ⟨hs.room, hs.order⟩
  · rw [ht]
    exact ⟨hs.room, hs.order⟩
  · rw [ht]
    exact writeLoop_sound hs
  · rw [ht]
    exact readLoop_sound hs

/-- **Pipes deliver every byte once, in order.**  From any equal values of the counters
    and in every run of any readers and writers, the counters are at most `PIPESIZE`
    apart, and the bytes copied out followed by the unread ones are the bytes stored. -/
theorem pipe_delivers {as : List (Act P (Call P))} (hc : s.mem.pipe.nread = s.mem.pipe.nwrite)
    (h0 : s.mem.pipe.stored = [] ∧ s.mem.pipe.copied = []) (h : Run (Step code) s as t) :
    (t.mem.pipe.nwrite - t.mem.pipe.nread).toNat ≤ 512 ∧
      t.mem.pipe.copied <+: t.mem.pipe.stored ∧
      t.mem.pipe.stored = t.mem.pipe.copied ++ t.mem.pipe.unread := by
  have hs : s.mem.pipe.Sound := by
    have hz : (s.mem.pipe.nwrite - s.mem.pipe.nread).toNat = 0 := Pipe.empty_iff.mp hc
    refine ⟨by omega, ?_⟩
    rw [h0.1, h0.2, Pipe.unread, hz]
    rfl
  have ht : t.mem.pipe.Sound :=
    h.invariant (fun s => s.mem.pipe.Sound) hs fun u a v hu huv => sound_step hu huv
  exact ⟨ht.room, ⟨_, ht.order.symm⟩, ht.order⟩

/-! ### Where the loops end -/

theorem Pipe.dist_put (hf : (m.nwrite - m.nread).toNat < 512) :
    ((m.put c).nwrite - (m.put c).nread).toNat = (m.nwrite - m.nread).toNat + 1 := by
  have hw := m.nwrite.toNat_lt
  have hr := m.nread.toNat_lt
  change (m.nwrite + 1 - m.nread).toNat = _
  simp only [UInt32.toNat_sub, UInt32.toNat_add, UInt32.reduceToNat] at *
  omega

theorem writeLoop_of_full (h : m.Full) : (writeLoop killed src m).1 = m := by
  cases src with
  | nil => rfl
  | cons c src =>
    rw [writeLoop, if_pos h]
    split
    · rfl
    · rfl

theorem writeLoop_full {src' : List UInt8} (h : (writeLoop killed src m).2 = .full src') :
    (writeLoop killed src m).1.Full ∧ (writeLoop killed src m).1.readopen = true := by
  induction src generalizing m with
  | nil => simp [writeLoop] at h
  | cons c src ih =>
    rw [writeLoop] at h ⊢
    by_cases hf : m.Full
    · rw [if_pos hf] at h ⊢
      by_cases hk : m.readopen = false ∨ killed
      · simp [if_pos hk] at h
      · rw [if_neg hk]
        refine ⟨hf, ?_⟩
        simpa using fun hr => hk (.inl hr)
    · rw [if_neg hf] at h ⊢
      exact ih h

/-- With room for all that is left, the loop does not meet a full buffer. -/
theorem writeLoop_done (h : (m.nwrite - m.nread).toNat + src.length ≤ 512) :
    (writeLoop killed src m).2 = .done := by
  induction src generalizing m with
  | nil => rfl
  | cons c src ih =>
    simp only [List.length_cons] at h
    have hf : ¬ m.Full := by
      rw [Pipe.full_iff]
      omega
    rw [writeLoop, if_neg hf]
    apply ih
    rw [Pipe.dist_put (by omega)]
    omega

/-- A write that fails met a full buffer in the state in which the loop ended. -/
theorem writeLoop_failed (h : (writeLoop killed src m).2 = .failed) :
    (m.readopen = false ∨ killed) ∧ 512 < (m.nwrite - m.nread).toNat + src.length := by
  constructor
  · induction src generalizing m with
    | nil => simp [writeLoop] at h
    | cons c src ih =>
      rw [writeLoop] at h
      by_cases hf : m.Full
      · rw [if_pos hf] at h
        by_contra hk
        simp [if_neg hk] at h
      · rw [if_neg hf] at h
        exact ih (m := m.put c) h
  · by_contra hle
    rw [writeLoop_done (by omega)] at h
    simp at h

/-! ### Who sleeps on the pipe -/

structure Waits (s : M P) : Prop where
  reader : ∀ q, s.Asleep q .nread → s.mem.pipe.Empty ∧ s.mem.pipe.writeopen = true
  writer : ∀ q, s.Asleep q .nwrite → s.mem.pipe.Full ∧ s.mem.pipe.readopen = true

/-- The step is one of a writer that will return -1 with more bytes than the buffer
    holds left to store, while a reader sleeps. -/
def Deserts (s : M P) : Act P (Call P) → Prop
  | .stmt => ∃ p src r, s.cur = some p ∧ s.pc p = .write src ∧
      (s.mem.pipe.readopen = false ∨ s.mem.killed p = true) ∧ 512 < src.length ∧ s.Asleep r .nread
  | _ => False

def LoyalStep (s : M P) (a : Act P (Call P)) (t : M P) : Prop := ¬ Deserts s a ∧ Step code s a t

omit [DecidableEq P] in
theorem Waits.congr (hs : Waits s) (hm : t.mem.pipe = s.mem.pipe)
    (h : ∀ q e, t.Asleep q e → s.Asleep q e) : Waits t := by
  refine ⟨fun q hq => ?_, fun q hq => ?_⟩
  · rw [hm]
    exact hs.reader q (h q _ hq)
  · rw [hm]
    exact hs.writer q (h q _ hq)

theorem Waits.goto (hs : Waits s) (i : Pc) : Waits (s.goto p i) := hs.congr rfl fun _ _ => id

omit [DecidableEq P] in
theorem Waits.pipeclose (hs : Waits s) (writable : Bool) : Waits (pipeclose s writable) := by
  cases writable with
  | true =>
    refine ⟨fun q hq => ?_, fun q hq => ?_⟩
    · exact absurd rfl (Machine.asleep_wakeup.mp hq).2
    · exact hs.writer q (Machine.asleep_wakeup.mp hq).1
  | false =>
    refine ⟨fun q hq => ?_, fun q hq => ?_⟩
    · exact hs.reader q (Machine.asleep_wakeup.mp hq).1
    · exact absurd rfl (Machine.asleep_wakeup.mp hq).2

theorem Waits.pipewrite (hs : Waits s)
    (hd : ∀ r, s.Asleep r .nread →
      (s.mem.pipe.readopen = false ∨ s.mem.killed p = true) → ¬ 512 < src.length) :
    Waits (pipewrite s p src) := by
  -- a writer that sleeps saw the buffer full, and then nothing is stored
  have hfull : ∀ q, s.Asleep q .nwrite →
      (writeLoop (s.mem.killed p) src s.mem.pipe).1 = s.mem.pipe :=
    fun q hq => writeLoop_of_full (hs.writer q hq).1
  rw [Pipes.pipewrite]
  split
  · rename_i m hm
    refine ⟨fun q hq => ?_, fun q hq => ?_⟩
    · exact absurd rfl (Machine.asleep_wakeup.mp hq).2
    · have hq' : s.Asleep q .nwrite := (Machine.asleep_wakeup.mp hq).1
      have h1 : m = s.mem.pipe := by
        rw [← hfull q hq', hm]
      change m.Full ∧ m.readopen = true
      rw [h1]
      exact hs.writer q hq'
  · rename_i m hm
    have hf : (writeLoop (s.mem.killed p) src s.mem.pipe).2 = .failed := by rw [hm]
    obtain ⟨hk, hlen⟩ := writeLoop_failed hf
    refine ⟨fun q hq => ?_, fun q hq => ?_⟩
    · have he : (s.mem.pipe.nwrite - s.mem.pipe.nread).toNat = 0 :=
        Pipe.empty_iff.mp (hs.reader q hq).1
      exact absurd (by omega) (hd q hq hk)
    · have h1 : m = s.mem.pipe := by
        rw [← hfull q hq, hm]
      change m.Full ∧ m.readopen = true
      rw [h1]
      exact hs.writer q hq
  · rename_i m src' hm
    have hf : (writeLoop (s.mem.killed p) src s.mem.pipe).2 = .full src' := by rw [hm]
    have hm' := writeLoop_full hf
    rw [hm] at hm'
    refine ⟨fun q hq => ?_, fun q hq => hm'⟩
    rw [Machine.asleep_sleep] at hq
    split at hq
    · simp at hq
    · exact absurd rfl (Machine.asleep_wakeup.mp hq).2

theorem Waits.piperead (hs : Waits s) : Waits (piperead s p n) := by
  rw [Pipes.piperead]
  split
  · rename_i he
    split
    · exact hs.goto _
    · refine ⟨fun q hq => he, fun q hq => ?_⟩
      rw [Machine.asleep_sleep] at hq
      split at hq
      · simp at hq
      · exact hs.writer q hq
  · rename_i he
    refine ⟨fun q hq => ?_, fun q hq => ?_⟩
    · exact absurd (hs.reader q (Machine.asleep_wakeup.mp hq).1) he
    · exact absurd rfl (Machine.asleep_wakeup.mp hq).2

theorem Waits.setChan (hs : Waits s) : Waits (s.setChan p none) :=
  hs.congr rfl fun _ _ hq => (Machine.asleep_setChan_none.mp hq).1

theorem Waits.enter {c : Call P} (hs : Waits s) (h : enter s p c = .ok t) : Waits t := by
  simp only [Pipes.enter] at h
  split at h
  · rw [← Except.ok.inj h]
    exact hs.goto _
  · rw [← Except.ok.inj h]
    exact hs.goto _
  · rw [← Except.ok.inj h]
    exact hs.pipeclose _
  · rw [← Except.ok.inj h]
    exact hs.congr rfl fun _ _ hq => (Machine.asleep_rouse.mp hq).1
  · simp at h

theorem Waits.step (hs : Waits s) (h : LoyalStep s a t) : Waits t := by
  obtain ⟨hloyal, hstep⟩ := h
  rcases step_cases hstep with ⟨p, -, -, -, rfl⟩ | ⟨p, -, -, -, -, rfl⟩ | ⟨p, -, rfl⟩ |
    ⟨p, c, -, -, he⟩ | ⟨p, rfl, hc, he⟩
  · refine hs.congr rfl fun q e hq => ?_
    by_cases hqp : q = p
    · simp [Machine.Asleep, hqp] at hq
    · simpa [Machine.Asleep, hqp] using hq
  · refine hs.congr rfl fun q e hq => ?_
    by_cases hqp : q = p
    · simp [Machine.Asleep, hqp] at hq
    · simpa [Machine.Asleep, hqp] using hq
  · split
    · refine hs.congr rfl fun q e hq => ?_
      by_cases hqp : q = p
      · simp [Machine.Asleep, hqp] at hq
      · simpa [Machine.Asleep, hqp] using hq
    · exact hs
  · exact hs.enter he
  · simp only [code, stmt] at he
    split at he
    · simp at he
    · rename_i src hpc
      rw [← Except.ok.inj he]
      apply hs.setChan.pipewrite
      intro r hr hk hlen
      exact hloyal ⟨p, src, r, hc, hpc, hk, hlen, (Machine.asleep_setChan_none.mp hr).1⟩
    · rw [← Except.ok.inj he]
      exact hs.setChan.piperead

/-- **Pipes lose no wakeup.**  In every run in which no writer fills the buffer and
    returns -1 while a reader sleeps, whoever sleeps on `nread` finds the buffer empty
    and the write end open, and whoever sleeps on `nwrite` finds it full and the read
    end open. -/
theorem pipe_sleepers_wait {as : List (Act P (Call P))} (hs : ∀ q e, ¬ s.Asleep q e)
    (h : Run LoyalStep s as t) :
    (∀ q, t.Asleep q .nread → t.mem.pipe.Empty ∧ t.mem.pipe.writeopen = true) ∧
      ∀ q, t.Asleep q .nwrite → t.mem.pipe.Full ∧ t.mem.pipe.readopen = true := by
  have h0 : Waits s := ⟨fun q hq => absurd hq (hs q _), fun q hq => absurd hq (hs q _)⟩
  have ht : Waits t := h.invariant Waits h0 fun u a v hu huv => hu.step huv
  exact ⟨ht.reader, ht.writer⟩

/-! ### A writer that is killed between two refills -/

/-- A new pipe whose counters stand shortly before the wrap-around, and processes in
    their own code. -/
def boot (k : UInt32) : M Nat where
  cur := none
  iflag := true
  stat := fun _ => .READY
  chan := fun _ => none
  pc := fun _ => .user
  mem := ⟨⟨fun _ => 0, k, k, true, true, [], []⟩, fun _ => false⟩

/-- Process `p` is dispatched, makes a call and performs `n` steps of it. -/
def calls (p : Nat) (c : Call Nat) (n : Nat) : List (Act Nat (Call Nat)) :=
  .dispatch p :: .call c :: List.replicate n .stmt

/-- Process `0` writes 3 bytes and process `1` reads 2 of them. -/
def shortTrace : List (Act Nat (Call Nat)) :=
  calls 0 (.write [7, 8, 9]) 1 ++ (.timer :: calls 1 (.read 2) 1)

theorem pipe_delivers_across_wrap :
    ∃ t, Run (Step code) (boot 4294967294) shortTrace t ∧ t.mem.pipe.nwrite = 1 ∧
      t.mem.pipe.copied = [7, 8] ∧
      (t.mem.pipe.nwrite - t.mem.pipe.nread).toNat ≤ 512 ∧
      t.mem.pipe.copied <+: t.mem.pipe.stored ∧
      t.mem.pipe.stored = t.mem.pipe.copied ++ t.mem.pipe.unread := by
  have hrun : okWith (fun t : M Nat => t.mem.pipe.nwrite = 1 ∧ t.mem.pipe.copied = [7, 8])
      (shortTrace.foldlM (exec code) (boot 4294967294)) = true := by
    decide
  obtain ⟨t, ht, hm⟩ := okWith_eq_true.mp hrun
  have hm' := of_decide_eq_true hm
  have hr : Run (Step code) (boot 4294967294) shortTrace t := Run.of_foldlM ht
  exact ⟨t, hr, hm'.1, hm'.2, pipe_delivers rfl ⟨rfl, rfl⟩ hr⟩

/-- Process `0` has two buffers and a byte to write and sleeps when the first is full;
    process `1` empties it and comes back for more. -/
def refillTrace : List (Act Nat (Call Nat)) :=
  calls 0 (.write (List.replicate 1025 5)) 1 ++
    (calls 1 (.read 512) 1 ++ (.call (.read 1) :: [.stmt]))

/-- Process `2` kills process `0` before it is dispatched again. -/
def killedTrace : List (Act Nat (Call Nat)) :=
  refillTrace ++ (calls 2 (.kill 0) 0 ++ [.timer, .dispatch 0, .stmt])

/-- `exec`, refusing every step of a writer that might desert a reader. -/
def loyalExec (s : M Nat) (a : Act Nat (Call Nat)) : Except Stop (M Nat) :=
  match a, s.cur.map s.pc, s.cur.map s.mem.killed with
  | .stmt, some (.write src), some killed =>
    if src.length ≤ 512 ∨ s.mem.pipe.readopen = true ∧ killed = false then exec code s .stmt
    else .error .notCalled
  | a, _, _ => exec code s a

theorem loyalExec_step {s t : M Nat} {a : Act Nat (Call Nat)} (h : loyalExec s a = .ok t) :
    LoyalStep s a t := by
  cases a with
  | stmt =>
    simp only [loyalExec] at h
    split at h
    · rename_i src killed _ hpc hkill
      split at h
      · rename_i hok
        refine ⟨?_, h⟩
        rintro ⟨p, src', r, hc, hw, hk, hlen, -⟩
        rw [hc] at hpc hkill
        simp only [Option.map_some, Option.some.injEq] at hpc hkill
        rw [hw] at hpc
        injection hpc with hsrc
        rcases hok with hok | ⟨h1, h2⟩
        · rw [← hsrc] at hok
          omega
        · rcases hk with hk | hk
          · rw [h1] at hk
            simp at hk
          · rw [hkill, h2] at hk
            simp at hk
      · simp at h
    · rename_i hother
      refine ⟨?_, h⟩
      rintro ⟨p, src', r, hc, hw, -, -, -⟩
      exact hother src' (s.mem.killed p) rfl (by rw [hc, Option.map_some, hw]) (by rw [hc]; rfl)
  | dispatch p => exact ⟨id, h⟩
  | timer => exact ⟨id, h⟩
  | rouse p => exact ⟨id, h⟩
  | call c => exact ⟨id, h⟩

set_option maxRecDepth 20000 in
theorem pipe_sleepers_wait_refill :
    ∃ t, Run LoyalStep (boot 0) refillTrace t ∧ t.Asleep 1 .nread ∧
      (∀ q, t.Asleep q .nread → t.mem.pipe.Empty ∧ t.mem.pipe.writeopen = true) ∧
      ∀ q, t.Asleep q .nwrite → t.mem.pipe.Full ∧ t.mem.pipe.readopen = true := by
  have hrun : okWith (fun t : M Nat => decide (t.Asleep 1 .nread))
      (refillTrace.foldlM loyalExec (boot 0)) = true := by
    decide
  obtain ⟨t, ht, hm⟩ := okWith_eq_true.mp hrun
  have hr : Run LoyalStep (boot 0) refillTrace t :=
    (Run.of_foldlM ht).mono fun _ _ _ => loyalExec_step
  exact ⟨t, hr, of_decide_eq_true hm, pipe_sleepers_wait (fun q e h => by simp [Machine.Asleep, boot] at h) hr⟩

set_option maxRecDepth 20000 in
theorem killed_writer_leaves_reader_asleep :
    ¬ ∀ as t, Run (Step code) (boot 0) as t →
      (∀ q, t.Asleep q .nread → t.mem.pipe.Empty ∧ t.mem.pipe.writeopen = true) ∧
      ∀ q, t.Asleep q .nwrite → t.mem.pipe.Full ∧ t.mem.pipe.readopen = true := by
  intro hall
  have hrun : okWith (fun t : M Nat => decide (t.Asleep 1 .nread ∧ ¬ t.mem.pipe.Empty))
      (killedTrace.foldlM (exec code) (boot 0)) = true := by
    decide
  obtain ⟨t, ht, hm⟩ := okWith_eq_true.mp hrun
  obtain ⟨hasleep, hne⟩ := of_decide_eq_true hm
  exact hne ((hall _ t (Run.of_foldlM ht)).1 1 hasleep).1

end Yonix.Sync.Pipes
