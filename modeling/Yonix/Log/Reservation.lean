/-
  Yonix/Log/Reservation.lean
  ==========================
  **Does the reservation of `begin_op` cover the log blocks that exist?**

  Any number of processes run file-system operations concurrently.  A process
  enters an operation when `begin_op` returns, calls `log_write` on at most
  `MAXOPBLOCKS` distinct blocks, and leaves it by `end_op`; the last one to leave
  commits while the others may already be asleep in `begin_op`.  `begin_op` admits
  an operation when `lh.n + (outstanding + 1) * MAXOPBLOCKS ≤ LOGSIZE`.

  `mkfs` gives the log `LOGSIZE` blocks *including* its header, and `log_write`
  refuses to run once `lh.n ≥ log.size - 1`, before it looks whether the block is
  already logged.  The reservation therefore counts one block that does not exist:
  three admitted operations may log 30 distinct blocks, and the log holds 29
  (`three_full_operations_overflow`).  `logWrite_admitted_iff` says exactly which
  calls survive: those made while the operations of the current commit group have
  logged fewer than `LOGSIZE - 1` distinct blocks.
-/
import Yonix.Lib.Run
import Yonix.Log.Model

namespace Yonix.Log

/-! ### Processes over the log -/

/-- The log, the blocks each process has logged in the operation it is in, and
    the process that is inside `commit`. -/
structure Sys (P : Type) where
  log : State
  op : P → Option (List Nat)
  committer : Option P

inductive Act (P : Type) where
  | beginOp (p : P)
  | update (p : P) (b : Nat) (x : Block)
  | endOp (p : P)
  | commit (p : P)

variable {P : Type} [DecidableEq P]

-- the distinct blocks of an operation after one more `log_write`
def logged (bs : List Nat) (b : Nat) : List Nat := if b ∈ bs then bs else bs ++ [b]

/-- One call by one process.  `asleep` is a `begin_op` that does not return yet;
    `notCalled` is a call that a well-bracketed process which keeps to
    `MAXOPBLOCKS` distinct blocks does not make. -/
def exec (c : Conf) (s : Sys P) : Act P → Except Stop (Sys P)
  | .beginOp p =>
    match s.op p, Log.beginOp s.log with
    | some _, _ => .error .notCalled
    | none, none => .error .asleep
    | none, some l => .ok { s with log := l, op := Function.update s.op p (some []) }
  | .update p b x =>
    match s.op p with
    | none => .error .notCalled
    | some bs =>
      if (logged bs b).length ≤ MAXOPBLOCKS then do
        let l ← liftPanic (Log.update c b x s.log)
        return { s with log := l, op := Function.update s.op p (some (logged bs b)) }
      else .error .notCalled
  | .endOp p =>
    match s.op p with
    | none => .error .notCalled
    | some _ => do
      let (l, doCommit) ← liftPanic (endOpEnter s.log)
      return { log := l, op := Function.update s.op p none,
               committer := if doCommit then some p else s.committer }
  | .commit p =>
    if s.committer = some p then do
      let l ← liftPanic (endOpCommit c s.log)
      return { s with log := l, committer := none }
    else .error .notCalled

def Step (c : Conf) (s : Sys P) (a : Act P) (t : Sys P) : Prop := exec c s a = .ok t

def Sys.init (d : Dev) : Sys P := ⟨Log.init d, fun _ => none, none⟩

/-- The distinct blocks logged since the last commit, read off the calls. -/
def groupBlocks (acts : List (Act P)) : Finset Nat :=
  acts.foldl (fun g a => match a with
    | .update _ b _ => insert b g
    | .commit _ => ∅
    | _ => g) ∅

/-! ### The in-core header records the group -/

theorem logWrite_block {c : Conf} {b : Nat} {x : Block} {s t : State}
    (h : logWrite c b x s = .ok t) : t.block = logged s.block b := by
  simp only [logWrite] at h
  split at h
  · cases h
  · split at h
    · cases h
    · simp only [Except.ok.injEq] at h
      subst h
      rfl

theorem update_block {c : Conf} {b : Nat} {x : Block} {s t : State}
    (h : Log.update c b x s = .ok t) : t.block = logged s.block b := by
  simp only [Log.update, bind_eq_ok] at h
  obtain ⟨_, _, hw⟩ := h
  exact logWrite_block hw

theorem endOpEnter_block {s t : State} {doCommit : Bool}
    (h : endOpEnter s = .ok (t, doCommit)) : t.block = s.block := by
  simp only [endOpEnter] at h
  split at h
  · cases h
  · split at h
    · simp only [Except.ok.injEq, Prod.mk.injEq] at h
      rw [← h.1]
    · simp only [Except.ok.injEq, Prod.mk.injEq] at h
      rw [← h.1]

theorem endOpCommit_block {c : Conf} {s t : State} (h : endOpCommit c s = .ok t) :
    t.block = [] := by
  simp only [endOpCommit, bind_eq_ok] at h
  obtain ⟨u, hu, ht⟩ := h
  have hblock : u.block = [] := by
    simp only [commit] at hu
    split at hu
    · simp only [bind_eq_ok] at hu
      obtain ⟨_, _, _, _, _, _, d, _, hd⟩ := hu
      simp only [pure, Except.pure, Except.ok.injEq] at hd
      rw [← hd]
    · rename_i hlen
      simp only [Except.ok.injEq] at hu
      rw [← hu]
      exact List.length_eq_zero_iff.mp (Nat.eq_zero_of_not_pos hlen)
  simp only [pure, Except.pure, Except.ok.injEq] at ht
  rw [← ht]
  exact hblock

theorem toFinset_logged (bs : List Nat) (b : Nat) :
    (logged bs b).toFinset = insert b bs.toFinset := by
  unfold logged
  split
  · rename_i hb
    rw [Finset.insert_eq_of_mem (List.mem_toFinset.mpr hb)]
  · ext x
    simp only [List.mem_toFinset, List.mem_append, List.mem_singleton, Finset.mem_insert]
    exact or_comm

theorem nodup_logged {bs : List Nat} (h : bs.Nodup) (b : Nat) : (logged bs b).Nodup := by
  unfold logged
  split
  · exact h
  · rename_i hb
    exact List.Nodup.append h (List.nodup_singleton b)
      (by rw [List.disjoint_singleton]; exact hb)

/-- The header lists the blocks of the group, each once. -/
def Records (acts : List (Act P)) (s : Sys P) : Prop :=
  s.log.block.toFinset = groupBlocks acts ∧ s.log.block.Nodup

theorem Records.snoc {c : Conf} {acts : List (Act P)} {s t : Sys P} {a : Act P}
    (h : Records acts s) (hst : Step c s a t) : Records (acts ++ [a]) t := by
  obtain ⟨hset, hnd⟩ := h
  cases a with
  | beginOp p =>
    simp only [Step, exec] at hst
    split at hst
    · cases hst
    · cases hst
    · rename_i l _ hl
      have hblock : l.block = s.log.block := by
        simp only [Log.beginOp] at hl
        split at hl
        · cases hl
        · split at hl
          · cases hl
          · simp only [Option.some.injEq] at hl
            rw [← hl]
      simp only [Except.ok.injEq] at hst
      subst hst
      refine ⟨?_, by rw [hblock]; exact hnd⟩
      simp only [groupBlocks, List.foldl_append, List.foldl_cons, List.foldl_nil, hblock]
      exact hset
  | update p b x =>
    simp only [Step, exec] at hst
    split at hst
    · cases hst
    · split at hst
      · simp only [bind_eq_ok, liftPanic_eq_ok] at hst
        obtain ⟨l, hl, ht⟩ := hst
        simp only [pure, Except.pure, Except.ok.injEq] at ht
        subst ht
        have hblock := update_block hl
        refine ⟨?_, by rw [hblock]; exact nodup_logged hnd b⟩
        simp only [groupBlocks, List.foldl_append, List.foldl_cons, List.foldl_nil, hblock]
        rw [toFinset_logged, hset]
        rfl
      · cases hst
  | endOp p =>
    simp only [Step, exec] at hst
    split at hst
    · cases hst
    · simp only [bind_eq_ok, liftPanic_eq_ok] at hst
      obtain ⟨⟨l, doCommit⟩, hl, ht⟩ := hst
      simp only [pure, Except.pure, Except.ok.injEq] at ht
      subst ht
      have hblock := endOpEnter_block hl
      refine ⟨?_, by rw [hblock]; exact hnd⟩
      simp only [groupBlocks, List.foldl_append, List.foldl_cons, List.foldl_nil, hblock]
      exact hset
  | commit p =>
    simp only [Step, exec] at hst
    split at hst
    · simp only [bind_eq_ok, liftPanic_eq_ok] at hst
      obtain ⟨l, hl, ht⟩ := hst
      simp only [pure, Except.pure, Except.ok.injEq] at ht
      subst ht
      have hblock := endOpCommit_block hl
      refine ⟨?_, by rw [hblock]; exact List.nodup_nil⟩
      simp only [groupBlocks, List.foldl_append, List.foldl_cons, List.foldl_nil, hblock]
      rfl
    · cases hst

theorem records_of_run {c : Conf} {d : Dev} {acts : List (Act P)} {s : Sys P}
    (r : Run (Step c) (Sys.init d) acts s) : Records acts s :=
  Run.history Records ⟨rfl, List.nodup_nil⟩ (fun _ _ _ _ h hst => h.snoc hst) r

omit [DecidableEq P] in
theorem Records.length_eq {acts : List (Act P)} {s : Sys P} (h : Records acts s) :
    s.log.block.length = (groupBlocks acts).card := by
  rw [← h.1]
  exact (List.toFinset_card_of_nodup h.2).symm

/-! ### Which calls the log admits -/

/-- **The exact reach of the reservation.**  In every run of any processes over the
    log `mkfs` makes, a call of `log_write` by a process inside an operation that
    keeps to its `MAXOPBLOCKS` distinct blocks panics with "too big a transaction"
    exactly when the operations of the group have already logged `LOGSIZE - 1`
    distinct blocks. -/
theorem logWrite_admitted_iff {c : Conf} (hsize : c.size = LOGSIZE) {d : Dev}
    {acts : List (Act P)} {s : Sys P} (r : Run (Step c) (Sys.init d) acts s)
    {p : P} {bs : List Nat} (hop : s.op p = some bs) {b : Nat} (hb : b < FSSIZE)
    (hmax : (logged bs b).length ≤ MAXOPBLOCKS) (x : Block) :
    exec c s (.update p b x) ≠ .error (.panic .tooBigTransaction) ↔
      (groupBlocks acts).card < LOGSIZE - 1 := by
  have hlen := (records_of_run r).length_eq
  have hread : s.log.dev.bread b = .ok ((s.log.dev.dirty b).getD (s.log.dev.disk b)) := by
    rw [Dev.bread, if_neg (Nat.not_le.mpr hb)]
  -- the panic test of `log_write`, with `log.size = LOGSIZE`
  have hguard : (LOGSIZE ≤ s.log.block.length ∨ c.size - 1 ≤ s.log.block.length) ↔
      ¬ (groupBlocks acts).card < LOGSIZE - 1 := by
    rw [hsize, hlen]
    omega
  have hexec : exec c s (.update p b x) = (liftPanic (logWrite c b x s.log) >>= fun l =>
      .ok { s with log := l, op := Function.update s.op p (some (logged bs b)) }) := by
    simp only [exec, hop, if_pos hmax, Log.update, hread]
    rfl
  rw [hexec, logWrite]
  by_cases hg : (groupBlocks acts).card < LOGSIZE - 1
  · rw [if_neg (fun h => hguard.mp h hg)]
    refine iff_of_true ?_ hg
    split
    · intro h
      simp [liftPanic, bind, Except.bind] at h
    · intro h
      simp [liftPanic, bind, Except.bind] at h
  · rw [if_pos (hguard.mpr hg)]
    refine iff_of_false ?_ hg
    intro h
    exact h rfl

def mkfsConf : Conf := ⟨2, LOGSIZE, by decide, by decide⟩

def blankDev : Dev := Dev.boot fun _ => Bytes.zero

/-- One process, one block: the bound is met and the call goes through. -/
theorem logWrite_admitted_iff_single :
    exec mkfsConf ⟨⟨blankDev, 1, false, []⟩, fun p : Nat => if p = 0 then some [] else none, none⟩
        (.update 0 100 Bytes.zero) ≠ .error (.panic .tooBigTransaction) ↔
      (groupBlocks [Act.beginOp 0]).card < LOGSIZE - 1 := by
  have hrun : Run (Step mkfsConf) (Sys.init blankDev) [Act.beginOp 0]
      ⟨⟨blankDev, 1, false, []⟩, fun p : Nat => if p = 0 then some [] else none, none⟩ := by
    apply Run.single
    simp only [Step, exec, Sys.init, Log.init, Log.beginOp]
    norm_num [MAXOPBLOCKS, LOGSIZE]
    funext p
    simp only [Function.update_apply]
  exact logWrite_admitted_iff rfl hrun (show _ = some [] from rfl) (by decide) (by decide)
    Bytes.zero

-- operation `p` logs `k` distinct blocks of its own
def fill (p k : Nat) : List (Act Nat) :=
  (List.range k).map fun i => .update p (100 + 10 * p + i) Bytes.zero

def threeFull : List (Act Nat) :=
  [.beginOp 0, .beginOp 1, .beginOp 2] ++ fill 0 10 ++ fill 1 10 ++ fill 2 9

/-- Three operations are admitted, each keeps to its ten blocks, and the tenth
    block of the third one finds the log full. -/
theorem three_full_operations_overflow :
    ∃ s : Sys Nat, Run (Step mkfsConf) (Sys.init blankDev) threeFull s ∧
      s.op 2 = some ((List.range 9).map (120 + ·)) ∧
      exec mkfsConf s (.update 2 129 Bytes.zero) = .error (.panic .tooBigTransaction) := by
  exact ⟨_, Run.of_foldlM rfl, rfl, rfl⟩

end Yonix.Log
