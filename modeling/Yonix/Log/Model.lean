/-
  Yonix/Log/Model.lean
  ====================
  **The write-ahead log (`log.c`) over the buffered disk.**

  `log.c` reaches the disk only through `bread`, `bwrite` and the `B_DIRTY` flag
  that `log_write` sets, so the disk is seen here as `Dev`: the block contents on
  the medium, the contents of the buffers that are newer than the medium, and
  the list of single-block writes issued so far.  The last component is what a
  machine that stops leaves behind: the disk after some prefix of those writes.

  The in-core header `log.lh` is the list of its first `n` block numbers, so
  `log.lh.n = 0` is the empty list.  On disk it is the `struct logheader` laid
  over block `log.start`: word 0 is `n` and word `i + 1` is `block[i]`.

  `outstanding` is an `Int` because the source counts it down without a check.
-/
import Yonix.Param

namespace Yonix

/-! ### The buffered disk -/

/-- The disk as the layers above the buffer cache see it. -/
structure Dev where
  /-- what each block holds on the medium -/
  disk : Nat → Block
  /-- the contents of a buffer whose `B_DIRTY` flag is set -/
  dirty : Nat → Option Block
  /-- the single-block writes issued so far, oldest first -/
  writes : List (Nat × Block)

namespace Dev

/-- A freshly booted machine: no buffer holds anything. -/
def boot (disk : Nat → Block) : Dev := ⟨disk, fun _ => none, []⟩

/-- `bread`: the dirty buffer of the block if it has one, else the medium.
    `idestart` refuses a block number past the end of the disk. -/
def bread (d : Dev) (b : Nat) : Except Panic Block :=
  if FSSIZE ≤ b then .error .incorrectBlockno else .ok ((d.dirty b).getD (d.disk b))

/-- `bwrite` of a buffer for block `b` that holds `x`. -/
def bwrite (d : Dev) (b : Nat) (x : Block) : Except Panic Dev :=
  if FSSIZE ≤ b then .error .incorrectBlockno
  else .ok
    { disk := Function.update d.disk b x
      dirty := Function.update d.dirty b none
      writes := d.writes ++ [(b, x)] }

end Dev

namespace Log

/-- `log.start` and `log.size`, read from the superblock by `initlog`.  The log
    area is on the disk and has room for its header. -/
structure Conf where
  start : Nat
  size : Nat
  pos : 0 < size
  inDisk : start + size ≤ FSSIZE

/-- Block `b` is the log header or a log block. -/
def Conf.InLog (c : Conf) (b : Nat) : Prop := c.start ≤ b ∧ b < c.start + c.size

instance (c : Conf) (b : Nat) : Decidable (c.InLog b) := by unfold Conf.InLog; infer_instance

/-- The log and the disk below it. -/
structure State where
  dev : Dev
  outstanding : Int
  committing : Bool
  /-- `log.lh.block[0 .. log.lh.n)` -/
  block : List Nat

/-! ### The on-disk header -/

/-- `hb->n = n; hb->block[i] = block[i]` on the old header block. -/
def encodeHead (buf : Block) (block : List Nat) : Block :=
  block.zipIdx.foldl (fun buf p => buf.setWord (p.2 + 1) p.1) (buf.setWord 0 block.length)

/-- The header's `n` as the `int` it is. -/
def headCount (buf : Block) : Int := if buf.word 0 < 2 ^ 31 then buf.word 0 else buf.word 0 - 2 ^ 32

/-- `log.lh.block[i] = lh->block[i]` for `i < n`. -/
def decodeHead (buf : Block) : List Nat :=
  (List.range (headCount buf).toNat).map fun i => buf.word (i + 1)

/-- `write_head`. -/
def writeHead (c : Conf) (block : List Nat) (d : Dev) : Except Panic Dev := do
  let buf ← d.bread c.start
  d.bwrite c.start (encodeHead buf block)

/-- `read_head`. -/
def readHead (c : Conf) (d : Dev) : Except Panic (List Nat) := do
  let buf ← d.bread c.start
  return decodeHead buf

/-! ### Copying between the log and the home blocks -/

/-- `install_trans`, from index `tail` on. -/
def installTrans (c : Conf) : Nat → List Nat → Dev → Except Panic Dev
  | _, [], d => .ok d
  | tail, b :: bs, d => do
    let lbuf ← d.bread (c.start + tail + 1)
    let _dbuf ← d.bread b
    let d ← d.bwrite b lbuf
    installTrans c (tail + 1) bs d

/-- `write_log`, from index `tail` on. -/
def writeLog (c : Conf) : Nat → List Nat → Dev → Except Panic Dev
  | _, [], d => .ok d
  | tail, b :: bs, d => do
    let _to ← d.bread (c.start + tail + 1)
    let src ← d.bread b
    let d ← d.bwrite (c.start + tail + 1) src
    writeLog c (tail + 1) bs d

/-- `recover_from_log`, run by `initlog` at boot. -/
def recoverFromLog (c : Conf) (d : Dev) : Except Panic Dev := do
  let block ← readHead c d
  let d ← installTrans c 0 block d
  writeHead c [] d

/-- `commit`. -/
def commit (c : Conf) (s : State) : Except Panic State :=
  if 0 < s.block.length then do
    let d ← writeLog c 0 s.block s.dev
    let d ← writeHead c s.block d
    let d ← installTrans c 0 s.block d
    let d ← writeHead c [] d
    return { s with dev := d, block := [] }
  else .ok s

/-! ### Operations -/

/-- One pass of the loop of `begin_op`: `none` when it sleeps on the log. -/
def beginOp (s : State) : Option State :=
  if s.committing then none
  else if (s.block.length : Int) + (s.outstanding + 1) * MAXOPBLOCKS > LOGSIZE then none
  else some { s with outstanding := s.outstanding + 1 }

/-- `end_op` up to the commit: the new state and `do_commit`. -/
def endOpEnter (s : State) : Except Panic (State × Bool) :=
  let s := { s with outstanding := s.outstanding - 1 }
  if s.committing then .error .logCommitting
  else if s.outstanding = 0 then .ok ({ s with committing := true }, true)
  else .ok (s, false)

/-- `end_op` from the commit on. -/
def endOpCommit (c : Conf) (s : State) : Except Panic State := do
  let s ← commit c s
  return { s with committing := false }

/-- `end_op`. -/
def endOp (c : Conf) (s : State) : Except Panic State := do
  let (s, doCommit) ← endOpEnter s
  if doCommit then endOpCommit c s else return s

/-- `log_write` of a buffer for block `b` that holds `x`. -/
def logWrite (c : Conf) (b : Nat) (x : Block) (s : State) : Except Panic State :=
  if LOGSIZE ≤ s.block.length ∨ c.size - 1 ≤ s.block.length then .error .tooBigTransaction
  else if s.outstanding < 1 then .error .outsideTrans
  else .ok
    { s with
      block := if b ∈ s.block then s.block else s.block ++ [b]
      dev := { s.dev with dirty := Function.update s.dev.dirty b (some x) } }

/-- A holder reads block `b`, leaves `x` in its buffer and calls `log_write`. -/
def update (c : Conf) (b : Nat) (x : Block) (s : State) : Except Panic State := do
  let _old ← s.dev.bread b
  logWrite c b x s

/-- The log as `initlog` and `commit` leave it. -/
def init (d : Dev) : State := ⟨d, 0, false, []⟩

end Log

end Yonix
