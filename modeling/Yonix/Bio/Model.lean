/-
  Yonix/Bio/Model.lean
  ====================
  **The buffer cache (`bio.c`) under concurrent use.**

  Processes call `bread`, change the bytes of buffers they hold, call `log_write`
  or `bwrite` on them, and `brelse` them.  A process gives up the CPU only where
  the source sleeps: in the loop of `acquiresleep` and in the loop of `iderw`.  Its
  place in those loops is its `Pc`; the label `wake` lets it look at its loop
  condition again, whatever woke it, and `ideintr` is the disk interrupt for the
  request at the head of `idequeue`.

  A sleep lock is the process it is held by (`locked` and `pid` are always written
  together).  `log_write` touches the buffer only through `B_DIRTY`; what it does
  to the log header is in `Log/Model.lean`.

  Three components are bookkeeping for the statements and are read by no function:
  `spec`, the bytes last put into each block by a holder that then called
  `log_write` or `bwrite`; `pend`, set from a change of a buffer's bytes to that
  call; and `rel`, the time of each buffer's last `brelse`.
-/
import Yonix.Lib.Run
import Yonix.Lib.Ring
import Yonix.Param

namespace Yonix.Bio

abbrev BufId := Fin NBUF

/-- The device of the file system, and the `-1` that `binit` stores. -/
def DEV : Nat := 1
def NODEV : Nat := 2 ^ 32 - 1

/-- `struct buf` without its ring links. -/
structure Buf (P : Type) where
  valid : Bool
  dirty : Bool
  dev : Nat
  blockno : Nat
  lock : Option P
  refcnt : Nat
  data : Block

inductive Io where
  | read (blk : Nat)
  | write
deriving DecidableEq

/-- Where a process is: in its own code, asleep in `acquiresleep` inside
    `bread(blk)`, or asleep in `iderw`. -/
inductive Pc where
  | run
  | acquire (b : BufId) (blk : Nat)
  | io (b : BufId) (k : Io)
deriving DecidableEq

structure Cache (P : Type) where
  buf : BufId → Buf P
  ring : Ring BufId
  idequeue : List BufId
  disk : Nat → Block
  pc : P → Pc
  pend : BufId → Bool
  spec : Nat → Block
  clock : Nat
  rel : BufId → Nat

variable {P : Type} [DecidableEq P]

def Cache.setBuf (s : Cache P) (b : BufId) (f : Buf P → Buf P) : Cache P :=
  { s with buf := Function.update s.buf b (f (s.buf b)) }

def Cache.setPc (s : Cache P) (p : P) (pc : Pc) : Cache P :=
  { s with pc := Function.update s.pc p pc }

/-- `binit`: every buffer unlabelled, each put behind the head in turn. -/
def binit (disk : Nat → Block) : Cache P where
  buf := fun _ => ⟨false, false, NODEV, 0, none, 0, Bytes.zero⟩
  ring := (List.finRange NBUF).foldl Ring.insertHead Ring.empty
  idequeue := []
  disk := disk
  pc := fun _ => .run
  pend := fun _ => false
  spec := disk
  clock := 0
  rel := fun _ => 0

/-! ### Looking up a buffer -/

-- first loop of `bget`
def lookup (s : Cache P) (blk : Nat) : Option BufId :=
  (s.ring.walkNext (NBUF + 1) none).find? fun b =>
    (s.buf b).dev = DEV ∧ (s.buf b).blockno = blk

-- second loop of `bget`
def victim (s : Cache P) : Option BufId :=
  (s.ring.walkPrev (NBUF + 1) none).find? fun b =>
    (s.buf b).refcnt = 0 ∧ (s.buf b).dirty = false

/-- `bget` up to its call of `acquiresleep`. -/
def bgetEnter (s : Cache P) (blk : Nat) : Except Panic (Cache P × BufId) :=
  match lookup s blk with
  | some b => .ok (s.setBuf b fun f => { f with refcnt := f.refcnt + 1 }, b)
  | none =>
    match victim s with
    | some b => .ok (s.setBuf b fun f =>
        { f with dev := DEV, blockno := blk, valid := false, dirty := false, refcnt := 1 }, b)
    | none => .error .noBuffers

/-! ### The disk driver -/

def idestart (s : Cache P) (b : BufId) : Except Panic (Cache P) :=
  if FSSIZE ≤ (s.buf b).blockno then .error .incorrectBlockno else .ok s

/-- `iderw` up to its sleep loop. -/
def iderw (s : Cache P) (b : BufId) : Except Panic (Cache P) :=
  if (s.buf b).lock = none then .error .bufNotLocked
  else if (s.buf b).valid ∧ (s.buf b).dirty = false then .error .nothingToDo
  else
    let t := { s with idequeue := s.idequeue ++ [b] }
    if s.idequeue = [] then idestart t b else .ok t

/-- The transfer that the head request completes. -/
def transfer (s : Cache P) (b : BufId) : Cache P :=
  if (s.buf b).dirty then
    { s with disk := Function.update s.disk (s.buf b).blockno (s.buf b).data }
  else s.setBuf b fun f => { f with data := s.disk f.blockno }

def ideintr (s : Cache P) : Except Panic (Cache P) :=
  match s.idequeue with
  | [] => .ok s
  | b :: q =>
    let t := (transfer { s with idequeue := q } b).setBuf b fun f =>
      { f with valid := true, dirty := false }
    match q with
    | [] => .ok t
    | c :: _ => idestart t c

/-! ### The interface -/

/-- `acquiresleep` in `bget`, and the rest of `bread` once the lock is taken.  The
    second component is the buffer that `bread` returns. -/
def acquire (s : Cache P) (p : P) (b : BufId) (blk : Nat) :
    Except Panic (Cache P × Option BufId) :=
  if (s.buf b).lock ≠ none then .ok (s.setPc p (.acquire b blk), none)
  else
    let s := s.setBuf b fun f => { f with lock := some p }
    if (s.buf b).valid then .ok (s.setPc p .run, some b)
    else do
      let s ← iderw s b
      return (s.setPc p (.io b (.read blk)), none)

def bread (s : Cache P) (p : P) (blk : Nat) : Except Panic (Cache P × Option BufId) := do
  let (s, b) ← bgetEnter s blk
  acquire s p b blk

def logWrite (s : Cache P) (b : BufId) : Cache P :=
  let s := s.setBuf b fun f => { f with dirty := true }
  { s with
    pend := Function.update s.pend b false
    spec := Function.update s.spec (s.buf b).blockno (s.buf b).data }

def bwrite (s : Cache P) (p : P) (b : BufId) : Except Panic (Cache P) :=
  if (s.buf b).lock = none then .error .bwrite
  else do
    let s ← iderw (logWrite s b) b
    return s.setPc p (.io b .write)

/-- `releasesleep`, the reference count, and the move to the front of the ring. -/
def brelse (s : Cache P) (b : BufId) : Except Panic (Cache P) :=
  if (s.buf b).lock = none then .error .brelse
  else
    let s := s.setBuf b fun f => { f with lock := none, refcnt := f.refcnt - 1 }
    let s := { s with clock := s.clock + 1, rel := Function.update s.rel b (s.clock + 1) }
    if (s.buf b).refcnt = 0 then .ok { s with ring := (s.ring.unlink b).insertHead b } else .ok s

/-! ### Interleavings -/

inductive Act (P : Type) where
  | bread (p : P) (blk : Nat)
  | wake (p : P)
  | ideintr
  | modify (p : P) (b : BufId) (x : Block)
  | logWrite (p : P) (b : BufId)
  | bwrite (p : P) (b : BufId)
  | brelse (p : P) (b : BufId)

/-- A `bread(blk)` by `p` that returned buffer `b`. -/
structure Ret (P : Type) where
  p : P
  blk : Nat
  b : BufId

-- the holder of `b`, in its own code
def Cache.Owns (s : Cache P) (p : P) (b : BufId) : Prop := s.pc p = .run ∧ (s.buf b).lock = some p

instance (s : Cache P) (p : P) (b : BufId) : Decidable (s.Owns p b) := by
  unfold Cache.Owns; infer_instance

/-- One uninterrupted stretch of one process, or the disk interrupt.  `notCalled`
    is what the discipline of the callers excludes: acting while asleep, using a
    buffer that is not held, releasing one whose change was not announced. -/
def exec (s : Cache P) : Act P → Except Stop (Cache P × Option (Ret P))
  | .bread p blk =>
    if s.pc p = .run then do
      let (s, r) ← liftPanic (bread s p blk)
      return (s, r.map fun b => ⟨p, blk, b⟩)
    else .error .notCalled
  | .wake p =>
    match s.pc p with
    | .run => .error .notCalled
    | .acquire b blk => do
      let (s, r) ← liftPanic (acquire s p b blk)
      return (s, r.map fun b => ⟨p, blk, b⟩)
    | .io b k =>
      if (s.buf b).valid ∧ (s.buf b).dirty = false then
        .ok (s.setPc p .run, match k with
          | .read blk => some ⟨p, blk, b⟩
          | .write => none)
      else .ok (s, none)
  | .ideintr => do
    let s ← liftPanic (ideintr s)
    return (s, none)
  | .modify p b x =>
    if s.Owns p b then
      .ok ({ s.setBuf b (fun f => { f with data := x }) with
        pend := Function.update s.pend b true }, none)
    else .error .notCalled
  | .logWrite p b =>
    if s.Owns p b then .ok (logWrite s b, none) else .error .notCalled
  | .bwrite p b =>
    if s.Owns p b then do
      let s ← liftPanic (bwrite s p b)
      return (s, none)
    else .error .notCalled
  | .brelse p b =>
    if s.Owns p b ∧ s.pend b = false then do
      let s ← liftPanic (brelse s b)
      return (s, none)
    else .error .notCalled

def Step (s : Cache P) (a : Act P) (t : Cache P) : Prop := ∃ r, exec s a = .ok (t, r)

end Yonix.Bio
