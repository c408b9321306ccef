/-
  Yonix/Sys/Model.lean
  ====================
  **System calls that store through an address of the caller (`syscall.c`, `sysproc.c`,
  `sysfile.c`, `atomic.c`, `semaphore.c`).**

  The kernel runs on the page directory of the caller, so an address from the
  arguments is dereferenced as it is.  `mem` is the whole 32-bit address space by
  bytes, and an address past the end wraps around.  `stored` collects the addresses of
  the bytes that the call under way has stored through such an address.  Which pages
  are present is not part of this model: an access to an address without a page traps
  in kernel mode and the kernel panics, and here the store counts.

  The objects the kernel keeps for itself (open files, pipes, inodes, the trap frame of
  the caller) have components of their own; that a call changes them is its
  bookkeeping.  What `pipealloc`, `procalloc` and the scan of `lwp_join` find is given.
  A call that sleeps ends in `asleep`: when it is woken up it tests again, which is the
  same call in the memory of that time.
-/
import Yonix.Param

namespace Yonix.Sys

/-! ### The data -/

/-- A 32-bit word as an `int`. -/
def toInt (w : Nat) : Int := if w < 2 ^ 31 then w else w - 2 ^ 32

def ofInt (i : Int) : Nat := (i % 2 ^ 32).toNat

def T_DEV : Int := 3
def CONSOLE : Int := 1

/-- `sizeof(struct trapframe)`. -/
def TFSIZE : Nat := 76

/-- `sizeof(struct stat)`. -/
def STATSIZE : Nat := 20

structure Pipe where
  /-- the bytes between `nread` and `nwrite` -/
  data : List UInt8
  writeopen : Bool

inductive FileType where
  | none
  | pipe (p : Nat)
  | inode (i : Nat)

structure File where
  type : FileType
  readable : Bool
  off : Nat

structure Inode where
  dev : Nat
  inum : Nat
  type : Int
  major : Int
  nlink : Int
  size : Nat
  data : Nat → UInt8

inductive Scheme where
  | fifo
  | rr
  | pri

/-- `scheme_method` of `sched_reftable`: "FIFO", "RR" and "PRIORITY". -/
def Scheme.method : Scheme → List UInt8
  | .fifo => [70, 73, 70, 79]
  | .rr => [82, 82]
  | .pri => [80, 82, 73, 79, 82, 73, 84, 89]

/-- What `lwp_join` finds among the slots: no thread of the caller, none that has
    exited, or one that has, with its `p_stack`. -/
inductive Scan where
  | noKid
  | none
  | zombie (pid : Nat) (stack : Nat)

structure Space where
  mem : Nat → UInt8
  stored : List Nat
  /-- of the caller: `p_size`, `p_tf`, `p_stack`, `p_killed` and `p_of` -/
  size : Nat
  tf : Bytes TFSIZE
  stack : UInt32
  killed : Bool
  ofile : Nat → Option Nat
  file : Nat → File
  pipe : Nat → Pipe
  inode : Nat → Inode
  /-- the characters that the console delivers during the call -/
  input : List UInt8
  scheme : Scheme
  freshPipe : Option (Nat × Nat × Nat)
  freshProc : Option Nat
  scan : Scan

/-- `p_tf->esp`. -/
def Space.esp (s : Space) : Nat := s.tf.getLE 68 4

def Space.load (s : Space) (a : Nat) : UInt8 := s.mem (a % 2 ^ 32)

def Space.store (s : Space) (a : Nat) (b : UInt8) : Space :=
  { s with mem := Function.update s.mem (a % 2 ^ 32) b, stored := a % 2 ^ 32 :: s.stored }

def Space.loadWord (s : Space) (a : Nat) : Nat :=
  (s.load a).toNat + 256 * ((s.load (a + 1)).toNat + 256 * ((s.load (a + 2)).toNat +
    256 * (s.load (a + 3)).toNat))

/-- Store `n` bytes upwards from `a`. -/
def Space.storeBytes (a : Nat) (src : Nat → UInt8) : Nat → Space → Space
  | 0, s => s
  | n + 1, s => (Space.storeBytes a src n s).store (a + n) (src n)

def Space.storeLE (s : Space) (a w v : Nat) : Space := s.storeBytes a (Bytes.leByte v) w

def Space.storeWord (s : Space) (a v : Nat) : Space := s.storeLE a 4 v

/-! ### Arguments -/

def fetchint (s : Space) (addr : Nat) : Option Nat :=
  if s.size ≤ addr ∨ s.size < (addr + 4) % 2 ^ 32 then none else some (s.loadWord addr)

def argint (s : Space) (n : Nat) : Option Nat := fetchint s ((s.esp + 4 + 4 * n) % 2 ^ 32)

def argptr (s : Space) (n : Nat) (size : Int) : Option Nat :=
  match argint s n with
  | none => none
  | some i => if size < 0 ∨ s.size ≤ i ∨ s.size < (i + ofInt size) % 2 ^ 32 then none else some i

/-- The file of descriptor argument `n`. -/
def argfd (s : Space) (n : Nat) : Option Nat :=
  match argint s n with
  | none => none
  | some fd => if toInt fd < 0 ∨ (NOFILE : Int) ≤ toInt fd then none else s.ofile fd

/-- What a call returns, and the state it leaves. -/
abbrev Outcome := Except Stop Int × Space

/-- `return -1`. -/
def fail (s : Space) : Outcome := (.ok (-1), s)

/-! ### `string.c` -/

def copyUp : Nat → Nat → Nat → Space → Space
  | _, _, 0, s => s
  | d, p, n + 1, s => copyUp ((d + 1) % 2 ^ 32) ((p + 1) % 2 ^ 32) n (s.store d (s.load p))

/-- From the ends downwards. -/
def copyDown : Nat → Nat → Nat → Space → Space
  | _, _, 0, s => s
  | d, p, n + 1, s =>
    let d := (d + (2 ^ 32 - 1)) % 2 ^ 32
    let p := (p + (2 ^ 32 - 1)) % 2 ^ 32
    copyDown d p n (s.store d (s.load p))

def memmove (d p n : Nat) (s : Space) : Space :=
  if p < d ∧ d < (p + n) % 2 ^ 32 then copyDown ((d + n) % 2 ^ 32) ((p + n) % 2 ^ 32) n s
  else copyUp d p n s

/-- The loop of `safestrcpy` with `n` rounds left. -/
def strcpyLoop : Nat → Nat → List UInt8 → Space → Space
  | 0, a, _, s => s.store a 0
  | n + 1, a, t, s =>
    let c := t.headD 0
    if c = 0 then (s.store a c).store (a + 1) 0 else strcpyLoop n (a + 1) t.tail (s.store a c)

def safestrcpy (a : Nat) (t : List UInt8) (n : Nat) (s : Space) : Space :=
  if n = 0 then s else strcpyLoop (n - 1) a t s

/-! ### `read`, `fstat` and `pipe` -/

def piperead (s : Space) (p addr : Nat) (n : Nat) : Outcome :=
  let P := s.pipe p
  if P.data = [] ∧ P.writeopen then
    if s.killed then (.ok (-1), s) else (.error .asleep, s)
  else
    let k := min n P.data.length
    let s := s.storeBytes addr (fun i => P.data.getD i 0) k
    (.ok k, { s with pipe := Function.update s.pipe p { P with data := P.data.drop k } })

/-- `consoleread` with `n` of `target` bytes left. -/
def consoleLoop (target : Nat) : Nat → Nat → Space → Outcome
  | 0, _, s => (.ok target, s)
  | n + 1, dst, s =>
    match s.input with
    | [] => if s.killed then (.ok (-1), s) else (.error .asleep, s)
    | c :: l =>
      -- control-D
      if c = 4 then
        if n + 1 < target then (.ok ((target : Int) - (n + 1)), s)
        else (.ok ((target : Int) - (n + 1)), { s with input := l })
      else
        let s := { s with input := l }.store dst c
        if c = 10 then (.ok ((target : Int) - n), s) else consoleLoop target n (dst + 1) s

def readi (s : Space) (ip : Nat) (dst off n : Nat) : Outcome :=
  let I := s.inode ip
  if I.type = T_DEV then
    if I.major < 0 ∨ (NDEV : Int) ≤ I.major ∨ I.major ≠ CONSOLE then fail s
    else consoleLoop n n dst s
  else if I.size < off ∨ (off + n) % 2 ^ 32 < off then fail s
  else
    let n := if I.size < (off + n) % 2 ^ 32 then I.size - off else n
    (.ok n, s.storeBytes dst (fun k => I.data (off + k)) n)

/-- `f->off += r` for a positive `r`. -/
def advance (f : Nat) : Outcome → Outcome
  | (.ok r, s) =>
    if 0 < r then
      let F := s.file f
      (.ok r, { s with file := Function.update s.file f { F with off := (F.off + r.toNat) % 2 ^ 32 } })
    else (.ok r, s)
  | (.error e, s) => (.error e, s)

def fileread (s : Space) (f addr n : Nat) : Outcome :=
  let F := s.file f
  if F.readable = false then fail s
  else match F.type with
    | .pipe p => piperead s p addr n
    | .inode i => advance f (readi s i addr F.off n)
    | .none => (.error (.panic .fileread), s)

def sysRead (s : Space) : Outcome :=
  match argfd s 0, argint s 2 with
  | some f, some n =>
    match argptr s 1 (toInt n) with
    | some p => fileread s f p n
    | none => fail s
  | _, _ => fail s

/-- The fields of `struct stat` in the order of the assignments. -/
def stati (s : Space) (ip st : Nat) : Space :=
  let I := s.inode ip
  ((((s.storeWord (st + 4) I.dev).storeWord (st + 8) I.inum).storeLE st 2 (ofInt I.type)).storeLE
    (st + 12) 2 (ofInt I.nlink)).storeWord (st + 16) I.size

def filestat (s : Space) (f st : Nat) : Outcome :=
  match (s.file f).type with
  | .inode i => (.ok 0, stati s i st)
  | _ => fail s

def sysFstat (s : Space) : Outcome :=
  match argfd s 0, argptr s 1 STATSIZE with
  | some f, some st => filestat s f st
  | _, _ => fail s

def fdalloc (s : Space) (f : Nat) : Option (Nat × Space) :=
  match (List.range NOFILE).find? fun fd => (s.ofile fd).isNone with
  | none => none
  | some fd => some (fd, { s with ofile := Function.update s.ofile fd (some f) })

/-- The two files and the pipe of `pipealloc`, when there are such. -/
def pipealloc (s : Space) : Option (Nat × Nat × Space) :=
  match s.freshPipe with
  | none => none
  | some (rf, wf, p) => some (rf, wf, { s with
      pipe := Function.update s.pipe p ⟨[], true⟩
      file := Function.update (Function.update s.file rf { s.file rf with type := .pipe p, readable := true })
        wf { s.file wf with type := .pipe p, readable := false } })

/-- `fileclose` of a file with one reference. -/
def fileclose (s : Space) (f : Nat) : Space :=
  { s with file := Function.update s.file f { s.file f with type := .none } }

def sysPipe (s : Space) : Outcome :=
  match argptr s 0 8 with
  | none => fail s
  | some fd =>
    match pipealloc s with
    | none => fail s
    | some (rf, wf, s) =>
      match fdalloc s rf with
      | none => fail (fileclose (fileclose s rf) wf)
      | some (fd0, t) =>
        match fdalloc t wf with
        | none => fail (fileclose (fileclose s rf) wf)
        | some (fd1, t) => (.ok 0, (t.storeWord fd fd0).storeWord (fd + 4) fd1)

/-! ### Arithmetic -/

/-- The division instruction: the trap of a zero divisor or an overflow panics. -/
def idiv (op : Int → Int → Int) (a b : Nat) : Except Stop Nat :=
  if toInt b = 0 ∨ toInt a = INT_MIN ∧ toInt b = -1 then .error (.panic .trap)
  else .ok (ofInt (op (toInt a) (toInt b)))

/-- An operation of `atomic.c` on two words, with the address of the result. -/
def atomic (op : Nat → Nat → Except Stop Nat) (a b c : Nat) (s : Space) : Outcome :=
  match op a b with
  | .ok v => (.ok 0, s.storeWord c v)
  | .error e => (.error e, s)

def atomicAdd : Nat → Nat → Nat → Space → Outcome := atomic fun a b => .ok ((a + b) % 2 ^ 32)
def atomicSub : Nat → Nat → Nat → Space → Outcome := atomic fun a b => .ok ((a + 2 ^ 32 - b) % 2 ^ 32)
def atomicMulti : Nat → Nat → Nat → Space → Outcome := atomic fun a b => .ok (a * b % 2 ^ 32)
def atomicDivide : Nat → Nat → Nat → Space → Outcome := atomic (idiv Int.tdiv)
def atomicMod : Nat → Nat → Nat → Space → Outcome := atomic (idiv Int.tmod)

def atomicSet (a b : Nat) (s : Space) : Outcome := (.ok 0, s.storeWord a b)

def atomicSwap (a b : Nat) (s : Space) : Outcome :=
  let temp := s.loadWord a
  let s := s.storeWord a (s.loadWord b)
  (.ok 0, s.storeWord b temp)

/-! ### Semaphores -/

def semInit (num sem : Nat) (s : Space) : Outcome :=
  if toInt num < 0 then (.error (.panic .semaphoreInit), s) else (.ok 0, s.storeWord sem num)

def semP (step sem : Nat) (s : Space) : Outcome :=
  if toInt step < 0 then (.error (.panic .semaphoreP), s)
  else if toInt (s.loadWord sem) ≤ toInt step - 1 then (.error .asleep, s)
  else (.ok 0, s.storeWord sem ((s.loadWord sem + 2 ^ 32 - step) % 2 ^ 32))

def semV (step sem : Nat) (s : Space) : Outcome :=
  if toInt step < 0 then (.error (.panic .semaphoreV), s)
  else (.ok 0, s.storeWord sem ((s.loadWord sem + step) % 2 ^ 32))

def mutexInit (sem : Nat) (s : Space) : Outcome := (.ok 0, s.storeWord sem 1)

def mutexP (sem : Nat) (s : Space) : Outcome :=
  if toInt (s.loadWord sem) ≤ 0 then (.error .asleep, s)
  else (.ok 0, s.storeWord sem ((s.loadWord sem + (2 ^ 32 - 1)) % 2 ^ 32))

def mutexV (sem : Nat) (s : Space) : Outcome :=
  (.ok 0, s.storeWord sem ((s.loadWord sem + 1) % 2 ^ 32))

/-! ### Threads and the scheduler -/

/-- The two words on the stack of the new thread. -/
def lwpCreate (arg stack stksz : Nat) (s : Space) : Outcome :=
  match s.freshProc with
  | none => fail s
  | some pid =>
    let esp := (stack + stksz + (2 ^ 32 - 4)) % 2 ^ 32
    (.ok pid, (s.storeWord esp arg).storeWord (esp + (2 ^ 32 - 4)) 0xffffffff)

def lwpJoin (stack : Nat) (s : Space) : Outcome :=
  match s.scan with
  | .zombie pid p => (.ok pid, s.storeWord stack p)
  | .noKid => fail s
  | .none => if s.killed then fail s else (.error .asleep, s)

def schedName (name : Nat) (s : Space) : Outcome :=
  (.ok 0, safestrcpy name s.scheme.method (s.scheme.method.length + 1) s)

def dynamicSstore (stack tf stksz : Nat) (s : Space) : Outcome :=
  let s := memmove stack s.stack.toNat stksz s
  (.ok 0, s.storeBytes tf s.tf.get TFSIZE)

def dynamicRestart (stack tf stksz : Nat) (s : Space) : Outcome :=
  let s := memmove s.stack.toNat stack stksz s
  (.ok 0, { s with tf := fun k => s.load (tf + k) })

/-! ### The calls -/

def withArg (s : Space) (k : Nat → Space → Outcome) : Outcome :=
  match argint s 0 with
  | some a => k a s
  | none => fail s

def withArgs2 (s : Space) (k : Nat → Nat → Space → Outcome) : Outcome :=
  match argint s 0, argint s 1 with
  | some a, some b => k a b s
  | _, _ => fail s

def withArgs3 (s : Space) (k : Nat → Nat → Nat → Space → Outcome) : Outcome :=
  match argint s 0, argint s 1, argint s 2 with
  | some a, some b, some c => k a b c s
  | _, _, _ => fail s

def sysLwpCreate (s : Space) : Outcome :=
  match argint s 0, argint s 1, argint s 2, argint s 3 with
  | some _, some arg, some stack, some stksz =>
    if toInt stksz < 0 then fail s else lwpCreate arg stack stksz s
  | _, _, _, _ => fail s

/-- The calls that store through an address of the caller. -/
inductive Call where
  | read
  | fstat
  | pipe
  | atomAdd
  | atomSub
  | atomMul
  | atomDiv
  | atomMod
  | atomSet
  | atomSwp
  | semInit
  | semP
  | semV
  | mutInit
  | mutP
  | mutV
  | lwpCreate
  | lwpJoin
  | schedName
  | dsstore
  | dsrestart

def perform (s : Space) : Call → Outcome
  | .read => sysRead s
  | .fstat => sysFstat s
  | .pipe => sysPipe s
  | .atomAdd => withArgs3 s atomicAdd
  | .atomSub => withArgs3 s atomicSub
  | .atomMul => withArgs3 s atomicMulti
  | .atomDiv => withArgs3 s atomicDivide
  | .atomMod => withArgs3 s atomicMod
  | .atomSet => withArgs2 s atomicSet
  | .atomSwp => withArgs2 s atomicSwap
  | .semInit => withArgs2 s semInit
  | .semP => withArgs2 s semP
  | .semV => withArgs2 s semV
  | .mutInit => withArg s mutexInit
  | .mutP => withArg s mutexP
  | .mutV => withArg s mutexV
  | .lwpCreate => sysLwpCreate s
  | .lwpJoin => withArg s lwpJoin
  | .schedName => withArg s schedName
  | .dsstore => withArgs3 s dynamicSstore
  | .dsrestart => withArgs3 s dynamicRestart

/-- A call, with nothing stored yet. -/
def syscall (s : Space) (c : Call) : Outcome := perform { s with stored := [] } c

end Yonix.Sys
