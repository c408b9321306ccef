/-
  Yonix/Param.lean
  ================
  **Kernel parameters and panics.**

  The constants of `param.h`, `param_yonix.h`, `fs.h` and `mmu.h` that the modelled
  functions read, under their source names, and the panics those functions can
  reach.  A modelled function that panics returns its `Panic` as an error: the
  kernel stops there, so no state follows.
-/
import Yonix.Lib.Bytes

namespace Yonix

/-! ### `param.h` -/

def NPROC : Nat := 64
def NOFILE : Nat := 16
def NFILE : Nat := 100
def NINODE : Nat := 50
def NDEV : Nat := 10
def ROOTDEV : Nat := 1
def MAXARG : Nat := 32
def MAXOPBLOCKS : Nat := 10
def LOGSIZE : Nat := MAXOPBLOCKS * 3
def NBUF : Nat := MAXOPBLOCKS * 3
def FSSIZE : Nat := 1000

theorem NPROC_pos : 0 < NPROC := by decide

/-! ### `fs.h` -/

def ROOTINO : Nat := 1
def BSIZE : Nat := 512
def NDIRECT : Nat := 12
def NINDIRECT : Nat := BSIZE / 4
def MAXFILE : Nat := NDIRECT + NINDIRECT
def BPB : Nat := BSIZE * 8
def DIRSIZ : Nat := 14

/-- The contents of one disk block. -/
abbrev Block := Bytes BSIZE

/-! ### `mmu.h`, `memlayout.h` and the swap area of `param_yonix.h` -/

def PGSIZE : Nat := 4096
def NPDENTRIES : Nat := 1024
def NPTENTRIES : Nat := 1024
def KERNBASE : Nat := 0x80000000
def MAX_PID : Nat := 0xfff
def SLABSIZE : Nat := 32
def SLOTSIZE : Nat := 0x8000000 / PGSIZE

/-- The contents of one page of memory. -/
abbrev Page := Bytes PGSIZE

/-! ### The range of `int` -/

def INT_MIN : Int := -2147483648
def INT_MAX : Int := 2147483647

/-! ### Panics -/

/-- The panics of the modelled functions. -/
inductive Panic where
  | tooBigTransaction
  | outsideTrans
  | logCommitting
  | incorrectBlockno
  | noBuffers
  | bwrite
  | brelse
  | bufNotLocked
  | nothingToDo
  | schedRunning
  | initExiting
  | zombieExit
  | noPgdir
  | noPageToPageOut
  | noFreeSlot
  | slotNotFound
  | freeNonExistSlot
  | duplicateMapping
  | nonExistAddress
  | clearpteu
  | pageFault
  | semaphoreInit
  | semaphoreP
  | semaphoreV
  | userinitSetupkvm
  | fileread
  | trap
  | ballocOutOfBlocks
  | freeingFreeBlock
  | igetNoInodes
  | iallocNoInodes
  | ilock
  | ilockNoType
  | iunlock
  | bmapOutOfRange
  | dirlookupNotDir
  | dirlinkRead
  | dirlink
  | isdiremptyReadi
  | unlinkNlink
  | unlinkWritei
  | createDots
  | createDirlink
  | filedup
  | fileclose
  | filewrite
  | shortFilewrite
deriving DecidableEq, Repr

/-- The text the kernel prints. -/
def Panic.msg : Panic → String
  | .tooBigTransaction => "too big a transaction"
  | .outsideTrans => "log_write outside of trans"
  | .logCommitting => "log.committing"
  | .incorrectBlockno => "incorrect blockno"
  | .noBuffers => "bget: no buffers"
  | .bwrite => "bwrite"
  | .brelse => "brelse"
  | .bufNotLocked => "iderw: buf not locked"
  | .nothingToDo => "iderw: nothing to do"
  | .schedRunning => "sched running"
  | .initExiting => "init exiting"
  | .zombieExit => "zombie exit."
  | .noPgdir => "switchuvm: no pgdir"
  | .noPageToPageOut => "page_out: no page to page out"
  | .noFreeSlot => "alloc_swap: no free slot in swap space"
  | .slotNotFound => "find_slot: slot not found"
  | .freeNonExistSlot => "free_slot: free a non-exist slot"
  | .duplicateMapping => "Duplicate mapping"
  | .nonExistAddress => "loaduvm: non-exist address"
  | .clearpteu => "clearpteu: error"
  | .pageFault => "page fault"
  | .semaphoreInit => "semaphre init failed!"
  | .semaphoreP => "semaphre P error!"
  | .semaphoreV => "semaphre V error!"
  | .userinitSetupkvm => "userinit: setupkvm failed!"
  | .fileread => "fileread"
  | .trap => "trap"
  | .ballocOutOfBlocks => "balloc: out of blocks"
  | .freeingFreeBlock => "freeing free block"
  | .igetNoInodes => "iget: no inodes"
  | .iallocNoInodes => "ialloc: no inodes"
  | .ilock => "ilock"
  | .ilockNoType => "ilock: no type"
  | .iunlock => "iunlock"
  | .bmapOutOfRange => "bmap: out of range"
  | .dirlookupNotDir => "dirlookup not DIR"
  | .dirlinkRead => "dirlink read"
  | .dirlink => "dirlink"
  | .isdiremptyReadi => "isdirempty: readi"
  | .unlinkNlink => "unlink: nlink < 1"
  | .unlinkWritei => "unlink: writei"
  | .createDots => "create dots"
  | .createDirlink => "create: dirlink"
  | .filedup => "filedup"
  | .fileclose => "fileclose"
  | .filewrite => "filewrite"
  | .shortFilewrite => "short filewrite"

/-- Why a label is not performed: a panic, an access through a pointer that no longer
    points to what it was made for, a call that sleeps instead of returning, or a label
    that the callers' discipline excludes. -/
inductive Stop where
  | panic (p : Panic)
  | stray
  | asleep
  | notCalled
deriving DecidableEq

def liftPanic {α : Type} : Except Panic α → Except Stop α
  | .ok a => .ok a
  | .error p => .error (.panic p)

theorem liftPanic_eq_ok {α : Type} {x : Except Panic α} {a : α} :
    liftPanic x = .ok a ↔ x = .ok a := by
  cases x <;> simp [liftPanic]

end Yonix
