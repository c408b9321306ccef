/-
  Yonix/Mkfs/Model.lean
  =====================
  **The program that makes the disk image (`mkfs.c`).**

  `mkfs` runs on the host.  Its state is the image file and the two counters
  `freeinode` and `freeblock`.  It ends early when an assertion fails or a system call
  does: the only call that depends on what `mkfs` did is a read behind the end of the
  image.  An input file is its name, as it stands on the command line, and what the calls
  of `read` return for it until they return 0.

  A `struct dinode` and an array of `uint` have the same layout on disk and in the memory
  of the host, so both are read off the bytes of a block here.
-/
import Yonix.Fs.Calls

namespace Yonix.Mkfs

open Yonix.Fs

def NINODES : Nat := 200

def nbitmap : Nat := FSSIZE / (BSIZE * 8) + 1
def ninodeblocks : Nat := NINODES / IPB + 1
def nlog : Nat := LOGSIZE
def nmeta : Nat := 2 + nlog + ninodeblocks + nbitmap
def nblocks : Nat := FSSIZE - nmeta

structure State where
  /-- the image, and its length in sectors -/
  img : Nat → Block
  sectors : Nat
  freeinode : Nat
  freeblock : Nat

inductive Fail where
  | assert
  | exit
deriving DecidableEq

abbrev M := Code State Fail

def assert (c : Prop) [Decidable c] : M Unit := if c then return () else stop .assert

/-! ### Byte order -/

/-- The `ushort` whose bytes in memory are those of `x`, least significant first. -/
def xshort (x : Nat) : Nat := x % 256 + 256 * (x / 256 % 256)

def xint (x : Nat) : Nat :=
  x % 256 + 256 * (x / 256 % 256) + 65536 * (x / 65536 % 256) + 16777216 * (x / 16777216 % 256)

theorem xshort_eq {x : Nat} (h : x < 2 ^ 16) : xshort x = x := by
  unfold xshort
  omega

theorem xint_eq {x : Nat} (h : x < 2 ^ 32) : xint x = x := by
  unfold xint
  omega

/-! ### Sectors and inodes -/

def sb : Superblock where
  size := xint FSSIZE
  nblocks := xint nblocks
  ninodes := xint NINODES
  nlog := xint nlog
  logstart := xint 2
  inodestart := xint (2 + nlog)
  bmapstart := xint (2 + nlog + ninodeblocks)

/-- The bytes of `sb`. -/
def sbBytes (k : Nat) : UInt8 :=
  if k < 4 then Bytes.leByte sb.size k
  else if k < 8 then Bytes.leByte sb.nblocks (k - 4)
  else if k < 12 then Bytes.leByte sb.ninodes (k - 8)
  else if k < 16 then Bytes.leByte sb.nlog (k - 12)
  else if k < 20 then Bytes.leByte sb.logstart (k - 16)
  else if k < 24 then Bytes.leByte sb.inodestart (k - 20)
  else Bytes.leByte sb.bmapstart (k - 24)

/-- A write behind the end makes the image longer. -/
def wsect (sec : Nat) (buf : Block) : M Unit :=
  modify fun s => { s with img := Function.update s.img sec buf, sectors := max s.sectors (sec + 1) }

def rsect (sec : Nat) : M Block := do
  let s ← get
  if sec < s.sectors then return s.img sec else stop .exit

def winode (inum : Nat) (ip : Dinode) : M Unit := do
  let bn := sb.iblock inum
  let buf ← rsect bn
  wsect bn (putDinode buf inum ip)

def rinode (inum : Nat) : M Dinode := do
  let bn := sb.iblock inum
  let buf ← rsect bn
  return dinodeOf buf inum

/-- `freeinode++`. -/
def nextInode : M Nat := do
  let s ← get
  modify fun s => { s with freeinode := s.freeinode + 1 }
  return s.freeinode

/-- `freeblock++`. -/
def nextBlock : M Nat := do
  let s ← get
  modify fun s => { s with freeblock := s.freeblock + 1 }
  return s.freeblock

def ialloc (type : Nat) : M Nat := do
  let inum ← nextInode
  winode inum { Dinode.zero with type := xshort type, nlink := xshort 1, size := xint 0 }
  return inum

/-- The buffer of `balloc`, after `used` passes of its loop. -/
def ballocBuf : Nat → Block
  | 0 => Bytes.zero
  | i + 1 => (ballocBuf i).setBit i

def balloc (used : Nat) : M Unit := do
  assert (used < BSIZE * 8)
  wsect sb.bmapstart (ballocBuf used)

/-! ### `iappend` -/

/-- Element `j` of `din.addrs`, allocated if it is 0. -/
def addrOf (din : Dinode) (j : Nat) : M (Dinode × Nat) :=
  if xint (din.addrs j) = 0 then do
    let b ← nextBlock
    return (setAddr din j (xint b), xint (xint b))
  else return (din, xint (din.addrs j))

/-- The block `x` of `iappend`. -/
def blockFor (din : Dinode) (fbn : Nat) : M (Dinode × Nat) :=
  if fbn < NDIRECT then addrOf din fbn
  else do
    let (din, a) ← addrOf din NDIRECT
    let indirect ← rsect a
    if indirect.word (fbn - NDIRECT) = 0 then do
      let b ← nextBlock
      wsect a (indirect.setWord (fbn - NDIRECT) (xint b))
      return (din, xint (xint b))
    else return (din, xint (indirect.word (fbn - NDIRECT)))

/-- The loop of `iappend` with the bytes `p` left to append at `off`; the first argument is
    fuel. -/
def iappendLoop : Nat → Dinode → Nat → List UInt8 → M (Dinode × Nat)
  | 0, din, off, _ => return (din, off)
  | k + 1, din, off, p =>
    if p = [] then return (din, off)
    else do
      let fbn := off / BSIZE
      assert (fbn < MAXFILE)
      let (din, x) ← blockFor din fbn
      let n1 := min p.length ((fbn + 1) * BSIZE - off)
      let buf ← rsect x
      wsect x (buf.patch (off - fbn * BSIZE) (fun j => p.getD j 0) n1)
      iappendLoop k din (off + n1) (p.drop n1)

def iappend (inum : Nat) (p : List UInt8) : M Unit := do
  let din ← rinode inum
  let (din, off) ← iappendLoop p.length din (xint din.size) p
  winode inum { din with size := xint off }

/-! ### `main` -/

structure Input where
  name : List UInt8
  reads : List (List UInt8)

/-- A name is a string without slashes (`index(argv[i], '/') == 0` is asserted), and a
    call of `read` returns between 1 and `BSIZE` bytes. -/
structure Input.Ok (f : Input) : Prop where
  name : (0 : UInt8) ∉ f.name
  reads : ∀ r ∈ f.reads, r ≠ [] ∧ r.length ≤ BSIZE

/-- The bytes of the file. -/
def Input.bytes (f : Input) : List UInt8 := f.reads.flatten

/-- The name without a leading `_`. -/
def Input.stem (f : Input) : List UInt8 :=
  match f.name with
  | [] => []
  | c :: l => if c = 95 then l else c :: l

/-- The bytes of a `struct dirent`. -/
def direntOf (inum : Nat) (fname : List UInt8) : List UInt8 :=
  Bytes.leByte (xshort inum) 0 :: Bytes.leByte (xshort inum) 1 :: strncpy (strOf fname) 0 DIRSIZ

def readsLoop (inum : Nat) : List (List UInt8) → M Unit
  | [] => return ()
  | buf :: l => do
    iappend inum buf
    readsLoop inum l

/-- One pass of the loop over the input files. -/
def addFile (rootino : Nat) (f : Input) : M Unit := do
  assert (SLASH ∉ f.name)
  let inum ← ialloc T_FILE
  iappend rootino (direntOf inum f.stem)
  readsLoop inum f.reads

def filesLoop (rootino : Nat) : List Input → M Unit
  | [] => return ()
  | f :: l => do
    addFile rootino f
    filesLoop rootino l

/-- The image full of zeroes. -/
def zeroLoop : List Nat → M Unit
  | [] => return ()
  | i :: l => do
    wsect i Bytes.zero
    zeroLoop l

-- not to be run by `whnf`: the first loop writes every sector
@[irreducible]
def main (files : List Input) : M Unit := do
  zeroLoop (List.range FSSIZE)
  wsect 1 (Bytes.zero.patch 0 sbBytes 28)
  let rootino ← ialloc T_DIR
  assert (rootino = ROOTINO)
  iappend rootino (direntOf rootino DOT)
  iappend rootino (direntOf rootino DOTDOT)
  filesLoop rootino files
  -- fix size of root inode dir
  let din ← rinode rootino
  let off := xint din.size
  winode rootino { din with size := xint ((off / BSIZE + 1) * BSIZE) }
  let s ← get
  balloc s.freeblock

/-- The globals before `main`, with the image file truncated. -/
def start : State := ⟨fun _ => Bytes.zero, 0, 1, nmeta⟩

end Yonix.Mkfs
