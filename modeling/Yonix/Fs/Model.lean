/-
  Yonix/Fs/Model.lean
  ===================
  **The file system (`fs.c`, `file.c`, `sysfile.c`).**

  The functions are code on one state.  `block` is what `bread` finds in each block:
  the buffer cache and the log below it are in `Bio/` and `Log/`, and of them only what
  the file system can notice is kept here, the buffers that are held, the blocks logged
  by the current transaction and `log.outstanding`.  `end_op` commits before it
  returns.  Whether `bget` finds a free buffer is left to `Bio/`.

  An inode pointer is the index of its slot in `icache`, a file pointer its index in
  `ftable`.  There is one device.  A `short` is kept as its 16 bits, and a reference
  count as the `int` it is.  Waiting for a lock that is taken ends in `asleep`, since
  the caller of these functions is the only one running.
-/
import Yonix.Lib.Wp
import Yonix.Param

namespace Yonix.Fs

/-! ### The data on disk -/

def T_DIR : Nat := 1
def T_FILE : Nat := 2
def T_DEV : Nat := 3
def CONSOLE : Nat := 1

structure Superblock where
  size : Nat
  nblocks : Nat
  ninodes : Nat
  nlog : Nat
  logstart : Nat
  inodestart : Nat
  bmapstart : Nat

def superOf (x : Block) : Superblock :=
  ⟨x.word 0, x.word 1, x.word 2, x.word 3, x.word 4, x.word 5, x.word 6⟩

/-- The fields that `struct dinode` and the copy in `struct inode` share.  `addrs` has
    `NDIRECT + 1` elements. -/
structure Dinode where
  type : Nat
  major : Nat
  minor : Nat
  nlink : Nat
  size : Nat
  addrs : Nat → Nat

def Dinode.zero : Dinode := ⟨0, 0, 0, 0, 0, fun _ => 0⟩

/-- `sizeof(struct dinode)`. -/
def DINODESIZE : Nat := 64

def IPB : Nat := BSIZE / DINODESIZE

/-- Inode `inum` of an inode block. -/
def dinodeOf (x : Block) (inum : Nat) : Dinode :=
  let o := inum % IPB * DINODESIZE
  ⟨x.getLE o 2, x.getLE (o + 2) 2, x.getLE (o + 4) 2, x.getLE (o + 6) 2, x.getLE (o + 8) 4,
    fun j => if j < NDIRECT + 1 then x.getLE (o + 12 + 4 * j) 4 else 0⟩

/-- The bytes of a `struct dinode`. -/
def Dinode.bytes (d : Dinode) (k : Nat) : UInt8 :=
  if k < 2 then Bytes.leByte d.type k
  else if k < 4 then Bytes.leByte d.major (k - 2)
  else if k < 6 then Bytes.leByte d.minor (k - 4)
  else if k < 8 then Bytes.leByte d.nlink (k - 6)
  else if k < 12 then Bytes.leByte d.size (k - 8)
  else Bytes.leByte (d.addrs ((k - 12) / 4)) ((k - 12) % 4)

def putDinode (x : Block) (inum : Nat) (d : Dinode) : Block :=
  x.patch (inum % IPB * DINODESIZE) d.bytes DINODESIZE

def Superblock.iblock (sb : Superblock) (i : Nat) : Nat := i / IPB + sb.inodestart
def Superblock.bblock (sb : Superblock) (b : Nat) : Nat := b / BPB + sb.bmapstart

/-! ### The data in memory -/

structure Inode where
  inum : Nat
  ref : Int
  locked : Bool
  /-- `I_VALID` -/
  valid : Bool
  din : Dinode

inductive FileType where
  | none
  | pipe (p : Nat)
  | inode (ip : Nat)
deriving DecidableEq

structure File where
  type : FileType
  ref : Int
  readable : Bool
  writable : Bool
  off : Nat

structure Pipe where
  /-- the bytes between `nread` and `nwrite` -/
  data : List UInt8
  readopen : Bool
  writeopen : Bool

structure Proc where
  cdir : Option Nat
  ofile : Nat → Option Nat
  killed : Bool

structure State where
  block : Nat → Block
  held : List Nat
  logged : List Nat
  outstanding : Int
  logSize : Nat
  sb : Superblock
  icache : Nat → Inode
  ftable : Nat → File
  pipe : Nat → Pipe
  procs : Nat → Proc
  /-- the current process -/
  proc : Nat
  /-- the characters that wait at the console -/
  input : List UInt8
  /-- the pages that pipes have got from `kalloc`, and those passed to `kfree` -/
  taken : List Nat
  freed : List Nat

abbrev M := Code State Stop

def State.setInode (s : State) (i : Nat) (x : Inode) : State :=
  { s with icache := Function.update s.icache i x }

def State.setDin (s : State) (i : Nat) (d : Dinode) : State :=
  s.setInode i { s.icache i with din := d }

def State.setFile (s : State) (f : Nat) (x : File) : State :=
  { s with ftable := Function.update s.ftable f x }

def State.setPipe (s : State) (q : Nat) (x : Pipe) : State :=
  { s with pipe := Function.update s.pipe q x }

/-- The current process becomes `x`. -/
def State.setProc (s : State) (x : Proc) : State :=
  { s with procs := Function.update s.procs s.proc x }

/-! ### Buffers and the log -/

def bread (b : Nat) : M Block := fun s =>
  if FSSIZE ≤ b then .error (.panic .incorrectBlockno)
  else if b ∈ s.held then .error .asleep
  else .ok (s.block b, { s with held := b :: s.held })

def brelse (b : Nat) : M Unit := fun s =>
  if b ∈ s.held then .ok ((), { s with held := s.held.erase b }) else .error (.panic .brelse)

/-- `log_write` of the buffer of block `b` after `x` was put into it. -/
def logWrite (b : Nat) (x : Block) : M Unit := fun s =>
  if LOGSIZE ≤ s.logged.length ∨ s.logSize - 1 ≤ s.logged.length then
    .error (.panic .tooBigTransaction)
  else if s.outstanding < 1 then .error (.panic .outsideTrans)
  else .ok ((), { s with
    block := Function.update s.block b x
    logged := if b ∈ s.logged then s.logged else s.logged ++ [b] })

def beginOp : M Unit := fun s =>
  if (s.logged.length : Int) + (s.outstanding + 1) * MAXOPBLOCKS > LOGSIZE then .error .asleep
  else .ok ((), { s with outstanding := s.outstanding + 1 })

def endOp : M Unit := fun s =>
  if s.outstanding - 1 = 0 then .ok ((), { s with outstanding := s.outstanding - 1, logged := [] })
  else .ok ((), { s with outstanding := s.outstanding - 1 })

/-! ### Blocks -/

def readsb : M Unit := do
  let x ← bread 1
  modify fun s => { s with sb := superOf x }
  brelse 1

def bzero (bno : Nat) : M Unit := do
  let _x ← bread bno
  logWrite bno Bytes.zero
  brelse bno

/-- The inner loop of `balloc`, in the bitmap block of block `b`. -/
@[irreducible]
def freeBit (x : Block) (b size : Nat) : Option Nat :=
  (List.range BPB).find? fun bi => decide (b + bi < size) && !x.bit bi

/-- The outer loop of `balloc` from block `b` on. -/
def ballocLoop (sb : Superblock) : Nat → Nat → M Nat
  | 0, _ => stop (.panic .ballocOutOfBlocks)
  | k + 1, b =>
    if b < sb.size then do
      let x ← bread (sb.bblock b)
      match freeBit x b sb.size with
      | some bi => do
        logWrite (sb.bblock b) (x.setBit bi)
        brelse (sb.bblock b)
        bzero (b + bi)
        return b + bi
      | none => do
        brelse (sb.bblock b)
        ballocLoop sb k (b + BPB)
    else stop (.panic .ballocOutOfBlocks)

def balloc : M Nat := do
  let s ← get
  ballocLoop s.sb (s.sb.size / BPB + 1) 0

def bfree (b : Nat) : M Unit := do
  readsb
  let s ← get
  let x ← bread (s.sb.bblock b)
  if x.bit (b % BPB) then do
    logWrite (s.sb.bblock b) (x.clearBit (b % BPB))
    brelse (s.sb.bblock b)
  else stop (.panic .freeingFreeBlock)

/-! ### Inodes -/

def iget (inum : Nat) : M Nat := fun s =>
  match (List.range NINODE).find? fun i =>
      decide (0 < (s.icache i).ref ∧ (s.icache i).inum = inum) with
  | some i => .ok (i, s.setInode i { s.icache i with ref := (s.icache i).ref + 1 })
  | none =>
    match (List.range NINODE).find? fun i => decide ((s.icache i).ref = 0) with
    | some i => .ok (i, s.setInode i { s.icache i with inum := inum, ref := 1, valid := false })
    | none => .error (.panic .igetNoInodes)

def iallocLoop (type : Nat) : List Nat → M Nat
  | [] => stop (.panic .iallocNoInodes)
  | inum :: l => do
    let s ← get
    let x ← bread (s.sb.iblock inum)
    if (dinodeOf x inum).type = 0 then do
      logWrite (s.sb.iblock inum) (putDinode x inum { Dinode.zero with type := type })
      brelse (s.sb.iblock inum)
      iget inum
    else do
      brelse (s.sb.iblock inum)
      iallocLoop type l

def ialloc (type : Nat) : M Nat := do
  let s ← get
  iallocLoop type (List.range' 1 (s.sb.ninodes - 1))

def iupdate (i : Nat) : M Unit := do
  let s ← get
  let ip := s.icache i
  let x ← bread (s.sb.iblock ip.inum)
  logWrite (s.sb.iblock ip.inum) (putDinode x ip.inum ip.din)
  brelse (s.sb.iblock ip.inum)

def idup (i : Nat) : M Nat := do
  modify fun s => s.setInode i { s.icache i with ref := (s.icache i).ref + 1 }
  return i

/-- `ilock` after the lock is taken: the copy from disk. -/
def ifetch (i : Nat) : M Unit := do
  let s ← get
  let ip := s.icache i
  let x ← bread (s.sb.iblock ip.inum)
  modify fun s => s.setDin i (dinodeOf x ip.inum)
  brelse (s.sb.iblock ip.inum)
  modify fun s => s.setInode i { s.icache i with valid := true }
  if (dinodeOf x ip.inum).type = 0 then stop (.panic .ilockNoType) else return ()

def ilock (i : Nat) : M Unit := do
  let s ← get
  if (s.icache i).ref < 1 then stop (.panic .ilock)
  else if (s.icache i).locked then stop .asleep
  else do
    modify fun s => s.setInode i { s.icache i with locked := true }
    if (s.icache i).valid then return () else ifetch i

def iunlock (i : Nat) : M Unit := do
  let s ← get
  if (s.icache i).locked = false ∨ (s.icache i).ref < 1 then stop (.panic .iunlock)
  else modify fun s => s.setInode i { s.icache i with locked := false }

/-! ### The blocks of an inode -/

def setAddr (d : Dinode) (j b : Nat) : Dinode := { d with addrs := Function.update d.addrs j b }

/-- Element `j` of `ip->addrs`, allocated if it is 0. -/
def addrOf (i j : Nat) : M Nat := do
  let s ← get
  if (s.icache i).din.addrs j = 0 then do
    let b ← balloc
    modify fun s => s.setDin i (setAddr (s.icache i).din j b)
    return b
  else return (s.icache i).din.addrs j

def bmap (i bn : Nat) : M Nat :=
  if bn < NDIRECT then addrOf i bn
  else if bn - NDIRECT < NINDIRECT then do
    let addr ← addrOf i NDIRECT
    let x ← bread addr
    if x.word (bn - NDIRECT) = 0 then do
      let b ← balloc
      logWrite addr (x.setWord (bn - NDIRECT) b)
      brelse addr
      return b
    else do
      brelse addr
      return x.word (bn - NDIRECT)
  else stop (.panic .bmapOutOfRange)

/-- The direct blocks of `itrunc`. -/
def truncDirect (i : Nat) : List Nat → M Unit
  | [] => return ()
  | j :: l => do
    let s ← get
    if (s.icache i).din.addrs j = 0 then truncDirect i l
    else do
      bfree ((s.icache i).din.addrs j)
      modify fun s => s.setDin i (setAddr (s.icache i).din j 0)
      truncDirect i l

/-- The blocks that indirect block `x` names. -/
def truncIndirect (x : Block) : List Nat → M Unit
  | [] => return ()
  | j :: l =>
    if x.word j = 0 then truncIndirect x l
    else do
      bfree (x.word j)
      truncIndirect x l

def itrunc (i : Nat) : M Unit := do
  truncDirect i (List.range NDIRECT)
  let s ← get
  let addr := (s.icache i).din.addrs NDIRECT
  if addr = 0 then do
    modify fun s => s.setDin i { (s.icache i).din with size := 0 }
    iupdate i
  else do
    let x ← bread addr
    truncIndirect x (List.range NINDIRECT)
    brelse addr
    bfree addr
    modify fun s => s.setDin i { setAddr (s.icache i).din NDIRECT 0 with size := 0 }
    iupdate i

/-- What `iput` does with the last reference to an inode without links. -/
def ifree (i : Nat) : M Unit := do
  itrunc i
  modify fun s => s.setDin i { (s.icache i).din with type := 0 }
  iupdate i
  modify fun s => s.setInode i { s.icache i with valid := false }

def idrop (i : Nat) : M Unit :=
  modify fun s => s.setInode i { s.icache i with ref := (s.icache i).ref - 1 }

def iput (i : Nat) : M Unit := do
  let s ← get
  if (s.icache i).ref = 1 ∧ (s.icache i).valid ∧ (s.icache i).din.nlink = 0 then do
    ifree i
    idrop i
  else idrop i

def iunlockput (i : Nat) : M Unit := do
  iunlock i
  iput i

/-! ### Reading and writing -/

/-- The characters that `consoleread` takes for `n` bytes: `none` when it has to wait
    for more. -/
def consoleTake (target : Nat) : Nat → List UInt8 → Option (List UInt8) × List UInt8
  | 0, l => (some [], l)
  | _ + 1, [] => (none, [])
  | n + 1, c :: l =>
    -- control-D, which stays unless it is the first character
    if c = 4 then (some [], if n + 1 < target then c :: l else l)
    else if c = 10 then (some [c], l)
    else
      match consoleTake target n l with
      | (some r, l) => (some (c :: r), l)
      | (none, l) => (none, l)

/-- `consoleread`, whose `n` is an `int`. -/
def consoleread (i n : Nat) : M (Option (List UInt8)) := do
  iunlock i
  let s ← get
  let n := if n < 2 ^ 31 then n else 0
  match consoleTake n n s.input with
  | (some r, l) => do
    modify fun s => { s with input := l }
    ilock i
    return some r
  | (none, l) =>
    if (s.procs s.proc).killed then do
      modify fun s => { s with input := l }
      ilock i
      return none
    else stop .asleep

def consolewrite (i n : Nat) : M Int := do
  iunlock i
  ilock i
  return n

/-- Only the console has entries in `devsw`. -/
def noDevice (d : Dinode) : Prop := 2 ^ 15 ≤ d.major ∨ NDEV ≤ d.major ∨ d.major ≠ CONSOLE

instance (d : Dinode) : Decidable (noDevice d) := by unfold noDevice; infer_instance

/-- The loop of `readi`, with `n` bytes left; the first argument is fuel. -/
def readLoop (i : Nat) : Nat → Nat → Nat → M (List UInt8)
  | 0, _, _ => return []
  | k + 1, off, n =>
    if n = 0 then return []
    else do
      let b ← bmap i (off / BSIZE)
      let x ← bread b
      brelse b
      let m := min n (BSIZE - off % BSIZE)
      let rest ← readLoop i k (off + m) (n - m)
      return (List.range m).map (fun j => x.get (off % BSIZE + j)) ++ rest

/-- `readi`: the bytes read, or `none` for -1. -/
def readi (i off n : Nat) : M (Option (List UInt8)) := do
  let s ← get
  let d := (s.icache i).din
  if d.type = T_DEV then
    if noDevice d then return none else consoleread i n
  else if d.size < off ∨ (off + n) % 2 ^ 32 < off then return none
  else do
    let n := if d.size < off + n then d.size - off else n
    let r ← readLoop i n off n
    return some r

def writeLoop (i : Nat) : Nat → Nat → List UInt8 → M Unit
  | 0, _, _ => return ()
  | k + 1, off, src =>
    if src = [] then return ()
    else do
      let b ← bmap i (off / BSIZE)
      let x ← bread b
      let m := min src.length (BSIZE - off % BSIZE)
      logWrite b (x.patch (off % BSIZE) (fun j => src.getD j 0) m)
      brelse b
      writeLoop i k (off + m) (src.drop m)

/-- The end of `writei`: the file has grown to `off`. -/
def growTo (i off : Nat) : M Unit := do
  modify fun s => s.setDin i { (s.icache i).din with size := off }
  iupdate i

def writei (i : Nat) (src : List UInt8) (off : Nat) : M Int := do
  let s ← get
  let d := (s.icache i).din
  let n := src.length
  if d.type = T_DEV then
    if noDevice d then return -1 else consolewrite i n
  else if d.size < off ∨ (off + n) % 2 ^ 32 < off then return -1
  else if MAXFILE * BSIZE < (off + n) % 2 ^ 32 then return -1
  else do
    writeLoop i n off src
    if 0 < n ∧ d.size < off + n then do
      growTo i (off + n)
      return n
    else return n

/-! ### Directories -/

/-- A `char *`: the bytes from the address on. -/
abbrev Str := Nat → UInt8

/-- The string whose bytes before the end are `l`. -/
def strOf (l : List UInt8) : Str := fun k => l.getD k 0

/-- `strncmp` from byte `k` on, with `n` bytes left. -/
def strncmp (p q : Str) (k : Nat) : Nat → Int
  | 0 => 0
  | n + 1 =>
    if p k ≠ 0 ∧ p k = q k then strncmp p q (k + 1) n
    else ((p k).toNat : Int) - (q k).toNat

/-- The `n` bytes that `strncpy` writes, from byte `k` of `t` on. -/
def strncpy (t : Str) (k : Nat) : Nat → List UInt8
  | 0 => []
  | n + 1 => t k :: if t k ≠ 0 then strncpy t (k + 1) n else List.replicate n 0

def namecmp (s t : Str) : Int := strncmp s t 0 DIRSIZ

structure Dirent where
  inum : Nat
  fname : Str

/-- `sizeof(struct dirent)`. -/
def DIRENTSIZE : Nat := 16

def direntOf (l : List UInt8) : Dirent :=
  ⟨(l.getD 0 0).toNat + 256 * (l.getD 1 0).toNat, fun k => l.getD (k + 2) 0⟩

/-- The bytes of the entry that binds `name` to `inum`. -/
def direntBytes (inum : Nat) (name : Str) : List UInt8 :=
  Bytes.leByte inum 0 :: Bytes.leByte inum 1 :: strncpy name 0 DIRSIZ

/-- `readi` of one entry, with the panic for a short read. -/
def readDirent (e : Panic) (dp off : Nat) : M Dirent := do
  let r ← readi dp off DIRENTSIZE
  match r with
  | some l => if l.length = DIRENTSIZE then return direntOf l else stop (.panic e)
  | none => stop (.panic e)

/-- The offsets of the entries of a directory of `size` bytes. -/
def direntOffs (size : Nat) : List Nat :=
  (List.range ((size + (DIRENTSIZE - 1)) / DIRENTSIZE)).map (DIRENTSIZE * ·)

def dirlookupLoop (dp : Nat) (name : Str) : List Nat → M (Option (Nat × Nat))
  | [] => return none
  | off :: l => do
    let de ← readDirent .dirlinkRead dp off
    if de.inum = 0 then dirlookupLoop dp name l
    else if namecmp name de.fname = 0 then do
      let i ← iget de.inum
      return some (i, off)
    else dirlookupLoop dp name l

/-- `dirlookup`: the inode and the offset of its entry. -/
def dirlookup (dp : Nat) (name : Str) : M (Option (Nat × Nat)) := do
  let s ← get
  if (s.icache dp).din.type ≠ T_DIR then stop (.panic .dirlookupNotDir)
  else dirlookupLoop dp name (direntOffs (s.icache dp).din.size)

/-- The loop of `dirlink` for an empty entry: where it stops, with `last` as the end of
    the directory. -/
def emptyDirent (dp last : Nat) : List Nat → M Nat
  | [] => return last
  | off :: l => do
    let de ← readDirent .dirlinkRead dp off
    if de.inum = 0 then return off else emptyDirent dp last l

def dirlink (dp : Nat) (name : Str) (inum : Nat) : M Int := do
  let r ← dirlookup dp name
  match r with
  | some (ip, _) => do
    iput ip
    return -1
  | none => do
    let s ← get
    let offs := direntOffs (s.icache dp).din.size
    let off ← emptyDirent dp (DIRENTSIZE * offs.length) offs
    let n ← writei dp (direntBytes inum name) off
    if n = DIRENTSIZE then return 0 else stop (.panic .dirlink)

/-! ### Paths -/

def SLASH : UInt8 := 47

/-- The next element of a path, cut to `DIRSIZ` bytes, and the path after it. -/
def skipelem (path : List UInt8) : Option (List UInt8 × List UInt8) :=
  let s := path.dropWhile (· = SLASH)
  if s = [] then none
  else some ((s.takeWhile (· ≠ SLASH)).take DIRSIZ,
    (s.dropWhile (· ≠ SLASH)).dropWhile (· = SLASH))

/-- The loop of `namex`; every element takes a character, so the length of the path is
    enough fuel. -/
def namexLoop (nameiparent : Bool) : Nat → Nat → List UInt8 → M (Option (Nat × List UInt8))
  | 0, ip, _ =>
    if nameiparent then do
      iput ip
      return none
    else return some (ip, [])
  | k + 1, ip, path =>
    match skipelem path with
    | none =>
      if nameiparent then do
        iput ip
        return none
      else return some (ip, [])
    | some (name, rest) => do
      ilock ip
      let s ← get
      if (s.icache ip).din.type ≠ T_DIR then do
        iunlockput ip
        return none
      else if nameiparent ∧ rest = [] then do
        iunlock ip
        return some (ip, name)
      else do
        let r ← dirlookup ip (strOf name)
        match r with
        | none => do
          iunlockput ip
          return none
        | some (next, _) => do
          iunlockput ip
          namexLoop nameiparent k next rest

/-- Where `namex` starts. -/
def startInode (path : List UInt8) : M Nat := do
  let s ← get
  if path.head? = some SLASH then iget ROOTINO
  else
    match (s.procs s.proc).cdir with
    | some i => idup i
    | none => stop .stray

def namex (nameiparent : Bool) (path : List UInt8) : M (Option (Nat × List UInt8)) := do
  let ip ← startInode path
  namexLoop nameiparent path.length ip path

def namei (path : List UInt8) : M (Option Nat) := do
  let r ← namex false path
  return r.map Prod.fst

/-- `nameiparent`: the directory and the last element of the path. -/
def nameiparent (path : List UInt8) : M (Option (Nat × List UInt8)) := namex true path

end Yonix.Fs
