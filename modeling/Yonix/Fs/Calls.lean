/-
  Yonix/Fs/Calls.lean
  ===================
  **Open files, pipes and the system calls (`file.c`, `pipe.c`, `sysfile.c`).**

  The arguments of a call are what `sysc_argint`, `sysc_argptr` and `sysc_argstr` make
  of the user stack, `none` when they fail; a string is its bytes before the NUL and a
  pointer the bytes from its address on.  `exec` is here as far as it uses the file
  system, with the answers of `setupkvm` and `allocuvm` as arguments, and so is the
  page that `kalloc` gives to a pipe.
-/
import Yonix.Fs.Model

namespace Yonix.Fs

/-! ### Files -/

def filealloc : M (Option Nat) := fun s =>
  match (List.range NFILE).find? fun f => decide ((s.ftable f).ref = 0) with
  | some f => .ok (some f, s.setFile f { s.ftable f with ref := 1 })
  | none => .ok (none, s)

def filedup (f : Nat) : M Unit := do
  let s ← get
  if (s.ftable f).ref < 1 then stop (.panic .filedup)
  else modify fun s => s.setFile f { s.ftable f with ref := (s.ftable f).ref + 1 }

/-- The end of `pipeclose`. -/
def pipefree (q : Nat) : M Unit := do
  let s ← get
  if (s.pipe q).readopen = false ∧ (s.pipe q).writeopen = false then
    modify fun s => { s with freed := q :: s.freed }
  else return ()

def pipeclose (q : Nat) (writable : Bool) : M Unit :=
  if writable then do
    modify fun s => s.setPipe q { s.pipe q with writeopen := false }
    pipefree q
  else do
    modify fun s => s.setPipe q { s.pipe q with readopen := false }
    pipefree q

def fileclose (f : Nat) : M Unit := do
  let s ← get
  let ff := s.ftable f
  if ff.ref < 1 then stop (.panic .fileclose)
  else if 0 < ff.ref - 1 then modify fun s => s.setFile f { ff with ref := ff.ref - 1 }
  else do
    modify fun s => s.setFile f { ff with ref := 0, type := .none }
    match ff.type with
    | .pipe q => pipeclose q ff.writable
    | .inode i => do
      beginOp
      iput i
      endOp
    | .none => return ()

structure Stat where
  type : Nat
  ino : Nat
  nlink : Nat
  size : Nat

def stati (x : Inode) : Stat := ⟨x.din.type, x.inum, x.din.nlink, x.din.size⟩

def filestat (f : Nat) : M (Option Stat) := do
  let s ← get
  match (s.ftable f).type with
  | .inode i => do
    ilock i
    let s ← get
    iunlock i
    return some (stati (s.icache i))
  | _ => return none

/-! ### Pipes -/

def PIPESIZE : Nat := 512

def pipewrite (q : Nat) (addr : Str) (n : Int) : M Int := do
  let s ← get
  let room := PIPESIZE - (s.pipe q).data.length
  let src := (List.range n.toNat).map addr
  if src.length ≤ room then do
    modify fun s => s.setPipe q { s.pipe q with data := (s.pipe q).data ++ src }
    return n
  -- the buffer gets full
  else if (s.pipe q).readopen = false ∨ (s.procs s.proc).killed then do
    modify fun s => s.setPipe q { s.pipe q with data := (s.pipe q).data ++ src.take room }
    return -1
  else stop .asleep

def piperead (q : Nat) (n : Int) : M (Option (List UInt8)) := do
  let s ← get
  if (s.pipe q).data = [] ∧ (s.pipe q).writeopen then
    if (s.procs s.proc).killed then return none else stop .asleep
  else do
    modify fun s => s.setPipe q { s.pipe q with data := (s.pipe q).data.drop n.toNat }
    return some ((s.pipe q).data.take n.toNat)

/-- `pipealloc`, where `mem` is what `kalloc` returns. -/
def pipealloc (mem : Option Nat) : M (Option (Nat × Nat)) := do
  let r0 ← filealloc
  match r0 with
  | none => return none
  | some f0 => do
    let r1 ← filealloc
    match r1, mem with
    | none, _ => do
      fileclose f0
      return none
    | some f1, none => do
      fileclose f0
      fileclose f1
      return none
    | some f1, some q => do
      modify fun s => { s.setPipe q ⟨[], true, true⟩ with taken := q :: s.taken }
      modify fun s => s.setFile f0 { s.ftable f0 with
        type := .pipe q, readable := true, writable := false }
      modify fun s => s.setFile f1 { s.ftable f1 with
        type := .pipe q, readable := false, writable := true }
      return some (f0, f1)

/-! ### Reading and writing files -/

/-- `f->off += r`. -/
def advance (f r : Nat) : M Unit :=
  modify fun s => s.setFile f { s.ftable f with off := (s.ftable f).off + r }

/-- The value of an `int` as a `uint`. -/
def toUint (n : Int) : Nat := (n % 2 ^ 32).toNat

def fileread (f : Nat) (n : Int) : M (Option (List UInt8)) := do
  let s ← get
  if (s.ftable f).readable = false then return none
  else
    match (s.ftable f).type with
    | .pipe q => piperead q n
    | .inode i => do
      ilock i
      let r ← readi i (s.ftable f).off (toUint n)
      match r with
      | some l => do
        advance f l.length
        iunlock i
        return some l
      | none => do
        iunlock i
        return none
    | .none => stop (.panic .fileread)

/-- The most that `filewrite` writes in one transaction. -/
def WRITEMAX : Nat := (LOGSIZE - 1 - 1 - 2) / 2 * 512

/-- One pass of the loop of `filewrite`: `n1` bytes from `addr + k`. -/
def fileput (f i : Nat) (addr : Str) (k n1 : Nat) : M Int := do
  beginOp
  ilock i
  let s ← get
  let r ← writei i ((List.range n1).map fun j => addr (k + j)) (s.ftable f).off
  if 0 < r then do
    advance f r.toNat
    iunlock i
    endOp
    return r
  else do
    iunlock i
    endOp
    return r

/-- The loop of `filewrite`: what it has written when it ends.  The first argument is
    fuel. -/
def filewriteLoop (f i : Nat) (addr : Str) (n : Nat) : Nat → Nat → M Nat
  | 0, k => return k
  | fuel + 1, k =>
    if k < n then do
      let n1 := min (n - k) WRITEMAX
      let r ← fileput f i addr k n1
      if r < 0 then return k
      else if r = n1 then filewriteLoop f i addr n fuel (k + n1)
      else stop (.panic .shortFilewrite)
    else return k

def filewrite (f : Nat) (addr : Str) (n : Int) : M Int := do
  let s ← get
  if (s.ftable f).writable = false then return -1
  else
    match (s.ftable f).type with
    | .pipe q => pipewrite q addr n
    | .inode i => do
      let k ← filewriteLoop f i addr n.toNat n.toNat 0
      return if (k : Int) = n then n else -1
    | .none => stop (.panic .filewrite)

/-! ### Descriptors -/

/-- `argfd`: the descriptor and its file. -/
def argfd (fd : Option Int) : M (Option (Nat × Nat)) := do
  let s ← get
  match fd with
  | none => return none
  | some fd =>
    if fd < 0 ∨ NOFILE ≤ fd then return none
    else return (((s.procs s.proc).ofile fd.toNat).map fun f => (fd.toNat, f))

/-- `proc->p_of[fd] = f`. -/
def setFd (fd : Nat) (f : Option Nat) : M Unit :=
  modify fun s => s.setProc { s.procs s.proc with
    ofile := Function.update (s.procs s.proc).ofile fd f }

def fdalloc (f : Nat) : M (Option Nat) := do
  let s ← get
  match (List.range NOFILE).find? fun fd => decide ((s.procs s.proc).ofile fd = none) with
  | some fd => do
    setFd fd (some f)
    return some fd
  | none => return none

def sysDup (fd : Option Int) : M Int := do
  let a ← argfd fd
  match a with
  | none => return -1
  | some (_, f) => do
    let r ← fdalloc f
    match r with
    | none => return -1
    | some fd => do
      filedup f
      return fd

/-- `sys_read`; `p` says whether the buffer is in user memory. -/
def sysRead (fd : Option Int) (p : Bool) (n : Option Int) : M Int := do
  let a ← argfd fd
  match a, n, p with
  | some (_, f), some n, true => do
    let r ← fileread f n
    match r with
    | some l => return l.length
    | none => return -1
  | _, _, _ => return -1

def sysWrite (fd : Option Int) (p : Option Str) (n : Option Int) : M Int := do
  let a ← argfd fd
  match a, n, p with
  | some (_, f), some n, some addr => filewrite f addr n
  | _, _, _ => return -1

def sysClose (fd : Option Int) : M Int := do
  let a ← argfd fd
  match a with
  | none => return -1
  | some (fd, f) => do
    setFd fd none
    fileclose f
    return 0

def sysFstat (fd : Option Int) (st : Bool) : M Int := do
  let a ← argfd fd
  match a, st with
  | some (_, f), true => do
    let r ← filestat f
    match r with
    | some _ => return 0
    | none => return -1
  | _, _ => return -1

def sysPipe (fd : Bool) (mem : Option Nat) : M Int :=
  if fd then do
    let r ← pipealloc mem
    match r with
    | none => return -1
    | some (rf, wf) => do
      let r0 ← fdalloc rf
      match r0 with
      | none => do
        fileclose rf
        fileclose wf
        return -1
      | some fd0 => do
        let r1 ← fdalloc wf
        match r1 with
        | none => do
          setFd fd0 none
          fileclose rf
          fileclose wf
          return -1
        | some _ => return 0
  else return -1

/-! ### Links -/

/-- `ip->nlink = n; iupdate(ip)`; `n` is a `short`. -/
def setNlink (i n : Nat) : M Unit := do
  modify fun s => s.setDin i { (s.icache i).din with nlink := n % 2 ^ 16 }
  iupdate i

/-- `ip->nlink++; iupdate(ip)`. -/
def incNlink (i : Nat) : M Unit := do
  let s ← get
  setNlink i ((s.icache i).din.nlink + 1)

/-- `ip->nlink--; iupdate(ip)`. -/
def decNlink (i : Nat) : M Unit := do
  let s ← get
  setNlink i ((s.icache i).din.nlink + (2 ^ 16 - 1))

/-- `bad` of `sys_link`. -/
def linkBad (ip : Nat) : M Int := do
  ilock ip
  decNlink ip
  iunlockput ip
  endOp
  return -1

def link (old new : List UInt8) : M Int := do
  beginOp
  let r ← namei old
  match r with
  | none => do
    endOp
    return -1
  | some ip => do
    ilock ip
    let s ← get
    if (s.icache ip).din.type = T_DIR then do
      iunlockput ip
      endOp
      return -1
    else do
      incNlink ip
      iunlock ip
      let r ← nameiparent new
      match r with
      | none => linkBad ip
      | some (dp, name) => do
        ilock dp
        let r ← dirlink dp (strOf name) (s.icache ip).inum
        if r < 0 then do
          iunlockput dp
          linkBad ip
        else do
          iunlockput dp
          iput ip
          endOp
          return 0

def sysLink (old new : Option (List UInt8)) : M Int :=
  match old, new with
  | some old, some new => link old new
  | _, _ => return -1

def isdiremptyLoop (dp : Nat) : List Nat → M Bool
  | [] => return true
  | off :: l => do
    let de ← readDirent .isdiremptyReadi dp off
    if de.inum ≠ 0 then return false else isdiremptyLoop dp l

def isdirempty (dp : Nat) : M Bool := do
  let s ← get
  isdiremptyLoop dp ((direntOffs (s.icache dp).din.size).drop 2)

/-- `bad` of `sys_unlink`. -/
def unlinkBad (dp : Nat) : M Int := do
  iunlockput dp
  endOp
  return -1

def DOT : List UInt8 := [46]
def DOTDOT : List UInt8 := [46, 46]

/-- `sys_unlink` from the `memset` on. -/
def unlinkEntry (dp ip off : Nat) : M Int := do
  let n ← writei dp (List.replicate DIRENTSIZE 0) off
  if n = DIRENTSIZE then do
    let s ← get
    if (s.icache ip).din.type = T_DIR then decNlink dp else pure ()
    iunlockput dp
    decNlink ip
    iunlockput ip
    endOp
    return 0
  else stop (.panic .unlinkWritei)

def unlink (path : List UInt8) : M Int := do
  beginOp
  let r ← nameiparent path
  match r with
  | none => do
    endOp
    return -1
  | some (dp, name) => do
    ilock dp
    if namecmp (strOf name) (strOf DOT) = 0 ∨ namecmp (strOf name) (strOf DOTDOT) = 0 then
      unlinkBad dp
    else do
      let r ← dirlookup dp (strOf name)
      match r with
      | none => unlinkBad dp
      | some (ip, off) => do
        ilock ip
        let s ← get
        -- the link count is signed
        if (s.icache ip).din.nlink = 0 ∨ 2 ^ 15 ≤ (s.icache ip).din.nlink then
          stop (.panic .unlinkNlink)
        else if (s.icache ip).din.type = T_DIR then do
          let e ← isdirempty ip
          if e then unlinkEntry dp ip off
          else do
            iunlockput ip
            unlinkBad dp
        else unlinkEntry dp ip off

def sysUnlink (path : Option (List UInt8)) : M Int :=
  match path with
  | some path => unlink path
  | none => return -1

/-! ### Creating and opening -/

/-- `dirlink`, with the panic for a name that is there. -/
def dirlinkNew (e : Panic) (dp : Nat) (name : List UInt8) (inum : Nat) : M Unit := do
  let r ← dirlink dp (strOf name) inum
  if r < 0 then stop (.panic e) else return ()

/-- The entries of a new directory `ip` in `dp`. -/
def createDots (dp ip : Nat) : M Unit := do
  incNlink dp
  let s ← get
  dirlinkNew .createDots ip DOT (s.icache ip).inum
  dirlinkNew .createDots ip DOTDOT (s.icache dp).inum

/-- `create` with the new inode `ip`. -/
def createIn (dp : Nat) (name : List UInt8) (type major minor : Nat) (ip : Nat) :
    M (Option Nat) := do
  ilock ip
  modify fun s => s.setDin ip { (s.icache ip).din with major := major, minor := minor, nlink := 1 }
  iupdate ip
  if type = T_DIR then createDots dp ip else pure ()
  let s ← get
  dirlinkNew .createDirlink dp name (s.icache ip).inum
  iunlockput dp
  return some ip

def create (path : List UInt8) (type major minor : Nat) : M (Option Nat) := do
  let r ← nameiparent path
  match r with
  | none => return none
  | some (dp, name) => do
    ilock dp
    let r ← dirlookup dp (strOf name)
    match r with
    | some (ip, _) => do
      iunlockput dp
      ilock ip
      let s ← get
      if type = T_FILE ∧ (s.icache ip).din.type = T_FILE then return some ip
      else do
        iunlockput ip
        return none
    | none => do
      let ip ← ialloc type
      createIn dp name type major minor ip

def O_WRONLY : Nat := 0x001
def O_RDWR : Nat := 0x002
def O_CREATE : Nat := 0x200

/-- `sys_open` from `filealloc` on. -/
def openFile (ip omode : Nat) : M Int := do
  let r ← filealloc
  match r with
  | none => do
    iunlockput ip
    endOp
    return -1
  | some f => do
    let r ← fdalloc f
    match r with
    | none => do
      fileclose f
      iunlockput ip
      endOp
      return -1
    | some fd => do
      iunlock ip
      endOp
      modify fun s => s.setFile f { s.ftable f with
        type := .inode ip
        off := 0
        readable := decide (omode &&& O_WRONLY = 0)
        writable := decide (omode &&& O_WRONLY ≠ 0 ∨ omode &&& O_RDWR ≠ 0) }
      return fd

/-- `sys_open`, with the flags of `omode` as an unsigned number. -/
def sysOpen (path : Option (List UInt8)) (omode : Option Nat) : M Int :=
  match path, omode with
  | some path, some omode => do
    beginOp
    if omode &&& O_CREATE ≠ 0 then do
      let r ← create path T_FILE 0 0
      match r with
      | none => do
        endOp
        return -1
      | some ip => openFile ip omode
    else do
      let r ← namei path
      match r with
      | none => do
        endOp
        return -1
      | some ip => do
        ilock ip
        let s ← get
        if (s.icache ip).din.type = T_DIR ∧ omode ≠ 0 then do
          iunlockput ip
          endOp
          return -1
        else openFile ip omode
  | _, _ => return -1

/-- The end of `sys_mkdir` and `sys_mknod`. -/
def created (r : Option Nat) : M Int :=
  match r with
  | none => do
    endOp
    return -1
  | some ip => do
    iunlockput ip
    endOp
    return 0

def sysMkdir (path : Option (List UInt8)) : M Int := do
  beginOp
  match path with
  | none => created none
  | some path => do
    let r ← create path T_DIR 0 0
    created r

/-- `sys_mknod`; the device numbers become `short`. -/
def sysMknod (path : Option (List UInt8)) (major minor : Option Int) : M Int := do
  beginOp
  match path, major, minor with
  | some path, some major, some minor => do
    let r ← create path T_DEV (major % 2 ^ 16).toNat (minor % 2 ^ 16).toNat
    created r
  | _, _, _ => created none

def sysChdir (path : Option (List UInt8)) : M Int := do
  beginOp
  match path with
  | none => do
    endOp
    return -1
  | some path => do
    let r ← namei path
    match r with
    | none => do
      endOp
      return -1
    | some ip => do
      ilock ip
      let s ← get
      if (s.icache ip).din.type ≠ T_DIR then do
        iunlockput ip
        endOp
        return -1
      else do
        iunlock ip
        match (s.procs s.proc).cdir with
        | none => stop .stray
        | some old => do
          iput old
          endOp
          modify fun s => s.setProc { s.procs s.proc with cdir := some ip }
          return 0

/-! ### `exec` -/

def ELF_MAGIC : Nat := 0x464C457F
def ELFHDRSIZE : Nat := 52
def PROGHDRSIZE : Nat := 32
def ELF_PROG_LOAD : Nat := 1

/-- The `w` bytes of `l` from offset `o`, least significant first. -/
def leOf (l : List UInt8) (o : Nat) : Nat → Nat
  | 0 => 0
  | w + 1 => (l.getD o 0).toNat + 256 * leOf l (o + 1) w

/-- `readi` of a header: `none` when it is short. -/
def readHeader (ip off size : Nat) : M (Option (List UInt8)) := do
  let r ← readi ip off size
  return r.filter fun l => l.length = size

/-- The loop of `loaduvm`, for the pages from `k` on. -/
def loaduvm (ip offset sz : Nat) : List Nat → M Bool
  | [] => return true
  | k :: l => do
    let r ← readHeader ip ((offset + k * PGSIZE) % 2 ^ 32) (min (sz - k * PGSIZE) PGSIZE)
    match r with
    | some _ => loaduvm ip offset sz l
    | none => return false

/-- The loop over the program headers, from header `k` at `off` on: whether all of them
    were loaded. -/
def execLoad (ip : Nat) (alloc : Nat → Bool) : Nat → Nat → Nat → M Bool
  | 0, _, _ => return true
  | m + 1, k, off => do
    let r ← readHeader ip off PROGHDRSIZE
    match r with
    | none => return false
    | some ph =>
      let vaddr := leOf ph 8 4
      let filesz := leOf ph 16 4
      let memsz := leOf ph 20 4
      if leOf ph 0 4 ≠ ELF_PROG_LOAD then
        execLoad ip alloc m (k + 1) ((off + PROGHDRSIZE) % 2 ^ 32)
      else if memsz < filesz ∨ (vaddr + memsz) % 2 ^ 32 < vaddr ∨ alloc k = false ∨
          vaddr % PGSIZE ≠ 0 then return false
      else do
        let r ← loaduvm ip (leOf ph 4 4) filesz (List.range ((filesz + (PGSIZE - 1)) / PGSIZE))
        if r then execLoad ip alloc m (k + 1) ((off + PROGHDRSIZE) % 2 ^ 32) else return false

/-- What `exec` does between `ilock` and `iunlockput`. -/
def execRead (ip : Nat) (setupkvm : Bool) (alloc : Nat → Bool) : M Bool := do
  let r ← readHeader ip 0 ELFHDRSIZE
  match r with
  | none => return false
  | some elf =>
    if leOf elf 0 4 ≠ ELF_MAGIC ∨ setupkvm = false then return false
    else execLoad ip alloc (leOf elf 44 2) 0 (leOf elf 28 4)

/-- The file part of `exec`: 0 when it goes on to build the stack. -/
def exec (path : List UInt8) (setupkvm : Bool) (alloc : Nat → Bool) : M Int := do
  beginOp
  let r ← namei path
  match r with
  | none => do
    endOp
    return -1
  | some ip => do
    ilock ip
    let ok ← execRead ip setupkvm alloc
    iunlockput ip
    endOp
    return if ok then 0 else -1

/-! ### Calls -/

/-- The system calls, with their arguments. -/
inductive Call where
  | dup (fd : Option Int)
  | read (fd : Option Int) (p : Bool) (n : Option Int)
  | write (fd : Option Int) (p : Option Str) (n : Option Int)
  | close (fd : Option Int)
  | fstat (fd : Option Int) (st : Bool)
  | link (old new : Option (List UInt8))
  | unlink (path : Option (List UInt8))
  | open (path : Option (List UInt8)) (omode : Option Nat)
  | mkdir (path : Option (List UInt8))
  | mknod (path : Option (List UInt8)) (major minor : Option Int)
  | chdir (path : Option (List UInt8))
  | pipe (fd : Bool) (mem : Option Nat)
  | exec (path : List UInt8) (setupkvm : Bool) (alloc : Nat → Bool)

def Call.code : Call → M Int
  | .dup fd => sysDup fd
  | .read fd p n => sysRead fd p n
  | .write fd p n => sysWrite fd p n
  | .close fd => sysClose fd
  | .fstat fd st => sysFstat fd st
  | .link old new => sysLink old new
  | .unlink path => sysUnlink path
  | .open path omode => sysOpen path omode
  | .mkdir path => sysMkdir path
  | .mknod path major minor => sysMknod path major minor
  | .chdir path => sysChdir path
  | .pipe fd mem => sysPipe fd mem
  | .exec path setupkvm alloc => Fs.exec path setupkvm alloc

/-- Process `p` makes a call. -/
def perform (p : Nat) (c : Call) : M Int := do
  modify fun s => { s with proc := p }
  c.code

end Yonix.Fs
