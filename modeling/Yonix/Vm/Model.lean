/-
  Yonix/Vm/Model.lean
  ===================
  **User memory: frames, page tables, the page queue and the swap area (`kalloc.c`,
  `vm.c`, the memory part of `process.c` and `exec.c`).**

  A frame is a number, with its contents in `mem`; a null frame pointer is `none`.
  A page directory is kept under a serial number that is never used again, so that
  a pointer into a freed page table (`ptr_pte` of a queue entry: a directory and a
  page address) can be told from one into a table that reuses the frames.  Using
  such a pointer is `stray`; so is using the frame address left in a page table entry
  that is not present, and dereferencing a null pointer.  Of a directory only the
  user half has entries here; the tables of the kernel half count as frames.

  `kheld` are the frames that the rest of the kernel has taken, kernel stacks
  included; it takes and returns frames and slabs whenever it likes.  `kfree` writes
  the list node into the frame it frees.  The reference bits are set by the hardware,
  so the label of `read_ref` brings them.

  One component is read by no function: `filled` is the slot that the last `page_out`
  of each page used.
-/
import Yonix.Lib.Run
import Yonix.Param

namespace Yonix.Vm

/-! ### The data -/

def pdx (va : Nat) : Nat := va / (NPTENTRIES * PGSIZE)
def pgroundup (sz : Nat) : Nat := (sz + PGSIZE - 1) / PGSIZE * PGSIZE
def pgrounddown (a : Nat) : Nat := a / PGSIZE * PGSIZE

/-- A page table entry: present, writable, user, accessed, and the frame. -/
structure Pte where
  p : Bool
  w : Bool
  u : Bool
  a : Bool
  frame : Nat

def Pte.zero : Pte := ⟨false, false, false, false, 0⟩

/-- A page directory: its own frame, the frames of its tables, the user entries. -/
structure Dir where
  frame : Nat
  tab : Nat → Option Nat
  pte : Nat → Pte

/-- `struct page_entry`; `dir` and `va` are `ptr_pte`. -/
structure Entry where
  dir : Nat
  va : Nat
  key : Nat
  ref : Bool
deriving DecidableEq

structure Proc where
  page : Nat
  size : Nat
  kstack : Nat
  zombie : Bool

structure Core where
  mem : Nat → Page
  freelist : List Nat
  nfreeblock : Nat
  slabs : Nat
  kheld : List Nat
  dirs : Nat → Option Dir
  nextDir : Nat
  pgqueue : List Entry
  swapMap : Nat → Nat
  swap : Nat → Page
  procs : Nat → Option Proc
  nextpid : Nat
  filled : Nat → Nat

/-- The entry a pointer into directory `d` shows, unless the table is gone or was
    never there. -/
def Core.pte (s : Core) (d va : Nat) : Option Pte :=
  match s.dirs d with
  | none => none
  | some D => (D.tab (pdx va)).map fun _ => D.pte va

def Core.setPte (s : Core) (d va : Nat) (x : Pte) : Core :=
  { s with
    dirs := Function.update s.dirs d
      ((s.dirs d).map fun D => { D with pte := Function.update D.pte va x }) }

def Core.setTab (s : Core) (d i f : Nat) : Core :=
  { s with
    dirs := Function.update s.dirs d
      ((s.dirs d).map fun D => { D with tab := Function.update D.tab i (some f) }) }

def Core.setMem (s : Core) (f : Nat) (x : Page) : Core := { s with mem := Function.update s.mem f x }

/-! ### The swap area -/

def swapm2secno (i : Nat) : Nat := i * 8
def secno2swapm (n : Nat) : Nat := n / 8

/-- The first index from `i` on, among the next `k`, that passes the test. -/
def firstFrom (test : Nat → Bool) : Nat → Nat → Option Nat
  | 0, _ => none
  | k + 1, i => if test i then some i else firstFrom test k (i + 1)

def allocSlot (s : Core) (key : Nat) : Except Stop (Core × Nat) :=
  match firstFrom (fun i => s.swapMap i = 0) SLOTSIZE 0 with
  | none => .error (.panic .noFreeSlot)
  | some i => .ok ({ s with swapMap := Function.update s.swapMap i key }, swapm2secno i)

def findSlot (s : Core) (key : Nat) : Except Stop Nat :=
  match firstFrom (fun i => s.swapMap i = key) SLOTSIZE 0 with
  | none => .error (.panic .slotNotFound)
  | some i => .ok (swapm2secno i)

def freeSlot (s : Core) (slotn : Nat) : Except Stop Core :=
  let i := secno2swapm slotn
  if SLOTSIZE ≤ i then .error (.panic .freeNonExistSlot)
  else .ok { s with swapMap := Function.update s.swapMap i 0 }

def freePageSlot (s : Core) (key : Nat) : Core :=
  match firstFrom (fun i => s.swapMap i = key) SLOTSIZE 0 with
  | none => s
  | some i => { s with swapMap := Function.update s.swapMap i 0 }

/-! ### The page queue -/

def freePage (s : Core) (key : Nat) (flagSlot : Bool) : Core :=
  match s.pgqueue.find? fun e => e.key = key with
  | none => s
  | some e =>
    let s := if flagSlot then freePageSlot s e.key else s
    { s with pgqueue := s.pgqueue.eraseP fun e => e.key = key }

/-- The loop of `sel_page`: entries passed over lose their reference bit. -/
def secondChance : List Entry → List Entry × Option Entry
  | [] => ([], none)
  | e :: l =>
    if e.ref then ({ e with ref := false } :: (secondChance l).1, (secondChance l).2)
    else (e :: l, some e)

def selPage (q : List Entry) : List Entry × Option Entry :=
  match secondChance q with
  | (q, some e) => (q, some e)
  | (q, none) => (q, q.head?)

/-! ### Frames -/

/-- `kfree`: the frame becomes the first node of the free list. -/
def kfree (s : Core) (f : Nat) : Core :=
  let next := match s.freelist with
    | [] => 0
    | g :: _ => KERNBASE + g * PGSIZE
  { s with
    mem := Function.update s.mem f (((s.mem f).setLE 0 4 PGSIZE).setLE 4 4 next)
    freelist := f :: s.freelist
    nfreeblock := s.nfreeblock + 1 }

/-- The rest of `page_out`, for the entry that `sel_page` chose. -/
def pageOutEntry (s : Core) (e : Entry) : Except Stop Core :=
  match s.pte e.dir e.va with
  | none => .error .stray
  | some x =>
    if x.p = false then .error .stray
    else do
      let s := s.setPte e.dir e.va { x with p := false }
      let (s, slotn) ← allocSlot s e.key
      let s := { s with
        swap := Function.update s.swap slotn (s.mem x.frame)
        filled := Function.update s.filled e.key slotn }
      return freePage (kfree s x.frame) e.key false

def pageOut (s : Core) : Except Stop Core :=
  match selPage s.pgqueue with
  | (_, none) => .error (.panic .noPageToPageOut)
  | (q, some e) => pageOutEntry { s with pgqueue := q } e

/-- The rest of `kalloc`: the first node of the free list. -/
def takeFrame (s : Core) : Core × Option Nat :=
  match s.freelist with
  | [] => ({ s with nfreeblock := (s.nfreeblock + (2 ^ 32 - 1)) % 2 ^ 32 }, none)
  | f :: l => ({ s with freelist := l, nfreeblock := s.nfreeblock - 1 }, some f)

def kalloc (s : Core) : Except Stop (Core × Option Nat) :=
  if s.nfreeblock = 0 then (pageOut s).map takeFrame else .ok (takeFrame s)

/-- `alloc_slab`, with `slabinit` when no slab is left. -/
def allocSlab (s : Core) : Except Stop Core :=
  if s.slabs = 0 then do
    match ← kalloc s with
    | (_, none) => .error .stray
    | (s, some _) => return { s with slabs := PGSIZE / SLABSIZE - 1 - 1 }
  else .ok { s with slabs := s.slabs - 1 }

def addPage (s : Core) (d va pid : Nat) : Except Stop Core := do
  let s ← allocSlab s
  match s.pte d va with
  | none => .error .stray
  | some x => return { s with pgqueue := s.pgqueue ++ [⟨d, va, va ||| pid, x.a⟩] }

/-- `add_page` under a test of its caller. -/
def addPageIf (test : Bool) (s : Core) (d va pid : Nat) : Except Stop Core :=
  if test then addPage s d va pid else .ok s

/-! ### Page tables -/

/-- `walkpgdir`; the second component is whether the result is non-null. -/
def walkpgdir (s : Core) (d va : Nat) (alloc : Bool) : Except Stop (Core × Bool) :=
  match s.dirs d with
  | none => .error .stray
  | some D =>
    if (D.tab (pdx va)).isSome then .ok (s, true)
    else if alloc = false then .ok (s, false)
    else do
      match ← kalloc s with
      | (s, none) => return (s, false)
      | (s, some f) => return ((s.setMem f Bytes.zero).setTab d (pdx va) f, true)

/-- `mappages` for one page. -/
def mapPage (s : Core) (d va f : Nat) (w u a : Bool) : Except Stop (Core × Bool) := do
  match ← walkpgdir s d va true with
  | (s, false) => return (s, false)
  | (s, true) =>
    match s.pte d va with
    | none => .error .stray
    | some x =>
      if x.p then .error (.panic .duplicateMapping)
      else return (s.setPte d va ⟨true, w, u, a, f⟩, true)

-- the page directory entries of `kmap`
def kernelPdx : List Nat := List.range' 512 8 ++ List.range' 1016 8

def kernelTables (d : Nat) : List Nat → Core → Except Stop (Core × Bool)
  | [], s => .ok (s, true)
  | i :: l, s => do
    match ← walkpgdir s d (i * (NPTENTRIES * PGSIZE)) true with
    | (s, false) => return (s, false)
    | (s, true) => kernelTables d l s

/-- An empty directory in frame `f`, under the next serial number. -/
def Core.newDir (s : Core) (f : Nat) : Core :=
  { s with
    dirs := Function.update s.dirs s.nextDir (some ⟨f, fun _ => none, fun _ => Pte.zero⟩)
    nextDir := s.nextDir + 1 }

def setupkvm (s : Core) : Except Stop (Core × Option Nat) := do
  match ← kalloc s with
  | (s, none) => return (s, none)
  | (s, some f) =>
    let d := s.nextDir
    match ← kernelTables d kernelPdx ((s.setMem f Bytes.zero).newDir f) with
    | (s, false) => return (s, none)
    | (s, true) => return (s, some d)

/-! ### Address spaces -/

/-- The page addresses from `PGROUNDUP(startva)` up to `endva`. -/
def pages (startva endva : Nat) : List Nat :=
  (List.range ((endva - pgroundup startva + PGSIZE - 1) / PGSIZE)).map fun k =>
    pgroundup startva + k * PGSIZE

/-- A present page of `deallocuvm`. -/
def unmap (s : Core) (d va : Nat) (x : Pte) (pid : Nat) : Core :=
  (kfree (freePage s (va ||| pid) true) x.frame).setPte d va Pte.zero

def deallocLoop (d startva pid : Nat) : Nat → Nat → Core → Core
  | 0, _, s => s
  | k + 1, i, s =>
    if startva ≤ i then s
    else match s.pte d i with
      | none => deallocLoop d startva pid k (i + (NPTENTRIES - 1) * PGSIZE + PGSIZE) s
      | some x =>
        if x.p then deallocLoop d startva pid k (i + PGSIZE) (unmap s d i x pid)
        else deallocLoop d startva pid k (i + PGSIZE) s

def deallocuvm (s : Core) (d startva endva pid : Nat) : Except Stop (Core × Nat) :=
  if startva ≤ endva then .ok (s, startva)
  else match s.dirs d with
    | none => .error .stray
    | some _ => .ok (deallocLoop d startva pid (startva / PGSIZE + 1) (pgroundup endva) s, endva)

/-- One round of the loop of `allocuvm`; the second component is whether there was
    memory. -/
def allocPage (s : Core) (d base pid i : Nat) : Except Stop (Core × Bool) := do
  match ← kalloc s with
  | (s, none) => return (s, false)
  | (s, some f) =>
    match ← mapPage (s.setMem f Bytes.zero) d i f true true false with
    | (s, false) => return (kfree s f, false)
    | (s, true) =>
      let s ← addPageIf (base < i) s d i pid
      return (s, true)

/-- The second component is the page at which memory ran out. -/
def allocLoop (d base pid : Nat) : List Nat → Core → Except Stop (Core × Option Nat)
  | [], s => .ok (s, none)
  | i :: l, s => do
    match ← allocPage s d base pid i with
    | (s, false) => return (s, some i)
    | (s, true) => allocLoop d base pid l s

def allocuvm (s : Core) (d startva endva pid : Nat) : Except Stop (Core × Nat) :=
  if KERNBASE ≤ endva then .ok (s, 0)
  else if endva < startva then .ok (s, startva)
  else do
    match ← allocLoop d (pgroundup startva) pid (pages startva endva) s with
    | (s, none) => return (s, endva)
    | (s, some i) =>
      let (s, _) ← deallocuvm s d i startva pid
      return (s, 0)

def freeTables (D : Dir) (s : Core) : Core :=
  (List.range NPDENTRIES).foldl (fun s i =>
    match D.tab i with
    | none => s
    | some f => kfree s f) s

def Core.dropDir (s : Core) (d : Nat) : Core := { s with dirs := Function.update s.dirs d none }

def freeuvm (s : Core) (d pid : Nat) : Except Stop Core := do
  let (s, _) ← deallocuvm s d KERNBASE 0 pid
  match s.dirs d with
  | none => .error .stray
  | some D => return (kfree (freeTables D s) D.frame).dropDir d

/-! ### Faults -/

/-- `page_in` by process `pid` with directory `d`.  Without a frame or a table it
    marks the process killed and goes on to use the null pointer. -/
def pageIn (s : Core) (pid d va : Nat) : Except Stop Core := do
  match ← kalloc s with
  | (_, none) => .error .stray
  | (s, some f) =>
    let slotn ← findSlot s (pid ||| va)
    let s := s.setMem f (s.swap slotn)
    let s ← freeSlot s slotn
    match s.pte d va with
    | none => .error .stray
    | some x => addPage (s.setPte d va { x with p := true, frame := f }) d va pid

def pageInIf (test : Bool) (s : Core) (pid d va : Nat) : Except Stop Core :=
  if test then pageIn s pid d va else .ok s

def pgfltHandle (s : Core) (pid : Nat) (P : Proc) (va : Nat) : Except Stop Core :=
  let va := pgrounddown va
  if va < P.size then pageIn s pid P.page va else .error (.panic .pageFault)

/-! ### `fork` -/

/-- The loop of `copyuvm` from directory `sd` of process `ppid` to directory `td` of
    process `pid`; the second component is whether it got through. -/
def copyLoop (sd ppid td pid : Nat) : List Nat → Core → Except Stop (Core × Bool)
  | [], s => .ok (s, true)
  | i :: l, s =>
    match s.pte sd i with
    | none => .error .stray
    | some x => do
      let s ← pageInIf (x.p = false) s ppid sd i
      match s.pte sd i with
      | none => .error .stray
      | some x =>
        match ← kalloc s with
        | (s, none) => return (s, false)
        | (s, some m) =>
          match ← mapPage (s.setMem m (s.mem x.frame)) td i m x.w x.u x.a with
          | (s, false) => return (s, false)
          | (s, true) =>
            let s ← addPageIf (0 < i ∧ x.u) s td i pid
            copyLoop sd ppid td pid l s

def copyuvm (s : Core) (sd sz ppid pid : Nat) : Except Stop (Core × Option Nat) := do
  match ← setupkvm s with
  | (s, none) => return (s, none)
  | (s, some td) =>
    match ← copyLoop sd ppid td pid (pages 0 sz) s with
    | (s, true) => return (s, some td)
    | (s, false) =>
      let s ← freeuvm s td pid
      return (s, none)

def Core.setProc (s : Core) (pid : Nat) (P : Option Proc) : Core :=
  { s with procs := Function.update s.procs pid P }

/-- `fork` by `ppid`, with the memory part of `procalloc`. -/
def fork (s : Core) (ppid : Nat) (P : Proc) : Except Stop Core := do
  let pid := s.nextpid
  match ← kalloc { s with nextpid := pid + 1 } with
  | (s, none) => return s
  | (s, some k) =>
    match ← copyuvm s P.page P.size ppid pid with
    | (s, none) => return kfree s k
    | (s, some d) => return s.setProc pid (some ⟨d, P.size, k, false⟩)

/-! ### `sbrk` -/

def procgrow (s : Core) (pid : Nat) (P : Proc) (n : Int) : Except Stop Core := do
  let endva := ((P.size + n) % 2 ^ 32).toNat
  if 0 < n then
    let (s, sz) ← allocuvm s P.page P.size endva pid
    return if sz = 0 then s else s.setProc pid (some { P with size := sz })
  else if n < 0 then
    let (s, sz) ← deallocuvm s P.page P.size endva pid
    return if sz = 0 then s else s.setProc pid (some { P with size := sz })
  else return s

/-! ### `exec` -/

/-- The fields of `struct proghdr` that `exec` reads. -/
structure Ph where
  type : Nat
  off : Nat
  vaddr : Nat
  filesz : Nat
  memsz : Nat

/-- The file that `exec` is given and the argument strings.  `header` is whether the
    file exists and starts with a whole ELF header; a program header past the end of
    the file is `none`. -/
structure Image where
  header : Bool
  phs : List (Option Ph)
  file : Nat → UInt8
  fileSize : Nat
  args : List (List UInt8)

def ELF_PROG_LOAD : Nat := 1

def loadLoop (d addr off sz : Nat) (img : Image) : List Nat → Core → Except Stop (Core × Bool)
  | [], s => .ok (s, true)
  | i :: l, s =>
    match s.pte d (addr + i) with
    | none => .error (.panic .nonExistAddress)
    | some x =>
      if x.p = false then .error .stray
      else
        let o := (off + i) % 2 ^ 32
        let n := min PGSIZE (sz - i)
        if img.fileSize < o + n then .ok (s, false)
        else
          let page := (s.mem x.frame).patch 0 (fun k => img.file (o + k)) n
          loadLoop d addr off sz img l (s.setMem x.frame page)

def loaduvm (s : Core) (d addr off sz : Nat) (img : Image) : Except Stop (Core × Bool) :=
  loadLoop d addr off sz img (pages 0 sz) s

/-- `uva2ka` and the copying loop of `copyout`. -/
def copyoutLoop (d : Nat) : Nat → Nat → List UInt8 → Core → Except Stop (Core × Bool)
  | 0, _, _, s => .ok (s, true)
  | k + 1, va, src, s =>
    if src = [] then .ok (s, true)
    else
      let va0 := pgrounddown va
      match s.pte d va0 with
      | none => .error .stray
      | some x =>
        if x.p = false ∨ x.u = false then .ok (s, false)
        else
          let n := min (PGSIZE - (va - va0)) src.length
          let page := (s.mem x.frame).patch (va - va0) (fun k => src.getD k 0) n
          copyoutLoop d k (va0 + PGSIZE) (src.drop n) (s.setMem x.frame page)

def copyout (s : Core) (d va : Nat) (src : List UInt8) : Except Stop (Core × Bool) :=
  copyoutLoop d src.length va src s

def clearpteu (s : Core) (d va : Nat) : Except Stop Core :=
  match s.pte d va with
  | none => .error (.panic .clearpteu)
  | some x => .ok (s.setPte d va { x with u := false })

/-- One segment of the loading loop of `exec`, from image size `sz`; `none` is a jump to
    `bad`. -/
def loadPh (d pid : Nat) (img : Image) (ph : Ph) (sz : Nat) (s : Core) :
    Except Stop (Core × Option Nat) :=
  if ph.type ≠ ELF_PROG_LOAD then .ok (s, some sz)
  else if ph.memsz < ph.filesz then .ok (s, none)
  else if (ph.vaddr + ph.memsz) % 2 ^ 32 < ph.vaddr then .ok (s, none)
  else do
    let (s, sz) ← allocuvm s d sz ((ph.vaddr + ph.memsz) % 2 ^ 32) pid
    if sz = 0 then return (s, none)
    else if ph.vaddr % PGSIZE ≠ 0 then return (s, none)
    else
      match ← loaduvm s d ph.vaddr ph.off ph.filesz img with
      | (s, false) => return (s, none)
      | (s, true) => return (s, some sz)

def loadPhs (d pid : Nat) (img : Image) : List (Option Ph) → Nat → Core →
    Except Stop (Core × Option Nat)
  | [], sz, s => .ok (s, some sz)
  | none :: _, _, s => .ok (s, none)
  | some ph :: l, sz, s => do
    match ← loadPh d pid img ph sz s with
    | (s, none) => return (s, none)
    | (s, some sz) => loadPhs d pid img l sz s

def wordBytes (v : Nat) : List UInt8 := (List.range 4).map (Bytes.leByte v)

/-- The argument strings below `sp`; `ustack` collects their addresses. -/
def pushArgs (d : Nat) : List (List UInt8) → Nat → Nat → List Nat → Core →
    Except Stop (Core × Option (Nat × List Nat))
  | [], _, sp, ustack, s => .ok (s, some (sp, ustack))
  | arg :: l, argc, sp, ustack, s =>
    if MAXARG ≤ argc then .ok (s, none)
    else do
      let sp := (sp + 2 ^ 32 - (arg.length + 1)) % 2 ^ 32 / 4 * 4
      match ← copyout s d sp (arg ++ [0]) with
      | (s, false) => return (s, none)
      | (s, true) => pushArgs d l (argc + 1) sp (ustack ++ [sp]) s

/-- The stack of the new image, of size `sz` after it. -/
def buildStack (d sz : Nat) (img : Image) (s : Core) : Except Stop (Core × Bool) := do
  match ← pushArgs d img.args 0 sz [] s with
  | (s, none) => return (s, false)
  | (s, some (sp, ustack)) =>
    let argc := img.args.length
    let words := [0xffffffff, argc, (sp + 2 ^ 32 - (argc + 1) * 4) % 2 ^ 32] ++ ustack ++ [0]
    copyout s d ((sp + 2 ^ 32 - (3 + argc + 1) * 4) % 2 ^ 32) (words.flatMap wordBytes)

/-- Everything of `exec` between `setupkvm` and the commit: the size of the new image,
    or `none` for a jump to `bad`. -/
def buildImage (d pid : Nat) (img : Image) (s : Core) : Except Stop (Core × Option Nat) := do
  match ← loadPhs d pid img img.phs 0 s with
  | (s, none) => return (s, none)
  | (s, some sz) =>
    let (s, sz) ← allocuvm s d (pgroundup sz) (pgroundup sz + 2 * PGSIZE) pid
    if sz = 0 then return (s, none)
    else
      let s ← clearpteu s d (sz - 2 * PGSIZE)
      match ← buildStack d sz img s with
      | (s, false) => return (s, none)
      | (s, true) => return (s, some sz)

def exec (s : Core) (pid : Nat) (P : Proc) (img : Image) : Except Stop Core :=
  if img.header = false then .ok s
  else do
    match ← setupkvm s with
    | (s, none) => return s
    | (s, some d) =>
      match ← buildImage d pid img s with
      | (s, none) => freeuvm s d pid
      | (s, some sz) =>
        let s := s.setProc pid (some { P with page := d, size := sz })
        freeuvm s P.page pid

/-! ### The labels -/

def wait (s : Core) (pid : Nat) (P : Proc) : Except Stop Core := do
  let s ← freeuvm (kfree s P.kstack) P.page pid
  return s.setProc pid none

/-- A store of one byte by the process itself. -/
def store (s : Core) (P : Proc) (va : Nat) (b : UInt8) : Except Stop Core :=
  let va0 := pgrounddown va
  match s.pte P.page va0 with
  | none => .error .notCalled
  | some x =>
    if x.p ∧ x.u then
      let page := (s.mem x.frame).patch (va - va0) (fun _ => b) 1
      .ok ((s.setMem x.frame page).setPte P.page va0 { x with a := true })
    else .error .notCalled

/-- What one process does. -/
inductive Call where
  | fork
  | sbrk (n : Int)
  | exec (img : Image)
  | exit
  | fault (va : Nat)
  | store (va : Nat) (b : UInt8)

inductive Act where
  | call (pid : Nat) (c : Call)
  | wait (pid : Nat)
  | readRef (pid : Nat) (ref : Nat → Bool)
  | kalloc
  | kfree (f : Nat)
  | allocSlab
  | freeSlab

def call (s : Core) (pid : Nat) (P : Proc) : Call → Except Stop Core
  | .fork => fork s pid P
  | .sbrk n => procgrow s pid P n
  | .exec img => exec s pid P img
  | .exit => .ok (s.setProc pid (some { P with zombie := true }))
  | .fault va =>
    -- the hardware raises it
    match s.pte P.page (pgrounddown va) with
    | some x => if x.p ∧ x.u then .error .notCalled else pgfltHandle s pid P va
    | none => pgfltHandle s pid P va
  | .store va b => store s P va b

/-- `PTE_FLAGS` of an identifier. -/
def pteFlags (key : Nat) : Nat := key % PGSIZE

def act (s : Core) : Act → Except Stop Core
  | .call pid c =>
    match s.procs pid with
    | some P => if P.zombie then .error .notCalled else call s pid P c
    | none => .error .notCalled
  | .wait pid =>
    match s.procs pid with
    | some P => if P.zombie then wait s pid P else .error .notCalled
    | none => .error .notCalled
  | .readRef pid ref => .ok { s with
      pgqueue := s.pgqueue.map fun e => if pteFlags e.key = pid then { e with ref := ref e.va } else e }
  | .kalloc => do
    match ← kalloc s with
    | (s, none) => return s
    | (s, some f) => return { s with kheld := f :: s.kheld }
  | .kfree f =>
    if f ∈ s.kheld then .ok { kfree s f with kheld := s.kheld.erase f } else .error .notCalled
  | .allocSlab => allocSlab s
  | .freeSlab => .ok { s with slabs := s.slabs + 1 }

def Step (s : Core) (a : Act) (t : Core) : Prop := act s a = .ok t

/-! ### Start-up -/

/-- `inituvm` maps the first page of the first process. -/
def inituvm (s : Core) (d : Nat) (init : List UInt8) : Except Stop Core := do
  match ← kalloc s with
  | (_, none) => .error .stray
  | (s, some f) =>
    match ← mapPage (s.setMem f (Bytes.zero.patch 0 (fun k => init.getD k 0) init.length)) d 0 f
        true true false with
    | (s, _) => return s

/-- Memory with free frames `l` and `m` slabs, before the first process. -/
def empty (l : List Nat) (m : Nat) : Core where
  mem := fun _ => Bytes.zero
  freelist := l
  nfreeblock := l.length
  slabs := m
  kheld := []
  dirs := fun _ => none
  nextDir := 0
  pgqueue := []
  swapMap := fun _ => 0
  swap := fun _ => Bytes.zero
  procs := fun _ => none
  nextpid := 1
  filled := fun _ => 0

/-- `userinit`. -/
def boot (l : List Nat) (m : Nat) (init : List UInt8) : Except Stop Core := do
  match ← kalloc { empty l m with nextpid := 2 } with
  | (_, none) => .error .stray
  | (s, some k) =>
    match ← setupkvm s with
    | (_, none) => .error .stray
    | (s, some d) =>
      let s ← inituvm s d init
      return s.setProc 1 (some ⟨d, PGSIZE, k, false⟩)

end Yonix.Vm
