/-
  Yonix/Slab/Model.lean
  =====================
  **The nodes of the kernel's queues and the slabs they live in (`kalloc.c`,
  `process.c`, `scheduler_class.c`, `vm.c`).**

  Every entry of `esqueue`, `rdyqueue`, the queues `rdy_q_dy` and `pgqueue` is a slab of
  32 bytes; here it carries its address.  `out` are the slabs that `alloc_slab` has
  handed out and `free_slab` has not got back.  While a process runs, the function of the
  scheme that chose it still holds the entry it took from its queue, and frees it when
  the process has switched back.

  A frame is an address in `kmem`.  An entry of `pgqueue` has the frame that its page
  table entry shows, which `page_out` frees; the swap area is left out (a full one is a
  panic).  What else happens to processes (`sleep`, `exit`, `kill`, `nice`) changes their
  records and no queue: the label `procs`.  `fork`, `wait`, `allocuvm`, `deallocuvm` and
  the others are sequences of the labels here.

  `free_slab` overwrites the link of the entry it frees with the head of the free list.
  A loop that goes on from a freed entry stops if that list was empty, and walks through
  free slabs otherwise, which is `stray`.
-/
import Yonix.Proc.Model

namespace Yonix.Slab

open Yonix.Proc (Slot Pcb Scheme slots dyIndex timeslice dynamicPri staticPri bonus)

/-! ### The data -/

/-- `struct slot_entry` at address `addr`. -/
structure Node where
  addr : Nat
  slot : Slot

/-- `struct page_entry` at address `addr`. -/
structure PageNode where
  addr : Nat
  key : Nat
  ref : Bool
  frame : Nat

/-- The process on the CPU, and the entry that `sched_fifo` or `sched_priority` holds. -/
structure Running where
  slot : Slot
  held : Option Nat
deriving DecidableEq

structure Kernel where
  freelist : List Nat
  nfreeblock : Nat
  out : List Nat
  kmem : List Nat
  proc : Slot → Pcb
  cur : Option Running
  scheme : Scheme
  rr : Nat
  esqueue : List Node
  rdyqueue : List Node
  rdyQDy : Nat → List Node
  pgqueue : List PageNode

def Kernel.set (s : Kernel) (p : Slot) (f : Pcb → Pcb) : Kernel :=
  { s with proc := Function.update s.proc p (f (s.proc p)) }

/-! ### The page queue -/

/-- The loop of `sel_page`: entries passed over lose their reference bit. -/
def secondChance : List PageNode → List PageNode × Option PageNode
  | [] => ([], none)
  | e :: l =>
    if e.ref then ({ e with ref := false } :: (secondChance l).1, (secondChance l).2)
    else (e :: l, some e)

def selPage (q : List PageNode) : List PageNode × Option PageNode :=
  match secondChance q with
  | (q, some e) => (q, some e)
  | (q, none) => (q, q.head?)

def freePage (s : Kernel) (key : Nat) : Kernel :=
  { s with pgqueue := s.pgqueue.eraseP fun e => e.key = key }

def pageOut (s : Kernel) : Except Stop Kernel :=
  match selPage s.pgqueue with
  | (_, none) => .error (.panic .noPageToPageOut)
  | (q, some e) => .ok (freePage { s with pgqueue := q, kmem := e.frame :: s.kmem } e.key)

/-! ### Frames and slabs -/

def takeFrame (s : Kernel) : Kernel × Option Nat :=
  match s.kmem with
  | [] => (s, none)
  | f :: l => ({ s with kmem := l }, some f)

def kalloc (s : Kernel) : Except Stop (Kernel × Option Nat) :=
  if s.kmem = [] then (pageOut s).map takeFrame else .ok (takeFrame s)

def freeSlab (s : Kernel) (v : Nat) : Kernel :=
  { s with freelist := v :: s.freelist, nfreeblock := s.nfreeblock + 1 }

/-- `free_slab` of a slab that had been handed out. -/
def giveBack (s : Kernel) (v : Nat) : Kernel := { freeSlab s v with out := s.out.erase v }

/-- `slabinit` cuts a page into slabs, all but the last one. -/
def slabinit (s : Kernel) : Except Stop Kernel := do
  match ← kalloc s with
  | (_, none) => .error .stray
  | (s, some p) =>
    return (List.range (PGSIZE / SLABSIZE - 1)).foldl (fun s i => freeSlab s (p + i * SLABSIZE)) s

/-- The rest of `alloc_slab`: the first slab of the free list. -/
def takeSlab (s : Kernel) : Except Stop (Kernel × Nat) :=
  match s.freelist with
  | [] => .error .stray
  | v :: l => .ok ({ s with freelist := l, nfreeblock := s.nfreeblock - 1, out := v :: s.out }, v)

def allocSlab (s : Kernel) : Except Stop (Kernel × Nat) :=
  if s.nfreeblock = 0 then slabinit s >>= takeSlab else takeSlab s

def addPage (s : Kernel) (key : Nat) (ref : Bool) (frame : Nat) : Except Stop Kernel := do
  let (s, v) ← allocSlab s
  return { s with pgqueue := s.pgqueue ++ [⟨v, key, ref, frame⟩] }

/-- `page_in` of the page with this identifier. -/
def pageIn (s : Kernel) (key : Nat) (ref : Bool) : Except Stop Kernel := do
  match ← kalloc s with
  | (_, none) => .error .stray
  | (s, some f) => addPage s key ref f

/-! ### The ready queues -/

/-- The slot goes to the end of `esqueue`: `esinit`, a `fork` that fails, `wait`,
    `lwp_join`. -/
def insertEs (s : Kernel) (p : Slot) : Except Stop Kernel := do
  let (s, v) ← allocSlab s
  return { s with esqueue := s.esqueue ++ [⟨v, p⟩] }

def insertFifo (s : Kernel) (p : Slot) : Except Stop Kernel := do
  let (s, v) ← allocSlab s
  return { s with rdyqueue := s.rdyqueue ++ [⟨v, p⟩] }

/-- The queue of a process among the forty. -/
def dyQueue (q : Pcb) : Except Stop Nat :=
  if 100 ≤ q.dpri ∧ q.dpri < 140 then .ok (dyIndex q) else .error .stray

def insertDy (s : Kernel) (p : Slot) : Except Stop Kernel := do
  let i ← dyQueue (s.proc p)
  let (s, v) ← allocSlab s
  return { s with rdyQDy := Function.update s.rdyQDy i (s.rdyQDy i ++ [⟨v, p⟩]) }

def enqueue (s : Kernel) (p : Slot) : Except Stop Kernel :=
  match s.scheme with
  | .FIFO => insertFifo s p
  | .RR => .ok s
  | .PRIORITY => insertDy s p

/-- `sched_*_after`. -/
def after (s : Kernel) (p : Slot) : Except Stop Kernel :=
  match s.scheme with
  | .FIFO => .ok (s.set p (timeslice .FIFO))
  | .RR => .ok (s.set p (timeslice .RR))
  | .PRIORITY => do
    let i ← dyQueue (s.proc p)
    match (s.rdyQDy i).find? fun e => e.slot = p with
    | none => .error .stray
    | some e =>
      let q := s.rdyQDy i
      let s := { s with rdyQDy := Function.update s.rdyQDy i (q.eraseP fun e => e.slot = p) }
      let s := s.set p fun q =>
        let q := timeslice .PRIORITY q
        { q with dpri := dynamicPri q.spri (bonus q.avgslp) }
      let j ← dyQueue (s.proc p)
      return { s with rdyQDy := Function.update s.rdyQDy j (s.rdyQDy j ++ [e]) }

def giveupCpu (s : Kernel) : Except Stop Kernel :=
  match s.cur with
  | none => .error .stray
  | some r => do
    let s := s.set r.slot fun q => { q with stat := .READY }
    let s ← enqueue s r.slot
    after s r.slot

/-! ### Scheme switches -/

/-- The loop of `sched_fifo_init`: the entries that stay, and the one it frees. -/
def fifoSweep (s : Kernel) : List Node → Except Stop (List Node × Option Node)
  | [] => .ok ([], none)
  | e :: l =>
    if (s.proc e.slot).stat = .READY then do
      let (l, x) ← fifoSweep s l
      return (e :: l, x)
    else if s.freelist = [] then .ok (l, some e)
    else .error .stray

def giveBackNode (s : Kernel) : Option Node → Kernel
  | none => s
  | some e => giveBack s e.addr

/-- An entry for each process that is ready. -/
def rebuild (insert : Kernel → Slot → Except Stop Kernel) : List Slot → Kernel → Except Stop Kernel
  | [], s => .ok s
  | p :: l, s =>
    if (s.proc p).stat = .READY then do
      let s ← insert s p
      rebuild insert l s
    else rebuild insert l s

/-- The loop of `sched_priority_init`, which walks `rdyqueue`, called by `p`. -/
def prioritySweep (s : Kernel) (p : Slot) : Except Stop Kernel := do
  let i ← dyQueue (s.proc p)
  match s.rdyQDy i, s.rdyqueue with
  | [], _ => return s
  | _, [] => return s
  | _, e :: l => if s.freelist = [] then return giveBack { s with rdyqueue := l } e.addr else .error .stray

def fifoInit (s : Kernel) : Except Stop Kernel := do
  let (l, x) ← fifoSweep s s.rdyqueue
  rebuild insertFifo slots (giveBackNode { s with rdyqueue := l } x)

def priorityInit (s : Kernel) (p : Slot) : Except Stop Kernel := do
  let s ← prioritySweep s p
  rebuild insertDy slots s

/-- `sched_*_init`. -/
def schedInit (s : Kernel) (p : Slot) : Except Stop Kernel :=
  match s.scheme with
  | .FIFO => fifoInit s
  | .RR => .ok s
  | .PRIORITY => priorityInit s p

def selectScheme (s : Kernel) (scheme : Scheme) : Except Stop Kernel :=
  match s.cur with
  | none => .error .stray
  | some r => schedInit { s with scheme := scheme } r.slot

/-! ### Dispatching -/

def switchTo (s : Kernel) (p : Slot) (held : Option Nat) : Kernel :=
  { s.set p (fun q => { q with stat := .SRUN }) with cur := some ⟨p, held⟩ }

def schedFifo (s : Kernel) : Kernel :=
  match s.rdyqueue with
  | [] => s
  | e :: l => switchTo { s with rdyqueue := l } e.slot (some e.addr)

/-- `sched_rr`, with its static pointer `rr`. -/
def schedRr (s : Kernel) : Kernel :=
  match (slots.drop s.rr).find? fun p => (s.proc p).stat = .READY with
  | some p => switchTo { s with rr := p + 1 } p none
  | none => { s with rr := 0 }

def schedPriority (s : Kernel) : Kernel :=
  match (List.range Proc.NQUEUE).find? fun i => (s.rdyQDy i).isEmpty = false with
  | none => s
  | some i =>
    match s.rdyQDy i with
    | [] => s
    | e :: l => switchTo { s with rdyQDy := Function.update s.rdyQDy i l } e.slot (some e.addr)

/-- One round of `scheduler`, up to the switch; it clears `proc` before. -/
def sched (s : Kernel) : Except Stop Kernel :=
  match s.cur, s.scheme with
  | some _, _ => .error .stray
  | none, .FIFO => .ok (schedFifo s)
  | none, .RR => .ok (schedRr s)
  | none, .PRIORITY => .ok (schedPriority s)

/-- The process has switched back: the scheme function frees the entry. -/
def back (s : Kernel) : Except Stop Kernel :=
  match s.cur with
  | none => .error .stray
  | some ⟨_, none⟩ => .ok { s with cur := none }
  | some ⟨_, some v⟩ => .ok { giveBack s v with cur := none }

/-! ### Process slots -/

def procalloc (s : Kernel) : Except Stop Kernel :=
  match s.esqueue with
  | [] => .ok s
  | e :: l => do
    let s := giveBack { s with esqueue := l } e.addr
    let s := s.set e.slot fun q =>
      let q := timeslice s.scheme
        { q with stat := .SEMBRYO, nice := 0, spri := staticPri 0, avgslp := 0 }
      { q with dpri := dynamicPri q.spri (bonus q.avgslp) }
    match ← kalloc s with
    | (s, none) => return s.set e.slot fun q => { q with stat := .SUNUSED }
    | (s, some _) => return s

/-! ### The labels -/

inductive Act where
  | procalloc
  | insertEs (p : Slot)
  | enqueue (p : Slot)
  | giveupCpu
  | sched
  | back
  | selectScheme (scheme : Scheme)
  | kalloc
  | kfree (f : Nat)
  | addPage (key : Nat) (ref : Bool) (frame : Nat)
  | freePage (key : Nat)
  | pageIn (key : Nat) (ref : Bool)
  | procs (proc : Slot → Pcb)

def act (s : Kernel) : Act → Except Stop Kernel
  | .procalloc => procalloc s
  | .insertEs p => insertEs s p
  | .enqueue p => enqueue s p
  | .giveupCpu => giveupCpu s
  | .sched => sched s
  | .back => back s
  | .selectScheme scheme => selectScheme s scheme
  | .kalloc => (kalloc s).map Prod.fst
  | .kfree f => .ok { s with kmem := f :: s.kmem }
  | .addPage key ref frame => addPage s key ref frame
  | .freePage key => .ok (freePage s key)
  | .pageIn key ref => pageIn s key ref
  | .procs proc => .ok { s with proc := proc }

/-! ### Booting -/

def insertAll : List Slot → Kernel → Except Stop Kernel
  | [], s => .ok s
  | p :: l, s => do
    let s ← insertEs s p
    insertAll l s

/-- `kinit2`, `swapinit`, `esinit` and `rdinit`, with these frames and scheme. -/
def boot (kmem : List Nat) (proc : Slot → Pcb) (scheme : Scheme) : Except Stop Kernel := do
  let s ← slabinit
    { freelist := [], nfreeblock := 0, out := [], kmem := kmem, proc := proc, cur := none
      scheme := scheme, rr := 0, esqueue := [], rdyqueue := [], rdyQDy := fun _ => [], pgqueue := [] }
  insertAll slots s

end Yonix.Slab
