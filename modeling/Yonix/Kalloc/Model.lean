/-
  Yonix/Kalloc/Model.lean
  =======================
  **The page allocator (`kalloc.c`) in the memory that it manages, with `page_out`.**

  An address is a number below 2^32, and `mem` has the word at each address: a free page is a
  `struct fpage`, its size and then the pointer to the next one.  `kend` is the address of the
  first byte behind the kernel.  The rest of the kernel may change the page queue, the page
  table entries and the swap map between two operations as it likes (`Act.rest`), and it
  stores into the pages that it holds.  `taken` are the pages that `kalloc` returned and that
  were not freed since, and `booted` tells whether `kinit2` was called; no function reads them.
-/
import Yonix.Lib.Links
import Yonix.Vm.Model

namespace Yonix.Kalloc

/-! ### Addresses -/

def PHYSTOP : Nat := 0x2000000
def PTE_P : Nat := 0x001
def PTE_A : Nat := 0x020
def USE_SWAP : Nat := 1

def v2p (v : Nat) : Nat := (v + 2 ^ 32 - KERNBASE) % 2 ^ 32
def p2v (p : Nat) : Nat := (p + KERNBASE) % 2 ^ 32
def pgroundup (sz : Nat) : Nat := (sz + PGSIZE - 1) % 2 ^ 32 / PGSIZE * PGSIZE
def pteAddr (x : Nat) : Nat := x / PGSIZE * PGSIZE

/-- `n--`, for a `uint`. -/
def dec (n : Nat) : Nat := if n = 0 then 2 ^ 32 - 1 else n - 1

/-- The page that an address lies in. -/
def pageOf (a : Nat) : Nat := a / PGSIZE * PGSIZE

/-- The values of `p` in `for (; p < stop; p += step)`. -/
def upTo (p stop step : Nat) : List Nat := List.range' p ((stop - p + step - 1) / step) step

/-! ### The state -/

/-- `struct page_entry` -/
structure Entry where
  ref : Nat
  pnPid : Nat
  ptrPte : Nat
deriving DecidableEq

structure Kmem where
  mem : Nat → Nat
  nfreeblock : Nat
  freelist : Nat
  slabs : Nat
  slablist : Nat
  pgqueue : List Entry
  pte : Nat → Nat
  swapMap : Nat → Nat
  taken : List Nat
  booted : Bool

inductive Panic where
  | kfree
  | pageOut
  | allocSlot
deriving DecidableEq

/-- `((struct fpage *)v)->next` -/
def Kmem.next (s : Kmem) (v : Nat) : Nat := s.mem (v + 4)

/-- `f->size = size; f->next = next;` -/
def Kmem.setFpage (s : Kmem) (f size next : Nat) : Kmem :=
  { s with mem := Function.update (Function.update s.mem f size) (f + 4) next }

/-! ### Pages -/

def kfree (kend : Nat) (s : Kmem) (v : Nat) : Except Panic Kmem :=
  if v % PGSIZE ≠ 0 ∨ v < kend ∨ PHYSTOP ≤ v2p v then .error .kfree
  else .ok { s.setFpage v PGSIZE s.freelist with
    freelist := v, nfreeblock := (s.nfreeblock + 1) % 2 ^ 32, taken := s.taken.erase v }

def freerange (kend : Nat) (s : Kmem) (vstart vend : Nat) : Except Panic Kmem :=
  (upTo (pgroundup vstart) vend PGSIZE).foldlM (kfree kend) s

def allocSlot (s : Kmem) (pnPid : Nat) : Except Panic Kmem :=
  match Vm.firstFrom (fun i => s.swapMap i = 0) SLOTSIZE 0 with
  | none => .error .allocSlot
  | some i => .ok { s with swapMap := Function.update s.swapMap i pnPid }

/-- `free_page(pn_pid, 0)` -/
def freePage (s : Kmem) (pnPid : Nat) : Kmem :=
  { s with pgqueue := s.pgqueue.eraseP fun e => e.pnPid = pnPid }

def secondChance : List Entry → List Entry × Option Entry
  | [] => ([], none)
  | e :: l =>
    if e.ref = PTE_A then ({ e with ref := 0 } :: (secondChance l).1, (secondChance l).2)
    else (e :: l, some e)

def selPage (q : List Entry) : List Entry × Option Entry :=
  match secondChance q with
  | (q, some e) => (q, some e)
  | (q, none) => (q, q.head?)

def pageOut (kend : Nat) (s : Kmem) : Except Panic Kmem :=
  match selPage s.pgqueue with
  | (_, none) => .error .pageOut
  | (q, some e) => do
    let x := s.pte e.ptrPte
    let s ← allocSlot { s with pgqueue := q, pte := Function.update s.pte e.ptrPte (x ^^^ PTE_P) } e.pnPid
    let s ← kfree kend s (p2v (pteAddr x))
    return freePage s e.pnPid

/-- The rest of `kalloc`: the first page of the list.  The counter goes down in any case. -/
def takePage (s : Kmem) : Kmem × Nat :=
  if s.freelist ≠ 0 then
    ({ s with
        freelist := s.next s.freelist
        nfreeblock := dec s.nfreeblock
        taken := s.freelist :: s.taken }, s.freelist)
  else ({ s with nfreeblock := dec s.nfreeblock }, s.freelist)

def kalloc (kend : Nat) (s : Kmem) : Except Panic (Kmem × Nat) :=
  if s.nfreeblock = 0 ∧ USE_SWAP ≠ 0 then (pageOut kend s).map takePage else .ok (takePage s)

/-! ### Slabs -/

def freeSlab (s : Kmem) (v : Nat) : Kmem :=
  { s.setFpage v SLABSIZE s.slablist with slablist := v, slabs := (s.slabs + 1) % 2 ^ 32 }

def slabinit (kend : Nat) (s : Kmem) : Except Panic Kmem := do
  let (s, start) ← kalloc kend s
  return (upTo start (start + PGSIZE - SLABSIZE) SLABSIZE).foldl freeSlab s

/-- The rest of `alloc_slab`: the first slab of its list, which it returns. -/
def takeSlab (s : Kmem) : Kmem :=
  if s.slablist ≠ 0 then { s with slablist := s.next s.slablist, slabs := dec s.slabs }
  else { s with slabs := dec s.slabs }

def allocSlab (kend : Nat) (s : Kmem) : Except Panic Kmem :=
  if s.slabs = 0 then (slabinit kend s).map takeSlab else .ok (takeSlab s)

/-! ### Start-up and steps -/

/-- The end of the memory that the first page table maps. -/
def FOURMB : Nat := 4 * 1024 * 1024

/-- `kinit1(end, P2V(4*1024*1024))` -/
def kinit1 (kend : Nat) (s : Kmem) : Except Panic Kmem := freerange kend s kend (p2v FOURMB)

/-- `kinit2(P2V(4*1024*1024), P2V(PHYSTOP))` -/
def kinit2 (kend : Nat) (s : Kmem) : Except Panic Kmem := do
  let s ← freerange kend { s with booted := true } (p2v FOURMB) (p2v PHYSTOP)
  slabinit kend s

def start (m : Nat → Nat) : Kmem := ⟨m, 0, 0, 0, 0, [], fun _ => 0, fun _ => 0, [], false⟩

inductive Act where
  | kalloc
  | kfree (v : Nat)
  | allocSlab
  | freeSlab (v : Nat)
  | kinit2
  /-- the holder of a page stores a word into it -/
  | store (a w : Nat)
  /-- the rest of the kernel changes the queue, the page tables and the swap map -/
  | rest (pgqueue : List Entry) (pte swapMap : Nat → Nat)

def Kmem.exec (kend : Nat) (s : Kmem) : Act → Except Panic Kmem
  | .kalloc => (Kalloc.kalloc kend s).map Prod.fst
  | .kfree v => Kalloc.kfree kend s v
  | .allocSlab => Kalloc.allocSlab kend s
  | .freeSlab v => .ok (Kalloc.freeSlab s v)
  | .kinit2 => Kalloc.kinit2 kend s
  | .store a w => .ok { s with mem := Function.update s.mem a w }
  | .rest q pte swapMap => .ok { s with pgqueue := q, pte := pte, swapMap := swapMap }

/-- If there is a page to be moved out, it is one that `kalloc` returned. -/
def Kmem.Victim (s : Kmem) : Prop :=
  s.nfreeblock = 0 → ∀ e ∈ (selPage s.pgqueue).2, p2v (pteAddr (s.pte e.ptrPte)) ∈ s.taken

/-- What is freed and stored into is a page that `kalloc` returned, and `kinit2` is called
    once. -/
def Kmem.Allowed (s : Kmem) : Act → Prop
  | .kalloc => s.Victim
  | .kfree v => v ∈ s.taken
  | .allocSlab => s.slabs = 0 → s.Victim
  | .freeSlab v => pageOf v ∈ s.taken
  | .kinit2 => s.booted = false
  | .store a _ => pageOf a ∈ s.taken
  | .rest _ _ _ => True

def Step (kend : Nat) (s : Kmem) (a : Act) (t : Kmem) : Prop := s.exec kend a = .ok t ∧ s.Allowed a

instance (s : Kmem) : Decidable s.Victim := inferInstanceAs (Decidable (_ = _ → ∀ e ∈ _, _))

instance (s : Kmem) : (a : Act) → Decidable (s.Allowed a)
  | .kalloc => inferInstanceAs (Decidable s.Victim)
  | .kfree v => inferInstanceAs (Decidable (v ∈ s.taken))
  | .allocSlab => inferInstanceAs (Decidable (s.slabs = 0 → s.Victim))
  | .freeSlab v => inferInstanceAs (Decidable (pageOf v ∈ s.taken))
  | .kinit2 => inferInstanceAs (Decidable (s.booted = false))
  | .store a _ => inferInstanceAs (Decidable (pageOf a ∈ s.taken))
  | .rest _ _ _ => inferInstanceAs (Decidable True)

end Yonix.Kalloc
