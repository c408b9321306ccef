/-
  Yonix/Umalloc/Model.lean
  ========================
  **The user allocator (`umalloc.c`).**

  Memory is kept as the headers at their addresses; `base` is the address of the static
  header, below everything that `sbrk` returns.  Pointers to a `Header` move by
  `sizeof(Header)`, and both they and sizes wrap around at 32 bits.

  `sbrk` answers with the address of new memory or with -1; `got` is what it has returned
  and `live` are the headers of the blocks that the program has.  The two search loops
  carry a bound on their turns, the number of bytes obtained; running out of it is an
  outcome of its own.
-/
import Yonix.Lib.Links
import Yonix.Param

namespace Yonix.Umalloc

/-- `sizeof(Header)`. -/
def HEADERSIZE : Nat := 8

structure Header where
  ptr : Nat
  size : Nat

/-- Memory of `size` headers at `addr`. -/
structure Blk where
  addr : Nat
  size : Nat
deriving DecidableEq

def Blk.fin (b : Blk) : Nat := b.addr + HEADERSIZE * b.size

structure Heap where
  mem : Nat → Header
  freep : Nat
  got : List Blk
  live : List Nat

inductive Fault where
  /-- more turns of a loop than the bound -/
  | turns
  /-- `sbrk` is called once more than it has answers -/
  | asks
  /-- not a call that the program may make, or an answer that `sbrk` does not give -/
  | notCalled
deriving DecidableEq

def Heap.set (h : Heap) (p : Nat) (x : Header) : Heap := { h with mem := Function.update h.mem p x }

/-- `p + n`. -/
def padd (p n : Nat) : Nat := (p + HEADERSIZE * n) % 2 ^ 32

def Heap.turns (h : Heap) : Nat := HEADERSIZE * (h.got.map Blk.size).sum + 2

/-! ### `free` -/

/-- The loop of `free`. -/
def place (mem : Nat → Header) (bp : Nat) : Nat → Nat → Option Nat
  | 0, _ => none
  | n + 1, p =>
    if p < bp ∧ bp < (mem p).ptr then some p
    else if (mem p).ptr ≤ p ∧ (p < bp ∨ bp < (mem p).ptr) then some p
    else place mem bp n (mem p).ptr

/-- Joined with the upper neighbour, if `bp` ends where it starts. -/
def Heap.joinUp (h : Heap) (p bp : Nat) : Heap :=
  let q := (h.mem p).ptr
  if padd bp (h.mem bp).size = q then
    h.set bp ⟨(h.mem q).ptr, ((h.mem bp).size + (h.mem q).size) % 2 ^ 32⟩
  else h.set bp ⟨q, (h.mem bp).size⟩

/-- Joined with the lower neighbour, if that ends where `bp` starts. -/
def Heap.joinDown (h : Heap) (p bp : Nat) : Heap :=
  if padd p (h.mem p).size = bp then
    h.set p ⟨(h.mem bp).ptr, ((h.mem p).size + (h.mem bp).size) % 2 ^ 32⟩
  else h.set p ⟨bp, (h.mem p).size⟩

def Heap.free (h : Heap) (bp : Nat) : Except Fault Heap :=
  match place h.mem bp h.turns h.freep with
  | none => .error .turns
  | some p => .ok { (h.joinUp p bp).joinDown p bp with freep := p }

/-! ### `malloc` -/

/-- The memory is new: above the static data and all that was returned before. -/
def Heap.fresh (h : Heap) (base : Nat) (b : Blk) : Prop :=
  b.addr % HEADERSIZE = 0 ∧ base + HEADERSIZE ≤ b.addr ∧ (∀ g ∈ h.got, g.fin ≤ b.addr) ∧
    b.fin ≤ 2 ^ 32

instance (h : Heap) (base : Nat) (b : Blk) : Decidable (h.fresh base b) :=
  inferInstanceAs (Decidable (_ ∧ _ ∧ (∀ g ∈ h.got, g.fin ≤ b.addr) ∧ _))

/-- The size that `morecore` asks for. -/
def moreUnits (nu : Nat) : Nat := if nu < 4096 then 4096 else nu

/-- `morecore` with the answer of `sbrk`. -/
def Heap.morecore (h : Heap) (base nu p : Nat) : Except Fault Heap :=
  let b : Blk := ⟨p, moreUnits nu * HEADERSIZE % 2 ^ 32 / HEADERSIZE⟩
  if h.fresh base b then
    { h.set p ⟨(h.mem p).ptr, moreUnits nu⟩ with got := b :: h.got }.free p
  else .error .notCalled

/-- The loop of `malloc` up to a block that is large enough, or once around. -/
def scan (mem : Nat → Header) (nunits freep : Nat) : Nat → Nat → Nat → Option (Nat × Nat)
  | 0, _, _ => none
  | n + 1, prevp, p =>
    if nunits ≤ (mem p).size ∨ p = freep then some (prevp, p)
    else scan mem nunits freep n p (mem p).ptr

/-- The block is taken off the list, or its tail is. -/
def Heap.take (h : Heap) (prevp p nunits : Nat) : Heap × Option Nat :=
  if (h.mem p).size = nunits then
    ({ h.set prevp ⟨(h.mem p).ptr, (h.mem prevp).size⟩ with freep := prevp, live := p :: h.live },
      some p)
  else
    let rest := (h.mem p).size - nunits
    let h1 := h.set p ⟨(h.mem p).ptr, rest⟩
    let p' := padd p rest
    ({ h1.set p' ⟨(h1.mem p').ptr, nunits⟩ with freep := prevp, live := p' :: h.live }, some p')

/-- The loop of `malloc`; `sbrk` gives the answers in order. -/
def Heap.search (base nunits : Nat) : List (Option Nat) → Heap → Except Fault (Heap × Option Nat)
  | answers, h =>
    match scan h.mem nunits h.freep h.turns h.freep (h.mem h.freep).ptr with
    | none => .error .turns
    | some (prevp, p) =>
      if nunits ≤ (h.mem p).size then .ok (h.take prevp p nunits)
      else
        match answers with
        | [] => .error .asks
        | none :: _ => .ok (h, none)
        | some a :: answers => do
          let h ← h.morecore base nunits a
          search base nunits answers h

/-- The address of the header, or `none` for a null pointer. -/
def Heap.malloc (h : Heap) (base nbytes : Nat) (answers : List (Option Nat)) :
    Except Fault (Heap × Option Nat) :=
  let nunits := (nbytes + HEADERSIZE - 1) % 2 ^ 32 / HEADERSIZE + 1
  let h := if h.freep = 0 then { h.set base ⟨base, 0⟩ with freep := base } else h
  h.search base nunits answers

/-! ### The program -/

inductive Act where
  /-- `malloc(nbytes)`, with what `sbrk` answers if it is asked -/
  | malloc (nbytes : Nat) (answer : Option Nat)
  /-- `free` of the block with its header at `bp` -/
  | free (bp : Nat)

def Heap.exec (base : Nat) (h : Heap) : Act → Except Fault Heap
  | .malloc nbytes answer =>
    if nbytes ≤ 2 ^ 30 then do
      let (h, _) ← h.malloc base nbytes [answer]
      return h
    else .error .notCalled
  | .free bp =>
    if bp ∈ h.live then do
      let h ← h.free bp
      return { h with live := h.live.erase bp }
    else .error .notCalled

/-- Before the first call. -/
def start (mem : Nat → Header) : Heap := ⟨mem, 0, [], []⟩

end Yonix.Umalloc
