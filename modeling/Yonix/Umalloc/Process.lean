/-
  Yonix/Umalloc/Process.lean
  ==========================
  **What `malloc` gives, with `sbrk` as the kernel performs it (`umalloc.c`, `sysproc.c`,
  `process.c`, `vm.c`).**

  The process has its allocator, its size, the end of its pages that are mapped and the end
  of the pages that were there when it started: its code, its data and its stack.  A call of
  `sbrk` that takes one of those away does not come back, and a header cannot be written
  where no page is.

  The number of bytes is rounded up to headers with a sum that wraps around, and `sbrk`
  reads its argument as an `int`: from 2^31 bytes on the process shrinks, and in the last
  seven sizes a block of one header is given.  Below, `malloc` gives what was asked
  (`malloc_gives_iff`).
-/
import Yonix.Umalloc.History

namespace Yonix.Umalloc

/-! ### The process -/

structure Proc where
  heap : Heap
  size : Nat
  /-- the end of the pages that are mapped -/
  top : Nat
  /-- the end of code, data and stack -/
  image : Nat

inductive Trap where
  /-- an address without a page -/
  | fault
  | heap (e : Fault)

def toInt (w : Nat) : Int := if w < 2 ^ 31 then w else w - 2 ^ 32

def pgroundup (sz : Nat) : Nat := (sz + PGSIZE - 1) / PGSIZE * PGSIZE

/-- `sys_sbrk`, with `procgrow`; `refused` is whether `allocuvm` finds no memory. -/
def Proc.sbrk (P : Proc) (n : Int) (refused : Bool) : Proc × Option Nat :=
  let sz := ((P.size + n) % 2 ^ 32).toNat
  if 0 < n then
    if KERNBASE ≤ sz then (P, none)
    else if sz < P.size then (P, some P.size)
    else if refused then (P, none)
    else ({ P with size := sz, top := pgroundup sz }, some P.size)
  else if n < 0 then
    if P.size ≤ sz then (P, some P.size)
    -- `deallocuvm` returns the new size, and 0 is taken for a failure
    else if sz = 0 then ({ P with top := 0 }, none)
    else ({ P with size := sz, top := pgroundup sz }, some P.size)
  else (P, some P.size)

/-- `morecore` when `sbrk(n)` is over: the new memory gets a header and is freed.  The result
    is whether there is new memory. -/
def Proc.answered (nu : Nat) (n : Int) (P : Proc) (r : Option Nat) : Except Trap (Proc × Bool) :=
  if P.top < P.image then .error .fault
  else match r with
    | none => .ok (P, false)
    | some p =>
      if P.top < p + HEADERSIZE then .error .fault
      else
        let h := P.heap.set p ⟨(P.heap.mem p).ptr, nu⟩
        let h := if 0 < n then { h with got := ⟨p, n.toNat / HEADERSIZE⟩ :: h.got } else h
        match h.free p with
        | .error e => .error (.heap e)
        | .ok h => .ok ({ P with heap := h }, true)

def Proc.morecore (P : Proc) (nunits : Nat) (refused : Bool) : Except Trap (Proc × Bool) :=
  let nu := moreUnits nunits
  let n := toInt (nu * HEADERSIZE % 2 ^ 32)
  answered nu n (P.sbrk n refused).1 (P.sbrk n refused).2

/-- The loop of `malloc`; `asks` says for each call of `sbrk` whether there is no memory. -/
def Proc.search (nunits : Nat) : List Bool → Proc → Except Trap (Proc × Option Nat)
  | asks, P =>
    match scan P.heap.mem nunits P.heap.freep P.heap.turns P.heap.freep
        (P.heap.mem P.heap.freep).ptr with
    | none => .error (.heap .turns)
    | some (prevp, p) =>
      if nunits ≤ (P.heap.mem p).size then
        .ok ({ P with heap := (P.heap.take prevp p nunits).1 }, (P.heap.take prevp p nunits).2)
      else
        match asks with
        | [] => .error (.heap .asks)
        | refused :: asks =>
          match P.morecore nunits refused with
          | .error e => .error e
          | .ok (P, false) => .ok (P, none)
          | .ok (P, true) => search nunits asks P

/-- The address of the header, or `none` for a null pointer. -/
def Proc.malloc (P : Proc) (base nbytes : Nat) (asks : List Bool) : Except Trap (Proc × Option Nat) :=
  let nunits := (nbytes + HEADERSIZE - 1) % 2 ^ 32 / HEADERSIZE + 1
  let h := P.heap
  let h := if h.freep = 0 then { h.set base ⟨base, 0⟩ with freep := base } else h
  search nunits asks { P with heap := h }

/-! ### What was asked -/

/-- The `nbytes` bytes after the header at `p` are the program's to use. -/
structure Proc.Usable (P : Proc) (p nbytes : Nat) : Prop where
  mapped : ∀ x, p + HEADERSIZE ≤ x → x < p + HEADERSIZE + nbytes →
    (∃ g ∈ P.heap.got, g.Covers x) ∧ x < P.top
  block : HEADERSIZE + nbytes ≤ HEADERSIZE * (P.heap.mem p).size

/-- `malloc` returns, with bytes that can be used or without a smaller process. -/
def Proc.Gives (P : Proc) (base nbytes : Nat) (asks : List Bool) : Prop :=
  ∃ Q r, P.malloc base nbytes asks = .ok (Q, r) ∧
    (∀ p, r = some p → Q.Usable p nbytes) ∧ (r = none → P.size ≤ Q.size)

/-- What was obtained is mapped, above the pages that were there before. -/
structure Proc.Laid (P : Proc) (base : Nat) : Prop where
  ne : base ≠ 0
  image : PGSIZE ≤ P.image ∧ base + HEADERSIZE ≤ P.image ∧ P.image ≤ P.size
  size : P.size < KERNBASE
  top : P.top = pgroundup P.size
  got : ∀ g ∈ P.heap.got, P.image ≤ g.addr ∧ g.fin ≤ P.size

/-- No block is free: the list is not set up, or the static header is alone in it. -/
def Heap.Bare (h : Heap) (base : Nat) : Prop := h.freep = 0 ∨ (h.mem base).ptr = base

/-- `sbrk` refuses to make the process larger. -/
def Proc.Refuses (P : Proc) (nunits : Nat) (refused : Bool) : Prop :=
  KERNBASE ≤ P.size + HEADERSIZE * moreUnits nunits ∨ refused = true

variable {base nunits nbytes : Nat} {h h' : Heap} {P Q : Proc} {free used : List Blk} {refused : Bool}
  {asks : List Bool} {r : Option Nat}

/-! ### An ordinary request -/

theorem le_pgroundup (sz : Nat) : sz ≤ pgroundup sz := by
  unfold pgroundup PGSIZE
  omega

theorem take_got (h : Heap) (prevp p nunits : Nat) : (h.take prevp p nunits).1.got = h.got := by
  unfold Heap.take
  split <;> rfl

theorem Proc.Laid.covers_mapped (hP : P.Laid base) {x : Nat} (hx : ∃ g ∈ P.heap.got, g.Covers x) :
    x < P.top := by
  obtain ⟨g, hg, -, hlt⟩ := hx
  rw [hP.top]
  exact Nat.lt_of_lt_of_le hlt ((hP.got g hg).2.trans (le_pgroundup P.size))

/-- `sbrk` of a positive number of bytes. -/
theorem Proc.sbrk_grow (hP : P.Laid base) {m : Nat} (hm : 0 < m) (hmax : m < 2 ^ 31) :
    P.sbrk m refused =
      if KERNBASE ≤ P.size + m ∨ refused = true then (P, none)
      else ({ P with size := P.size + m, top := pgroundup (P.size + m) }, some P.size) := by
  have hsize := hP.size
  unfold KERNBASE at hsize
  have hsz : (((P.size : Int) + (m : Int)) % 2 ^ 32).toNat = P.size + m := by omega
  unfold Proc.sbrk
  dsimp only
  rw [hsz, if_pos (by omega)]
  by_cases hhigh : KERNBASE ≤ P.size + m
  · rw [if_pos hhigh, if_pos (Or.inl hhigh)]
  · rw [if_neg hhigh, if_neg (by omega)]
    by_cases href : refused = true
    · rw [if_pos href, if_pos (Or.inr href)]
    · rw [if_neg href, if_neg (not_or.mpr ⟨hhigh, href⟩)]

theorem moreUnits_pos (nunits : Nat) : 1 ≤ moreUnits nunits := by
  unfold moreUnits
  split <;> omega

theorem le_moreUnits (nunits : Nat) : nunits ≤ moreUnits nunits := by
  unfold moreUnits
  split <;> omega

/-- The argument of `sbrk` is the number of bytes. -/
theorem toInt_units (hmax : HEADERSIZE * moreUnits nunits < 2 ^ 31) :
    toInt (moreUnits nunits * HEADERSIZE % 2 ^ 32) = (HEADERSIZE * moreUnits nunits : Nat) := by
  rw [Nat.mul_comm, Nat.mod_eq_of_lt (by omega)]
  exact if_pos hmax

theorem Proc.morecore_refused (hP : P.Laid base) (hmax : HEADERSIZE * moreUnits nunits < 2 ^ 31)
    (href : P.Refuses nunits refused) : P.morecore nunits refused = .ok (P, false) := by
  have hpos : 0 < HEADERSIZE * moreUnits nunits := Nat.mul_pos (by decide) (moreUnits_pos nunits)
  have htop : ¬ P.top < P.image := by
    rw [hP.top]
    exact Nat.not_lt.mpr (hP.image.2.2.trans (le_pgroundup P.size))
  unfold Refuses at href
  unfold Proc.morecore
  dsimp only
  rw [toInt_units hmax, Proc.sbrk_grow hP hpos hmax, if_pos href]
  unfold Proc.answered
  rw [if_neg htop]

/-- Memory is obtained, and there is a block that is large enough. -/
theorem Proc.morecore_obtained (hP : P.Laid base) (hg : Good base P.heap free used)
    (hmax : HEADERSIZE * moreUnits nunits < 2 ^ 31) (href : ¬ P.Refuses nunits refused) :
    ∃ Q free', P.morecore nunits refused = .ok (Q, true) ∧ Q.Laid base ∧ Good base Q.heap free' used ∧
      ∃ c ∈ nodes base free', nunits ≤ c.size := by
  have hpos : 0 < HEADERSIZE * moreUnits nunits := Nat.mul_pos (by decide) (moreUnits_pos nunits)
  obtain ⟨m, hm⟩ : ∃ m, m = HEADERSIZE * moreUnits nunits := ⟨_, rfl⟩
  obtain ⟨b, hb⟩ : ∃ b : Blk, b = ⟨P.size, moreUnits nunits⟩ := ⟨_, rfl⟩
  have haddr : P.size = b.addr := by rw [hb]
  have hbsize : moreUnits nunits = b.size := by rw [hb]
  have hbfin : b.fin = P.size + m := by rw [hb, hm, Blk.fin]
  have hle := le_pgroundup (P.size + m)
  have hm8 : HEADERSIZE ≤ m := by
    rw [hm]
    exact Nat.le_mul_of_pos_right _ (moreUnits_pos nunits)
  obtain ⟨hpage, hbase, himage⟩ := hP.image
  have hsize := hP.size
  unfold Refuses at href
  rw [← hm] at hmax href hpos
  rw [not_or] at href
  have hsmall : P.size + m < KERNBASE := Nat.lt_of_not_le href.1
  obtain ⟨h', free', hfree, hgood, hgot, -, c, hc, hcle⟩ :=
    hg.obtain (b := b) hP.ne (hbsize ▸ moreUnits_pos nunits) (by rw [← haddr]; omega)
      (by rw [← haddr]; exact fun g hgm => (hP.got g hgm).2)
      (by rw [hbfin]; unfold KERNBASE at hsmall; omega)
  refine ⟨⟨h', P.size + m, pgroundup (P.size + m), P.image⟩, free', ?_, ?_, hgood, c, hc,
    (le_moreUnits nunits).trans (hbsize ▸ hcle)⟩
  · have hdiv : m / HEADERSIZE = moreUnits nunits := by
      rw [hm]
      exact Nat.mul_div_cancel_left _ (by decide)
    unfold Proc.morecore
    dsimp only
    rw [toInt_units (hm ▸ hmax), ← hm, Proc.sbrk_grow hP hpos hmax, if_neg (not_or.mpr href)]
    unfold Proc.answered
    rw [if_neg (show ¬ pgroundup (P.size + m) < P.image by omega)]
    dsimp only
    rw [if_neg (show ¬ pgroundup (P.size + m) < P.size + HEADERSIZE by omega),
      if_pos (show (0 : Int) < (m : Int) by omega), Int.toNat_natCast, hdiv, ← hb]
    rw [haddr, hbsize]
    change (match Heap.free { P.heap.set b.addr ⟨(P.heap.mem b.addr).ptr, b.size⟩ with
        got := b :: P.heap.got } b.addr with
      | .error e => Except.error (Trap.heap e)
      | .ok h => Except.ok ((⟨h, b.addr + m, pgroundup (b.addr + m), P.image⟩ : Proc), true)) = _
    rw [hfree]
  · refine ⟨hP.ne, ⟨hpage, hbase, by dsimp only; omega⟩, hsmall, rfl, ?_⟩
    intro g hgm
    change g ∈ h'.got at hgm
    rw [hgot] at hgm
    change P.image ≤ g.addr ∧ g.fin ≤ P.size + m
    rcases List.mem_cons.mp hgm with rfl | hgm
    · exact ⟨haddr ▸ himage, Nat.le_of_eq hbfin⟩
    · obtain ⟨hlow, hhigh⟩ := hP.got g hgm
      exact ⟨hlow, by omega⟩

/-- A block that is large enough is on the list. -/
theorem Proc.search_found (hP : P.Laid base) (hg : Good base P.heap free used) (hn : 1 ≤ nunits)
    (hlarge : ∃ c ∈ nodes base free, nunits ≤ c.size) (asks : List Bool) :
    ∃ Q b free', P.search nunits asks = .ok (Q, some b.addr) ∧ b.size = nunits ∧
      Q.Laid base ∧ Good base Q.heap free' (b :: used) := by
  obtain ⟨d, c, free', b, hscan, hle, hres, hbsize, -, hgood⟩ := hg.found hn hlarge
  refine ⟨{ P with heap := (P.heap.take d c nunits).1 }, b, free', ?_, hbsize, ?_, hgood⟩
  · unfold Proc.search
    rw [hscan]
    dsimp only
    rw [if_pos hle, hres]
  · refine ⟨hP.ne, hP.image, hP.size, hP.top, ?_⟩
    dsimp only
    rw [take_got]
    exact hP.got

theorem Proc.search_refused (hP : P.Laid base) (hg : Good base P.heap free used)
    (hmax : HEADERSIZE * moreUnits nunits < 2 ^ 31)
    (hsmall : ¬ ∃ c ∈ nodes base free, nunits ≤ c.size) (href : P.Refuses nunits refused)
    (asks : List Bool) : P.search nunits (refused :: asks) = .ok (P, none) := by
  obtain ⟨d, c, hscan, hlt⟩ := hg.missed hsmall
  unfold Proc.search
  rw [hscan]
  dsimp only
  rw [if_neg hlt, Proc.morecore_refused hP hmax href]

/-- Unless no block is free and `sbrk` refuses, there is one. -/
theorem Proc.search_some (hP : P.Laid base) (hg : Good base P.heap free used) (hn : 1 ≤ nunits)
    (hmax : HEADERSIZE * moreUnits nunits < 2 ^ 31)
    (h : (∃ c ∈ nodes base free, nunits ≤ c.size) ∨ ¬ P.Refuses nunits refused) (asks : List Bool) :
    ∃ Q b free', P.search nunits (refused :: asks) = .ok (Q, some b.addr) ∧ b.size = nunits ∧
      Q.Laid base ∧ Good base Q.heap free' (b :: used) := by
  by_cases hlarge : ∃ c ∈ nodes base free, nunits ≤ c.size
  · exact Proc.search_found hP hg hn hlarge _
  · obtain ⟨d, c, hscan, hlt⟩ := hg.missed hlarge
    obtain ⟨P1, free1, hmore, hP1, hg1, hlarge1⟩ :=
      Proc.morecore_obtained hP hg hmax (h.resolve_left hlarge)
    obtain ⟨Q, b, free', hres, hbsize, hQ, hgood⟩ := Proc.search_found hP1 hg1 hn hlarge1 asks
    refine ⟨Q, b, free', ?_, hbsize, hQ, hgood⟩
    rw [← hres]
    conv_lhs => unfold Proc.search
    rw [hscan]
    dsimp only
    rw [if_neg hlt, hmore]

/-- A block of the program can be used. -/
theorem Proc.Laid.usable {b : Blk} (hP : P.Laid base) (hg : Good base P.heap free (b :: used)) {n : Nat}
    (hn : HEADERSIZE + n ≤ HEADERSIZE * b.size) : P.Usable b.addr n := by
  refine ⟨?_, ?_⟩
  · intro x h1 h2
    have hx : ∃ g ∈ P.heap.got, g.Covers x := by
      refine (hg.tiles.tile x).mp ⟨b, by simp, ?_⟩
      unfold Blk.Covers Blk.fin
      omega
    exact ⟨hx, hP.covers_mapped hx⟩
  · rw [hg.size b (by simp)]
    exact hn

/-! ### A request that makes the process smaller -/

theorem free_got {bp : Nat} (h0 : h.free bp = .ok h') : h'.got = h.got := by
  unfold Heap.free at h0
  split at h0
  · cases h0
  · cases h0
    simp

theorem take_ne_none (h : Heap) (prevp p nunits : Nat) : (h.take prevp p nunits).2 ≠ none := by
  unfold Heap.take
  split
  · exact Option.some_ne_none _
  · exact Option.some_ne_none _

/-- After a refusal nothing is mapped. -/
theorem Proc.sbrk_shrink (P : Proc) {n : Int} (hn : n ≤ 0) (refused : Bool) :
    (P.sbrk n refused).1.heap = P.heap ∧ (P.sbrk n refused).1.image = P.image ∧
      ((P.sbrk n refused).2 = none → (P.sbrk n refused).1.top = 0) := by
  unfold Proc.sbrk
  dsimp only
  rw [if_neg (by omega)]
  split
  · split
    · exact ⟨rfl, rfl, fun h => by cases h⟩
    · split
      · exact ⟨rfl, rfl, fun _ => rfl⟩
      · exact ⟨rfl, rfl, fun h => by cases h⟩
  · exact ⟨rfl, rfl, fun h => by cases h⟩

/-- Nothing is obtained, and a refusal does not come back. -/
theorem Proc.morecore_shrinks (himage : 0 < P.image)
    (hn : toInt (moreUnits nunits * HEADERSIZE % 2 ^ 32) ≤ 0) {ok : Bool}
    (h : P.morecore nunits refused = .ok (Q, ok)) :
    ok = true ∧ Q.heap.got = P.heap.got ∧ Q.image = P.image := by
  unfold Proc.morecore at h
  dsimp only at h
  obtain ⟨n, hnn⟩ : ∃ n, n = toInt (moreUnits nunits * HEADERSIZE % 2 ^ 32) := ⟨_, rfl⟩
  rw [← hnn] at hn h
  obtain ⟨hheap, himg, hnone⟩ := P.sbrk_shrink hn refused
  generalize (P.sbrk n refused).1 = R at h hheap himg hnone
  unfold Proc.answered at h
  split at h
  · cases h
  · rename_i htop
    split at h
    · rename_i hr
      rw [hnone hr, himg] at htop
      exact absurd himage htop
    · split at h
      · cases h
      · dsimp only at h
        rw [if_neg (by omega)] at h
        split at h
        · cases h
        · rename_i h1 hfree
          cases h
          refine ⟨rfl, ?_, himg⟩
          rw [← hheap]
          have hgot := free_got hfree
          exact hgot

theorem Proc.search_shrinks (asks : List Bool) : ∀ {P Q : Proc} {r : Option Nat}, 0 < P.image →
    toInt (moreUnits nunits * HEADERSIZE % 2 ^ 32) ≤ 0 → P.search nunits asks = .ok (Q, r) →
    r ≠ none ∧ Q.heap.got = P.heap.got := by
  induction asks with
  | nil =>
    intro P Q r himage hn h
    unfold Proc.search at h
    split at h
    · cases h
    · split at h
      · cases h
        exact ⟨take_ne_none _ _ _ _, take_got _ _ _ _⟩
      · cases h
  | cons refused asks ih =>
    intro P Q r himage hn h
    unfold Proc.search at h
    split at h
    · cases h
    · split at h
      · cases h
        exact ⟨take_ne_none _ _ _ _, take_got _ _ _ _⟩
      · dsimp only at h
        split at h
        · cases h
        · rename_i R hmore
          exact absurd (Proc.morecore_shrinks himage hn hmore).1 (by decide)
        · rename_i R hmore
          obtain ⟨-, hgot, himg⟩ := Proc.morecore_shrinks himage hn hmore
          obtain ⟨hr, hgot'⟩ := ih (himg ▸ himage) hn h
          exact ⟨hr, hgot'.trans hgot⟩

/-- The memory obtained has no room for two gigabytes. -/
theorem Proc.Laid.not_usable (hP : P.Laid base) {p : Nat} (hgot : Q.heap.got = P.heap.got)
    (hbytes : 2 ^ 31 - PGSIZE ≤ nbytes) : ¬ Q.Usable p nbytes := by
  intro hu
  have hpos : 0 < nbytes := Nat.lt_of_lt_of_le (by decide) hbytes
  obtain ⟨⟨g, hg, hglow, -⟩, -⟩ := hu.mapped (p + HEADERSIZE) (Nat.le_refl _) (by omega)
  obtain ⟨⟨g', hg', -, hghigh⟩, -⟩ := hu.mapped (p + HEADERSIZE + nbytes - 1) (by omega) (by omega)
  rw [hgot] at hg hg'
  have hlow := (hP.got g hg).1
  have hhigh := (hP.got g' hg').2
  have hpage := hP.image.1
  have hsize := hP.size
  unfold PGSIZE at hbytes hpage
  unfold KERNBASE at hsize
  omega

/-! ### Every request -/

/-- `malloc` on a list that is set up. -/
theorem Proc.malloc_ready (hP : P.Laid base) (hs : Sound base P.heap) (nbytes : Nat) (asks : List Bool) :
    ∃ (R : Proc) (free used : List Blk), P.malloc base nbytes asks =
        R.search ((nbytes + HEADERSIZE - 1) % 2 ^ 32 / HEADERSIZE + 1) asks ∧
      R.Laid base ∧ Good base R.heap free used ∧ R.size = P.size ∧ R.image = P.image ∧
      R.heap.got = P.heap.got ∧ (free = [] ↔ P.heap.Bare base) := by
  unfold Proc.malloc
  dsimp only
  rcases hs with ⟨hfreep, hgot, -⟩ | ⟨free, used, hg, -⟩
  · rw [if_pos hfreep]
    refine ⟨_, [], [], rfl, ⟨hP.ne, hP.image, hP.size, hP.top, hP.got⟩, good_base hgot, rfl, rfl, rfl, ?_⟩
    exact iff_of_true rfl (Or.inl hfreep)
  · rw [if_neg (hg.freep_ne hP.ne)]
    refine ⟨P, free, used, rfl, hP, hg, rfl, rfl, rfl, ?_⟩
    unfold Heap.Bare
    rw [or_iff_right (hg.freep_ne hP.ne)]
    have hnext : (P.heap.mem base).ptr = first Blk.addr free base := hg.ring.1
    rw [hnext]
    cases free with
    | nil => exact iff_of_true rfl rfl
    | cons c l =>
      refine iff_of_false (List.cons_ne_nil c l) ?_
      have hlow := (hg.inside (b := c) (by simp)).1
      change c.addr ≠ base
      unfold HEADERSIZE at hlow
      omega

/-- **What `malloc` gives.**  It is right below 2^31 bytes, the header and the rounding
    included, and in the last seven sizes when it refuses. -/
theorem malloc_gives_iff (hP : P.Laid base) (hs : Sound base P.heap) (hn : nbytes < 2 ^ 32)
    (refused : Bool) (asks : List Bool) : P.Gives base nbytes (refused :: asks) ↔
      nbytes ≤ 2 ^ 31 - 16 ∨ 2 ^ 32 - 7 ≤ nbytes ∧ P.heap.Bare base ∧ P.Refuses 1 refused := by
  obtain ⟨R, free, used, hmalloc, hR, hg, hsize, himage, hgot, hbare⟩ :=
    Proc.malloc_ready hP hs nbytes (refused :: asks)
  have hrefuses : ∀ nunits, R.Refuses nunits refused ↔ P.Refuses nunits refused := by
    intro nunits
    unfold Proc.Refuses
    rw [hsize]
  unfold Proc.Gives
  rw [hmalloc]
  obtain ⟨nunits, hunits⟩ : ∃ n, n = (nbytes + HEADERSIZE - 1) % 2 ^ 32 / HEADERSIZE + 1 := ⟨_, rfl⟩
  rw [← hunits]
  have hpos : 1 ≤ nunits := by
    rw [hunits]
    exact Nat.le_add_left 1 _
  by_cases hsmall : nbytes ≤ 2 ^ 31 - 16
  · refine iff_of_true ?_ (Or.inl hsmall)
    have hmax : HEADERSIZE * moreUnits nunits < 2 ^ 31 := by
      unfold HEADERSIZE at *
      unfold moreUnits
      split <;> omega
    have hroom : HEADERSIZE + nbytes ≤ HEADERSIZE * nunits := by
      unfold HEADERSIZE at *
      omega
    by_cases hsome : (∃ c ∈ nodes base free, nunits ≤ c.size) ∨ ¬ R.Refuses nunits refused
    · obtain ⟨Q, b, free', hres, hbsize, hQ, hgood⟩ := Proc.search_some hR hg hpos hmax hsome asks
      refine ⟨Q, _, hres, ?_, fun h => by cases h⟩
      intro p hp
      cases hp
      exact hQ.usable hgood (hbsize ▸ hroom)
    · rw [not_or, not_not] at hsome
      refine ⟨R, none, Proc.search_refused hR hg hmax hsome.1 hsome.2 asks, ?_,
        fun _ => Nat.le_of_eq hsize.symm⟩
      intro p hp
      cases hp
  · by_cases hlast : 2 ^ 32 - 7 ≤ nbytes
    · -- the sum has wrapped around, and one header is looked for
      have hone : nunits = 1 := by
        unfold HEADERSIZE at hunits
        omega
      subst hone
      have hmax : HEADERSIZE * moreUnits 1 < 2 ^ 31 := by decide
      have hfree : (∃ c ∈ nodes base free, 1 ≤ c.size) ↔ ¬ free = [] := by
        constructor
        · rintro ⟨c, hc, hle⟩ rfl
          obtain rfl := List.mem_singleton.mp hc
          exact absurd hle (Nat.not_succ_le_zero 0)
        · intro hne
          obtain ⟨c, l, rfl⟩ := List.exists_cons_of_ne_nil hne
          exact ⟨c, by simp [nodes], hg.tiles.pos c (by simp)⟩
      rw [or_iff_right hsmall, and_iff_right hlast, ← hbare, ← hrefuses]
      constructor
      · rintro ⟨Q, r, hres, huse, -⟩
        by_contra hnot
        have hsome : (∃ c ∈ nodes base free, 1 ≤ c.size) ∨ ¬ R.Refuses 1 refused := by
          rw [hfree]
          exact not_and_or.mp hnot
        obtain ⟨Q', b, free', hres', hbsize, -, hgood⟩ := Proc.search_some hR hg hpos hmax hsome asks
        rw [hres] at hres'
        cases hres'
        have hblock := (huse b.addr rfl).block
        rw [hgood.size b (by simp), hbsize] at hblock
        omega
      · rintro ⟨hempty, href⟩
        refine ⟨R, none, Proc.search_refused hR hg hmax (hfree.not.mpr (not_not.mpr hempty)) href asks,
          ?_, fun _ => Nat.le_of_eq hsize.symm⟩
        intro p hp
        cases hp
    · refine iff_of_false ?_ (by omega)
      rintro ⟨Q, r, hres, huse, -⟩
      have hshrink : toInt (moreUnits nunits * HEADERSIZE % 2 ^ 32) ≤ 0 := by
        have hbig : 2 ^ 28 ≤ nunits ∧ nunits ≤ 2 ^ 29 := by
          unfold HEADERSIZE at hunits
          omega
        have hmore : moreUnits nunits = nunits := if_neg (by omega)
        rw [hmore]
        unfold toInt HEADERSIZE
        split <;> omega
      have hpage := hR.image.1
      obtain ⟨hne, hgotQ⟩ := Proc.search_shrinks (refused :: asks) (Nat.lt_of_lt_of_le (by decide) hpage)
        hshrink hres
      obtain ⟨p, rfl⟩ := Option.ne_none_iff_exists'.mp hne
      exact hR.not_usable hgotQ (by unfold PGSIZE; omega) (huse p rfl)

/-- A process of three pages before its first call, with the static header at 16. -/
def threePages : Proc := ⟨start fun _ => ⟨0, 0⟩, 12288, 12288, 12288⟩

theorem threePages_laid : threePages.Laid 16 := by
  refine ⟨by decide, by decide, by decide, by decide, ?_⟩
  intro g hg
  cases hg

theorem malloc_gives_hundred : threePages.Gives 16 100 [false] :=
  (malloc_gives_iff threePages_laid (Or.inl ⟨rfl, rfl, rfl⟩) (by decide) false []).mpr
    (Or.inl (by decide))

/-- For 2^32 - 1 bytes the program gets a block of one header, and for 2^31 bytes it ends in a
    trap. -/
theorem malloc_gives_too_little : threePages.Laid 16 ∧ Sound 16 threePages.heap ∧
    (∃ Q p, threePages.malloc 16 4294967295 [false] = .ok (Q, some p) ∧ (Q.heap.mem p).size = 1 ∧
      ¬ Q.Usable p 4294967295) ∧
    threePages.malloc 16 2147483648 [false] = .error .fault := by
  have hrun : okWith (fun x : Proc × Option Nat =>
      x.2.any fun p => decide ((x.1.heap.mem p).size = 1))
      (threePages.malloc 16 4294967295 [false]) = true := by
    decide
  obtain ⟨⟨Q, r⟩, hok, htest⟩ := okWith_eq_true.mp hrun
  refine ⟨threePages_laid, Or.inl ⟨rfl, rfl, rfl⟩, ?_, rfl⟩
  cases r with
  | none => cases htest
  | some p =>
    have hsize : (Q.heap.mem p).size = 1 := of_decide_eq_true htest
    refine ⟨Q, p, hok, hsize, ?_⟩
    intro hu
    have hblock := hu.block
    rw [hsize] at hblock
    exact absurd hblock (by decide)

end Yonix.Umalloc
