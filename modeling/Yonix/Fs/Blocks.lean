/-
  Yonix/Fs/Blocks.lean
  ====================
  **Which inode a block belongs to.**

  `Owned` says of the file system that no block is referred to from two places, and that the
  blocks in use are the marked ones of the bitmap at least.  What the kernel does for one
  inode stays within the blocks of that inode and those that were free (`Within`), so the
  other inodes keep their fields and their bytes.  `balloc` and `bmap` are followed from there:
  a free block takes an empty place (`Took`).
-/
import Yonix.Fs.Path
import Yonix.Fs.Disk

namespace Yonix.Fs

variable {s t u : State} {E : Stop → Prop} {i m j k p b : Nat}

/-! ### Places -/

/-- The first data block. -/
def Superblock.datastart (sb : Superblock) : Nat := sb.bmapstart + sb.size / BPB + 1

/-- Inode blocks, bitmap and data follow each other on the disk. -/
structure Geometry (sb : Superblock) : Prop where
  size : sb.size ≤ FSSIZE
  inodes : ∀ m < sb.ninodes, sb.iblock m < sb.bmapstart
  data : sb.datastart ≤ sb.size

def State.marked (s : State) (b : Nat) : Bool := (s.block (s.sb.bblock b)).bit (b % BPB)

/-- What the inode in slot `i` of the cache has. -/
abbrev State.din (s : State) (i : Nat) : Dinode := (s.icache i).din

abbrev State.inum (s : State) (i : Nat) : Nat := (s.icache i).inum

/-- Reference `j` of an inode that is in use, or 0. -/
def State.place (s : State) (m j : Nat) : Nat :=
  if (s.node m).type = 0 then 0 else (s.node m).ref s.block j

structure Owned (s : State) : Prop where
  geo : Geometry s.sb
  alone : ∀ m < s.sb.ninodes, ∀ n < s.sb.ninodes, ∀ j k, s.place m j ≠ 0 →
    s.place m j = s.place n k → m = n ∧ j = k
  data : ∀ m < s.sb.ninodes, ∀ j, s.place m j ≠ 0 →
    s.sb.datastart ≤ s.place m j ∧ s.place m j < s.sb.size
  used : ∀ m < s.sb.ninodes, ∀ j, s.place m j ≠ 0 → s.marked (s.place m j) = true
  system : ∀ b < s.sb.datastart, s.marked b = true

/-- Slot `i` of the cache has a copy of an inode that is in use, and no other slot has one. -/
structure InCore (s : State) (i : Nat) : Prop where
  lt : i < NINODE
  ref : 0 < (s.icache i).ref
  valid : (s.icache i).valid = true
  inum : s.inum i < s.sb.ninodes
  type : (s.din i).type ≠ 0
  once : ∀ j < NINODE, 0 < (s.icache j).ref → s.inum j = s.inum i → j = i

theorem Geometry.bblock {sb : Superblock} (h : Geometry sb) (hb : b < sb.size) :
    sb.bblock b = sb.bmapstart ∧ b % BPB = b := by
  have hlt : b < BPB := Nat.lt_of_lt_of_le hb (Nat.le_trans h.size (by decide))
  constructor
  · rw [Superblock.bblock, Nat.div_eq_of_lt hlt, Nat.zero_add]
  · exact Nat.mod_eq_of_lt hlt

theorem Geometry.marked (h : Geometry s.sb) (hb : b < s.sb.size) :
    s.marked b = (s.block s.sb.bmapstart).bit b := by
  rcases h.bblock hb with ⟨h1, h2⟩
  rw [State.marked, h1, h2]

theorem Geometry.datastart {sb : Superblock} (h : Geometry sb) : sb.datastart = sb.bmapstart + 1 := by
  have hlt : sb.size < BPB := Nat.lt_of_le_of_lt h.size (by decide)
  rw [Superblock.datastart, Nat.div_eq_of_lt hlt]

theorem InCore.node (h : InCore s i) : s.node (s.inum i) = s.din i := by
  have hslot : s.slot (s.inum i) = some i := by
    cases hs : s.slot (s.inum i) with
    | none => exact absurd rfl (slot_none hs h.lt h.ref)
    | some j =>
      rcases slot_some hs with ⟨hj, hr, hinum⟩
      rw [h.once j hj hr hinum]
  unfold State.node
  rw [hslot]
  exact if_pos h.valid

theorem InCore.place (h : InCore s i) (j : Nat) : s.place (s.inum i) j = (s.din i).ref s.block j := by
  rw [State.place, h.node, if_neg h.type]

/-- A free block belongs to nobody. -/
theorem Owned.place_ne (h : Owned s) (hb : s.marked b = false) (hm : m < s.sb.ninodes) (hj : s.place m j ≠ 0) :
    s.place m j ≠ b := by
  rintro rfl
  rw [h.used m hm j hj] at hb
  cases hb

/-! ### On behalf of one inode -/

/-- `s` with the blocks, the log and the copy in slot `i` of `t`. -/
def State.over (s : State) (i : Nat) (t : State) : State :=
  { s with
    block := t.block
    logged := t.logged
    icache := Function.update s.icache i { s.icache i with din := t.din i } }

/-- What was done for the inode in slot `i` only. -/
structure Within (i : Nat) (s t : State) : Prop where
  rest : t = s.over i t
  type : (t.din i).type = (s.din i).type
  disk : ∀ m < s.sb.ninodes, m ≠ s.inum i → t.disk m = s.disk m
  kept : ∀ b, s.sb.datastart ≤ b → b < s.sb.size → s.marked b = true →
    (∀ j, (s.din i).ref s.block j ≠ b) → t.block b = s.block b
  marks : ∀ b < s.sb.size, s.marked b = true → t.marked b = true
  own : ∀ j, (t.din i).ref t.block j ≠ 0 → (∃ k, (s.din i).ref s.block k = (t.din i).ref t.block j) ∨
    (t.din i).ref t.block j < s.sb.size ∧ s.marked ((t.din i).ref t.block j) = false

section Over

variable (h : t = s.over i t)
include h

theorem over_sb : t.sb = s.sb := by rw [h]; rfl

theorem over_held : t.held = s.held := by rw [h]; rfl

theorem over_outstanding : t.outstanding = s.outstanding := by rw [h]; rfl

theorem over_logSize : t.logSize = s.logSize := by rw [h]; rfl

theorem over_icache_ne (hj : j ≠ i) : t.icache j = s.icache j := by
  rw [h]
  exact Function.update_of_ne hj _ _

theorem over_icache : t.icache i = { s.icache i with din := t.din i } := by
  have hself : (s.over i t).icache i = { s.icache i with din := t.din i } := Function.update_self _ _ _
  rw [← h] at hself
  exact hself

theorem over_ref (j : Nat) : (t.icache j).ref = (s.icache j).ref := by
  by_cases hj : j = i
  · rw [hj, over_icache h]
  · rw [over_icache_ne h hj]

theorem over_inum (j : Nat) : t.inum j = s.inum j := by
  by_cases hj : j = i
  · rw [hj, State.inum, over_icache h]
  · rw [State.inum, over_icache_ne h hj]

theorem over_slot (m : Nat) : t.slot m = s.slot m := by
  unfold State.slot
  congr 1
  funext j
  have hinum : (t.icache j).inum = (s.icache j).inum := over_inum h j
  rw [over_ref h, hinum]

theorem over_trans (h' : u = t.over i u) : u = s.over i u := by
  have hself : t.icache i = { s.icache i with din := t.din i } := over_icache h
  have hcache : Function.update t.icache i { t.icache i with din := u.din i } =
      Function.update s.icache i { s.icache i with din := u.din i } := by
    rw [hself, h]
    exact Function.update_idem _ _ _
  have heq : t.over i u = s.over i u := by
    unfold State.over
    rw [hcache, h]
    rfl
  rw [← heq]
  exact h'

end Over

theorem over_self (s : State) (i : Nat) : s = s.over i s := by
  unfold State.over
  rw [show ({ s.icache i with din := s.din i } : Inode) = s.icache i from rfl, Function.update_eq_self]

theorem Within.refl (s : State) (i : Nat) : Within i s s :=
  ⟨over_self s i, rfl, fun _ _ _ => rfl, fun _ _ _ _ _ => rfl, fun _ _ h => h, fun j _ => Or.inl ⟨j, rfl⟩⟩

theorem Within.trans (h : Within i s t) (h' : Within i t u) : Within i s u := by
  have hsb := over_sb h.rest
  have hunmark : ∀ b < s.sb.size, t.marked b = false → s.marked b = false := by
    intro b hlt hb
    cases hs : s.marked b with
    | false => rfl
    | true => rw [h.marks b hlt hs] at hb; cases hb
  constructor
  · exact over_trans h.rest h'.rest
  · rw [h'.type, h.type]
  · intro m hm hne
    rw [h'.disk m (by rwa [hsb]) (by rwa [over_inum h.rest]), h.disk m hm hne]
  · intro b hb hlt hmark hown
    rw [h'.kept b (by rwa [hsb]) (by rwa [hsb]) (h.marks b hlt hmark), h.kept b hb hlt hmark hown]
    intro j heq
    have hpos : (t.din i).ref t.block j ≠ 0 := by
      rw [heq]
      exact Nat.ne_of_gt (Nat.lt_of_lt_of_le (Nat.succ_pos _) hb)
    rcases h.own j hpos with ⟨k, hk⟩ | hfree
    · exact hown k (hk.trans heq)
    · rw [heq, hmark] at hfree
      cases hfree.2
  · exact fun b hlt hb => h'.marks b (by rwa [hsb]) (h.marks b hlt hb)
  · intro j hj
    rcases h'.own j hj with ⟨k, hk⟩ | ⟨hlt, hfree⟩
    · rw [← hk] at hj ⊢
      exact h.own k hj
    · rw [hsb] at hlt
      exact Or.inr ⟨hlt, hunmark _ hlt hfree⟩

theorem InCore.within (h : InCore s i) (hw : Within i s t) : InCore t i := by
  have hcache := over_icache hw.rest
  constructor
  · exact h.lt
  · rw [over_ref hw.rest]
    exact h.ref
  · rw [hcache]
    exact h.valid
  · rw [over_inum hw.rest, over_sb hw.rest]
    exact h.inum
  · rw [hw.type]
    exact h.type
  · intro j hj hr hinum
    rw [over_ref hw.rest] at hr
    rw [over_inum hw.rest, over_inum hw.rest] at hinum
    exact h.once j hj hr hinum

/-- The other inodes are as before. -/
theorem Within.node (h : Within i s t) (hm : m < s.sb.ninodes) (hne : m ≠ s.inum i) : t.node m = s.node m := by
  unfold State.node
  rw [over_slot h.rest]
  cases hs : s.slot m with
  | none => exact h.disk m hm hne
  | some j =>
    rcases slot_some hs with ⟨-, -, rfl⟩
    have hj : j ≠ i := by
      rintro rfl
      exact hne rfl
    dsimp only
    unfold State.copy
    rw [over_icache_ne h.rest hj, h.disk _ hm hne]

theorem Within.block_place (h : Within i s t) (hown : Owned s) (hin : InCore s i) (hm : m < s.sb.ninodes)
    (hne : m ≠ s.inum i) (hj : s.place m j ≠ 0) : t.block (s.place m j) = s.block (s.place m j) := by
  refine h.kept _ (hown.data m hm j hj).1 (hown.data m hm j hj).2 (hown.used m hm j hj) fun k heq => ?_
  rw [← hin.place] at heq
  have hk : s.place (s.inum i) k ≠ 0 := by rwa [heq]
  exact hne (hown.alone _ hin.inum m hm k j hk heq).1.symm

theorem Within.place (h : Within i s t) (hown : Owned s) (hin : InCore s i) (hm : m < s.sb.ninodes)
    (hne : m ≠ s.inum i) (j : Nat) : t.place m j = s.place m j := by
  unfold State.place
  rw [h.node hm hne]
  split
  · rfl
  · rename_i htype
    refine Dinode.ref_congr rfl fun hind => ?_
    have hplace : s.place m MAXFILE = (s.node m).addrs NDIRECT := by
      rw [State.place, if_neg htype, Dinode.ref_indirect]
    rw [← hplace] at hind ⊢
    exact h.block_place hown hin hm hne hind

theorem Within.owned (h : Within i s t) (hown : Owned s) (hin : InCore s i)
    (halone : ∀ j k, (t.din i).ref t.block j ≠ 0 →
      (t.din i).ref t.block j = (t.din i).ref t.block k → j = k)
    (hdata : ∀ j, (t.din i).ref t.block j ≠ 0 → s.sb.datastart ≤ (t.din i).ref t.block j ∧
      (t.din i).ref t.block j < s.sb.size ∧ t.marked ((t.din i).ref t.block j) = true) : Owned t := by
  have hsb := over_sb h.rest
  have hin' := hin.within h
  have hinum : t.inum i = s.inum i := over_inum h.rest i
  have hself : ∀ j, t.place (s.inum i) j = (t.din i).ref t.block j := by
    intro j
    rw [← hinum, hin'.place]
  -- a block of another inode is not one of this one
  have hcross : ∀ n < s.sb.ninodes, n ≠ s.inum i → ∀ j k, (t.din i).ref t.block j ≠ 0 →
      (t.din i).ref t.block j ≠ s.place n k := by
    intro n hn hne j k hj heq
    have hk : s.place n k ≠ 0 := by rwa [← heq]
    rcases h.own j hj with ⟨l, hl⟩ | hfree
    · rw [← hin.place] at hl
      have hl0 : s.place (s.inum i) l ≠ 0 := by rwa [hl]
      exact hne (hown.alone _ hin.inum n hn l k hl0 (hl.trans heq)).1.symm
    · exact hown.place_ne hfree.2 hn hk heq.symm
  constructor
  · rw [hsb]
    exact hown.geo
  · rw [hsb]
    intro m hm n hn j k hj heq
    by_cases hmi : m = s.inum i
    · subst hmi
      rw [hself] at hj heq
      by_cases hni : n = s.inum i
      · subst hni
        rw [hself] at heq
        exact ⟨rfl, halone j k hj heq⟩
      · rw [h.place hown hin hn hni] at heq
        exact absurd heq (hcross n hn hni j k hj)
    · rw [h.place hown hin hm hmi] at hj heq
      by_cases hni : n = s.inum i
      · subst hni
        rw [hself] at heq
        exact absurd heq.symm (hcross m hm hmi k j (by rwa [← heq]))
      · rw [h.place hown hin hn hni] at heq
        exact hown.alone m hm n hn j k hj heq
  · rw [hsb]
    intro m hm j hj
    by_cases hmi : m = s.inum i
    · subst hmi
      rw [hself] at hj ⊢
      exact ⟨(hdata j hj).1, (hdata j hj).2.1⟩
    · rw [h.place hown hin hm hmi] at hj ⊢
      exact hown.data m hm j hj
  · rw [hsb]
    intro m hm j hj
    by_cases hmi : m = s.inum i
    · subst hmi
      rw [hself] at hj ⊢
      exact (hdata j hj).2.2
    · rw [h.place hown hin hm hmi] at hj ⊢
      exact h.marks _ (hown.data m hm j hj).2 (hown.used m hm j hj)
  · rw [hsb]
    exact fun b hb => h.marks b (Nat.lt_of_lt_of_le hb hown.geo.data) (hown.system b hb)

/-! ### Writing a block -/

/-- `log_write` of block `b`. -/
def State.put (s : State) (b : Nat) (x : Block) : State :=
  { s with
    block := Function.update s.block b x
    logged := if b ∈ s.logged then s.logged else s.logged ++ [b] }

def State.hold (s : State) (b : Nat) : State := { s with held := b :: s.held }

/-- `log_write` does not panic. -/
structure State.CanLog (s : State) : Prop where
  room : s.logged.length < LOGSIZE ∧ s.logged.length < s.logSize - 1
  trans : 1 ≤ s.outstanding

theorem put_block_self (x : Block) : (s.put b x).block b = x := Function.update_self _ _ _

theorem put_block_ne {x : Block} (h : k ≠ b) : (s.put b x).block k = s.block k :=
  Function.update_of_ne h _ _

theorem wp_logWrite {x : Block} {Q : Unit → State → Prop} (hroom : (∀ e, E e) ∨ s.CanLog)
    (hQ : Q () (s.put b x)) : wp E (logWrite b x) Q s := by
  unfold wp logWrite
  by_cases hfull : LOGSIZE ≤ s.logged.length ∨ s.logSize - 1 ≤ s.logged.length
  · rw [if_pos hfull]
    rcases hroom with hE | hroom
    · exact hE _
    · have := hroom.room
      omega
  · rw [if_neg hfull]
    by_cases hout : s.outstanding < 1
    · rw [if_pos hout]
      rcases hroom with hE | hroom
      · exact hE _
      · have := hroom.trans
        omega
    · rw [if_neg hout]
      exact hQ

theorem wp_bread {Q : Block → State → Prop} (hb : b < FSSIZE) (hheld : b ∉ s.held)
    (hQ : Q (s.block b) (s.hold b)) : wp E (bread b) Q s := by
  unfold wp bread
  rw [if_neg (Nat.not_le.mpr hb), if_neg hheld]
  exact hQ

theorem wp_brelse {l : List Nat} {Q : Unit → State → Prop} (hheld : s.held = b :: l)
    (hQ : Q () { s with held := l }) : wp E (brelse b) Q s := by
  unfold wp brelse
  rw [if_pos (by rw [hheld]; exact List.mem_cons_self), hheld, List.erase_cons_head]
  exact hQ

/-- A buffer that is held is logged and released. -/
theorem wp_put {x : Block} {Q : Unit → State → Prop} (hroom : (∀ e, E e) ∨ s.CanLog)
    (hQ : Q () (s.put b x)) : wp E (do logWrite b x; brelse b) Q (s.hold b) := by
  have hroom' : (∀ e, E e) ∨ (s.hold b).CanLog := hroom.imp_right fun h => ⟨h.room, h.trans⟩
  exact wp_bind (P := fun _ v => v = (s.hold b).put b x) (wp_logWrite hroom' rfl) fun _ _ hv =>
    hv ▸ wp_brelse rfl hQ

/-! ### `balloc` -/

/-- The free block `b` is marked and filled with zeroes. -/
def State.alloc (s : State) (b : Nat) : State :=
  (s.put s.sb.bmapstart ((s.block s.sb.bmapstart).setBit b)).put b Bytes.zero

theorem freeBit_some {x : Block} {size : Nat} (h : freeBit x 0 size = some b) :
    b < BPB ∧ b < size ∧ x.bit b = false := by
  unfold freeBit at h
  have hmem := List.mem_of_find?_eq_some h
  have htest := List.find?_some h
  rw [Bool.and_eq_true, Nat.zero_add] at htest
  exact ⟨List.mem_range.mp hmem, of_decide_eq_true htest.1, by simpa using htest.2⟩

theorem freeBit_isSome {x : Block} {size : Nat} (hlt : b < BPB) (hb : b < size) (hbit : x.bit b = false) :
    freeBit x 0 size ≠ none := by
  unfold freeBit
  intro h
  have := List.find?_eq_none.mp h b (List.mem_range.mpr hlt)
  rw [Nat.zero_add, hbit, decide_eq_true hb] at this
  exact this rfl

section Balloc

variable (hgeo : Geometry s.sb)
include hgeo

theorem Geometry.bmap_lt : s.sb.bmapstart < s.sb.size := by
  have h := hgeo.data
  rw [hgeo.datastart] at h
  exact h

/-- `balloc` returns a free block, if there is one. -/
theorem wp_balloc {Q : Nat → State → Prop} (hbm : s.sb.bmapstart ∉ s.held)
    (hheld : ∀ b < s.sb.size, s.marked b = false → b ∉ s.held)
    (hroom : (∀ e, E e) ∨ (∃ b < s.sb.size, s.marked b = false) ∧ s.CanLog ∧
      ∀ x, (s.put s.sb.bmapstart x).CanLog)
    (hQ : ∀ b < s.sb.size, s.marked b = false → Q b (s.alloc b)) : wp E balloc Q s := by
  have hlt : s.sb.bmapstart < FSSIZE := Nat.lt_of_lt_of_le hgeo.bmap_lt hgeo.size
  have hpos : 0 < s.sb.size := Nat.lt_of_le_of_lt (Nat.zero_le _) hgeo.bmap_lt
  have hbblock : s.sb.bblock 0 = s.sb.bmapstart := (hgeo.bblock hpos).1
  unfold balloc
  apply wp_get_bind
  unfold ballocLoop
  rw [if_pos hpos, hbblock]
  refine wp_bind (wp_bread (Q := fun v u => v = s.block s.sb.bmapstart ∧ u = s.hold s.sb.bmapstart)
    hlt hbm ⟨rfl, rfl⟩) ?_
  rintro _ _ ⟨rfl, rfl⟩
  cases hbit : freeBit (s.block s.sb.bmapstart) 0 s.sb.size with
  | none =>
    rcases hroom with hE | ⟨⟨b, hb, hfree⟩, -⟩
    · refine wp_bind (P := fun _ _ => True) (wp_brelse rfl trivial) fun _ _ _ => ?_
      cases hk : s.sb.size / BPB with
      | zero => exact wp_stop (hE _)
      | succ k =>
        have : s.sb.size / BPB = 0 :=
          Nat.div_eq_of_lt (Nat.lt_of_le_of_lt hgeo.size (by decide))
        omega
    · have hBPB : b < BPB := Nat.lt_of_lt_of_le hb (Nat.le_trans hgeo.size (by decide))
      rw [hgeo.marked hb] at hfree
      exact absurd hbit (freeBit_isSome hBPB hb hfree)
  | some b =>
    rcases freeBit_some hbit with ⟨-, hb, hfree⟩
    rw [← hgeo.marked hb] at hfree
    dsimp only
    rw [Nat.zero_add]
    have hroom1 : (∀ e, E e) ∨ (s.hold s.sb.bmapstart).CanLog :=
      hroom.imp_right fun h => ⟨h.2.1.room, h.2.1.trans⟩
    refine wp_bind (P := fun _ v => v = (s.hold s.sb.bmapstart).put s.sb.bmapstart
      ((s.block s.sb.bmapstart).setBit b)) (wp_logWrite hroom1 rfl) ?_
    rintro _ _ rfl
    refine wp_bind (P := fun _ v => v = s.put s.sb.bmapstart ((s.block s.sb.bmapstart).setBit b))
      (wp_brelse rfl rfl) ?_
    rintro _ _ rfl
    unfold bzero
    have hbFS : b < FSSIZE := Nat.lt_of_lt_of_le hb hgeo.size
    refine wp_bind (P := fun _ v => v = s.alloc b) ?_ fun _ _ hv => hv ▸ wp_pure (hQ b hb hfree)
    refine wp_bind (wp_bread (Q := fun _ u => u = (s.put s.sb.bmapstart
      ((s.block s.sb.bmapstart).setBit b)).hold b) hbFS (hheld b hb hfree) rfl) ?_
    rintro _ _ rfl
    exact wp_put (hroom.imp_right fun h => h.2.2 _) rfl

theorem alloc_marked (hb : b < s.sb.size) (hne : b ≠ s.sb.bmapstart) (hk : k < s.sb.size) :
    (s.alloc b).marked k = (s.marked k || decide (k = b)) := by
  have hsb : (s.alloc b).sb = s.sb := rfl
  have hbm : (s.alloc b).block s.sb.bmapstart = (s.block s.sb.bmapstart).setBit b := by
    unfold State.alloc
    rw [put_block_ne (Ne.symm hne), put_block_self]
  have hlt : b / 8 < BSIZE := by
    have := hgeo.size
    unfold FSSIZE at this
    unfold BSIZE
    omega
  rw [hgeo.marked hk, Geometry.marked (by rwa [hsb]) (by rwa [hsb]), hsb, hbm, Bytes.bit_setBit _ hlt]
  by_cases hkb : k = b
  · rw [if_pos hkb, decide_eq_true hkb, Bool.or_true]
  · rw [if_neg hkb, decide_eq_false hkb, Bool.or_false]

end Balloc

theorem alloc_block_self : (s.alloc b).block b = Bytes.zero := put_block_self _

theorem alloc_block_ne (hbm : k ≠ s.sb.bmapstart) (hb : k ≠ b) : (s.alloc b).block k = s.block k := by
  unfold State.alloc
  rw [put_block_ne hb, put_block_ne hbm]

/-! ### A new block for an inode -/

/-- The free block `b` took the empty place `p` of the inode in slot `i`. -/
structure Took (i p b : Nat) (s t : State) : Prop where
  rest : t = s.over i t
  din : t.din i = { s.din i with addrs := (t.din i).addrs }
  lt : b < s.sb.size
  free : s.marked b = false
  ref : ∀ k, (t.din i).ref t.block k = if k = p then b else (s.din i).ref s.block k
  marked : ∀ k < s.sb.size, t.marked k = (s.marked k || decide (k = b))
  block : ∀ k, k ≠ s.sb.bmapstart → k ≠ b → ((s.din i).addrs NDIRECT ≠ 0 → k ≠ (s.din i).addrs NDIRECT) →
    t.block k = s.block k
  new : t.block b = Bytes.zero

theorem Owned.datastart_le (h : Owned s) (hfree : s.marked b = false) : s.sb.datastart ≤ b := by
  by_contra hlt
  rw [h.system b (Nat.lt_of_not_le hlt)] at hfree
  cases hfree

theorem Owned.ref_data (h : Owned s) (hin : InCore s i) (hj : (s.din i).ref s.block j ≠ 0) :
    s.sb.datastart ≤ (s.din i).ref s.block j ∧ (s.din i).ref s.block j < s.sb.size := by
  rw [← hin.place] at hj ⊢
  exact h.data _ hin.inum j hj

theorem Owned.ref_used (h : Owned s) (hin : InCore s i) (hj : (s.din i).ref s.block j ≠ 0) :
    s.marked ((s.din i).ref s.block j) = true := by
  rw [← hin.place] at hj ⊢
  exact h.used _ hin.inum j hj

theorem Owned.ref_alone (h : Owned s) (hin : InCore s i) (hj : (s.din i).ref s.block j ≠ 0)
    (heq : (s.din i).ref s.block j = (s.din i).ref s.block k) : j = k := by
  rw [← hin.place] at hj heq
  rw [← hin.place] at heq
  exact (h.alone _ hin.inum _ hin.inum j k hj heq).2

theorem Owned.ne_zero (h : Owned s) (hfree : s.marked b = false) : b ≠ 0 :=
  Nat.ne_of_gt (Nat.lt_of_lt_of_le (Nat.succ_pos _) (h.datastart_le hfree))

section Took

variable (hown : Owned s) (hin : InCore s i)
include hown hin

theorem Took.within (h : Took i p b s t) : Within i s t := by
  have hdata := hown.datastart_le h.free
  have hind : (s.din i).addrs NDIRECT ≠ 0 → s.sb.datastart ≤ (s.din i).addrs NDIRECT := by
    intro hne
    have := hown.ref_data hin (j := MAXFILE)
    rw [Dinode.ref_indirect] at this
    exact (this hne).1
  have hstart := hown.geo.datastart
  constructor
  · exact h.rest
  · rw [h.din]
  · intro m hm _
    have hlt := hown.geo.inodes m hm
    unfold State.disk
    rw [over_sb h.rest, h.block _ (by omega) (by omega) fun hne => by have := hind hne; omega]
  · intro k hk _ hmark hown'
    refine h.block k (by omega) ?_ fun _ heq => hown' MAXFILE (by rw [Dinode.ref_indirect]; exact heq.symm)
    rintro rfl
    rw [h.free] at hmark
    cases hmark
  · intro k hk hmark
    rw [h.marked k hk, hmark, Bool.true_or]
  · intro j hj
    rw [h.ref] at hj ⊢
    split
    · exact Or.inr ⟨h.lt, h.free⟩
    · exact Or.inl ⟨j, rfl⟩

theorem Took.owned (h : Took i p b s t) : Owned t := by
  have hne : ∀ k, (s.din i).ref s.block k ≠ b := by
    intro k heq
    have hk : (s.din i).ref s.block k ≠ 0 := by
      rw [heq]
      exact Nat.ne_of_gt (Nat.lt_of_lt_of_le (Nat.succ_pos _) (hown.datastart_le h.free))
    have hused := hown.ref_used hin hk
    rw [heq, h.free] at hused
    cases hused
  refine (h.within hown hin).owned hown hin ?_ ?_
  · intro j k hj heq
    rw [h.ref] at hj
    rw [h.ref, h.ref] at heq
    split at heq
    · rename_i hjp
      split at heq
      · rename_i hkp
        rw [hjp, hkp]
      · exact absurd heq.symm (hne k)
    · rename_i hjp
      rw [if_neg hjp] at hj
      split at heq
      · exact absurd heq (hne j)
      · exact hown.ref_alone hin hj heq
  · intro j hj
    rw [h.ref] at hj ⊢
    split
    · exact ⟨hown.datastart_le h.free, h.lt, by rw [h.marked b h.lt, decide_eq_true rfl, Bool.or_true]⟩
    · rename_i hjp
      rw [if_neg hjp] at hj
      rcases hown.ref_data hin hj with ⟨h1, h2⟩
      exact ⟨h1, h2, by rw [h.marked _ h2, hown.ref_used hin hj, Bool.true_or]⟩

end Took

/-- What `addrOf` does for element `j` of `addrs`. -/
def State.assign (s : State) (i j b : Nat) : State := (s.alloc b).setDin i (setAddr (s.din i) j b)

theorem assign_over (s : State) (i j b : Nat) : s.assign i j b = s.over i (s.assign i j b) := by
  have hself : (s.assign i j b).din i = setAddr (s.din i) j b := by
    unfold State.din State.assign State.setDin
    rw [setInode_self]
  unfold State.over
  rw [hself]
  rfl

theorem assign_din (s : State) (i j b : Nat) : (s.assign i j b).din i = setAddr (s.din i) j b := by
  unfold State.din State.assign State.setDin
  rw [setInode_self]

theorem took_assign (hown : Owned s) (hin : InCore s i) (hj : j ≤ NDIRECT) (hzero : (s.din i).addrs j = 0)
    (hb : b < s.sb.size) (hfree : s.marked b = false) :
    Took i (if j = NDIRECT then MAXFILE else j) b s (s.assign i j b) := by
  have hstart := hown.geo.datastart
  have hdata := hown.datastart_le hfree
  have hbm : b ≠ s.sb.bmapstart := by omega
  have hind : (s.din i).addrs NDIRECT ≠ 0 → (s.alloc b).block ((s.din i).addrs NDIRECT) =
      s.block ((s.din i).addrs NDIRECT) := by
    intro hne
    have href := Dinode.ref_indirect (s.din i) s.block
    have h1 := hown.ref_data hin (j := MAXFILE) (by rwa [href])
    have h2 := hown.ref_used hin (j := MAXFILE) (by rwa [href])
    rw [href] at h1 h2
    refine alloc_block_ne (by omega) ?_
    intro heq
    rw [heq, hfree] at h2
    cases h2
  constructor
  · exact assign_over s i j b
  · rw [assign_din]
    rfl
  · exact hb
  · exact hfree
  · intro k
    rw [assign_din]
    change (setAddr (s.din i) j b).ref (s.alloc b).block k = _
    exact Dinode.ref_setAddr hj hzero (hown.ne_zero hfree) hind (fun _ => alloc_block_self) k
  · intro k hk
    rw [show (s.assign i j b).marked k = (s.alloc b).marked k from rfl, alloc_marked hown.geo hb hbm hk]
  · exact fun k h1 h2 _ => alloc_block_ne h1 h2
  · exact alloc_block_self

/-- What `bmap` does for element `w` of the indirect block. -/
def State.assignIn (s : State) (i w b : Nat) : State :=
  (s.alloc b).put ((s.din i).addrs NDIRECT) ((s.block ((s.din i).addrs NDIRECT)).setWord w b)

theorem took_assignIn {w : Nat} (hown : Owned s) (hin : InCore s i) (hw : w < NINDIRECT)
    (hind : (s.din i).addrs NDIRECT ≠ 0) (hb : b < s.sb.size) (hfree : s.marked b = false) :
    Took i (NDIRECT + w) b s (s.assignIn i w b) := by
  have hstart := hown.geo.datastart
  have hdata := hown.datastart_le hfree
  have hbm : b ≠ s.sb.bmapstart := by omega
  have href := Dinode.ref_indirect (s.din i) s.block
  have h1 := hown.ref_data hin (j := MAXFILE) (by rwa [href])
  have h2 := hown.ref_used hin (j := MAXFILE) (by rwa [href])
  rw [href] at h1 h2
  have hbind : b ≠ (s.din i).addrs NDIRECT := by
    intro heq
    rw [← heq, hfree] at h2
    cases h2
  have hbig : b < 2 ^ 32 := by
    have := hown.geo.size
    unfold FSSIZE at this
    omega
  have hne : s.sb.bmapstart ≠ (s.din i).addrs NDIRECT := by omega
  constructor
  · have hcache : Function.update s.icache i { s.icache i with din := (s.assignIn i w b).din i } = s.icache :=
      Function.update_eq_self i s.icache
    unfold State.over
    rw [hcache]
    rfl
  · rfl
  · exact hb
  · exact hfree
  · intro k
    change (s.din i).ref (s.assignIn i w b).block k = _
    exact Dinode.ref_setWord hw hind hbig (put_block_self _) k
  · intro k hk
    have hput : (s.assignIn i w b).marked k = (s.alloc b).marked k := by
      have hsb : (s.alloc b).sb = s.sb := rfl
      have hgeo : Geometry (s.alloc b).sb := hown.geo
      have hgeo' : Geometry (s.assignIn i w b).sb := hown.geo
      rw [hgeo'.marked hk, hgeo.marked hk]
      exact congrArg (fun x => Bytes.bit x k) (put_block_ne hne)
    rw [hput, alloc_marked hown.geo hb hbm hk]
  · intro k hk1 hk2 hk3
    rw [State.assignIn, put_block_ne (hk3 hind), alloc_block_ne hk1 hk2]
  · rw [State.assignIn, put_block_ne hbind, alloc_block_self]

/-! ### Room -/

/-- The number of free blocks. -/
def State.nfree (s : State) : Nat := ((Finset.range s.sb.size).filter fun b => s.marked b = false).card

/-- What the log still has to take for the bitmap and the indirect block. -/
def State.due (s : State) (i : Nat) : Nat :=
  (if s.sb.bmapstart ∈ s.logged then 0 else 1) +
    if (s.din i).addrs NDIRECT ≠ 0 ∧ (s.din i).addrs NDIRECT ∈ s.logged then 0 else 1

/-- The transaction takes `c` more blocks than those due. -/
structure Room (i c : Nat) (s : State) : Prop where
  room : s.logged.length + s.due i + c < min LOGSIZE (s.logSize - 1)
  trans : 1 ≤ s.outstanding

theorem Took.nfree (h : Took i p b s t) : t.nfree + 1 = s.nfree := by
  have hsb := over_sb h.rest
  have hmem : b ∈ (Finset.range s.sb.size).filter fun b => s.marked b = false :=
    Finset.mem_filter.mpr ⟨Finset.mem_range.mpr h.lt, h.free⟩
  have heq : (Finset.range t.sb.size).filter (fun b => t.marked b = false) =
      ((Finset.range s.sb.size).filter fun b => s.marked b = false).erase b := by
    ext k
    rw [hsb, Finset.mem_erase, Finset.mem_filter, Finset.mem_filter, Finset.mem_range]
    constructor
    · rintro ⟨hk, hfree⟩
      rw [h.marked k hk, Bool.or_eq_false_iff] at hfree
      exact ⟨of_decide_eq_false hfree.2, hk, hfree.1⟩
    · rintro ⟨hne, hk, hfree⟩
      exact ⟨hk, by rw [h.marked k hk, hfree, decide_eq_false hne]; rfl⟩
  unfold State.nfree
  rw [heq, Finset.card_erase_of_mem hmem]
  exact Nat.sub_add_cancel (Finset.card_pos.mpr ⟨b, hmem⟩)

theorem exists_free (h : 0 < s.nfree) : ∃ b < s.sb.size, s.marked b = false := by
  rcases Finset.card_pos.mp h with ⟨b, hb⟩
  rw [Finset.mem_filter, Finset.mem_range] at hb
  exact ⟨b, hb⟩

section Room

variable {c : Nat} {x : Block}

theorem Room.canLog (h : Room i c s) : s.CanLog := by
  have := h.room
  exact ⟨by omega, h.trans⟩

theorem Room.mono (h : Room i (c + 1) s) : Room i c s := ⟨by have := h.room; omega, h.trans⟩

theorem mem_put (s : State) (b : Nat) (x : Block) : b ∈ (s.put b x).logged := by
  unfold State.put
  dsimp only
  split
  · assumption
  · exact List.mem_append_right _ List.mem_cons_self

theorem mem_put_of_mem (hk : k ∈ s.logged) : k ∈ (s.put b x).logged := by
  unfold State.put
  dsimp only
  split
  · exact hk
  · exact List.mem_append_left _ hk

theorem length_put : (s.put b x).logged.length = s.logged.length + if b ∈ s.logged then 0 else 1 := by
  unfold State.put
  dsimp only
  split
  · rfl
  · rw [List.length_append, List.length_singleton]

theorem due_put_le : (s.put b x).due i ≤ s.due i := by
  unfold State.due
  have h1 : s.sb.bmapstart ∈ s.logged → s.sb.bmapstart ∈ (s.put b x).logged := mem_put_of_mem
  have h2 : (s.din i).addrs NDIRECT ∈ s.logged → (s.din i).addrs NDIRECT ∈ (s.put b x).logged := mem_put_of_mem
  change (if s.sb.bmapstart ∈ (s.put b x).logged then 0 else 1) +
    (if (s.din i).addrs NDIRECT ≠ 0 ∧ (s.din i).addrs NDIRECT ∈ (s.put b x).logged then 0 else 1) ≤ _
  refine Nat.add_le_add ?_ ?_
  · by_cases hm : s.sb.bmapstart ∈ s.logged
    · rw [if_pos hm, if_pos (h1 hm)]
    · rw [if_neg hm]
      split <;> omega
  · by_cases hm : (s.din i).addrs NDIRECT ≠ 0 ∧ (s.din i).addrs NDIRECT ∈ s.logged
    · rw [if_pos hm, if_pos ⟨hm.1, h2 hm.2⟩]
    · rw [if_neg hm]
      split <;> omega

theorem Room.put (h : Room i (c + 1) s) : Room i c (s.put b x) := by
  constructor
  · have h1 := h.room
    have h2 := due_put_le (s := s) (i := i) (b := b) (x := x)
    have h3 := length_put (s := s) (b := b) (x := x)
    change (s.put b x).logged.length + _ + c < min LOGSIZE (s.logSize - 1)
    split at h3 <;> omega
  · exact h.trans

theorem Room.put_mem (h : Room i c s) (hb : b ∈ s.logged) : Room i c (s.put b x) := by
  constructor
  · have h1 := h.room
    have h2 := due_put_le (s := s) (i := i) (b := b) (x := x)
    have h3 := length_put (s := s) (b := b) (x := x)
    rw [if_pos hb] at h3
    change (s.put b x).logged.length + _ + c < min LOGSIZE (s.logSize - 1)
    omega
  · exact h.trans

theorem Room.put_bitmap (h : Room i c s) : Room i c (s.put s.sb.bmapstart x) := by
  by_cases hm : s.sb.bmapstart ∈ s.logged
  · exact h.put_mem hm
  · constructor
    · have h1 := h.room
      have h3 := length_put (s := s) (b := s.sb.bmapstart) (x := x)
      rw [if_neg hm] at h3
      have h2 : (s.put s.sb.bmapstart x).due i + 1 ≤ s.due i := by
        unfold State.due at *
        rw [if_neg hm]
        change (if s.sb.bmapstart ∈ (s.put s.sb.bmapstart x).logged then 0 else 1) + (if (s.din i).addrs NDIRECT ≠ 0 ∧
          (s.din i).addrs NDIRECT ∈ (s.put s.sb.bmapstart x).logged then 0 else 1) + 1 ≤ _
        rw [if_pos (mem_put _ _ _)]
        by_cases hi : (s.din i).addrs NDIRECT ≠ 0 ∧ (s.din i).addrs NDIRECT ∈ s.logged
        · rw [if_pos hi, if_pos ⟨hi.1, mem_put_of_mem hi.2⟩]
        · rw [if_neg hi]
          split <;> omega
      change (s.put s.sb.bmapstart x).logged.length + _ + c < min LOGSIZE (s.logSize - 1)
      omega
    · exact h.trans

theorem Room.put_indirect (h : Room i c s) (hne : (s.din i).addrs NDIRECT ≠ 0) :
    Room i c (s.put ((s.din i).addrs NDIRECT) x) := by
  by_cases hm : (s.din i).addrs NDIRECT ∈ s.logged
  · exact h.put_mem hm
  · constructor
    · have h1 := h.room
      have h3 := length_put (s := s) (b := (s.din i).addrs NDIRECT) (x := x)
      rw [if_neg hm] at h3
      have h2 : (s.put ((s.din i).addrs NDIRECT) x).due i + 1 ≤ s.due i := by
        have hdue : s.due i = (if s.sb.bmapstart ∈ s.logged then 0 else 1) + 1 := by
          unfold State.due
          rw [if_neg fun hc : (s.din i).addrs NDIRECT ≠ 0 ∧ (s.din i).addrs NDIRECT ∈ s.logged => hm hc.2]
        rw [hdue]
        change (if s.sb.bmapstart ∈ (s.put ((s.din i).addrs NDIRECT) x).logged then 0 else 1) +
          (if (s.din i).addrs NDIRECT ≠ 0 ∧
          (s.din i).addrs NDIRECT ∈ (s.put ((s.din i).addrs NDIRECT) x).logged then 0 else 1) + 1 ≤ _
        rw [if_pos (show (s.din i).addrs NDIRECT ≠ 0 ∧ _ from ⟨hne, mem_put _ _ _⟩)]
        by_cases hb : s.sb.bmapstart ∈ s.logged
        · rw [if_pos hb, if_pos (mem_put_of_mem hb)]
        · rw [if_neg hb]
          split <;> omega
      change (s.put ((s.din i).addrs NDIRECT) x).logged.length + _ + c < min LOGSIZE (s.logSize - 1)
      omega
    · exact h.trans

end Room

/-! ### `bmap` -/

theorem mem_alloc (s : State) (b : Nat) : b ∈ (s.alloc b).logged := mem_put _ _ _

theorem room_assign {c : Nat} (h : Room i (c + 1) s) (hj : j ≠ NDIRECT) : Room i c (s.assign i j b) := by
  have hroom : Room i c (s.alloc b) := h.put_bitmap.put
  have haddr : ((s.assign i j b).din i).addrs NDIRECT = (s.din i).addrs NDIRECT := by
    rw [assign_din, setAddr_ne (Ne.symm hj)]
  have hdue : (s.assign i j b).due i = (s.alloc b).due i := by
    unfold State.due
    rw [haddr]
    rfl
  constructor
  · rw [hdue]
    exact hroom.room
  · exact hroom.trans

theorem room_assign_indirect {c : Nat} (h : Room i c s) (hzero : (s.din i).addrs NDIRECT = 0) (hb : b ≠ 0) :
    Room i c (s.assign i NDIRECT b) := by
  have haddr : ((s.assign i NDIRECT b).din i).addrs NDIRECT = b := by
    rw [assign_din, setAddr_self]
  have hbm : s.sb.bmapstart ∈ (s.alloc b).logged := mem_put_of_mem (mem_put _ _ _)
  have hself : b ∈ (s.alloc b).logged := mem_alloc s b
  have hdue : (s.assign i NDIRECT b).due i = 0 := by
    unfold State.due
    rw [haddr]
    change (if s.sb.bmapstart ∈ (s.alloc b).logged then 0 else 1) +
      (if b ≠ 0 ∧ b ∈ (s.alloc b).logged then 0 else 1) = 0
    rw [if_pos hbm, if_pos ⟨hb, hself⟩]
  have hlen : (s.alloc b).logged.length ≤ s.logged.length + s.due i := by
    unfold State.due
    rw [if_neg fun hc : (s.din i).addrs NDIRECT ≠ 0 ∧ (s.din i).addrs NDIRECT ∈ s.logged => hc.1 hzero]
    unfold State.alloc
    rw [length_put, length_put]
    split <;> split <;> omega
  constructor
  · have := h.room
    rw [hdue]
    change (s.alloc b).logged.length + 0 + c < min LOGSIZE (s.logSize - 1)
    omega
  · exact h.trans

theorem room_assignIn {c w : Nat} (h : Room i (c + 1) s) (hne : (s.din i).addrs NDIRECT ≠ 0) :
    Room i c (s.assignIn i w b) := by
  have hroom : Room i c (s.alloc b) := h.put_bitmap.put
  exact hroom.put_indirect (x := (s.block ((s.din i).addrs NDIRECT)).setWord w b) hne

theorem wp_addrOf {Q : Nat → State → Prop} (hown : Owned s) (hheld : s.held = [])
    (henough : (s.din i).addrs j = 0 → (∀ e, E e) ∨ 0 < s.nfree ∧ Room i 0 s)
    (hold : (s.din i).addrs j ≠ 0 → Q ((s.din i).addrs j) s)
    (hnew : (s.din i).addrs j = 0 → ∀ b < s.sb.size, s.marked b = false → Q b (s.assign i j b)) :
    wp E (addrOf i j) Q s := by
  unfold addrOf
  apply wp_get_bind
  by_cases hz : (s.din i).addrs j = 0
  · rw [if_pos hz]
    refine wp_bind (P := fun b u => (b < s.sb.size ∧ s.marked b = false) ∧ u = s.alloc b) ?_ ?_
    · refine wp_balloc hown.geo ?_ ?_ ?_ fun b hb hfree => ⟨⟨hb, hfree⟩, rfl⟩
      · rw [hheld]
        exact List.not_mem_nil
      · intro b _ _
        rw [hheld]
        exact List.not_mem_nil
      · exact (henough hz).imp_right fun h => ⟨exists_free h.1, h.2.canLog, fun x => h.2.put_bitmap.canLog⟩
    · rintro b _ ⟨⟨hb, hfree⟩, rfl⟩
      exact wp_modify_bind (wp_pure (hnew hz b hb hfree))
  · rw [if_neg hz]
    exact wp_pure (hold hz)

/-- The blocks that `bmap` has to allocate. -/
def State.need (s : State) (i bn : Nat) : Nat :=
  (if (s.din i).slot s.block bn = 0 then 1 else 0) +
    if NDIRECT ≤ bn ∧ (s.din i).addrs NDIRECT = 0 then 1 else 0

/-- After `bmap`, which returned `b` for block `bn` of the file. -/
structure Mapped (i bn b : Nat) (s t : State) : Prop where
  within : Within i s t
  owned : Owned t
  din : t.din i = { s.din i with addrs := (t.din i).addrs }
  ne : b ≠ 0
  slot : (t.din i).slot t.block bn = b
  others : ∀ k < MAXFILE, k ≠ bn → (t.din i).slot t.block k = (s.din i).slot s.block k
  old : (s.din i).slot s.block bn ≠ 0 → t = s
  new : (s.din i).slot s.block bn = 0 → t.block b = Bytes.zero ∧ b ∈ t.logged
  data : ∀ k < MAXFILE, (s.din i).slot s.block k ≠ 0 →
    t.block ((s.din i).slot s.block k) = s.block ((s.din i).slot s.block k)
  nfree : t.nfree + s.need i bn = s.nfree
  indirect : (t.din i).addrs NDIRECT = 0 ↔ (s.din i).addrs NDIRECT = 0 ∧ bn < NDIRECT
  room : ∀ c, Room i (c + 1) s → Room i c t

theorem Took.slot (h : Took i p b s t) (hk : k < MAXFILE) :
    (t.din i).slot t.block k = if k = p then b else (s.din i).slot s.block k := by
  rw [← Dinode.ref_slot hk, h.ref, Dinode.ref_slot hk]

section Mapped

variable {bn : Nat} (hown : Owned s) (hin : InCore s i)
include hown hin

theorem Took.data (h : Took i p b s t) (hk : k < MAXFILE) (hne : (s.din i).slot s.block k ≠ 0) :
    t.block ((s.din i).slot s.block k) = s.block ((s.din i).slot s.block k) := by
  have hstart := hown.geo.datastart
  rw [← Dinode.ref_slot hk] at hne ⊢
  have hdata := hown.ref_data hin hne
  refine h.block _ (by omega) ?_ fun hind heq => ?_
  · intro heq
    have hused := hown.ref_used hin hne
    rw [heq, h.free] at hused
    cases hused
  · rw [← Dinode.ref_indirect _ s.block] at heq
    exact Nat.ne_of_lt hk (hown.ref_alone hin hne heq)

omit hin in
theorem mapped_old (hne : (s.din i).slot s.block bn ≠ 0) :
    Mapped i bn ((s.din i).slot s.block bn) s s := by
  have hind : NDIRECT ≤ bn → (s.din i).addrs NDIRECT ≠ 0 := fun hle hz => hne (Dinode.slot_zero hle hz)
  constructor
  · exact Within.refl s i
  · exact hown
  · rfl
  · exact hne
  · rfl
  · exact fun _ _ _ => rfl
  · exact fun _ => rfl
  · exact fun hz => absurd hz hne
  · exact fun _ _ _ => rfl
  · rw [State.need, if_neg hne, if_neg fun h => hind h.1 h.2]
    rfl
  · constructor
    · exact fun hz => ⟨hz, Nat.lt_of_not_le fun hle => hind hle hz⟩
    · exact fun h => h.1
  · exact fun c h => h.mono

/-- A free block took the place of block `bn`, whose indirect block was there. -/
theorem Took.mapped (h : Took i bn b s t) (hbn : bn < MAXFILE) (hz : (s.din i).slot s.block bn = 0)
    (hind : NDIRECT ≤ bn → (s.din i).addrs NDIRECT ≠ 0) (hmem : b ∈ t.logged)
    (hroom : ∀ c, Room i (c + 1) s → Room i c t) : Mapped i bn b s t := by
  constructor
  · exact h.within hown hin
  · exact h.owned hown hin
  · exact h.din
  · exact hown.ne_zero h.free
  · rw [h.slot hbn, if_pos rfl]
  · intro k hk hne
    rw [h.slot hk, if_neg hne]
  · exact fun hne => absurd hz hne
  · exact fun _ => ⟨h.new, hmem⟩
  · exact fun k hk hne => h.data hown hin hk hne
  · rw [State.need, if_pos hz, if_neg fun hc => hind hc.1 hc.2]
    exact h.nfree
  · have haddr : (t.din i).addrs NDIRECT = (s.din i).addrs NDIRECT := by
      have href := h.ref MAXFILE
      rwa [if_neg (Nat.ne_of_gt hbn), Dinode.ref_indirect, Dinode.ref_indirect] at href
    rw [haddr]
    constructor
    · exact fun hz => ⟨hz, Nat.lt_of_not_le fun hle => hind hle hz⟩
    · exact fun h => h.1
  · exact hroom

/-- First the indirect block, then the block itself. -/
theorem Took.mapped_both {a : Nat} (h : Took i MAXFILE a s u) (hz : (s.din i).addrs NDIRECT = 0)
    (hle : NDIRECT ≤ bn) (h' : Mapped i bn b u t)
    (hslot : (u.din i).slot u.block bn = 0)
    (hroom : ∀ c, Room i c s → Room i c u) : Mapped i bn b s t := by
  have hw := h.within hown hin
  have hsame : ∀ k < MAXFILE, (u.din i).slot u.block k = (s.din i).slot s.block k := by
    intro k hk
    rw [h.slot hk, if_neg (Nat.ne_of_lt hk)]
  have hzero : (s.din i).slot s.block bn = 0 := Dinode.slot_zero hle hz
  have haddr : (u.din i).addrs NDIRECT ≠ 0 := by
    have href := h.ref MAXFILE
    rw [if_pos rfl, Dinode.ref_indirect] at href
    rw [href]
    exact hown.ne_zero h.free
  constructor
  · exact hw.trans h'.within
  · exact h'.owned
  · rw [h'.din, h.din]
  · exact h'.ne
  · exact h'.slot
  · intro k hk hne
    rw [h'.others k hk hne, hsame k hk]
  · exact fun hne => absurd hzero hne
  · exact fun _ => h'.new hslot
  · intro k hk hne
    have hk' := h'.data k hk
    rw [hsame k hk] at hk'
    rw [hk' hne, h.data hown hin hk hne]
  · have h1 := h'.nfree
    have h2 := h.nfree
    rw [State.need, if_pos hslot, if_neg fun hc => haddr hc.2] at h1
    rw [State.need, if_pos hzero, if_pos ⟨hle, hz⟩]
    omega
  · constructor
    · exact fun hc => absurd (h'.indirect.mp hc).1 haddr
    · exact fun hc => absurd hc.2 (Nat.not_lt.mpr hle)
  · exact fun c hc => h'.room c (hroom _ hc)

end Mapped

/-- `bmap`, for a block that the file can have. -/
theorem wp_bmap {bn : Nat} {Q : Nat → State → Prop} (hown : Owned s) (hin : InCore s i) (hheld : s.held = [])
    (hbn : bn < MAXFILE)
    (henough : (s.din i).slot s.block bn = 0 → (∀ e, E e) ∨ s.need i bn ≤ s.nfree ∧ Room i 1 s)
    (hQ : ∀ b t, Mapped i bn b s t → Q b t) : wp E (bmap i bn) Q s := by
  unfold bmap
  by_cases hdirect : bn < NDIRECT
  · rw [if_pos hdirect]
    have hslot : (s.din i).slot s.block bn = (s.din i).addrs bn := Dinode.slot_direct hdirect
    refine wp_addrOf hown hheld ?_ ?_ ?_
    · intro hz
      refine (henough (hslot.trans hz)).imp_right fun h => ⟨?_, h.2.mono⟩
      have hneed := h.1
      rw [State.need, if_pos (hslot.trans hz)] at hneed
      omega
    · intro hne
      have hmapped := mapped_old hown (hslot ▸ hne)
      rw [hslot] at hmapped
      exact hQ _ _ hmapped
    · intro hz b hb hfree
      have htook := took_assign hown hin (Nat.le_of_lt hdirect) hz hb hfree
      rw [if_neg (Nat.ne_of_lt hdirect)] at htook
      exact hQ b _ (htook.mapped hown hin hbn (hslot.trans hz) (fun hle => absurd hdirect (Nat.not_lt.mpr hle))
        (mem_alloc s b) fun c hc => room_assign hc (Nat.ne_of_lt hdirect))
  · rw [if_neg hdirect]
    have hle := Nat.le_of_not_lt hdirect
    have hw : bn - NDIRECT < NINDIRECT := Nat.sub_lt_left_of_lt_add hle hbn
    have hbnw : NDIRECT + (bn - NDIRECT) = bn := Nat.add_sub_cancel' hle
    rw [if_pos hw]
    -- the second half, with the indirect block there
    have hinner : ∀ u, Owned u → InCore u i → u.held = [] → (u.din i).addrs NDIRECT ≠ 0 →
        ((u.din i).slot u.block bn = 0 → (∀ e, E e) ∨ 0 < u.nfree ∧ Room i 1 u) →
        wp E (do
          let x ← bread ((u.din i).addrs NDIRECT)
          if x.word (bn - NDIRECT) = 0 then do
            let b ← balloc
            logWrite ((u.din i).addrs NDIRECT) (x.setWord (bn - NDIRECT) b)
            brelse ((u.din i).addrs NDIRECT)
            return b
          else do
            brelse ((u.din i).addrs NDIRECT)
            return x.word (bn - NDIRECT)) (fun b t => Mapped i bn b u t) u := by
      intro u hown hin hheld hind henough
      have hslot : (u.din i).slot u.block bn = (u.block ((u.din i).addrs NDIRECT)).word (bn - NDIRECT) :=
        Dinode.slot_indirect hle hind
      have href := Dinode.ref_indirect (u.din i) u.block
      have hdata := hown.ref_data hin (j := MAXFILE) (by rwa [href])
      have hused := hown.ref_used hin (j := MAXFILE) (by rwa [href])
      rw [href] at hdata hused
      have hstart := hown.geo.datastart
      refine wp_bind (wp_bread (Q := fun x v => x = u.block ((u.din i).addrs NDIRECT) ∧
        v = u.hold ((u.din i).addrs NDIRECT)) (Nat.lt_of_lt_of_le hdata.2 hown.geo.size) ?_ ⟨rfl, rfl⟩) ?_
      · rw [hheld]
        exact List.not_mem_nil
      rintro _ _ ⟨rfl, rfl⟩
      have hback : { u.hold ((u.din i).addrs NDIRECT) with held := [] } = u := held_self hheld
      by_cases hz : (u.block ((u.din i).addrs NDIRECT)).word (bn - NDIRECT) = 0
      · rw [if_pos hz]
        have hzero := hslot.trans hz
        refine wp_bind (P := fun b v => (b < u.sb.size ∧ u.marked b = false) ∧
          v = (u.alloc b).hold ((u.din i).addrs NDIRECT)) ?_ ?_
        · refine wp_balloc (s := u.hold ((u.din i).addrs NDIRECT)) hown.geo ?_ ?_ ?_
            fun b hb hfree => ⟨⟨hb, hfree⟩, rfl⟩
          · change u.sb.bmapstart ∉ (u.din i).addrs NDIRECT :: u.held
            rw [hheld, List.mem_singleton]
            omega
          · intro b _ hfree
            change b ∉ (u.din i).addrs NDIRECT :: u.held
            rw [hheld, List.mem_singleton]
            rintro rfl
            rw [show u.marked ((u.din i).addrs NDIRECT) = false from hfree] at hused
            cases hused
          · refine (henough hzero).imp_right fun h => ⟨exists_free h.1, ?_, fun x => ?_⟩
            · exact ⟨h.2.canLog.room, h.2.trans⟩
            · exact ⟨(h.2.put_bitmap (x := x)).canLog.room, h.2.trans⟩
        · rintro b _ ⟨⟨hb, hfree⟩, rfl⟩
          have htook := took_assignIn hown hin hw hind hb hfree
          rw [hbnw] at htook
          refine wp_bind (P := fun _ v => v = (u.assignIn i (bn - NDIRECT) b).hold ((u.din i).addrs NDIRECT))
            (wp_logWrite ?_ rfl) ?_
          · refine (henough hzero).imp_right fun h => ?_
            have hroom : Room i 0 (u.alloc b) := h.2.put_bitmap.put
            exact ⟨hroom.canLog.room, hroom.trans⟩
          · rintro _ _ rfl
            refine wp_bind (P := fun _ v => v = u.assignIn i (bn - NDIRECT) b) (wp_brelse rfl ?_) ?_
            · rfl
            · rintro _ _ rfl
              exact wp_pure (htook.mapped hown hin hbn hzero (fun _ => hind)
                (mem_put_of_mem (mem_alloc u b)) fun c hc => room_assignIn hc hind)
      · rw [if_neg hz]
        refine wp_bind (P := fun _ v => v = u) (wp_brelse (l := []) ?_ hback) ?_
        · change (u.din i).addrs NDIRECT :: u.held = _
          rw [hheld]
        · rintro _ _ rfl
          have hmapped := mapped_old hown (by rwa [hslot])
          rw [hslot] at hmapped
          exact wp_pure hmapped
    refine wp_bind (P := fun a u => a = (u.din i).addrs NDIRECT ∧ wp E (do
          let x ← bread ((u.din i).addrs NDIRECT)
          if x.word (bn - NDIRECT) = 0 then do
            let b ← balloc
            logWrite ((u.din i).addrs NDIRECT) (x.setWord (bn - NDIRECT) b)
            brelse ((u.din i).addrs NDIRECT)
            return b
          else do
            brelse ((u.din i).addrs NDIRECT)
            return x.word (bn - NDIRECT)) Q u) (wp_addrOf hown hheld ?_ ?_ ?_) ?_
    · intro hz
      refine (henough (Dinode.slot_zero hle hz)).imp_right fun h => ⟨?_, h.2.mono⟩
      have hneed := h.1
      rw [State.need, if_pos (Dinode.slot_zero hle hz)] at hneed
      omega
    · intro hind
      refine ⟨rfl, (hinner s hown hin hheld hind ?_).mono hQ⟩
      intro hz
      refine (henough hz).imp_right fun h => ⟨?_, h.2⟩
      have hneed := h.1
      rw [State.need, if_pos hz] at hneed
      omega
    · intro hz a ha hfree
      have htook := took_assign hown hin (Nat.le_refl NDIRECT) hz ha hfree
      rw [if_pos rfl] at htook
      have hw' := htook.within hown hin
      have haddr : ((s.assign i NDIRECT a).din i).addrs NDIRECT = a := by
        rw [assign_din, setAddr_self]
      have ha0 := hown.ne_zero hfree
      have hslot : ((s.assign i NDIRECT a).din i).slot (s.assign i NDIRECT a).block bn = 0 := by
        rw [htook.slot hbn, if_neg (Nat.ne_of_lt hbn), Dinode.slot_zero hle hz]
      have hroom : ∀ c, Room i c s → Room i c (s.assign i NDIRECT a) := fun c hc =>
        room_assign_indirect hc hz ha0
      refine ⟨haddr.symm, (hinner _ (htook.owned hown hin) (hin.within hw') hheld (by rwa [haddr]) ?_).mono
        fun b t hmapped => hQ b t (htook.mapped_both hown hin hz hle hmapped hslot hroom)⟩
      intro _
      refine (henough (Dinode.slot_zero hle hz)).imp_right fun h => ⟨?_, hroom 1 h.2⟩
      have hneed := h.1
      have hfree' := htook.nfree
      rw [State.need, if_pos (Dinode.slot_zero hle hz), if_pos ⟨hle, hz⟩] at hneed
      omega
    · rintro a u ⟨rfl, hrest⟩
      exact hrest

end Yonix.Fs
