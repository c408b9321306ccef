/-
  Yonix/Fs/Writei.lean
  ====================
  **Files are byte arrays.**

  `readi` and `writei` go through a file block by block.  A block that `bmap` has to allocate
  reads as zeroes before and after, so only the loop itself changes bytes: one round stores a
  piece of the source within one block (`Filled`), and rounds follow each other.  A file is
  read back as it was written, and no other file notices.
-/
import Yonix.Fs.Blocks

namespace Yonix.Fs

variable {s t u : State} {E : Stop → Prop} {i m k b bn off : Nat} {src : List UInt8}

/-! ### The blocks of a piece of a file -/

/-- The blocks with the `n` bytes from `off` on. -/
def blocksOf (off n : Nat) : Finset Nat := (Finset.Ico off (off + n)).image (· / BSIZE)

theorem mem_blocksOf {n : Nat} : bn ∈ blocksOf off n ↔ ∃ k, off ≤ k ∧ k < off + n ∧ k / BSIZE = bn := by
  unfold blocksOf
  rw [Finset.mem_image]
  constructor
  · rintro ⟨k, hk, rfl⟩
    rw [Finset.mem_Ico] at hk
    exact ⟨k, hk.1, hk.2, rfl⟩
  · rintro ⟨k, h1, h2, rfl⟩
    exact ⟨k, Finset.mem_Ico.mpr ⟨h1, h2⟩, rfl⟩

/-- The first block and the blocks of the rest. -/
theorem blocksOf_split {n r : Nat} (hr : 0 < r) (hrn : r = min n (BSIZE - off % BSIZE)) :
    blocksOf off n = insert (off / BSIZE) (blocksOf (off + r) (n - r)) ∧
      off / BSIZE ∉ blocksOf (off + r) (n - r) := by
  have hmod := Nat.div_add_mod off BSIZE
  unfold BSIZE at *
  constructor
  · ext x
    rw [Finset.mem_insert, mem_blocksOf, mem_blocksOf]
    unfold BSIZE
    constructor
    · rintro ⟨k, h1, h2, rfl⟩
      by_cases hk : k < off + r
      · left
        omega
      · exact Or.inr ⟨k, by omega, by omega, rfl⟩
    · rintro (rfl | ⟨k, h1, h2, rfl⟩)
      · exact ⟨off, Nat.le_refl _, by omega, rfl⟩
      · exact ⟨k, by omega, by omega, rfl⟩
  · rw [mem_blocksOf]
    unfold BSIZE
    rintro ⟨k, h1, h2, h3⟩
    omega

/-- The blocks that have to be allocated for the piece. -/
def State.missing (s : State) (i off n : Nat) : Nat :=
  ((blocksOf off n).filter fun bn => (s.din i).slot s.block bn = 0).card +
    if (s.din i).addrs NDIRECT = 0 ∧ ∃ bn ∈ blocksOf off n, NDIRECT ≤ bn then 1 else 0

/-! ### One round -/

/-- The bytes `src` were stored from `off` on in the file in slot `i`. -/
structure Filled (i off : Nat) (src : List UInt8) (s t : State) : Prop where
  within : Within i s t
  owned : Owned t
  din : t.din i = { s.din i with addrs := (t.din i).addrs }
  old : ∀ bn < MAXFILE, (s.din i).slot s.block bn ≠ 0 → (t.din i).slot t.block bn ≠ 0
  new : ∀ bn ∈ blocksOf off src.length, (t.din i).slot t.block bn ≠ 0
  stored : ∀ k < src.length, (t.din i).byte t.block (off + k) = src.getD k 0
  others : ∀ k < MAXFILE * BSIZE, k < off ∨ off + src.length ≤ k →
    (t.din i).byte t.block k = (s.din i).byte s.block k

theorem Filled.nil (hown : Owned s) : Filled i off [] s s := by
  refine ⟨Within.refl s i, hown, rfl, fun _ _ h => h, ?_, ?_, fun _ _ _ => rfl⟩
  · intro bn hbn
    rcases mem_blocksOf.mp hbn with ⟨k, h1, h2, -⟩
    exact absurd h2 (Nat.not_lt.mpr h1)
  · intro k hk
    exact absurd hk (Nat.not_lt_zero k)

theorem Filled.trans {l : List UInt8} (h : Filled i off l s t) (h' : Filled i (off + l.length) src t u)
    (hend : off + l.length + src.length ≤ MAXFILE * BSIZE) : Filled i off (l ++ src) s u := by
  have hlen : (l ++ src).length = l.length + src.length := List.length_append
  constructor
  · exact h.within.trans h'.within
  · exact h'.owned
  · rw [h'.din, h.din]
  · exact fun bn hbn hne => h'.old bn hbn (h.old bn hbn hne)
  · intro bn hbn
    rcases mem_blocksOf.mp hbn with ⟨k, h1, h2, hk⟩
    rw [hlen] at h2
    rcases Nat.lt_or_ge k (off + l.length) with hlt | hge
    · refine h'.old bn ?_ (h.new bn (mem_blocksOf.mpr ⟨k, h1, hlt, hk⟩))
      rw [← hk]
      exact Nat.div_lt_of_lt_mul (by rw [Nat.mul_comm]; omega)
    · exact h'.new bn (mem_blocksOf.mpr ⟨k, hge, by omega, hk⟩)
  · intro k hk
    rw [hlen] at hk
    rcases Nat.lt_or_ge k l.length with hlt | hge
    · rw [h'.others (off + k) (by omega) (Or.inl (by omega)), h.stored k hlt,
        List.getD_append _ _ _ _ hlt]
    · have hst := h'.stored (k - l.length) (by omega)
      rw [show off + l.length + (k - l.length) = off + k by omega] at hst
      rw [hst, List.getD_append_right _ _ _ _ hge]
  · intro k hk hout
    rw [hlen] at hout
    rw [h'.others k hk (by omega), h.others k hk (by omega)]

/-- `bmap` changes no byte. -/
theorem Mapped.byte (h : Mapped i bn b s t) (hk : k < MAXFILE * BSIZE) :
    (t.din i).byte t.block k = (s.din i).byte s.block k := by
  have hkb : k / BSIZE < MAXFILE := Nat.div_lt_of_lt_mul (by rwa [Nat.mul_comm])
  by_cases hold : (s.din i).slot s.block bn = 0
  · by_cases hkbn : k / BSIZE = bn
    · rcases h.new hold with ⟨hzero, -⟩
      unfold Dinode.byte
      rw [hkbn, if_pos hold, h.slot, if_neg h.ne, hzero, Bytes.get_zero]
    · exact Dinode.byte_congr (h.others _ hkb hkbn) fun hne => h.data _ hkb hne
  · rw [h.old hold]

section Put

variable {x : Block} (hown : Owned s) (hin : InCore s i) (hbn : bn < MAXFILE) (hslot : (s.din i).slot s.block bn = b)
include hown hin hbn hslot

theorem ref_put (j : Nat) : (s.din i).ref (s.put b x).block j = (s.din i).ref s.block j := by
  refine Dinode.ref_congr rfl fun hind => put_block_ne ?_
  rw [← Dinode.ref_indirect _ s.block] at hind ⊢
  rw [← hslot, ← Dinode.ref_slot hbn]
  intro heq
  exact Nat.ne_of_gt hbn (hown.ref_alone hin hind heq)

variable (hb : b ≠ 0)
include hb

/-- A block of the file is written. -/
theorem within_put : Within i s (s.put b x) := by
  have href : (s.din i).ref s.block bn = b := (Dinode.ref_slot hbn).trans hslot
  have hdata := hown.ref_data hin (j := bn) (by rwa [href])
  rw [href] at hdata
  have hstart := hown.geo.datastart
  constructor
  · exact over_self (s.put b x) i
  · rfl
  · intro m hm _
    have hlt := hown.geo.inodes m hm
    unfold State.disk
    rw [put_block_ne (by change s.sb.iblock m ≠ b; omega)]
    rfl
  · intro k _ _ _ hown'
    apply put_block_ne
    rintro rfl
    exact hown' bn href
  · intro k hk hmark
    have hne : s.sb.bmapstart ≠ b := by omega
    have hgeo : Geometry (s.put b x).sb := hown.geo
    rw [hown.geo.marked hk] at hmark
    rw [hgeo.marked hk]
    change ((s.put b x).block s.sb.bmapstart).bit k = true
    rwa [put_block_ne hne]
  · intro j _
    exact Or.inl ⟨j, (ref_put hown hin hbn hslot j).symm⟩

theorem owned_put : Owned (s.put b x) := by
  have hw := within_put (x := x) hown hin hbn hslot hb
  refine hw.owned hown hin ?_ ?_
  · intro j k hj heq
    change (s.din i).ref (s.put b x).block j ≠ 0 at hj
    change (s.din i).ref (s.put b x).block j = (s.din i).ref (s.put b x).block k at heq
    rw [ref_put hown hin hbn hslot] at hj heq
    rw [ref_put hown hin hbn hslot] at heq
    exact hown.ref_alone hin hj heq
  · intro j hj
    change (s.din i).ref (s.put b x).block j ≠ 0 at hj
    change _ ≤ (s.din i).ref (s.put b x).block j ∧ (s.din i).ref (s.put b x).block j < _ ∧
      (s.put b x).marked ((s.din i).ref (s.put b x).block j) = true
    rw [ref_put hown hin hbn hslot] at hj ⊢
    have hdata := hown.ref_data hin hj
    exact ⟨hdata.1, hdata.2, hw.marks _ hdata.2 (hown.ref_used hin hj)⟩

omit hb in
theorem slot_put (j : Nat) (hj : j < MAXFILE) : (s.din i).slot (s.put b x).block j = (s.din i).slot s.block j := by
  rw [← Dinode.ref_slot hj, ref_put hown hin hbn hslot, Dinode.ref_slot hj]

theorem byte_put (hk : k < MAXFILE * BSIZE) : (s.din i).byte (s.put b x).block k =
    if k / BSIZE = bn then x.get (k % BSIZE) else (s.din i).byte s.block k := by
  have hkb : k / BSIZE < MAXFILE := Nat.div_lt_of_lt_mul (by rwa [Nat.mul_comm])
  by_cases hkbn : k / BSIZE = bn
  · unfold Dinode.byte
    rw [if_pos hkbn, slot_put hown hin hbn hslot _ hkb, hkbn, hslot, if_neg hb, put_block_self]
  · rw [if_neg hkbn]
    refine Dinode.byte_congr (slot_put hown hin hbn hslot _ hkb) fun hne => put_block_ne ?_
    intro heq
    rw [← hslot, ← Dinode.ref_slot hkb, ← Dinode.ref_slot hbn] at heq
    rw [← Dinode.ref_slot hkb] at hne
    exact hkbn (hown.ref_alone hin hne heq)

end Put

/-- One round: `bmap`, and `r` bytes of the source in the block. -/
theorem Mapped.filled {r : Nat} (h : Mapped i (off / BSIZE) b s t) (hin : InCore s i)
    (hr : 0 < r) (hrn : r = min src.length (BSIZE - off % BSIZE)) (hend : off + src.length ≤ MAXFILE * BSIZE) :
    Filled i off (src.take r) s
      (t.put b ((t.block b).patch (off % BSIZE) (fun j => src.getD j 0) r)) := by
  have hin' := hin.within h.within
  have hlen : (src.take r).length = r := by
    rw [List.length_take]
    omega
  have hmod := Nat.div_add_mod off BSIZE
  have hbn : off / BSIZE < MAXFILE := Nat.div_lt_of_lt_mul (by rw [Nat.mul_comm]; omega)
  have hin_block : ∀ k, off ≤ k → k < off + r → k / BSIZE = off / BSIZE := by
    intro k h1 h2
    unfold BSIZE at *
    omega
  have hbyte : ∀ k, k < MAXFILE * BSIZE →
      (t.din i).byte (t.put b ((t.block b).patch (off % BSIZE) (fun j => src.getD j 0) r)).block k =
        if off ≤ k ∧ k < off + r then src.getD (k - off) 0 else (s.din i).byte s.block k := by
    intro k hk
    have hkmod := Nat.div_add_mod k BSIZE
    have hklt : k % BSIZE < BSIZE := Nat.mod_lt _ (by decide)
    rw [byte_put h.owned hin' hbn h.slot h.ne hk]
    by_cases hkbn : k / BSIZE = off / BSIZE
    · rw [if_pos hkbn, Bytes.get_patch _ _ _ _ hklt]
      rw [hkbn] at hkmod
      by_cases hkr : off ≤ k ∧ k < off + r
      · rw [if_pos hkr, if_pos (by omega)]
        congr 1
        omega
      · rw [if_neg hkr, if_neg (by omega), ← h.byte hk]
        unfold Dinode.byte
        rw [hkbn, h.slot, if_neg h.ne]
    · rw [if_neg hkbn, if_neg (fun hc => hkbn (hin_block k hc.1 hc.2)), h.byte hk]
  constructor
  · exact h.within.trans (within_put h.owned hin' hbn h.slot h.ne)
  · exact owned_put h.owned hin' hbn h.slot h.ne
  · exact h.din
  · intro k hk hne
    change (t.din i).slot (t.put b _).block k ≠ 0
    rw [slot_put h.owned hin' hbn h.slot k hk]
    by_cases hkb : k = off / BSIZE
    · rw [hkb, h.slot]
      exact h.ne
    · rwa [h.others k hk hkb]
  · intro k hk
    rcases mem_blocksOf.mp hk with ⟨l, h1, h2, rfl⟩
    rw [hlen] at h2
    change (t.din i).slot (t.put b _).block _ ≠ 0
    rw [hin_block l h1 h2, slot_put h.owned hin' hbn h.slot _ hbn, h.slot]
    exact h.ne
  · intro k hk
    rw [hlen] at hk
    change (t.din i).byte (t.put b _).block (off + k) = _
    rw [hbyte _ (by omega), if_pos (by omega), Nat.add_sub_cancel_left, List.getD_eq_getElem?_getD,
      List.getD_eq_getElem?_getD, List.getElem?_take_of_lt hk]
  · intro k hk hout
    rw [hlen] at hout
    change (t.din i).byte (t.put b _).block k = _
    rw [hbyte k hk, if_neg (by omega)]

theorem Room.le {c c' : Nat} (h : Room i c s) (hle : c' ≤ c) : Room i c' s :=
  ⟨by have := h.room; omega, h.trans⟩

/-- The rest of the blocks is still there. -/
theorem Mapped.missing {n r : Nat} {x : Block} (h : Mapped i (off / BSIZE) b s t) (hin : InCore s i)
    (hr : 0 < r) (hrn : r = min n (BSIZE - off % BSIZE)) (hend : off + n ≤ MAXFILE * BSIZE) :
    s.missing i off n = s.need i (off / BSIZE) + (t.put b x).missing i (off + r) (n - r) := by
  rcases blocksOf_split hr hrn with ⟨hsplit, hnot⟩
  have hmod := Nat.div_add_mod off BSIZE
  have hbn : off / BSIZE < MAXFILE := Nat.div_lt_of_lt_mul (by rw [Nat.mul_comm]; omega)
  have hin' := hin.within h.within
  have hslots : ∀ k ∈ blocksOf (off + r) (n - r),
      ((t.put b x).din i).slot (t.put b x).block k = (s.din i).slot s.block k := by
    intro k hk
    rcases mem_blocksOf.mp hk with ⟨l, -, h2, hl⟩
    have hkM : k < MAXFILE := by
      rw [← hl]
      exact Nat.div_lt_of_lt_mul (by rw [Nat.mul_comm]; omega)
    change (t.din i).slot (t.put b x).block k = _
    rw [slot_put h.owned hin' hbn h.slot k hkM, h.others k hkM]
    rintro rfl
    exact hnot hk
  have hfilter : (blocksOf (off + r) (n - r)).filter
      (fun k => ((t.put b x).din i).slot (t.put b x).block k = 0) =
      (blocksOf (off + r) (n - r)).filter fun k => (s.din i).slot s.block k = 0 :=
    Finset.filter_congr fun k hk => by rw [hslots k hk]
  have hind : ((t.put b x).din i).addrs NDIRECT = 0 ↔ (s.din i).addrs NDIRECT = 0 ∧ off / BSIZE < NDIRECT :=
    h.indirect
  unfold State.missing State.need
  rw [hfilter, hsplit, Finset.filter_insert]
  have hcard : (if (s.din i).slot s.block (off / BSIZE) = 0 then
      insert (off / BSIZE) ((blocksOf (off + r) (n - r)).filter fun k => (s.din i).slot s.block k = 0)
      else (blocksOf (off + r) (n - r)).filter fun k => (s.din i).slot s.block k = 0).card =
      (if (s.din i).slot s.block (off / BSIZE) = 0 then 1 else 0) +
        ((blocksOf (off + r) (n - r)).filter fun k => (s.din i).slot s.block k = 0).card := by
    split
    · rw [Finset.card_insert_of_notMem (fun hc => hnot (Finset.mem_of_mem_filter _ hc)), Nat.add_comm]
    · rw [Nat.zero_add]
  rw [hcard]
  have hrest : (if (s.din i).addrs NDIRECT = 0 ∧
        ∃ k ∈ insert (off / BSIZE) (blocksOf (off + r) (n - r)), NDIRECT ≤ k then 1 else 0) =
      (if NDIRECT ≤ off / BSIZE ∧ (s.din i).addrs NDIRECT = 0 then 1 else 0) +
        if ((t.put b x).din i).addrs NDIRECT = 0 ∧
          ∃ k ∈ blocksOf (off + r) (n - r), NDIRECT ≤ k then 1 else 0 := by
    by_cases hz : (s.din i).addrs NDIRECT = 0
    · by_cases hle : NDIRECT ≤ off / BSIZE
      · rw [if_pos ⟨hz, _, Finset.mem_insert_self _ _, hle⟩, if_pos ⟨hle, hz⟩,
          if_neg fun hc => absurd (hind.mp hc.1).2 (Nat.not_lt.mpr hle)]
      · rw [if_neg (fun hc : NDIRECT ≤ off / BSIZE ∧ (s.din i).addrs NDIRECT = 0 => hle hc.1), Nat.zero_add]
        refine if_congr ?_ rfl rfl
        rw [hind]
        constructor
        · rintro ⟨_, k, hk, hkN⟩
          rcases Finset.mem_insert.mp hk with rfl | hk
          · exact absurd hkN hle
          · exact ⟨⟨hz, Nat.lt_of_not_le hle⟩, k, hk, hkN⟩
        · rintro ⟨_, k, hk, hkN⟩
          exact ⟨hz, k, Finset.mem_insert_of_mem hk, hkN⟩
    · rw [if_neg (fun hc => hz hc.1),
        if_neg (fun hc : NDIRECT ≤ off / BSIZE ∧ (s.din i).addrs NDIRECT = 0 => hz hc.2),
        if_neg (fun hc => hz (hind.mp hc.1).1)]
  rw [hrest]
  omega

/-! ### The loops -/

theorem nfree_put {x : Block} (hown : Owned s) (hin : InCore s i) (hbn : bn < MAXFILE)
    (hslot : (s.din i).slot s.block bn = b) (hb : b ≠ 0) : (s.put b x).nfree = s.nfree := by
  have hdata := hown.ref_data hin (j := bn) (by rwa [Dinode.ref_slot hbn, hslot])
  rw [Dinode.ref_slot hbn, hslot] at hdata
  have hstart := hown.geo.datastart
  unfold State.nfree
  refine congrArg Finset.card (Finset.filter_congr fun k hk => ?_)
  have hgeo : Geometry (s.put b x).sb := hown.geo
  have hk' : k < s.sb.size := Finset.mem_range.mp hk
  rw [hown.geo.marked hk', hgeo.marked hk']
  change ((s.put b x).block s.sb.bmapstart).bit k = false ↔ _
  rw [put_block_ne (by omega)]

/-- The loop of `writei` stores the source, if there are enough blocks and room in the log. -/
theorem wp_writeLoop (k : Nat) : ∀ (off : Nat) (src : List UInt8) (s : State), src.length ≤ k →
    Owned s → InCore s i → s.held = [] → off + src.length ≤ MAXFILE * BSIZE →
    ((∀ e, E e) ∨ s.missing i off src.length ≤ s.nfree ∧ Room i (blocksOf off src.length).card s) →
    wp E (writeLoop i k off src) (fun _ t => Filled i off src s t ∧
      ∀ c, Room i ((blocksOf off src.length).card + c) s → Room i c t) s := by
  induction k with
  | zero =>
    intro off src s hk hown _ _ _ _
    obtain rfl : src = [] := List.length_eq_zero_iff.mp (Nat.le_zero.mp hk)
    exact wp_pure ⟨Filled.nil hown, fun c hc => hc.le (Nat.le_add_left _ _)⟩
  | succ k ih =>
    intro off src s hk hown hin hheld hend henough
    unfold writeLoop
    by_cases hnil : src = []
    · rw [if_pos hnil]
      subst hnil
      exact wp_pure ⟨Filled.nil hown, fun c hc => hc.le (Nat.le_add_left _ _)⟩
    · rw [if_neg hnil]
      have hpos : 0 < src.length := List.length_pos_of_ne_nil hnil
      have hmodlt : off % BSIZE < BSIZE := Nat.mod_lt _ (by decide)
      have hbn : off / BSIZE < MAXFILE := Nat.div_lt_of_lt_mul (by rw [Nat.mul_comm]; omega)
      obtain ⟨r, hrn⟩ : ∃ r, r = min src.length (BSIZE - off % BSIZE) := ⟨_, rfl⟩
      have hr : 0 < r := by omega
      rcases blocksOf_split hr hrn with ⟨hsplit, hnot⟩
      have hcard : (blocksOf off src.length).card = (blocksOf (off + r) (src.length - r)).card + 1 := by
        rw [hsplit, Finset.card_insert_of_notMem hnot]
      refine wp_bind (P := fun b u => Mapped i (off / BSIZE) b s u) (wp_bmap hown hin hheld hbn ?_
        fun b t h => h) ?_
      · intro hz
        refine henough.imp_right fun h => ⟨?_, h.2.le (by omega)⟩
        have hneed := h.1
        have hle : s.need i (off / BSIZE) ≤ s.missing i off src.length := by
          unfold State.need State.missing
          refine Nat.add_le_add ?_ ?_
          · rw [if_pos hz]
            refine Finset.card_pos.mpr ⟨off / BSIZE, Finset.mem_filter.mpr ⟨?_, hz⟩⟩
            rw [hsplit]
            exact Finset.mem_insert_self _ _
          · by_cases hc : NDIRECT ≤ off / BSIZE ∧ (s.din i).addrs NDIRECT = 0
            · rw [if_pos hc, if_pos ⟨hc.2, off / BSIZE, by rw [hsplit]; exact Finset.mem_insert_self _ _, hc.1⟩]
            · rw [if_neg hc]
              exact Nat.zero_le _
        omega
      · intro b t hmap
        have hin' := hin.within hmap.within
        have hheld' : t.held = [] := (over_held hmap.within.rest).trans hheld
        have hbdata := hmap.owned.ref_data hin' (j := off / BSIZE)
          (by rw [Dinode.ref_slot hbn, hmap.slot]; exact hmap.ne)
        rw [Dinode.ref_slot hbn, hmap.slot] at hbdata
        -- a new block is in the log already
        have hroom : ∀ c, Room i (c + 1) s → t.CanLog ∧ ∀ x, Room i c (t.put b x) := by
          intro c hc
          by_cases hz : (s.din i).slot s.block (off / BSIZE) = 0
          · exact ⟨(hmap.room c hc).canLog, fun x => (hmap.room c hc).put_mem (hmap.new hz).2⟩
          · rw [hmap.old hz]
            exact ⟨hc.canLog, fun x => hc.put⟩
        refine wp_bind (wp_bread (Q := fun x v => x = t.block b ∧ v = t.hold b)
          (Nat.lt_of_lt_of_le hbdata.2 hmap.owned.geo.size) (by rw [hheld']; exact List.not_mem_nil)
          ⟨rfl, rfl⟩) ?_
        rintro _ _ ⟨rfl, rfl⟩
        dsimp only
        rw [← hrn]
        obtain ⟨x, hx⟩ : ∃ x, x = (t.block b).patch (off % BSIZE) (fun j => src.getD j 0) r := ⟨_, rfl⟩
        have hfill := hmap.filled hin hr hrn hend
        rw [← hx] at hfill ⊢
        refine wp_bind (P := fun _ v => v = (t.hold b).put b x) (wp_logWrite ?_ rfl) ?_
        · refine henough.imp_right fun h => ?_
          rcases hroom _ (h.2.le (Nat.le_of_eq hcard.symm)) with ⟨hcan, -⟩
          exact ⟨hcan.room, hcan.trans⟩
        rintro _ _ rfl
        refine wp_bind (P := fun _ v => v = t.put b x) (wp_brelse rfl rfl) ?_
        rintro _ _ rfl
        have hlen : (src.drop r).length = src.length - r := List.length_drop
        have hlen' : (src.take r).length = r := by
          rw [List.length_take]
          omega
        have hmissing := hmap.missing (x := x) hin hr hrn hend
        have hloop := ih (off + r) (src.drop r) (t.put b x) (by omega) hfill.owned
          (hin.within hfill.within) hheld' (by omega) (by
            refine henough.imp_right fun h => ⟨?_, ?_⟩
            · rw [hlen, nfree_put hmap.owned hin' hbn hmap.slot hmap.ne]
              have h1 := hmap.nfree
              have h2 := h.1
              omega
            · rw [hlen]
              exact (hroom _ (h.2.le (Nat.le_of_eq hcard.symm))).2 x)
        apply hloop.mono
        rintro _ v ⟨hrest, hroom'⟩
        constructor
        · have htrans : Filled i off (src.take r ++ src.drop r) s v := hfill.trans (by rwa [hlen']) (by omega)
          rwa [List.take_append_drop] at htrans
        · intro c hc
          rw [hlen] at hroom'
          exact hroom' c ((hroom _ (hc.le (by omega))).2 x)

/-! ### The copy on disk -/

/-- `iupdate`. -/
def State.sync (s : State) (i : Nat) : State :=
  s.put (s.sb.iblock (s.inum i)) (putDinode (s.block (s.sb.iblock (s.inum i))) (s.inum i) (s.din i))

theorem wp_iupdate {Q : Unit → State → Prop} (hgeo : Geometry s.sb) (hm : s.inum i < s.sb.ninodes) (hheld : s.held = [])
    (hroom : (∀ e, E e) ∨ s.CanLog) (hQ : Q () (s.sync i)) : wp E (iupdate i) Q s := by
  have hlt : s.sb.iblock (s.inum i) < FSSIZE :=
    Nat.lt_of_lt_of_le (Nat.lt_trans (hgeo.inodes _ hm) hgeo.bmap_lt) hgeo.size
  unfold iupdate
  apply wp_get_bind
  refine wp_bind (wp_bread (Q := fun x v => x = s.block (s.sb.iblock (s.inum i)) ∧
    v = s.hold (s.sb.iblock (s.inum i))) hlt (by rw [hheld]; exact List.not_mem_nil) ⟨rfl, rfl⟩) ?_
  rintro _ _ ⟨rfl, rfl⟩
  exact wp_put hroom hQ

theorem setDin_din (s : State) (i : Nat) (d : Dinode) : (s.setDin i d).din i = d :=
  congrArg Inode.din (setInode_self s i { s.icache i with din := d })

theorem setDin_inum (s : State) (i : Nat) (d : Dinode) : (s.setDin i d).inum i = s.inum i := by
  unfold State.inum State.setDin
  rw [setInode_self]

section Sync

variable {d : Dinode} (hown : Owned s) (hin : InCore s i) (ha : d.addrs = (s.din i).addrs)
include hown hin ha

/-- The fields of the inode change, but not what it refers to. -/
theorem ref_sync (j : Nat) : d.ref ((s.setDin i d).sync i).block j = (s.din i).ref s.block j := by
  refine Dinode.ref_congr ha fun hind => ?_
  have hdata := hown.ref_data hin (j := MAXFILE) (by rwa [Dinode.ref_indirect])
  rw [Dinode.ref_indirect] at hdata
  have hstart := hown.geo.datastart
  have hlt := hown.geo.inodes _ hin.inum
  refine put_block_ne (s := s.setDin i d) ?_
  rw [setDin_inum]
  change (s.din i).addrs NDIRECT ≠ s.sb.iblock (s.inum i)
  omega

omit ha in
theorem block_sync (hb : s.sb.bmapstart ≤ b) : ((s.setDin i d).sync i).block b = s.block b := by
  have hlt := hown.geo.inodes _ hin.inum
  refine put_block_ne (s := s.setDin i d) ?_
  rw [setDin_inum]
  change b ≠ s.sb.iblock (s.inum i)
  omega

theorem within_sync (htype : d.type = (s.din i).type) : Within i s ((s.setDin i d).sync i) := by
  have hdin : ((s.setDin i d).sync i).din i = d := setDin_din s i d
  have hstart := hown.geo.datastart
  constructor
  · unfold State.over
    rw [hdin]
    rfl
  · rw [hdin, htype]
  · intro m hm hne
    unfold State.disk State.sync
    rw [setDin_inum, setDin_din]
    change dinodeOf (((s.setDin i d).put (s.sb.iblock (s.inum i)) _).block (s.sb.iblock m)) m = dinodeOf _ m
    by_cases hb : s.sb.iblock m = s.sb.iblock (s.inum i)
    · rw [hb, put_block_self]
      refine dinodeOf_putDinode_ne _ _ fun hmod => hne ?_
      unfold Superblock.iblock at hb
      rw [← Nat.div_add_mod m IPB, ← Nat.div_add_mod (s.inum i) IPB, hmod, Nat.add_right_cancel hb]
    · rw [put_block_ne hb]
      rfl
  · intro b hb _ _ _
    exact block_sync hown hin (by omega)
  · intro b hb hmark
    have hgeo : Geometry ((s.setDin i d).sync i).sb := hown.geo
    rw [hown.geo.marked hb] at hmark
    rw [hgeo.marked hb]
    change (((s.setDin i d).sync i).block s.sb.bmapstart).bit b = true
    rwa [block_sync hown hin (Nat.le_refl _)]
  · intro j _
    rw [hdin, ref_sync hown hin ha]
    exact Or.inl ⟨j, rfl⟩

theorem owned_sync (htype : d.type = (s.din i).type) : Owned ((s.setDin i d).sync i) := by
  have hw := within_sync hown hin ha htype
  have hdin : ((s.setDin i d).sync i).din i = d := setDin_din s i d
  refine hw.owned hown hin ?_ ?_
  · intro j k hj heq
    rw [hdin, ref_sync hown hin ha] at hj
    rw [hdin, ref_sync hown hin ha, ref_sync hown hin ha] at heq
    exact hown.ref_alone hin hj heq
  · intro j hj
    rw [hdin, ref_sync hown hin ha] at hj ⊢
    have hdata := hown.ref_data hin hj
    exact ⟨hdata.1, hdata.2, hw.marks _ hdata.2 (hown.ref_used hin hj)⟩

theorem slot_sync (hk : k < MAXFILE) : d.slot ((s.setDin i d).sync i).block k = (s.din i).slot s.block k := by
  rw [← Dinode.ref_slot hk, ref_sync hown hin ha, Dinode.ref_slot hk]

theorem byte_sync (hk : k < MAXFILE * BSIZE) :
    d.byte ((s.setDin i d).sync i).block k = (s.din i).byte s.block k := by
  have hkb : k / BSIZE < MAXFILE := Nat.div_lt_of_lt_mul (by rwa [Nat.mul_comm])
  refine Dinode.byte_congr (slot_sync hown hin ha hkb) fun hne => ?_
  have hdata := hown.ref_data hin (j := k / BSIZE) (by rwa [Dinode.ref_slot hkb])
  rw [Dinode.ref_slot hkb] at hdata
  have hstart := hown.geo.datastart
  exact block_sync hown hin (by omega)

end Sync

/-! ### Reading -/

/-- The blocks of the file in slot `i` are on the disk: all that reading needs. -/
def OnDisk (s : State) (i : Nat) : Prop :=
  ∀ j, (s.din i).ref s.block j ≠ 0 → (s.din i).ref s.block j < FSSIZE

theorem Owned.onDisk (hown : Owned s) (hin : InCore s i) : OnDisk s i :=
  fun _ hj => Nat.lt_of_lt_of_le (hown.ref_data hin hj).2 hown.geo.size

theorem OnDisk.slot {bn : Nat} (h : OnDisk s i) (hbn : bn < MAXFILE) (hne : (s.din i).slot s.block bn ≠ 0) :
    (s.din i).slot s.block bn < FSSIZE := by
  rw [← Dinode.ref_slot hbn] at hne ⊢
  exact h bn hne

/-- A block that is there is found, and nothing changes. -/
theorem bmap_old {bn : Nat} (h : OnDisk s i) (hheld : s.held = []) (hbn : bn < MAXFILE)
    (hne : (s.din i).slot s.block bn ≠ 0) : bmap i bn s = .ok ((s.din i).slot s.block bn, s) := by
  have hold : ∀ j, (s.din i).addrs j ≠ 0 → addrOf i j s = .ok ((s.din i).addrs j, s) := by
    intro j hj
    unfold addrOf
    rw [get_bind, if_neg hj]
    rfl
  unfold bmap
  by_cases hdirect : bn < NDIRECT
  · rw [if_pos hdirect]
    rw [Dinode.slot_direct hdirect] at hne ⊢
    exact hold bn hne
  · have hle := Nat.le_of_not_lt hdirect
    have hind : (s.din i).addrs NDIRECT ≠ 0 := fun hz => hne (Dinode.slot_zero hle hz)
    have href := Dinode.ref_indirect (s.din i) s.block
    have hlt : (s.din i).addrs NDIRECT < FSSIZE := href ▸ h MAXFILE (href ▸ hind)
    rw [Dinode.slot_indirect hle hind] at hne ⊢
    rw [if_neg hdirect, if_pos (Nat.sub_lt_left_of_lt_add hle hbn)]
    refine code_bind.mpr ⟨_, _, hold NDIRECT hind, ?_⟩
    refine code_bind.mpr ⟨_, _, bread_ok hlt hheld, ?_⟩
    rw [if_neg hne]
    refine code_bind.mpr ⟨_, _, brelse_ok rfl, ?_⟩
    exact congrArg (fun t => Except.ok (_, t)) (held_self hheld)

theorem wp_readLoop (hdisk : OnDisk s i) (hheld : s.held = []) (k : Nat) : ∀ off n : Nat, n ≤ k →
    off + n ≤ MAXFILE * BSIZE → (∀ bn ∈ blocksOf off n, (s.din i).slot s.block bn ≠ 0) →
    wp E (readLoop i k off n) (fun r t => t = s ∧
      r = (List.range n).map fun j => (s.din i).byte s.block (off + j)) s := by
  induction k with
  | zero =>
    intro off n hk _ _
    obtain rfl : n = 0 := Nat.le_zero.mp hk
    exact wp_pure ⟨rfl, rfl⟩
  | succ k ih =>
    intro off n hk hend hslots
    unfold readLoop
    by_cases hn : n = 0
    · rw [if_pos hn]
      subst hn
      exact wp_pure ⟨rfl, rfl⟩
    · rw [if_neg hn]
      have hmodlt : off % BSIZE < BSIZE := Nat.mod_lt _ (by decide)
      have hdiv := Nat.div_add_mod off BSIZE
      have hbn : off / BSIZE < MAXFILE := Nat.div_lt_of_lt_mul (by rw [Nat.mul_comm]; omega)
      obtain ⟨r, hrn⟩ : ∃ r, r = min n (BSIZE - off % BSIZE) := ⟨_, rfl⟩
      rcases blocksOf_split (by omega) hrn with ⟨hsplit, -⟩
      have hne : (s.din i).slot s.block (off / BSIZE) ≠ 0 :=
        hslots _ (by rw [hsplit]; exact Finset.mem_insert_self _ _)
      refine wp_bind (P := fun b u => u = s ∧ b = (s.din i).slot s.block (off / BSIZE))
        (wp_of_ok (bmap_old hdisk hheld hbn hne) ⟨rfl, rfl⟩) ?_
      intro b u hbu
      rw [hbu.1, hbu.2]
      refine wp_bind (wp_bread (Q := fun x v => x = s.block ((s.din i).slot s.block (off / BSIZE)) ∧
        v = s.hold ((s.din i).slot s.block (off / BSIZE))) (hdisk.slot hbn hne)
        (by rw [hheld]; exact List.not_mem_nil) ⟨rfl, rfl⟩) ?_
      rintro _ _ ⟨rfl, rfl⟩
      refine wp_bind (P := fun _ v => v = s) (wp_brelse rfl rfl) ?_
      intro _ v hv
      rw [hv]
      dsimp only
      rw [← hrn]
      refine wp_bind (ih (off + r) (n - r) (by omega) (by omega)
        fun bn hmem => hslots bn (by rw [hsplit]; exact Finset.mem_insert_of_mem hmem)) ?_
      intro rest v hv
      rw [hv.2]
      refine wp_pure ⟨hv.1, ?_⟩
      -- the bytes of this block, then the rest
      have hfirst : (List.range r).map (fun j =>
          (s.block ((s.din i).slot s.block (off / BSIZE))).get (off % BSIZE + j)) =
          (List.range r).map fun j => (s.din i).byte s.block (off + j) := by
        refine List.map_congr_left fun j hj => ?_
        have hjr := List.mem_range.mp hj
        unfold Dinode.byte
        rw [show (off + j) / BSIZE = off / BSIZE by unfold BSIZE at *; omega,
          show (off + j) % BSIZE = off % BSIZE + j by unfold BSIZE at *; omega, if_neg hne]
      have hrange : List.range n = List.range r ++ (List.range (n - r)).map (r + ·) := by
        rw [← List.range_add, Nat.add_sub_cancel' (by omega)]
      rw [hfirst, hrange, List.map_append, List.map_map]
      congr 1
      refine List.map_congr_left fun j _ => ?_
      rw [Nat.add_assoc]
      rfl

/-! ### `readi` and `writei` -/

/-- The other files are as before. -/
theorem Within.byte (h : Within i s t) (hown : Owned s) (hin : InCore s i) (hm : m < s.sb.ninodes)
    (hne : m ≠ s.inum i) (htype : (s.node m).type ≠ 0) (hk : k < MAXFILE * BSIZE) :
    (t.node m).byte t.block k = (s.node m).byte s.block k := by
  have hkb : k / BSIZE < MAXFILE := Nat.div_lt_of_lt_mul (by rwa [Nat.mul_comm])
  have href := h.place hown hin hm hne (k / BSIZE)
  have hnode := h.node hm hne
  unfold State.place at href
  rw [hnode, if_neg htype, if_neg htype, Dinode.ref_slot hkb, Dinode.ref_slot hkb] at href
  rw [hnode]
  refine Dinode.byte_congr href fun hslot => ?_
  have hplace : s.place m (k / BSIZE) = (s.node m).slot s.block (k / BSIZE) := by
    rw [State.place, if_neg htype, Dinode.ref_slot hkb]
  rw [← hplace] at hslot ⊢
  exact h.block_place hown hin hm hne hslot

/-- The bytes of `l` from `off` on are replaced by `src`. -/
def overwrite (l : List UInt8) (off : Nat) (src : List UInt8) : List UInt8 :=
  l.take off ++ src ++ l.drop (off + src.length)

def State.contents (s : State) (i : Nat) : List UInt8 := (s.din i).data s.block (s.din i).size

/-- All blocks below the size are there. -/
structure Whole (s : State) (i : Nat) : Prop where
  size : (s.din i).size ≤ MAXFILE * BSIZE
  slots : ∀ bn ∈ blocksOf 0 (s.din i).size, (s.din i).slot s.block bn ≠ 0

/-- `writei` does not do it. -/
def Refused (s : State) (i off n : Nat) : Prop :=
  (s.din i).size < off ∨ 2 ^ 32 ≤ off + n ∨ MAXFILE * BSIZE < off + n

/-- There are blocks for the piece, and there is room in the transaction. -/
structure Enough (s : State) (i off n : Nat) : Prop where
  blocks : s.missing i off n ≤ s.nfree
  room : s.logged.length + (blocksOf off n).card + 3 ≤ min LOGSIZE (s.logSize - 1)
  trans : 1 ≤ s.outstanding

theorem Enough.writable {n : Nat} (h : Enough s i off n) : Room i (blocksOf off n).card s := by
  constructor
  · have h1 := h.room
    have h2 : s.due i ≤ 2 := by
      unfold State.due
      split <;> split <;> omega
    omega
  · exact h.trans

theorem drop_take_data (d : Dinode) (disk : Nat → Block) (n o m : Nat) : ((d.data disk n).drop o).take m =
    (List.range (min m (n - o))).map fun j => d.byte disk (o + j) := by
  refine List.ext_getElem (by simp) fun j h1 h2 => ?_
  simp [Dinode.data]

/-- Bytes whose blocks are there are read without allocation. -/
theorem readi_piece {o : Nat} (hdisk : OnDisk s i) (hheld : s.held = [])
    (htype : (s.din i).type ≠ T_DEV) (ho : o ≤ (s.din i).size) (hm : o + m < 2 ^ 32)
    (hend : o + min m ((s.din i).size - o) ≤ MAXFILE * BSIZE)
    (hslots : ∀ bn ∈ blocksOf o (min m ((s.din i).size - o)), (s.din i).slot s.block bn ≠ 0) :
    readi i o m s = .ok (some (((s.contents i).drop o).take m), s) := by
  have hread : wp (fun _ => False) (readi i o m) (fun r t => r = some (((s.contents i).drop o).take m) ∧ t = s) s := by
    unfold readi
    apply wp_get_bind
    dsimp only
    rw [if_neg htype, if_neg (by rw [Nat.mod_eq_of_lt hm]; exact not_or.mpr ⟨Nat.not_lt.mpr ho, by omega⟩)]
    have hlen : (if (s.din i).size < o + m then (s.din i).size - o else m) = min m ((s.din i).size - o) := by
      split <;> omega
    rw [hlen]
    refine wp_bind (wp_readLoop hdisk hheld _ _ _ (Nat.le_refl _) hend hslots) ?_
    intro r t h
    refine wp_pure ⟨?_, h.1⟩
    rw [h.2, State.contents, drop_take_data]
  rcases wp_total hread with ⟨r, t, hrun, hr, ht⟩
  rw [hrun, hr, ht]

theorem readi_contents {o : Nat} (hown : Owned s) (hin : InCore s i) (hwhole : Whole s i) (hheld : s.held = [])
    (htype : (s.din i).type ≠ T_DEV) (ho : o ≤ (s.din i).size) (hm : o + m < 2 ^ 32) :
    readi i o m s = .ok (some (((s.contents i).drop o).take m), s) := by
  have hsize := hwhole.size
  refine readi_piece (hown.onDisk hin) hheld htype ho hm (by omega) fun bn hbn => ?_
  rcases mem_blocksOf.mp hbn with ⟨k, h1, h2, hk⟩
  exact hwhole.slots bn (mem_blocksOf.mpr ⟨k, Nat.zero_le _, by omega, hk⟩)

/-- What the file has after `writei`. -/
structure Wrote (i off : Nat) (src : List UInt8) (s t : State) : Prop where
  within : Within i s t
  owned : Owned t
  size : (t.din i).size = max (s.din i).size (off + src.length)
  whole : Whole t i
  contents : t.contents i = overwrite (s.contents i) off src

theorem getElem?_overwrite {l : List UInt8} (h : off ≤ l.length) (k : Nat) : (overwrite l off src)[k]? =
    if k < off then l[k]? else if k < off + src.length then src[k - off]? else l[k]? := by
  have hlen : (l.take off).length = off := List.length_take_of_le h
  unfold overwrite
  rw [List.append_assoc, List.getElem?_append, hlen, List.getElem?_append, List.getElem?_drop]
  by_cases h1 : k < off
  · rw [if_pos h1, if_pos h1, List.getElem?_take_of_lt h1]
  · rw [if_neg h1, if_neg h1]
    by_cases h2 : k < off + src.length
    · rw [if_pos h2, if_pos (by omega)]
    · rw [if_neg h2, if_neg (by omega)]
      congr 1
      omega

theorem Dinode.getElem?_data (d : Dinode) (disk : Nat → Block) (n k : Nat) :
    (d.data disk n)[k]? = if k < n then some (d.byte disk k) else none := by
  unfold Dinode.data
  rw [List.getElem?_map]
  by_cases h : k < n
  · rw [if_pos h, List.getElem?_range h]
    rfl
  · rw [if_neg h, List.getElem?_eq_none (by rw [List.length_range]; omega)]
    rfl

/-- The bytes after the loop, with the new size. -/
theorem Filled.data (h : Filled i off src s t) (hoff : off ≤ (s.din i).size)
    (hend : max (s.din i).size (off + src.length) ≤ MAXFILE * BSIZE) :
    (t.din i).data t.block (max (s.din i).size (off + src.length)) = overwrite (s.contents i) off src := by
  refine List.ext_getElem? fun k => ?_
  have hlen : (s.contents i).length = (s.din i).size := Dinode.length_data _ _ _
  rw [getElem?_overwrite (by rwa [hlen]), Dinode.getElem?_data]
  unfold State.contents
  rw [Dinode.getElem?_data]
  by_cases hbefore : k < off
  · rw [if_pos hbefore, if_pos (by omega), if_pos (by omega), h.others k (by omega) (Or.inl hbefore)]
  · rw [if_neg hbefore]
    by_cases hin : k < off + src.length
    · have hst := h.stored (k - off) (by omega)
      rw [Nat.add_sub_cancel' (by omega)] at hst
      rw [if_pos (by omega), if_pos hin, hst, List.getElem?_eq_getElem (by omega),
        List.getD_eq_getElem _ _ (by omega)]
    · rw [if_neg hin]
      by_cases hk : k < (s.din i).size
      · rw [if_pos (by omega), if_pos hk, h.others k (by omega) (Or.inr (by omega))]
      · rw [if_neg (by omega), if_neg hk]

theorem Filled.whole (h : Filled i off src s t) (hwhole : Whole s i) (hoff : off ≤ (s.din i).size) (bn : Nat)
    (hbn : bn ∈ blocksOf 0 (max (s.din i).size (off + src.length))) : (t.din i).slot t.block bn ≠ 0 := by
  rcases mem_blocksOf.mp hbn with ⟨k, h1, h2, hk⟩
  have hsize := hwhole.size
  by_cases hold : k < (s.din i).size
  · refine h.old bn ?_ (hwhole.slots bn (mem_blocksOf.mpr ⟨k, h1, by omega, hk⟩))
    rw [← hk]
    exact Nat.div_lt_of_lt_mul (by rw [Nat.mul_comm]; omega)
  · exact h.new bn (mem_blocksOf.mpr ⟨k, by omega, by omega, hk⟩)

theorem writei_refused (htype : (s.din i).type ≠ T_DEV) (hoff : off < 2 ^ 32) (hn : src.length < 2 ^ 32)
    (h : Refused s i off src.length) : writei i src off s = .ok (-1, s) := by
  unfold writei
  rw [get_bind]
  rw [if_neg htype]
  by_cases hwrap : 2 ^ 32 ≤ off + src.length
  · rw [if_pos (Or.inr (by omega))]
    rfl
  · rw [Nat.mod_eq_of_lt (Nat.lt_of_not_le hwrap)]
    rcases h with h | h | h
    · rw [if_pos (Or.inl h)]
      rfl
    · exact absurd h hwrap
    · by_cases hc : (s.din i).size < off ∨ off + src.length < off
      · rw [if_pos hc]
        rfl
      · rw [if_neg hc, if_pos h]
        rfl

/-- The rest of `writei`. -/
theorem wp_writei (hown : Owned s) (hin : InCore s i) (hwhole : Whole s i) (hheld : s.held = [])
    (htype : (s.din i).type ≠ T_DEV) (h : ¬ Refused s i off src.length)
    (henough : (∀ e, E e) ∨ s.missing i off src.length ≤ s.nfree ∧ Room i (blocksOf off src.length).card s) :
    wp E (writei i src off) (fun r t => r = src.length ∧ Wrote i off src s t) s := by
  have h1 : off ≤ (s.din i).size := Nat.le_of_not_lt fun hc => h (Or.inl hc)
  have h2 : off + src.length < 2 ^ 32 := Nat.lt_of_not_le fun hc => h (Or.inr (Or.inl hc))
  have h3 : off + src.length ≤ MAXFILE * BSIZE := Nat.le_of_not_lt fun hc => h (Or.inr (Or.inr hc))
  have hsize := hwhole.size
  unfold writei
  apply wp_get_bind
  dsimp only
  rw [if_neg htype, Nat.mod_eq_of_lt h2, if_neg (not_or.mpr ⟨Nat.not_lt.mpr h1, by omega⟩), if_neg (by omega)]
  refine wp_bind (wp_writeLoop _ _ _ _ (Nat.le_refl _) hown hin hheld h3 henough) ?_
  rintro _ t ⟨hfill, hroom⟩
  have hdata := hfill.data h1 (Nat.max_le.mpr ⟨hsize, h3⟩)
  have hslots := fun bn hbn => hfill.whole hwhole h1 bn hbn
  have hin' := hin.within hfill.within
  have hdsize : (t.din i).size = (s.din i).size := by rw [hfill.din]
  have hdtype : (t.din i).type = (s.din i).type := hfill.within.type
  by_cases hgrow : 0 < src.length ∧ (s.din i).size < off + src.length
  · rw [if_pos hgrow]
    have hmax : max (s.din i).size (off + src.length) = off + src.length := Nat.max_eq_right (by omega)
    rw [hmax] at hdata hslots
    obtain ⟨d, hd⟩ : ∃ d, d = { t.din i with size := off + src.length } := ⟨_, rfl⟩
    have ha : d.addrs = (t.din i).addrs := by rw [hd]
    have htype' : d.type = (t.din i).type := by rw [hd]
    have hdin : ((t.setDin i d).sync i).din i = d := setDin_din t i d
    have hwrote : Wrote i off src s ((t.setDin i d).sync i) := by
      constructor
      · exact hfill.within.trans (within_sync hfill.owned hin' ha htype')
      · exact owned_sync hfill.owned hin' ha htype'
      · rw [hdin, hd, hmax]
      · constructor
        · rw [hdin, hd]
          exact h3
        · intro bn hbn
          rw [hdin] at hbn ⊢
          rw [hd] at hbn
          rcases mem_blocksOf.mp hbn with ⟨k, -, hk2, hk⟩
          rw [slot_sync hfill.owned hin' ha (by
            rw [← hk]
            exact Nat.div_lt_of_lt_mul (by rw [Nat.mul_comm]; change k < 0 + (off + src.length) at hk2; omega))]
          exact hslots bn hbn
      · rw [← hdata]
        unfold State.contents
        rw [hdin]
        refine List.ext_getElem? fun k => ?_
        rw [Dinode.getElem?_data, Dinode.getElem?_data, show d.size = off + src.length by rw [hd]]
        split
        · rw [byte_sync hfill.owned hin' ha (by omega)]
        · rfl
    have hdin' : (t.setDin i d).inum i < (t.setDin i d).sb.ninodes := by
      rw [setDin_inum]
      exact hin'.inum
    have hheld' : (t.setDin i d).held = [] := (over_held hfill.within.rest).trans hheld
    refine wp_bind (P := fun _ v => v = (t.setDin i d).sync i) ?_ ?_
    · unfold growTo
      apply wp_modify_bind
      rw [show ({ (t.icache i).din with size := off + src.length } : Dinode) = d from hd.symm]
      refine wp_iupdate hfill.owned.geo hdin' hheld' ?_ rfl
      exact henough.imp_right fun h => ⟨(hroom 0 h.2).canLog.room, (hroom 0 h.2).canLog.trans⟩
    · intro _ v hv
      rw [hv]
      exact wp_pure ⟨rfl, hwrote⟩
  · rw [if_neg hgrow]
    have hmax : max (s.din i).size (off + src.length) = (s.din i).size := by
      by_cases hpos : 0 < src.length
      · exact Nat.max_eq_left (Nat.le_of_not_lt fun hc => hgrow ⟨hpos, hc⟩)
      · exact Nat.max_eq_left (by omega)
    rw [hmax] at hdata hslots
    refine wp_pure ⟨rfl, hfill.within, hfill.owned, by rw [hmax, hdsize], ⟨?_, ?_⟩, ?_⟩
    · rwa [hdsize]
    · rwa [hdsize]
    · unfold State.contents at hdata ⊢
      rwa [hdsize]

/-- `writei` refuses a piece that the file cannot have, and otherwise stores it; the file is read back
as it was written, and the other files are as before. -/
theorem files_are_byte_arrays (hown : Owned s) (hin : InCore s i) (hwhole : Whole s i) (hheld : s.held = [])
    (htype : (s.din i).type = T_FILE) (hoff : off < 2 ^ 32) (hn : src.length < 2 ^ 32) :
    (Refused s i off src.length → writei i src off s = .ok (-1, s)) ∧
    (¬ Refused s i off src.length → Enough s i off src.length →
      ∃ t, writei i src off s = .ok ((src.length : Int), t) ∧
        (t.din i).size = max (s.din i).size (off + src.length) ∧
        (∀ o m, o ≤ (t.din i).size → o + m < 2 ^ 32 →
          readi i o m t = .ok (some (((overwrite (s.contents i) off src).drop o).take m), t)) ∧
        ∀ m < s.sb.ninodes, m ≠ s.inum i → t.node m = s.node m ∧
          ((s.node m).type ≠ 0 → ∀ k < MAXFILE * BSIZE,
            (t.node m).byte t.block k = (s.node m).byte s.block k)) := by
  have hdev : (s.din i).type ≠ T_DEV := by
    rw [htype]
    decide
  constructor
  · exact writei_refused hdev hoff hn
  · intro h henough
    obtain ⟨r, t, hrun, hr, hwrote⟩ := wp_total (wp_writei hown hin hwhole hheld hdev h
      (Or.inr ⟨henough.blocks, henough.writable⟩))
    have hw := hwrote.within
    refine ⟨t, by rw [hrun, hr], hwrote.size, ?_, ?_⟩
    · intro o m ho hm
      rw [← hwrote.contents]
      exact readi_contents hwrote.owned (hin.within hw) hwrote.whole ((over_held hw.rest).trans hheld)
        (by rwa [hw.type]) ho hm
    · intro m hm hne
      refine ⟨hw.node hm hne, fun htype' k hk => ?_⟩
      exact hw.byte hown hin hm hne htype' hk

/-! ### A root and a file -/

/-- The root and a file of three bytes; the blocks of inode `m` start at `m + 3`. -/
def shelfInode : Nat → Dinode
  | 1 => ⟨T_DIR, 0, 0, 1, 32, fun j => if j = 0 then 4 else 0⟩
  | 2 => ⟨T_FILE, 0, 0, 1, 3, fun j => if j = 0 then 5 else 0⟩
  | _ => Dinode.zero

def shelfBlock (b : Nat) : Block := fun k =>
  if b = 2 then (shelfInode (k / DINODESIZE)).bytes (k % DINODESIZE)
  else if b = 3 then [63].getD k 0
  else if b = 5 then [97, 98, 99].getD k 0
  else 0

/-- The file is in slot 0 of the inode cache, the root in slot 1; the transaction has `n` blocks. -/
def shelf (n : Nat) : State where
  block := shelfBlock
  held := []
  logged := List.range' 100 n
  outstanding := 1
  logSize := LOGSIZE
  sb := ⟨FSSIZE, 900, 8, 30, 901, 2, 3⟩
  icache := fun i =>
    if i = 0 then ⟨2, 1, true, true, shelfInode 2⟩
    else if i = 1 then ⟨1, 1, true, true, shelfInode 1⟩
    else ⟨0, 0, false, false, Dinode.zero⟩
  ftable := fun _ => ⟨.none, 0, false, false, 0⟩
  pipe := fun _ => ⟨[], false, false⟩
  procs := fun _ => ⟨none, fun _ => none, false⟩
  proc := 0
  input := []
  taken := []
  freed := []

section Shelf

variable (n : Nat)

theorem shelf_inCore : ∀ i < 2, InCore (shelf n) i := by
  have hcache : ∀ i < 2, i < NINODE ∧ 0 < ((shelf 0).icache i).ref ∧ ((shelf 0).icache i).valid = true ∧
      (shelf 0).inum i < (shelf 0).sb.ninodes ∧ ((shelf 0).din i).type ≠ 0 ∧
      ∀ j < NINODE, 0 < ((shelf 0).icache j).ref → (shelf 0).inum j = (shelf 0).inum i → j = i := by
    decide
  intro i hi
  rcases hcache i hi with ⟨h1, h2, h3, h4, h5, h6⟩
  exact ⟨h1, h2, h3, h4, h5, h6⟩

theorem shelf_node : ∀ m < 8, ((shelf 0).node m).addrs NDIRECT = 0 ∧
    ∀ j < NDIRECT, ((shelf 0).node m).addrs j ≠ 0 → j = 0 ∧ ((shelf 0).node m).addrs j = m + 3 ∧ m < 3 := by
  decide

theorem shelf_place {m j : Nat} (hm : m < 8) (h : (shelf n).place m j ≠ 0) :
    j = 0 ∧ (shelf n).place m j = m + 3 ∧ m < 3 := by
  have hplace : (shelf n).place m j = (shelf 0).place m j := rfl
  rcases shelf_node m hm with ⟨hind, hdirect⟩
  rw [hplace] at h ⊢
  have href : ((shelf 0).node m).ref (shelf 0).block j ≠ 0 → j ≤ MAXFILE := Dinode.ref_le
  unfold State.place at h ⊢
  split at h
  · exact absurd rfl h
  · rw [if_neg (by assumption)]
    rcases Nat.lt_or_ge j NDIRECT with hj | hj
    · rw [Dinode.ref_slot (Nat.lt_trans hj (by decide)), Dinode.slot_direct hj] at h ⊢
      exact hdirect j hj h
    · refine absurd ?_ h
      rcases Nat.lt_or_ge j MAXFILE with hlt | hge
      · rw [Dinode.ref_slot hlt, Dinode.slot_zero hj hind]
      · obtain rfl : j = MAXFILE := Nat.le_antisymm (href h) hge
        rw [Dinode.ref_indirect, hind]

theorem shelf_datastart : (shelf n).sb.datastart = 4 := by
  change Superblock.datastart ⟨FSSIZE, 900, 8, 30, 901, 2, 3⟩ = 4
  decide

theorem shelf_owned : Owned (shelf n) := by
  have hmarked : ∀ b < 6, (shelf n).marked b = true := by
    change ∀ b < 6, (shelf 0).marked b = true
    decide
  constructor
  · refine ⟨Nat.le_refl _, fun m hm => ?_, by rw [shelf_datastart]; change 4 ≤ FSSIZE; decide⟩
    change m < 8 at hm
    change m / 8 + 2 < 3
    omega
  · intro m hm m' hm' j k hj heq
    have hk : (shelf n).place m' k ≠ 0 := by rwa [← heq]
    rcases shelf_place n hm hj with ⟨rfl, h1, -⟩
    rcases shelf_place n hm' hk with ⟨rfl, h2, -⟩
    rw [h1, h2] at heq
    exact ⟨Nat.add_right_cancel heq, rfl⟩
  · intro m hm j hj
    rcases shelf_place n hm hj with ⟨rfl, h1, h2⟩
    rw [h1]
    have hpos : m ≠ 0 := by
      rintro rfl
      exact hj (by change (shelf 0).place 0 0 = 0; decide)
    refine ⟨?_, ?_⟩
    · rw [shelf_datastart]
      omega
    · change m + 3 < 1000
      omega
  · intro m hm j hj
    rcases shelf_place n hm hj with ⟨rfl, h1, h2⟩
    rw [h1]
    exact hmarked _ (by omega)
  · intro b hb
    rw [shelf_datastart] at hb
    exact hmarked b (by omega)

theorem shelf_whole : ∀ i < 2, Whole (shelf n) i := by
  have hslots : ∀ i < 2, ((shelf 0).din i).size ≤ MAXFILE * BSIZE ∧
      ∀ bn ∈ blocksOf 0 ((shelf 0).din i).size, ((shelf 0).din i).slot (shelf 0).block bn ≠ 0 := by
    decide
  intro i hi
  exact ⟨(hslots i hi).1, (hslots i hi).2⟩

end Shelf

/-- Two bytes over the end of the file. -/
theorem files_are_byte_arrays_grow : ∃ t, writei 0 [100, 101] 2 (shelf 0) = .ok (2, t) ∧ (t.din 0).size = 4 ∧
    readi 0 1 100 t = .ok (some [98, 100, 101], t) := by
  have henough : Enough (shelf 0) 0 2 2 := by
    refine ⟨?_, ?_, Int.le_refl _⟩
    · rw [show (shelf 0).missing 0 2 2 = 0 by decide]
      exact Nat.zero_le _
    · change (List.range' 100 0).length + (blocksOf 2 2).card + 3 ≤ _
      decide
  obtain ⟨t, h1, h2, h3, -⟩ := (@files_are_byte_arrays (shelf 0) 0 2 [100, 101] (shelf_owned 0) (shelf_inCore 0 0 (by decide))
    (shelf_whole 0 0 (by decide)) rfl rfl (by decide) (by decide)).2 (by unfold Refused; decide) henough
  have hsize : (t.din 0).size = 4 := h2.trans (by decide)
  refine ⟨t, h1, hsize, ?_⟩
  rw [h3 1 100 (by rw [hsize]; decide) (by decide)]
  have hcontents : ((overwrite ((shelf 0).contents 0) 2 [100, 101]).drop 1).take 100 = [98, 100, 101] := by
    decide
  rw [hcontents]

/-- The log is full, and one byte of the file is written again. -/
theorem full_log_panics : Owned (shelf 29) ∧ InCore (shelf 29) 0 ∧ Whole (shelf 29) 0 ∧ (shelf 29).held = [] ∧
    ((shelf 29).din 0).type = T_FILE ∧ (shelf 29).missing 0 0 1 ≤ (shelf 29).nfree ∧
    (shelf 29).outstanding = 1 ∧ ¬ Refused (shelf 29) 0 0 1 ∧
    (writei 0 [100] 0 (shelf 29)).map Prod.fst = .error (.panic .tooBigTransaction) := by
  refine ⟨shelf_owned _, shelf_inCore _ 0 (by decide), shelf_whole _ 0 (by decide), rfl, rfl, ?_, rfl,
    by unfold Refused; decide, by decide⟩
  rw [show (shelf 29).missing 0 0 1 = 0 by decide]
  exact Nat.zero_le _

end Yonix.Fs
