/-
  Yonix/Mkfs/Layout.lean
  ======================
  **The layout that `mkfs` keeps.**

  Blocks are taken one after another from `freeblock` on, and each is taken for one place of
  one inode (`Apart`).  An inode has the blocks below its size and no others, and what is
  behind its size is 0 (`Solid`).  `iappend` works on a copy of the inode, so the inodes are
  a table `nd` of their own here, which agrees with the image between the calls (`Laid`).
-/
import Yonix.Mkfs.Model
import Yonix.Fs.Directory

namespace Yonix.Mkfs

open Yonix.Fs

variable {nd : Nat → Dinode} {disk : Nat → Block} {s t u : State} {d e : Dinode} {m n j k b bn off free : Nat}
  {p : List UInt8}

/-- The number of inodes that the inode blocks have room for. -/
def NINO : Nat := ninodeblocks * IPB

/-! ### Places -/

/-- Every block below `free` is for one place at most, and those from `free` on are empty. -/
structure Apart (nd : Nat → Dinode) (disk : Nat → Block) (free : Nat) : Prop where
  low : nmeta ≤ free
  fresh : ∀ b, free ≤ b → disk b = Bytes.zero
  fits : ∀ m, (nd m).Fits
  data : ∀ m j, (nd m).ref disk j ≠ 0 → nmeta ≤ (nd m).ref disk j ∧ (nd m).ref disk j < free
  alone : ∀ m n j k, (nd m).ref disk j ≠ 0 → (nd m).ref disk j = (nd n).ref disk k → m = n ∧ j = k

/-- A file of `n` bytes: the blocks that it has, and nothing behind its end. -/
structure Solid (d : Dinode) (disk : Nat → Block) (n : Nat) : Prop where
  size : n ≤ MAXFILE * BSIZE
  slots : ∀ bn < MAXFILE, d.slot disk bn ≠ 0 ↔ bn * BSIZE < n
  tail : ∀ k, n ≤ k → k < MAXFILE * BSIZE → d.byte disk k = 0

/-- What was done for inode `m`, whose copy became `e`. -/
structure Grew (d : Dinode) (s : State) (e : Dinode) (t : State) : Prop where
  din : e = { d with addrs := e.addrs }
  sectors : t.sectors = s.sectors
  freeinode : t.freeinode = s.freeinode
  free : s.freeblock ≤ t.freeblock
  kept : ∀ b, b < nmeta ∨ (b < s.freeblock ∧ ∀ j, d.ref s.img j ≠ b) → t.img b = s.img b
  own : ∀ j, e.ref t.img j ≠ 0 → (∃ k, d.ref s.img k = e.ref t.img j) ∨ s.freeblock ≤ e.ref t.img j

theorem Grew.refl (d : Dinode) (s : State) : Grew d s d s :=
  ⟨rfl, rfl, rfl, Nat.le_refl _, fun _ _ => rfl, fun j _ => Or.inl ⟨j, rfl⟩⟩

theorem Grew.trans {f : Dinode} (h : Grew d s e t) (h' : Grew e t f u) : Grew d s f u := by
  constructor
  · rw [h'.din, h.din]
  · rw [h'.sectors, h.sectors]
  · rw [h'.freeinode, h.freeinode]
  · exact Nat.le_trans h.free h'.free
  · intro b hb
    rw [← h.kept b hb]
    apply h'.kept
    rcases hb with hb | ⟨hb, hne⟩
    · exact Or.inl hb
    · by_cases hmeta : b < nmeta
      · exact Or.inl hmeta
      · refine Or.inr ⟨Nat.lt_of_lt_of_le hb h.free, fun j heq => ?_⟩
        have hpos : 0 < nmeta := by decide
        rcases h.own j (by omega) with ⟨k, hk⟩ | hge
        · exact hne k (hk.trans heq)
        · omega
  · intro j hj
    rcases h'.own j hj with ⟨k, hk⟩ | hge
    · rw [← hk] at hj ⊢
      exact h.own k hj
    · exact Or.inr (Nat.le_trans h.free hge)

section Others

variable (h : Grew d s e t) (hap : Apart (Function.update nd m d) s.img s.freeblock) (hn : n ≠ m)
include h hap hn

/-- The blocks of another inode are as before. -/
theorem Grew.block (hj : (nd n).ref s.img j ≠ 0) : t.img ((nd n).ref s.img j) = s.img ((nd n).ref s.img j) := by
  have hself : Function.update nd m d m = d := Function.update_self _ _ _
  have hother : Function.update nd m d n = nd n := Function.update_of_ne hn _ _
  apply h.kept
  right
  have hdata := hap.data n j
  rw [hother] at hdata
  refine ⟨(hdata hj).2, fun k heq => ?_⟩
  have halone := hap.alone n m j k
  rw [hself, hother] at halone
  exact hn (halone hj heq.symm).1

theorem Grew.ref (j : Nat) : (nd n).ref t.img j = (nd n).ref s.img j := by
  refine Dinode.ref_congr rfl fun hind => ?_
  have hblock := h.block hap hn (j := MAXFILE)
  rw [Dinode.ref_indirect] at hblock
  exact hblock hind

theorem Grew.byte (hk : k < MAXFILE * BSIZE) : (nd n).byte t.img k = (nd n).byte s.img k := by
  have hkb : k / BSIZE < MAXFILE := Nat.div_lt_of_lt_mul (by rwa [Nat.mul_comm])
  have href := h.ref hap hn (k / BSIZE)
  rw [Dinode.ref_slot hkb, Dinode.ref_slot hkb] at href
  refine Dinode.byte_congr href fun hne => ?_
  rw [← Dinode.ref_slot hkb] at hne ⊢
  exact h.block hap hn hne

theorem Grew.solid {l : Nat} (hs : Solid (nd n) s.img l) : Solid (nd n) t.img l := by
  refine ⟨hs.size, fun bn hbn => ?_, fun k hk hlt => ?_⟩
  · rw [← Dinode.ref_slot hbn, h.ref hap hn, Dinode.ref_slot hbn]
    exact hs.slots bn hbn
  · rw [h.byte hap hn hlt]
    exact hs.tail k hk hlt

end Others

/-- The other inodes still have their blocks for themselves. -/
theorem Grew.apart (h : Grew d s e t) (hap : Apart (Function.update nd m d) s.img s.freeblock) (hfits : e.Fits)
    (hfresh : ∀ b, t.freeblock ≤ b → t.img b = Bytes.zero)
    (hdata : ∀ j, e.ref t.img j ≠ 0 → nmeta ≤ e.ref t.img j ∧ e.ref t.img j < t.freeblock)
    (halone : ∀ j k, e.ref t.img j ≠ 0 → e.ref t.img j = e.ref t.img k → j = k) :
    Apart (Function.update nd m e) t.img t.freeblock := by
  have hself : Function.update nd m e m = e := Function.update_self _ _ _
  have hother : ∀ n, n ≠ m → Function.update nd m e n = nd n := fun n hn => Function.update_of_ne hn _ _
  have hother' : ∀ n, n ≠ m → Function.update nd m d n = nd n := fun n hn => Function.update_of_ne hn _ _
  have hold : ∀ n, n ≠ m → ∀ j, (nd n).ref s.img j ≠ 0 → (nd n).ref s.img j < s.freeblock ∧ ∀ k,
      d.ref s.img k ≠ (nd n).ref s.img j := by
    intro n hn j hj
    have hdata := hap.data n j
    have halone := fun k => hap.alone n m j k
    rw [hother' n hn] at hdata halone
    rw [show Function.update nd m d m = d from Function.update_self _ _ _] at halone
    exact ⟨(hdata hj).2, fun k heq => hn (halone k hj heq.symm).1⟩
  have hcross : ∀ n, n ≠ m → ∀ j k, e.ref t.img j ≠ 0 → e.ref t.img j ≠ (nd n).ref t.img k := by
    intro n hn j k hj heq
    rw [h.ref hap hn] at heq
    rcases hold n hn k (by rwa [← heq]) with ⟨hlt, hne⟩
    rcases h.own j hj with ⟨l, hl⟩ | hge
    · exact hne l (hl.trans heq)
    · omega
  constructor
  · exact Nat.le_trans hap.low h.free
  · exact hfresh
  · intro n
    by_cases hn : n = m
    · rw [hn, hself]
      exact hfits
    · have := hap.fits n
      rw [hother' n hn] at this
      rwa [hother n hn]
  · intro n j hj
    by_cases hn : n = m
    · rw [hn, hself] at hj ⊢
      exact hdata j hj
    · have := hap.data n j
      rw [hother' n hn] at this
      rw [hother n hn, h.ref hap hn] at hj ⊢
      exact ⟨(this hj).1, Nat.lt_of_lt_of_le (this hj).2 h.free⟩
  · intro n n' j k hj heq
    by_cases hn : n = m
    · subst hn
      rw [hself] at hj heq
      by_cases hn' : n' = n
      · rw [hn', hself] at heq
        exact ⟨hn'.symm, halone j k hj heq⟩
      · rw [hother n' hn'] at heq
        exact absurd heq (hcross n' hn' j k hj)
    · rw [hother n hn] at hj heq
      by_cases hn' : n' = m
      · subst hn'
        rw [hself] at heq
        exact absurd heq.symm (hcross n hn k j (by rwa [← heq]))
      · rw [hother n' hn'] at heq
        rw [h.ref hap hn] at hj heq
        rw [h.ref hap hn'] at heq
        have := hap.alone n n' j k
        rw [hother' n hn, hother' n' hn'] at this
        exact this hj heq

/-! ### The next block -/

/-- Block `freeblock` took the empty place `j` of the inode. -/
structure Took (d : Dinode) (j : Nat) (s : State) (e : Dinode) (t : State) : Prop where
  din : e = { d with addrs := e.addrs }
  fits : e.Fits
  sectors : t.sectors = s.sectors
  freeinode : t.freeinode = s.freeinode
  freeblock : t.freeblock = s.freeblock + 1
  ref : ∀ k, e.ref t.img k = if k = j then s.freeblock else d.ref s.img k
  img : ∀ b, (d.addrs NDIRECT ≠ 0 → b ≠ d.addrs NDIRECT) → t.img b = s.img b

section Self

variable (hap : Apart (Function.update nd m d) s.img s.freeblock)
include hap

theorem Apart.self_fits : d.Fits := by
  have := hap.fits m
  rwa [Function.update_self] at this

theorem Apart.self_data (hj : d.ref s.img j ≠ 0) : nmeta ≤ d.ref s.img j ∧ d.ref s.img j < s.freeblock := by
  have := hap.data m j
  rw [Function.update_self] at this
  exact this hj

theorem Apart.self_alone (hj : d.ref s.img j ≠ 0) (heq : d.ref s.img j = d.ref s.img k) : j = k := by
  have := hap.alone m m j k
  rw [Function.update_self] at this
  exact (this hj heq).2

theorem Took.grew (h : Took d j s e t) : Grew d s e t := by
  have hind : d.addrs NDIRECT ≠ 0 → nmeta ≤ d.addrs NDIRECT := by
    intro hne
    have := hap.self_data (j := MAXFILE)
    rw [Dinode.ref_indirect] at this
    exact (this hne).1
  constructor
  · exact h.din
  · exact h.sectors
  · exact h.freeinode
  · rw [h.freeblock]
    exact Nat.le_succ _
  · intro b hb
    apply h.img
    rintro hne rfl
    rcases hb with hb | ⟨-, hb⟩
    · have := hind hne
      omega
    · exact hb MAXFILE (Dinode.ref_indirect _ _)
  · intro k _
    rw [h.ref]
    split
    · exact Or.inr (Nat.le_refl _)
    · exact Or.inl ⟨k, rfl⟩

theorem Took.apart (h : Took d j s e t) : Apart (Function.update nd m e) t.img t.freeblock := by
  have hlow := hap.low
  have hlt : ∀ k, d.ref s.img k < s.freeblock := by
    intro k
    by_cases hk : d.ref s.img k = 0
    · have hpos : 0 < nmeta := by decide
      omega
    · exact (hap.self_data hk).2
  refine (h.grew hap).apart hap h.fits ?_ ?_ ?_
  · intro b hb
    rw [h.freeblock] at hb
    rw [h.img b ?_]
    · exact hap.fresh b (by omega)
    · intro _ heq
      have := hlt MAXFILE
      rw [Dinode.ref_indirect, ← heq] at this
      omega
  · intro k hk
    rw [h.ref] at hk ⊢
    rw [h.freeblock]
    split
    · omega
    · rename_i hne
      rw [if_neg hne] at hk
      have := hap.self_data hk
      omega
  · intro k l hk heq
    have h1 := hlt k
    have h2 := hlt l
    rw [h.ref] at hk
    rw [h.ref, h.ref] at heq
    by_cases hkj : k = j
    · rw [if_pos hkj] at heq
      by_cases hlj : l = j
      · rw [hkj, hlj]
      · rw [if_neg hlj] at heq
        omega
    · rw [if_neg hkj] at heq hk
      by_cases hlj : l = j
      · rw [if_pos hlj] at heq
        omega
      · rw [if_neg hlj] at heq
        exact hap.self_alone hk heq

end Self

theorem Took.slot (h : Took d j s e t) (hk : k < MAXFILE) :
    e.slot t.img k = if k = j then s.freeblock else d.slot s.img k := by
  rw [← Dinode.ref_slot hk, h.ref, Dinode.ref_slot hk]

/-! ### The block of `iappend` -/

/-- The inode has block `b` at `bn`. -/
structure Mapped (nd : Nat → Dinode) (m : Nat) (d : Dinode) (bn : Nat) (s : State) (e : Dinode) (b : Nat)
    (t : State) : Prop where
  grew : Grew d s e t
  apart : Apart (Function.update nd m e) t.img t.freeblock
  ne : b ≠ 0
  slot : e.slot t.img bn = b
  others : ∀ k < MAXFILE, k ≠ bn → e.slot t.img k = d.slot s.img k
  new : d.slot s.img bn = 0 → t.img b = Bytes.zero ∧ s.freeblock ≤ b
  data : ∀ k < MAXFILE, d.slot s.img k ≠ 0 → t.img (d.slot s.img k) = s.img (d.slot s.img k)
  old : d.slot s.img bn ≠ 0 → b = d.slot s.img bn
  free : t.freeblock ≤ max s.freeblock (b + 1)
  two : t.freeblock ≤ s.freeblock + 2

section Mapped

variable (hap : Apart (Function.update nd m d) s.img s.freeblock)
include hap

theorem mapped_old (hne : d.slot s.img bn ≠ 0) : Mapped nd m d bn s d (d.slot s.img bn) s :=
  ⟨Grew.refl d s, hap, hne, rfl, fun _ _ _ => rfl, fun hz => absurd hz hne, fun _ _ _ => rfl, fun _ => rfl,
    Nat.le_max_left _ _, Nat.le_add_right _ _⟩

theorem Apart.free_ne : s.freeblock ≠ 0 := by
  have hlow := hap.low
  have hpos : 0 < nmeta := by decide
  omega

theorem Took.mapped (h : Took d bn s e t) (hbn : bn < MAXFILE) (hz : d.slot s.img bn = 0) :
    Mapped nd m d bn s e s.freeblock t := by
  have hne : ∀ k, d.ref s.img k ≠ s.freeblock := by
    intro k heq
    have hk : d.ref s.img k ≠ 0 := by
      rw [heq]
      exact hap.free_ne
    have := hap.self_data hk
    omega
  constructor
  · exact h.grew hap
  · exact h.apart hap
  · exact hap.free_ne
  · rw [h.slot hbn, if_pos rfl]
  · intro k hk hkn
    rw [h.slot hk, if_neg hkn]
  · intro _
    rw [h.img _ ?_]
    · exact ⟨hap.fresh _ (Nat.le_refl _), Nat.le_refl _⟩
    · intro _ heq
      exact hne MAXFILE ((Dinode.ref_indirect _ _).trans heq.symm)
  · intro k hk hkne
    apply h.img
    intro hind heq
    rw [← Dinode.ref_slot hk] at hkne heq
    have := hap.self_alone hkne (heq.trans (Dinode.ref_indirect d s.img).symm)
    omega
  · exact fun hne => absurd hz hne
  · rw [h.freeblock]
    exact Nat.le_max_right _ _
  · rw [h.freeblock]
    exact Nat.le_succ _

/-- First the indirect block, then the block itself. -/
theorem Took.mapped_both {f : Dinode} (h : Took d MAXFILE s e t) (h' : Mapped nd m e bn t f b u) (hbn : bn < MAXFILE)
    (hz : d.slot s.img bn = 0) (hone : u.freeblock ≤ t.freeblock + 1) : Mapped nd m d bn s f b u := by
  have hsame : ∀ k < MAXFILE, e.slot t.img k = d.slot s.img k := by
    intro k hk
    rw [h.slot hk, if_neg (Nat.ne_of_lt hk)]
  constructor
  · exact (h.grew hap).trans h'.grew
  · exact h'.apart
  · exact h'.ne
  · exact h'.slot
  · intro k hk hkn
    rw [h'.others k hk hkn, hsame k hk]
  · intro _
    rcases h'.new ((hsame bn hbn).trans hz) with ⟨hzero, hle⟩
    exact ⟨hzero, Nat.le_trans (h.grew hap).free hle⟩
  · intro k hk hkne
    have hdata := h'.data k hk
    rw [hsame k hk] at hdata
    rw [hdata hkne]
    apply h.img
    intro hind heq
    rw [← Dinode.ref_slot hk] at hkne heq
    have := hap.self_alone hkne (heq.trans (Dinode.ref_indirect d s.img).symm)
    omega
  · exact fun hne => absurd hz hne
  · have hfree := h'.free
    have hnew := (h'.new ((hsame bn hbn).trans hz)).2
    omega
  · rw [h.freeblock] at hone
    exact hone

end Mapped

section Sectors

variable {E : Fail → Prop}

theorem wp_nextBlock {Q : Nat → State → Prop} (h : Q s.freeblock { s with freeblock := s.freeblock + 1 }) :
    wp E nextBlock Q s := h

theorem wp_nextInode {Q : Nat → State → Prop} (h : Q s.freeinode { s with freeinode := s.freeinode + 1 }) :
    wp E nextInode Q s := h

/-- The image with sector `sec` written. -/
def State.write (s : State) (sec : Nat) (buf : Block) : State :=
  { s with img := Function.update s.img sec buf, sectors := max s.sectors (sec + 1) }

theorem wp_wsect {sec : Nat} {buf : Block} {Q : Unit → State → Prop} (h : Q () (s.write sec buf)) :
    wp E (wsect sec buf) Q s := h

theorem wp_rsect {sec : Nat} {Q : Block → State → Prop} (henough : (∀ x, E x) ∨ sec < s.sectors)
    (h : sec < s.sectors → Q (s.img sec) s) : wp E (rsect sec) Q s := by
  unfold rsect
  apply wp_get_bind
  apply wp_ite
  · exact fun hsec => wp_pure (h hsec)
  · exact fun hsec => wp_stop (henough.resolve_right hsec _)

theorem wp_assert {c : Prop} [Decidable c] {Q : Unit → State → Prop} (henough : (∀ x, E x) ∨ c) (h : c → Q () s) :
    wp E (assert c) Q s := by
  unfold assert
  apply wp_ite
  · exact fun hc => wp_pure (h hc)
  · exact fun hc => wp_stop (henough.resolve_right hc _)

end Sectors

theorem write_img_self (sec : Nat) (x : Block) : (s.write sec x).img sec = x := Function.update_self _ _ _

theorem write_img_ne {sec : Nat} {x : Block} (h : b ≠ sec) : (s.write sec x).img b = s.img b :=
  Function.update_of_ne h _ _

theorem write_sectors {sec : Nat} {x : Block} (h : sec < s.sectors) : (s.write sec x).sectors = s.sectors :=
  Nat.max_eq_left h

section BlockFor

variable {E : Fail → Prop} (hap : Apart (Function.update nd m d) s.img s.freeblock) (hfree : s.freeblock ≤ FSSIZE)
include hap hfree

/-- A new block for element `j` of `addrs`. -/
theorem took_addr (hj : j ≤ NDIRECT) (hz : d.addrs j = 0) :
    Took d (if j = NDIRECT then MAXFILE else j) s (setAddr d j (xint s.freeblock))
      { s with freeblock := s.freeblock + 1 } := by
  have hxint : xint s.freeblock = s.freeblock := xint_eq (Nat.lt_of_le_of_lt hfree (by decide))
  have hfits := hap.self_fits
  rw [hxint]
  constructor
  · rfl
  · refine ⟨hfits.type, hfits.major, hfits.minor, hfits.nlink, hfits.size, fun k => ?_, fun k hk => ?_⟩
    · by_cases hkj : k = j
      · rw [hkj, setAddr_self]
        exact Nat.lt_of_le_of_lt hfree (by decide)
      · rw [setAddr_ne hkj]
        exact hfits.addrs k
    · rw [setAddr_ne (by omega)]
      exact hfits.beyond k hk
  · rfl
  · rfl
  · rfl
  · exact Dinode.ref_setAddr hj hz hap.free_ne (fun _ => rfl) fun _ => hap.fresh _ (Nat.le_refl _)
  · exact fun _ _ => rfl

theorem wp_addrOf {Q : Dinode × Nat → State → Prop} (hj : j ≤ NDIRECT)
    (hold : d.addrs j ≠ 0 → Q (d, d.addrs j) s)
    (hnew : d.addrs j = 0 → ∀ e t, Took d (if j = NDIRECT then MAXFILE else j) s e t → e.addrs j = s.freeblock →
      Q (e, s.freeblock) t) : wp E (addrOf d j) Q s := by
  have hxint : xint s.freeblock = s.freeblock := xint_eq (Nat.lt_of_le_of_lt hfree (by decide))
  have haddr : xint (d.addrs j) = d.addrs j := xint_eq (hap.self_fits.addrs j)
  unfold addrOf
  rw [haddr]
  by_cases hz : d.addrs j = 0
  · rw [if_pos hz]
    have hres := hnew hz _ _ (took_addr hap hfree hj hz) (by rw [setAddr_self, hxint])
    refine wp_bind (P := fun b t => b = s.freeblock ∧ t = { s with freeblock := s.freeblock + 1 })
      (wp_nextBlock ⟨rfl, rfl⟩) ?_
    rintro _ _ ⟨rfl, rfl⟩
    apply wp_pure
    rw [hxint, hxint]
    rwa [hxint] at hres
  · rw [if_neg hz]
    exact wp_pure (hold hz)

/-- A new block for element `w` of the indirect block, which is on the disk. -/
theorem took_word {w : Nat} (hw : w < NINDIRECT) (hind : d.addrs NDIRECT ≠ 0) (hsec : d.addrs NDIRECT < s.sectors) :
    Took d (NDIRECT + w) s d ({ s with freeblock := s.freeblock + 1 }.write (d.addrs NDIRECT)
      ((s.img (d.addrs NDIRECT)).setWord w (xint s.freeblock))) := by
  have hxint : xint s.freeblock = s.freeblock := xint_eq (Nat.lt_of_le_of_lt hfree (by decide))
  rw [hxint]
  constructor
  · rfl
  · exact hap.self_fits
  · exact write_sectors (s := { s with freeblock := s.freeblock + 1 }) hsec
  · rfl
  · rfl
  · exact Dinode.ref_setWord hw hind (Nat.lt_of_le_of_lt hfree (by decide)) (write_img_self _ _)
  · exact fun b hb => write_img_ne (hb hind)

/-- `blockFor`, when the indirect block is there. -/
theorem wp_word {Q : Dinode × Nat → State → Prop} (hbn : bn < MAXFILE) (hle : NDIRECT ≤ bn)
    (hind : d.addrs NDIRECT ≠ 0)
    (hQ : ∀ b t, Mapped nd m d bn s d b t → t.freeblock ≤ s.freeblock + 1 → Q (d, b) t)
    (hsec : d.addrs NDIRECT < s.sectors) :
    wp E (if (s.img (d.addrs NDIRECT)).word (bn - NDIRECT) = 0 then do
        let b ← nextBlock
        wsect (d.addrs NDIRECT) ((s.img (d.addrs NDIRECT)).setWord (bn - NDIRECT) (xint b))
        return (d, xint (xint b))
      else return (d, xint ((s.img (d.addrs NDIRECT)).word (bn - NDIRECT)))) Q s := by
  have hslot : d.slot s.img bn = (s.img (d.addrs NDIRECT)).word (bn - NDIRECT) := Dinode.slot_indirect hle hind
  have hw : bn - NDIRECT < NINDIRECT := by
    unfold MAXFILE at hbn
    omega
  have hxint : xint s.freeblock = s.freeblock := xint_eq (Nat.lt_of_le_of_lt hfree (by decide))
  rw [← hslot]
  apply wp_ite
  · intro hz
    refine wp_bind (P := fun b t => b = s.freeblock ∧ t = { s with freeblock := s.freeblock + 1 })
      (wp_nextBlock ⟨rfl, rfl⟩) ?_
    rintro _ _ ⟨rfl, rfl⟩
    refine wp_bind (P := fun _ t => t = { s with freeblock := s.freeblock + 1 }.write (d.addrs NDIRECT)
      ((s.img (d.addrs NDIRECT)).setWord (bn - NDIRECT) (xint s.freeblock))) (wp_wsect rfl) ?_
    rintro _ _ rfl
    apply wp_pure
    have htook := took_word hap hfree hw hind hsec
    rw [Nat.add_sub_cancel' hle] at htook
    rw [hxint, hxint]
    rw [hxint] at htook
    exact hQ _ _ (htook.mapped hap hbn hz) (Nat.le_of_eq htook.freeblock)
  · intro hne
    apply wp_pure
    rw [xint_eq]
    · exact hQ _ _ (mapped_old hap hne) (Nat.le_succ _)
    · rw [hslot]
      exact Bytes.word_lt _ _

theorem wp_blockFor {Q : Dinode × Nat → State → Prop} (henough : (∀ x, E x) ∨ s.freeblock + 2 ≤ FSSIZE)
    (hsectors : s.sectors = FSSIZE) (hbn : bn < MAXFILE)
    (hQ : ∀ e b t, Mapped nd m d bn s e b t → Q (e, b) t) : wp E (blockFor d bn) Q s := by
  unfold blockFor
  by_cases hdirect : bn < NDIRECT
  · rw [if_pos hdirect]
    have hslot : d.slot s.img bn = d.addrs bn := Dinode.slot_direct hdirect
    apply wp_addrOf hap hfree (Nat.le_of_lt hdirect)
    · intro hne
      rw [← hslot] at hne ⊢
      exact hQ _ _ _ (mapped_old hap hne)
    · intro hz e t htook _
      rw [if_neg (Nat.ne_of_lt hdirect)] at htook
      exact hQ _ _ _ (htook.mapped hap hbn (hslot.trans hz))
  · rw [if_neg hdirect]
    have hle : NDIRECT ≤ bn := Nat.le_of_not_lt hdirect
    refine wp_bind (P := fun r t => (d.addrs NDIRECT ≠ 0 ∧ r = (d, d.addrs NDIRECT) ∧ t = s) ∨
      d.addrs NDIRECT = 0 ∧ r.2 = s.freeblock ∧ r.1.addrs NDIRECT = s.freeblock ∧ Took d MAXFILE s r.1 t)
      (wp_addrOf hap hfree (Nat.le_refl _) (fun hne => Or.inl ⟨hne, rfl, rfl⟩)
        fun hz e t htook ha => Or.inr ⟨hz, rfl, ha, by rwa [if_pos rfl] at htook⟩) ?_
    rintro ⟨e, a⟩ t (⟨hne, heq, rfl⟩ | ⟨hz, rfl, ha, htook⟩)
    · cases heq
      dsimp only
      refine wp_bind (P := fun x v => d.addrs NDIRECT < t.sectors ∧ x = t.img (d.addrs NDIRECT) ∧ v = t)
        (wp_rsect (Or.inr ?_) fun hsec => ⟨hsec, rfl, rfl⟩) ?_
      · have hdata := hap.self_data (j := MAXFILE) (by rwa [Dinode.ref_indirect])
        rw [Dinode.ref_indirect] at hdata
        omega
      rintro _ v ⟨hsec, rfl, rfl⟩
      exact wp_word hap hfree hbn hle hne (fun b u hmap _ => hQ _ _ _ hmap) hsec
    · dsimp only at ha htook ⊢
      refine wp_bind (P := fun x v => s.freeblock < t.sectors ∧ x = t.img s.freeblock ∧ v = t)
        (wp_rsect (henough.imp_right fun hroom => ?_) fun hsec => ⟨hsec, rfl, rfl⟩) ?_
      · rw [htook.sectors, hsectors]
        omega
      rintro _ v ⟨hsec, rfl, rfl⟩
      have hap' := htook.apart hap
      have hfree' : v.freeblock ≤ FSSIZE := by
        rw [htook.freeblock]
        rw [htook.sectors, hsectors] at hsec
        exact hsec
      rw [← ha]
      rw [← ha] at hsec
      refine wp_word hap' hfree' hbn hle (by rw [ha]; exact hap.free_ne) (fun b u hmap hone => ?_) hsec
      have hz' : d.slot s.img bn = 0 := Dinode.slot_zero hle hz
      exact hQ _ _ _ (htook.mapped_both hap hmap hbn hz' hone)

end BlockFor

/-! ### One round of `iappend` -/

/-- A block for a piece changes no byte. -/
theorem Mapped.byte (h : Mapped nd m d bn s e b t) (hk : k < MAXFILE * BSIZE) :
    e.byte t.img k = d.byte s.img k := by
  have hkb : k / BSIZE < MAXFILE := Nat.div_lt_of_lt_mul (by rwa [Nat.mul_comm])
  by_cases hkbn : k / BSIZE = bn
  · by_cases hold : d.slot s.img bn = 0
    · rcases h.new hold with ⟨hzero, -⟩
      unfold Dinode.byte
      rw [hkbn, if_pos hold, h.slot, if_neg h.ne, hzero, Bytes.get_zero]
    · refine Dinode.byte_congr ?_ fun hne => h.data _ hkb hne
      rw [hkbn, h.slot, h.old hold]
  · exact Dinode.byte_congr (h.others _ hkb hkbn) fun hne => h.data _ hkb hne

/-- The bytes `p` were appended at `off`. -/
structure Appended (nd : Nat → Dinode) (m : Nat) (d : Dinode) (off : Nat) (p : List UInt8) (s : State) (e : Dinode)
    (t : State) : Prop where
  grew : Grew d s e t
  apart : Apart (Function.update nd m e) t.img t.freeblock
  solid : Solid e t.img (off + p.length)
  before : ∀ k < off, e.byte t.img k = d.byte s.img k
  stored : ∀ k < p.length, e.byte t.img (off + k) = p.getD k 0
  free : t.freeblock ≤ FSSIZE

theorem Appended.trans {f : Dinode} {l : List UInt8} (h : Appended nd m d off l s e t)
    (h' : Appended nd m e (off + l.length) p t f u) : Appended nd m d off (l ++ p) s f u := by
  have hlen : (l ++ p).length = l.length + p.length := List.length_append
  constructor
  · exact h.grew.trans h'.grew
  · exact h'.apart
  · rw [hlen, ← Nat.add_assoc]
    exact h'.solid
  · intro k hk
    rw [h'.before k (by omega), h.before k hk]
  · intro k hk
    rw [hlen] at hk
    rcases Nat.lt_or_ge k l.length with hlt | hge
    · rw [h'.before (off + k) (by omega), h.stored k hlt, List.getD_append _ _ _ _ hlt]
    · have hst := h'.stored (k - l.length) (by omega)
      rw [show off + l.length + (k - l.length) = off + k by omega] at hst
      rw [hst, List.getD_append_right _ _ _ _ hge]
  · exact h'.free

section Write

variable {x : Block} (hap : Apart (Function.update nd m e) t.img t.freeblock) (hbn : bn < MAXFILE)
  (hslot : e.slot t.img bn = b) (hb : b ≠ 0)
include hap hbn hslot hb

omit hb in
theorem ref_write (j : Nat) : e.ref (t.write b x).img j = e.ref t.img j := by
  refine Dinode.ref_congr rfl fun hind => write_img_ne ?_
  rw [← Dinode.ref_indirect _ t.img] at hind ⊢
  rw [← hslot, ← Dinode.ref_slot hbn]
  intro heq
  exact Nat.ne_of_gt hbn (hap.self_alone hind heq)

theorem grew_write (hsec : b < t.sectors) : Grew e t e (t.write b x) := by
  have href : e.ref t.img bn = b := (Dinode.ref_slot hbn).trans hslot
  have hdata := hap.self_data (j := bn) (by rwa [href])
  rw [href] at hdata
  constructor
  · rfl
  · exact write_sectors hsec
  · rfl
  · exact Nat.le_refl _
  · intro k hk
    apply write_img_ne
    rintro rfl
    rcases hk with hk | ⟨-, hk⟩
    · omega
    · exact hk bn href
  · intro j _
    exact Or.inl ⟨j, (ref_write hap hbn hslot j).symm⟩

theorem apart_write (hsec : b < t.sectors) : Apart (Function.update nd m e) (t.write b x).img t.freeblock := by
  have href : e.ref t.img bn = b := (Dinode.ref_slot hbn).trans hslot
  have hdata := hap.self_data (j := bn) (by rwa [href])
  rw [href] at hdata
  refine (grew_write (x := x) hap hbn hslot hb hsec).apart hap hap.self_fits ?_ ?_ ?_
  · intro k hk
    change t.freeblock ≤ k at hk
    rw [write_img_ne (by omega)]
    exact hap.fresh k hk
  · intro j hj
    rw [ref_write hap hbn hslot] at hj ⊢
    exact hap.self_data hj
  · intro j k hj heq
    rw [ref_write hap hbn hslot] at hj heq
    rw [ref_write hap hbn hslot] at heq
    exact hap.self_alone hj heq

omit hb in
theorem slot_write (hk : k < MAXFILE) : e.slot (t.write b x).img k = e.slot t.img k := by
  rw [← Dinode.ref_slot hk, ref_write hap hbn hslot, Dinode.ref_slot hk]

theorem byte_write (hk : k < MAXFILE * BSIZE) : e.byte (t.write b x).img k =
    if k / BSIZE = bn then x.get (k % BSIZE) else e.byte t.img k := by
  have hkb : k / BSIZE < MAXFILE := Nat.div_lt_of_lt_mul (by rwa [Nat.mul_comm])
  by_cases hkbn : k / BSIZE = bn
  · unfold Dinode.byte
    rw [if_pos hkbn, slot_write hap hbn hslot hkb, hkbn, hslot, if_neg hb, write_img_self]
  · rw [if_neg hkbn]
    refine Dinode.byte_congr (slot_write hap hbn hslot hkb) fun hne => write_img_ne ?_
    intro heq
    rw [← hslot, ← Dinode.ref_slot hkb, ← Dinode.ref_slot hbn] at heq
    rw [← Dinode.ref_slot hkb] at hne
    exact hkbn (hap.self_alone hne heq)

end Write

/-- One round stores a piece within one block. -/
theorem Mapped.appended {r : Nat} (h : Mapped nd m d (off / BSIZE) s e b t) (hsolid : Solid d s.img off)
    (hbn : off / BSIZE < MAXFILE) (hsec : b < t.sectors) (hsectors : t.sectors = FSSIZE)
    (hfree : s.freeblock ≤ FSSIZE) (hr : r = min p.length ((off / BSIZE + 1) * BSIZE - off)) (hpos : 0 < r) :
    Appended nd m d off (p.take r) s e
      (t.write b ((t.img b).patch (off - off / BSIZE * BSIZE) (fun j => p.getD j 0) r)) := by
  have hlen : (p.take r).length = r := by
    rw [List.length_take]
    omega
  have hmod := Nat.div_add_mod off BSIZE
  have hmodlt : off % BSIZE < BSIZE := Nat.mod_lt _ (by decide)
  have hoff : off - off / BSIZE * BSIZE = off % BSIZE := by
    rw [Nat.mul_comm]
    omega
  have hend : off + r ≤ MAXFILE * BSIZE := by
    have hle := Nat.mul_le_mul_right BSIZE (Nat.succ_le_of_lt hbn)
    rw [Nat.succ_eq_add_one] at hle
    omega
  obtain ⟨x, hx⟩ : ∃ x, x = (t.img b).patch (off - off / BSIZE * BSIZE) (fun j => p.getD j 0) r := ⟨_, rfl⟩
  rw [← hx]
  rw [hoff] at hx
  -- the bytes of the file afterwards
  have hbyte : ∀ k < MAXFILE * BSIZE, e.byte (t.write b x).img k =
      if off ≤ k ∧ k < off + r then p.getD (k - off) 0 else d.byte s.img k := by
    intro k hk
    rw [byte_write h.apart hbn h.slot h.ne hk]
    have hkmod := Nat.div_add_mod k BSIZE
    have hkmodlt : k % BSIZE < BSIZE := Nat.mod_lt _ (by decide)
    by_cases hkbn : k / BSIZE = off / BSIZE
    · rw [if_pos hkbn, hx]
      rw [hkbn] at hkmod
      by_cases hin : off ≤ k ∧ k < off + r
      · rw [if_pos hin, Bytes.get_patch_of_mem _ _ (by omega) (by omega) (by omega)]
        congr 1
        omega
      · rw [if_neg hin, Bytes.get_patch_of_not_mem _ _ (by omega), ← h.byte hk]
        unfold Dinode.byte
        rw [hkbn, h.slot, if_neg h.ne]
    · rw [if_neg hkbn, if_neg ?_, h.byte hk]
      rintro ⟨h1, h2⟩
      apply hkbn
      unfold BSIZE at hr ⊢
      omega
  constructor
  · exact h.grew.trans (grew_write h.apart hbn h.slot h.ne hsec)
  · exact apart_write h.apart hbn h.slot h.ne hsec
  · rw [hlen]
    refine ⟨hend, fun k hk => ?_, fun k h1 h2 => ?_⟩
    · rw [slot_write h.apart hbn h.slot hk]
      by_cases hkb : k = off / BSIZE
      · rw [hkb, h.slot]
        refine iff_of_true h.ne ?_
        rw [Nat.mul_comm]
        omega
      · rw [h.others k hk hkb, hsolid.slots k hk]
        unfold BSIZE at *
        omega
    · rw [hbyte k h2, if_neg (by omega)]
      exact hsolid.tail k (by omega) h2
  · intro k hk
    rw [hbyte k (by omega), if_neg (by omega)]
  · intro k hk
    rw [hlen] at hk
    rw [hbyte (off + k) (by omega), if_pos (by omega), Nat.add_sub_cancel_left, List.getD_eq_getElem?_getD,
      List.getD_eq_getElem?_getD, List.getElem?_take_of_lt hk]
  · have := h.free
    change t.freeblock ≤ FSSIZE
    omega

/-- The loop of `iappend` takes at most two blocks for each block of the piece. -/
theorem wp_iappendLoop {E : Fail → Prop} (k : Nat) : ∀ (d : Dinode) (off : Nat) (p : List UInt8)
    (s : State), p.length ≤ k → Apart (Function.update nd m d) s.img s.freeblock → s.freeblock ≤ FSSIZE →
    s.sectors = FSSIZE → Solid d s.img off →
    ((∀ x, E x) ∨ off + p.length ≤ MAXFILE * BSIZE ∧ s.freeblock + 2 * (blocksOf off p.length).card ≤ FSSIZE) →
    wp E (iappendLoop k d off p) (fun r t => r.2 = off + p.length ∧ Appended nd m d off p s r.1 t ∧
      t.freeblock ≤ s.freeblock + 2 * (blocksOf off p.length).card) s := by
  have hnil : ∀ (d : Dinode) (off : Nat) (s : State), Apart (Function.update nd m d) s.img s.freeblock →
      s.freeblock ≤ FSSIZE → Solid d s.img off → Appended nd m d off [] s d s := by
    intro d off s hap hfree hsolid
    exact ⟨Grew.refl d s, hap, hsolid, fun _ _ => rfl, fun k hk => absurd hk (Nat.not_lt_zero k), hfree⟩
  induction k with
  | zero =>
    intro d off p s hk hap hfree _ hsolid _
    obtain rfl : p = [] := List.length_eq_zero_iff.mp (Nat.le_zero.mp hk)
    exact wp_pure ⟨rfl, hnil d off s hap hfree hsolid, Nat.le_add_right _ _⟩
  | succ k ih =>
    intro d off p s hk hap hfree hsectors hsolid henough
    unfold iappendLoop
    apply wp_ite
    · rintro rfl
      exact wp_pure ⟨rfl, hnil d off s hap hfree hsolid, Nat.le_add_right _ _⟩
    · intro hne
      have hpos : 0 < p.length := List.length_pos_of_ne_nil hne
      have hmod := Nat.div_add_mod off BSIZE
      have hmodlt : off % BSIZE < BSIZE := Nat.mod_lt _ (by decide)
      obtain ⟨r, hr⟩ : ∃ r, r = min p.length ((off / BSIZE + 1) * BSIZE - off) := ⟨_, rfl⟩
      have hr' : r = min p.length (BSIZE - off % BSIZE) := by
        rw [hr, Nat.add_mul, Nat.one_mul, Nat.mul_comm]
        omega
      have hrpos : 0 < r := by omega
      rcases blocksOf_split hrpos hr' with ⟨hsplit, hnot⟩
      have hcard : (blocksOf off p.length).card = (blocksOf (off + r) (p.length - r)).card + 1 := by
        rw [hsplit, Finset.card_insert_of_notMem hnot]
      dsimp only
      rw [← hr]
      refine wp_bind (P := fun _ t => t = s ∧ off / BSIZE < MAXFILE)
        (wp_assert (henough.imp_right fun hroom => ?_) fun hbn => ⟨rfl, hbn⟩) ?_
      · exact Nat.div_lt_of_lt_mul (by rw [Nat.mul_comm]; omega)
      rintro _ t ⟨rfl, hbn⟩
      refine wp_bind (P := fun r u => Mapped nd m d (off / BSIZE) t r.1 r.2 u)
        (wp_blockFor hap hfree (henough.imp_right fun hroom => by omega) hsectors hbn fun e b u h => h) ?_
      rintro ⟨e, b⟩ u hmap
      dsimp only at hmap ⊢
      have hsectors' : u.sectors = FSSIZE := hmap.grew.sectors.trans hsectors
      have htwo := hmap.two
      refine wp_bind (P := fun x v => b < u.sectors ∧ x = u.img b ∧ v = u)
        (wp_rsect (henough.imp_right fun hroom => ?_) fun hsec => ⟨hsec, rfl, rfl⟩) ?_
      · have hdata := hmap.apart.self_data (j := off / BSIZE)
          (by rw [Dinode.ref_slot hbn, hmap.slot]; exact hmap.ne)
        rw [Dinode.ref_slot hbn, hmap.slot] at hdata
        omega
      rintro _ v ⟨hsec, rfl, rfl⟩
      have happ := hmap.appended hsolid hbn hsec hsectors' hfree hr hrpos
      refine wp_bind (P := fun _ w => w = v.write b
        ((v.img b).patch (off - off / BSIZE * BSIZE) (fun j => p.getD j 0) r)) (wp_wsect rfl) ?_
      rintro _ w hw
      rw [← hw] at happ
      have hwfree : w.freeblock = v.freeblock := by
        rw [hw]
        rfl
      have hlen : (p.take r).length = r := by
        rw [List.length_take]
        omega
      have hlen' : (p.drop r).length = p.length - r := List.length_drop
      have hsolid' := happ.solid
      rw [hlen] at hsolid'
      refine (ih e (off + r) (p.drop r) w (by omega) happ.apart happ.free
        (happ.grew.sectors.trans hsectors) hsolid' (henough.imp_right fun hroom => ?_)).mono ?_
      · rw [hlen', hwfree]
        omega
      · rintro res x ⟨hoff, hrest, hused⟩
        rw [hlen'] at hoff hused
        refine ⟨by omega, ?_, by omega⟩
        have htrans : Appended nd m d off (p.take r ++ p.drop r) t res.1 x := happ.trans (by rwa [hlen])
        rwa [List.take_append_drop] at htrans

end Yonix.Mkfs
