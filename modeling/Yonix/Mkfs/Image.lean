/-
  Yonix/Mkfs/Image.lean
  =====================
  **The image that `mkfs` writes.**

  Between its calls `iappend` leaves a table of inodes on the image that is laid out well
  (`Laid`); a run of `main` appends the entries to the root, and to each file its bytes.  The
  image is what the kernel needs except for the last step, which rounds the size of the root
  up: when the entries fill their last block, it gets a block that is not there
  (`image_wellFormed_iff`).
-/
import Yonix.Mkfs.Layout

namespace Yonix.Mkfs

open Yonix.Fs

variable {nd nd' : Nat → Dinode} {s t u : State} {d e : Dinode} {m n j k b free : Nat} {p : List UInt8}
  {disk disk' : Nat → Block} {E : Fail → Prop}

/-! ### The blocks before the data -/

section Meta

variable (hap : Apart nd disk free) (hsame : ∀ b, nmeta ≤ b → disk' b = disk b)
include hap hsame

/-- The inode blocks and the bitmap do not matter to what inodes refer to. -/
theorem Apart.ref_meta (m j : Nat) : (nd m).ref disk' j = (nd m).ref disk j := by
  refine Dinode.ref_congr rfl fun hind => hsame _ ?_
  have := hap.data m MAXFILE
  rw [Dinode.ref_indirect] at this
  exact (this hind).1

theorem Apart.byte_meta (m : Nat) (hk : k < MAXFILE * BSIZE) : (nd m).byte disk' k = (nd m).byte disk k := by
  have hkb : k / BSIZE < MAXFILE := Nat.div_lt_of_lt_mul (by rwa [Nat.mul_comm])
  refine Dinode.byte_congr ?_ fun hne => hsame _ ?_
  · rw [← Dinode.ref_slot hkb, hap.ref_meta hsame, Dinode.ref_slot hkb]
  · rw [← Dinode.ref_slot hkb] at hne ⊢
    exact (hap.data m _ hne).1

theorem Apart.move_meta : Apart nd disk' free := by
  constructor
  · exact hap.low
  · intro b hb
    rw [hsame b (Nat.le_trans hap.low hb)]
    exact hap.fresh b hb
  · exact hap.fits
  · intro m j hj
    rw [hap.ref_meta hsame] at hj ⊢
    exact hap.data m j hj
  · intro m n j k hj heq
    rw [hap.ref_meta hsame] at hj heq
    rw [hap.ref_meta hsame] at heq
    exact hap.alone m n j k hj heq

theorem Apart.solid_meta (m : Nat) {l : Nat} (h : Solid (nd m) disk l) : Solid (nd m) disk' l := by
  refine ⟨h.size, fun bn hbn => ?_, fun k hk hlt => ?_⟩
  · rw [← Dinode.ref_slot hbn, hap.ref_meta hsame, Dinode.ref_slot hbn]
    exact h.slots bn hbn
  · rw [hap.byte_meta hsame m hlt]
    exact h.tail k hk hlt

theorem Apart.data_meta (m : Nat) {l : Nat} (hl : l ≤ MAXFILE * BSIZE) : (nd m).data disk' l = (nd m).data disk l := by
  unfold Dinode.data
  refine List.map_congr_left fun k hk => ?_
  exact hap.byte_meta hsame m (Nat.lt_of_lt_of_le (List.mem_range.mp hk) hl)

end Meta

/-- Only what the inodes refer to matters. -/
theorem Apart.congr (hap : Apart nd disk free) (hfits : ∀ m, (nd' m).Fits) (haddrs : ∀ m, (nd' m).addrs = (nd m).addrs) :
    Apart nd' disk free := by
  have href : ∀ m j, (nd' m).ref disk j = (nd m).ref disk j := fun m j => Dinode.ref_congr (haddrs m) fun _ => rfl
  constructor
  · exact hap.low
  · exact hap.fresh
  · exact hfits
  · intro m j hj
    rw [href] at hj ⊢
    exact hap.data m j hj
  · intro m n j k hj heq
    rw [href] at hj heq
    rw [href] at heq
    exact hap.alone m n j k hj heq

theorem Solid.congr {l : Nat} (h : Solid d disk l) (ha : e.addrs = d.addrs) : Solid e disk l := by
  have hslot : ∀ bn, e.slot disk bn = d.slot disk bn := fun bn => Dinode.slot_congr ha fun _ => rfl
  refine ⟨h.size, fun bn hbn => ?_, fun k hk hlt => ?_⟩
  · rw [hslot]
    exact h.slots bn hbn
  · rw [Dinode.byte_congr (hslot _) fun _ => rfl]
    exact h.tail k hk hlt

theorem data_congr {l : Nat} (ha : e.addrs = d.addrs) : e.data disk l = d.data disk l := by
  unfold Dinode.data
  exact List.map_congr_left fun k _ => Dinode.byte_congr (Dinode.slot_congr ha fun _ => rfl) fun _ => rfl

/-! ### The table of inodes -/

/-- The inode on the image. -/
def State.node (s : State) (m : Nat) : Dinode := dinodeOf (s.img (sb.iblock m)) m

/-- The inodes on the image are `nd`, and they are laid out well. -/
structure Laid (nd : Nat → Dinode) (s : State) : Prop where
  sectors : s.sectors = FSSIZE
  table : ∀ m < NINO, s.node m = nd m
  beyond : ∀ m, NINO ≤ m → nd m = Dinode.zero
  apart : Apart nd s.img s.freeblock
  solid : ∀ m, Solid (nd m) s.img (nd m).size
  free : s.freeblock ≤ FSSIZE

/-- The bytes of inode `m`. -/
def content (nd : Nat → Dinode) (s : State) (m : Nat) : List UInt8 := (nd m).data s.img (nd m).size

theorem iblock_lt (hm : m < NINO) : sb.iblock m < nmeta := by
  have h : sb.inodestart + ninodeblocks < nmeta := by decide
  have hdiv : m / IPB < ninodeblocks := Nat.div_lt_of_lt_mul (by rw [Nat.mul_comm]; exact hm)
  unfold Superblock.iblock
  omega

theorem nmeta_lt : nmeta < FSSIZE := by decide

theorem iblock_ne (m : Nat) : 1 ≠ sb.iblock m := by
  have h : 1 < sb.inodestart := by decide
  exact Nat.ne_of_lt (Nat.lt_of_lt_of_le h (Nat.le_add_left _ _))

/-- `winode`. -/
def State.setNode (s : State) (m : Nat) (d : Dinode) : State :=
  s.write (sb.iblock m) (putDinode (s.img (sb.iblock m)) m d)

theorem setNode_img (hm : m < NINO) (hb : nmeta ≤ b) : (s.setNode m d).img b = s.img b := by
  have := iblock_lt hm
  exact write_img_ne (by omega)

theorem setNode_node (hd : d.Fits) (m n : Nat) : (s.setNode m d).node n = if n = m then d else s.node n := by
  unfold State.node State.setNode
  by_cases hn : n = m
  · rw [if_pos hn, hn, write_img_self]
    exact dinodeOf_putDinode _ hd
  · rw [if_neg hn]
    by_cases hb : sb.iblock n = sb.iblock m
    · rw [hb, write_img_self]
      refine dinodeOf_putDinode_ne _ _ fun hmod => hn ?_
      unfold Superblock.iblock at hb
      rw [← Nat.div_add_mod n IPB, ← Nat.div_add_mod m IPB, hmod, Nat.add_right_cancel hb]
    · rw [write_img_ne hb]

theorem wp_winode {Q : Unit → State → Prop} (hm : m < NINO) (hsectors : s.sectors = FSSIZE)
    (h : Q () (s.setNode m d)) : wp E (winode m d) Q s := by
  have hlt : sb.iblock m < s.sectors := by
    rw [hsectors]
    exact Nat.lt_trans (iblock_lt hm) nmeta_lt
  unfold winode
  dsimp only
  refine wp_bind (P := fun x v => x = s.img (sb.iblock m) ∧ v = s) (wp_rsect (Or.inr hlt) fun _ => ⟨rfl, rfl⟩) ?_
  intro x v hv
  rw [hv.1, hv.2]
  exact wp_wsect h

theorem wp_rinode {Q : Dinode → State → Prop} (hm : m < NINO) (hsectors : s.sectors = FSSIZE)
    (h : Q (s.node m) s) : wp E (rinode m) Q s := by
  have hlt : sb.iblock m < s.sectors := by
    rw [hsectors]
    exact Nat.lt_trans (iblock_lt hm) nmeta_lt
  unfold rinode
  dsimp only
  refine wp_bind (P := fun x v => x = s.img (sb.iblock m) ∧ v = s) (wp_rsect (Or.inr hlt) fun _ => ⟨rfl, rfl⟩) ?_
  intro x v hv
  rw [hv.1, hv.2]
  exact wp_pure h

/-- An inode whose blocks are on the image is written. -/
theorem laid_setNode (hm : m < NINO) (hsectors : s.sectors = FSSIZE) (htable : ∀ n < NINO, n ≠ m → s.node n = nd n)
    (hbeyond : ∀ n, NINO ≤ n → nd n = Dinode.zero) (hap : Apart (Function.update nd m d) s.img s.freeblock)
    (hsolid : ∀ n, Solid (Function.update nd m d n) s.img (Function.update nd m d n).size)
    (hfree : s.freeblock ≤ FSSIZE) : Laid (Function.update nd m d) (s.setNode m d) := by
  have hsame : ∀ b, nmeta ≤ b → (s.setNode m d).img b = s.img b := fun b hb => setNode_img hm hb
  constructor
  · refine (write_sectors ?_).trans hsectors
    rw [hsectors]
    exact Nat.lt_trans (iblock_lt hm) nmeta_lt
  · intro n hn
    rw [setNode_node hap.self_fits]
    by_cases hnm : n = m
    · rw [if_pos hnm, hnm, Function.update_self]
    · rw [if_neg hnm, Function.update_of_ne hnm]
      exact htable n hn hnm
  · intro n hn
    rw [Function.update_of_ne (by omega)]
    exact hbeyond n hn
  · exact hap.move_meta hsame
  · exact fun n => hap.solid_meta hsame n (hsolid n)
  · exact hfree

theorem content_setNode (hm : m < NINO) (hap : Apart (Function.update nd m d) s.img s.freeblock)
    (hsolid : ∀ n, Solid (Function.update nd m d n) s.img (Function.update nd m d n).size) (n : Nat) :
    content (Function.update nd m d) (s.setNode m d) n = content (Function.update nd m d) s n :=
  hap.data_meta (fun _ hb => setNode_img hm hb) n (hsolid n).size

/-! ### `ialloc` and `iappend` -/

theorem ref_noAddrs {d : Dinode} (h : d.addrs = fun _ => 0) (disk : Nat → Block) (j : Nat) : d.ref disk j = 0 := by
  have hind : d.addrs NDIRECT = 0 := by rw [h]
  unfold Dinode.ref Dinode.slot
  rw [if_pos hind, hind, h]
  dsimp only
  split
  · split <;> rfl
  · split <;> rfl

theorem solid_noAddrs {d : Dinode} (h : d.addrs = fun _ => 0) (disk : Nat → Block) : Solid d disk 0 := by
  have hslot : ∀ bn < MAXFILE, d.slot disk bn = 0 := fun bn hbn =>
    (Dinode.ref_slot hbn).symm.trans (ref_noAddrs h disk bn)
  refine ⟨Nat.zero_le _, fun bn hbn => ?_, fun k _ hk => ?_⟩
  · rw [hslot bn hbn]
    exact iff_of_false (fun hne => hne rfl) (Nat.not_lt_zero _)
  · unfold Dinode.byte
    rw [if_pos (hslot _ (Nat.div_lt_of_lt_mul (by rwa [Nat.mul_comm])))]

/-- Inode `m` is changed, and it has new bytes. -/
structure Changed (nd : Nat → Dinode) (s : State) (m : Nat) (l : List UInt8) (nd' : Nat → Dinode) (t : State) :
    Prop where
  laid : Laid nd' t
  nodes : ∀ n, n ≠ m → nd' n = nd n
  content : Mkfs.content nd' t m = l
  others : ∀ n, n ≠ m → Mkfs.content nd' t n = Mkfs.content nd s n
  super : t.img 1 = s.img 1

theorem Changed.trans {l l' : List UInt8} {nd'' : Nat → Dinode} (h : Changed nd s m l nd' t)
    (h' : Changed nd' t m l' nd'' u) : Changed nd s m l' nd'' u :=
  ⟨h'.laid, fun n hn => (h'.nodes n hn).trans (h.nodes n hn), h'.content,
    fun n hn => (h'.others n hn).trans (h.others n hn), h'.super.trans h.super⟩

theorem length_content (nd : Nat → Dinode) (s : State) (m : Nat) : (Mkfs.content nd s m).length = (nd m).size := Dinode.length_data _ _ _

/-- What `ialloc` writes. -/
def freshInode (type : Nat) : Dinode :=
  { Dinode.zero with type := xshort type, nlink := xshort 1, size := xint 0 }

theorem freshInode_fits (type : Nat) : (freshInode type).Fits := by
  have hz := Dinode.zero_fits
  refine ⟨?_, hz.major, hz.minor, by change xshort 1 < 2 ^ 16; decide, by change xint 0 < 2 ^ 32; decide, hz.addrs,
    hz.beyond⟩
  change type % 256 + 256 * (type / 256 % 256) < 2 ^ 16
  omega

section Steps

variable (h : Laid nd s)
include h

theorem wp_ialloc {type : Nat} (hlt : s.freeinode < NINO) : wp E (ialloc type) (fun r t => r = s.freeinode ∧
    t.freeinode = s.freeinode + 1 ∧ t.freeblock = s.freeblock ∧
    Changed nd s s.freeinode [] (Function.update nd s.freeinode (freshInode type)) t) s := by
  obtain ⟨d, hd⟩ : ∃ d, d = freshInode type := ⟨_, rfl⟩
  have ha : d.addrs = fun _ => 0 := by
    rw [hd]
    rfl
  have hother : ∀ n, n ≠ s.freeinode → Function.update nd s.freeinode d n = nd n := fun n hn =>
    Function.update_of_ne hn _ _
  have hself : Function.update nd s.freeinode d s.freeinode = d := Function.update_self _ _ _
  have hap : Apart (Function.update nd s.freeinode d) s.img s.freeblock := by
    constructor
    · exact h.apart.low
    · exact h.apart.fresh
    · intro n
      by_cases hn : n = s.freeinode
      · rw [hn, hself, hd]
        exact freshInode_fits type
      · rw [hother n hn]
        exact h.apart.fits n
    · intro n j hj
      by_cases hn : n = s.freeinode
      · rw [hn, hself, ref_noAddrs ha] at hj
        exact absurd rfl hj
      · rw [hother n hn] at hj ⊢
        exact h.apart.data n j hj
    · intro n n' j k hj heq
      by_cases hn : n = s.freeinode
      · rw [hn, hself, ref_noAddrs ha] at hj
        exact absurd rfl hj
      · rw [hother n hn] at hj heq
        by_cases hn' : n' = s.freeinode
        · rw [hn', hself, ref_noAddrs ha] at heq
          exact absurd heq hj
        · rw [hother n' hn'] at heq
          exact h.apart.alone n n' j k hj heq
  have hsolid : ∀ n, Solid (Function.update nd s.freeinode d n) s.img (Function.update nd s.freeinode d n).size := by
    intro n
    by_cases hn : n = s.freeinode
    · rw [hn, hself, show d.size = 0 by rw [hd]; rfl]
      exact solid_noAddrs ha _
    · rw [hother n hn]
      exact h.solid n
  unfold ialloc
  refine wp_bind (P := fun r v => r = s.freeinode ∧ v = { s with freeinode := s.freeinode + 1 })
    (wp_nextInode ⟨rfl, rfl⟩) ?_
  intro r v hv
  rw [hv.1, hv.2]
  rw [show ({ Dinode.zero with type := xshort type, nlink := xshort 1, size := xint 0 } : Dinode) = d from hd.symm, ← hd]
  obtain ⟨w, hw⟩ : ∃ w, w = ({ s with freeinode := s.freeinode + 1 } : State) := ⟨_, rfl⟩
  have himg : w.img = s.img := by rw [hw]
  rw [← hw]
  refine wp_bind (P := fun _ x => x = w.setNode s.freeinode d) (wp_winode hlt (by rw [hw]; exact h.sectors) rfl) ?_
  intro _ x hx
  rw [hx]
  have hap' : Apart (Function.update nd s.freeinode d) w.img w.freeblock := by
    rw [hw]
    exact hap
  have hsolid' : ∀ n, Solid (Function.update nd s.freeinode d n) w.img (Function.update nd s.freeinode d n).size := by
    rw [himg]
    exact hsolid
  refine wp_pure ⟨rfl, by rw [hw]; rfl, by rw [hw]; rfl, ?_, ?_, ?_, ?_, ?_⟩
  · refine laid_setNode hlt (by rw [hw]; exact h.sectors) ?_ h.beyond hap' hsolid' (by rw [hw]; exact h.free)
    intro n hn _
    rw [hw]
    exact h.table n hn
  · exact hother
  · rw [content_setNode hlt hap' hsolid', Mkfs.content, hself, show d.size = 0 by rw [hd]; rfl]
    rfl
  · intro n hn
    rw [content_setNode hlt hap' hsolid', Mkfs.content, hother n hn, himg]
    rfl
  · rw [← himg]
    exact write_img_ne (iblock_ne _)

theorem wp_iappend (hm : m < NINO) (henough : (∀ x, E x) ∨ (nd m).size + p.length ≤ MAXFILE * BSIZE ∧
      s.freeblock + 2 * (blocksOf (nd m).size p.length).card ≤ FSSIZE) : wp E (iappend m p) (fun _ t => ∃ nd',
    Changed nd s m (content nd s m ++ p) nd' t ∧ (nd' m).type = (nd m).type ∧
      (nd' m).size = (nd m).size + p.length ∧ t.freeinode = s.freeinode ∧
      t.freeblock ≤ s.freeblock + 2 * (blocksOf (nd m).size p.length).card) s := by
  have hnode := h.table m hm
  have hsize : (nd m).size < 2 ^ 32 := (h.apart.fits m).size
  unfold iappend
  refine wp_bind (P := fun r v => r = nd m ∧ v = s) (wp_rinode hm h.sectors ⟨hnode, rfl⟩) ?_
  intro r v hv
  rw [hv.1, hv.2, xint_eq hsize]
  have hap : Apart (Function.update nd m (nd m)) s.img s.freeblock := by
    rw [Function.update_eq_self]
    exact h.apart
  refine wp_bind (wp_iappendLoop _ _ _ _ _ (Nat.le_refl _) hap h.free h.sectors (h.solid m) henough) ?_
  rintro ⟨e, off⟩ t ⟨hoff, happ, hused⟩
  dsimp only at hoff happ hused ⊢
  have hend : off ≤ MAXFILE * BSIZE := by
    rw [hoff]
    exact happ.solid.size
  have hoff32 : off < 2 ^ 32 := Nat.lt_of_le_of_lt hend (by decide)
  rw [xint_eq hoff32]
  obtain ⟨d, hd⟩ : ∃ d, d = { e with size := off } := ⟨_, rfl⟩
  rw [← hd]
  have ha : d.addrs = e.addrs := by rw [hd]
  have hdsize : d.size = off := by rw [hd]
  have hself : Function.update nd m d m = d := Function.update_self _ _ _
  have hother : ∀ n, n ≠ m → Function.update nd m d n = nd n := fun n hn => Function.update_of_ne hn _ _
  have hefits := happ.apart.self_fits
  have hap' : Apart (Function.update nd m d) t.img t.freeblock := by
    refine happ.apart.congr (fun n => ?_) fun n => ?_
    · by_cases hn : n = m
      · rw [hn, hself, hd]
        exact ⟨hefits.type, hefits.major, hefits.minor, hefits.nlink, hoff32, hefits.addrs, hefits.beyond⟩
      · rw [hother n hn]
        exact h.apart.fits n
    · by_cases hn : n = m
      · rw [hn, hself, Function.update_self, ha]
      · rw [hother n hn, Function.update_of_ne hn]
  have hsolid : ∀ n, Solid (Function.update nd m d n) t.img (Function.update nd m d n).size := by
    intro n
    by_cases hn : n = m
    · rw [hn, hself, hdsize, hoff]
      exact happ.solid.congr ha
    · rw [hother n hn]
      exact happ.grew.solid hap hn (h.solid n)
  refine wp_winode hm (happ.grew.sectors.trans h.sectors) ⟨Function.update nd m d, ⟨?_, hother, ?_, ?_, ?_⟩, ?_, ?_,
    ?_, hused⟩
  · refine laid_setNode hm (happ.grew.sectors.trans h.sectors) (fun n hn hne => ?_) h.beyond hap' hsolid happ.free
    have hlt := iblock_lt hn
    rw [← h.table n hn]
    unfold State.node
    rw [happ.grew.kept _ (Or.inl hlt)]
  · rw [content_setNode hm hap' hsolid, Mkfs.content, hself, hdsize, data_congr ha]
    refine List.ext_getElem? fun k => ?_
    rw [Dinode.getElem?_data, List.getElem?_append, length_content, Mkfs.content, Dinode.getElem?_data]
    by_cases hk : k < (nd m).size
    · rw [if_pos hk, if_pos (by omega), if_pos hk, happ.before k hk]
    · rw [if_neg hk]
      by_cases hko : k < off
      · have hst := happ.stored (k - (nd m).size) (by omega)
        rw [Nat.add_sub_cancel' (by omega)] at hst
        rw [if_pos hko, hst, List.getElem?_eq_getElem (by omega), List.getD_eq_getElem _ _ (by omega)]
      · rw [if_neg hko, List.getElem?_eq_none (by omega)]
  · intro n hn
    rw [content_setNode hm hap' hsolid, Mkfs.content, hother n hn]
    unfold Mkfs.content Dinode.data
    refine List.map_congr_left fun k hk => happ.grew.byte hap hn ?_
    exact Nat.lt_of_lt_of_le (List.mem_range.mp hk) (h.solid n).size
  · have hkept : t.img 1 = s.img 1 := happ.grew.kept 1 (Or.inl (by decide))
    rw [← hkept]
    exact write_img_ne (iblock_ne _)
  · rw [hself, hd]
    change e.type = _
    rw [happ.grew.din]
  · rw [hself, hdsize, hoff]
  · exact happ.grew.freeinode

end Steps

theorem card_blocksOf_le (off n : Nat) : (blocksOf off n).card ≤ n / BSIZE + 2 := by
  have hsub : blocksOf off n ⊆ Finset.Ico (off / BSIZE) (off / BSIZE + (n / BSIZE + 2)) := by
    intro bn hbn
    rcases mem_blocksOf.mp hbn with ⟨k, h1, h2, hk⟩
    unfold BSIZE at *
    exact Finset.mem_Ico.mpr ⟨by omega, by omega⟩
  refine Nat.le_trans (Finset.card_le_card hsub) ?_
  rw [Nat.card_Ico, Nat.add_sub_cancel_left]

/-- The blocks that the pieces may take. -/
def cost (l : List (List UInt8)) : Nat := (l.map fun r => 2 * (r.length / BSIZE + 2)).sum

theorem wp_readsLoop (hm : m < NINO) (l : List (List UInt8)) : ∀ (nd : Nat → Dinode) (s : State), Laid nd s →
    ((∀ x, E x) ∨ (nd m).size + l.flatten.length ≤ MAXFILE * BSIZE ∧ s.freeblock + cost l ≤ FSSIZE) →
    wp E (readsLoop m l) (fun _ t => ∃ nd', Changed nd s m (content nd s m ++ l.flatten) nd' t ∧
      (nd' m).type = (nd m).type ∧ t.freeinode = s.freeinode ∧ t.freeblock ≤ s.freeblock + cost l) s := by
  induction l with
  | nil =>
    intro nd s h _
    refine wp_pure ⟨nd, ⟨h, fun _ _ => rfl, ?_, fun _ _ => rfl, rfl⟩, rfl, rfl, Nat.le_add_right _ _⟩
    rw [List.flatten_nil, List.append_nil]
  | cons buf l ih =>
    intro nd s h henough
    have hcard := card_blocksOf_le (nd m).size buf.length
    have hcost : cost (buf :: l) = 2 * (buf.length / BSIZE + 2) + cost l := rfl
    rw [List.flatten_cons, List.length_append, hcost] at henough
    refine wp_bind (wp_iappend h hm (henough.imp_right fun hroom => by omega)) ?_
    rintro _ t ⟨nd', hch, htype, hsize, hfi, hfree⟩
    refine (ih nd' t hch.laid (henough.imp_right fun hroom => by omega)).mono ?_
    rintro _ u ⟨nd'', hch', htype', hfi', hfree'⟩
    refine ⟨nd'', ?_, htype'.trans htype, hfi'.trans hfi, by omega⟩
    have htrans := hch.trans hch'
    rwa [hch.content, List.append_assoc, ← List.flatten_cons] at htrans

/-! ### The files -/

/-- The entries of the files, which have the inodes from `k` on. -/
def entryList (k : Nat) : List Input → List (List UInt8)
  | [] => []
  | f :: l => Mkfs.direntOf k f.stem :: entryList (k + 1) l

def entries (k : Nat) (l : List Input) : List UInt8 := (entryList k l).flatten

theorem length_direntOf (k : Nat) (l : List UInt8) : (Mkfs.direntOf k l).length = DIRENTSIZE := by
  unfold Mkfs.direntOf
  rw [List.length_cons, List.length_cons, length_strncpy]
  rfl

theorem length_entries (l : List Input) : ∀ k, (entries k l).length = DIRENTSIZE * l.length := by
  induction l with
  | nil => exact fun _ => rfl
  | cons f l ih =>
    intro k
    have hrest := ih (k + 1)
    unfold entries at hrest ⊢
    rw [entryList, List.flatten_cons, List.length_append, length_direntOf, hrest, List.length_cons, Nat.mul_succ,
      Nat.add_comm]

/-- After the loop over the files, the first of which has inode `k`. -/
structure Stored (nd : Nat → Dinode) (s : State) (k : Nat) (l : List Input) (nd' : Nat → Dinode) (t : State) :
    Prop where
  laid : Laid nd' t
  next : t.freeinode = k + l.length
  super : t.img 1 = s.img 1
  type : (nd' 1).type = (nd 1).type
  root : content nd' t 1 = content nd s 1 ++ entries k l
  files : ∀ i f, l[i]? = some f → (nd' (k + i)).type = T_FILE ∧ content nd' t (k + i) = f.bytes
  others : ∀ n, n ≠ 1 → n < k ∨ k + l.length ≤ n → nd' n = nd n ∧ content nd' t n = content nd s n

/-- The blocks that the files may take. -/
def costs (l : List Input) : Nat := (l.map fun f => 2 + cost f.reads).sum

/-- One pass of the loop: a new inode with the bytes of the file, and an entry in the root. -/
theorem wp_addFile {f : Input} {c : Nat} (h : Laid nd s) (hk : s.freeinode = k) (hk1 : 1 < k) (hlt : k < NINO)
    (hroot : (nd 1).size = DIRENTSIZE * c)
    (henough : (∀ x, E x) ∨ (SLASH ∉ f.name ∧ f.bytes.length ≤ MAXFILE * BSIZE) ∧
      DIRENTSIZE * (c + 1) ≤ MAXFILE * BSIZE ∧ s.freeblock + (2 + cost f.reads) ≤ FSSIZE) :
    wp E (addFile 1 f) (fun _ t => ∃ nd', Laid nd' t ∧ t.freeinode = k + 1 ∧ t.img 1 = s.img 1 ∧
      (nd' 1).type = (nd 1).type ∧ content nd' t 1 = content nd s 1 ++ Mkfs.direntOf k f.stem ∧
      ((nd' k).type = T_FILE ∧ content nd' t k = f.bytes) ∧ t.freeblock ≤ s.freeblock + (2 + cost f.reads) ∧
      ∀ n, n ≠ 1 → n ≠ k → nd' n = nd n ∧ content nd' t n = content nd s n) s := by
  subst hk
  have h1k : 1 ≠ s.freeinode := Nat.ne_of_lt hk1
  have h1 : 1 < NINO := by decide
  have hcard := card_blocksOf_dirent c
  have hdirent := length_direntOf s.freeinode f.stem
  unfold addFile
  refine wp_bind (P := fun _ t => t = s) (wp_assert (henough.imp_right fun hroom => hroom.1.1) fun _ => rfl) ?_
  intro _ t ht
  rw [ht]
  refine wp_bind (wp_ialloc h hlt) ?_
  rintro inum t ⟨rfl, hfi, hfree, hch⟩
  have hnode1 : Function.update nd s.freeinode (freshInode T_FILE) 1 = nd 1 := hch.nodes 1 h1k
  refine wp_bind (wp_iappend hch.laid h1 (henough.imp_right fun hroom => ?_)) ?_
  · rw [hnode1, hroot, hdirent, hfree]
    refine ⟨?_, by omega⟩
    rw [← Nat.mul_succ]
    exact hroom.2.1
  rintro _ u ⟨nd1, hch1, htype1, -, hfi1, hfree1⟩
  rw [hnode1, hroot, hdirent] at hfree1
  have hnodek : nd1 s.freeinode = freshInode T_FILE := by
    rw [hch1.nodes _ h1k.symm, Function.update_self]
  refine (wp_readsLoop hlt f.reads nd1 u hch1.laid (henough.imp_right fun hroom => ?_)).mono ?_
  · rw [hnodek]
    refine ⟨?_, by omega⟩
    change 0 + f.bytes.length ≤ _
    rw [Nat.zero_add]
    exact hroom.1.2
  rintro _ v ⟨nd2, hch2, htype2, hfi2, hfree2⟩
  refine ⟨nd2, hch2.laid, ?_, ?_, ?_, ?_, ⟨?_, ?_⟩, by omega, fun n hn1 hnk => ⟨?_, ?_⟩⟩
  · rw [hfi2, hfi1, hfi]
  · rw [hch2.super, hch1.super, hch.super]
  · rw [hch2.nodes 1 h1k, htype1, hch.nodes 1 h1k]
  · rw [hch2.others 1 h1k, hch1.content, hch.others 1 h1k]
  · rw [htype2, hnodek]
    rfl
  · rw [hch2.content, hch1.others _ h1k.symm, hch.content]
    rfl
  · rw [hch2.nodes n hnk, hch1.nodes n hn1, hch.nodes n hnk]
  · rw [hch2.others n hnk, hch1.others n hn1, hch.others n hnk]

theorem wp_filesLoop (l : List Input) : ∀ (nd : Nat → Dinode) (s : State) (k c : Nat), Laid nd s →
    s.freeinode = k → 1 < k → k + l.length ≤ NINO → (nd 1).size = DIRENTSIZE * c →
    ((∀ x, E x) ∨ (∀ f ∈ l, SLASH ∉ f.name ∧ f.bytes.length ≤ MAXFILE * BSIZE) ∧
      DIRENTSIZE * (c + l.length) ≤ MAXFILE * BSIZE ∧ s.freeblock + costs l ≤ FSSIZE) →
    wp E (filesLoop 1 l) (fun _ t => ∃ nd', Stored nd s k l nd' t) s := by
  induction l with
  | nil =>
    intro nd s k c h hk _ _ _ _
    refine wp_pure ⟨nd, h, hk, rfl, rfl, ?_, fun i f hf => ?_, fun _ _ _ => ⟨rfl, rfl⟩⟩
    · exact (List.append_nil _).symm
    · rw [List.getElem?_nil] at hf
      cases hf
  | cons f l ih =>
    intro nd s k c h hk hk1 hle hroot henough
    have hcosts : costs (f :: l) = 2 + cost f.reads + costs l := rfl
    rw [List.length_cons] at hle
    rw [List.length_cons, hcosts] at henough
    refine wp_bind (wp_addFile h hk hk1 (by omega) hroot (henough.imp_right fun hroom => ⟨hroom.1 f List.mem_cons_self,
      Nat.le_trans (Nat.mul_le_mul_left _ (by omega)) hroom.2.1, by omega⟩)) ?_
    rintro _ t ⟨nd', hlaid, hfi, hsuper, htype, hcontent, hfile, hfree, hothers⟩
    have hroot' : (nd' 1).size = DIRENTSIZE * (c + 1) := by
      rw [← length_content nd' t 1, hcontent, List.length_append, length_content, length_direntOf, hroot, Nat.mul_succ]
    refine (ih nd' t (k + 1) (c + 1) hlaid hfi (by omega) (by omega) hroot' (henough.imp_right fun hroom => ?_)).mono ?_
    · refine ⟨fun g hg => hroom.1 g (List.mem_cons_of_mem _ hg), ?_, by omega⟩
      rw [Nat.add_assoc, Nat.add_comm 1]
      exact hroom.2.1
    rintro _ u ⟨nd'', hst⟩
    rcases hst.others k (by omega) (Or.inl (Nat.lt_succ_self k)) with ⟨hkn, hkc⟩
    refine ⟨nd'', hst.laid, ?_, hst.super.trans hsuper, hst.type.trans htype, ?_, fun i g hg => ?_, fun n hn1 hn => ?_⟩
    · rw [hst.next, List.length_cons]
      omega
    · rw [hst.root, hcontent, List.append_assoc]
      rfl
    · cases i with
      | zero =>
        rw [List.getElem?_cons_zero, Option.some.injEq] at hg
        subst hg
        rw [Nat.add_zero, hkn, hkc]
        exact hfile
      | succ i =>
        rw [List.getElem?_cons_succ] at hg
        have hfile' := hst.files i g hg
        rwa [show k + 1 + i = k + (i + 1) by omega] at hfile'
    · rw [List.length_cons] at hn
      rcases hst.others n hn1 (by omega) with ⟨h1, h2⟩
      rcases hothers n hn1 (by omega) with ⟨h3, h4⟩
      exact ⟨h1.trans h3, h2.trans h4⟩

/-! ### `main` -/

theorem wp_zeroLoop (l : List Nat) : ∀ s : State, (s.img = fun _ => Bytes.zero) → (∀ i ∈ l, i < FSSIZE) →
    s.sectors ≤ FSSIZE → wp E (zeroLoop l) (fun _ t => (t.img = fun _ => Bytes.zero) ∧ t.sectors ≤ FSSIZE ∧
      (∀ i ∈ l, i < t.sectors) ∧ s.sectors ≤ t.sectors ∧ t.freeinode = s.freeinode ∧ t.freeblock = s.freeblock) s := by
  induction l with
  | nil =>
    intro s himg _ hsec
    exact wp_pure ⟨himg, hsec, fun i hi => absurd hi List.not_mem_nil, Nat.le_refl _, rfl, rfl⟩
  | cons i l ih =>
    intro s himg hl hsec
    refine wp_bind (P := fun _ t => t = s.write i Bytes.zero) (wp_wsect rfl) ?_
    rintro _ t rfl
    have hi := hl i List.mem_cons_self
    refine (ih (s.write i Bytes.zero) ?_ (fun j hj => hl j (List.mem_cons_of_mem _ hj)) (Nat.max_le.mpr ⟨hsec, hi⟩)).mono ?_
    · change Function.update s.img i Bytes.zero = _
      rw [himg]
      exact Function.update_eq_self i fun _ => Bytes.zero
    · rintro _ u ⟨h1, h2, h3, h4, h5, h6⟩
      change max s.sectors (i + 1) ≤ u.sectors at h4
      refine ⟨h1, h2, fun j hj => ?_, by omega, h5, h6⟩
      rcases List.mem_cons.mp hj with rfl | hj
      · omega
      · exact h3 j hj

theorem wp_zero (n : Nat) (hn : n = FSSIZE) : wp E (zeroLoop (List.range n))
    (fun _ t => (t.img = fun _ => Bytes.zero) ∧ t.sectors = FSSIZE ∧ t.freeinode = 1 ∧ t.freeblock = nmeta) start := by
  refine (wp_zeroLoop (List.range n) start rfl (fun i hi => hn ▸ List.mem_range.mp hi) (Nat.zero_le _)).mono ?_
  rintro _ t ⟨himg, hsec, hall, -, hfi, hfb⟩
  have hlast : FSSIZE - 1 < t.sectors := hall _ (List.mem_range.mpr (by rw [hn]; unfold FSSIZE; omega))
  exact ⟨himg, Nat.le_antisymm hsec hlast, hfi, hfb⟩

/-- The block of the superblock. -/
def superBlock : Block := Bytes.zero.patch 0 sbBytes 28

theorem superOf_superBlock : superOf superBlock = sb := by
  have h1 : superBlock.word 0 = sb.size := by decide
  have h2 : superBlock.word 1 = sb.nblocks := by decide
  have h3 : superBlock.word 2 = sb.ninodes := by decide
  have h4 : superBlock.word 3 = sb.nlog := by decide
  have h5 : superBlock.word 4 = sb.logstart := by decide
  have h6 : superBlock.word 5 = sb.inodestart := by decide
  have h7 : superBlock.word 6 = sb.bmapstart := by decide
  unfold superOf
  rw [h1, h2, h3, h4, h5, h6, h7]

theorem bit_ballocBuf {used : Nat} (hused : used ≤ BSIZE * 8) (b : Nat) :
    (ballocBuf used).bit b = decide (b < used) := by
  induction used with
  | zero =>
    rw [decide_eq_false (Nat.not_lt_zero b)]
    unfold ballocBuf Bytes.bit
    rw [Bytes.get_zero]
    exact Nat.zero_testBit _
  | succ i ih =>
    rw [ballocBuf, Bytes.bit_setBit _ (by unfold BSIZE at *; omega), ih (by omega)]
    by_cases h : b = i
    · subst h
      simp
    · simp [h]
      omega

theorem laid_empty (himg : ∀ b, b ≠ 1 → s.img b = Bytes.zero) (hsectors : s.sectors = FSSIZE)
    (hfree : s.freeblock = nmeta) : Laid (fun _ => Dinode.zero) s := by
  have hmeta : 1 < nmeta := by decide
  have ha : Dinode.zero.addrs = fun _ => 0 := rfl
  refine ⟨hsectors, fun m _ => ?_, fun _ _ => rfl, ⟨?_, fun b hb => ?_, fun _ => Dinode.zero_fits, fun m j hj => ?_,
    fun m n j k hj _ => ?_⟩, fun m => solid_noAddrs ha _, ?_⟩
  · unfold State.node
    rw [himg _ (iblock_ne m).symm, dinodeOf_zero]
  · rw [hfree]
  · exact himg b (by omega)
  · exact absurd (ref_noAddrs ha _ _) hj
  · exact absurd (ref_noAddrs ha _ _) hj
  · rw [hfree]
    exact Nat.le_of_lt nmeta_lt

/-- The entries of the root. -/
def rootBytes (files : List Input) : List UInt8 :=
  Mkfs.direntOf 1 DOT ++ Mkfs.direntOf 1 DOTDOT ++ entries 2 files

theorem length_rootBytes (files : List Input) : (rootBytes files).length = DIRENTSIZE * (files.length + 2) := by
  unfold rootBytes
  rw [List.length_append, List.length_append, length_direntOf, length_direntOf, length_entries, Nat.mul_add]
  omega

/-- The size that `main` gives the root. -/
def rootSize (files : List Input) : Nat := (DIRENTSIZE * (files.length + 2) / BSIZE + 1) * BSIZE

theorem length_le_rootSize (files : List Input) : DIRENTSIZE * (files.length + 2) ≤ rootSize files := by
  unfold rootSize BSIZE
  omega

theorem rootSize_le {files : List Input} (hle : files.length + 1 ≤ NINODES) : rootSize files ≤ MAXFILE * BSIZE := by
  have h8 : rootSize files ≤ 8 * BSIZE := by
    unfold NINODES at hle
    unfold rootSize DIRENTSIZE BSIZE
    omega
  exact Nat.le_trans h8 (by decide)

/-- The image at the end of `main`. -/
structure Written (files : List Input) (nd : Nat → Dinode) (s : State) : Prop where
  table : ∀ m < NINO, s.node m = nd m
  apart : Apart nd s.img s.freeblock
  free : s.freeblock ≤ FSSIZE
  rootType : (nd 1).type = T_DIR
  rootSize : (nd 1).size = Mkfs.rootSize files
  rootSolid : Solid (nd 1) s.img (DIRENTSIZE * (files.length + 2))
  root : (nd 1).data s.img (DIRENTSIZE * (files.length + 2)) = rootBytes files
  file : ∀ i f, files[i]? = some f → (nd (2 + i)).type = T_FILE ∧ content nd s (2 + i) = f.bytes
  solid : ∀ m, m ≠ 1 → Solid (nd m) s.img (nd m).size
  rest : ∀ m, m ≠ 1 → m < 2 ∨ 2 + files.length ≤ m → nd m = Dinode.zero
  bitmap : ∀ b, (s.img sb.bmapstart).bit b = decide (b < s.freeblock)
  super : s.img 1 = superBlock

/-- The last steps: the size of the root, and the bitmap. -/
theorem wp_finish {files : List Input} (h : Laid nd s) (htype : (nd 1).type = T_DIR)
    (hroot : content nd s 1 = rootBytes files)
    (hfiles : ∀ i f, files[i]? = some f → (nd (2 + i)).type = T_FILE ∧ content nd s (2 + i) = f.bytes)
    (hrest : ∀ m, m ≠ 1 → m < 2 ∨ 2 + files.length ≤ m → nd m = Dinode.zero) (hsuper : s.img 1 = superBlock) :
    wp E (do
      let din ← rinode 1
      let off := xint din.size
      winode 1 { din with size := xint ((off / BSIZE + 1) * BSIZE) }
      let s ← get
      balloc s.freeblock) (fun _ t => ∃ nd', Written files nd' t) s := by
  have hsize : (nd 1).size = DIRENTSIZE * (files.length + 2) := by
    rw [← length_content nd s 1, hroot, length_rootBytes]
  have hmax := (h.solid 1).size
  have hround : rootSize files < 2 ^ 32 := by
    rw [hsize] at hmax
    have hbound : MAXFILE * BSIZE + BSIZE < 2 ^ 32 := by decide
    have hdiv := Nat.div_mul_le_self (DIRENTSIZE * (files.length + 2)) BSIZE
    unfold rootSize
    rw [Nat.add_mul, Nat.one_mul]
    exact Nat.lt_of_le_of_lt (Nat.add_le_add_right (Nat.le_trans hdiv hmax) _) hbound
  have h1 : 1 < NINO := by decide
  refine wp_bind (P := fun r v => r = nd 1 ∧ v = s) (wp_rinode h1 h.sectors ⟨h.table 1 h1, rfl⟩) ?_
  intro r v hv
  rw [hv.1, hv.2]
  dsimp only
  have hoff : xint ((xint (nd 1).size / BSIZE + 1) * BSIZE) = rootSize files := by
    rw [xint_eq (h.apart.fits 1).size, hsize]
    exact xint_eq hround
  rw [hoff]
  obtain ⟨d, hd⟩ : ∃ d, d = { nd 1 with size := rootSize files } := ⟨_, rfl⟩
  rw [← hd]
  refine wp_bind (P := fun _ t => t = s.setNode 1 d) (wp_winode h1 h.sectors rfl) ?_
  rintro _ t rfl
  apply wp_get_bind
  unfold balloc
  refine wp_bind (P := fun _ t => t = s.setNode 1 d)
    (wp_assert (Or.inr (Nat.lt_of_le_of_lt h.free (by decide))) fun _ => rfl) ?_
  rintro _ t rfl
  apply wp_wsect
  have hfree : (s.setNode 1 d).freeblock = s.freeblock := rfl
  rw [hfree]
  -- neither step changes a data block
  have hsame : ∀ b, nmeta ≤ b → (((s.setNode 1 d).write sb.bmapstart (ballocBuf s.freeblock)).img b) = s.img b := by
    intro b hb
    have : sb.bmapstart < nmeta := by decide
    rw [write_img_ne (by omega), setNode_img h1 hb]
  have ha : d.addrs = (nd 1).addrs := by rw [hd]
  have hself : Function.update nd 1 d 1 = d := Function.update_self _ _ _
  have hother : ∀ n, n ≠ 1 → Function.update nd 1 d n = nd n := fun n hn => Function.update_of_ne hn _ _
  have hfits := h.apart.fits 1
  have hdfits : d.Fits := by
    rw [hd]
    exact ⟨hfits.type, hfits.major, hfits.minor, hfits.nlink, hround, hfits.addrs, hfits.beyond⟩
  have hap : Apart (Function.update nd 1 d) s.img s.freeblock := by
    refine h.apart.congr (fun n => ?_) fun n => ?_
    · by_cases hn : n = 1
      · rw [hn, hself]
        exact hdfits
      · rw [hother n hn]
        exact h.apart.fits n
    · by_cases hn : n = 1
      · rw [hn, hself, ha]
      · rw [hother n hn]
  refine ⟨Function.update nd 1 d, ?_, hap.move_meta hsame, h.free, ?_, ?_, ?_, ?_, fun i f hf => ?_, fun m hm => ?_,
    fun m hm hrange => ?_, fun b => ?_, ?_⟩
  · intro m hm
    have hne : sb.iblock m ≠ sb.bmapstart := by
      have hdiv : m / IPB < ninodeblocks := Nat.div_lt_of_lt_mul (by rw [Nat.mul_comm]; exact hm)
      have : sb.inodestart + ninodeblocks ≤ sb.bmapstart := by decide
      unfold Superblock.iblock
      omega
    have hnode := setNode_node (s := s) hdfits 1 m
    unfold State.node at hnode ⊢
    rw [write_img_ne hne, hnode]
    by_cases hm1 : m = 1
    · rw [if_pos hm1, hm1, hself]
    · rw [if_neg hm1, hother m hm1]
      exact h.table m hm
  · rw [hself, hd]
    exact htype
  · rw [hself, hd]
  · have hsolid := h.solid 1
    rw [hsize] at hsolid
    exact hap.solid_meta hsame 1 (by rw [hself]; exact hsolid.congr ha)
  · rw [hap.data_meta hsame 1 (by rw [← hsize]; exact hmax), hself, data_congr ha, ← hsize]
    exact hroot
  · have hne : 2 + i ≠ 1 := by omega
    rw [content, hother _ hne, h.apart.data_meta hsame _ (h.solid _).size]
    exact hfiles i f hf
  · rw [hother m hm]
    exact h.apart.solid_meta hsame m (h.solid m)
  · rw [hother m hm]
    exact hrest m hm hrange
  · rw [write_img_self]
    exact bit_ballocBuf (Nat.le_trans h.free (by decide)) b
  · have hne : (1 : Nat) ≠ sb.bmapstart := by decide
    rw [write_img_ne hne, State.setNode, write_img_ne (iblock_ne 1)]
    exact hsuper

/-- The files fit. -/
structure Enough (files : List Input) : Prop where
  file : ∀ f ∈ files, SLASH ∉ f.name ∧ f.bytes.length ≤ MAXFILE * BSIZE
  room : nmeta + 4 + costs files ≤ FSSIZE

theorem wp_main {files : List Input} (hle : files.length + 1 ≤ NINODES) (henough : (∀ x, E x) ∨ Enough files) :
    wp E (main files) (fun _ t => ∃ nd, Written files nd t) start := by
  have h1 : 1 < NINO := by decide
  have hino : NINODES + 1 ≤ NINO := by decide
  unfold main
  generalize hn : FSSIZE = n
  refine wp_bind (wp_zero n hn.symm) ?_
  rintro _ s ⟨himg, hsectors, hfi, hfb⟩
  refine wp_bind (P := fun _ t => t = s.write 1 superBlock) (wp_wsect rfl) ?_
  rintro _ t ht
  have htfree : t.freeblock = nmeta := by
    rw [ht]
    exact hfb
  have hlaid : Laid (fun _ => Dinode.zero) t := by
    refine laid_empty (fun b hb => ?_) ?_ htfree
    · rw [ht, write_img_ne hb, himg]
    · rw [ht, write_sectors (by rw [hsectors]; decide)]
      exact hsectors
  have htfi : t.freeinode = 1 := by
    rw [ht]
    exact hfi
  have htsuper : t.img 1 = superBlock := by rw [ht, write_img_self]
  refine wp_bind (wp_ialloc hlaid (by rw [htfi]; exact h1)) ?_
  rintro rootino u ⟨rfl, hufi, hufree, hch⟩
  rw [htfi] at hch hufi ⊢
  refine wp_bind (P := fun _ v => v = u) (wp_assert (Or.inr rfl) fun _ => rfl) ?_
  rintro _ v rfl
  have hdot := length_direntOf 1 DOT
  have hdotdot := length_direntOf 1 DOTDOT
  have hnode1 : Function.update (fun _ => Dinode.zero) 1 (freshInode T_DIR) 1 = freshInode T_DIR :=
    Function.update_self _ _ _
  have hcard0 := card_blocksOf_dirent 0
  have hcard1 := card_blocksOf_dirent 1
  rw [Nat.mul_zero] at hcard0
  rw [Nat.mul_one] at hcard1
  refine wp_bind (wp_iappend hch.laid h1 (henough.imp_right fun hroom => ?_)) ?_
  · have hr := hroom.room
    rw [hnode1, hdot, hufree, htfree]
    change 0 + DIRENTSIZE ≤ _ ∧ nmeta + 2 * (blocksOf 0 DIRENTSIZE).card ≤ _
    exact ⟨by decide, by omega⟩
  rintro _ w ⟨nd1, hch1, htype1, hsize1, hfi1, hfree1⟩
  rw [hnode1, hdot] at hsize1 hfree1
  change (nd1 1).size = 0 + DIRENTSIZE at hsize1
  change w.freeblock ≤ v.freeblock + 2 * (blocksOf 0 DIRENTSIZE).card at hfree1
  rw [Nat.zero_add] at hsize1
  refine wp_bind (wp_iappend hch1.laid h1 (henough.imp_right fun hroom => ?_)) ?_
  · have hr := hroom.room
    rw [hsize1, hdotdot]
    exact ⟨by decide, by omega⟩
  rintro _ x ⟨nd2, hch2, htype2, hsize2, hfi2, hfree2⟩
  rw [hsize1, hdotdot] at hsize2 hfree2
  have hch12 := (hch.trans hch1).trans hch2
  rw [hch1.content, hch.content, List.nil_append] at hch12
  refine wp_bind (wp_filesLoop files nd2 x 2 2 hch2.laid (by rw [hfi2, hfi1, hufi]) (by decide) (by omega)
    (by rw [hsize2, Nat.mul_two]) (henough.imp_right fun hroom => ?_)) ?_
  · have hr := hroom.room
    refine ⟨hroom.file, ?_, by omega⟩
    rw [Nat.add_comm]
    exact Nat.le_trans (length_le_rootSize files) (rootSize_le hle)
  rintro _ y ⟨nd3, hst⟩
  have htype : (nd3 1).type = T_DIR := by
    rw [hst.type, htype2, htype1, hnode1]
    rfl
  refine wp_finish hst.laid htype ?_ hst.files (fun m hm hrange => ?_) ?_
  · rw [hst.root, hch12.content]
    rfl
  · rw [(hst.others m hm hrange).1, hch12.nodes m hm]
  · rw [hst.super, hch12.super, htsuper]

/-- `mkfs` writes an image, if the files fit. -/
theorem main_returns {files : List Input} (hle : files.length + 1 ≤ NINODES) (henough : Enough files) :
    ∃ s, main files start = .ok ((), s) := by
  have hwp : wp (fun _ => False) (main files) (fun _ t => ∃ nd, Written files nd t) start :=
    wp_main hle (Or.inr henough)
  rcases wp_total hwp with ⟨_, s, hrun, -⟩
  exact ⟨s, hrun⟩

/-! ### What is written -/

/-- The entries of the root, one by one. -/
def rootList (files : List Input) : List (List UInt8) :=
  Mkfs.direntOf 1 DOT :: Mkfs.direntOf 1 DOTDOT :: entryList 2 files

theorem length_entryList (l : List Input) : ∀ k, (entryList k l).length = l.length := by
  induction l with
  | nil => exact fun _ => rfl
  | cons f l ih =>
    intro k
    rw [entryList, List.length_cons, List.length_cons, ih]

theorem getElem?_entryList (l : List Input) : ∀ k i, (entryList k l)[i]? =
    (l[i]?).map fun f => Mkfs.direntOf (k + i) f.stem := by
  induction l with
  | nil => exact fun _ _ => rfl
  | cons f l ih =>
    intro k i
    cases i with
    | zero => rfl
    | succ i => rw [entryList, List.getElem?_cons_succ, List.getElem?_cons_succ, ih, Nat.add_right_comm, Nat.add_assoc]

theorem rootBytes_eq (files : List Input) : rootBytes files = (rootList files).flatten := by
  unfold rootBytes rootList entries
  rw [List.flatten_cons, List.flatten_cons, List.append_assoc]

theorem length_of_mem_rootList {files : List Input} {c : List UInt8} (hc : c ∈ rootList files) :
    c.length = DIRENTSIZE := by
  unfold rootList at hc
  rcases List.mem_cons.mp hc with rfl | hc
  · exact length_direntOf _ _
  · rcases List.mem_cons.mp hc with rfl | hc
    · exact length_direntOf _ _
    · rcases List.getElem?_of_mem hc with ⟨i, hi⟩
      rw [getElem?_entryList, Option.map_eq_some_iff] at hi
      rcases hi with ⟨f, -, rfl⟩
      exact length_direntOf _ _

theorem inum_zeroes (n : Nat) : (Fs.direntOf (List.replicate n 0)).inum = 0 := by
  have hget : ∀ k, (List.replicate n (0 : UInt8)).getD k 0 = 0 := by
    intro k
    rw [List.getD_eq_getElem?_getD, List.getElem?_replicate]
    split
    · rfl
    · rfl
  unfold Fs.direntOf
  rw [hget, hget]
  rfl

/-- Pieces of one length, one after another. -/
theorem chunk {w : Nat} {l : List UInt8} : ∀ {cs : List (List UInt8)} {i : Nat} {c : List UInt8},
    (∀ c ∈ cs, c.length = w) → cs[i]? = some c → ((cs.flatten ++ l).drop (w * i)).take w = c := by
  intro cs
  induction cs with
  | nil =>
    intro i c _ hi
    rw [List.getElem?_nil] at hi
    cases hi
  | cons a cs ih =>
    intro i c hlen hi
    have ha : a.length = w := hlen a List.mem_cons_self
    rw [List.flatten_cons, List.append_assoc]
    cases i with
    | zero =>
      rw [List.getElem?_cons_zero, Option.some.injEq] at hi
      subst hi
      rw [Nat.mul_zero, List.drop_zero, ← ha, List.take_left]
    | succ i =>
      rw [List.getElem?_cons_succ] at hi
      rw [Nat.mul_succ, Nat.add_comm, ← List.drop_drop, ← ha, List.drop_left, ha]
      exact ih (fun c hc => hlen c (List.mem_cons_of_mem _ hc)) hi

/-- An image that the kernel can use. -/
structure WellFormed (s : State) : Prop where
  slots : ∀ m < NINO, ∀ bn, bn * BSIZE < (s.node m).size → bn < MAXFILE ∧ (s.node m).slot s.img bn ≠ 0
  data : ∀ m < NINO, ∀ j, (s.node m).ref s.img j ≠ 0 →
    nmeta ≤ (s.node m).ref s.img j ∧ (s.node m).ref s.img j < s.freeblock
  alone : ∀ m < NINO, ∀ n < NINO, ∀ j k, (s.node m).ref s.img j ≠ 0 →
    (s.node m).ref s.img j = (s.node n).ref s.img k → m = n ∧ j = k
  bitmap : ∀ b < BSIZE * 8, (s.img sb.bmapstart).bit b = decide (b < s.freeblock)
  entries : ∀ m < NINO, (s.node m).type = T_DIR → ∀ e ∈ dirents ((s.node m).data s.img (s.node m).size),
    e.inum ≠ 0 → e.inum < NINO ∧ (s.node e.inum).type ≠ 0

/-- The entry with index `i`. -/
theorem getElem?_rootList (files : List Input) (i : Nat) (c : List UInt8) : (rootList files)[i]? = some c →
    i = 0 ∧ c = Mkfs.direntOf 1 DOT ∨ i = 1 ∧ c = Mkfs.direntOf 1 DOTDOT ∨
      ∃ j f, i = 2 + j ∧ files[j]? = some f ∧ c = Mkfs.direntOf (2 + j) f.stem := by
  intro hi
  unfold rootList at hi
  rcases i with _ | _ | i
  · rw [List.getElem?_cons_zero, Option.some.injEq] at hi
    exact Or.inl ⟨rfl, hi.symm⟩
  · rw [List.getElem?_cons_succ, List.getElem?_cons_zero, Option.some.injEq] at hi
    exact Or.inr (Or.inl ⟨rfl, hi.symm⟩)
  · rw [List.getElem?_cons_succ, List.getElem?_cons_succ, getElem?_entryList, Option.map_eq_some_iff] at hi
    rcases hi with ⟨f, hf, rfl⟩
    exact Or.inr (Or.inr ⟨i, f, by omega, hf, rfl⟩)

/-- The inode number in the entry of a file. -/
theorem inum_entry {files : List Input} {j : Nat} {f : Input} (hle : files.length + 1 ≤ NINODES)
    (hf : files[j]? = some f) : (Fs.direntOf (Mkfs.direntOf (2 + j) f.stem)).inum = 2 + j := by
  rcases List.getElem?_eq_some_iff.mp hf with ⟨hj, -⟩
  have hsmall : 2 + j < 2 ^ 16 := by
    unfold NINODES at hle
    omega
  change (Fs.direntOf (direntBytes (xshort (2 + j)) (strOf f.stem))).inum = _
  rw [xshort_eq hsmall, inum_direntBytes _ hsmall]

theorem length_rootList (files : List Input) : (rootList files).length = files.length + 2 := by
  unfold rootList
  rw [List.length_cons, List.length_cons, length_entryList]

section Written

variable {files : List Input} (h : Written files nd s)
include h

/-- The bytes of the root: the entries, and zeroes. -/
theorem Written.rootData (hle : files.length + 1 ≤ NINODES) : (nd 1).data s.img (nd 1).size =
    (rootList files).flatten ++ List.replicate (Mkfs.rootSize files - DIRENTSIZE * (files.length + 2)) 0 := by
  have hlen := length_rootBytes files
  have hmax := rootSize_le hle
  have hroot := length_le_rootSize files
  rw [← rootBytes_eq, h.rootSize]
  refine List.ext_getElem? fun k => ?_
  rw [Dinode.getElem?_data, List.getElem?_append, hlen, List.getElem?_replicate]
  by_cases hlt : k < DIRENTSIZE * (files.length + 2)
  · rw [if_pos hlt, if_pos (Nat.lt_of_lt_of_le hlt hroot), ← h.root, Dinode.getElem?_data, if_pos hlt]
  · rw [if_neg hlt]
    by_cases hk : k < Mkfs.rootSize files
    · rw [if_pos hk, if_pos (by omega), h.rootSolid.tail k (Nat.le_of_not_lt hlt) (by omega)]
    · rw [if_neg hk, if_neg (by omega)]

theorem Written.type_file {i : Nat} {f : Input} (hf : files[i]? = some f) : (nd (2 + i)).type = T_FILE := (h.file i f hf).1

/-- The entries are read back. -/
theorem Written.dirent (hle : files.length + 1 ≤ NINODES) {i : Nat} {c : List UInt8}
    (hc : (rootList files)[i]? = some c) :
    (dirents ((nd 1).data s.img (nd 1).size))[i]? = some (Fs.direntOf c) := by
  rcases List.getElem?_eq_some_iff.mp hc with ⟨hi, -⟩
  rw [length_rootList] at hi
  have hroot := length_le_rootSize files
  have hlt : i < ((nd 1).data s.img (nd 1).size).length / DIRENTSIZE := by
    rw [Dinode.length_data, h.rootSize]
    unfold DIRENTSIZE at *
    omega
  rw [getElem?_dirents, if_pos hlt, h.rootData hle, chunk (fun c hc => length_of_mem_rootList hc) hc]

/-- Every entry of the root is for the root or for a file. -/
theorem Written.entry (hle : files.length + 1 ≤ NINODES) (e : Dirent)
    (he : e ∈ dirents ((nd 1).data s.img (nd 1).size)) (hlive : e.inum ≠ 0) :
    e.inum < NINO ∧ (nd e.inum).type ≠ 0 := by
  have hino : NINODES + 1 ≤ NINO := by decide
  rcases List.getElem?_of_mem he with ⟨i, hi⟩
  by_cases hlt : i < (rootList files).length
  · have hc : (rootList files)[i]? = some (rootList files)[i] := List.getElem?_eq_getElem hlt
    rw [h.dirent hle hc] at hi
    have hi := Option.some.inj hi
    have hroot : e.inum = 1 → e.inum < NINO ∧ (nd e.inum).type ≠ 0 := by
      intro heq
      rw [heq, h.rootType]
      exact ⟨by decide, by decide⟩
    rcases getElem?_rootList files i _ hc with ⟨-, hd⟩ | ⟨-, hd⟩ | ⟨j, f, -, hf, hd⟩
    · rw [hd] at hi
      exact hroot (hi ▸ inum_direntBytes _ (by decide))
    · rw [hd] at hi
      exact hroot (hi ▸ inum_direntBytes _ (by decide))
    · rcases List.getElem?_eq_some_iff.mp hf with ⟨hj, -⟩
      rw [hd] at hi
      have hinum : e.inum = 2 + j := hi ▸ inum_entry hle hf
      rw [hinum, h.type_file hf]
      exact ⟨by omega, by decide⟩
  · -- behind the entries there are zeroes
    refine absurd ?_ hlive
    rw [getElem?_dirents, h.rootData hle] at hi
    split at hi
    · have hi := Option.some.inj hi
      rw [length_rootList] at hlt
      have hlen : (rootList files).flatten.length ≤ DIRENTSIZE * i := by
        rw [← rootBytes_eq, length_rootBytes]
        exact Nat.mul_le_mul_left _ (Nat.le_of_not_lt hlt)
      rw [List.drop_append, List.drop_eq_nil_of_le hlen, List.nil_append, List.drop_replicate,
        List.take_replicate] at hi
      rw [← hi]
      exact inum_zeroes _
    · cases hi

/-- No inode is a device. -/
theorem Written.notDev (m : Nat) : (nd m).type ≠ T_DEV := by
  by_cases hm : m = 1
  · rw [hm, h.rootType]
    decide
  · by_cases hrange : m < 2 ∨ 2 + files.length ≤ m
    · rw [h.rest m hm hrange]
      decide
    · rcases Nat.exists_eq_add_of_le (show 2 ≤ m by omega) with ⟨i, rfl⟩
      rw [h.type_file (List.getElem?_eq_getElem (show i < files.length by omega))]
      decide

/-- The image is what the kernel needs, unless the entries of the root fill their last block. -/
theorem Written.wellFormed_iff (hle : files.length + 1 ≤ NINODES) : WellFormed s ↔ ¬ 32 ∣ files.length + 2 := by
  have h1 : 1 < NINO := by decide
  have hsolid := h.rootSolid.size
  constructor
  · intro hwf hdvd
    rcases hdvd with ⟨c, hc⟩
    have hsize : (s.node 1).size = (c + 1) * BSIZE := by
      rw [h.table 1 h1, h.rootSize, Mkfs.rootSize, hc]
      unfold DIRENTSIZE BSIZE
      omega
    rcases hwf.slots 1 h1 c (by rw [hsize]; unfold BSIZE; omega) with ⟨hlt, hslot⟩
    rw [h.table 1 h1, h.rootSolid.slots c hlt, hc] at hslot
    unfold DIRENTSIZE BSIZE at hslot
    omega
  · intro hdvd
    refine ⟨fun m hm bn hbn => ?_, fun m hm j hj => ?_, fun m hm n hn j k hj heq => ?_, fun b _ => h.bitmap b,
      fun m hm htype e he hlive => ?_⟩
    · rw [h.table m hm] at hbn ⊢
      by_cases hm1 : m = 1
      · subst hm1
        have hlt : bn * BSIZE < DIRENTSIZE * (files.length + 2) := by
          rw [h.rootSize, Mkfs.rootSize] at hbn
          unfold DIRENTSIZE BSIZE at *
          omega
        have hbnM : bn < MAXFILE := by
          unfold BSIZE at hlt hsolid
          omega
        exact ⟨hbnM, (h.rootSolid.slots bn hbnM).mpr hlt⟩
      · have hsz := (h.solid m hm1).size
        have hbnM : bn < MAXFILE := by
          unfold BSIZE at hbn hsz
          omega
        exact ⟨hbnM, ((h.solid m hm1).slots bn hbnM).mpr hbn⟩
    · rw [h.table m hm] at hj ⊢
      exact h.apart.data m j hj
    · rw [h.table m hm] at hj heq
      rw [h.table n hn] at heq
      exact h.apart.alone m n j k hj heq
    · rw [h.table m hm] at htype he
      have hm1 : m = 1 := by
        by_contra hm1
        by_cases hrange : m < 2 ∨ 2 + files.length ≤ m
        · rw [h.rest m hm1 hrange] at htype
          cases htype
        · rcases Nat.exists_eq_add_of_le (show 2 ≤ m by omega) with ⟨i, rfl⟩
          have hi : i < files.length := by omega
          rw [h.type_file (List.getElem?_eq_getElem hi)] at htype
          cases htype
      subst hm1
      rcases h.entry hle e he hlive with ⟨h2, h3⟩
      rw [h.table _ h2]
      exact ⟨h2, h3⟩

end Written

end Yonix.Mkfs
