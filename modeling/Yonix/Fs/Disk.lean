/-
  Yonix/Fs/Disk.lean
  ==================
  **The format of the disk (`fs.h`).**

  An inode block is eight `struct dinode`s, and reading one back gives what was put
  there (`dinodeOf_putDinode`).  An inode refers to blocks through `slot`: directly for
  the first `NDIRECT`, then through its indirect block.  A reference is also given a
  number `j ≤ MAXFILE`, where `MAXFILE` stands for the indirect block itself
  (`Dinode.ref`).  What the references of an inode and the bytes of the file depend on is
  stated here once for the kernel and for `mkfs`.
-/
import Yonix.Fs.Model

namespace Yonix.Fs

/-! ### Inode blocks -/

/-- The fields have the sizes of `struct dinode`. -/
structure Dinode.Fits (d : Dinode) : Prop where
  type : d.type < 2 ^ 16
  major : d.major < 2 ^ 16
  minor : d.minor < 2 ^ 16
  nlink : d.nlink < 2 ^ 16
  size : d.size < 2 ^ 32
  addrs : ∀ j, d.addrs j < 2 ^ 32
  beyond : ∀ j, NDIRECT < j → d.addrs j = 0

theorem Dinode.zero_fits : Dinode.zero.Fits :=
  ⟨by decide, by decide, by decide, by decide, by decide, fun _ => Nat.two_pow_pos 32,
    fun _ _ => rfl⟩

section Codec

variable (x : Block) (d : Dinode) {inum k : Nat}

/-- The inode lies within the block. -/
theorem dinode_le (inum : Nat) : inum % IPB * DINODESIZE + DINODESIZE ≤ BSIZE := by
  have h : inum % IPB < IPB := Nat.mod_lt _ (by decide)
  unfold IPB BSIZE DINODESIZE at *
  omega

theorem get_putDinode (hk : k < DINODESIZE) :
    (putDinode x inum d).get (inum % IPB * DINODESIZE + k) = d.bytes k := by
  have hle := dinode_le inum
  rw [putDinode, Bytes.get_patch_of_mem x _ (by omega) (by omega) (by omega)]
  congr 1
  omega

/-- A field of `w` bytes at offset `o` whose bytes are those of `v`. -/
theorem getLE_putDinode {o w v : Nat} (ho : o + w ≤ DINODESIZE) (hv : v < 256 ^ w)
    (h : ∀ i < w, d.bytes (o + i) = Bytes.leByte v i) :
    (putDinode x inum d).getLE (inum % IPB * DINODESIZE + o) w = v := by
  rw [Bytes.getLE_of_leByte (v := v) (j := 0), pow_zero, Nat.div_one, Nat.mod_eq_of_lt hv]
  intro i hi
  rw [Nat.add_assoc, get_putDinode x d (by omega), h i hi, Nat.zero_add]

theorem bytes_addrs (j : Nat) {i : Nat} (hi : i < 4) :
    d.bytes (12 + 4 * j + i) = Bytes.leByte (d.addrs j) i := by
  unfold Dinode.bytes
  rw [if_neg (by omega), if_neg (by omega), if_neg (by omega), if_neg (by omega),
    if_neg (by omega), show (12 + 4 * j + i - 12) / 4 = j by omega,
    show (12 + 4 * j + i - 12) % 4 = i by omega]

/-- What is put into an inode block is read back. -/
theorem dinodeOf_putDinode {d : Dinode} (h : d.Fits) : dinodeOf (putDinode x inum d) inum = d := by
  have htype : (putDinode x inum d).getLE (inum % IPB * DINODESIZE) 2 = d.type := by
    refine getLE_putDinode x d (o := 0) (by decide) h.type ?_
    intro i hi
    rw [Nat.zero_add, Dinode.bytes, if_pos hi]
  have hmajor : (putDinode x inum d).getLE (inum % IPB * DINODESIZE + 2) 2 = d.major := by
    refine getLE_putDinode x d (by decide) h.major ?_
    intro i hi
    rw [Dinode.bytes, if_neg (by omega), if_pos (by omega), Nat.add_sub_cancel_left]
  have hminor : (putDinode x inum d).getLE (inum % IPB * DINODESIZE + 4) 2 = d.minor := by
    refine getLE_putDinode x d (by decide) h.minor ?_
    intro i hi
    rw [Dinode.bytes, if_neg (by omega), if_neg (by omega), if_pos (by omega), Nat.add_sub_cancel_left]
  have hnlink : (putDinode x inum d).getLE (inum % IPB * DINODESIZE + 6) 2 = d.nlink := by
    refine getLE_putDinode x d (by decide) h.nlink ?_
    intro i hi
    rw [Dinode.bytes, if_neg (by omega), if_neg (by omega), if_neg (by omega), if_pos (by omega),
      Nat.add_sub_cancel_left]
  have hsize : (putDinode x inum d).getLE (inum % IPB * DINODESIZE + 8) 4 = d.size := by
    refine getLE_putDinode x d (by decide) h.size ?_
    intro i hi
    rw [Dinode.bytes, if_neg (by omega), if_neg (by omega), if_neg (by omega), if_neg (by omega),
      if_pos (by omega), Nat.add_sub_cancel_left]
  have haddrs : (fun j => if j < NDIRECT + 1 then
      (putDinode x inum d).getLE (inum % IPB * DINODESIZE + 12 + 4 * j) 4 else 0) = d.addrs := by
    funext j
    split
    · rename_i hj
      rw [Nat.add_assoc]
      refine getLE_putDinode x d ?_ (h.addrs j) fun i hi => bytes_addrs d j hi
      unfold NDIRECT at hj
      unfold DINODESIZE
      omega
    · rename_i hj
      exact (h.beyond j (by omega)).symm
  unfold dinodeOf
  dsimp only
  rw [htype, hmajor, hminor, hnlink, hsize, haddrs]

/-- Blocks that agree on the bytes of an inode. -/
theorem dinodeOf_congr {x y : Block}
    (h : ∀ k < DINODESIZE, x.get (inum % IPB * DINODESIZE + k) = y.get (inum % IPB * DINODESIZE + k)) :
    dinodeOf x inum = dinodeOf y inum := by
  have hle : ∀ o w, o + w ≤ DINODESIZE →
      x.getLE (inum % IPB * DINODESIZE + o) w = y.getLE (inum % IPB * DINODESIZE + o) w := by
    intro o w how
    apply Bytes.getLE_congr
    intro i h1 h2
    rcases Nat.exists_eq_add_of_le (show inum % IPB * DINODESIZE ≤ i by omega) with ⟨k, rfl⟩
    exact h k (by omega)
  have haddrs : (fun j => if j < NDIRECT + 1 then x.getLE (inum % IPB * DINODESIZE + 12 + 4 * j) 4 else 0) =
      fun j => if j < NDIRECT + 1 then y.getLE (inum % IPB * DINODESIZE + 12 + 4 * j) 4 else 0 := by
    funext j
    split
    · rename_i hj
      rw [Nat.add_assoc]
      apply hle
      unfold NDIRECT at hj
      unfold DINODESIZE
      omega
    · rfl
  unfold dinodeOf
  dsimp only
  rw [show x.getLE (inum % IPB * DINODESIZE) 2 = y.getLE (inum % IPB * DINODESIZE) 2 from hle 0 2 (by decide),
    hle 2 2 (by decide), hle 4 2 (by decide), hle 6 2 (by decide), hle 8 4 (by decide), haddrs]

theorem dinodeOf_putDinode_ne {j : Nat} (h : j % IPB ≠ inum % IPB) :
    dinodeOf (putDinode x inum d) j = dinodeOf x j := by
  apply dinodeOf_congr
  intro k hk
  apply Bytes.get_patch_of_not_mem
  rcases Nat.lt_or_gt_of_ne h with hlt | hgt
  · left
    have := Nat.mul_le_mul_right DINODESIZE (Nat.succ_le_of_lt hlt)
    rw [Nat.succ_mul] at this
    omega
  · right
    have := Nat.mul_le_mul_right DINODESIZE (Nat.succ_le_of_lt hgt)
    rw [Nat.succ_mul] at this
    omega

theorem dinodeOf_fits : (dinodeOf x inum).Fits := by
  refine ⟨Bytes.getLE_lt _ _ 2, Bytes.getLE_lt _ _ 2, Bytes.getLE_lt _ _ 2, Bytes.getLE_lt _ _ 2,
    Bytes.getLE_lt _ _ 4, ?_, ?_⟩
  · intro j
    change (if j < NDIRECT + 1 then _ else 0) < 2 ^ 32
    split
    · exact Bytes.getLE_lt _ _ 4
    · decide
  · intro j hj
    exact if_neg (by omega)

@[simp] theorem dinodeOf_zero : dinodeOf Bytes.zero inum = Dinode.zero := by
  unfold dinodeOf Dinode.zero
  simp

end Codec

/-! ### References -/

/-- The block with the bytes of the file from `bn * BSIZE` on, or 0. -/
def Dinode.slot (d : Dinode) (disk : Nat → Block) (bn : Nat) : Nat :=
  if bn < NDIRECT then d.addrs bn
  else if d.addrs NDIRECT = 0 then 0
  else (disk (d.addrs NDIRECT)).word (bn - NDIRECT)

/-- Reference `j` of the inode; `MAXFILE` is the one to the indirect block. -/
def Dinode.ref (d : Dinode) (disk : Nat → Block) (j : Nat) : Nat :=
  if j < MAXFILE then d.slot disk j else if j = MAXFILE then d.addrs NDIRECT else 0

/-- Byte `k` of the file; a block that is not there counts as zeroes. -/
def Dinode.byte (d : Dinode) (disk : Nat → Block) (k : Nat) : UInt8 :=
  if d.slot disk (k / BSIZE) = 0 then 0 else (disk (d.slot disk (k / BSIZE))).get (k % BSIZE)

/-- The first `n` bytes of the file. -/
def Dinode.data (d : Dinode) (disk : Nat → Block) (n : Nat) : List UInt8 :=
  (List.range n).map (d.byte disk)

theorem setAddr_self (d : Dinode) (j b : Nat) : (setAddr d j b).addrs j = b := Function.update_self _ _ _

theorem setAddr_ne {d : Dinode} (h : k ≠ j) : (setAddr d j b).addrs k = d.addrs k :=
  Function.update_of_ne h _ _

section References

variable {d e : Dinode} {disk disk' : Nat → Block} {j k b : Nat}

theorem Dinode.slot_direct (h : j < NDIRECT) : d.slot disk j = d.addrs j := if_pos h

theorem Dinode.slot_indirect (h : NDIRECT ≤ j) (hd : d.addrs NDIRECT ≠ 0) :
    d.slot disk j = (disk (d.addrs NDIRECT)).word (j - NDIRECT) := by
  rw [Dinode.slot, if_neg (by omega), if_neg hd]

theorem Dinode.slot_zero (h : NDIRECT ≤ j) (hd : d.addrs NDIRECT = 0) : d.slot disk j = 0 := by
  rw [Dinode.slot, if_neg (by omega), if_pos hd]

theorem Dinode.ref_slot (h : j < MAXFILE) : d.ref disk j = d.slot disk j := if_pos h

theorem Dinode.ref_indirect (d : Dinode) (disk : Nat → Block) : d.ref disk MAXFILE = d.addrs NDIRECT := by
  rw [Dinode.ref, if_neg (lt_irrefl _), if_pos rfl]

theorem Dinode.ref_le (h : d.ref disk j ≠ 0) : j ≤ MAXFILE := by
  by_contra hj
  exact h (by rw [Dinode.ref, if_neg (by omega), if_neg (by omega)])

/-- The slots depend on the addresses and the indirect block. -/
theorem Dinode.slot_congr (ha : e.addrs = d.addrs)
    (h : d.addrs NDIRECT ≠ 0 → disk' (d.addrs NDIRECT) = disk (d.addrs NDIRECT)) :
    e.slot disk' j = d.slot disk j := by
  unfold Dinode.slot
  rw [ha]
  split
  · rfl
  · split
    · rfl
    · rename_i hd
      rw [h hd]

theorem Dinode.ref_congr (ha : e.addrs = d.addrs)
    (h : d.addrs NDIRECT ≠ 0 → disk' (d.addrs NDIRECT) = disk (d.addrs NDIRECT)) :
    e.ref disk' j = d.ref disk j := by
  unfold Dinode.ref
  rw [Dinode.slot_congr ha h, ha]

/-- A block that the inode does not refer to is written. -/
theorem Dinode.ref_update {x : Block} (h : ∀ j, d.ref disk j ≠ 0 → d.ref disk j ≠ b) :
    d.ref (Function.update disk b x) j = d.ref disk j := by
  refine Dinode.ref_congr rfl fun hd => ?_
  have hb := h MAXFILE
  rw [Dinode.ref_indirect] at hb
  exact Function.update_of_ne (hb hd) _ _

theorem Dinode.byte_congr (hslot : e.slot disk' (k / BSIZE) = d.slot disk (k / BSIZE))
    (hk : d.slot disk (k / BSIZE) ≠ 0 →
      disk' (d.slot disk (k / BSIZE)) = disk (d.slot disk (k / BSIZE))) :
    e.byte disk' k = d.byte disk k := by
  unfold Dinode.byte
  rw [hslot]
  by_cases h : d.slot disk (k / BSIZE) = 0
  · rw [if_pos h, if_pos h]
  · rw [if_neg h, if_neg h, hk h]

@[simp] theorem Dinode.length_data (d : Dinode) (disk : Nat → Block) (n : Nat) :
    (d.data disk n).length = n := by
  simp [Dinode.data]

/-- An empty place of `addrs` is taken by block `b`. -/
theorem Dinode.ref_setAddr (hj : j ≤ NDIRECT) (hzero : d.addrs j = 0) (hb : b ≠ 0)
    (hsame : d.addrs NDIRECT ≠ 0 → disk' (d.addrs NDIRECT) = disk (d.addrs NDIRECT))
    (hnew : j = NDIRECT → disk' b = Bytes.zero) (k : Nat) :
    (setAddr d j b).ref disk' k = if k = (if j = NDIRECT then MAXFILE else j) then b else d.ref disk k := by
  have hself := setAddr_self d j b
  have hother : ∀ k, k ≠ j → (setAddr d j b).addrs k = d.addrs k := fun k hk => setAddr_ne hk
  by_cases hjN : j = NDIRECT
  · subst hjN
    rw [if_pos rfl]
    unfold Dinode.ref
    by_cases hk : k < MAXFILE
    · rw [if_pos hk, if_pos hk, if_neg (Nat.ne_of_lt hk)]
      by_cases hkN : k < NDIRECT
      · rw [Dinode.slot_direct hkN, Dinode.slot_direct hkN, hother k (Nat.ne_of_lt hkN)]
      · -- a fresh indirect block refers to nothing
        rw [Dinode.slot_zero (Nat.le_of_not_lt hkN) hzero,
          Dinode.slot_indirect (Nat.le_of_not_lt hkN) (by rwa [hself]), hself, hnew rfl, Bytes.word_zero]
    · rw [if_neg hk, if_neg hk, hself]
      split
      · rfl
      · rfl
  · rw [if_neg hjN]
    have hjlt : j < NDIRECT := Nat.lt_of_le_of_ne hj hjN
    have hjM : j < MAXFILE := Nat.lt_of_lt_of_le hjlt (by decide)
    by_cases hkj : k = j
    · rw [hkj, if_pos rfl, Dinode.ref_slot hjM, Dinode.slot_direct hjlt, hself]
    · rw [if_neg hkj]
      unfold Dinode.ref Dinode.slot
      rw [hother NDIRECT (Ne.symm hjN), hother k hkj]
      by_cases hz : d.addrs NDIRECT = 0
      · rw [if_pos hz, if_pos hz]
      · rw [if_neg hz, if_neg hz, hsame hz]

/-- Element `w` of the indirect block becomes `b`. -/
theorem Dinode.ref_setWord {w : Nat} (hw : w < NINDIRECT) (hind : d.addrs NDIRECT ≠ 0) (hb : b < 2 ^ 32)
    (hblk : disk' (d.addrs NDIRECT) = (disk (d.addrs NDIRECT)).setWord w b) (k : Nat) :
    d.ref disk' k = if k = NDIRECT + w then b else d.ref disk k := by
  unfold Dinode.ref
  by_cases hk : k < MAXFILE
  · rw [if_pos hk, if_pos hk]
    by_cases hkN : k < NDIRECT
    · rw [Dinode.slot_direct hkN, Dinode.slot_direct hkN, if_neg (by omega)]
    · rw [Dinode.slot_indirect (Nat.le_of_not_lt hkN) hind, Dinode.slot_indirect (Nat.le_of_not_lt hkN) hind, hblk]
      by_cases hkw : k = NDIRECT + w
      · rw [if_pos hkw, hkw, Nat.add_sub_cancel_left, Bytes.word_setWord _ ?_ hb]
        unfold NINDIRECT at hw
        omega
      · rw [if_neg hkw, Bytes.word_setWord_ne]
        omega
  · have hkw : ¬ k = NDIRECT + w := by
      unfold MAXFILE at hk
      omega
    rw [if_neg hk, if_neg hk, if_neg hkw]

end References

end Yonix.Fs
