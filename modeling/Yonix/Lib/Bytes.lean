/-
  Yonix/Lib/Bytes.lean
  ====================
  **Fixed-size byte buffers and their little-endian integers.**

  A disk block and a memory page are both a fixed number of bytes that code
  reads and writes in three ways: a byte at a time, a run of bytes at an offset
  (`memmove`, `memset`), and a 16- or 32-bit field laid over four bytes by a
  pointer cast.  Everything is expressed by one primitive, `Bytes.patch`, which
  replaces a run of bytes, and one observation, `Bytes.get`; the word and
  halfword accessors are derived from them, so that a proof about a field only
  needs `get_patch`.

  Nothing here mentions a particular program.
-/
import Mathlib

namespace Yonix

/-- A buffer of `n` bytes. -/
abbrev Bytes (n : Nat) := Fin n → UInt8

namespace Bytes

variable {n : Nat}

/-- The byte at offset `i`; a read past the end yields `0`. -/
def get (b : Bytes n) (i : Nat) : UInt8 := if h : i < n then b ⟨i, h⟩ else 0

/-- Replace the `m` bytes from offset `off` by `src 0, …, src (m - 1)`; bytes
    that would fall past the end are dropped. -/
def patch (b : Bytes n) (off : Nat) (src : Nat → UInt8) (m : Nat) : Bytes n :=
  fun i => if off ≤ i.val ∧ i.val < off + m then src (i.val - off) else b i

/-- The buffer of zero bytes. -/
def zero : Bytes n := fun _ => 0

theorem get_of_lt (b : Bytes n) {i : Nat} (h : i < n) : b.get i = b ⟨i, h⟩ := by
  simp only [get, dif_pos h]

/-- Two buffers with the same bytes are equal. -/
theorem ext_get {b c : Bytes n} (h : ∀ i, i < n → b.get i = c.get i) : b = c := by
  funext i
  have hi := h i.val i.isLt
  rwa [get_of_lt b i.isLt, get_of_lt c i.isLt] at hi

@[simp] theorem get_zero (i : Nat) : (zero : Bytes n).get i = 0 := by
  simp only [get, zero]
  split <;> rfl

theorem get_patch (b : Bytes n) (off : Nat) (src : Nat → UInt8) (m : Nat) {i : Nat}
    (h : i < n) :
    (b.patch off src m).get i =
      if off ≤ i ∧ i < off + m then src (i - off) else b.get i := by
  rw [get_of_lt _ h, get_of_lt _ h]
  rfl

theorem get_patch_of_mem (b : Bytes n) {off m i : Nat} (src : Nat → UInt8)
    (h : i < n) (h1 : off ≤ i) (h2 : i < off + m) :
    (b.patch off src m).get i = src (i - off) := by
  rw [get_patch b off src m h, if_pos ⟨h1, h2⟩]

theorem get_patch_of_not_mem (b : Bytes n) {off m i : Nat} (src : Nat → UInt8)
    (h : i < off ∨ off + m ≤ i) : (b.patch off src m).get i = b.get i := by
  by_cases hi : i < n
  · rw [get_patch b off src m hi, if_neg (by omega)]
  · simp only [get, dif_neg hi]

/-! ### Little-endian integers -/

/-- The `w` bytes from offset `off`, least significant first. -/
def getLE (b : Bytes n) (off : Nat) : Nat → Nat
  | 0 => 0
  | w + 1 => (b.get off).toNat + 256 * getLE b (off + 1) w

/-- Byte `j` of the little-endian representation of `v`. -/
def leByte (v j : Nat) : UInt8 := UInt8.ofNat (v / 256 ^ j)

/-- Store `v` as `w` little-endian bytes at offset `off`. -/
def setLE (b : Bytes n) (off w v : Nat) : Bytes n := b.patch off (leByte v) w

theorem getLE_congr {b c : Bytes n} {off w : Nat}
    (h : ∀ i, off ≤ i → i < off + w → b.get i = c.get i) : b.getLE off w = c.getLE off w := by
  induction w generalizing off with
  | zero => rfl
  | succ w ih =>
    simp only [getLE]
    rw [h off (Nat.le_refl _) (by omega), ih (fun i h1 h2 => h i (by omega) (by omega))]

theorem getLE_lt (b : Bytes n) (off w : Nat) : b.getLE off w < 256 ^ w := by
  induction w generalizing off with
  | zero => simp only [getLE, pow_zero, Nat.zero_lt_one]
  | succ w ih =>
    have hb := (b.get off).toNat_lt
    have := ih (off + 1)
    simp only [getLE, pow_succ]
    omega

/-- Reading the bytes of `v / 256 ^ j` back gives `v / 256 ^ j` modulo the width. -/
theorem getLE_of_leByte {b : Bytes n} {off w v j : Nat}
    (h : ∀ i, i < w → b.get (off + i) = leByte v (j + i)) :
    b.getLE off w = v / 256 ^ j % 256 ^ w := by
  induction w generalizing off j with
  | zero => simp only [getLE, pow_zero, Nat.mod_one]
  | succ w ih =>
    have h0 : (b.get off).toNat = v / 256 ^ j % 256 := by
      have := h 0 (Nat.zero_lt_succ _)
      simp only [Nat.add_zero] at this
      rw [this, leByte]
      simp only [UInt8.toNat_ofNat', Nat.reducePow]
    have hs : b.getLE (off + 1) w = v / 256 ^ (j + 1) % 256 ^ w := by
      apply ih
      intro i hi
      have := h (i + 1) (by omega)
      rwa [show off + 1 + i = off + (i + 1) by omega,
        show j + 1 + i = j + (i + 1) by omega]
    simp only [getLE]
    rw [h0, hs, pow_succ, ← Nat.div_div_eq_div_mul, pow_succ', Nat.mod_mul]

theorem getLE_setLE (b : Bytes n) {off w : Nat} (v : Nat) (h : off + w ≤ n) :
    (b.setLE off w v).getLE off w = v % 256 ^ w := by
  rw [getLE_of_leByte (v := v) (j := 0), pow_zero, Nat.div_one]
  intro i hi
  rw [setLE, get_patch_of_mem b _ (by omega) (by omega) (by omega)]
  congr 1
  omega

theorem getLE_patch_of_disjoint (b : Bytes n) {off w off' m : Nat} (src : Nat → UInt8)
    (h : off + w ≤ off' ∨ off' + m ≤ off) :
    (b.patch off' src m).getLE off w = b.getLE off w := by
  apply getLE_congr
  intro i h1 h2
  exact get_patch_of_not_mem b src (by omega)

theorem getLE_setLE_of_disjoint (b : Bytes n) {off w off' w' : Nat} (v : Nat)
    (h : off + w ≤ off' ∨ off' + w' ≤ off) :
    (b.setLE off' w' v).getLE off w = b.getLE off w :=
  getLE_patch_of_disjoint b _ h

@[simp] theorem getLE_zero (off w : Nat) : (zero : Bytes n).getLE off w = 0 := by
  induction w generalizing off with
  | zero => rfl
  | succ w ih => simp only [getLE, get_zero, ih, UInt8.toNat_zero, Nat.mul_zero, Nat.add_zero]

/-- A 32-bit little-endian field, addressed as an element of a `uint` array laid
    over the buffer. -/
def word (b : Bytes n) (i : Nat) : Nat := b.getLE (4 * i) 4

def setWord (b : Bytes n) (i v : Nat) : Bytes n := b.setLE (4 * i) 4 v

theorem word_lt (b : Bytes n) (i : Nat) : b.word i < 2 ^ 32 := getLE_lt b (4 * i) 4

theorem word_setWord (b : Bytes n) {i v : Nat} (h : 4 * i + 4 ≤ n) (hv : v < 2 ^ 32) :
    (b.setWord i v).word i = v := by
  rw [word, setWord, getLE_setLE b v h]
  exact Nat.mod_eq_of_lt hv

theorem word_setWord_ne (b : Bytes n) {i j : Nat} (v : Nat) (h : i ≠ j) :
    (b.setWord j v).word i = b.word i := by
  rw [word, setWord, getLE_setLE_of_disjoint b v (by omega)]
  rfl

@[simp] theorem word_zero (i : Nat) : (zero : Bytes n).word i = 0 := getLE_zero _ _

/-! ### Bits -/

/-- Bit `i` of the buffer, the least significant bit of a byte first. -/
def bit (b : Bytes n) (i : Nat) : Bool := (b.get (i / 8)).toNat.testBit (i % 8)

def setBit (b : Bytes n) (i : Nat) : Bytes n :=
  b.patch (i / 8) (fun _ => UInt8.ofNat ((b.get (i / 8)).toNat ||| 2 ^ (i % 8))) 1

def clearBit (b : Bytes n) (i : Nat) : Bytes n :=
  b.patch (i / 8) (fun _ => UInt8.ofNat ((b.get (i / 8)).toNat &&& (255 - 2 ^ (i % 8)))) 1

theorem testBit_mask {i j : Nat} (hi : i < 8) (hj : j < 8) :
    (255 - 2 ^ i).testBit j = decide (j ≠ i) := by
  interval_cases i <;> interval_cases j <;> decide

/-- Changing byte `i / 8` so that only bit `i % 8` differs. -/
theorem bit_patch {b : Bytes n} {i j : Nat} {v : Nat} {c : Bool} (hi : i / 8 < n) (hv : v < 256)
    (h : ∀ k < 8, v.testBit k = if k = i % 8 then c else (b.get (i / 8)).toNat.testBit k) :
    (b.patch (i / 8) (fun _ => UInt8.ofNat v) 1).bit j = if j = i then c else b.bit j := by
  unfold bit
  by_cases hj : j / 8 = i / 8
  · rw [hj, get_patch_of_mem b _ hi le_rfl (Nat.lt_succ_self _), UInt8.toNat_ofNat',
      Nat.mod_eq_of_lt hv, h (j % 8) (Nat.mod_lt _ (by decide))]
    by_cases hji : j = i
    · rw [if_pos (by rw [hji]), if_pos hji]
    · rw [if_neg (by omega), if_neg hji]
  · rw [get_patch_of_not_mem b _ (by omega), if_neg (by rintro rfl; exact hj rfl)]

theorem bit_setBit (b : Bytes n) {i : Nat} (hi : i / 8 < n) (j : Nat) :
    (b.setBit i).bit j = if j = i then true else b.bit j := by
  have hlt := (b.get (i / 8)).toNat_lt
  have hpow : 2 ^ (i % 8) < 2 ^ 8 := Nat.pow_lt_pow_right (by decide) (Nat.mod_lt _ (by decide))
  refine bit_patch hi (Nat.or_lt_two_pow hlt hpow) ?_
  intro k _
  rw [Nat.testBit_or, Nat.testBit_two_pow]
  by_cases hk : k = i % 8
  · simp [hk]
  · rw [if_neg hk]
    simp [Ne.symm hk]

theorem bit_clearBit (b : Bytes n) {i : Nat} (hi : i / 8 < n) (j : Nat) :
    (b.clearBit i).bit j = if j = i then false else b.bit j := by
  have hlt := (b.get (i / 8)).toNat_lt
  refine bit_patch hi (lt_of_le_of_lt Nat.and_le_left hlt) ?_
  intro k hk
  rw [Nat.testBit_and, testBit_mask (Nat.mod_lt _ (by decide)) hk]
  by_cases hki : k = i % 8
  · simp [hki]
  · simp [hki]

end Bytes

end Yonix
