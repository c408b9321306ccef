/-
  Yonix/Lib/Memory.lean
  =====================
  **Address spaces as functions, and writing a run of bytes.**

  What a process sees of its memory is a byte for every address.  A program that is
  loaded, and the arguments put on its stack, are runs of bytes written into it; a run
  written piece by piece is the whole run.

  Nothing here mentions a particular program.
-/
import Yonix.Lib.Bytes

namespace Yonix.Memory

variable {m m' : Nat → UInt8} {a b n k : Nat} {src : Nat → UInt8}

/-- The bytes `src 0, …, src (n - 1)` written at address `a`. -/
def write (m : Nat → UInt8) (a n : Nat) (src : Nat → UInt8) : Nat → UInt8 :=
  fun b => if a ≤ b ∧ b < a + n then src (b - a) else m b

theorem write_in (h1 : a ≤ b) (h2 : b < a + n) : write m a n src b = src (b - a) := if_pos ⟨h1, h2⟩

theorem write_out (h : b < a ∨ a + n ≤ b) : write m a n src b = m b := if_neg (by omega)

theorem write_zero : write m a 0 src = m := by
  funext b
  exact write_out (by omega)

theorem write_add :
    write (write m a n src) (a + n) k (fun i => src (n + i)) = write m a (n + k) src := by
  funext b
  by_cases hlo : b < a + n
  · rw [write_out (Or.inl hlo)]
    by_cases ha : a ≤ b
    · rw [write_in ha hlo, write_in ha (by omega)]
    · rw [write_out (by omega), write_out (by omega)]
  · by_cases hhi : b < a + n + k
    · rw [write_in (by omega) hhi, write_in (by omega) (by omega)]
      congr 1
      omega
    · rw [write_out (by omega), write_out (by omega), write_out (by omega)]

/-- A run written in pieces of `w` bytes, the last of them cut off. -/
theorem foldl_write (w : Nat) (m : Nat → UInt8) (a n : Nat) (src : Nat → UInt8) (k : Nat) :
    (List.range k).foldl (fun m i => write m (a + i * w) (min w (n - i * w))
      fun j => src (i * w + j)) m = write m a (min (k * w) n) src := by
  induction k with
  | zero => rw [List.range_zero, List.foldl_nil, Nat.zero_mul, Nat.zero_min, write_zero]
  | succ k ih =>
    rw [List.range_succ, List.foldl_append, ih, List.foldl_cons, List.foldl_nil, Nat.succ_mul]
    rcases Nat.le_total (k * w) n with hle | hge
    · rw [Nat.min_eq_left hle, write_add]
      congr 1
      omega
    · have h0 : min w (n - k * w) = 0 := by omega
      rw [h0, write_zero, Nat.min_eq_right hge, Nat.min_eq_right (by omega)]

/-! ### Words -/

/-- The 32-bit little-endian word at `a`. -/
def word (m : Nat → UInt8) (a : Nat) : Nat :=
  (m a).toNat + 256 * (m (a + 1)).toNat + 65536 * (m (a + 2)).toNat + 16777216 * (m (a + 3)).toNat

theorem word_lt (m : Nat → UInt8) (a : Nat) : word m a < 2 ^ 32 := by
  unfold word
  have h0 := (m a).toNat_lt
  have h1 := (m (a + 1)).toNat_lt
  have h2 := (m (a + 2)).toNat_lt
  have h3 := (m (a + 3)).toNat_lt
  omega

theorem word_congr (h : ∀ j < 4, m (a + j) = m' (b + j)) : word m a = word m' b := by
  have h0 : m a = m' b := h 0 (by omega)
  unfold word
  rw [h0, h 1 (by omega), h 2 (by omega), h 3 (by omega)]

theorem word_of_leByte {v : Nat} (h : ∀ j < 4, m (a + j) = Bytes.leByte v j) (hv : v < 2 ^ 32) :
    word m a = v := by
  have h0 : m a = Bytes.leByte v 0 := h 0 (by omega)
  unfold word
  rw [h0, h 1 (by omega), h 2 (by omega), h 3 (by omega)]
  simp only [Bytes.leByte, UInt8.toNat_ofNat']
  omega

end Yonix.Memory
