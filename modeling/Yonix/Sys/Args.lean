/-
  Yonix/Sys/Args.lean
  ===================
  **The arguments of a system call (`syscall.c`).**

  The arguments lie on the stack of the caller, and the kernel reads them there through
  addresses that the caller chose.  `argint`, `argptr` and `argstr` compare the address
  with `p_size` first.  The sums of these tests wrap around at `2^32`; below `KERNBASE`,
  where `exec` and `sbrk` keep `p_size`, a sum that passes its test has not wrapped.
-/
import Yonix.Sys.Stores

namespace Yonix.Sys

variable {s t : Space} {n : Nat}

/-! ### Strings -/

/-- The loop of `fetchstr`, with `k` bytes left before `ep`. -/
def strLoop (s : Space) (pp : Nat) : Nat → Nat → Int
  | 0, _ => -1
  | k + 1, a =>
    if s.load a = 0 then toInt ((a + 2 ^ 32 - pp) % 2 ^ 32) else strLoop s pp k (a + 1)

/-- What it returns, and the `*pp` that it has set. -/
def fetchstr (s : Space) (addr : Nat) : Int × Option Nat :=
  if s.size ≤ addr then (-1, none) else (strLoop s addr (s.size - addr) addr, some addr)

def argstr (s : Space) (n : Nat) : Int × Option Nat :=
  match argint s n with
  | none => (-1, none)
  | some addr => fetchstr s addr

/-- The `l` bytes from `a` on have no null byte, and the one after them is null. -/
structure IsStr (s : Space) (a l : Nat) : Prop where
  nul : s.load (a + l) = 0
  first : ∀ k < l, s.load (a + k) ≠ 0

theorem IsStr.cons {a l : Nat} (h : IsStr s (a + 1) l) (ha : s.load a ≠ 0) : IsStr s a (l + 1) := by
  constructor
  · have hnul := h.nul
    rwa [Nat.add_assoc, Nat.add_comm 1 l] at hnul
  · intro k hk
    cases k with
    | zero => exact ha
    | succ k =>
      have hfirst := h.first k (by omega)
      rwa [Nat.add_assoc, Nat.add_comm 1 k] at hfirst

/-- The loop finds the first null byte before `ep`, if there is one. -/
theorem strLoop_spec {pp : Nat} (k : Nat) :
    ∀ {a : Nat}, pp ≤ a → a + k < 2 ^ 31 →
      (∃ l < k, IsStr s a l ∧ strLoop s pp k a = ((a + l - pp : Nat) : Int)) ∨
      (∀ i < k, s.load (a + i) ≠ 0) ∧ strLoop s pp k a = -1 := by
  induction k with
  | zero =>
    intro a _ _
    exact Or.inr ⟨fun i hi => absurd hi (Nat.not_lt_zero i), rfl⟩
  | succ k ih =>
    intro a hpp hend
    unfold strLoop
    by_cases hnul : s.load a = 0
    · left
      have hdiff : (a + 2 ^ 32 - pp) % 2 ^ 32 = a - pp := by omega
      have hlt : a - pp < 2 ^ 31 := by omega
      have hstr : IsStr s a 0 := ⟨hnul, fun i hi => absurd hi (Nat.not_lt_zero i)⟩
      refine ⟨0, Nat.succ_pos k, hstr, ?_⟩
      rw [if_pos hnul, hdiff, toInt, if_pos hlt, Nat.add_zero]
    · rw [if_neg hnul]
      rcases ih (a := a + 1) (by omega) (by omega) with ⟨l, hl, hstr, heq⟩ | ⟨hnone, heq⟩
      · left
        refine ⟨l + 1, Nat.succ_lt_succ hl, hstr.cons hnul, ?_⟩
        rw [heq, Nat.add_assoc a 1 l, Nat.add_comm 1 l]
      · right
        constructor
        · intro i hi
          cases i with
          | zero => exact hnul
          | succ i =>
            have hi' := hnone i (by omega)
            rwa [Nat.add_assoc, Nat.add_comm 1 i] at hi'
        · exact heq

/-- `fetchstr` fails, or the string with its null byte lies below the size. -/
theorem fetchstr_spec (hs : s.size < KERNBASE) (addr : Nat) :
    (fetchstr s addr).1 = -1 ∨
      ∃ l, IsStr s addr l ∧ addr + l + 1 ≤ s.size ∧ fetchstr s addr = ((l : Int), some addr) := by
  unfold KERNBASE at hs
  unfold fetchstr
  by_cases haddr : s.size ≤ addr
  · rw [if_pos haddr]
    exact Or.inl rfl
  · rw [if_neg haddr]
    rcases strLoop_spec (s := s) (s.size - addr) (Nat.le_refl addr) (by omega) with
      ⟨l, hl, hstr, heq⟩ | ⟨_, heq⟩
    · right
      refine ⟨l, hstr, by omega, ?_⟩
      rw [heq, Nat.add_sub_cancel_left]
    · exact Or.inl heq

/-! ### Words -/

/-- The place of argument `n` on the stack. -/
def argAddr (s : Space) (n : Nat) : Nat := (s.esp + 4 + 4 * n) % 2 ^ 32

/-- An argument that is fetched lies below the size. -/
theorem argint_below {v : Nat} (hs : s.size < KERNBASE) (h : argint s n = some v) :
    v = s.loadWord (argAddr s n) ∧ argAddr s n + 4 ≤ s.size := by
  unfold KERNBASE at hs
  unfold argint fetchint at h
  split at h
  · cases h
  · rename_i htest
    rw [not_or, Nat.not_le, Nat.not_lt] at htest
    have hsum : (argAddr s n + 4) % 2 ^ 32 = argAddr s n + 4 := Nat.mod_eq_of_lt (by unfold argAddr; omega)
    refine ⟨(Option.some.inj h).symm, ?_⟩
    rw [← hsum]
    exact htest.2

/-! ### What is read -/

/-- The same caller with the same memory of its own; the rest of memory may differ. -/
structure Alike (s t : Space) : Prop where
  size : t.size = s.size
  tf : t.tf = s.tf
  mem : ∀ x < s.size, t.mem x = s.mem x

theorem Alike.load {a : Nat} (h : Alike s t) (hlt : a % 2 ^ 32 < s.size) : t.load a = s.load a :=
  h.mem _ hlt

theorem Alike.loadWord {a : Nat} (h : Alike s t) (hs : s.size < KERNBASE) (hlt : a + 4 ≤ s.size) :
    t.loadWord a = s.loadWord a := by
  unfold KERNBASE at hs
  have hbyte : ∀ k < 4, t.load (a + k) = s.load (a + k) := by
    intro k hk
    refine h.load ?_
    omega
  have h0 := hbyte 0 (by decide)
  rw [Nat.add_zero] at h0
  unfold Space.loadWord
  rw [h0, hbyte 1 (by decide), hbyte 2 (by decide), hbyte 3 (by decide)]

theorem Alike.argint (h : Alike s t) (hs : s.size < KERNBASE) : argint t n = argint s n := by
  have haddr : argAddr t n = argAddr s n := by
    unfold argAddr Space.esp
    rw [h.tf]
  change fetchint t (argAddr t n) = fetchint s (argAddr s n)
  have hmod : argAddr s n < 2 ^ 32 := Nat.mod_lt _ (by omega)
  unfold fetchint
  rw [haddr, h.size]
  split
  · rfl
  · rename_i htest
    rw [h.loadWord hs (by unfold KERNBASE at hs; omega)]

theorem Alike.argptr {size : Int} (h : Alike s t) (hs : s.size < KERNBASE) :
    argptr t n size = argptr s n size := by
  unfold Sys.argptr
  rw [h.argint hs, h.size]

theorem Alike.strLoop {pp : Nat} (h : Alike s t) (k : Nat) :
    ∀ {a : Nat}, a + k ≤ s.size → strLoop t pp k a = strLoop s pp k a := by
  induction k with
  | zero => exact fun _ => rfl
  | succ k ih =>
    intro a hend
    have hbyte : t.load a = s.load a := h.load (by omega)
    unfold Sys.strLoop
    rw [hbyte, ih (by omega)]

theorem Alike.argstr (h : Alike s t) (hs : s.size < KERNBASE) : argstr t n = argstr s n := by
  unfold Sys.argstr
  rw [h.argint hs]
  cases Sys.argint s n with
  | none => rfl
  | some addr =>
    dsimp only
    unfold fetchstr
    rw [h.size]
    split
    · rfl
    · rw [h.strLoop (s.size - addr) (by omega)]

/-! ### The three together -/

/-- **Argument fetching stays inside the process.**  `size` is the `int` that the caller of
    `argptr` passes. -/
theorem args_inside {size : Int} (hs : s.size < KERNBASE) (hmax : size ≤ INT_MAX) :
    (∀ v, argint s n = some v →
      v = s.loadWord (argAddr s n) ∧ ∀ x ∈ region (argAddr s n) 4, x < s.size) ∧
    (∀ q, argptr s n size = some q → 0 ≤ size ∧ q + size.toNat ≤ s.size) ∧
    ∀ l p, argstr s n = (l, p) → l ≠ -1 →
      0 ≤ l ∧ ∃ q, p = some q ∧ q + l.toNat + 1 ≤ s.size ∧ IsStr s q l.toNat := by
  refine ⟨?_, ?_, ?_⟩
  · intro v hv
    obtain ⟨hword, hlt⟩ := argint_below hs hv
    have hmod : argAddr s n < 2 ^ 32 := Nat.mod_lt _ (by omega)
    exact ⟨hword, (below_region hs hmod).mpr (Or.inr hlt)⟩
  · intro q hq
    obtain ⟨hpos, _, hend⟩ := argptr_below hs hmax hq
    exact ⟨hpos, hend⟩
  · intro l p hstr hl
    unfold argstr at hstr
    cases hi : argint s n with
    | none =>
      rw [hi] at hstr
      exact absurd (Prod.mk.inj hstr).1.symm hl
    | some q =>
      rw [hi] at hstr
      dsimp only at hstr
      rcases fetchstr_spec hs q with hfail | ⟨m, hm, hend, heq⟩
      · rw [hstr] at hfail
        exact absurd hfail hl
      · obtain ⟨rfl, rfl⟩ := Prod.mk.inj (hstr.symm.trans heq)
        exact ⟨Int.natCast_nonneg m, q, rfl, hend, hm⟩

/-- An argument that is its own address, fetched as a word, as eight bytes and as a string. -/
theorem args_inside_own :
    argint (caller [1028]) 0 = some 1028 ∧ argptr (caller [1028]) 0 8 = some 1028 ∧
      argstr (caller [1028]) 0 = (2, some 1028) ∧
      (∀ x ∈ region (argAddr (caller [1028]) 0) 4, x < PGSIZE) ∧ 1028 + 8 ≤ PGSIZE ∧
      IsStr (caller [1028]) 1028 2 := by
  have hint : argint (caller [1028]) 0 = some 1028 := by decide
  have hptr : argptr (caller [1028]) 0 8 = some 1028 := by decide
  have hstr : argstr (caller [1028]) 0 = (2, some 1028) := by decide
  obtain ⟨hword, hblock, hname⟩ :=
    args_inside (s := caller [1028]) (n := 0) (by decide) (show (8 : Int) ≤ INT_MAX by decide)
  obtain ⟨_, q, hq, _, hstr'⟩ := hname 2 (some 1028) hstr (by decide)
  obtain rfl : 1028 = q := Option.some.inj hq
  exact ⟨hint, hptr, hstr, (hword 1028 hint).2, (hblock 1028 hptr).2, hstr'⟩

end Yonix.Sys
