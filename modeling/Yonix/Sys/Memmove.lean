/-
  Yonix/Sys/Memmove.lean
  ======================
  **The two `memmove`s (`string.c`, `ulib.c`).**

  The kernel's copies downwards when the destination begins inside the source, so every
  byte is read before it is overwritten.  The user library's always copies upwards: there
  the bytes of the source below the destination come out again and again, and the copy is
  right only when the source repeats itself at that distance.
-/
import Yonix.Sys.Stores

namespace Yonix.Sys

variable {v w : Space} {d p n : Nat}

/-- `memmove` of the user library. -/
def Ulib.memmove (vdst vsrc : Nat) (n : Int) (v : Space) : Space := copyUp vdst vsrc n.toNat v

/-- The `n` bytes that were at `p` are at `d`, and nothing else has changed. -/
structure Moved (d p n : Nat) (v w : Space) : Prop where
  copied : ∀ i < n, w.mem (d + i) = v.mem (p + i)
  kept : ∀ x, x < d ∨ d + n ≤ x → w.mem x = v.mem x

/-- What writes to the region of the destination only is right when its bytes are. -/
theorem Writes.moved (h : Writes (region d n) v w) (hd : d + n ≤ 2 ^ 32)
    (hcopied : ∀ i < n, w.mem (d + i) = v.mem (p + i)) : Moved d p n v w := by
  constructor
  · exact hcopied
  · intro x hx
    apply h.mem
    rintro ⟨k, hk, rfl⟩
    rw [Nat.mod_eq_of_lt (by omega)] at hx
    omega

/-- There is one result that is right. -/
theorem Moved.mem_eq {w' : Space} (h : Moved d p n v w) (h' : Moved d p n v w') : w.mem = w'.mem := by
  funext x
  by_cases hx : x < d ∨ d + n ≤ x
  · rw [h.kept x hx, h'.kept x hx]
  · obtain ⟨i, rfl⟩ : ∃ i, x = d + i := ⟨x - d, by omega⟩
    rw [h.copied i (by omega), h'.copied i (by omega)]

/-! ### Copies -/

theorem load_of_lt {x : Nat} (hx : x < 2 ^ 32) : v.load x = v.mem x := by
  unfold Space.load
  rw [Nat.mod_eq_of_lt hx]

theorem load_store_of_ne {v : Space} {a x : Nat} {b : UInt8} (h : x % 2 ^ 32 ≠ a % 2 ^ 32) :
    (v.store a b).load x = v.load x :=
  Function.update_of_ne h _ _

/-- Copying upwards is right when no byte is read after it was overwritten. -/
theorem copyUp_mem (n : Nat) :
    ∀ {d p : Nat} {v : Space}, d + n ≤ 2 ^ 32 →
      (∀ j k, j < k → k < n → (p + k) % 2 ^ 32 ≠ d + j) →
      ∀ k < n, (copyUp d p n v).mem (d + k) = v.load (p + k) := by
  induction n with
  | zero =>
    intro d p v _ _ k hk
    omega
  | succ n ih =>
    intro d p v hd hne k hk
    unfold copyUp
    cases k with
    | zero =>
      have hw := copyUp_writes n ((d + 1) % 2 ^ 32) ((p + 1) % 2 ^ 32) (v.store d (v.load p))
      have hout : d ∉ region ((d + 1) % 2 ^ 32) n := by
        rintro ⟨i, hi, heq⟩
        omega
      change (copyUp _ _ n _).mem d = v.load p
      rw [hw.mem d hout]
      have hmod : d % 2 ^ 32 = d := Nat.mod_eq_of_lt (by omega)
      simp only [Space.store, hmod, Function.update_self]
    | succ k =>
      have hd1 : (d + 1) % 2 ^ 32 = d + 1 := Nat.mod_eq_of_lt (by omega)
      have hload : ∀ w : Space, w.load ((p + 1) % 2 ^ 32 + k) = w.load (p + (k + 1)) := by
        intro w
        unfold Space.load
        congr 1
        omega
      have hclash : ∀ j k, j < k → k < n → ((p + 1) % 2 ^ 32 + k) % 2 ^ 32 ≠ d + 1 + j := by
        intro j k hjk hkn heq
        refine hne (j + 1) (k + 1) (by omega) (by omega) ?_
        omega
      rw [hd1]
      have hrec := ih (d := d + 1) (p := (p + 1) % 2 ^ 32) (v := v.store d (v.load p))
        (by omega) hclash k (by omega)
      rw [show d + (k + 1) = d + 1 + k by omega, hrec, hload]
      refine load_store_of_ne ?_
      have hmod : d % 2 ^ 32 = d := Nat.mod_eq_of_lt (by omega)
      rw [hmod]
      exact hne 0 (k + 1) (by omega) (by omega)

theorem copyDown_mem (n : Nat) :
    ∀ {d p : Nat} {v : Space}, d + n ≤ 2 ^ 32 →
      (∀ j k, k < j → j < n → (p + k) % 2 ^ 32 ≠ d + j) →
      ∀ k < n, (copyDown ((d + n) % 2 ^ 32) ((p + n) % 2 ^ 32) n v).mem (d + k) = v.load (p + k) := by
  induction n with
  | zero =>
    intro d p v _ _ k hk
    omega
  | succ n ih =>
    intro d p v hd hne k hk
    have hdn : ((d + (n + 1)) % 2 ^ 32 + (2 ^ 32 - 1)) % 2 ^ 32 = (d + n) % 2 ^ 32 := by omega
    have hpn : ((p + (n + 1)) % 2 ^ 32 + (2 ^ 32 - 1)) % 2 ^ 32 = (p + n) % 2 ^ 32 := by omega
    have hmod : (d + n) % 2 ^ 32 = d + n := Nat.mod_eq_of_lt (by omega)
    have hload : ∀ w : Space, w.load ((p + n) % 2 ^ 32) = w.load (p + n) := by
      intro w
      unfold Space.load
      rw [Nat.mod_mod]
    unfold copyDown
    dsimp only
    rw [hdn, hpn, hload]
    by_cases hkn : k = n
    · subst hkn
      have hw := copyDown_writes k d ((p + k) % 2 ^ 32)
        (v.store ((d + k) % 2 ^ 32) (v.load (p + k)))
      have hout : d + k ∉ region d k := by
        rintro ⟨i, hi, heq⟩
        omega
      rw [hw.mem _ hout]
      simp only [Space.store, hmod, Function.update_self]
    · rw [ih (by omega) (fun j k hkj hjn => hne j k hkj (by omega)) k (by omega)]
      refine load_store_of_ne ?_
      rw [hmod, hmod]
      exact hne n k (by omega) (by omega)

/-! ### The kernel -/

theorem memmove_moved (hd : d + n ≤ 2 ^ 32) (hp : p + n ≤ 2 ^ 32) :
    Moved d p n v (memmove d p n v) := by
  refine (memmove_writes d p n v).moved hd ?_
  intro i hi
  have hload : v.load (p + i) = v.mem (p + i) := load_of_lt (by omega)
  rw [← hload]
  unfold memmove
  split
  · apply copyDown_mem n hd ?_ i hi
    intro j k hkj hjn heq
    rw [Nat.mod_eq_of_lt (by omega)] at heq
    omega
  · rename_i hover
    apply copyUp_mem n hd ?_ i hi
    intro j k hjk hkn heq
    rw [Nat.mod_eq_of_lt (by omega)] at heq
    rw [Nat.mod_eq_of_lt (by omega)] at hover
    omega

/-! ### The user library -/

/-- Upwards into the source: the first `d - p` bytes again and again. -/
theorem copyUp_repeats (n : Nat) :
    ∀ {d p : Nat} {v : Space}, p < d → d + n ≤ 2 ^ 32 →
      ∀ i < n, (copyUp d p n v).mem (d + i) = v.mem (p + i % (d - p)) := by
  induction n with
  | zero =>
    intro d p v _ _ i hi
    omega
  | succ n ih =>
    intro d p v hlt hd i hi
    have hd0 : d % 2 ^ 32 = d := Nat.mod_eq_of_lt (by omega)
    have hpLoad : v.load p = v.mem p := load_of_lt (by omega)
    unfold copyUp
    cases i with
    | zero =>
      have hw := copyUp_writes n ((d + 1) % 2 ^ 32) ((p + 1) % 2 ^ 32) (v.store d (v.load p))
      have hout : d ∉ region ((d + 1) % 2 ^ 32) n := by
        rintro ⟨k, hk, heq⟩
        omega
      simp only [Nat.zero_mod, Nat.add_zero]
      rw [hw.mem d hout]
      simp only [Space.store, hd0, Function.update_self, hpLoad]
    | succ i =>
      have hd1 : (d + 1) % 2 ^ 32 = d + 1 := Nat.mod_eq_of_lt (by omega)
      have hp1 : (p + 1) % 2 ^ 32 = p + 1 := Nat.mod_eq_of_lt (by omega)
      have hrec := ih (d := d + 1) (p := p + 1) (v := v.store d (v.load p)) (by omega) (by omega) i
        (by omega)
      have hgap : d + 1 - (p + 1) = d - p := by omega
      have hmod : i % (d - p) < d - p := Nat.mod_lt _ (by omega)
      rw [hd1, hp1, Nat.add_comm i 1, ← Nat.add_assoc, hrec, hgap]
      have hsum : 1 + i = 1 + i % (d - p) + (d - p) * (i / (d - p)) := by
        rw [Nat.add_assoc, Nat.mod_add_div]
      -- the byte just stored at `d` is read where a new round begins
      by_cases hround : i % (d - p) + 1 = d - p
      · have hmod' : (1 + i) % (d - p) = 0 := by
          rw [hsum, Nat.add_mul_mod_self_left, Nat.add_comm 1, hround, Nat.mod_self]
        have hat : p + 1 + i % (d - p) = d := by omega
        rw [hat, hmod', Nat.add_zero]
        simp only [Space.store, hd0, Function.update_self, hpLoad]
      · have hmod' : (1 + i) % (d - p) = 1 + i % (d - p) := by
          rw [hsum, Nat.add_mul_mod_self_left, Nat.mod_eq_of_lt (by omega)]
        have hne : p + 1 + i % (d - p) ≠ d % 2 ^ 32 := by omega
        rw [hmod', ← Nat.add_assoc]
        exact Function.update_of_ne hne _ _

/-- A sequence repeats itself at distance `k` when it is its first `k` members again and
    again. -/
theorem repeats_iff {α : Type} {f : Nat → α} {k n : Nat} :
    (∀ i < n, f (i % k) = f i) ↔ ∀ i, i + k < n → f (i + k) = f i := by
  constructor
  · intro h i hi
    rw [← h i (by omega), ← h (i + k) hi, Nat.add_mod_right]
  · intro h i
    induction i using Nat.strongRecOn with
    | ind i ih =>
      intro hi
      rcases Nat.lt_or_ge i k with hlt | hge
      · rw [Nat.mod_eq_of_lt hlt]
      · by_cases hk : k = 0
        · rw [hk, Nat.mod_zero]
        · have hstep := h (i - k) (by omega)
          rw [Nat.sub_add_cancel hge] at hstep
          rw [hstep, ← ih (i - k) (by omega) (by omega), Nat.mod_eq_sub_mod hge]

/-- When the user library's copy is right. -/
theorem ulib_moved_iff (hd : d + n ≤ 2 ^ 32) (hp : p + n ≤ 2 ^ 32) :
    Moved d p n v (Ulib.memmove d p n v) ↔
      d ≤ p ∨ p + n ≤ d ∨ ∀ i, i + (d - p) < n → v.mem (p + (i + (d - p))) = v.mem (p + i) := by
  have hw : Writes (region d n) v (Ulib.memmove d p n v) := copyUp_writes n d p v
  by_cases hapart : d ≤ p ∨ p + n ≤ d
  · have hclash : ∀ j k, j < k → k < n → (p + k) % 2 ^ 32 ≠ d + j := by
      intro j k hjk hkn heq
      rw [Nat.mod_eq_of_lt (by omega)] at heq
      omega
    have hcopied : ∀ i < n, (Ulib.memmove d p n v).mem (d + i) = v.mem (p + i) := by
      intro i hi
      have hload : v.load (p + i) = v.mem (p + i) := load_of_lt (by omega)
      rw [← hload]
      exact copyUp_mem n hd hclash i hi
    constructor
    · intro _
      rcases hapart with hle | hge
      · exact Or.inl hle
      · exact Or.inr (Or.inl hge)
    · intro _
      exact hw.moved hd hcopied
  · rw [not_or, Nat.not_le, Nat.not_le] at hapart
    have hbytes : ∀ i < n, (Ulib.memmove d p n v).mem (d + i) = v.mem (p + i % (d - p)) :=
      copyUp_repeats n hapart.1 hd
    have hrepeats := repeats_iff (f := fun i => v.mem (p + i)) (k := d - p) (n := n)
    constructor
    · intro h
      refine Or.inr (Or.inr (hrepeats.mp fun i hi => ?_))
      rw [← h.copied i hi, hbytes i hi]
    · rintro (hle | hge | h)
      · omega
      · omega
      · apply hw.moved hd
        intro i hi
        rw [hbytes i hi]
        exact hrepeats.mpr h i hi

/-- **The two agree** exactly when the destination does not begin inside the source, or the
    source repeats itself at that distance.  The kernel's is always right. -/
theorem memmoves_agree_iff (v : Space) (hd : d + n ≤ 2 ^ 32) (hp : p + n ≤ 2 ^ 32) :
    Moved d p n v (memmove d p n v) ∧
      ((Ulib.memmove d p n v).mem = (memmove d p n v).mem ∧ Moved d p n v (Ulib.memmove d p n v) ↔
        d ≤ p ∨ p + n ≤ d ∨ ∀ i, i + (d - p) < n → v.mem (p + (i + (d - p))) = v.mem (p + i)) := by
  have hkernel : Moved d p n v (memmove d p n v) := memmove_moved hd hp
  refine ⟨hkernel, ?_⟩
  rw [← ulib_moved_iff hd hp]
  constructor
  · exact And.right
  · intro h
    exact ⟨h.mem_eq hkernel, h⟩

/-- Two bytes moved down by one. -/
theorem memmoves_agree_down :
    (Ulib.memmove 1028 1029 2 (caller [0x30201])).mem = (memmove 1028 1029 2 (caller [0x30201])).mem ∧
      (memmove 1028 1029 2 (caller [0x30201])).mem 1028 = 2 := by
  have h := memmoves_agree_iff (d := 1028) (p := 1029) (n := 2) (caller [0x30201]) (by decide)
    (by decide)
  exact ⟨(h.2.mpr (Or.inl (by decide))).1, h.1.copied 0 (by decide)⟩

/-- Two bytes moved up by one: the user library's copy repeats the first. -/
theorem memmoves_disagree_up :
    (memmove 1029 1028 2 (caller [0x30201])).mem 1030 = 2 ∧
      (Ulib.memmove 1029 1028 2 (caller [0x30201])).mem 1030 = 1 ∧
      ¬ ∀ (v : Space) (d p n : Nat), d + n ≤ 2 ^ 32 → p + n ≤ 2 ^ 32 →
        (Ulib.memmove d p n v).mem = (memmove d p n v).mem ∧ Moved d p n v (Ulib.memmove d p n v) := by
  have hkernel : (memmove 1029 1028 2 (caller [0x30201])).mem 1030 = 2 := by decide
  have huser : (Ulib.memmove 1029 1028 2 (caller [0x30201])).mem 1030 = 1 := by decide
  refine ⟨hkernel, huser, ?_⟩
  intro h
  have heq := congrFun (h (caller [0x30201]) 1029 1028 2 (by decide) (by decide)).1 1030
  rw [hkernel] at heq
  exact absurd (huser.symm.trans heq) (by decide)

end Yonix.Sys
