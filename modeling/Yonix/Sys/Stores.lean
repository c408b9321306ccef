/-
  Yonix/Sys/Stores.lean
  =====================
  **Where the system calls store.**

  `Writes R s t` says that between `s` and `t` exactly the addresses in `R` were stored
  to, and that no other byte of memory changed.  Each call has a lemma that gives its
  `R` as a union of regions, and a region lies below the size of the caller exactly
  when its end does.  Three of the calls check their pointer; for the others the
  condition is a condition on the arguments.
-/
import Yonix.Sys.Model

namespace Yonix.Sys

variable {s t u : Space} {R R' : Set Nat} {a n : Nat}

/-! ### Regions -/

/-- The `n` bytes from `a` on. -/
def region (a n : Nat) : Set Nat := { x | ∃ k < n, x = (a + k) % 2 ^ 32 }

@[simp] theorem region_zero (a : Nat) : region a 0 = ∅ := by
  ext x
  simp [region]

theorem region_succ (a n : Nat) : region a (n + 1) = region a n ∪ {(a + n) % 2 ^ 32} := by
  ext x
  simp only [region, Set.mem_ofPred_eq, Set.mem_union, Set.mem_singleton_iff]
  constructor
  · rintro ⟨k, hk, rfl⟩
    rcases Nat.lt_succ_iff_lt_or_eq.mp hk with hk | rfl
    · exact Or.inl ⟨k, hk, rfl⟩
    · exact Or.inr rfl
  · rintro (⟨k, hk, rfl⟩ | rfl)
    · exact ⟨k, Nat.lt_succ_of_lt hk, rfl⟩
    · exact ⟨n, Nat.lt_succ_self n, rfl⟩

theorem region_mod (a n : Nat) : region (a % 2 ^ 32) n = region a n := by
  ext x
  simp only [region, Set.mem_ofPred_eq, Nat.mod_add_mod]

/-- The first byte of a region and the rest of it. -/
theorem region_succ' (a n : Nat) : region a (n + 1) = {a % 2 ^ 32} ∪ region (a + 1) n := by
  ext x
  simp only [region, Set.mem_ofPred_eq, Set.mem_union, Set.mem_singleton_iff]
  constructor
  · rintro ⟨k, hk, rfl⟩
    cases k with
    | zero => exact Or.inl rfl
    | succ k => exact Or.inr ⟨k, by omega, by rw [Nat.add_assoc, Nat.add_comm 1 k]⟩
  · rintro (rfl | ⟨k, hk, rfl⟩)
    · exact ⟨0, Nat.succ_pos n, rfl⟩
    · exact ⟨k + 1, by omega, by rw [Nat.add_assoc, Nat.add_comm 1 k]⟩

/-- The bytes belong to the caller. -/
def InUser (s : Space) (a n : Nat) : Prop := n = 0 ∨ a + n ≤ s.size

/-- All bytes of the set lie below the size. -/
def Below (R : Set Nat) (size : Nat) : Prop := ∀ x ∈ R, x < size

theorem below_union {size : Nat} : Below (R ∪ R') size ↔ Below R size ∧ Below R' size := by
  constructor
  · intro h
    exact ⟨fun x hx => h x (Or.inl hx), fun x hx => h x (Or.inr hx)⟩
  · rintro ⟨h, h'⟩ x (hx | hx)
    · exact h x hx
    · exact h' x hx

/-- A region that wraps around reaches the last byte of memory, so it is not below any
    size in the user's half. -/
theorem below_region (hsize : s.size < KERNBASE) (ha : a < 2 ^ 32) :
    Below (region a n) s.size ↔ InUser s a n := by
  unfold KERNBASE at hsize
  constructor
  · intro h
    by_cases hn : n = 0
    · exact Or.inl hn
    · right
      by_cases hwrap : a + n ≤ 2 ^ 32
      · have := h ((a + (n - 1)) % 2 ^ 32) ⟨n - 1, by omega, rfl⟩
        rw [Nat.mod_eq_of_lt (by omega)] at this
        omega
      · have := h ((a + (2 ^ 32 - 1 - a)) % 2 ^ 32) ⟨2 ^ 32 - 1 - a, by omega, rfl⟩
        rw [Nat.mod_eq_of_lt (by omega)] at this
        omega
  · rintro (rfl | hle) x ⟨k, hk, rfl⟩
    · omega
    · rw [Nat.mod_eq_of_lt (by omega)]
      omega

/-! ### What is written -/

structure Writes (R : Set Nat) (s t : Space) : Prop where
  stored : ∀ x, x ∈ t.stored ↔ x ∈ s.stored ∨ x ∈ R
  mem : ∀ x, x ∉ R → t.mem x = s.mem x

theorem Writes.of_eq (hst : t.stored = s.stored) (hm : t.mem = s.mem) : Writes ∅ s t :=
  ⟨fun x => by simp [hst], fun x _ => by rw [hm]⟩

theorem Writes.refl (s : Space) : Writes ∅ s s := Writes.of_eq rfl rfl

theorem Writes.trans (h : Writes R s t) (h' : Writes R' t u) : Writes (R ∪ R') s u := by
  refine ⟨?_, ?_⟩
  · intro x
    rw [h'.stored, h.stored, Set.mem_union]
    exact or_assoc
  · intro x hx
    rw [Set.mem_union, not_or] at hx
    rw [h'.mem x hx.2, h.mem x hx.1]

/-- Kernel bookkeeping after the stores. -/
theorem Writes.keep (h : Writes R s t) (hst : u.stored = t.stored) (hm : u.mem = t.mem) :
    Writes R s u := by
  have := h.trans (Writes.of_eq hst hm)
  rwa [Set.union_empty] at this

theorem store_writes (s : Space) (a : Nat) (b : UInt8) : Writes {a % 2 ^ 32} s (s.store a b) := by
  refine ⟨?_, ?_⟩
  · intro x
    simp only [Space.store, List.mem_cons, Set.mem_singleton_iff]
    exact or_comm
  · intro x hx
    exact Function.update_of_ne (fun h => hx h) _ _

theorem storeBytes_writes (a : Nat) (src : Nat → UInt8) (n : Nat) (s : Space) :
    Writes (region a n) s (s.storeBytes a src n) := by
  induction n with
  | zero =>
    rw [region_zero]
    exact Writes.refl s
  | succ n ih =>
    rw [region_succ]
    exact ih.trans (store_writes _ _ _)

theorem storeWord_writes (s : Space) (a v : Nat) : Writes (region a 4) s (s.storeWord a v) :=
  storeBytes_writes a _ 4 s

theorem copyUp_writes (n : Nat) :
    ∀ (d p : Nat) (s : Space), Writes (region d n) s (copyUp d p n s) := by
  induction n with
  | zero =>
    intro d p s
    rw [region_zero]
    exact Writes.refl s
  | succ n ih =>
    intro d p s
    rw [region_succ', ← region_mod (d + 1)]
    exact (store_writes s d _).trans (ih _ _ _)

theorem copyDown_writes (n : Nat) :
    ∀ (d p : Nat) (s : Space), Writes (region d n) s (copyDown ((d + n) % 2 ^ 32) p n s) := by
  induction n with
  | zero =>
    intro d p s
    rw [region_zero]
    exact Writes.refl s
  | succ n ih =>
    intro d p s
    have hd : ((d + (n + 1)) % 2 ^ 32 + (2 ^ 32 - 1)) % 2 ^ 32 = (d + n) % 2 ^ 32 := by omega
    rw [region_succ, Set.union_comm]
    unfold copyDown
    dsimp only
    rw [hd]
    have hst := store_writes s ((d + n) % 2 ^ 32) (s.load ((p + (2 ^ 32 - 1)) % 2 ^ 32))
    rw [Nat.mod_mod] at hst
    exact hst.trans (ih _ _ _)

theorem memmove_writes (d p n : Nat) (s : Space) : Writes (region d n) s (memmove d p n s) := by
  unfold memmove
  split
  · exact copyDown_writes n d _ s
  · exact copyUp_writes n d p s

/-- A name without a null byte is copied whole, with a null byte after it. -/
theorem strcpyLoop_writes (l : List UInt8) (hl : ∀ c ∈ l, c ≠ 0) :
    ∀ (a : Nat) (s : Space), Writes (region a (l.length + 1)) s (strcpyLoop l.length a l s) := by
  induction l with
  | nil =>
    intro a s
    rw [List.length_nil, region_succ', region_zero, Set.union_empty]
    exact store_writes s a 0
  | cons c l ih =>
    intro a s
    have hc : c ≠ 0 := hl c List.mem_cons_self
    rw [List.length_cons, region_succ']
    unfold strcpyLoop
    rw [List.headD_cons, if_neg hc, List.tail_cons]
    exact (store_writes s a c).trans (ih (fun x hx => hl x (List.mem_cons_of_mem _ hx)) _ _)

theorem method_ne_zero (m : Scheme) : ∀ c ∈ m.method, c ≠ 0 := by
  cases m <;> simp [Scheme.method]

/-! ### Each call -/

/-- The addresses that a call stores to, as its arguments say: nothing when an argument
    is missing or the call ends before its store. -/
def arithTarget (op : Nat → Nat → Except Stop Nat) (a b c : Nat) : Set Nat :=
  match op a b with
  | .ok _ => region c 4
  | .error _ => ∅

theorem atomic_writes (op : Nat → Nat → Except Stop Nat) (a b c : Nat) (s : Space) :
    Writes (arithTarget op a b c) s (atomic op a b c s).2 := by
  unfold atomic arithTarget
  cases op a b with
  | ok v => exact storeWord_writes s c v
  | error e => exact Writes.refl s

theorem atomicSwap_writes (a b : Nat) (s : Space) :
    Writes (region a 4 ∪ region b 4) s (atomicSwap a b s).2 :=
  (storeWord_writes s a _).trans (storeWord_writes _ b _)

theorem dynamicSstore_writes (stack tf stksz : Nat) (s : Space) :
    Writes (region stack stksz ∪ region tf TFSIZE) s (dynamicSstore stack tf stksz s).2 :=
  (memmove_writes stack s.stack.toNat stksz s).trans (storeBytes_writes tf _ TFSIZE _)

theorem dynamicRestart_writes (stack tf stksz : Nat) (s : Space) :
    Writes (region s.stack.toNat stksz) s (dynamicRestart stack tf stksz s).2 :=
  (memmove_writes s.stack.toNat stack stksz s).keep rfl rfl

theorem schedName_writes (name : Nat) (s : Space) :
    Writes (region name (s.scheme.method.length + 1)) s (schedName name s).2 :=
  strcpyLoop_writes s.scheme.method (method_ne_zero s.scheme) name s

/-- The calls that check their pointer store inside what they checked. -/
def Inside (a n : Nat) (s : Space) (o : Outcome) : Prop := ∃ R ⊆ region a n, Writes R s o.2

theorem Inside.fail (a n : Nat) (s : Space) : Inside a n s (fail s) :=
  ⟨∅, Set.empty_subset _, Writes.refl s⟩

theorem region_mono {m : Nat} (h : m ≤ n) : region a m ⊆ region a n := by
  rintro x ⟨k, hk, rfl⟩
  exact ⟨k, hk.trans_le h, rfl⟩

theorem region_sub {m k : Nat} (h : k + m ≤ n) : region (a + k) m ⊆ region a n := by
  rintro x ⟨j, hj, rfl⟩
  exact ⟨k + j, by omega, by rw [Nat.add_assoc]⟩

theorem piperead_inside (s : Space) (p addr n : Nat) : Inside addr n s (piperead s p addr n) := by
  unfold piperead
  dsimp only
  split
  · split <;> exact ⟨∅, Set.empty_subset _, Writes.refl s⟩
  · exact ⟨_, region_mono (Nat.min_le_left _ _), (storeBytes_writes addr _ _ s).keep rfl rfl⟩

theorem consoleLoop_inside (target : Nat) (n : Nat) :
    ∀ (dst : Nat) (s : Space), Inside dst n s (consoleLoop target n dst s) := by
  induction n with
  | zero =>
    intro dst s
    exact ⟨∅, Set.empty_subset _, Writes.refl s⟩
  | succ n ih =>
    intro dst s
    unfold consoleLoop
    split
    · split <;> exact ⟨∅, Set.empty_subset _, Writes.refl s⟩
    · rename_i c l hin
      split
      · split <;> exact ⟨∅, Set.empty_subset _, Writes.of_eq rfl rfl⟩
      · dsimp only
        have hst := (store_writes { s with input := l } dst c)
        have hst' : Writes {dst % 2 ^ 32} s ({ s with input := l }.store dst c) := ⟨hst.stored, hst.mem⟩
        have hfirst : {dst % 2 ^ 32} ⊆ region dst (n + 1) := by
          rw [region_succ']
          exact Set.subset_union_left
        split
        · exact ⟨_, hfirst, hst'⟩
        · obtain ⟨R, hR, hw⟩ := ih (dst + 1) ({ s with input := l }.store dst c)
          refine ⟨_, Set.union_subset hfirst (hR.trans ?_), hst'.trans hw⟩
          exact region_sub (by omega)

theorem readi_inside (s : Space) (ip dst off n : Nat) : Inside dst n s (readi s ip dst off n) := by
  unfold readi
  dsimp only
  split
  · split
    · exact Inside.fail dst n s
    · exact consoleLoop_inside n n dst s
  · split
    · exact Inside.fail dst n s
    · rename_i hoff
      refine ⟨_, region_mono ?_, storeBytes_writes dst _ _ s⟩
      split
      · rename_i hend
        have := Nat.mod_le (off + n) (2 ^ 32)
        omega
      · exact le_rfl

theorem fileread_inside (s : Space) (f addr n : Nat) : Inside addr n s (fileread s f addr n) := by
  unfold fileread
  dsimp only
  split
  · exact Inside.fail addr n s
  · split
    · exact piperead_inside s _ addr n
    · rename_i i hi
      obtain ⟨R, hR, hw⟩ := readi_inside s i addr (s.file f).off n
      refine ⟨R, hR, ?_⟩
      unfold advance
      split
      · rename_i r t hr
        rw [hr] at hw
        split
        · exact hw.keep rfl rfl
        · exact hw
      · rename_i e t hr
        rwa [hr] at hw
    · exact ⟨∅, Set.empty_subset _, Writes.refl s⟩

theorem stati_inside (s : Space) (ip st : Nat) :
    ∃ R ⊆ region st STATSIZE, Writes R s (stati s ip st) := by
  have h1 := storeWord_writes s (st + 4) (s.inode ip).dev
  have h2 := h1.trans (storeWord_writes _ (st + 8) (s.inode ip).inum)
  have h3 := h2.trans (storeBytes_writes st (Bytes.leByte (ofInt (s.inode ip).type)) 2 _)
  have h4 := h3.trans (storeBytes_writes (st + 12) (Bytes.leByte (ofInt (s.inode ip).nlink)) 2 _)
  refine ⟨_, ?_, h4.trans (storeWord_writes _ (st + 16) (s.inode ip).size)⟩
  unfold STATSIZE
  refine Set.union_subset (Set.union_subset (Set.union_subset (Set.union_subset ?_ ?_) ?_) ?_) ?_
  · exact region_sub (by omega)
  · exact region_sub (by omega)
  · exact region_mono (by omega)
  · exact region_sub (by omega)
  · exact region_sub (by omega)

/-- A pointer that `argptr` accepts, with the bytes behind it. -/
theorem argptr_below {k : Nat} {size : Int} {q : Nat} (hs : s.size < KERNBASE) (hmax : size ≤ INT_MAX)
    (h : argptr s k size = some q) : 0 ≤ size ∧ q < s.size ∧ q + size.toNat ≤ s.size := by
  unfold KERNBASE at hs
  unfold INT_MAX at hmax
  unfold argptr at h
  cases hi : argint s k with
  | none => rw [hi] at h; cases h
  | some i =>
    rw [hi] at h
    dsimp only at h
    split at h
    · cases h
    · rename_i htest
      obtain rfl : i = q := Option.some.inj h
      have hof : ofInt size = size.toNat := by
        unfold ofInt
        omega
      rw [hof] at htest
      omega

theorem argptr_inUser {k : Nat} {size : Int} {p : Nat} (hs : s.size < KERNBASE)
    (hsize : size ≤ INT_MAX) (h : argptr s k size = some p) :
    p < 2 ^ 32 ∧ InUser s p size.toNat := by
  obtain ⟨_, hlt, hend⟩ := argptr_below hs hsize h
  unfold KERNBASE at hs
  exact ⟨by omega, Or.inr hend⟩

/-! ### Safe calls -/

/-- Everything that was stored belongs to the caller, and the kernel's half of memory is
    what it was. -/
def Safe (s : Space) (o : Outcome) : Prop :=
  (∀ x ∈ o.2.stored, x < s.size) ∧ ∀ x, KERNBASE ≤ x → o.2.mem x = s.mem x

theorem safe_iff {o : Outcome} (hs : s.size < KERNBASE) (h0 : s.stored = []) (hw : Writes R s o.2) :
    Safe s o ↔ Below R s.size := by
  constructor
  · intro h x hx
    exact h.1 x ((hw.stored x).mpr (Or.inr hx))
  · intro h
    refine ⟨?_, ?_⟩
    · intro x hx
      rcases (hw.stored x).mp hx with hx | hx
      · rw [h0] at hx
        cases hx
      · exact h x hx
    · intro x hx
      refine hw.mem x fun hR => ?_
      have := h x hR
      omega

theorem safe_fail (hs : s.size < KERNBASE) (h0 : s.stored = []) : Safe s (fail s) :=
  (safe_iff hs h0 (Writes.refl s)).mpr (by simp [Below])

theorem Inside.safe {o : Outcome} (hs : s.size < KERNBASE) (h0 : s.stored = []) (ha : a < 2 ^ 32)
    (hin : InUser s a n) (h : Inside a n s o) : Safe s o := by
  obtain ⟨R, hR, hw⟩ := h
  refine (safe_iff hs h0 hw).mpr ?_
  exact fun x hx => (below_region hs ha).mpr hin x (hR hx)

theorem argint_lt {k : Nat} (h : argint s k = some a) : a < 2 ^ 32 := by
  unfold argint fetchint at h
  split at h
  · cases h
  · cases h
    unfold Space.loadWord
    have := fun b : UInt8 => b.toNat_lt
    have h0 := this (s.load ((s.esp + 4 + 4 * k) % 2 ^ 32))
    have h1 := this (s.load ((s.esp + 4 + 4 * k) % 2 ^ 32 + 1))
    have h2 := this (s.load ((s.esp + 4 + 4 * k) % 2 ^ 32 + 2))
    have h3 := this (s.load ((s.esp + 4 + 4 * k) % 2 ^ 32 + 3))
    omega

theorem safe_withArg {k : Nat → Space → Outcome} {P : Nat → Prop} (hs : s.size < KERNBASE)
    (h0 : s.stored = []) (hk : ∀ a, a < 2 ^ 32 → (Safe s (k a s) ↔ P a)) :
    Safe s (withArg s k) ↔ ∀ a, argint s 0 = some a → P a := by
  unfold withArg
  cases h : argint s 0 with
  | none => simp [safe_fail hs h0]
  | some a => simp [hk a (argint_lt h)]

theorem safe_withArgs2 {k : Nat → Nat → Space → Outcome} {P : Nat → Nat → Prop}
    (hs : s.size < KERNBASE) (h0 : s.stored = [])
    (hk : ∀ a b, a < 2 ^ 32 → b < 2 ^ 32 → (Safe s (k a b s) ↔ P a b)) :
    Safe s (withArgs2 s k) ↔ ∀ a b, argint s 0 = some a → argint s 1 = some b → P a b := by
  unfold withArgs2
  cases h : argint s 0 with
  | none => simp [safe_fail hs h0]
  | some a =>
    cases h' : argint s 1 with
    | none => simp [safe_fail hs h0]
    | some b => simp [hk a b (argint_lt h) (argint_lt h')]

theorem safe_withArgs3 {k : Nat → Nat → Nat → Space → Outcome} {P : Nat → Nat → Nat → Prop}
    (hs : s.size < KERNBASE) (h0 : s.stored = [])
    (hk : ∀ a b c, a < 2 ^ 32 → b < 2 ^ 32 → c < 2 ^ 32 → (Safe s (k a b c s) ↔ P a b c)) :
    Safe s (withArgs3 s k) ↔ ∀ a b c, argint s 0 = some a → argint s 1 = some b →
      argint s 2 = some c → P a b c := by
  unfold withArgs3
  cases h : argint s 0 with
  | none => simp [safe_fail hs h0]
  | some a =>
    cases h' : argint s 1 with
    | none => simp [safe_fail hs h0]
    | some b =>
      cases h'' : argint s 2 with
      | none => simp [safe_fail hs h0]
      | some c => simp [hk a b c (argint_lt h) (argint_lt h') (argint_lt h'')]

/-! ### The condition -/

/-- The division traps. -/
def DivTraps (a b : Nat) : Prop := toInt b = 0 ∨ toInt a = INT_MIN ∧ toInt b = -1

/-- What the arguments of each call have to be.  The calls that check their pointer need
    nothing. -/
def Permits (s : Space) : Call → Prop
  | .read | .fstat | .pipe => True
  | .atomAdd | .atomSub | .atomMul => ∀ a b c, argint s 0 = some a → argint s 1 = some b →
      argint s 2 = some c → InUser s c 4
  | .atomDiv | .atomMod => ∀ a b c, argint s 0 = some a → argint s 1 = some b →
      argint s 2 = some c → ¬ DivTraps a b → InUser s c 4
  | .atomSet => ∀ a b, argint s 0 = some a → argint s 1 = some b → InUser s a 4
  | .atomSwp => ∀ a b, argint s 0 = some a → argint s 1 = some b → InUser s a 4 ∧ InUser s b 4
  | .semInit | .semV => ∀ n sem, argint s 0 = some n → argint s 1 = some sem → 0 ≤ toInt n →
      InUser s sem 4
  | .semP => ∀ n sem, argint s 0 = some n → argint s 1 = some sem →
      0 ≤ toInt n ∧ toInt n ≤ toInt (s.loadWord sem) → InUser s sem 4
  | .mutInit | .mutV => ∀ sem, argint s 0 = some sem → InUser s sem 4
  | .mutP => ∀ sem, argint s 0 = some sem → 0 < toInt (s.loadWord sem) → InUser s sem 4
  | .lwpCreate => ∀ fn arg stack stksz, argint s 0 = some fn → argint s 1 = some arg →
      argint s 2 = some stack → argint s 3 = some stksz →
      0 ≤ toInt stksz ∧ s.freshProc ≠ none →
      InUser s ((stack + stksz + (2 ^ 32 - 4)) % 2 ^ 32) 4 ∧
        InUser s ((stack + stksz + (2 ^ 32 - 8)) % 2 ^ 32) 4
  | .lwpJoin => ∀ stack, argint s 0 = some stack → (∃ pid p, s.scan = .zombie pid p) →
      InUser s stack 4
  | .schedName => ∀ name, argint s 0 = some name → InUser s name (s.scheme.method.length + 1)
  | .dsstore => ∀ stack tf stksz, argint s 0 = some stack → argint s 1 = some tf →
      argint s 2 = some stksz → InUser s stack stksz ∧ InUser s tf TFSIZE
  | .dsrestart => ∀ stack tf stksz, argint s 0 = some stack → argint s 1 = some tf →
      argint s 2 = some stksz → InUser s s.stack.toNat stksz

section
variable (hs : s.size < KERNBASE) (h0 : s.stored = [])
include hs h0

theorem safe_region {o : Outcome} (ha : a < 2 ^ 32) (hw : Writes (region a n) s o.2) :
    Safe s o ↔ InUser s a n :=
  (safe_iff hs h0 hw).trans (below_region hs ha)

theorem safe_regions {o : Outcome} {b m : Nat} (ha : a < 2 ^ 32) (hb : b < 2 ^ 32)
    (hw : Writes (region a n ∪ region b m) s o.2) : Safe s o ↔ InUser s a n ∧ InUser s b m := by
  rw [safe_iff hs h0 hw, below_union, below_region hs ha, below_region hs hb]

/-- A call that makes its store only under a test. -/
theorem safe_guarded {o : Outcome} {C : Prop} (hno : ¬ C → Writes ∅ s o.2)
    (hyes : C → (Safe s o ↔ InUser s a n)) : Safe s o ↔ (C → InUser s a n) := by
  by_cases hC : C
  · simp [hyes hC, hC]
  · have hsafe : Safe s o := (safe_iff hs h0 (hno hC)).mpr (by simp [Below])
    simp [hsafe, hC]

theorem safe_atomic {op : Nat → Nat → Except Stop Nat} {x y c : Nat} (hc : c < 2 ^ 32) {C : Prop}
    (hop : C ↔ ∃ v, op x y = .ok v) : Safe s (atomic op x y c s) ↔ (C → InUser s c 4) := by
  have hw := atomic_writes op x y c s
  unfold arithTarget at hw
  refine safe_guarded hs h0 ?_ ?_
  · intro hC
    cases h : op x y with
    | ok v => exact absurd (hop.mpr ⟨v, h⟩) hC
    | error e => rwa [h] at hw
  · intro hC
    obtain ⟨v, hv⟩ := hop.mp hC
    rw [hv] at hw
    exact safe_region hs h0 hc hw

theorem safe_idiv {op : Int → Int → Int} {x y c : Nat} (hc : c < 2 ^ 32) :
    Safe s (atomic (idiv op) x y c s) ↔ (¬ DivTraps x y → InUser s c 4) := by
  refine safe_atomic hs h0 hc ?_
  unfold idiv DivTraps
  split
  · rename_i h
    simp [h]
  · rename_i h
    simp [h]

theorem safe_semP {x sem : Nat} (hsem : sem < 2 ^ 32) :
    Safe s (semP x sem s) ↔
      (0 ≤ toInt x ∧ toInt x ≤ toInt (s.loadWord sem) → InUser s sem 4) := by
  refine safe_guarded hs h0 ?_ ?_
  · intro hC
    unfold semP
    split
    · exact Writes.refl s
    · rw [if_pos (by omega)]
      exact Writes.refl s
  · intro hC
    refine safe_region hs h0 hsem ?_
    unfold semP
    rw [if_neg (by omega), if_neg (by omega)]
    exact storeWord_writes s sem _

theorem safe_semInit {x sem : Nat} (hsem : sem < 2 ^ 32) :
    Safe s (semInit x sem s) ↔ (0 ≤ toInt x → InUser s sem 4) := by
  refine safe_guarded hs h0 ?_ ?_
  · intro hC
    unfold semInit
    rw [if_pos (by omega)]
    exact Writes.refl s
  · intro hC
    refine safe_region hs h0 hsem ?_
    unfold semInit
    rw [if_neg (by omega)]
    exact storeWord_writes s sem _

theorem safe_semV {x sem : Nat} (hsem : sem < 2 ^ 32) :
    Safe s (semV x sem s) ↔ (0 ≤ toInt x → InUser s sem 4) := by
  refine safe_guarded hs h0 ?_ ?_
  · intro hC
    unfold semV
    rw [if_pos (by omega)]
    exact Writes.refl s
  · intro hC
    refine safe_region hs h0 hsem ?_
    unfold semV
    rw [if_neg (by omega)]
    exact storeWord_writes s sem _

theorem safe_mutexP {sem : Nat} (hsem : sem < 2 ^ 32) :
    Safe s (mutexP sem s) ↔ (0 < toInt (s.loadWord sem) → InUser s sem 4) := by
  refine safe_guarded hs h0 ?_ ?_
  · intro hC
    unfold mutexP
    rw [if_pos (by omega)]
    exact Writes.refl s
  · intro hC
    refine safe_region hs h0 hsem ?_
    unfold mutexP
    rw [if_neg (by omega)]
    exact storeWord_writes s sem _

theorem safe_lwpJoin {stack : Nat} (hst : stack < 2 ^ 32) :
    Safe s (lwpJoin stack s) ↔ ((∃ pid p, s.scan = .zombie pid p) → InUser s stack 4) := by
  refine safe_guarded hs h0 ?_ ?_
  · intro hC
    unfold lwpJoin
    split
    · rename_i pid p h
      exact absurd ⟨pid, p, h⟩ hC
    · exact Writes.refl s
    · split <;> exact Writes.refl s
  · rintro ⟨pid, p, h⟩
    refine safe_region hs h0 hst ?_
    unfold lwpJoin
    rw [h]
    exact storeWord_writes s stack p

theorem safe_sysLwpCreate : Safe s (sysLwpCreate s) ↔ Permits s .lwpCreate := by
  unfold sysLwpCreate Permits
  cases h1 : argint s 0 with
  | none => simp [safe_fail hs h0]
  | some fn =>
    cases h2 : argint s 1 with
    | none => simp [safe_fail hs h0]
    | some arg =>
      cases h3 : argint s 2 with
      | none => simp [safe_fail hs h0]
      | some stack =>
        cases h4 : argint s 3 with
        | none => simp [safe_fail hs h0]
        | some stksz =>
          have hkey : Safe s (if toInt stksz < 0 then fail s else lwpCreate arg stack stksz s) ↔
              (0 ≤ toInt stksz ∧ s.freshProc ≠ none →
                InUser s ((stack + stksz + (2 ^ 32 - 4)) % 2 ^ 32) 4 ∧
                  InUser s ((stack + stksz + (2 ^ 32 - 8)) % 2 ^ 32) 4) := by
            by_cases hneg : toInt stksz < 0
            · have : ¬ 0 ≤ toInt stksz := by omega
              simp [hneg, this, safe_fail hs h0]
            · rw [if_neg hneg]
              unfold lwpCreate
              cases hp : s.freshProc with
              | none => simp [safe_fail hs h0]
              | some pid =>
                have hpos : 0 ≤ toInt stksz := by omega
                have hesp : ((stack + stksz + (2 ^ 32 - 4)) % 2 ^ 32 + (2 ^ 32 - 4)) % 2 ^ 32 =
                    (stack + stksz + (2 ^ 32 - 8)) % 2 ^ 32 := by omega
                have hw := (storeWord_writes s ((stack + stksz + (2 ^ 32 - 4)) % 2 ^ 32) arg).trans
                  (storeWord_writes _ ((stack + stksz + (2 ^ 32 - 4)) % 2 ^ 32 + (2 ^ 32 - 4))
                    0xffffffff)
                rw [← region_mod ((stack + stksz + (2 ^ 32 - 4)) % 2 ^ 32 + (2 ^ 32 - 4)), hesp] at hw
                rw [safe_regions hs h0 (Nat.mod_lt _ (by decide)) (Nat.mod_lt _ (by decide)) hw]
                simp [hpos]
          constructor
          · rintro h _ _ _ _ ⟨⟩ ⟨⟩ ⟨⟩ ⟨⟩
            exact hkey.mp h
          · intro h
            exact hkey.mpr (h fn arg stack stksz rfl rfl rfl rfl)

theorem safe_sysRead : Safe s (sysRead s) := by
  unfold sysRead
  split
  · rename_i f n hf hn
    split
    · rename_i p hp
      have hle : toInt n ≤ INT_MAX := by
        have := argint_lt hn
        unfold toInt INT_MAX
        split <;> omega
      obtain ⟨hlt, hin⟩ := argptr_inUser hs hle hp
      have hnat : (toInt n).toNat = n := by
        have hnn : ¬ toInt n < 0 := by
          intro hneg
          unfold argptr at hp
          split at hp
          · cases hp
          · rw [if_pos (Or.inl hneg)] at hp
            cases hp
        unfold toInt at hnn ⊢
        split
        · exact Int.toNat_natCast n
        · rename_i hge
          have := argint_lt hn
          rw [if_neg hge] at hnn
          omega
      rw [hnat] at hin
      exact (fileread_inside s f p n).safe hs h0 hlt hin
    · exact safe_fail hs h0
  · exact safe_fail hs h0

theorem safe_sysFstat : Safe s (sysFstat s) := by
  unfold sysFstat
  split
  · rename_i f st hf hst
    obtain ⟨hlt, hin⟩ := argptr_inUser hs (by decide) hst
    unfold filestat
    split
    · rename_i i hi
      obtain ⟨R, hR, hw⟩ := stati_inside s i st
      exact Inside.safe hs h0 hlt hin ⟨R, hR, hw⟩
    · exact safe_fail hs h0
  · exact safe_fail hs h0

theorem safe_sysPipe : Safe s (sysPipe s) := by
  have hkeep : ∀ o : Outcome, o.2.stored = s.stored → o.2.mem = s.mem → Safe s o := by
    intro o hst hm
    exact (safe_iff hs h0 (Writes.of_eq hst hm)).mpr (by simp [Below])
  unfold sysPipe
  split
  · exact safe_fail hs h0
  · rename_i fd hfd
    obtain ⟨hlt, hin⟩ := argptr_inUser hs (by decide) hfd
    split
    · exact safe_fail hs h0
    · rename_i rf wf v hv
      have hv' : v.stored = s.stored ∧ v.mem = s.mem := by
        unfold pipealloc at hv
        split at hv
        · cases hv
        · cases hv
          exact ⟨rfl, rfl⟩
      split
      · exact hkeep _ hv'.1 hv'.2
      · rename_i fd0 t ht
        have ht' : t.stored = s.stored ∧ t.mem = s.mem := by
          unfold fdalloc at ht
          split at ht
          · cases ht
          · cases ht
            exact hv'
        split
        · exact hkeep _ hv'.1 hv'.2
        · rename_i fd1 w hw
          have hw' : w.stored = s.stored ∧ w.mem = s.mem := by
            unfold fdalloc at hw
            split at hw
            · cases hw
            · cases hw
              exact ht'
          have h1 := (Writes.of_eq hw'.1 hw'.2).trans (storeWord_writes w fd fd0)
          refine Inside.safe hs h0 hlt hin ⟨_, ?_, h1.trans (storeWord_writes _ (fd + 4) fd1)⟩
          refine Set.union_subset (Set.union_subset (Set.empty_subset _) ?_) ?_
          · exact region_mono (by decide)
          · exact region_sub (by decide)

theorem perform_safe_iff (c : Call) : Safe s (perform s c) ↔ Permits s c := by
  cases c with
  | read => exact iff_true_intro (safe_sysRead hs h0)
  | fstat => exact iff_true_intro (safe_sysFstat hs h0)
  | pipe => exact iff_true_intro (safe_sysPipe hs h0)
  | atomAdd =>
    refine safe_withArgs3 hs h0 fun a b c _ _ hc => ?_
    exact safe_region hs h0 hc (storeWord_writes s c _)
  | atomSub =>
    refine safe_withArgs3 hs h0 fun a b c _ _ hc => ?_
    exact safe_region hs h0 hc (storeWord_writes s c _)
  | atomMul =>
    refine safe_withArgs3 hs h0 fun a b c _ _ hc => ?_
    exact safe_region hs h0 hc (storeWord_writes s c _)
  | atomDiv => exact safe_withArgs3 hs h0 fun a b c _ _ hc => safe_idiv hs h0 hc
  | atomMod => exact safe_withArgs3 hs h0 fun a b c _ _ hc => safe_idiv hs h0 hc
  | atomSet =>
    refine safe_withArgs2 hs h0 fun a b ha _ => ?_
    exact safe_region hs h0 ha (storeWord_writes s a b)
  | atomSwp =>
    refine safe_withArgs2 hs h0 fun a b ha hb => ?_
    exact safe_regions hs h0 ha hb (atomicSwap_writes a b s)
  | semInit => exact safe_withArgs2 hs h0 fun n sem _ hsem => safe_semInit hs h0 hsem
  | semP => exact safe_withArgs2 hs h0 fun n sem _ hsem => safe_semP hs h0 hsem
  | semV => exact safe_withArgs2 hs h0 fun n sem _ hsem => safe_semV hs h0 hsem
  | mutInit =>
    refine safe_withArg hs h0 fun sem hsem => ?_
    exact safe_region hs h0 hsem (storeWord_writes s sem 1)
  | mutP => exact safe_withArg hs h0 fun sem hsem => safe_mutexP hs h0 hsem
  | mutV =>
    refine safe_withArg hs h0 fun sem hsem => ?_
    exact safe_region hs h0 hsem (storeWord_writes s sem _)
  | lwpCreate => exact safe_sysLwpCreate hs h0
  | lwpJoin => exact safe_withArg hs h0 fun stack hst => safe_lwpJoin hs h0 hst
  | schedName =>
    refine safe_withArg hs h0 fun name hname => ?_
    exact safe_region hs h0 hname (schedName_writes name s)
  | dsstore =>
    refine safe_withArgs3 hs h0 fun stack tf stksz hst htf _ => ?_
    exact safe_regions hs h0 hst htf (dynamicSstore_writes stack tf stksz s)
  | dsrestart =>
    refine safe_withArgs3 hs h0 fun stack tf stksz _ _ _ => ?_
    exact safe_region hs h0 s.stack.toNat_lt (dynamicRestart_writes stack tf stksz s)

end

/-- A process of one page with these words as arguments. -/
def caller (args : List Nat) : Space where
  mem := fun a =>
    if 1028 ≤ a ∧ a < 1028 + 4 * args.length then
      Bytes.leByte (args.getD ((a - 1028) / 4) 0) ((a - 1028) % 4)
    else 0
  stored := []
  size := PGSIZE
  tf := Bytes.zero.setLE 68 4 1024
  stack := 0
  killed := false
  ofile := fun _ => none
  file := fun _ => ⟨.none, false, 0⟩
  pipe := fun _ => ⟨[], false⟩
  inode := fun _ => ⟨0, 0, 0, 0, 0, 0, fun _ => 0⟩
  input := []
  scheme := .rr
  freshPipe := none
  freshProc := none
  scan := .noKid

end Yonix.Sys
