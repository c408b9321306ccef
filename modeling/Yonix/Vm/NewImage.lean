/-
  Yonix/Vm/NewImage.lean
  ======================
  **What `exec` leaves behind: the program and its arguments.**

  The guard page below the stack is closed to `copyout`, so a copy that ends in the stack
  page and gets through lies wholly in it: a string that is too long, or one that wraps
  round below zero, has to cross the guard page or the kernel half.  So the arguments are
  in the top page, each string below the one before it, and the image below is as it was
  loaded.  Freeing the old directory writes into its own frames only.
-/
import Yonix.Vm.Loader

namespace Yonix.Vm

variable {s t : Core} {d pid : Nat} {st : Nat → Option Nat} {sz : Nat} {usr : Nat → Bool}
  {m : Nat → UInt8}

/-! ### `copyout` -/

theorem Layout.copyoutLoop (k : Nat) :
    ∀ {va : Nat} {src : List UInt8} {m : Nat → UInt8} {s t : Core}, Layout st d (below sz) usr m s →
      src.length ≤ k → copyoutLoop d k va src s = .ok (t, true) →
      Layout st d (below sz) usr (Memory.write m va src.length fun j => src.getD j 0) t ∧
        ∀ j < src.length, below sz (pgrounddown (va + j)) ∧ usr (pgrounddown (va + j)) = true := by
  induction k with
  | zero =>
    intro va src m s t h hlen ht
    obtain rfl := List.length_eq_zero_iff.mp (Nat.le_zero.mp hlen)
    cases ht
    rw [List.length_nil, Memory.write_zero]
    exact ⟨h, fun j hj => absurd hj (Nat.not_lt_zero j)⟩
  | succ k ih =>
    intro va src m s t h hlen ht
    unfold Vm.copyoutLoop at ht
    split at ht
    · rename_i hnil
      subst hnil
      cases ht
      rw [List.length_nil, Memory.write_zero]
      exact ⟨h, fun j hj => absurd hj (Nat.not_lt_zero j)⟩
    · rename_i hne
      have hpos := List.length_pos_iff.mpr hne
      dsimp only at ht
      split at ht
      · cases ht
      · rename_i x hx
        split at ht
        · cases ht
        · rename_i hopen
          simp only [not_or, Bool.not_eq_false] at hopen
          have hpage := h.only _ (pgrounddown_dvd va) ((marked_of_pte hx).mpr hopen.1)
          have husr : usr (pgrounddown va) = true := by
            obtain ⟨y, hy, -, hyu, -⟩ := h.page _ hpage
            rw [← hyu, ← hopen.2]
            exact congrArg Pte.u (Option.some.inj (hy.symm.trans hx))
          have hdown := pgrounddown_le va
          have hoff := sub_pgrounddown_lt va
          obtain ⟨n, hn⟩ : ∃ n, n = min (PGSIZE - (va - pgrounddown va)) src.length := ⟨_, rfl⟩
          rw [← hn] at ht
          have hpatch := h.patch (va - pgrounddown va) n (fun j => src.getD j 0) hpage hx
            (by omega)
          rw [Nat.add_sub_cancel' hdown] at hpatch
          obtain ⟨hrest, hpages⟩ := ih hpatch (by rw [List.length_drop]; omega) ht
          rw [List.length_drop] at hrest hpages
          refine ⟨?_, ?_⟩
          · rcases Nat.lt_or_ge n src.length with hlt | hge
            · have hnext : pgrounddown va + PGSIZE = va + n := by omega
              have hsrc : (fun j => (src.drop n).getD j 0) = fun j => src.getD (n + j) 0 := by
                funext j
                rw [List.getD_eq_getElem?_getD, List.getD_eq_getElem?_getD, List.getElem?_drop]
              rw [hnext, hsrc] at hrest
              rw [Memory.write_add, Nat.add_sub_cancel' hlt.le] at hrest
              exact hrest
            · have hall : n = src.length := by omega
              rw [hall, Nat.sub_self, Memory.write_zero] at hrest
              exact hrest
          · intro j hj
            rcases Nat.lt_or_ge j n with hlt | hge
            · have hsame : pgrounddown (va + j) = pgrounddown va := by
                unfold pgrounddown at *
                unfold PGSIZE at *
                omega
              rw [hsame]
              exact ⟨hpage, husr⟩
            · have hshift : pgrounddown va + PGSIZE + (j - n) = va + j := by omega
              have := hpages (j - n) (by omega)
              rwa [hshift] at this

theorem Layout.copyout {va : Nat} {src : List UInt8} (h : Layout st d (below sz) usr m s)
    (ht : copyout s d va src = .ok (t, true)) :
    Layout st d (below sz) usr (Memory.write m va src.length fun j => src.getD j 0) t ∧
      ∀ j < src.length, below sz (pgrounddown (va + j)) ∧ usr (pgrounddown (va + j)) = true :=
  h.copyoutLoop src.length (Nat.le_refl _) ht

/-- A run of open pages that reaches the guard page lies above it. -/
theorem in_top {va n : Nat} (hdvd : PGSIZE ∣ sz) (hpos : 0 < n)
    (hopen : ∀ j < n, below sz (pgrounddown (va + j)) ∧ unguarded sz (pgrounddown (va + j)) = true)
    (hend : sz - 2 * PGSIZE < va + n) : sz - PGSIZE ≤ va ∧ va + n ≤ sz := by
  have hguard : ∀ j < n, ¬ (sz - 2 * PGSIZE ≤ va + j ∧ va + j < sz - PGSIZE) := by
    intro j hj hin
    have hno := (hopen j hj).2
    unfold unguarded at hno
    rw [decide_eq_true_eq] at hno
    apply hno
    unfold pgrounddown
    unfold PGSIZE at *
    omega
  have hlast := (hopen (n - 1) (by omega)).1.2
  have hup : va + n ≤ sz := by
    unfold pgrounddown at hlast
    unfold PGSIZE at *
    omega
  refine ⟨?_, hup⟩
  by_contra hlo
  rcases Nat.lt_or_ge va (sz - 2 * PGSIZE) with hlt | hge
  · refine hguard (sz - 2 * PGSIZE - va) (by omega) ?_
    unfold PGSIZE at *
    omega
  · exact hguard 0 hpos ⟨by omega, by omega⟩

/-! ### The strings -/

/-- The strings `args` are at the addresses `us`, each below the one before it, from `hi`
    down to `lo`. -/
def Strings (m : Nat → UInt8) : List (List UInt8) → List Nat → Nat → Nat → Prop
  | [], [], hi, lo => hi = lo
  | arg :: args, p :: us, hi, lo => p + (arg.length + 1) ≤ hi ∧
    (∀ j < arg.length + 1, m (p + j) = (arg ++ [0]).getD j 0) ∧ Strings m args us p lo
  | _, _, _, _ => False

theorem Strings.le {lo : Nat} (args : List (List UInt8)) :
    ∀ {us : List Nat} {hi : Nat}, Strings m args us hi lo → lo ≤ hi ∧ us.length = args.length := by
  induction args with
  | nil =>
    intro us hi h
    cases us with
    | nil => exact ⟨Nat.le_of_eq (Eq.symm h), rfl⟩
    | cons p us => exact h.elim
  | cons arg args ih =>
    intro us hi h
    cases us with
    | nil => exact h.elim
    | cons p us =>
      obtain ⟨hle, -, hrest⟩ := h
      obtain ⟨hlo, hlen⟩ := ih hrest
      refine ⟨by omega, ?_⟩
      rw [List.length_cons, List.length_cons, hlen]

theorem Strings.congr {m' : Nat → UInt8} {lo : Nat} (hm : ∀ a, lo ≤ a → m' a = m a)
    (args : List (List UInt8)) :
    ∀ {us : List Nat} {hi : Nat}, Strings m args us hi lo → Strings m' args us hi lo := by
  induction args with
  | nil =>
    intro us hi h
    cases us with
    | nil => exact h
    | cons p us => exact h.elim
  | cons arg args ih =>
    intro us hi h
    cases us with
    | nil => exact h.elim
    | cons p us =>
      obtain ⟨hle, hbytes, hrest⟩ := h
      have hlo := (Strings.le args hrest).1
      refine ⟨hle, ?_, ih hrest⟩
      intro j hj
      rw [hm _ (by omega)]
      exact hbytes j hj

/-- String number `i`: where it is, and what is there. -/
theorem Strings.get {lo : Nat} (args : List (List UInt8)) :
    ∀ {us : List Nat} {hi i : Nat}, Strings m args us hi lo → (h : i < args.length) →
      lo ≤ us.getD i 0 ∧ us.getD i 0 + (args[i].length + 1) ≤ hi ∧
        ∀ j < args[i].length + 1, m (us.getD i 0 + j) = (args[i] ++ [0]).getD j 0 := by
  induction args with
  | nil =>
    intro us hi i _ h
    exact absurd h (Nat.not_lt_zero i)
  | cons arg args ih =>
    intro us hi i hs h
    cases us with
    | nil => exact hs.elim
    | cons p us =>
      obtain ⟨hle, hbytes, hrest⟩ := hs
      have hlo := (Strings.le args hrest).1
      cases i with
      | zero => exact ⟨hlo, hle, hbytes⟩
      | succ i =>
        obtain ⟨h1, h2, h3⟩ := ih hrest (Nat.lt_of_succ_lt_succ h)
        refine ⟨h1, ?_, h3⟩
        simp only [List.getD_cons_succ, List.getElem_cons_succ]
        omega

theorem Strings.order {lo : Nat} (args : List (List UInt8)) :
    ∀ {us : List Nat} {hi i j : Nat}, Strings m args us hi lo → i < j → (h : j < args.length) →
      us.getD j 0 + (args[j].length + 1) ≤ us.getD i 0 := by
  induction args with
  | nil =>
    intro us hi i j _ _ h
    exact absurd h (Nat.not_lt_zero j)
  | cons arg args ih =>
    intro us hi i j hs hij h
    cases us with
    | nil => exact hs.elim
    | cons p us =>
      obtain ⟨-, -, hrest⟩ := hs
      cases j with
      | zero => exact absurd hij (Nat.not_lt_zero i)
      | succ j =>
        have hj := Nat.lt_of_succ_lt_succ h
        cases i with
        | zero => exact (Strings.get args hrest hj).2.1
        | succ i => exact ih hrest (Nat.lt_of_succ_lt_succ hij) hj

/-- The string pushed below `sp` reaches up to `sp`, or round the end of memory. -/
theorem next_sp {sp n : Nat} (hlt : sz < KERNBASE) (htwo : 2 * PGSIZE ≤ sz) (hlo : sz - PGSIZE ≤ sp)
    (hhi : sp ≤ sz) : sz - 2 * PGSIZE < (sp + 2 ^ 32 - (n + 1)) % 2 ^ 32 / 4 * 4 + (n + 1) := by
  unfold KERNBASE PGSIZE at *
  omega

theorem next_sp_le (sp n : Nat) (hlt : sz < KERNBASE) (hhi : sp ≤ sz)
    (hin : (sp + 2 ^ 32 - (n + 1)) % 2 ^ 32 / 4 * 4 + (n + 1) ≤ sz) :
    (sp + 2 ^ 32 - (n + 1)) % 2 ^ 32 / 4 * 4 + (n + 1) ≤ sp := by
  unfold KERNBASE at hlt
  omega

/-- The strings pushed from `sp` on are all in the stack page, and nothing else changes. -/
theorem Layout.pushArgs (hdvd : PGSIZE ∣ sz) (htwo : 2 * PGSIZE ≤ sz) (hlt : sz < KERNBASE)
    (args : List (List UInt8)) :
    ∀ {argc sp sp' : Nat} {ustack us : List Nat} {m : Nat → UInt8} {s t : Core},
      Layout st d (below sz) (unguarded sz) m s → sz - PGSIZE ≤ sp → sp ≤ sz → 4 ∣ sp →
      argc ≤ MAXARG → pushArgs d args argc sp ustack s = .ok (t, some (sp', us)) →
      ∃ us' m', us = ustack ++ us' ∧ Layout st d (below sz) (unguarded sz) m' t ∧
        Strings m' args us' sp sp' ∧ (∀ a, a < sz - PGSIZE → m' a = m a) ∧
        (∀ a, sp ≤ a → m' a = m a) ∧ sz - PGSIZE ≤ sp' ∧ 4 ∣ sp' ∧ argc + args.length ≤ MAXARG := by
  induction args with
  | nil =>
    intro argc sp sp' ustack us m s t h hlo hhi h4 hargc ht
    cases ht
    exact ⟨[], m, (List.append_nil _).symm, h, rfl, fun _ _ => rfl, fun _ _ => rfl, hlo, h4, hargc⟩
  | cons arg args ih =>
    intro argc sp sp' ustack us m s t h hlo hhi h4 hargc ht
    unfold Vm.pushArgs at ht
    split at ht
    · cases ht
    · rename_i hmax
      obtain ⟨⟨u, r⟩, hu, ht⟩ := bind_eq_ok.mp ht
      cases r with
      | false => cases ht
      | true =>
        dsimp only at ht
        have hreach := next_sp (n := arg.length) hlt htwo hlo hhi
        have hbelow := next_sp_le sp arg.length hlt hhi
        have hfour : 4 ∣ (sp + 2 ^ 32 - (arg.length + 1)) % 2 ^ 32 / 4 * 4 := Dvd.intro_left _ rfl
        revert hu ht hreach hbelow hfour
        generalize (sp + 2 ^ 32 - (arg.length + 1)) % 2 ^ 32 / 4 * 4 = p
        intro hu ht hreach hbelow hfour
        have hlen : (arg ++ [0]).length = arg.length + 1 := by
          rw [List.length_append, List.length_singleton]
        obtain ⟨hlu, hpages⟩ := h.copyout hu
        rw [hlen] at hlu hpages
        obtain ⟨htop, hend⟩ := in_top hdvd (Nat.succ_pos _) hpages hreach
        have hle := hbelow hend
        obtain ⟨us', m', rfl, hlt', hstr, hout, hkeep, hlo', h4', hcount⟩ :=
          ih hlu htop (by omega) hfour (by omega) ht
        refine ⟨p :: us', m', by rw [List.append_assoc, List.singleton_append], hlt', ⟨hle, ?_, hstr⟩,
          ?_, ?_, hlo', h4', ?_⟩
        · intro j hj
          rw [hkeep _ (by omega), Memory.write_in (by omega) (by omega), Nat.add_sub_cancel_left]
        · intro a ha
          rw [hout a ha, Memory.write_out (by omega)]
        · intro a ha
          rw [hkeep a (by omega), Memory.write_out (by omega)]
        · rw [List.length_cons]
          omega

/-! ### The words below the strings -/

/-- The bytes of a list of words, one word after the other. -/
theorem getD_words {v : Nat} (l : List Nat) :
    ∀ {i j : Nat}, l[i]? = some v → j < 4 →
      (l.flatMap wordBytes).getD (4 * i + j) 0 = Bytes.leByte v j := by
  induction l with
  | nil =>
    intro i j hi
    simp at hi
  | cons a l ih =>
    intro i j hi hj
    have hlen : (wordBytes a).length = 4 := rfl
    rw [List.flatMap_cons, List.getD_eq_getElem?_getD]
    cases i with
    | zero =>
      obtain rfl := Option.some.inj hi
      rw [List.getElem?_append_left (by omega), Nat.mul_zero, Nat.zero_add]
      unfold wordBytes
      rw [List.getElem?_map, List.getElem?_range hj]
      rfl
    | succ i =>
      rw [List.getElem?_append_right (by omega), ← List.getD_eq_getElem?_getD, hlen]
      have hshift : 4 * (i + 1) + j - 4 = 4 * i + j := by omega
      rw [hshift]
      exact ih hi hj

/-- A word that was written is read back. -/
theorem word_write {a v i : Nat} (l : List Nat) (hi : l[i]? = some v) (hv : v < 2 ^ 32) :
    Memory.word (Memory.write m a (l.flatMap wordBytes).length fun j => (l.flatMap wordBytes).getD j 0)
      (a + 4 * i) = v := by
  refine Memory.word_of_leByte ?_ hv
  intro j hj
  have hlt : i < l.length := (List.getElem?_eq_some_iff.mp hi).1
  have hlen := length_words l
  rw [Memory.write_in (by omega) (by omega)]
  have hshift : a + 4 * i + j - a = 4 * i + j := by omega
  rw [hshift]
  exact getD_words l hi hj

/-! ### The stack of the new image -/

/-- The address of argument `i`, as the program finds it from its stack pointer. -/
def argAt (m : Nat → UInt8) (esp i : Nat) : Nat := Memory.word m (Memory.word m (esp + 8) + 4 * i)

/-- What a program finds at its stack pointer: the return address, `argc`, `argv`, the
    array and the strings, in the stack page and apart from each other. -/
structure ArgStack (m : Nat → UInt8) (sz esp : Nat) (args : List (List UInt8)) : Prop where
  ret : Memory.word m esp = 0xffffffff
  argc : Memory.word m (esp + 4) = args.length
  string : ∀ i (h : i < args.length), ∀ j < args[i].length + 1,
    m (argAt m esp i + j) = (args[i] ++ [0]).getD j 0
  null : argAt m esp args.length = 0
  aligned : 4 ∣ esp
  low : sz - PGSIZE ≤ esp
  array : esp + 12 ≤ Memory.word m (esp + 8)
  below : ∀ i (_ : i < args.length), Memory.word m (esp + 8) + 4 * (args.length + 1) ≤ argAt m esp i
  apart : ∀ i j (h : j < args.length), i < j → argAt m esp j + (args[j].length + 1) ≤ argAt m esp i
  high : Memory.word m (esp + 8) + 4 * (args.length + 1) ≤ sz ∧
    ∀ i (h : i < args.length), argAt m esp i + (args[i].length + 1) ≤ sz

/-- `ustack`. -/
def stackWords (argc a : Nat) (us : List Nat) : List Nat := [0xffffffff, argc, a] ++ us ++ [0]

theorem length_stackWords (argc a : Nat) (us : List Nat) :
    (stackWords argc a us).length = us.length + 4 := by
  unfold stackWords
  simp only [List.length_append, List.length_cons, List.length_nil]
  omega

theorem stackWords_arg {argc a i : Nat} {us : List Nat} (hi : i < us.length) :
    (stackWords argc a us)[i + 3]? = some (us.getD i 0) := by
  unfold stackWords
  rw [List.append_assoc, List.getElem?_append_right (by simp), List.getElem?_append_left (by simpa using hi),
    List.getD_eq_getElem?_getD, List.getElem?_eq_getElem hi]
  simp [hi]

theorem stackWords_null (argc a : Nat) (us : List Nat) :
    (stackWords argc a us)[us.length + 3]? = some 0 := by
  have hlen : ([0xffffffff, argc, a] ++ us).length = us.length + 3 := by
    rw [List.length_append, Nat.add_comm]
    rfl
  unfold stackWords
  rw [List.getElem?_append_right hlen.le, hlen, Nat.sub_self]
  rfl

/-- The words at `esp` and the strings from `sp` on make up the argument stack. -/
theorem ArgStack.of_words {esp sp : Nat} {args : List (List UInt8)} {us : List Nat}
    (hword : ∀ {i v : Nat}, (stackWords args.length (esp + 12) us)[i]? = some v → v < 2 ^ 32 →
      Memory.word m (esp + 4 * i) = v)
    (hstr : Strings m args us sz sp) (hsum : esp + 4 * (args.length + 4) = sp) (hlt : sz < 2 ^ 32)
    (hargc : args.length < 2 ^ 32) (h4 : 4 ∣ esp) (hlow : sz - PGSIZE ≤ esp) :
    ArgStack m sz esp args := by
  obtain ⟨hsp, hlen⟩ := Strings.le args hstr
  have hargv : Memory.word m (esp + 8) = esp + 12 := hword (i := 2) rfl (by omega)
  have hat : ∀ {i v : Nat}, (stackWords args.length (esp + 12) us)[i + 3]? = some v → v < 2 ^ 32 →
      argAt m esp i = v := by
    intro i v hi hv
    unfold argAt
    rw [hargv]
    have hshift : esp + 12 + 4 * i = esp + 4 * (i + 3) := by omega
    rw [hshift]
    exact hword hi hv
  have hget : ∀ i (h : i < args.length), argAt m esp i = us.getD i 0 := by
    intro i hi
    have hle := (Strings.get args hstr hi).2.1
    exact hat (stackWords_arg (by omega)) (by omega)
  refine ⟨hword (i := 0) rfl (by decide), hword (i := 1) rfl hargc, ?_, ?_, h4, hlow, by omega, ?_, ?_,
    ?_, ?_⟩
  · intro i hi j hj
    rw [hget i hi]
    exact (Strings.get args hstr hi).2.2 j hj
  · rw [← hlen]
    exact hat (stackWords_null _ _ us) (by decide)
  · intro i hi
    rw [hget i hi, hargv]
    have hlo := (Strings.get args hstr hi).1
    omega
  · intro i j hj hij
    rw [hget i (hij.trans hj), hget j hj]
    exact Strings.order args hstr hij hj
  · rw [hargv]
    omega
  · intro i hi
    rw [hget i hi]
    exact (Strings.get args hstr hi).2.1

theorem Loads.buildStackRet {img : Image} {esp : Nat} (h : Loads st d sz img s)
    (ht : buildStackRet d sz img s = .ok (t, some esp)) :
    ∃ m, Layout st d (below sz) (unguarded sz) m t ∧ (∀ a, a < sz - PGSIZE → m a = imageOf img a) ∧
      ArgStack m sz esp img.args := by
  have hdvd := h.dvd
  have htwo := h.two
  have hkern := h.lt
  have hfour : 4 ∣ sz := Nat.dvd_trans (by decide : 4 ∣ PGSIZE) hdvd
  obtain ⟨⟨u, o⟩, hu, ht⟩ := bind_eq_ok.mp ht
  cases o with
  | none => cases ht
  | some r =>
    obtain ⟨sp, us⟩ := r
    obtain ⟨us', m, hus, hlu, hstr, hout, -, hlo, h4, hcount⟩ :=
      h.layout.pushArgs hdvd htwo hkern img.args (by omega) (Nat.le_refl _) hfour (Nat.zero_le _) hu
    rw [List.nil_append] at hus
    subst hus
    obtain ⟨hsp, hlen⟩ := Strings.le img.args hstr
    rw [Nat.zero_add] at hcount
    have hmax : img.args.length ≤ 32 := hcount
    obtain ⟨⟨v, r⟩, hv, ht⟩ := bind_eq_ok.mp ht
    cases r with
    | false => cases ht
    | true =>
      cases ht
      -- the words end where the last string begins
      have harray : (sp + 2 ^ 32 - (img.args.length + 1) * 4) % 2 ^ 32 = sp - (img.args.length + 1) * 4 := by
        unfold PGSIZE KERNBASE at *
        omega
      have hesp : (sp + 2 ^ 32 - (3 + img.args.length + 1) * 4) % 2 ^ 32 =
          sp - (3 + img.args.length + 1) * 4 := by
        unfold PGSIZE KERNBASE at *
        omega
      rw [hesp, harray] at hv
      rw [hesp]
      obtain ⟨e, he⟩ : ∃ e, e = sp - (3 + img.args.length + 1) * 4 := ⟨_, rfl⟩
      have hsum : e + 4 * (img.args.length + 4) = sp := by
        unfold PGSIZE at *
        omega
      have ha : sp - (img.args.length + 1) * 4 = e + 12 := by omega
      rw [← he, ha] at hv
      rw [← he]
      change Vm.copyout u d e ((stackWords img.args.length (e + 12) us).flatMap wordBytes) = _ at hv
      have hbytes := length_words (stackWords img.args.length (e + 12) us)
      rw [length_stackWords] at hbytes
      obtain ⟨hlv, hpages⟩ := hlu.copyout hv
      obtain ⟨htop, hend⟩ := in_top hdvd (by omega) hpages (by
        unfold PGSIZE at *
        omega)
      refine ⟨_, hlv, ?_, ArgStack.of_words (fun hi hv => word_write _ hi hv) ?_ hsum ?_ (by omega)
        (by omega) htop⟩
      · intro b hb
        rw [Memory.write_out (by omega)]
        exact hout b hb
      · refine Strings.congr ?_ img.args hstr
        intro b hb
        rw [Memory.write_out (by omega)]
      · unfold KERNBASE at hkern
        omega

/-! ### The commit -/

theorem readByte_of_pte {a : Nat} {x : Pte} (hx : s.pte d (pgrounddown a) = some x) (hp : x.p = true) :
    readByte s d a = some ((s.mem x.frame).get (a - pgrounddown a)) :=
  readByte_of_maps ⟨x, hx, hp, rfl⟩

/-- What the process sees after the old directory is gone. -/
theorem Layout.freed {old : Nat} (h : Layout st d (below sz) usr m s) (hne : d ≠ old)
    (ht : freeuvm s old pid = .ok t) :
    t.procs = s.procs ∧ (∀ va, below sz va → Present t d va) ∧
      ∀ a, a < sz → readByte t d a = some (m a) := by
  have hold : s.dirs old ≠ none := by
    intro hn
    unfold freeuvm deallocuvm at ht
    rw [if_neg (by decide), hn] at ht
    cases ht
  obtain ⟨u, hu, hprocs, hdirs, hmem⟩ := freeuvm_elsewhere st pid hold
  obtain rfl := Except.ok.inj (hu.symm.trans ht)
  have hpte : ∀ va, u.pte d va = s.pte d va := by
    intro va
    unfold Core.pte
    rw [hdirs d hne]
  have hoff : ∀ {va : Nat} {x : Pte}, s.pte d va = some x → x.p = true → OffDir st old x.frame s := by
    intro va x hx hp w hw huse
    have := h.frames.inj _ _ _ (pte_use _ hx hp) huse
    subst this
    exact hne hw
  refine ⟨hprocs, ?_, ?_⟩
  · intro va hva
    obtain ⟨x, hx, hp, -⟩ := h.page va hva
    exact ⟨x, (hpte va).trans hx, hp⟩
  · intro a ha
    have hdown := pgrounddown_le a
    obtain ⟨x, hx, hp, -, hm⟩ := h.page (pgrounddown a) ⟨pgrounddown_dvd a, by omega⟩
    rw [readByte_of_pte ((hpte _).trans hx) hp, hmem _ (hoff hx hp), hm _ (sub_pgrounddown_lt a),
      Nat.add_sub_cancel' hdown]

/-- What a process has after `exec` returned 0: pages, program and arguments. -/
structure Started (t : Core) (pid : Nat) (f : File) (args : List (List UInt8)) (r : Regs) : Prop where
  eip : r.eip = f.entry
  image : ∃ Q m, t.procs pid = some Q ∧ (∀ va, PGSIZE ∣ va → va < Q.size → Present t Q.page va) ∧
    (∀ a, a < Q.size → readByte t Q.page a = some (m a)) ∧
    (∀ a, a < Q.size - PGSIZE → m a = imageOf (f.image args) a) ∧ ArgStack m Q.size r.esp args

theorem Layout.setProc {M : Nat → Prop} (h : Layout st d M usr m s) (Q : Option Proc) :
    Layout st d M usr m (s.setProc pid Q) :=
  ⟨h.frames.congr rfl rfl rfl rfl, h.live, h.page, h.only, h.dvd⟩

theorem execRet_started {P : Proc} {f : File} {args : List (List UInt8)} {r : Regs}
    (hf : Frames st [] s) (hpage : P.page < s.nextDir) (hroom : EnoughFrames s (f.image args))
    (ht : execRet s pid P f args = .ok (t, some r)) : Started t pid f args r := by
  unfold execRet at ht
  split at ht
  · cases ht
  · obtain ⟨⟨u, o⟩, hu, ht⟩ := bind_eq_ok.mp ht
    obtain ⟨u', o', hu', hload⟩ := load_spare pid hf hroom f.small fun ph hph => f.words args hph
    obtain ⟨rfl, rfl⟩ := Prod.mk.inj (Except.ok.inj (hu.symm.trans hu'))
    cases o with
    | none => cases ht
    | some a =>
      obtain ⟨d, sz⟩ := a
      obtain ⟨hd, hloads⟩ := hload d sz rfl
      obtain ⟨⟨v, o⟩, hv, ht⟩ := bind_eq_ok.mp ht
      cases o with
      | none =>
        obtain ⟨w, -, ht⟩ := bind_eq_ok.mp ht
        cases ht
      | some esp =>
        obtain ⟨m, hlv, himg, hargs⟩ := hloads.buildStackRet hv
        obtain ⟨w, hw, ht⟩ := bind_eq_ok.mp ht
        cases ht
        have hne : d ≠ P.page := by omega
        obtain ⟨hprocs, hpres, hread⟩ := (hlv.setProc _).freed hne hw
        refine ⟨rfl, { P with page := d, size := sz }, m, ?_, fun va hva hlt => hpres va ⟨hva, hlt⟩, hread,
          himg, hargs⟩
        rw [hprocs, procs_setProc, if_pos rfl]

/-! ### Reachable states -/

/-- The directory of a process was made before. -/
def Known (s : Core) : Prop := ∀ pid P, s.procs pid = some P → P.page < s.nextDir

theorem Known.marks {S : Nat → Nat → Prop} (h : Known s) (hm : Marks S s t) : Known t := by
  intro q Q hQ
  rw [hm.procs] at hQ
  exact (h q Q hQ).trans_le hm.nextDir

theorem Known.setProc {o : Option Proc} (h : Known s) (ho : ∀ Q, o = some Q → Q.page < s.nextDir) :
    Known (s.setProc pid o) := by
  intro q Q hQ
  rw [procs_setProc] at hQ
  split at hQ
  · exact ho Q hQ
  · exact h q Q hQ

theorem Known.allocuvm {startva endva sz' : Nat} (h : Known s) (hd : d < s.nextDir)
    (ht : allocuvm s d startva endva pid = .ok (t, sz')) : Known t := by
  unfold Vm.allocuvm at ht
  split at ht
  · cases ht
    exact h
  · split at ht
    · cases ht
      exact h
    · obtain ⟨⟨u, o⟩, hu, ht⟩ := bind_eq_ok.mp ht
      obtain ⟨l₁, l₂, -, -, hm, -⟩ := allocLoop_marks _ hu hd
      cases o with
      | none =>
        cases ht
        exact h.marks hm
      | some i =>
        obtain ⟨⟨v, r⟩, hv, ht⟩ := bind_eq_ok.mp ht
        cases ht
        exact (h.marks hm).marks (deallocuvm_marks (S := noPage) hv)

theorem Known.procgrow {P : Proc} {n : Int} (h : Known s) (hP : s.procs pid = some P)
    (ht : procgrow s pid P n = .ok t) : Known t := by
  have hpage := h pid P hP
  have hcommit : ∀ {u : Core} {r : Nat}, Known u → u.procs = s.procs →
      Known (if r = 0 then u else u.setProc pid (some { P with size := r })) := by
    intro u r hu hpu
    split
    · exact hu
    · refine hu.setProc ?_
      rintro Q ⟨⟩
      exact hu pid P (by rw [hpu, hP])
  unfold Vm.procgrow at ht
  dsimp only at ht
  split at ht
  · obtain ⟨⟨u, r⟩, hu, ht⟩ := bind_eq_ok.mp ht
    cases ht
    exact hcommit (h.allocuvm hpage hu) (allocuvm_procs hu)
  · split at ht
    · obtain ⟨⟨u, r⟩, hu, ht⟩ := bind_eq_ok.mp ht
      cases ht
      have hm := deallocuvm_marks (S := noPage) hu
      exact hcommit (h.marks hm) hm.procs
    · cases ht
      exact h

theorem Known.fork {P : Proc} (h : Known s) (ht : fork s pid P = .ok t) : Known t := by
  obtain ⟨⟨u, o⟩, hu, ht⟩ := bind_eq_ok.mp ht
  have h0 : Marks noPage s { s with nextpid := s.nextpid + 1 } := Marks.of_dirs rfl rfl rfl
  have hu' : Known u := h.marks (h0.trans (kalloc_marks hu))
  cases o with
  | none =>
    cases ht
    exact hu'
  | some k =>
    obtain ⟨⟨v, o'⟩, hv, ht⟩ := bind_eq_ok.mp ht
    obtain ⟨hm, hnew⟩ := copyuvm_marks hv
    cases o' with
    | none =>
      cases ht
      exact (hu'.marks hm).marks (kfree_marks (S := noPage) _)
    | some td =>
      cases ht
      refine (hu'.marks hm).setProc ?_
      rintro Q ⟨⟩
      exact (hnew td rfl).2.known

theorem Known.exec {P : Proc} {img : Image} (h : Known s) (ht : exec s pid P img = .ok t) :
    Known t := by
  unfold Vm.exec at ht
  split at ht
  · cases ht
    exact h
  · obtain ⟨⟨u, o⟩, hu, ht⟩ := bind_eq_ok.mp ht
    obtain ⟨hm, hnew⟩ := setupkvm_marks (S := noPage) hu
    cases o with
    | none =>
      cases ht
      exact h.marks hm
    | some d =>
      obtain ⟨hge, hlt, hfree⟩ := hnew d rfl
      have hempty : Fits u d 0 :=
        ⟨hlt, fun va _ hmk => (hfree va hmk).elim, fun _ va _ hlt => by omega⟩
      obtain ⟨⟨v, o'⟩, hv, ht⟩ := bind_eq_ok.mp ht
      obtain ⟨hm', hfit⟩ := buildImage_marks hv hempty
      have hv' : Known v := (h.marks hm).marks hm'
      cases o' with
      | none => exact hv'.marks (freeuvm_marks (S := noPage) ht)
      | some sz =>
        refine Known.marks (hv'.setProc ?_) (freeuvm_marks (S := noPage) ht)
        rintro Q ⟨⟩
        exact (hfit sz rfl).known

theorem Known.call {P : Proc} {c : Call} (h : Known s) (hP : s.procs pid = some P)
    (ht : call s pid P c = .ok t) : Known t := by
  have hfault : ∀ va, pgfltHandle s pid P va = .ok t → Known t := by
    intro va ht
    unfold pgfltHandle at ht
    dsimp only at ht
    split at ht
    · exact h.marks (pageIn_marks ht)
    · cases ht
  cases c with
  | fork => exact h.fork ht
  | sbrk n => exact h.procgrow hP ht
  | exec img => exact h.exec ht
  | exit =>
    cases ht
    refine h.setProc ?_
    rintro Q ⟨⟩
    exact h pid P hP
  | fault va =>
    unfold Vm.call at ht
    dsimp only at ht
    split at ht
    · split at ht
      · cases ht
      · exact hfault va ht
    · exact hfault va ht
  | store va b =>
    unfold Vm.call store at ht
    dsimp only at ht
    split at ht
    · cases ht
    · split at ht
      · cases ht
        exact h
      · cases ht

theorem Known.act {a : Act} (h : Known s) (ht : act s a = .ok t) : Known t := by
  cases a with
  | call pid c =>
    unfold Vm.act at ht
    dsimp only at ht
    split at ht
    · rename_i P hP
      split at ht
      · cases ht
      · exact h.call hP ht
    · cases ht
  | wait pid =>
    unfold Vm.act at ht
    dsimp only at ht
    split at ht
    · split at ht
      · obtain ⟨u, hu, ht⟩ := bind_eq_ok.mp ht
        cases ht
        refine (h.marks ((kfree_marks (S := noPage) _).trans (freeuvm_marks hu))).setProc ?_
        rintro Q ⟨⟩
      · cases ht
    · cases ht
  | readRef pid ref =>
    cases ht
    exact h
  | kalloc =>
    obtain ⟨⟨u, o⟩, hu, ht⟩ := bind_eq_ok.mp ht
    have hu' := h.marks (kalloc_marks (S := noPage) hu)
    cases o with
    | none =>
      cases ht
      exact hu'
    | some f =>
      cases ht
      exact hu'
  | kfree f =>
    unfold Vm.act at ht
    dsimp only at ht
    split at ht
    · cases ht
      exact h
    · cases ht
  | allocSlab => exact h.marks (allocSlab_marks (S := noPage) ht)
  | freeSlab =>
    cases ht
    exact h

theorem Known.threadAct {s t : Threads} {a : ThreadAct} (h : Known s.core)
    (ht : threadAct s a = .ok t) : Known t.core := by
  cases a with
  | vm a =>
    obtain ⟨c, hc, ht⟩ := bind_eq_ok.mp ht
    cases ht
    exact h.act hc
  | lwpCreate pid =>
    unfold Vm.threadAct at ht
    dsimp only at ht
    split at ht
    · cases ht
    · rename_i P hP
      split at ht
      · cases ht
      · obtain ⟨⟨c, o⟩, hc, ht⟩ := bind_eq_ok.mp ht
        obtain ⟨⟨u, k⟩, hu, hc⟩ := bind_eq_ok.mp hc
        have h0 : Marks noPage s.core { s.core with nextpid := s.core.nextpid + 1 } :=
          Marks.of_dirs rfl rfl rfl
        have hm := h0.trans (kalloc_marks hu)
        have hu' := h.marks hm
        cases k with
        | none =>
          cases hc
          cases ht
          exact hu'
        | some k =>
          cases hc
          cases ht
          refine hu'.setProc ?_
          rintro Q ⟨⟩
          exact hu' pid P (by rw [hm.procs, hP])
  | lwpJoin pid =>
    unfold Vm.threadAct at ht
    dsimp only at ht
    split at ht
    · cases ht
    · split at ht
      · cases ht
        refine (h.marks (kfree_marks (S := noPage) _)).setProc ?_
        rintro Q ⟨⟩
      · cases ht

theorem Known.boot {l : List Nat} {k : Nat} {init : List UInt8} (ht : boot l k init = .ok t) :
    Known t := by
  obtain ⟨hagree, hone⟩ := Agree.boot ht
  obtain ⟨⟨u, o⟩, -, ht⟩ := bind_eq_ok.mp ht
  cases o with
  | none => cases ht
  | some g =>
    obtain ⟨⟨v, o⟩, -, ht⟩ := bind_eq_ok.mp ht
    cases o with
    | none => cases ht
    | some d =>
      obtain ⟨w, -, ht⟩ := bind_eq_ok.mp ht
      cases ht
      intro pid P hP
      have hpid := hone pid P hP
      have hlive : P.zombie = false := by
        rw [procs_setProc, if_pos hpid] at hP
        exact congrArg Proc.zombie (Option.some.inj hP).symm
      exact (hagree.fits pid P ⟨hP, hlive⟩).known

/-- A program of 4 bytes: one segment at address 0, entry point 2. -/
def tinyFile : File where
  size := 88
  byte := fun i => [0x7f, 0x45, 0x4c, 0x46, 0, 0, 0, 0, 0, 0, 0, 0, 0, 0, 0, 0,
    0, 0, 0, 0, 0, 0, 0, 0, 2, 0, 0, 0, 52, 0, 0, 0, 0, 0, 0, 0, 0, 0, 0, 0, 0, 0, 0, 0, 1, 0, 0, 0,
    0, 0, 0, 0, 1, 0, 0, 0, 84, 0, 0, 0, 0, 0, 0, 0, 0, 0, 0, 0, 4, 0, 0, 0, 8, 0, 0, 0, 0, 0, 0, 0,
    0, 0, 0, 0, 9, 8, 7, 6].getD i 0
  small := by decide

def tinyArgs : List (List UInt8) := [[115, 104], []]

set_option maxRecDepth 20000 in
/-- The first process runs it right after the start. -/
theorem tiny_runs : ∃ s₀ P t r, boot (List.range 80) 10 [] = .ok s₀ ∧ s₀.procs 1 = some P ∧
    EnoughFrames s₀ (tinyFile.image tinyArgs) ∧
    execRet s₀ 1 P tinyFile tinyArgs = .ok (t, some r) := by
  have heval : okWith (fun s₀ => (s₀.procs 1).any fun P =>
      decide (EnoughFrames s₀ (tinyFile.image tinyArgs)) &&
        okWith (fun x => x.2.isSome) (execRet s₀ 1 P tinyFile tinyArgs))
      (boot (List.range 80) 10 []) = true := by decide
  obtain ⟨s₀, hboot, heval⟩ := okWith_eq_true.mp heval
  obtain ⟨P, hP, heval⟩ := (Option.any_eq_true _ _).mp heval
  rw [Bool.and_eq_true, decide_eq_true_eq] at heval
  obtain ⟨⟨t, o⟩, ht, ho⟩ := okWith_eq_true.mp heval.2
  obtain ⟨r, rfl⟩ := Option.isSome_iff_exists.mp ho
  exact ⟨s₀, P, t, r, hboot, hP, heval.1, ht⟩

section Reachable

variable {l : List Nat} {slabs : Nat} {init : List UInt8} {as : List ThreadAct} {s₀ : Core} {k : Threads}

theorem Known.run (hboot : Vm.boot l slabs init = .ok s₀)
    (hrun : Run (fun s a t => Vm.threadAct s a = .ok t) ⟨s₀, fun _ => false⟩ as k) : Known k.core := by
  refine hrun.invariant (fun s => Known s.core) (Known.boot hboot) ?_
  intro s a t hs hstep
  exact hs.threadAct hstep

/-- The loading part of `exec` always returns when the frames suffice, and an `exec` that
    returns 0 leaves the program below the stack. -/
theorem loader_total_faithful (hl : l.Nodup) (hboot : boot l slabs init = .ok s₀)
    (hrun : Run (fun s a t => threadAct s a = .ok t) ⟨s₀, fun _ => false⟩ as k) (pid : Nat) (f : File)
    (args : List (List UInt8)) (hroom : EnoughFrames k.core (f.image args)) :
    (∃ r, load pid (f.image args) k.core = .ok r) ∧
      ∀ P t r, k.core.procs pid = some P → execRet k.core pid P f args = .ok (t, some r) →
        r.eip = f.entry ∧ ∃ Q, t.procs pid = some Q ∧
          (∀ va, PGSIZE ∣ va → va < Q.size → Present t Q.page va) ∧
          ∀ a, a < Q.size - 2 * PGSIZE → readByte t Q.page a = some (imageOf (f.image args) a) := by
  have htidy := Tidy.run hl hboot hrun
  constructor
  · obtain ⟨t, o, ht, -⟩ := load_spare pid htidy hroom f.small fun ph hph => f.words args hph
    exact ⟨_, ht⟩
  · intro P t r hP ht
    have hstart := execRet_started htidy (Known.run hboot hrun pid P hP) hroom ht
    obtain ⟨Q, m, hQ, hpages, hread, himg, -⟩ := hstart.image
    refine ⟨hstart.eip, Q, hQ, hpages, ?_⟩
    intro a ha
    have hlow : a < Q.size - PGSIZE :=
      ha.trans_le (Nat.sub_le_sub_left (Nat.le_mul_of_pos_left _ Nat.two_pos) _)
    rw [hread a (hlow.trans_le (Nat.sub_le _ _)), himg a hlow]

theorem loader_total_faithful_tiny : ∃ s₀ t r Q, boot (List.range 80) 10 [] = .ok s₀ ∧
    (∃ x, load 1 (tinyFile.image tinyArgs) s₀ = .ok x) ∧ Regs.eip r = tinyFile.entry ∧
    t.procs 1 = some Q ∧ (∀ va, PGSIZE ∣ va → va < Q.size → Present t Q.page va) ∧
    ∀ a, a < Q.size - 2 * PGSIZE → readByte t Q.page a = some (imageOf (tinyFile.image tinyArgs) a) := by
  obtain ⟨s₀, P, t, r, hboot, hP, hroom, ht⟩ := tiny_runs
  obtain ⟨hload, hrest⟩ := loader_total_faithful List.nodup_range hboot Run.nil 1 tinyFile tinyArgs hroom
  obtain ⟨heip, Q, hQ, hpages, himg⟩ := hrest P t r hP ht
  exact ⟨s₀, t, r, Q, hboot, hload, heip, hQ, hpages, himg⟩

/-- After an `exec` that returned 0 the arguments are on the stack. -/
theorem exec_arguments_intact (hl : l.Nodup) (hboot : boot l slabs init = .ok s₀)
    (hrun : Run (fun s a t => threadAct s a = .ok t) ⟨s₀, fun _ => false⟩ as k) {pid : Nat} {P : Proc}
    {f : File} {args : List (List UInt8)} {r : Regs} (hP : k.core.procs pid = some P)
    (hroom : EnoughFrames k.core (f.image args))
    (ht : execRet k.core pid P f args = .ok (t, some r)) :
    ∃ Q m, t.procs pid = some Q ∧ (∀ a, a < Q.size → readByte t Q.page a = some (m a)) ∧
      ArgStack m Q.size r.esp args := by
  obtain ⟨Q, m, hQ, -, hread, -, hargs⟩ :=
    (execRet_started (Tidy.run hl hboot hrun) (Known.run hboot hrun pid P hP) hroom ht).image
  exact ⟨Q, m, hQ, hread, hargs⟩

theorem exec_arguments_intact_tiny : ∃ s₀ t r Q m, boot (List.range 80) 10 [] = .ok s₀ ∧
    t.procs 1 = some Q ∧ (∀ a, a < Q.size → readByte t Q.page a = some (m a)) ∧
    ArgStack m Q.size (Regs.esp r) tinyArgs := by
  obtain ⟨s₀, P, t, r, hboot, hP, hroom, ht⟩ := tiny_runs
  obtain ⟨Q, m, hQ, hread, hargs⟩ :=
    exec_arguments_intact List.nodup_range hboot Run.nil hP hroom ht
  exact ⟨s₀, t, r, Q, m, hboot, hQ, hread, hargs⟩

end Reachable

end Yonix.Vm
