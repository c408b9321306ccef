/-
  Yonix/Fs/Path.lean
  ==================
  **Where a path leads.**

  A path is its components, looked up one after another from a starting inode: that is what
  `resolve` says of a file system at rest, in which nobody else holds a buffer or a lock.  The
  inode of a number is the copy in the inode cache if there is one, otherwise the one on disk.

  `namei` and `nameiparent` find what the path leads to.  They hold two inodes at a time, so
  two slots of the cache have to be free, and they must not be the last to let go of an inode
  without links.
-/
import Yonix.Fs.Refs

namespace Yonix.Fs

/-! ### Names -/

/-- The string at byte `k`, of at most `n` bytes. -/
def cstr (p : Str) (k : Nat) : Nat → List UInt8
  | 0 => []
  | n + 1 => if p k = 0 then [] else p k :: cstr p (k + 1) n

/-- A name of a directory entry, which has no NUL if it has `DIRSIZ` bytes. -/
def nameOf (p : Str) : List UInt8 := cstr p 0 DIRSIZ

/-- The elements of a path, cut to `DIRSIZ` bytes. -/
def components (path : List UInt8) : List (List UInt8) :=
  ((path.splitOn SLASH).filter (· ≠ [])).map (·.take DIRSIZ)

/-! ### What a path leads to -/

/-- The inode on disk. -/
def State.disk (s : State) (inum : Nat) : Dinode := dinodeOf (s.block (s.sb.iblock inum)) inum

/-- The slot of the cache that has the inode. -/
def State.slot (s : State) (inum : Nat) : Option Nat :=
  (List.range NINODE).find? fun i => decide (0 < (s.icache i).ref ∧ (s.icache i).inum = inum)

/-- What a slot has, once it was locked. -/
def State.copy (s : State) (i : Nat) : Dinode :=
  if (s.icache i).valid then (s.icache i).din else s.disk (s.icache i).inum

def State.node (s : State) (inum : Nat) : Dinode :=
  match s.slot inum with
  | some i => s.copy i
  | none => s.disk inum

/-- The block with the bytes from `bn * BSIZE` on. -/
def State.blockNo (s : State) (d : Dinode) (bn : Nat) : Nat :=
  if bn < NDIRECT then d.addrs bn else (s.block (d.addrs NDIRECT)).word (bn - NDIRECT)

def State.direntAt (s : State) (d : Dinode) (off : Nat) : Dirent :=
  direntOf ((List.range DIRENTSIZE).map fun j =>
    (s.block (s.blockNo d (off / BSIZE))).get (off % BSIZE + j))

def State.entries (s : State) (inum : Nat) : List Dirent :=
  (direntOffs (s.node inum).size).map (s.direntAt (s.node inum))

/-- The inode that the first entry with the name refers to. -/
def State.lookup (s : State) (inum : Nat) (name : List UInt8) : Option Nat :=
  ((s.entries inum).find? fun e => e.inum ≠ 0 ∧ nameOf e.fname = name).map Dirent.inum

def State.resolve (s : State) : Nat → List (List UInt8) → Option Nat
  | inum, [] => some inum
  | inum, c :: cs =>
    if (s.node inum).type = T_DIR then (s.lookup inum c).bind fun j => s.resolve j cs else none

/-- The directory of the last element, with that element. -/
def State.parent (s : State) (inum : Nat) (cs : List (List UInt8)) : Option (Nat × List UInt8) :=
  (cs.getLast?).bind fun name => (s.resolve inum cs.dropLast).bind fun j =>
    if (s.node j).type = T_DIR then some (j, name) else none

def State.start (s : State) (path : List UInt8) : Option Nat :=
  if path.head? = some SLASH then some ROOTINO
  else (s.procs s.proc).cdir.map fun i => (s.icache i).inum

/-! ### File systems at rest -/

/-- The blocks of a directory are there. -/
structure Laid (s : State) (d : Dinode) : Prop where
  whole : DIRENTSIZE ∣ d.size
  size : d.size ≤ MAXFILE * BSIZE
  indirect : NDIRECT * BSIZE < d.size → d.addrs NDIRECT ≠ 0 ∧ d.addrs NDIRECT < FSSIZE
  block : ∀ bn, bn * BSIZE < d.size → s.blockNo d bn ≠ 0 ∧ s.blockNo d bn < FSSIZE

/-- An inode that is in use. -/
def State.InUse (s : State) (inum : Nat) : Prop := inum < s.sb.ninodes ∧ (s.node inum).type ≠ 0

instance (s : State) (inum : Nat) : Decidable (s.InUse inum) := by unfold State.InUse; infer_instance

/-- A file system in which nothing else goes on. -/
structure AtRest (s : State) : Prop where
  held : s.held = []
  unlocked : ∀ i, (s.icache i).locked = false
  ref : ∀ i, 0 ≤ (s.icache i).ref
  once : ∀ i < NINODE, ∀ j < NINODE, 0 < (s.icache i).ref → 0 < (s.icache j).ref →
    (s.icache i).inum = (s.icache j).inum → i = j
  area : ∀ inum < s.sb.ninodes, s.sb.iblock inum < FSSIZE
  laid : ∀ inum < s.sb.ninodes, (s.node inum).type = T_DIR → Laid s (s.node inum)
  entry : ∀ inum < s.sb.ninodes, (s.node inum).type = T_DIR →
    ∀ e ∈ s.entries inum, e.inum ≠ 0 → s.InUse e.inum
  root : s.InUse ROOTINO
  cdir : ∃ i < NINODE, (s.procs s.proc).cdir = some i ∧ 0 < (s.icache i).ref ∧ s.InUse (s.icache i).inum

/-- Whoever lets go of the inode, it is not freed. -/
def State.Stays (s : State) (inum : Nat) : Prop := (s.node inum).nlink ≠ 0 ∨ (s.slot inum).isSome

/-- What `namex` needs. -/
structure Ready (s : State) : Prop extends AtRest s where
  free : ∃ i < NINODE, ∃ j < NINODE, i ≠ j ∧ (s.icache i).ref = 0 ∧ (s.icache j).ref = 0
  rootStays : s.Stays ROOTINO
  stays : ∀ inum < s.sb.ninodes, (s.node inum).type = T_DIR →
    ∀ e ∈ s.entries inum, e.inum ≠ 0 → s.Stays e.inum

section Names

variable {p q : Str} {l path name rest : List UInt8}

theorem cstr_eq (n : Nat) : ∀ {l : List UInt8} {k : Nat}, (∀ j < l.length, p (k + j) = l.getD j 0) →
    0 ∉ l → l.length ≤ n → (l.length < n → p (k + l.length) = 0) → cstr p k n = l := by
  induction n with
  | zero =>
    intro l k _ _ hlen _
    exact (List.length_eq_zero_iff.mp (Nat.le_zero.mp hlen)).symm
  | succ n ih =>
    intro l k hbytes hnul hlen hend
    rw [cstr]
    cases l with
    | nil =>
      have h0 : p k = 0 := hend (Nat.succ_pos n)
      rw [if_pos h0]
    | cons c l =>
      rw [List.mem_cons, not_or] at hnul
      have hc : p k = c := hbytes 0 (Nat.succ_pos _)
      rw [hc, if_neg (Ne.symm hnul.1), ih (l := l) ?_ hnul.2 (Nat.le_of_succ_le_succ hlen) ?_]
      · intro j hj
        have := hbytes (j + 1) (Nat.succ_lt_succ hj)
        rwa [show k + (j + 1) = k + 1 + j by omega, List.getD_cons_succ] at this
      · intro hlt
        have := hend (Nat.succ_lt_succ hlt)
        rwa [List.length_cons, show k + (l.length + 1) = k + 1 + l.length by omega] at this

theorem strncmp_eq_zero (n : Nat) : ∀ k, strncmp p q k n = 0 ↔ cstr p k n = cstr q k n := by
  induction n with
  | zero => exact fun k => iff_of_true rfl rfl
  | succ n ih =>
    intro k
    rw [strncmp, cstr, cstr]
    by_cases hp : p k = 0
    · rw [if_neg (fun h => h.1 hp), if_pos hp, hp]
      by_cases hq : q k = 0
      · rw [if_pos hq, hq]
        exact iff_of_true rfl rfl
      · have hne : (q k).toNat ≠ 0 := fun h => hq (UInt8.toNat_inj.mp h)
        rw [if_neg hq]
        refine iff_of_false ?_ (List.cons_ne_nil _ _).symm
        change ((0 : Nat) : Int) - _ ≠ 0
        omega
    · rw [if_neg hp]
      by_cases hq : p k = q k
      · rw [if_pos ⟨hp, hq⟩, ih, ← hq, if_neg hp, List.cons.injEq]
        exact (and_iff_right rfl).symm
      · have hne : (p k).toNat ≠ (q k).toNat := fun h => hq (UInt8.toNat_inj.mp h)
        rw [if_neg (fun h => hq h.2)]
        refine iff_of_false (by omega) ?_
        split
        · exact List.cons_ne_nil _ _
        · exact fun h => hq (List.cons.inj h).1

/-- Names are compared as strings. -/
theorem namecmp_eq_zero : namecmp p q = 0 ↔ nameOf p = nameOf q := strncmp_eq_zero DIRSIZ 0

theorem nameOf_strOf (hnul : 0 ∉ l) (hlen : l.length ≤ DIRSIZ) : nameOf (strOf l) = l := by
  refine cstr_eq DIRSIZ (fun j _ => ?_) hnul hlen fun _ => ?_
  · rw [Nat.zero_add]
    rfl
  · change l.getD (0 + l.length) 0 = 0
    rw [Nat.zero_add, List.getD_eq_default _ _ (Nat.le_refl _)]

/-- Slashes in front of a path do not matter. -/
theorem components_slash (path : List UInt8) : components (SLASH :: path) = components path := by
  unfold components
  rw [show SLASH :: path = [] ++ SLASH :: path from rfl,
    List.splitOn_append_cons_self_of_not_mem List.not_mem_nil, List.filter_cons, if_neg (by simp)]

theorem components_dropWhile (path : List UInt8) :
    components (path.dropWhile (· = SLASH)) = components path := by
  induction path with
  | nil => rfl
  | cons c path ih =>
    rw [List.dropWhile_cons]
    split
    · rename_i hc
      rw [ih, of_decide_eq_true hc, components_slash]
    · rfl

/-- An element and what is after it. -/
theorem components_elem (hname : SLASH ∉ name) (hne : name ≠ [])
    (hrest : ∀ c ∈ rest.head?, c = SLASH) : components (name ++ rest) = name.take DIRSIZ :: components rest := by
  cases rest with
  | nil =>
    unfold components
    rw [List.append_nil, List.splitOn_eq_singleton hname, List.filter_cons, if_pos (by simpa using hne)]
    rfl
  | cons c rest =>
    obtain rfl : c = SLASH := hrest c rfl
    rw [components_slash]
    unfold components
    rw [List.splitOn_append_cons_self_of_not_mem hname, List.filter_cons, if_pos (by simpa using hne),
      List.map_cons]

theorem skipelem_none (h : skipelem path = none) : components path = [] := by
  unfold skipelem at h
  dsimp only at h
  split at h
  · rename_i hnil
    rw [← components_dropWhile, hnil]
    rfl
  · cases h

theorem takeWhile_slash (l : List UInt8) : SLASH ∉ l.takeWhile (· ≠ SLASH) := by
  intro h
  have hne := List.mem_takeWhile_imp h
  exact of_decide_eq_true hne rfl

theorem dropWhile_slash (l : List UInt8) : ∀ c ∈ (l.dropWhile (· ≠ SLASH)).head?, c = SLASH := by
  intro c hc
  obtain ⟨t, ht⟩ := List.head?_eq_some_iff.mp hc
  have := List.head_dropWhile_not (fun c => decide (c ≠ SLASH)) (l := l) (ht ▸ List.cons_ne_nil c t)
  simp only [ht, List.head_cons] at this
  exact not_not.mp (of_decide_eq_false this)

/-- A path that starts with an element. -/
theorem components_cons {c : UInt8} (hc : c ≠ SLASH) (l : List UInt8) :
    components (c :: l) = ((c :: l).takeWhile (· ≠ SLASH)).take DIRSIZ ::
      components ((c :: l).dropWhile (· ≠ SLASH)) := by
  have hne : (c :: l).takeWhile (· ≠ SLASH) ≠ [] := by
    rw [List.takeWhile_cons, if_pos (decide_eq_true hc)]
    exact List.cons_ne_nil _ _
  rw [← components_elem (takeWhile_slash _) hne (dropWhile_slash _), List.takeWhile_append_dropWhile]

/-- Without slashes in front, a path is empty or starts with an element. -/
theorem dropWhile_cons (l : List UInt8) :
    l.dropWhile (· = SLASH) = [] ∨ ∃ c t, l.dropWhile (· = SLASH) = c :: t ∧ c ≠ SLASH := by
  cases h : l.dropWhile (· = SLASH) with
  | nil => exact Or.inl rfl
  | cons c t =>
    have := List.head_dropWhile_not (fun c => decide (c = SLASH)) (l := l) (h ▸ List.cons_ne_nil c t)
    simp only [h, List.head_cons] at this
    exact Or.inr ⟨c, t, rfl, of_decide_eq_false this⟩

/-- The element that `skipelem` finds, and the path after it. -/
theorem skipelem_some (h : skipelem path = some (name, rest)) (hnul : 0 ∉ path) :
    components path = name :: components rest ∧ (rest = [] ↔ components rest = []) ∧ 0 ∉ name ∧
      name.length ≤ DIRSIZ ∧ 0 ∉ rest ∧ rest.length < path.length := by
  unfold skipelem at h
  dsimp only at h
  split at h
  · cases h
  · rename_i hne
    obtain ⟨c, t, ht, hc⟩ := (dropWhile_cons path).resolve_left hne
    rw [ht] at h
    cases h
    have hsub : ∀ a ∈ c :: t, a ∈ path := fun a ha => (List.dropWhile_sublist _).subset (ht ▸ ha)
    have hle : (c :: t).length ≤ path.length := ht ▸ (List.dropWhile_sublist _).length_le
    have hrest : ((c :: t).dropWhile (· ≠ SLASH)).length < (c :: t).length := by
      rw [List.dropWhile_cons, if_pos (decide_eq_true hc)]
      exact Nat.lt_succ_of_le (List.dropWhile_sublist _).length_le
    obtain ⟨r, hr⟩ : ∃ r, r = (c :: t).dropWhile (· ≠ SLASH) := ⟨_, rfl⟩
    rw [← hr] at hrest ⊢
    refine ⟨?_, ⟨fun hnil => ?_, fun hnil => ?_⟩, fun h0 => ?_, List.length_take_le _ _, fun h0 => ?_, ?_⟩
    · rw [← components_dropWhile, ht, components_cons hc, ← hr, components_dropWhile]
    · rw [hnil]
      rfl
    · rcases dropWhile_cons r with h0 | ⟨d, u, hu, hd⟩
      · exact h0
      · rw [hu, components_cons hd] at hnil
        cases hnil
    · exact hnul (hsub 0 ((List.takeWhile_sublist _).subset (List.mem_of_mem_take h0)))
    · have hmem : (0 : UInt8) ∈ r := (List.dropWhile_sublist _).subset h0
      exact hnul (hsub 0 ((List.dropWhile_sublist _).subset (hr ▸ hmem)))
    · have := (List.dropWhile_sublist (fun c => decide (c = SLASH)) (l := r)).length_le
      omega

end Names

/-! ### The way -/

section Walk

variable {s₀ s t : State} {L : List Nat} {lk : Option Nat} {i inum : Nat}

/-- On the way: the slots in `L` are held and `lk` is locked; nothing else has changed that can
    be seen. -/
structure Walk (s₀ s : State) (L : List Nat) (lk : Option Nat) : Prop where
  block : s.block = s₀.block
  sb : s.sb = s₀.sb
  held : s.held = []
  procs : s.procs = s₀.procs
  proc : s.proc = s₀.proc
  base : ∀ i, 0 ≤ (s₀.icache i).ref
  ref : ∀ i, (s.icache i).ref = (s₀.icache i).ref + L.count i
  locked : ∀ i, (s.icache i).locked = decide (lk = some i)
  kept : ∀ i, 0 < (s₀.icache i).ref → (s.icache i).inum = (s₀.icache i).inum
  once : ∀ i < NINODE, ∀ j < NINODE, 0 < (s.icache i).ref → 0 < (s.icache j).ref →
    (s.icache i).inum = (s.icache j).inum → i = j
  copy : ∀ i < NINODE, 0 < (s.icache i).ref → s.copy i = s₀.node (s.icache i).inum

theorem slot_some (h : s.slot inum = some i) : i < NINODE ∧ 0 < (s.icache i).ref ∧ (s.icache i).inum = inum := by
  have hmem := List.mem_of_find?_eq_some h
  have htest := List.find?_some h
  exact ⟨List.mem_range.mp hmem, of_decide_eq_true htest⟩

theorem slot_none (h : s.slot inum = none) {j : Nat} (hj : j < NINODE) (hr : 0 < (s.icache j).ref) :
    (s.icache j).inum ≠ inum := by
  intro heq
  have := List.find?_eq_none.mp h j (List.mem_range.mpr hj)
  exact this (decide_eq_true ⟨hr, heq⟩)

theorem slot_eq (hi : i < NINODE) (hr : 0 < (s.icache i).ref)
    (once : ∀ i < NINODE, ∀ j < NINODE, 0 < (s.icache i).ref → 0 < (s.icache j).ref →
      (s.icache i).inum = (s.icache j).inum → i = j) : s.slot (s.icache i).inum = some i := by
  cases h : s.slot (s.icache i).inum with
  | none => exact absurd rfl (slot_none h hi hr)
  | some j =>
    obtain ⟨hj, hrj, heq⟩ := slot_some h
    rw [once i hi j hj hr hrj heq.symm]

theorem AtRest.walk (h : AtRest s) : Walk s s [] none := by
  refine ⟨rfl, rfl, h.held, rfl, rfl, h.ref, fun i => (add_zero _).symm, h.unlocked, fun _ _ => rfl,
    h.once, ?_⟩
  intro i hi hr
  unfold State.node
  rw [slot_eq hi hr h.once]

theorem Walk.disk (h : Walk s₀ s L lk) (inum : Nat) : s.disk inum = s₀.disk inum := by
  unfold State.disk
  rw [h.block, h.sb]

theorem Walk.blockNo (h : Walk s₀ s L lk) (d : Dinode) (bn : Nat) : s.blockNo d bn = s₀.blockNo d bn := by
  unfold State.blockNo
  rw [h.block]

theorem setInode_self (s : State) (i : Nat) (x : Inode) : (s.setInode i x).icache i = x :=
  Function.update_self _ _ _

theorem inum_setInode {x : Inode} (hx : x.inum = (s.icache i).inum) (j : Nat) :
    ((s.setInode i x).icache j).inum = (s.icache j).inum := by
  by_cases hj : j = i
  · subst hj
    rw [setInode_self, hx]
  · exact congrArg Inode.inum (Function.update_of_ne hj _ _)

/-- One slot changes. -/
theorem Walk.setInode (h : Walk s₀ s L lk) (i : Nat) (x : Inode) (L' : List Nat) (lk' : Option Nat)
    (href : x.ref = (s₀.icache i).ref + L'.count i) (hL : ∀ j, j ≠ i → L'.count j = L.count j)
    (hlk : x.locked = decide (lk' = some i)) (hlk' : ∀ j, j ≠ i → decide (lk' = some j) = decide (lk = some j))
    (hinum : 0 < (s₀.icache i).ref → x.inum = (s₀.icache i).inum)
    (honce : i < NINODE → 0 < x.ref → ∀ j < NINODE, j ≠ i → 0 < (s.icache j).ref →
      (s.icache j).inum ≠ x.inum)
    (hcopy : i < NINODE → 0 < x.ref →
      (if x.valid then x.din else s₀.disk x.inum) = s₀.node x.inum) :
    Walk s₀ (s.setInode i x) L' lk' := by
  have hself := setInode_self s i x
  have hother : ∀ j, j ≠ i → (s.setInode i x).icache j = s.icache j := fun j hj =>
    Function.update_of_ne hj _ _
  refine ⟨h.block, h.sb, h.held, h.procs, h.proc, h.base, ?_, ?_, ?_, ?_, ?_⟩
  · intro j
    by_cases hj : j = i
    · subst hj
      rw [hself, href]
    · rw [hother j hj, h.ref, hL j hj]
  · intro j
    by_cases hj : j = i
    · subst hj
      rw [hself, hlk]
    · rw [hother j hj, h.locked, hlk' j hj]
  · intro j hr
    by_cases hj : j = i
    · subst hj
      rw [hself]
      exact hinum hr
    · rw [hother j hj]
      exact h.kept j hr
  · intro j hj k hk hrj hrk heq
    by_contra hne
    by_cases hji : j = i
    · subst hji
      rw [hself] at hrj heq
      rw [hother k (Ne.symm hne)] at hrk heq
      exact honce hj hrj k hk (Ne.symm hne) hrk heq.symm
    · rw [hother j hji] at hrj heq
      by_cases hki : k = i
      · subst hki
        rw [hself] at hrk heq
        exact honce hk hrk j hj hji hrj heq
      · rw [hother k hki] at hrk heq
        exact hne (h.once j hj k hk hrj hrk heq)
  · intro j hj hr
    unfold State.copy
    have hdisk : ∀ n, (s.setInode i x).disk n = s₀.disk n := fun n => h.disk n
    rw [hdisk]
    by_cases hji : j = i
    · subst hji
      rw [hself] at hr ⊢
      exact hcopy hj hr
    · rw [hother j hji] at hr ⊢
      have := h.copy j hj hr
      unfold State.copy at this
      rwa [h.disk] at this

theorem Walk.pos (h : Walk s₀ s L lk) (hi : i ∈ L) : 0 < (s.icache i).ref := by
  have h1 := h.base i
  have h2 := List.count_pos_iff.mpr hi
  rw [h.ref]
  omega

/-- `iget` takes a free slot if the inode is in none. -/
theorem Walk.iget (h : Walk s₀ s L lk) (hfree : ∃ i < NINODE, (s.icache i).ref = 0) (inum : Nat) :
    ∃ i t, iget inum s = .ok (i, t) ∧ Walk s₀ t (i :: L) lk ∧ i < NINODE ∧ (t.icache i).inum = inum ∧
      ∀ j, 0 < (s.icache j).ref → (t.icache j).inum = (s.icache j).inum := by
  have hcount : ∀ i j, j ≠ i → (i :: L).count j = L.count j := fun i j hj =>
    List.count_cons_of_ne (Ne.symm hj)
  cases hs : s.slot inum with
  | some i =>
    obtain ⟨hi, hr, hinum⟩ := slot_some hs
    refine ⟨i, _, ?_, h.setInode i { s.icache i with ref := (s.icache i).ref + 1 } (i :: L) lk ?_
      (hcount i) (h.locked i) (fun _ _ => rfl) (h.kept i) ?_ ?_, hi, ?_, fun j _ => ?_⟩
    · unfold Fs.iget
      rw [show (List.range NINODE).find? _ = some i from hs]
    · rw [List.count_cons_self, h.ref]
      push_cast
      omega
    · intro _ _ j hj hne hrj heq
      exact hne (h.once j hj i hi hrj hr heq)
    · intro _ _
      have := h.copy i hi hr
      unfold State.copy at this
      rwa [h.disk] at this
    · rw [setInode_self]
      exact hinum
    · exact inum_setInode (x := { s.icache i with ref := (s.icache i).ref + 1 }) rfl j
  | none =>
    obtain ⟨k, hk, hzero⟩ := hfree
    obtain ⟨i, hi⟩ : ∃ i, (List.range NINODE).find? (fun i => decide ((s.icache i).ref = 0)) = some i := by
      rw [← Option.isSome_iff_exists, List.find?_isSome]
      exact ⟨k, List.mem_range.mpr hk, decide_eq_true hzero⟩
    have hlt : i < NINODE := List.mem_range.mp (List.mem_of_find?_eq_some hi)
    have htest := List.find?_some hi
    have hr : (s.icache i).ref = 0 := of_decide_eq_true htest
    have hr0 : (s₀.icache i).ref = 0 ∧ L.count i = 0 := by
      have h1 := h.base i
      have h2 := h.ref i
      omega
    have hnew : s₀.slot inum = none := by
      cases hs0 : s₀.slot inum with
      | none => rfl
      | some j =>
        obtain ⟨hj, hrj, hinum⟩ := slot_some hs0
        have hrj' : 0 < (s.icache j).ref := by
          rw [h.ref]
          omega
        exact absurd ((h.kept j hrj).trans hinum) (slot_none hs hj hrj')
    refine ⟨i, _, ?_, h.setInode i { s.icache i with inum := inum, ref := 1, valid := false } (i :: L) lk
      ?_ (hcount i) (h.locked i) (fun _ _ => rfl) ?_ ?_ ?_, hlt, ?_, fun j hrj => ?_⟩
    · unfold Fs.iget
      rw [show (List.range NINODE).find? _ = none from hs]
      dsimp only
      rw [hi]
    · rw [List.count_cons_self, hr0.1, hr0.2]
      rfl
    · intro hpos
      rw [hr0.1] at hpos
      exact absurd hpos (lt_irrefl 0)
    · intro _ _ j hj _ hrj
      exact slot_none hs hj hrj
    · intro _ _
      dsimp only
      rw [if_neg (by decide)]
      unfold State.node
      rw [hnew]
    · rw [setInode_self]
    · refine congrArg Inode.inum (Function.update_of_ne ?_ _ _)
      rintro rfl
      omega

theorem Walk.idup (h : Walk s₀ s L lk) (hi : i < NINODE) (hr : 0 < (s.icache i).ref) :
    ∃ t, idup i s = .ok (i, t) ∧ Walk s₀ t (i :: L) lk ∧ (t.icache i).inum = (s.icache i).inum := by
  refine ⟨_, rfl, h.setInode i { s.icache i with ref := (s.icache i).ref + 1 } (i :: L) lk ?_
    (fun j hj => List.count_cons_of_ne (Ne.symm hj)) (h.locked i) (fun _ _ => rfl) (h.kept i) ?_ ?_, ?_⟩
  · rw [List.count_cons_self, h.ref]
    push_cast
    omega
  · intro _ _ j hj hne hrj heq
    exact hne (h.once j hj i hi hrj hr heq)
  · intro _ _
    have := h.copy i hi hr
    unfold State.copy at this
    rwa [h.disk] at this
  · rw [setInode_self]

/-! ### Locks -/

theorem bread_ok {b : Nat} (hb : b < FSSIZE) (hheld : s.held = []) :
    bread b s = .ok (s.block b, { s with held := [b] }) := by
  unfold bread
  rw [if_neg (Nat.not_le.mpr hb), if_neg (by rw [hheld]; exact List.not_mem_nil), hheld]

theorem brelse_ok {b : Nat} (hheld : s.held = [b]) : brelse b s = .ok ((), { s with held := [] }) := by
  unfold brelse
  rw [if_pos (by rw [hheld]; exact List.mem_cons_self), hheld, List.erase_cons_head]

theorem held_self (hheld : s.held = []) : { s with held := [] } = s := by
  rw [← hheld]

theorem ifetch_ok (hheld : s.held = []) (hb : s.sb.iblock (s.icache i).inum < FSSIZE)
    (htype : (s.disk (s.icache i).inum).type ≠ 0) : ifetch i s =
      .ok ((), s.setInode i { s.icache i with din := s.disk (s.icache i).inum, valid := true }) := by
  unfold ifetch
  rw [get_bind]
  refine code_bind.mpr ⟨_, _, bread_ok hb hheld, ?_⟩
  rw [modify_bind]
  refine code_bind.mpr ⟨_, _, brelse_ok rfl, ?_⟩
  rw [modify_bind, if_neg (show ¬ (dinodeOf _ _).type = 0 from htype)]
  refine congrArg (fun t => Except.ok ((), t)) ?_
  unfold State.setDin State.setInode State.disk
  dsimp only
  rw [Function.update_self, Function.update_idem, ← hheld]

theorem Walk.ilock (h : Walk s₀ s L none) (hi : i < NINODE) (hL : i ∈ L)
    (hb : s₀.sb.iblock (s.icache i).inum < FSSIZE) (htype : (s₀.node (s.icache i).inum).type ≠ 0) :
    ∃ t, ilock i s = .ok ((), t) ∧ Walk s₀ t L (some i) ∧ (t.icache i).inum = (s.icache i).inum ∧
      (t.icache i).din = s₀.node (s.icache i).inum := by
  have hpos := h.pos hL
  have hcopy := h.copy i hi hpos
  have hunlocked : (s.icache i).locked = false := h.locked i
  have hset : ∀ d : Dinode, d = s₀.node (s.icache i).inum → Walk s₀ (s.setInode i
      { s.icache i with locked := true, valid := true, din := d }) L (some i) := by
    intro d hd
    refine h.setInode i { s.icache i with locked := true, valid := true, din := d } L (some i) (h.ref i)
      (fun _ _ => rfl) (decide_eq_true rfl).symm (fun j hj => ?_) (h.kept i) ?_ (fun _ _ => hd)
    · rw [decide_eq_false (fun heq => hj (Option.some.inj heq).symm)]
      rfl
    · intro _ _ j hj hne hrj heq
      exact hne (h.once j hj i hi hrj hpos heq)
  unfold Fs.ilock
  rw [get_bind, if_neg (by omega), if_neg (by rw [hunlocked]; decide), modify_bind]
  unfold State.copy at hcopy
  by_cases hvalid : (s.icache i).valid = true
  · rw [if_pos hvalid] at hcopy ⊢
    have heq : ({ s.icache i with locked := true } : Inode) =
        { s.icache i with locked := true, valid := true, din := (s.icache i).din } := by
      rw [← hvalid]
    rw [heq]
    refine ⟨_, rfl, hset _ hcopy, ?_, ?_⟩
    · rw [setInode_self]
    · rw [setInode_self]
      exact hcopy
  · rw [if_neg hvalid] at hcopy ⊢
    obtain ⟨u, hu⟩ : ∃ u, u = s.setInode i { s.icache i with locked := true } := ⟨_, rfl⟩
    have hself : u.icache i = { s.icache i with locked := true } := hu ▸ setInode_self s i _
    have hdisk : u.disk (u.icache i).inum = s.disk (s.icache i).inum := by
      rw [hself, hu]
      rfl
    have hblock : u.sb.iblock (u.icache i).inum < FSSIZE := by
      rw [hself, hu]
      change s.sb.iblock _ < _
      rw [h.sb]
      exact hb
    rw [← hu, ifetch_ok (hu ▸ h.held) hblock (by rw [hdisk, hcopy]; exact htype), hdisk]
    have hstate : u.setInode i { u.icache i with din := s.disk (s.icache i).inum, valid := true } =
        s.setInode i { s.icache i with
          locked := true, valid := true, din := s.disk (s.icache i).inum } := by
      rw [hself, hu]
      unfold State.setInode
      dsimp only
      rw [Function.update_idem]
    rw [hstate]
    refine ⟨_, rfl, hset _ hcopy, ?_, ?_⟩
    · rw [setInode_self]
    · rw [setInode_self]
      exact hcopy

theorem Walk.iunlock (h : Walk s₀ s L (some i)) (hi : i < NINODE) (hL : i ∈ L) :
    ∃ t, iunlock i s = .ok ((), t) ∧ Walk s₀ t L none ∧ ∀ j, (t.icache j).inum = (s.icache j).inum := by
  have hpos := h.pos hL
  have hlocked : (s.icache i).locked = true := (h.locked i).trans (decide_eq_true rfl)
  unfold Fs.iunlock
  rw [get_bind, if_neg (by rw [hlocked]; simp; omega)]
  refine ⟨_, rfl, h.setInode i { s.icache i with locked := false } L none (h.ref i) (fun _ _ => rfl)
    rfl (fun j hj => ?_) (h.kept i) ?_ (fun _ _ => ?_), inum_setInode rfl⟩
  · exact (decide_eq_false (fun heq => hj (Option.some.inj heq).symm)).symm
  · intro _ _ j hj hne hrj heq
    exact hne (h.once j hj i hi hrj hpos heq)
  · have := h.copy i hi hpos
    unfold State.copy at this
    rwa [h.disk] at this

/-- A reference is given back; the inode stays. -/
theorem Walk.iput (h : Walk s₀ s L none) (hi : i < NINODE) (hL : i ∈ L)
    (hstays : s₀.Stays (s.icache i).inum) :
    ∃ t, iput i s = .ok ((), t) ∧ Walk s₀ t (L.erase i) none ∧
      ∀ j, (t.icache j).inum = (s.icache j).inum := by
  have hpos := h.pos hL
  have hlink : ¬ ((s.icache i).ref = 1 ∧ (s.icache i).valid = true ∧ (s.icache i).din.nlink = 0) := by
    rintro ⟨href, hvalid, hzero⟩
    have hcopy := h.copy i hi hpos
    unfold State.copy at hcopy
    rw [if_pos hvalid] at hcopy
    rcases hstays with hne | hslot
    · exact hne (hcopy ▸ hzero)
    · -- somebody else has the inode as well
      obtain ⟨j, hj⟩ := Option.isSome_iff_exists.mp hslot
      obtain ⟨hjlt, hrj, hinum⟩ := slot_some hj
      have hrj' : 0 < (s.icache j).ref := by
        rw [h.ref]
        omega
      have hji : j = i := h.once j hjlt i hi hrj' hpos ((h.kept j hrj).trans hinum)
      subst hji
      have h1 := h.ref j
      have h2 := List.count_pos_iff.mpr hL
      omega
  unfold Fs.iput
  rw [get_bind, if_neg hlink]
  refine ⟨_, rfl, h.setInode i { s.icache i with ref := (s.icache i).ref - 1 } (L.erase i) none ?_
    (fun j hj => List.count_erase_of_ne hj) (h.locked i) (fun _ _ => rfl) (h.kept i) ?_
    (fun _ _ => ?_), inum_setInode rfl⟩
  · have h2 := List.count_pos_iff.mpr hL
    rw [List.count_erase_self, h.ref]
    dsimp only
    omega
  · intro _ _ j hj hne hrj heq
    exact hne (h.once j hj i hi hrj hpos heq)
  · have := h.copy i hi hpos
    unfold State.copy at this
    rwa [h.disk] at this

theorem Walk.iunlockput (h : Walk s₀ s L (some i)) (hi : i < NINODE) (hL : i ∈ L)
    (hstays : s₀.Stays (s.icache i).inum) :
    ∃ t, iunlockput i s = .ok ((), t) ∧ Walk s₀ t (L.erase i) none ∧
      ∀ j, (t.icache j).inum = (s.icache j).inum := by
  obtain ⟨u, hu, hwalk, hinum⟩ := h.iunlock hi hL
  obtain ⟨t, ht, hwalk', hinum'⟩ := hwalk.iput hi hL (by rw [hinum]; exact hstays)
  exact ⟨t, code_bind.mpr ⟨_, _, hu, ht⟩, hwalk', fun j => (hinum' j).trans (hinum j)⟩

/-! ### Directories -/

theorem bmap_ok {d : Dinode} {bn : Nat} (hheld : s.held = []) (hd : (s.icache i).din = d)
    (hlaid : Laid s d) (hbn : bn * BSIZE < d.size) : bmap i bn s = .ok (s.blockNo d bn, s) := by
  obtain ⟨hne, -⟩ := hlaid.block bn hbn
  have haddr : ∀ j, d.addrs j ≠ 0 → addrOf i j s = .ok (d.addrs j, s) := by
    intro j hj
    unfold addrOf
    rw [get_bind, hd, if_neg hj]
    rfl
  unfold bmap
  unfold State.blockNo at hne ⊢
  by_cases hdirect : bn < NDIRECT
  · rw [if_pos hdirect] at hne ⊢
    rw [if_pos hdirect]
    exact haddr bn hne
  · rw [if_neg hdirect] at hne ⊢
    have hle := Nat.not_lt.mp hdirect
    have hmax : bn < MAXFILE := Nat.lt_of_mul_lt_mul_right (Nat.lt_of_lt_of_le hbn hlaid.size)
    have hin : bn - NDIRECT < NINDIRECT := Nat.sub_lt_left_of_lt_add hle hmax
    obtain ⟨hind, hlt⟩ := hlaid.indirect
      (Nat.lt_of_le_of_lt (Nat.mul_le_mul_right BSIZE hle) hbn)
    rw [if_neg hdirect, if_pos hin]
    refine code_bind.mpr ⟨_, _, haddr NDIRECT hind, ?_⟩
    refine code_bind.mpr ⟨_, _, bread_ok hlt hheld, ?_⟩
    rw [if_neg hne]
    refine code_bind.mpr ⟨_, _, brelse_ok rfl, ?_⟩
    change Except.ok (_, { s with held := [] }) = _
    rw [held_self hheld]

/-- An entry is read from one block. -/
theorem readDirent_ok {d : Dinode} {off : Nat} (e : Panic) (hheld : s.held = [])
    (hd : (s.icache i).din = d) (htype : d.type = T_DIR) (hlaid : Laid s d)
    (hoff : off ∈ direntOffs d.size) : readDirent e i off s = .ok (s.direntAt d off, s) := by
  obtain ⟨n, hn, rfl⟩ := List.mem_map.mp hoff
  have hsize := hlaid.size
  have hend : DIRENTSIZE * n + DIRENTSIZE ≤ d.size := by
    obtain ⟨m, hm⟩ := hlaid.whole
    rw [List.mem_range] at hn
    unfold DIRENTSIZE at *
    omega
  obtain ⟨k, hk⟩ : ∃ k, k = DIRENTSIZE * n := ⟨_, rfl⟩
  have halign : k % 16 = 0 := by
    rw [hk]
    unfold DIRENTSIZE
    omega
  rw [← hk] at hend ⊢
  have hbn : k / BSIZE * BSIZE < d.size := by
    unfold DIRENTSIZE BSIZE at *
    omega
  obtain ⟨-, hlt⟩ := hlaid.block _ hbn
  have hmin : min DIRENTSIZE (BSIZE - k % BSIZE) = DIRENTSIZE := by
    unfold DIRENTSIZE BSIZE at *
    omega
  have hread : readi i k DIRENTSIZE s = .ok (some ((List.range DIRENTSIZE).map fun j =>
      (s.block (s.blockNo d (k / BSIZE))).get (k % BSIZE + j)), s) := by
    unfold readi
    rw [get_bind]
    dsimp only
    rw [hd, if_neg (by rw [htype]; decide), if_neg (by
      unfold DIRENTSIZE MAXFILE NDIRECT NINDIRECT BSIZE at *
      omega), if_neg (by omega)]
    refine code_bind.mpr ⟨_, _, ?_, rfl⟩
    change readLoop i (15 + 1) k DIRENTSIZE s = _
    rw [readLoop, if_neg (by decide)]
    refine code_bind.mpr ⟨_, _, bmap_ok hheld hd hlaid hbn, ?_⟩
    refine code_bind.mpr ⟨_, _, bread_ok hlt hheld, ?_⟩
    refine code_bind.mpr ⟨_, _, brelse_ok rfl, ?_⟩
    dsimp only
    rw [hmin, Nat.sub_self]
    refine code_bind.mpr ⟨[], { s with held := [] }, rfl, ?_⟩
    rw [List.append_nil, held_self hheld]
    rfl
  unfold readDirent
  refine code_bind.mpr ⟨_, _, hread, ?_⟩
  dsimp only
  rw [if_pos (by rw [List.length_map, List.length_range])]
  rfl

/-- The first entry with the name is taken. -/
theorem dirlookupLoop_ok {d : Dinode} (name : Str) (hheld : s.held = []) (hd : (s.icache i).din = d)
    (htype : d.type = T_DIR) (hlaid : Laid s d) : ∀ offs : List Nat, (∀ off ∈ offs, off ∈ direntOffs d.size) →
      match (offs.map (s.direntAt d)).find? (fun e => e.inum ≠ 0 ∧ nameOf e.fname = nameOf name) with
      | none => dirlookupLoop i name offs s = .ok (none, s)
      | some e => ∃ off, dirlookupLoop i name offs s =
          (iget e.inum >>= fun k => pure (some (k, off))) s := by
  intro offs
  induction offs with
  | nil => exact fun _ => rfl
  | cons off offs ih =>
    intro hoffs
    have hread := readDirent_ok .dirlinkRead hheld hd htype hlaid (hoffs off List.mem_cons_self)
    have hrest := ih fun o ho => hoffs o (List.mem_cons_of_mem off ho)
    obtain ⟨de, hde⟩ : ∃ de, de = s.direntAt d off := ⟨_, rfl⟩
    rw [← hde] at hread
    have hloop : dirlookupLoop i name (off :: offs) s = (if de.inum = 0 then dirlookupLoop i name offs
        else if namecmp name de.fname = 0 then iget de.inum >>= fun k => pure (some (k, off))
        else dirlookupLoop i name offs) s := by
      rw [dirlookupLoop]
      change (readDirent .dirlinkRead i off s >>= _) = _
      rw [hread]
      rfl
    rw [List.map_cons, List.find?_cons, ← hde, hloop]
    by_cases htest : de.inum ≠ 0 ∧ nameOf de.fname = nameOf name
    · rw [decide_eq_true htest, if_neg htest.1, if_pos (namecmp_eq_zero.mpr htest.2.symm)]
      exact ⟨off, rfl⟩
    · have hskip : (if de.inum = 0 then dirlookupLoop i name offs
          else if namecmp name de.fname = 0 then iget de.inum >>= fun k => pure (some (k, off))
          else dirlookupLoop i name offs) = dirlookupLoop i name offs := by
        by_cases hzero : de.inum = 0
        · rw [if_pos hzero]
        · rw [if_neg hzero, if_neg fun hcmp => htest ⟨hzero, (namecmp_eq_zero.mp hcmp).symm⟩]
      rw [decide_eq_false htest, hskip]
      exact hrest

theorem Laid.congr {d : Dinode} (h : Laid s₀ d) (hwalk : Walk s₀ s L lk) : Laid s d := by
  refine ⟨h.whole, h.size, h.indirect, fun bn hbn => ?_⟩
  rw [hwalk.blockNo]
  exact h.block bn hbn

theorem Walk.direntAt (h : Walk s₀ s L lk) (d : Dinode) : s.direntAt d = s₀.direntAt d := by
  funext off
  unfold State.direntAt
  rw [h.block, h.blockNo]

theorem lookup_entry {name : List UInt8} {j : Nat} (h : s.lookup inum name = some j) :
    ∃ e ∈ s.entries inum, e.inum ≠ 0 ∧ e.inum = j := by
  obtain ⟨e, he, rfl⟩ := Option.map_eq_some_iff.mp h
  have htest := List.find?_some he
  exact ⟨e, List.mem_of_find?_eq_some he, (of_decide_eq_true htest).1, rfl⟩

/-- `dirlookup` in a locked directory. -/
theorem Walk.dirlookup (h : Walk s₀ s L (some i)) (hat : AtRest s₀) (hL : i ∈ L)
    (hlt : inum < s₀.sb.ninodes) (hd : (s.icache i).din = s₀.node inum)
    (htype : (s₀.node inum).type = T_DIR) (hfree : ∃ k < NINODE, (s.icache k).ref = 0) (name : Str) :
    match s₀.lookup inum (nameOf name) with
    | none => dirlookup i name s = .ok (none, s)
    | some j => ∃ k off t, dirlookup i name s = .ok (some (k, off), t) ∧ Walk s₀ t (k :: L) (some i) ∧
        k < NINODE ∧ (t.icache k).inum = j ∧ (t.icache i).inum = (s.icache i).inum := by
  have hloop := dirlookupLoop_ok name h.held hd htype ((hat.laid inum hlt htype).congr h)
    (direntOffs (s₀.node inum).size) fun _ ho => ho
  have hlook : Fs.dirlookup i name s = dirlookupLoop i name (direntOffs (s₀.node inum).size) s := by
    unfold Fs.dirlookup
    rw [get_bind, hd, if_neg (not_not.mpr htype)]
  rw [h.direntAt] at hloop
  rw [hlook]
  unfold State.lookup State.entries
  cases hfind : ((direntOffs (s₀.node inum).size).map (s₀.direntAt (s₀.node inum))).find?
      fun e => e.inum ≠ 0 ∧ nameOf e.fname = nameOf name with
  | none =>
    rw [hfind] at hloop
    exact hloop
  | some e =>
    rw [hfind] at hloop
    obtain ⟨off, hoff⟩ := hloop
    obtain ⟨k, t, hk, hwalk, hklt, hinum, hkeep⟩ := h.iget hfree e.inum
    refine ⟨k, off, t, ?_, hwalk, hklt, hinum, hkeep i (h.pos hL)⟩
    rw [hoff]
    exact code_bind.mpr ⟨k, t, hk, rfl⟩

/-! ### `namex` -/

/-- What `namex` should return: the inode, or the directory and the last element. -/
def State.goal (s : State) (np : Bool) (inum : Nat) (cs : List (List UInt8)) :
    Option (Nat × List UInt8) :=
  if np then s.parent inum cs else (s.resolve inum cs).map fun j => (j, [])

theorem goal_nil (np : Bool) : s.goal np inum [] = if np then none else some (inum, []) := by
  unfold State.goal
  cases np <;> rfl

theorem goal_cons (np : Bool) (c : List UInt8) (cs : List (List UInt8)) : s.goal np inum (c :: cs) =
    if (s.node inum).type = T_DIR then
      if np ∧ cs = [] then some (inum, c) else (s.lookup inum c).bind fun j => s.goal np j cs
    else none := by
  unfold State.goal
  cases np with
  | false =>
    simp only [Bool.false_eq_true, if_false, false_and, State.resolve]
    split
    · cases s.lookup inum c <;> rfl
    · rfl
  | true =>
    simp only [if_true, true_and]
    unfold State.parent
    cases cs with
    | nil => rfl
    | cons d cs =>
      rw [if_neg (List.cons_ne_nil d cs), List.getLast?_cons_cons, List.dropLast_cons_cons, State.resolve]
      split
      · cases s.lookup inum c with
        | none => cases (d :: cs).getLast? <;> rfl
        | some j => rfl
      · cases (d :: cs).getLast? <;> rfl

/-- What `namex` returned is what it should return, and it holds a reference to that only. -/
def Ends (s₀ : State) : Option (Nat × List UInt8) → Option (Nat × List UInt8) → State → Prop
  | none, o, t => o = none ∧ Walk s₀ t [] none
  | some (j, name), o, t =>
    ∃ i, o = some (i, name) ∧ i < NINODE ∧ (t.icache i).inum = j ∧ Walk s₀ t [i] none

theorem Ready.freeSlot (h : Ready s₀) (hwalk : Walk s₀ s [i] lk) : ∃ k < NINODE, (s.icache k).ref = 0 := by
  obtain ⟨a, ha, b, hb, hab, hra, hrb⟩ := h.free
  have hother : ∀ k, k ≠ i → (s₀.icache k).ref = 0 → (s.icache k).ref = 0 := by
    intro k hk hr
    rw [hwalk.ref, hr, List.count_cons_of_ne (Ne.symm hk), List.count_nil]
    rfl
  by_cases hai : a = i
  · exact ⟨b, hb, hother b (fun hbi => hab (hai.trans hbi.symm)) hrb⟩
  · exact ⟨a, ha, hother a hai hra⟩

/-- The path is at its end. -/
theorem namexEnd_ok {np : Bool} (hwalk : Walk s₀ s [i] none) (hi : i < NINODE)
    (hstays : s₀.Stays (s.icache i).inum) : ∃ o t,
      (if np then do
          iput i
          return none
        else return some (i, []) : M (Option (Nat × List UInt8))) s = .ok (o, t) ∧
      Ends s₀ (s₀.goal np (s.icache i).inum []) o t := by
  rw [goal_nil]
  cases np with
  | false => exact ⟨_, _, rfl, i, rfl, hi, rfl, hwalk⟩
  | true =>
    obtain ⟨t, ht, hwalk', -⟩ := hwalk.iput hi (List.mem_singleton.mpr rfl) hstays
    refine ⟨none, t, code_bind.mpr ⟨_, _, ht, rfl⟩, rfl, ?_⟩
    rw [List.erase_cons_head] at hwalk'
    exact hwalk'

theorem namexLoop_ok (h : Ready s₀) (np : Bool) (k : Nat) : ∀ {i : Nat} {path : List UInt8} {s : State},
    Walk s₀ s [i] none → i < NINODE → s₀.InUse (s.icache i).inum → s₀.Stays (s.icache i).inum →
      path.length ≤ k → 0 ∉ path → ∃ o t, namexLoop np k i path s = .ok (o, t) ∧
        Ends s₀ (s₀.goal np (s.icache i).inum (components path)) o t := by
  induction k with
  | zero =>
    intro i path s hwalk hi _ hstays hlen _
    obtain rfl := List.length_eq_zero_iff.mp (Nat.le_zero.mp hlen)
    exact namexEnd_ok hwalk hi hstays
  | succ k ih =>
    intro i path s hwalk hi huse hstays hlen hnul
    rw [namexLoop]
    cases hskip : skipelem path with
    | none =>
      rw [skipelem_none hskip]
      exact namexEnd_ok hwalk hi hstays
    | some p =>
      obtain ⟨name, rest⟩ := p
      obtain ⟨hcomp, hnil, hname, hnlen, hrnul, hrlen⟩ := skipelem_some hskip hnul
      have hmem : i ∈ [i] := List.mem_singleton.mpr rfl
      obtain ⟨u, hu, hwu, hinum, hdin⟩ := hwalk.ilock hi hmem (h.area _ huse.1) huse.2
      rw [hcomp, goal_cons]
      obtain ⟨inum, hinumeq⟩ : ∃ n, n = (s.icache i).inum := ⟨_, rfl⟩
      rw [← hinumeq] at hinum hdin huse hstays ⊢
      have hput : ∀ {w : State} {L : List Nat}, Walk s₀ w L (some i) → i ∈ L → (w.icache i).inum = inum →
          ∃ t, iunlockput i w = .ok ((), t) ∧ Walk s₀ t (L.erase i) none ∧
            ∀ j, (t.icache j).inum = (w.icache j).inum := fun hw hL heq =>
        hw.iunlockput hi hL (by rw [heq]; exact hstays)
      have hlock : ∀ {f : PUnit → M (Option (Nat × List UInt8))}, (ilock i >>= f) s = f ⟨⟩ u := by
        intro f
        change (Fs.ilock i s >>= _) = _
        rw [hu]
        rfl
      dsimp only
      rw [hlock, get_bind, hdin]
      by_cases htype : (s₀.node inum).type = T_DIR
      · rw [if_neg (not_not.mpr htype), if_pos htype]
        by_cases hlast : np = true ∧ rest = []
        · -- the directory of the last element
          rw [if_pos hlast, if_pos ⟨hlast.1, hnil.mp hlast.2⟩]
          obtain ⟨t, ht, hwt, hkeep⟩ := hwu.iunlock hi hmem
          exact ⟨_, t, code_bind.mpr ⟨_, _, ht, rfl⟩, i, rfl, hi, (hkeep i).trans hinum, hwt⟩
        · rw [if_neg hlast, if_neg fun hl => hlast ⟨hl.1, hnil.mpr hl.2⟩]
          have hlook := hwu.dirlookup h.toAtRest hmem huse.1 hdin htype (h.freeSlot hwu) (strOf name)
          rw [nameOf_strOf hname hnlen] at hlook
          cases hj : s₀.lookup inum name with
          | none =>
            rw [hj] at hlook
            obtain ⟨t, ht, hwt, -⟩ := hput hwu hmem hinum
            refine ⟨none, t, code_bind.mpr ⟨_, _, hlook, code_bind.mpr ⟨_, _, ht, rfl⟩⟩, rfl, ?_⟩
            rw [List.erase_cons_head] at hwt
            exact hwt
          | some j =>
            rw [hj] at hlook
            obtain ⟨next, off, v, hv, hwv, hnext, hvnext, hvi⟩ := hlook
            obtain ⟨e, he, hezero, rfl⟩ := lookup_entry hj
            obtain ⟨t, ht, hwt, hkeep⟩ := hput hwv (List.mem_cons_of_mem _ hmem) (hvi.trans hinum)
            have hwt' : Walk s₀ t [next] none := by
              by_cases heq : next = i
              · subst heq
                rw [List.erase_cons_head] at hwt
                exact hwt
              · rw [List.erase_cons_tail (by simpa using heq), List.erase_cons_head] at hwt
                exact hwt
            have htnext : (t.icache next).inum = e.inum := (hkeep next).trans hvnext
            obtain ⟨o, w, hw, hends⟩ := @ih _ rest _ hwt' hnext
              (by rw [htnext]; exact h.entry inum huse.1 htype e he hezero)
              (by rw [htnext]; exact h.stays inum huse.1 htype e he hezero) (by omega) hrnul
            rw [htnext] at hends
            exact ⟨o, w, code_bind.mpr ⟨_, _, hv, code_bind.mpr ⟨_, _, ht, hw⟩⟩, hends⟩
      · rw [if_pos htype, if_neg htype]
        obtain ⟨t, ht, hwt, -⟩ := hput hwu hmem hinum
        refine ⟨none, t, code_bind.mpr ⟨_, _, ht, rfl⟩, rfl, ?_⟩
        rw [List.erase_cons_head] at hwt
        exact hwt

/-- Where `namex` starts. -/
theorem startInode_ok (h : Ready s₀) (path : List UInt8) : ∃ i t inum, startInode path s₀ = .ok (i, t) ∧
    s₀.start path = some inum ∧ (t.icache i).inum = inum ∧ i < NINODE ∧ Walk s₀ t [i] none ∧
      s₀.InUse inum ∧ s₀.Stays inum := by
  have hwalk := h.toAtRest.walk
  unfold startInode State.start
  rw [get_bind]
  split
  · obtain ⟨a, ha, -, -, -, hra, -⟩ := h.free
    obtain ⟨i, t, ht, hw, hi, hinum, -⟩ := hwalk.iget ⟨a, ha, hra⟩ ROOTINO
    exact ⟨i, t, _, ht, rfl, hinum, hi, hw, h.root, h.rootStays⟩
  · obtain ⟨i, hi, hcdir, hr, huse⟩ := h.cdir
    obtain ⟨t, ht, hw, hinum⟩ := hwalk.idup hi hr
    rw [hcdir]
    refine ⟨i, t, _, ht, rfl, hinum, hi, hw, huse, Or.inr ?_⟩
    rw [slot_eq hi hr h.once]
    rfl

theorem namex_ok (h : Ready s₀) (np : Bool) {path : List UInt8} (hnul : 0 ∉ path) :
    ∃ inum o t, s₀.start path = some inum ∧ namex np path s₀ = .ok (o, t) ∧
      Ends s₀ (s₀.goal np inum (components path)) o t := by
  obtain ⟨i, u, inum, hu, hstart, hinum, hi, hw, huse, hstays⟩ := startInode_ok h path
  subst hinum
  obtain ⟨o, t, ht, hends⟩ := namexLoop_ok h np path.length hw hi huse hstays (Nat.le_refl _) hnul
  exact ⟨_, o, t, hstart, code_bind.mpr ⟨_, _, hu, ht⟩, hends⟩

end Walk

/-! ### The buffer for the name -/

/-- `skipelem` with the buffer: only a name of less than `DIRSIZ` bytes gets a NUL, and the
    bytes behind it stay. -/
def skipelemBuf (path : List UInt8) (name : Str) : Option (List UInt8 × Str) :=
  let s := path.dropWhile (· = SLASH)
  if s = [] then none
  else
    let path := s.dropWhile (· ≠ SLASH)
    let len := s.length - path.length
    let name : Str :=
      if DIRSIZ ≤ len then fun k => if k < DIRSIZ then s.getD k 0 else name k
      else fun k => if k = len then 0 else if k < len then s.getD k 0 else name k
    some (path.dropWhile (· = SLASH), name)

def namexBufLoop (nameiparent : Bool) : Nat → Nat → List UInt8 → Str → M (Option Nat × Str)
  | 0, ip, _, name =>
    if nameiparent then do
      iput ip
      return (none, name)
    else return (some ip, name)
  | k + 1, ip, path, name =>
    match skipelemBuf path name with
    | none =>
      if nameiparent then do
        iput ip
        return (none, name)
      else return (some ip, name)
    | some (rest, name) => do
      ilock ip
      let s ← get
      if (s.icache ip).din.type ≠ T_DIR then do
        iunlockput ip
        return (none, name)
      else if nameiparent ∧ rest = [] then do
        iunlock ip
        return (some ip, name)
      else do
        let r ← dirlookup ip name
        match r with
        | none => do
          iunlockput ip
          return (none, name)
        | some (next, _) => do
          iunlockput ip
          namexBufLoop nameiparent k next rest name

def namexBuf (nameiparent : Bool) (path : List UInt8) (name : Str) : M (Option Nat × Str) := do
  let ip ← startInode path
  namexBufLoop nameiparent path.length ip path name

/-- `namei(path)`, with what is in the buffer to begin with. -/
def nameiBuf (path : List UInt8) (name : Str) : M (Option Nat) := do
  let r ← namexBuf false path name
  return r.1

/-- `nameiparent(path, name)`, with what is in the buffer afterwards. -/
def nameiparentBuf (path : List UInt8) (name : Str) : M (Option Nat × Str) := namexBuf true path name

section Buffer

variable {s t : State} {path rest : List UInt8} {i : Nat} {name name' : Str} {c : List UInt8}

/-- The buffer has the element as a string. -/
theorem skipelemBuf_some (h : skipelem path = some (c, rest)) (hnul : 0 ∉ path) (name : Str) :
    ∃ name', skipelemBuf path name = some (rest, name') ∧ nameOf name' = c := by
  have hc0 := (skipelem_some h hnul).2.2.1
  unfold skipelem at h
  unfold skipelemBuf
  dsimp only at h ⊢
  split at h
  · cases h
  · rename_i hne
    rw [if_neg hne]
    obtain ⟨l, hl⟩ : ∃ l, l = path.dropWhile (· = SLASH) := ⟨_, rfl⟩
    rw [← hl] at h hne ⊢
    cases h
    obtain ⟨e, he⟩ : ∃ e, e = l.takeWhile (· ≠ SLASH) := ⟨_, rfl⟩
    have happend : l = e ++ l.dropWhile (· ≠ SLASH) := by rw [he, List.takeWhile_append_dropWhile]
    have hlen : l.length - (l.dropWhile (· ≠ SLASH)).length = e.length := by
      have := congrArg List.length happend
      rw [List.length_append] at this
      omega
    have hbyte : ∀ k < e.length, l.getD k 0 = e.getD k 0 := by
      intro k hk
      rw [happend, List.getD_append _ _ _ _ hk]
    rw [← he] at hc0 ⊢
    rw [hlen]
    refine ⟨_, rfl, ?_⟩
    by_cases hlong : DIRSIZ ≤ e.length
    · rw [if_pos hlong]
      have htake : (e.take DIRSIZ).length = DIRSIZ := by
        rw [List.length_take]
        exact Nat.min_eq_left hlong
      refine cstr_eq DIRSIZ (fun k hk => ?_) hc0 htake.le fun hlt => ?_
      · rw [htake] at hk
        rw [Nat.zero_add, if_pos hk, hbyte k (Nat.lt_of_lt_of_le hk hlong), List.getD_eq_getElem?_getD,
          List.getD_eq_getElem?_getD, List.getElem?_take_of_lt hk]
      · rw [htake] at hlt
        exact absurd hlt (Nat.lt_irrefl _)
    · rw [if_neg hlong]
      have hshort := Nat.not_le.mp hlong
      rw [List.take_of_length_le hshort.le] at hc0 ⊢
      refine cstr_eq DIRSIZ (fun k hk => ?_) hc0 hshort.le fun _ => ?_
      · rw [Nat.zero_add, if_neg (Nat.ne_of_lt hk), if_pos hk, hbyte k hk]
      · rw [Nat.zero_add, if_pos rfl]

theorem skipelemBuf_none (h : skipelem path = none) (name : Str) : skipelemBuf path name = none := by
  unfold skipelem at h
  dsimp only at h
  split at h
  · rename_i hnil
    exact if_pos hnil
  · cases h

/-- Only the string in the buffer is read. -/
theorem dirlookup_congr (h : nameOf name = nameOf name') : dirlookup i name = dirlookup i name' := by
  have hloop : ∀ offs, dirlookupLoop i name offs = dirlookupLoop i name' offs := by
    intro offs
    induction offs with
    | nil => rfl
    | cons off offs ih =>
      rw [dirlookupLoop, dirlookupLoop, ih]
      refine congrArg _ (funext fun de => ?_)
      simp only [namecmp_eq_zero, h]
  unfold dirlookup
  simp only [hloop]

/-- With the buffer, `namex` does the same. -/
theorem namexBufLoop_ok (np : Bool) (k : Nat) : ∀ {i : Nat} {path : List UInt8} {name : Str} {s : State}
    {o : Option (Nat × List UInt8)}, 0 ∉ path → namexLoop np k i path s = .ok (o, t) →
      ∃ name', namexBufLoop np k i path name s = .ok ((o.map Prod.fst, name'), t) ∧
        (np = true → ∀ q ∈ o, nameOf name' = q.2) := by
  have hend : ∀ {i : Nat} {name : Str} {s : State} {o : Option (Nat × List UInt8)},
      (if np then do
          iput i
          return none
        else return some (i, []) : M (Option (Nat × List UInt8))) s = .ok (o, t) →
      ∃ name', (if np then do
          iput i
          return (none, name)
        else return (some i, name) : M (Option Nat × Str)) s = .ok ((o.map Prod.fst, name'), t) ∧
        (np = true → ∀ q ∈ o, nameOf name' = q.2) := by
    intro i name s o h
    cases np with
    | false =>
      cases h
      exact ⟨name, rfl, fun h => nomatch h⟩
    | true =>
      obtain ⟨v, u, hu, h⟩ := code_bind.mp h
      cases h
      exact ⟨name, code_bind.mpr ⟨v, _, hu, rfl⟩, fun _ q hq => nomatch hq⟩
  induction k with
  | zero => exact fun _ h => hend h
  | succ k ih =>
    intro i path name s o hnul h
    rw [namexLoop] at h
    rw [namexBufLoop]
    cases hskip : skipelem path with
    | none =>
      rw [hskip] at h
      rw [skipelemBuf_none hskip]
      exact hend h
    | some p =>
      obtain ⟨c, rest⟩ := p
      obtain ⟨buf, hbuf, hname⟩ := skipelemBuf_some hskip hnul name
      obtain ⟨-, -, hc0, hclen, hrnul, -⟩ := skipelem_some hskip hnul
      rw [hskip] at h
      rw [hbuf]
      obtain ⟨v, u, hu, h⟩ := code_bind.mp h
      have hlook : dirlookup i buf = dirlookup i (strOf c) :=
        dirlookup_congr (hname.trans (nameOf_strOf hc0 hclen).symm)
      suffices hrest : ∃ name', (do
          let s ← get
          if (s.icache i).din.type ≠ T_DIR then do
            iunlockput i
            return (none, buf)
          else if np = true ∧ rest = [] then do
            iunlock i
            return (some i, buf)
          else do
            let r ← dirlookup i buf
            match r with
            | none => do
              iunlockput i
              return (none, buf)
            | some (next, _) => do
              iunlockput i
              namexBufLoop np k next rest buf : M (Option Nat × Str)) u = .ok ((o.map Prod.fst, name'), t) ∧
          (np = true → ∀ q ∈ o, nameOf name' = q.2) by
        obtain ⟨name', hrun, hlast⟩ := hrest
        exact ⟨name', code_bind.mpr ⟨v, u, hu, hrun⟩, hlast⟩
      rw [get_bind] at h ⊢
      split at h
      · rename_i htype
        obtain ⟨v, w, hw, h⟩ := code_bind.mp h
        cases h
        rw [if_pos htype]
        exact ⟨buf, code_bind.mpr ⟨v, _, hw, rfl⟩, fun _ q hq => nomatch hq⟩
      · rename_i htype
        rw [if_neg htype]
        split at h
        · rename_i hlast
          obtain ⟨v, w, hw, h⟩ := code_bind.mp h
          cases h
          rw [if_pos hlast]
          refine ⟨buf, code_bind.mpr ⟨v, _, hw, rfl⟩, fun _ q hq => ?_⟩
          cases hq
          exact hname
        · rename_i hlast
          obtain ⟨r, w, hw, h⟩ := code_bind.mp h
          rw [if_neg hlast, hlook]
          cases r with
          | none =>
            obtain ⟨v, x, hx, h⟩ := code_bind.mp h
            cases h
            exact ⟨buf, code_bind.mpr ⟨_, _, hw, code_bind.mpr ⟨v, _, hx, rfl⟩⟩, fun _ q hq => nomatch hq⟩
          | some p =>
            obtain ⟨next, off⟩ := p
            obtain ⟨v, x, hx, h⟩ := code_bind.mp h
            obtain ⟨name', hrun, hlast⟩ := @ih _ _ buf _ _ hrnul h
            exact ⟨name', code_bind.mpr ⟨_, _, hw, code_bind.mpr ⟨v, x, hx, hrun⟩⟩, hlast⟩

/-- The inode that was found, and what became of the state. -/
structure Finds (s t : State) (goal r : Option Nat) : Prop where
  inode : r.map (fun i => (t.icache i).inum) = goal
  ref : ∀ i, (t.icache i).ref = (s.icache i).ref + if r = some i then 1 else 0
  block : t.block = s.block

theorem Ends.finds {goal o : Option (Nat × List UInt8)} (h : Ends s goal o t) :
    Finds s t (goal.map Prod.fst) (o.map Prod.fst) ∧ o.map Prod.snd = goal.map Prod.snd := by
  cases goal with
  | none =>
    obtain ⟨rfl, hwalk⟩ := h
    exact ⟨⟨rfl, hwalk.ref, hwalk.block⟩, rfl⟩
  | some p =>
    obtain ⟨j, c⟩ := p
    obtain ⟨i, rfl, hi, hinum, hwalk⟩ := h
    refine ⟨⟨congrArg some hinum, fun k => ?_, hwalk.block⟩, rfl⟩
    rw [hwalk.ref]
    by_cases hk : i = k
    · subst hk
      rw [List.count_singleton_self, Option.map_some, if_pos rfl]
      rfl
    · rw [List.count_cons_of_ne hk, List.count_nil, Option.map_some,
        if_neg fun heq => hk (Option.some.inj heq)]
      rfl

theorem namexBuf_ok (h : Ready s) (np : Bool) (hnul : 0 ∉ path) (name : Str) :
    ∃ inum r name' t, s.start path = some inum ∧ namexBuf np path name s = .ok ((r, name'), t) ∧
      Finds s t ((s.goal np inum (components path)).map Prod.fst) r ∧
      (np = true → ∀ q ∈ s.goal np inum (components path), nameOf name' = q.2) := by
  obtain ⟨inum, o, t, hstart, hrun, hends⟩ := namex_ok h np hnul
  obtain ⟨i, u, hu, hloop⟩ := code_bind.mp hrun
  have hbufs : ∃ name', namexBufLoop np path.length i path name u = .ok ((o.map Prod.fst, name'), t) ∧
      (np = true → ∀ q ∈ o, nameOf name' = q.2) := namexBufLoop_ok np path.length hnul hloop
  obtain ⟨name', hbuf, hlast⟩ := hbufs
  obtain ⟨hfinds, hsnd⟩ := hends.finds
  refine ⟨inum, _, name', t, hstart, code_bind.mpr ⟨i, u, hu, hbuf⟩, hfinds, fun hnp q hq => ?_⟩
  rw [Option.mem_def] at hq
  rw [hq] at hsnd
  obtain ⟨p, hp, hpq⟩ := Option.map_eq_some_iff.mp hsnd
  rw [hlast hnp p hp, hpq]

/-- **Path resolution.**  In a file system at rest, with two free slots in the inode cache:
    `namei` finds the inode that the path leads to, if there is one, and `nameiparent` the
    directory of the last element and its name.  No other reference count changes. -/
theorem path_resolution (h : Ready s) (hnul : 0 ∉ path) (name : Str) :
    ∃ inum, s.start path = some inum ∧
      (∃ r t, nameiBuf path name s = .ok (r, t) ∧
        Finds s t (s.resolve inum (components path)) r) ∧
      ∃ r name' t, nameiparentBuf path name s = .ok ((r, name'), t) ∧
        Finds s t ((s.parent inum (components path)).map Prod.fst) r ∧
        ∀ q ∈ s.parent inum (components path), nameOf name' = q.2 := by
  obtain ⟨inum, r, b, t, hstart, hrun, hfinds, -⟩ := namexBuf_ok h false hnul name
  obtain ⟨inum', r', b', t', hstart', hrun', hfinds', hlast⟩ := namexBuf_ok h true hnul name
  obtain rfl : inum = inum' := Option.some.inj (hstart.symm.trans hstart')
  refine ⟨inum, hstart, ⟨r, t, code_bind.mpr ⟨_, _, hrun, rfl⟩, ?_⟩, r', b', t', hrun', hfinds',
    hlast rfl⟩
  have hgoal : (s.goal false inum (components path)).map Prod.fst = s.resolve inum (components path) := by
    unfold State.goal
    rw [if_neg (by decide), Option.map_map]
    exact congrFun Option.map_id _
  rwa [hgoal] at hfinds

end Buffer

/-! ### A small tree -/

/-- The root with the directory "a", that directory with the file "b", and files. -/
def treeInode (link len : Nat) : Nat → Dinode
  | 1 => ⟨T_DIR, 0, 0, 1, 16, fun j => if j = 0 then 11 else 0⟩
  | 2 => ⟨T_DIR, 0, 0, link, len, fun j => if j = 0 then 12 else 0⟩
  | _ => ⟨T_FILE, 0, 0, 1, 0, fun _ => 0⟩

def treeBlock (link len b : Nat) : Block := fun k =>
  if b = 1 then Bytes.leByte ([FSSIZE, 900, 64, 30, 901, 2, 10].getD (k / 4) 0) (k % 4)
  else if 2 ≤ b ∧ b < 10 then (treeInode link len ((b - 2) * IPB + k / DINODESIZE)).bytes (k % DINODESIZE)
  else if b = 10 then [255, 31].getD k 0
  else if b = 11 then (direntBytes 2 (strOf [97])).getD k 0
  else if b = 12 then (direntBytes 3 (strOf [98]) ++ direntBytes 1 (strOf [46, 46])).getD k 0
  else 0

/-- The first `n` slots of the inode cache are taken, slot 0 by the root, which is the current
    directory; "a" has `link` links and `len` bytes. -/
def tree (link len n : Nat) : State where
  block := treeBlock link len
  held := []
  logged := []
  outstanding := 1
  logSize := LOGSIZE
  sb := ⟨FSSIZE, 900, 64, 30, 901, 2, 10⟩
  icache := fun i =>
    ⟨if i = 0 then ROOTINO else 10 + i, if i < n then 1 else 0, false, false, Dinode.zero⟩
  ftable := fun _ => ⟨.none, 0, false, false, 0⟩
  pipe := fun _ => ⟨[], false, false⟩
  procs := fun _ => ⟨some 0, fun _ => none, false⟩
  proc := 0
  input := []
  taken := []
  freed := []

section Tree

variable {link n : Nat}

theorem tree_disk : ∀ link < 2, ∀ inum < 64,
    ((tree link 32 0).disk inum).type ≠ 0 ∧
      (((tree link 32 0).disk inum).type = T_DIR → DIRENTSIZE ∣ ((tree link 32 0).disk inum).size ∧
        ((tree link 32 0).disk inum).size ≤ 32 ∧ ((tree link 32 0).disk inum).addrs 0 ≠ 0 ∧
        ((tree link 32 0).disk inum).addrs 0 < FSSIZE) := by
  decide

theorem tree_entries : ∀ link < 2, ∀ inum < 64, ((tree link 32 0).disk inum).type = T_DIR →
    ∀ e ∈ (direntOffs ((tree link 32 0).disk inum).size).map
      ((tree link 32 0).direntAt ((tree link 32 0).disk inum)), e.inum < 64 := by
  decide

/-- No slot has a copy of its own. -/
theorem tree_node (inum : Nat) : (tree link 32 n).node inum = (tree link 32 0).disk inum := by
  unfold State.node
  cases h : (tree link 32 n).slot inum with
  | none => rfl
  | some i =>
    obtain ⟨-, -, rfl⟩ := slot_some h
    rfl

theorem tree_atRest (hlink : link < 2) (hn : 0 < n) : AtRest (tree link 32 n) := by
  have huse : ∀ inum < 64, (tree link 32 n).InUse inum := by
    intro inum hinum
    refine ⟨hinum, ?_⟩
    rw [tree_node]
    exact (tree_disk link hlink inum hinum).1
  have href : ((tree link 32 n).icache 0).ref = 1 := if_pos hn
  constructor
  · rfl
  · exact fun _ => rfl
  · intro i
    change 0 ≤ if i < n then (1 : Int) else 0
    split <;> omega
  · intro i _ j _ _ _ heq
    change (if i = 0 then 1 else 10 + i) = if j = 0 then 1 else 10 + j at heq
    split at heq <;> split at heq <;> omega
  · intro inum hinum
    change inum < 64 at hinum
    change inum / 8 + 2 < 1000
    omega
  · intro inum hinum htype
    rw [tree_node] at htype ⊢
    obtain ⟨hwhole, hsize, h0, hlt⟩ := (tree_disk link hlink inum hinum).2 htype
    refine ⟨hwhole, Nat.le_trans hsize (by decide), fun h => ?_, fun bn hbn => ?_⟩
    · unfold NDIRECT BSIZE at h
      omega
    · unfold BSIZE at hbn
      obtain rfl : bn = 0 := by omega
      exact ⟨h0, hlt⟩
  · intro inum hinum htype e he _
    unfold State.entries at he
    rw [tree_node] at htype he
    exact huse e.inum (tree_entries link hlink inum hinum htype e he)
  · exact huse ROOTINO (by decide)
  · refine ⟨0, by decide, rfl, ?_, huse ROOTINO (by decide)⟩
    rw [href]
    exact Int.one_pos

theorem tree_ready : Ready (tree 1 32 1) := by
  have hlink : ∀ inum < 64, ((tree 1 32 0).disk inum).nlink ≠ 0 := by decide
  have hstays : ∀ inum < 64, (tree 1 32 1).Stays inum := by
    intro inum hinum
    left
    rw [tree_node]
    exact hlink inum hinum
  have hrest : AtRest (tree 1 32 1) := tree_atRest (by decide) (by decide)
  constructor
  · exact hrest
  · exact ⟨1, by decide, 2, by decide, by decide, rfl, rfl⟩
  · exact hstays ROOTINO (by decide)
  · intro inum hinum htype e he hne
    exact hstays e.inum (hrest.entry inum hinum htype e he hne).1

end Tree

/-- The path "/a//b" leads to inode 3, and its last element is in inode 2. -/
theorem path_resolution_tree :
    (∃ r t, nameiBuf [47, 97, 47, 47, 98] (strOf []) (tree 1 32 1) = .ok (some r, t) ∧
      (t.icache r).inum = 3) ∧
    ∃ r name t, nameiparentBuf [47, 97, 47, 47, 98] (strOf []) (tree 1 32 1) = .ok ((some r, name), t) ∧
      (t.icache r).inum = 2 ∧ nameOf name = [98] := by
  have hgoal : (tree 1 32 1).resolve ROOTINO (components [47, 97, 47, 47, 98]) = some 3 := by decide
  have hparent : (tree 1 32 1).parent ROOTINO (components [47, 97, 47, 47, 98]) = some (2, [98]) := by
    decide
  obtain ⟨inum, hstart, ⟨r, t, hnamei, hfinds⟩, r', name, t', hnameip, hfinds', hname⟩ :=
    path_resolution tree_ready (show (0 : UInt8) ∉ [47, 97, 47, 47, 98] by decide) (strOf [])
  obtain rfl : ROOTINO = inum := Option.some.inj hstart
  rw [hgoal] at hfinds
  rw [hparent] at hfinds' hname
  obtain ⟨i, rfl, hi⟩ := Option.map_eq_some_iff.mp hfinds.inode
  obtain ⟨j, rfl, hj⟩ := Option.map_eq_some_iff.mp hfinds'.inode
  exact ⟨⟨i, t, hnamei, hi⟩, j, name, t', hnameip, hj, hname _ rfl⟩

theorem nameiBuf_stops {path : List UInt8} {name : Str} {s : State} {e : Stop}
    (h : (nameiBuf path name s).map Prod.fst = .error e) (r : Option Nat) (t : State) :
    nameiBuf path name s ≠ .ok (r, t) := by
  intro hok
  rw [hok] at h
  cases h

/-- With one free slot "a/b" is not found: "a" takes it, and "b" needs another while "a" is
    held.  Nor is "a/../a/b" when "a" has no link: leaving it for the first time frees it.  And
    a directory that ends within an entry cannot be searched to its end. -/
theorem path_resolution_fails :
    (AtRest (tree 1 32 49) ∧ (∃ i < NINODE, ((tree 1 32 49).icache i).ref = 0) ∧
      (tree 1 32 49).resolve ROOTINO (components [97, 47, 98]) = some 3 ∧
      ∀ r t, nameiBuf [97, 47, 98] (strOf []) (tree 1 32 49) ≠ .ok (r, t)) ∧
    (AtRest (tree 0 32 1) ∧
      (∃ i < NINODE, ∃ j < NINODE, i ≠ j ∧ ((tree 0 32 1).icache i).ref = 0 ∧
        ((tree 0 32 1).icache j).ref = 0) ∧
      (tree 0 32 1).resolve ROOTINO (components [97, 47, 46, 46, 47, 97, 47, 98]) = some 3 ∧
      ∀ r t, nameiBuf [97, 47, 46, 46, 47, 97, 47, 98] (strOf []) (tree 0 32 1) ≠ .ok (r, t)) ∧
    (∀ inum < 64, ((tree 1 24 1).node inum).type = T_DIR →
        ∀ e ∈ (tree 1 24 1).entries inum, e.inum ≠ 0 → (tree 1 24 1).InUse e.inum) ∧
      (tree 1 24 1).resolve ROOTINO (components [97, 47, 99]) = none ∧
      ∀ r t, nameiBuf [97, 47, 99] (strOf []) (tree 1 24 1) ≠ .ok (r, t) := by
  have hfull : (nameiBuf [97, 47, 98] (strOf []) (tree 1 32 49)).map Prod.fst =
      .error (.panic .igetNoInodes) := by decide +kernel
  have hfreed : (nameiBuf [97, 47, 46, 46, 47, 97, 47, 98] (strOf []) (tree 0 32 1)).map Prod.fst =
      .error (.panic .ilockNoType) := by decide +kernel
  have hshort : (nameiBuf [97, 47, 99] (strOf []) (tree 1 24 1)).map Prod.fst =
      .error (.panic .dirlinkRead) := by decide +kernel
  refine ⟨⟨tree_atRest (by decide) (by decide), ⟨49, by decide, rfl⟩, by decide,
    nameiBuf_stops hfull⟩, ⟨tree_atRest (by decide) (by decide),
    ⟨1, by decide, 2, by decide, by decide, rfl, rfl⟩, by decide, nameiBuf_stops hfreed⟩,
    by decide, by decide, nameiBuf_stops hshort⟩

end Yonix.Fs
