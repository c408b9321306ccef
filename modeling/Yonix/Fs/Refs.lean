/-
  Yonix/Fs/Refs.lean
  ==================
  **What the functions of `fs.c` take and give back.**

  Of the state only the buffers held, the open transactions, the reference counts and
  locks of the in-core inodes and the file table, processes and pipes are looked at.
  Each function has one equation for them: most leave them as they were, `iget` and its
  callers hand out a reference, `iput` takes one back, `ilock` and `iunlock` move a lock.
-/
import Yonix.Fs.Model

namespace Yonix.Fs

/-! ### The part of the state -/

@[ext]
structure Core where
  held : List Nat
  outstanding : Int
  ref : Nat → Int
  locked : Nat → Bool
  ftable : Nat → File
  procs : Nat → Proc
  proc : Nat
  pipe : Nat → Pipe
  taken : List Nat
  freed : List Nat

def core (s : State) : Core :=
  ⟨s.held, s.outstanding, fun i => (s.icache i).ref, fun i => (s.icache i).locked, s.ftable,
    s.procs, s.proc, s.pipe, s.taken, s.freed⟩

namespace Core

def hold (c : Core) (b : Nat) : Core := { c with held := b :: c.held }
def drop (c : Core) (b : Nat) : Core := { c with held := c.held.erase b }
def bump (c : Core) (i : Nat) (n : Int) : Core :=
  { c with ref := Function.update c.ref i (c.ref i + n) }
def setLock (c : Core) (i : Nat) (b : Bool) : Core :=
  { c with locked := Function.update c.locked i b }
def ops (c : Core) (n : Int) : Core := { c with outstanding := c.outstanding + n }

variable (c : Core) (i j : Nat)

@[simp]
theorem drop_hold (b : Nat) : (c.hold b).drop b = c := by
  unfold drop hold
  simp

@[simp]
theorem bump_bump (m n : Int) : (c.bump i m).bump i n = c.bump i (m + n) := by
  unfold bump
  simp [add_assoc]

@[simp]
theorem bump_zero : c.bump i 0 = c := by
  unfold bump
  simp

theorem bump_comm (m n : Int) : (c.bump i m).bump j n = (c.bump j n).bump i m := by
  by_cases h : i = j
  · subst h
    rw [bump_bump, bump_bump, add_comm]
  · unfold bump
    simp only [Function.update_of_ne h, Function.update_of_ne (Ne.symm h)]
    rw [Function.update_comm h]

@[simp]
theorem setLock_setLock (a b : Bool) : (c.setLock i a).setLock i b = c.setLock i b := by
  unfold setLock
  simp

theorem setLock_comm {i j : Nat} (h : i ≠ j) (a b : Bool) :
    (c.setLock i a).setLock j b = (c.setLock j b).setLock i a := by
  unfold setLock
  rw [Function.update_comm h]

theorem setLock_self {c : Core} {i : Nat} {b : Bool} (h : c.locked i = b) : c.setLock i b = c := by
  unfold setLock
  rw [← h, Function.update_eq_self]

theorem bump_setLock (n : Int) (b : Bool) : (c.setLock j b).bump i n = (c.bump i n).setLock j b := rfl

@[simp]
theorem locked_setLock_self (b : Bool) : (c.setLock i b).locked i = b := Function.update_self _ _ _

theorem locked_setLock_of_ne {i j : Nat} (h : j ≠ i) (b : Bool) :
    (c.setLock i b).locked j = c.locked j :=
  Function.update_of_ne h _ _

@[simp]
theorem locked_bump (n : Int) : (c.bump i n).locked = c.locked := rfl

end Core

variable {s t : State} {i : Nat}

theorem core_setInode (s : State) (i : Nat) (x : Inode) : core (s.setInode i x) =
    { core s with
      ref := Function.update (core s).ref i x.ref
      locked := Function.update (core s).locked i x.locked } := by
  unfold core State.setInode
  simp only [Core.mk.injEq, true_and, and_true]
  constructor
  · funext j
    by_cases h : j = i
    · subst h
      simp
    · simp [Function.update_of_ne h]
  · funext j
    by_cases h : j = i
    · subst h
      simp
    · simp [Function.update_of_ne h]

/-- The count and the lock of the inode stay. -/
theorem core_setInode_same {x : Inode} (hr : x.ref = (s.icache i).ref)
    (hl : x.locked = (s.icache i).locked) : core (s.setInode i x) = core s := by
  have h1 : Function.update (core s).ref i x.ref = (core s).ref := by
    rw [hr]
    exact Function.update_eq_self i _
  have h2 : Function.update (core s).locked i x.locked = (core s).locked := by
    rw [hl]
    exact Function.update_eq_self i _
  rw [core_setInode, h1, h2]

theorem core_setDin (d : Dinode) : core (s.setDin i d) = core s := core_setInode_same rfl rfl

/-! ### Buffers and the log -/

theorem bread_core {b : Nat} {x : Block} (h : bread b s = .ok (x, t)) :
    core t = (core s).hold b := by
  unfold bread at h
  split at h
  · cases h
  · split at h
    · cases h
    · cases h
      rfl

theorem brelse_core {b : Nat} {u : Unit} (h : brelse b s = .ok (u, t)) :
    core t = (core s).drop b := by
  unfold brelse at h
  split at h
  · cases h
    rfl
  · cases h

theorem logWrite_core {b : Nat} {x : Block} {u : Unit} (h : logWrite b x s = .ok (u, t)) :
    core t = core s := by
  unfold logWrite at h
  split at h
  · cases h
  · split at h
    · cases h
    · cases h
      rfl

theorem beginOp_core {u : Unit} (h : beginOp s = .ok (u, t)) : core t = (core s).ops 1 := by
  unfold beginOp at h
  split at h
  · cases h
  · cases h
    rfl

theorem endOp_core {u : Unit} (h : endOp s = .ok (u, t)) : core t = (core s).ops (-1) := by
  unfold endOp at h
  split at h
  · cases h
    rfl
  · cases h
    rfl

/-! ### Blocks -/

theorem readsb_core {u : Unit} (h : readsb s = .ok (u, t)) : core t = core s := by
  unfold readsb at h
  obtain ⟨x, s1, h1, h⟩ := code_bind.mp h
  rw [modify_bind] at h
  have h2 := brelse_core h
  rw [h2]
  change (core s1).drop 1 = core s
  rw [bread_core h1, Core.drop_hold]

theorem bzero_core {b : Nat} {u : Unit} (h : bzero b s = .ok (u, t)) : core t = core s := by
  unfold bzero at h
  obtain ⟨x, s1, h1, h⟩ := code_bind.mp h
  obtain ⟨v, s2, h2, h⟩ := code_bind.mp h
  rw [brelse_core h, logWrite_core h2, bread_core h1, Core.drop_hold]

theorem ballocLoop_core {sb : Superblock} (k : Nat) : ∀ {b r : Nat} {s : State},
    ballocLoop sb k b s = .ok (r, t) → core t = core s := by
  induction k with
  | zero =>
    intro b r s h
    cases h
  | succ k ih =>
    intro b r s h
    unfold ballocLoop at h
    split at h
    · obtain ⟨x, s1, h1, h⟩ := code_bind.mp h
      generalize freeBit x b sb.size = o at h
      cases o with
      | some bi =>
        obtain ⟨v, s2, h2, h⟩ := code_bind.mp h
        obtain ⟨w, s3, h3, h⟩ := code_bind.mp h
        obtain ⟨z, s4, h4, h⟩ := code_bind.mp h
        cases h
        rw [bzero_core h4, brelse_core h3, logWrite_core h2, bread_core h1, Core.drop_hold]
      | none =>
        obtain ⟨v, s2, h2, h⟩ := code_bind.mp h
        rw [ih h, brelse_core h2, bread_core h1, Core.drop_hold]
    · cases h

theorem balloc_core {r : Nat} (h : balloc s = .ok (r, t)) : core t = core s := by
  unfold balloc at h
  rw [get_bind] at h
  exact ballocLoop_core _ h

theorem bfree_core {b : Nat} {u : Unit} (h : bfree b s = .ok (u, t)) : core t = core s := by
  unfold bfree at h
  obtain ⟨v, s1, h1, h⟩ := code_bind.mp h
  rw [get_bind] at h
  obtain ⟨x, s2, h2, h⟩ := code_bind.mp h
  split at h
  · obtain ⟨w, s3, h3, h⟩ := code_bind.mp h
    rw [brelse_core h, logWrite_core h3, bread_core h2, Core.drop_hold, readsb_core h1]
  · cases h

/-! ### Inodes -/

theorem iget_core {inum : Nat} (h : iget inum s = .ok (i, t)) : core t = (core s).bump i 1 := by
  unfold iget at h
  split at h
  · rename_i j hj
    cases h
    rw [core_setInode]
    have hl : Function.update (core s).locked i (s.icache i).locked = (core s).locked :=
      Function.update_eq_self i _
    rw [hl]
    rfl
  · split at h
    · rename_i j hj
      cases h
      have hzero : (s.icache i).ref = 0 := by simpa using List.find?_some hj
      have hl : Function.update (core s).locked i (s.icache i).locked = (core s).locked :=
        Function.update_eq_self i _
      rw [core_setInode]
      unfold Core.bump
      rw [hl]
      change _ = { core s with ref := Function.update (core s).ref i ((s.icache i).ref + 1) }
      rw [hzero]
      rfl
    · cases h

theorem iallocLoop_core {type : Nat} (l : List Nat) : ∀ {s : State},
    iallocLoop type l s = .ok (i, t) → core t = (core s).bump i 1 := by
  induction l with
  | nil =>
    intro s h
    cases h
  | cons inum l ih =>
    intro s h
    unfold iallocLoop at h
    rw [get_bind] at h
    obtain ⟨x, s1, h1, h⟩ := code_bind.mp h
    split at h
    · obtain ⟨v, s2, h2, h⟩ := code_bind.mp h
      obtain ⟨w, s3, h3, h⟩ := code_bind.mp h
      rw [iget_core h, brelse_core h3, logWrite_core h2, bread_core h1, Core.drop_hold]
    · obtain ⟨v, s2, h2, h⟩ := code_bind.mp h
      rw [ih h, brelse_core h2, bread_core h1, Core.drop_hold]

theorem ialloc_core {type : Nat} (h : ialloc type s = .ok (i, t)) : core t = (core s).bump i 1 := by
  unfold ialloc at h
  rw [get_bind] at h
  exact iallocLoop_core _ h

theorem iupdate_core {u : Unit} (h : iupdate i s = .ok (u, t)) : core t = core s := by
  unfold iupdate at h
  rw [get_bind] at h
  obtain ⟨x, s1, h1, h⟩ := code_bind.mp h
  obtain ⟨v, s2, h2, h⟩ := code_bind.mp h
  rw [brelse_core h, logWrite_core h2, bread_core h1, Core.drop_hold]

/-- The count of one inode changes. -/
theorem core_addRef (s : State) (i : Nat) (n : Int) :
    core (s.setInode i { s.icache i with ref := (s.icache i).ref + n }) = (core s).bump i n := by
  have hl : Function.update (core s).locked i (s.icache i).locked = (core s).locked :=
    Function.update_eq_self i _
  rw [core_setInode, hl]
  rfl

theorem idup_core {j : Nat} (h : idup i s = .ok (j, t)) : j = i ∧ core t = (core s).bump i 1 := by
  unfold idup at h
  rw [modify_bind] at h
  cases h
  exact ⟨rfl, core_addRef s i 1⟩

/-- The lock of one inode changes. -/
theorem core_lock (s : State) (i : Nat) (b : Bool) :
    core (s.setInode i { s.icache i with locked := b }) = (core s).setLock i b := by
  have hr : Function.update (core s).ref i (s.icache i).ref = (core s).ref :=
    Function.update_eq_self i _
  rw [core_setInode, hr]
  rfl

theorem ifetch_core {u : Unit} (h : ifetch i s = .ok (u, t)) : core t = core s := by
  unfold ifetch at h
  rw [get_bind] at h
  obtain ⟨x, s1, h1, h⟩ := code_bind.mp h
  rw [modify_bind] at h
  obtain ⟨v, s2, h2, h⟩ := code_bind.mp h
  rw [modify_bind] at h
  split at h
  · cases h
  · cases h
    have hvalid : core (s2.setInode i { s2.icache i with valid := true }) = core s2 :=
      core_setInode_same rfl rfl
    rw [hvalid, brelse_core h2, core_setDin, bread_core h1, Core.drop_hold]

theorem ilock_core {u : Unit} (h : ilock i s = .ok (u, t)) :
    (core s).locked i = false ∧ core t = (core s).setLock i true := by
  unfold ilock at h
  rw [get_bind] at h
  split at h
  · cases h
  · split at h
    · cases h
    · rename_i hlock
      have hfalse : (s.icache i).locked = false := by simpa using hlock
      rw [modify_bind] at h
      split at h
      · cases h
        exact ⟨hfalse, core_lock s i true⟩
      · rw [ifetch_core h]
        exact ⟨hfalse, core_lock s i true⟩

theorem iunlock_core {u : Unit} (h : iunlock i s = .ok (u, t)) :
    (core s).locked i = true ∧ core t = (core s).setLock i false := by
  unfold iunlock at h
  rw [get_bind] at h
  split at h
  · cases h
  · rename_i hlock
    cases h
    refine ⟨?_, core_lock s i false⟩
    change (s.icache i).locked = true
    simpa using fun hf => hlock (Or.inl hf)

/-! ### The blocks of an inode -/

theorem addrOf_core {j b : Nat} (h : addrOf i j s = .ok (b, t)) : core t = core s := by
  unfold addrOf at h
  rw [get_bind] at h
  split at h
  · obtain ⟨b', s1, h1, h⟩ := code_bind.mp h
    rw [modify_bind] at h
    cases h
    rw [core_setDin, balloc_core h1]
  · cases h
    rfl

theorem bmap_core {bn b : Nat} (h : bmap i bn s = .ok (b, t)) : core t = core s := by
  unfold bmap at h
  split at h
  · exact addrOf_core h
  · split at h
    · obtain ⟨addr, s1, h1, h⟩ := code_bind.mp h
      obtain ⟨x, s2, h2, h⟩ := code_bind.mp h
      split at h
      · obtain ⟨b', s3, h3, h⟩ := code_bind.mp h
        obtain ⟨v, s4, h4, h⟩ := code_bind.mp h
        obtain ⟨w, s5, h5, h⟩ := code_bind.mp h
        cases h
        rw [brelse_core h5, logWrite_core h4, balloc_core h3, bread_core h2, Core.drop_hold,
          addrOf_core h1]
      · obtain ⟨v, s3, h3, h⟩ := code_bind.mp h
        cases h
        rw [brelse_core h3, bread_core h2, Core.drop_hold, addrOf_core h1]
    · cases h

theorem truncDirect_core (l : List Nat) : ∀ {s : State} {u : Unit},
    truncDirect i l s = .ok (u, t) → core t = core s := by
  induction l with
  | nil =>
    intro s u h
    cases h
    rfl
  | cons j l ih =>
    intro s u h
    unfold truncDirect at h
    rw [get_bind] at h
    split at h
    · exact ih h
    · obtain ⟨v, s1, h1, h⟩ := code_bind.mp h
      rw [modify_bind] at h
      rw [ih h, core_setDin, bfree_core h1]

theorem truncIndirect_core {x : Block} (l : List Nat) : ∀ {s : State} {u : Unit},
    truncIndirect x l s = .ok (u, t) → core t = core s := by
  induction l with
  | nil =>
    intro s u h
    cases h
    rfl
  | cons j l ih =>
    intro s u h
    unfold truncIndirect at h
    split at h
    · exact ih h
    · obtain ⟨v, s1, h1, h⟩ := code_bind.mp h
      rw [ih h, bfree_core h1]

theorem itrunc_core {u : Unit} (h : itrunc i s = .ok (u, t)) : core t = core s := by
  unfold itrunc at h
  obtain ⟨v, s1, h1, h⟩ := code_bind.mp h
  rw [get_bind] at h
  dsimp only at h
  split at h
  · rw [modify_bind] at h
    rw [iupdate_core h, core_setDin, truncDirect_core _ h1]
  · obtain ⟨x, s2, h2, h⟩ := code_bind.mp h
    obtain ⟨w, s3, h3, h⟩ := code_bind.mp h
    obtain ⟨z, s4, h4, h⟩ := code_bind.mp h
    obtain ⟨y, s5, h5, h⟩ := code_bind.mp h
    rw [modify_bind] at h
    rw [iupdate_core h, core_setDin, bfree_core h5, brelse_core h4, truncIndirect_core _ h3,
      bread_core h2, Core.drop_hold, truncDirect_core _ h1]

theorem ifree_core {u : Unit} (h : ifree i s = .ok (u, t)) : core t = core s := by
  unfold ifree at h
  obtain ⟨v, s1, h1, h⟩ := code_bind.mp h
  rw [modify_bind] at h
  obtain ⟨w, s2, h2, h⟩ := code_bind.mp h
  cases h
  have hvalid : core (s2.setInode i { s2.icache i with valid := false }) = core s2 :=
    core_setInode_same rfl rfl
  rw [hvalid, iupdate_core h2, core_setDin, itrunc_core h1]

theorem idrop_core {u : Unit} (h : idrop i s = .ok (u, t)) : core t = (core s).bump i (-1) := by
  cases h
  exact core_addRef s i (-1)

theorem iput_core {u : Unit} (h : iput i s = .ok (u, t)) : core t = (core s).bump i (-1) := by
  unfold iput at h
  rw [get_bind] at h
  split at h
  · obtain ⟨v, s1, h1, h⟩ := code_bind.mp h
    rw [idrop_core h, ifree_core h1]
  · exact idrop_core h

theorem iunlockput_core {u : Unit} (h : iunlockput i s = .ok (u, t)) :
    (core s).locked i = true ∧ core t = ((core s).setLock i false).bump i (-1) := by
  unfold iunlockput at h
  obtain ⟨v, s1, h1, h⟩ := code_bind.mp h
  obtain ⟨hlock, hcore⟩ := iunlock_core h1
  exact ⟨hlock, by rw [iput_core h, hcore]⟩

/-! ### Reading and writing -/

/-- A lock that is given up and taken again. -/
theorem relock_core {s1 s2 s3 : State} {u v : Unit} (h1 : iunlock i s = .ok (u, s1))
    (h2 : ilock i s2 = .ok (v, s3)) (h3 : core s2 = core s1) : core s3 = core s := by
  obtain ⟨hlock, hcore⟩ := iunlock_core h1
  rw [(ilock_core h2).2, h3, hcore, Core.setLock_setLock, Core.setLock_self hlock]

theorem consoleread_core {n : Nat} {r : Option (List UInt8)} (h : consoleread i n s = .ok (r, t)) :
    core t = core s := by
  unfold consoleread at h
  obtain ⟨v, s1, h1, h⟩ := code_bind.mp h
  rw [get_bind] at h
  generalize consoleTake _ _ s1.input = c at h
  obtain ⟨o, l⟩ := c
  cases o with
  | some r =>
    dsimp only at h
    rw [modify_bind] at h
    obtain ⟨w, s2, h2, h⟩ := code_bind.mp h
    cases h
    exact relock_core h1 h2 rfl
  | none =>
    dsimp only at h
    split at h
    · rw [modify_bind] at h
      obtain ⟨w, s2, h2, h⟩ := code_bind.mp h
      cases h
      exact relock_core h1 h2 rfl
    · cases h

theorem consolewrite_core {n : Nat} {r : Int} (h : consolewrite i n s = .ok (r, t)) :
    core t = core s := by
  unfold consolewrite at h
  obtain ⟨v, s1, h1, h⟩ := code_bind.mp h
  obtain ⟨w, s2, h2, h⟩ := code_bind.mp h
  cases h
  exact relock_core h1 h2 rfl

theorem readLoop_core (k : Nat) : ∀ {off n : Nat} {s : State} {r : List UInt8},
    readLoop i k off n s = .ok (r, t) → core t = core s := by
  induction k with
  | zero =>
    intro off n s r h
    cases h
    rfl
  | succ k ih =>
    intro off n s r h
    unfold readLoop at h
    split at h
    · cases h
      rfl
    · obtain ⟨b, s1, h1, h⟩ := code_bind.mp h
      obtain ⟨x, s2, h2, h⟩ := code_bind.mp h
      obtain ⟨v, s3, h3, h⟩ := code_bind.mp h
      obtain ⟨l, s4, h4, h⟩ := code_bind.mp h
      cases h
      rw [ih h4, brelse_core h3, bread_core h2, Core.drop_hold, bmap_core h1]

theorem readi_core {off n : Nat} {r : Option (List UInt8)} (h : readi i off n s = .ok (r, t)) :
    core t = core s := by
  unfold readi at h
  rw [get_bind] at h
  dsimp only at h
  split at h
  · split at h
    · cases h
      rfl
    · exact consoleread_core h
  · split at h
    · cases h
      rfl
    · obtain ⟨l, s1, h1, h⟩ := code_bind.mp h
      cases h
      exact readLoop_core _ h1

theorem writeLoop_core (k : Nat) : ∀ {off : Nat} {src : List UInt8} {s : State} {u : Unit},
    writeLoop i k off src s = .ok (u, t) → core t = core s := by
  induction k with
  | zero =>
    intro off src s u h
    cases h
    rfl
  | succ k ih =>
    intro off src s u h
    unfold writeLoop at h
    split at h
    · cases h
      rfl
    · obtain ⟨b, s1, h1, h⟩ := code_bind.mp h
      obtain ⟨x, s2, h2, h⟩ := code_bind.mp h
      obtain ⟨v, s3, h3, h⟩ := code_bind.mp h
      obtain ⟨w, s4, h4, h⟩ := code_bind.mp h
      rw [ih h, brelse_core h4, logWrite_core h3, bread_core h2, Core.drop_hold, bmap_core h1]

theorem growTo_core {off : Nat} {u : Unit} (h : growTo i off s = .ok (u, t)) : core t = core s := by
  unfold growTo at h
  rw [modify_bind] at h
  rw [iupdate_core h, core_setDin]

theorem writei_core {src : List UInt8} {off : Nat} {r : Int} (h : writei i src off s = .ok (r, t)) :
    core t = core s := by
  unfold writei at h
  rw [get_bind] at h
  split at h
  · split at h
    · cases h
      rfl
    · exact consolewrite_core h
  · split at h
    · cases h
      rfl
    · split at h
      · cases h
        rfl
      · obtain ⟨v, s1, h1, h⟩ := code_bind.mp h
        split at h
        · obtain ⟨w, s2, h2, h⟩ := code_bind.mp h
          cases h
          rw [growTo_core h2, writeLoop_core _ h1]
        · cases h
          exact writeLoop_core _ h1

/-! ### Directories and paths -/

theorem readDirent_core {e : Panic} {off : Nat} {de : Dirent} (h : readDirent e i off s = .ok (de, t)) :
    core t = core s := by
  unfold readDirent at h
  obtain ⟨r, s1, h1, h⟩ := code_bind.mp h
  cases r with
  | none => cases h
  | some l =>
    dsimp only at h
    split at h
    · cases h
      exact readi_core h1
    · cases h

/-- A reference to the inode that was found, if any. -/
def Core.found (c : Core) : Option Nat → Core
  | none => c
  | some j => c.bump j 1

theorem dirlookupLoop_core {name : Str} (l : List Nat) : ∀ {s : State} {r : Option (Nat × Nat)},
    dirlookupLoop i name l s = .ok (r, t) → core t = (core s).found (r.map Prod.fst) := by
  induction l with
  | nil =>
    intro s r h
    cases h
    rfl
  | cons off l ih =>
    intro s r h
    unfold dirlookupLoop at h
    obtain ⟨de, s1, h1, h⟩ := code_bind.mp h
    split at h
    · rw [ih h, readDirent_core h1]
    · split at h
      · obtain ⟨j, s2, h2, h⟩ := code_bind.mp h
        cases h
        rw [iget_core h2, readDirent_core h1]
        rfl
      · rw [ih h, readDirent_core h1]

theorem dirlookup_core {name : Str} {r : Option (Nat × Nat)} (h : dirlookup i name s = .ok (r, t)) :
    core t = (core s).found (r.map Prod.fst) := by
  unfold dirlookup at h
  rw [get_bind] at h
  split at h
  · cases h
  · exact dirlookupLoop_core _ h

theorem emptyDirent_core {last : Nat} (l : List Nat) : ∀ {s : State} {off : Nat},
    emptyDirent i last l s = .ok (off, t) → core t = core s := by
  induction l with
  | nil =>
    intro s off h
    cases h
    rfl
  | cons o l ih =>
    intro s off h
    unfold emptyDirent at h
    obtain ⟨de, s1, h1, h⟩ := code_bind.mp h
    split at h
    · cases h
      exact readDirent_core h1
    · rw [ih h, readDirent_core h1]

theorem dirlink_core {name : Str} {inum : Nat} {r : Int} (h : dirlink i name inum s = .ok (r, t)) :
    core t = core s := by
  unfold dirlink at h
  obtain ⟨o, s1, h1, h⟩ := code_bind.mp h
  have hlook := dirlookup_core h1
  cases o with
  | some p =>
    obtain ⟨ip, off⟩ := p
    obtain ⟨v, s2, h2, h⟩ := code_bind.mp h
    cases h
    rw [iput_core h2, hlook]
    change ((core s).bump ip 1).bump ip (-1) = core s
    simp
  | none =>
    dsimp only at h
    rw [get_bind] at h
    obtain ⟨off, s2, h2, h⟩ := code_bind.mp h
    obtain ⟨n, s3, h3, h⟩ := code_bind.mp h
    split at h
    · cases h
      rw [writei_core h3, emptyDirent_core _ h2, hlook]
      rfl
    · cases h

/-- `namex` trades the reference to where it is for one to what it finds. -/
theorem namexLoop_core {np : Bool} (k : Nat) :
    ∀ {ip : Nat} {path : List UInt8} {s : State} {r : Option (Nat × List UInt8)},
      namexLoop np k ip path s = .ok (r, t) →
        core t = ((core s).bump ip (-1)).found (r.map Prod.fst) := by
  have hend : ∀ {ip : Nat} {s : State} {r : Option (Nat × List UInt8)},
      (if np then do
          iput ip
          return none
        else return some (ip, [])) s = .ok (r, t) →
      core t = ((core s).bump ip (-1)).found (r.map Prod.fst) := by
    intro ip s r h
    split at h
    · obtain ⟨v, s1, h1, h⟩ := code_bind.mp h
      cases h
      exact iput_core h1
    · cases h
      change core t = ((core t).bump ip (-1)).bump ip 1
      simp
  induction k with
  | zero => exact hend
  | succ k ih =>
    intro ip path s r h
    unfold namexLoop at h
    cases hskip : skipelem path with
    | none =>
      rw [hskip] at h
      exact hend h
    | some p =>
      obtain ⟨name, rest⟩ := p
      rw [hskip] at h
      obtain ⟨v, s1, h1, h⟩ := code_bind.mp h
      obtain ⟨hlock, hcore⟩ := ilock_core h1
      rw [get_bind] at h
      split at h
      · obtain ⟨w, s2, h2, h⟩ := code_bind.mp h
        cases h
        rw [(iunlockput_core h2).2, hcore, Core.setLock_setLock, Core.setLock_self hlock]
        rfl
      · split at h
        · obtain ⟨w, s2, h2, h⟩ := code_bind.mp h
          cases h
          rw [(iunlock_core h2).2, hcore, Core.setLock_setLock, Core.setLock_self hlock]
          change core s = ((core s).bump ip (-1)).bump ip 1
          simp
        · obtain ⟨o, s2, h2, h⟩ := code_bind.mp h
          have hlook := dirlookup_core h2
          cases o with
          | none =>
            obtain ⟨w, s3, h3, h⟩ := code_bind.mp h
            cases h
            rw [(iunlockput_core h3).2, hlook]
            change ((core s1).setLock ip false).bump ip (-1) = (core s).bump ip (-1)
            rw [hcore, Core.setLock_setLock, Core.setLock_self hlock]
          | some q =>
            obtain ⟨next, off⟩ := q
            obtain ⟨w, s3, h3, h⟩ := code_bind.mp h
            rw [ih h, (iunlockput_core h3).2, hlook]
            change (((((core s1).bump next 1).setLock ip false).bump ip (-1)).bump next (-1)).found _ = _
            congr 1
            rw [hcore, Core.bump_comm _ ip next, Core.bump_setLock, Core.bump_bump]
            simp only [add_neg_cancel, Core.bump_zero]
            rw [Core.setLock_setLock, Core.setLock_self hlock]

theorem startInode_core {path : List UInt8} (h : startInode path s = .ok (i, t)) :
    core t = (core s).bump i 1 := by
  unfold startInode at h
  rw [get_bind] at h
  split at h
  · exact iget_core h
  · cases hcd : (s.procs s.proc).cdir with
    | none =>
      rw [hcd] at h
      cases h
    | some j =>
      rw [hcd] at h
      obtain ⟨rfl, hcore⟩ := idup_core h
      exact hcore

theorem namex_core {np : Bool} {path : List UInt8} {r : Option (Nat × List UInt8)}
    (h : namex np path s = .ok (r, t)) : core t = (core s).found (r.map Prod.fst) := by
  unfold namex at h
  obtain ⟨ip, s1, h1, h⟩ := code_bind.mp h
  rw [namexLoop_core _ h, startInode_core h1]
  simp

theorem namei_core {path : List UInt8} {r : Option Nat} (h : namei path s = .ok (r, t)) :
    core t = (core s).found r := by
  unfold namei at h
  obtain ⟨o, s1, h1, h⟩ := code_bind.mp h
  cases h
  exact namex_core h1

theorem nameiparent_core {path : List UInt8} {r : Option (Nat × List UInt8)}
    (h : nameiparent path s = .ok (r, t)) : core t = (core s).found (r.map Prod.fst) :=
  namex_core h

end Yonix.Fs
