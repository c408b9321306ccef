/-
  Yonix/Fs/Books.lean
  ===================
  **Reference counts against pointers.**

  The balance of an inode is its count less the open files and current directories that
  point to it; that of a file is its count less the descriptors.  An operation on the
  counts or on the pointers moves one balance, and over a whole call the moves cancel.
  This relies on `Tidy`: a file that is free has no type, as `fileclose` leaves it, and
  descriptors point into the file table.
-/
import Yonix.Fs.Release
import Mathlib.Data.Finset.Card
import Mathlib.Data.Finset.Prod
import Mathlib.Algebra.BigOperators.Group.Finset.Basic

namespace Yonix.Fs

/-! ### Pointers -/

/-- A predicate on a finite set changes at one element. -/
theorem card_filter_change {α : Type} [DecidableEq α] {S : Finset α} {x : α} (hx : x ∈ S)
    {P Q : α → Prop} [DecidablePred P] [DecidablePred Q] (h : ∀ y, y ≠ x → (Q y ↔ P y)) :
    ((S.filter Q).card : Int) =
      (S.filter P).card + (if Q x then 1 else 0) - (if P x then 1 else 0) := by
  have hrest : ∑ y ∈ S.erase x, (if Q y then (1 : Int) else 0) =
      ∑ y ∈ S.erase x, (if P y then (1 : Int) else 0) := by
    refine Finset.sum_congr rfl ?_
    intro y hy
    have hne := Finset.ne_of_mem_erase hy
    simp only [h y hne]
  have hQ : ((S.filter Q).card : Int) = ∑ y ∈ S, (if Q y then (1 : Int) else 0) := by
    rw [Finset.card_filter]
    push_cast
    rfl
  have hP : ((S.filter P).card : Int) = ∑ y ∈ S, (if P y then (1 : Int) else 0) := by
    rw [Finset.card_filter]
    push_cast
    rfl
  rw [hQ, hP, ← Finset.add_sum_erase S _ hx, ← Finset.add_sum_erase S _ hx, hrest]
  omega

namespace Core

/-- The open files and current directories that point to inode `i`. -/
def inodePtrs (c : Core) (i : Nat) : Nat :=
  ((Finset.range NFILE).filter fun f => (c.ftable f).type = .inode i).card +
    ((Finset.range NPROC).filter fun p => (c.procs p).cdir = some i).card

/-- The process slots with their descriptors. -/
@[irreducible]
def fdSlots : Finset (Nat × Nat) := Finset.range NPROC ×ˢ Finset.range NOFILE

theorem mem_fdSlots {p fd : Nat} : (p, fd) ∈ fdSlots ↔ p < NPROC ∧ fd < NOFILE := by
  unfold fdSlots
  rw [Finset.mem_product, Finset.mem_range, Finset.mem_range]

/-- The descriptors, over all processes, that point to file `f`. -/
def fdPtrs (c : Core) (f : Nat) : Nat :=
  (fdSlots.filter fun x => (c.procs x.1).ofile x.2 = some f).card

def inodeBal (c : Core) (i : Nat) : Int := c.ref i - c.inodePtrs i

def fileBal (c : Core) (f : Nat) : Int := (c.ftable f).ref - c.fdPtrs f

structure Tidy (c : Core) : Prop where
  proc : c.proc < NPROC
  free : ∀ f, (c.ftable f).ref = 0 → (c.ftable f).type = .none
  fds : ∀ p fd f, (c.procs p).ofile fd = some f → f < NFILE

/-- The buffers, transactions and locks are the same, and so are the balances of the
    inodes; those of the files are `b` more. -/
structure Shift (c d : Core) (b : Nat → Int) : Prop where
  held : d.held = c.held
  outstanding : d.outstanding = c.outstanding
  locked : d.locked = c.locked
  proc : d.proc = c.proc
  inode : ∀ i, d.inodeBal i = c.inodeBal i
  file : ∀ f, d.fileBal f = c.fileBal f + b f

/-- One more for file `f`. -/
def unit (f : Nat) : Nat → Int := fun g => if g = f then 1 else 0

variable {c d e : Core}

theorem Shift.trans {a b : Nat → Int} (h1 : Shift c d a) (h2 : Shift d e b) : Shift c e (a + b) := by
  refine ⟨h2.held.trans h1.held, h2.outstanding.trans h1.outstanding, h2.locked.trans h1.locked,
    h2.proc.trans h1.proc, fun i => (h2.inode i).trans (h1.inode i), ?_⟩
  intro f
  rw [h2.file f, h1.file f, Pi.add_apply]
  omega

theorem Shift.congr {a b : Nat → Int} (h : Shift c d a) (hab : a = b) : Shift c d b := hab ▸ h

/-! ### How the balances move -/

theorem inodeBal_bump (c : Core) (j i : Nat) (n : Int) :
    (c.bump j n).inodeBal i = c.inodeBal i + if i = j then n else 0 := by
  have hptrs : (c.bump j n).inodePtrs i = c.inodePtrs i := rfl
  unfold inodeBal
  rw [hptrs]
  change Function.update c.ref j (c.ref j + n) i - _ = _
  rw [Function.update_apply]
  split
  · rename_i h
    subst h
    omega
  · omega

theorem fileBal_bump (c : Core) (j f : Nat) (n : Int) : (c.bump j n).fileBal f = c.fileBal f := rfl

/-- 1 if the file is open on inode `i`. -/
def opens (x : File) (i : Nat) : Int := if x.type = .inode i then 1 else 0

theorem inodeBal_setFile (c : Core) {f : Nat} (hf : f < NFILE) (x : File) (i : Nat) :
    (c.setFile f x).inodeBal i = c.inodeBal i - opens x i + opens (c.ftable f) i := by
  have hcount := card_filter_change (S := Finset.range NFILE) (x := f) (Finset.mem_range.mpr hf)
    (P := fun g => (c.ftable g).type = .inode i)
    (Q := fun g => ((c.setFile f x).ftable g).type = .inode i) (by
      intro g hg
      change (Function.update c.ftable f x g).type = .inode i ↔ _
      rw [Function.update_of_ne hg])
  have hself : (c.setFile f x).ftable f = x := Function.update_self _ _ _
  rw [hself] at hcount
  unfold inodeBal inodePtrs opens
  change c.ref i - ((_ + ((Finset.range NPROC).filter fun p => (c.procs p).cdir = some i).card : Nat) : Int)
    = _
  push_cast
  rw [hcount]
  omega

theorem fileBal_setFile (c : Core) (f : Nat) (x : File) (g : Nat) :
    (c.setFile f x).fileBal g = c.fileBal g + if g = f then x.ref - (c.ftable f).ref else 0 := by
  have hptrs : (c.setFile f x).fdPtrs g = c.fdPtrs g := rfl
  unfold fileBal
  rw [hptrs]
  change (Function.update c.ftable f x g).ref - _ = _
  rw [Function.update_apply]
  split
  · rename_i h
    subst h
    omega
  · omega

/-- 1 if the descriptor is file `f`. -/
def isFd (x : Option Nat) (f : Nat) : Int := if x = some f then 1 else 0

theorem inodeBal_setFd (c : Core) (fd : Nat) (x : Option Nat) (i : Nat) :
    (c.setFd fd x).inodeBal i = c.inodeBal i := by
  have hcdir : ∀ p, ((c.setFd fd x).procs p).cdir = (c.procs p).cdir := by
    intro p
    change (Function.update c.procs c.proc _ p).cdir = _
    rw [Function.update_apply]
    split
    · rename_i h
      rw [h]
    · rfl
  unfold inodeBal inodePtrs
  simp only [hcdir]
  rfl

/-- The pairs of a set that are descriptors of file `g`. -/
theorem card_setFd (c : Core) {S : Finset (Nat × Nat)} {fd : Nat} (hmem : (c.proc, fd) ∈ S)
    (x : Option Nat) (g : Nat) :
    ((S.filter fun y => ((c.setFd fd x).procs y.1).ofile y.2 = some g).card : Int) =
      (S.filter fun y => (c.procs y.1).ofile y.2 = some g).card + isFd x g -
        isFd ((c.procs c.proc).ofile fd) g := by
  have hcount := card_filter_change hmem
    (P := fun y => (c.procs y.1).ofile y.2 = some g)
    (Q := fun y => ((c.setFd fd x).procs y.1).ofile y.2 = some g) (by
      rintro ⟨p, k⟩ hne
      change (Function.update c.procs c.proc _ p).ofile k = some g ↔ _
      rw [Function.update_apply]
      split
      · rename_i h
        subst h
        have hk : k ≠ fd := fun h => hne (by rw [h])
        change Function.update (c.procs c.proc).ofile fd x k = some g ↔ _
        rw [Function.update_of_ne hk]
      · rfl)
  have hself : ((c.setFd fd x).procs c.proc).ofile fd = x := by
    change (Function.update c.procs c.proc _ c.proc).ofile fd = x
    rw [Function.update_self]
    exact Function.update_self _ _ _
  rw [hself] at hcount
  exact hcount

theorem fileBal_setFd (c : Core) (hp : c.proc < NPROC) {fd : Nat} (hfd : fd < NOFILE)
    (x : Option Nat) (g : Nat) :
    (c.setFd fd x).fileBal g =
      c.fileBal g - isFd x g + isFd ((c.procs c.proc).ofile fd) g := by
  have hcount := card_setFd c (mem_fdSlots.mpr ⟨hp, hfd⟩) x g
  unfold fileBal fdPtrs
  rw [hcount]
  have href : ((c.setFd fd x).ftable g).ref = (c.ftable g).ref := rfl
  rw [href]
  omega

theorem fileBal_setCdir (c : Core) (j f : Nat) : (c.setCdir j).fileBal f = c.fileBal f := by
  have hofile : ∀ p, ((c.setCdir j).procs p).ofile = (c.procs p).ofile := by
    intro p
    change (Function.update c.procs c.proc _ p).ofile = _
    rw [Function.update_apply]
    split
    · rename_i h
      rw [h]
    · rfl
  unfold fileBal fdPtrs
  simp only [hofile]
  rfl

theorem inodeBal_setCdir (c : Core) (hp : c.proc < NPROC) (j i : Nat) :
    (c.setCdir j).inodeBal i =
      c.inodeBal i - isFd (some j) i + isFd (c.procs c.proc).cdir i := by
  have hcount := card_filter_change (S := Finset.range NPROC) (x := c.proc) (Finset.mem_range.mpr hp)
    (P := fun p => (c.procs p).cdir = some i)
    (Q := fun p => ((c.setCdir j).procs p).cdir = some i) (by
      intro p hne
      change (Function.update c.procs c.proc _ p).cdir = some i ↔ _
      rw [Function.update_of_ne hne])
  have hself : ((c.setCdir j).procs c.proc).cdir = some j := by
    change (Function.update c.procs c.proc _ c.proc).cdir = some j
    rw [Function.update_self]
  rw [hself] at hcount
  unfold inodeBal inodePtrs isFd
  push_cast
  rw [hcount]
  change c.ref i - ((((Finset.range NFILE).filter fun f => (c.ftable f).type = .inode i).card : Int) + _)
    = _
  omega

/-! ### Closing a file -/

/-- What `pipeclose` does not touch. -/
theorem closePipe_frame (c : Core) (q : Nat) (w : Bool) : ∃ pipe freed,
    c.closePipe q w = { c with pipe := pipe, freed := freed } := by
  unfold closePipe endPipe
  split
  · split
    · exact ⟨_, _, rfl⟩
    · exact ⟨_, _, rfl⟩
  · split
    · exact ⟨_, _, rfl⟩
    · exact ⟨_, _, rfl⟩

/-- The file after `fileclose`. -/
def closed (x : File) : File :=
  if 0 < x.ref - 1 then { x with ref := x.ref - 1 } else { x with ref := 0, type := .none }

/-- `fileclose` changes the file, pipes and, for the last descriptor of an inode, its
    count. -/
theorem close_eq (c : Core) (f : Nat) : ∃ pipe freed,
    ((∀ i, (c.ftable f).type ≠ .inode i) ∨ 0 < (c.ftable f).ref - 1) ∧
        c.close f = { c.setFile f (closed (c.ftable f)) with pipe := pipe, freed := freed } ∨
      ∃ i, (c.ftable f).type = .inode i ∧ ¬ 0 < (c.ftable f).ref - 1 ∧
        c.close f = (c.setFile f (closed (c.ftable f))).bump i (-1) := by
  unfold closed
  by_cases h : 0 < (c.ftable f).ref - 1
  · refine ⟨c.pipe, c.freed, Or.inl ⟨Or.inr h, ?_⟩⟩
    rw [close_shared h, if_pos h]
    rfl
  · rw [if_neg h]
    cases ht : (c.ftable f).type with
    | none =>
      refine ⟨c.pipe, c.freed, Or.inl ⟨Or.inl (by simp), ?_⟩⟩
      rw [close_none h ht]
      rfl
    | inode i =>
      exact ⟨c.pipe, c.freed, Or.inr ⟨i, rfl, h, close_inode h ht⟩⟩
    | pipe q =>
      obtain ⟨pipe, freed, heq⟩ := closePipe_frame
        (c.setFile f { c.ftable f with ref := 0, type := .none }) q (c.ftable f).writable
      refine ⟨pipe, freed, Or.inl ⟨Or.inl (by simp), ?_⟩⟩
      rw [close_pipe h ht, heq]

theorem opens_closed_of_ne {x : File} {i : Nat} (h : x.type ≠ .inode i ∨ 0 < x.ref - 1) :
    opens (closed x) i = opens x i := by
  unfold opens closed
  split
  · rfl
  · rename_i href
    rcases h with h | h
    · simp [h]
    · exact (href h).elim

theorem inodeBal_close (c : Core) {f : Nat} (hf : f < NFILE) (i : Nat) :
    (c.close f).inodeBal i = c.inodeBal i := by
  obtain ⟨pipe, freed, ⟨hcase, heq⟩ | ⟨j, ht, href, heq⟩⟩ := c.close_eq f
  · have hbal : (c.close f).inodeBal i = (c.setFile f (closed (c.ftable f))).inodeBal i := by
      rw [heq]
      rfl
    rw [hbal, inodeBal_setFile c hf, opens_closed_of_ne]
    · omega
    · rcases hcase with hcase | hcase
      · exact Or.inl (hcase i)
      · exact Or.inr hcase
  · rw [heq, inodeBal_bump, inodeBal_setFile c hf]
    have hclosed : opens (closed (c.ftable f)) i = 0 := by
      unfold opens closed
      rw [if_neg href]
      rfl
    have hopens : opens (c.ftable f) i = if i = j then 1 else 0 := by
      unfold opens
      rw [ht]
      by_cases h : i = j
      · subst h
        simp
      · rw [if_neg h, if_neg (fun hc => h (FileType.inode.inj hc).symm)]
    rw [hclosed, hopens]
    split <;> omega

theorem fileBal_close (c : Core) {f : Nat} (href : 1 ≤ (c.ftable f).ref) (g : Nat) :
    (c.close f).fileBal g = c.fileBal g - if g = f then 1 else 0 := by
  have hclosed : (closed (c.ftable f)).ref = (c.ftable f).ref - 1 := by
    unfold closed
    split
    · rfl
    · change (0 : Int) = _
      omega
  have hset : (c.close f).fileBal g = (c.setFile f (closed (c.ftable f))).fileBal g := by
    obtain ⟨pipe, freed, ⟨-, heq⟩ | ⟨j, -, -, heq⟩⟩ := c.close_eq f
    · rw [heq]
      rfl
    · rw [heq]
      rfl
  rw [hset, fileBal_setFile, hclosed]
  split <;> omega

theorem close_held (c : Core) (f : Nat) : (c.close f).held = c.held := by
  obtain ⟨pipe, freed, ⟨-, heq⟩ | ⟨j, -, -, heq⟩⟩ := c.close_eq f
  · rw [heq]
    rfl
  · rw [heq]
    rfl

theorem close_outstanding (c : Core) (f : Nat) : (c.close f).outstanding = c.outstanding := by
  obtain ⟨pipe, freed, ⟨-, heq⟩ | ⟨j, -, -, heq⟩⟩ := c.close_eq f
  · rw [heq]
    rfl
  · rw [heq]
    rfl

/-- The file table and the processes after `fileclose`. -/
theorem close_tables (c : Core) (f : Nat) :
    (c.close f).ftable = Function.update c.ftable f (closed (c.ftable f)) ∧
      (c.close f).procs = c.procs ∧ (c.close f).proc = c.proc := by
  obtain ⟨pipe, freed, ⟨-, heq⟩ | ⟨j, -, -, heq⟩⟩ := c.close_eq f
  · rw [heq]
    exact ⟨rfl, rfl, rfl⟩
  · rw [heq]
    exact ⟨rfl, rfl, rfl⟩

/-! ### Tidiness -/

theorem Tidy.setFile (h : Tidy c) {f : Nat} {x : File} (hx : x.ref = 0 → x.type = .none) :
    Tidy (c.setFile f x) := by
  refine ⟨h.proc, ?_, h.fds⟩
  intro g
  change (Function.update c.ftable f x g).ref = 0 → (Function.update c.ftable f x g).type = .none
  rw [Function.update_apply]
  split
  · exact hx
  · exact h.free g

theorem Tidy.setFd (h : Tidy c) {fd : Nat} {x : Option Nat} (hx : ∀ f, x = some f → f < NFILE) :
    Tidy (c.setFd fd x) := by
  refine ⟨h.proc, h.free, ?_⟩
  intro p k f
  change (Function.update c.procs c.proc _ p).ofile k = some f → _
  rw [Function.update_apply]
  split
  · change Function.update (c.procs c.proc).ofile fd x k = some f → _
    rw [Function.update_apply]
    split
    · exact hx f
    · exact h.fds c.proc k f
  · exact h.fds p k f

theorem Tidy.setCdir (h : Tidy c) (i : Nat) : Tidy (c.setCdir i) := by
  refine ⟨h.proc, h.free, ?_⟩
  intro p k f
  change (Function.update c.procs c.proc _ p).ofile k = some f → _
  rw [Function.update_apply]
  split
  · exact h.fds c.proc k f
  · exact h.fds p k f

theorem Tidy.bump (h : Tidy c) (i : Nat) (n : Int) : Tidy (c.bump i n) := ⟨h.proc, h.free, h.fds⟩

theorem Tidy.close (h : Tidy c) (f : Nat) : Tidy (c.close f) := by
  obtain ⟨hft, hprocs, hproc⟩ := c.close_tables f
  have hset : Tidy (c.setFile f (closed (c.ftable f))) := by
    refine h.setFile ?_
    unfold closed
    split
    · intro hzero
      change (c.ftable f).ref - 1 = 0 at hzero
      omega
    · exact fun _ => rfl
  refine ⟨?_, ?_, ?_⟩
  · rw [hproc]
    exact h.proc
  · rw [hft]
    exact hset.free
  · rw [hprocs]
    exact h.fds

theorem Tidy.allocFile (h : Tidy c) (f : Nat) : Tidy (c.allocFile f) :=
  h.setFile fun hz => absurd hz one_ne_zero

/-! ### Shifts -/

variable {f fd : Nat}

theorem shift_setFile (c : Core) (hf : f < NFILE) (x : File) (n : Int)
    (hx : ∀ i, opens x i = opens (c.ftable f) i) (href : x.ref = (c.ftable f).ref + n) :
    Shift c (c.setFile f x) (n • unit f) := by
  refine ⟨rfl, rfl, rfl, rfl, ?_, ?_⟩
  · intro i
    rw [inodeBal_setFile c hf, hx i]
    omega
  · intro g
    rw [fileBal_setFile, href]
    change _ = c.fileBal g + n * (if g = f then 1 else 0)
    split
    · rw [mul_one]
      omega
    · rw [mul_zero]

theorem shift_allocFile (h : c.FreeFile f) : Shift c (c.allocFile f) (unit f) := by
  obtain ⟨hf, href⟩ := h
  have hshift := shift_setFile c hf { c.ftable f with ref := 1 } 1 (fun _ => rfl)
    (by rw [href, zero_add])
  exact hshift.congr (one_smul _ _)

theorem shift_dupFile (hf : f < NFILE) : Shift c (c.dupFile f) (unit f) := by
  have hshift := shift_setFile c hf { c.ftable f with ref := (c.ftable f).ref + 1 } 1 (fun _ => rfl) rfl
  exact hshift.congr (one_smul _ _)

theorem shift_close (hf : f < NFILE) (href : 1 ≤ (c.ftable f).ref) : Shift c (c.close f) (-unit f) := by
  refine ⟨close_held c f, close_outstanding c f, locked_close c f, (close_tables c f).2.2,
    inodeBal_close c hf, ?_⟩
  intro g
  rw [fileBal_close c href]
  rfl

theorem shift_setFd_some (hp : c.proc < NPROC) (h : c.Fd fd none) :
    Shift c (c.setFd fd (some f)) (-unit f) := by
  refine ⟨rfl, rfl, rfl, rfl, inodeBal_setFd c fd _, ?_⟩
  intro g
  rw [fileBal_setFd c hp h.1, h.2]
  unfold isFd unit
  change _ = _ + -(if g = f then (1 : Int) else 0)
  by_cases hg : g = f
  · subst hg
    rw [if_pos rfl, if_pos rfl, if_neg (by simp)]
    omega
  · rw [if_neg (fun hc => hg (Option.some.inj hc).symm), if_neg hg]
    simp

theorem shift_setFd_none (hp : c.proc < NPROC) (h : c.Fd fd (some f)) :
    Shift c (c.setFd fd none) (unit f) := by
  refine ⟨rfl, rfl, rfl, rfl, inodeBal_setFd c fd _, ?_⟩
  intro g
  rw [fileBal_setFd c hp h.1, h.2]
  unfold isFd unit
  by_cases hg : g = f
  · subst hg
    simp
  · rw [if_neg (fun hc => hg (Option.some.inj hc).symm), if_neg hg]
    simp

theorem Tidy.opens_free (h : Tidy c) (hf : c.FreeFile f) (i : Nat) : opens (c.ftable f) i = 0 := by
  unfold opens
  rw [h.free f hf.2]
  rfl

/-- A new pipe changes no balance. -/
theorem shift_setEnds {q f0 f1 : Nat} (h0 : f0 < NFILE) (h1 : f1 < NFILE)
    (ht0 : ∀ i, opens (c.ftable f0) i = 0) (ht1 : ∀ i, opens (c.ftable f1) i = 0) :
    Shift c (c.setEnds q f0 f1) 0 := by
  obtain ⟨d, hd⟩ : ∃ d, d = { c.setPipe q ⟨[], true, true⟩ with taken := q :: c.taken } := ⟨_, rfl⟩
  have hpipe : Shift c d 0 := by
    rw [hd]
    exact ⟨rfl, rfl, rfl, rfl, fun _ => rfl, fun _ => (add_zero _).symm⟩
  have hft : d.ftable = c.ftable := by
    rw [hd]
    rfl
  have hread := shift_setFile d h0
    { d.ftable f0 with type := .pipe q, readable := true, writable := false } 0
    (fun i => by rw [hft, ht0 i]; rfl) (add_zero _).symm
  obtain ⟨e, he⟩ : ∃ e, e = d.setFile f0
    { d.ftable f0 with type := .pipe q, readable := true, writable := false } := ⟨_, rfl⟩
  have ht1' : ∀ i, opens (e.ftable f1) i = 0 := by
    intro i
    rw [he]
    change opens (Function.update d.ftable f0 _ f1) i = 0
    rw [Function.update_apply, hft]
    split
    · rfl
    · exact ht1 i
  have hwrite := shift_setFile e h1
    { e.ftable f1 with type := .pipe q, readable := false, writable := true } 0
    (fun i => by rw [ht1' i]; rfl) (add_zero _).symm
  rw [← he] at hread
  have hends : c.setEnds q f0 f1 = e.setFile f1
      { e.ftable f1 with type := .pipe q, readable := false, writable := true } := by
    rw [he, hd]
    rfl
  rw [hends]
  refine (hpipe.trans (hread.trans hwrite)).congr ?_
  simp

/-! ### Calls -/

theorem allocFile_ref (c : Core) (f : Nat) : ((c.allocFile f).ftable f).ref = 1 := by
  change (Function.update c.ftable f _ f).ref = 1
  rw [Function.update_self]

theorem allocFile_of_ne (c : Core) {f g : Nat} (h : g ≠ f) : (c.allocFile f).ftable g = c.ftable g :=
  Function.update_of_ne h _ _

/-- The second file that `pipealloc` gets is another one. -/
theorem FreeFile.ne {f0 f1 : Nat} (h : (c.allocFile f0).FreeFile f1) : f1 ≠ f0 := by
  intro heq
  have := h.2
  rw [heq, allocFile_ref] at this
  cases this

theorem setEnds_ref {q f0 f1 : Nat} (g : Nat) : ((c.setEnds q f0 f1).ftable g).ref = (c.ftable g).ref := by
  unfold Core.setEnds Core.setFile
  dsimp only
  rw [Function.update_apply]
  split
  · rename_i h
    subst h
    change (Function.update c.ftable f0 _ g).ref = _
    rw [Function.update_apply]
    split
    · rename_i h
      rw [h]
      rfl
    · rfl
  · rw [Function.update_apply]
    split
    · rename_i h
      rw [h]
      rfl
    · rfl

theorem Tidy.setEnds (h : Tidy c) {q f0 f1 : Nat} (h0 : (c.ftable f0).ref ≠ 0)
    (h1 : (c.ftable f1).ref ≠ 0) : Tidy (c.setEnds q f0 f1) := by
  refine ⟨h.proc, ?_, h.fds⟩
  intro g hg
  rw [setEnds_ref] at hg
  have hne0 : g ≠ f0 := fun heq => h0 (heq ▸ hg)
  have hne1 : g ≠ f1 := fun heq => h1 (heq ▸ hg)
  unfold Core.setEnds Core.setFile
  dsimp only
  rw [Function.update_of_ne hne1, Function.update_of_ne hne0]
  exact h.free g hg

theorem allocFile_type (c : Core) (f g : Nat) :
    ((c.allocFile f).ftable g).type = (c.ftable g).type := by
  by_cases h : g = f
  · subst h
    change (Function.update c.ftable g _ g).type = _
    rw [Function.update_self]
  · rw [allocFile_of_ne c h]

theorem close_of_ne (c : Core) {f g : Nat} (h : g ≠ f) : (c.close f).ftable g = c.ftable g := by
  rw [(close_tables c f).1, Function.update_of_ne h]

/-- Both files of `pipealloc` are closed again. -/
theorem close_both {f0 f1 : Nat} (hT : Tidy c) (h0 : f0 < NFILE) (h1 : f1 < NFILE) (hne : f1 ≠ f0)
    (hr0 : (c.ftable f0).ref = 1) (hr1 : (c.ftable f1).ref = 1) :
    Shift c ((c.close f0).close f1) (-unit f0 + -unit f1) ∧ Tidy ((c.close f0).close f1) := by
  have hr1' : 1 ≤ ((c.close f0).ftable f1).ref := by
    rw [close_of_ne c hne, hr1]
  refine ⟨?_, (hT.close f0).close f1⟩
  exact (shift_close h0 (by rw [hr0])).trans (shift_close h1 hr1')

/-- The two files that `pipealloc` gets. -/
theorem alloc_both {f0 f1 : Nat} (hT : Tidy c) (h0 : c.FreeFile f0)
    (h1 : (c.allocFile f0).FreeFile f1) :
    Shift c ((c.allocFile f0).allocFile f1) (unit f0 + unit f1) ∧
      Tidy ((c.allocFile f0).allocFile f1) ∧
      (((c.allocFile f0).allocFile f1).ftable f0).ref = 1 ∧
      (((c.allocFile f0).allocFile f1).ftable f1).ref = 1 := by
  refine ⟨(shift_allocFile h0).trans (shift_allocFile h1), (hT.allocFile f0).allocFile f1, ?_,
    allocFile_ref _ f1⟩
  rw [allocFile_of_ne _ (FreeFile.ne h1).symm, allocFile_ref]

/-- The two ends of a new pipe. -/
theorem setEnds_both {q f0 f1 : Nat} (hT : Tidy c) (h0 : c.FreeFile f0)
    (h1 : (c.allocFile f0).FreeFile f1) :
    Shift c (((c.allocFile f0).allocFile f1).setEnds q f0 f1) (unit f0 + unit f1) ∧
      Tidy (((c.allocFile f0).allocFile f1).setEnds q f0 f1) := by
  obtain ⟨hshift, htidy, hr0, hr1⟩ := alloc_both hT h0 h1
  have hfree1 : c.FreeFile f1 := by
    refine ⟨h1.1, ?_⟩
    rw [← allocFile_of_ne c (FreeFile.ne h1)]
    exact h1.2
  have hopens : ∀ g i, opens (((c.allocFile f0).allocFile f1).ftable g) i = opens (c.ftable g) i := by
    intro g i
    unfold opens
    rw [allocFile_type, allocFile_type]
  have hends : Shift _ (((c.allocFile f0).allocFile f1).setEnds q f0 f1) 0 :=
    shift_setEnds h0.1 h1.1 (fun i => by rw [hopens, hT.opens_free h0])
      (fun i => by rw [hopens, hT.opens_free hfree1])
  refine ⟨(hshift.trans hends).congr (add_zero _), htidy.setEnds ?_ ?_⟩
  · rw [hr0]
    decide
  · rw [hr1]
    decide

/-- The offset of a file is not looked at. -/
theorem shift_offset (c : Core) (f off : Nat) :
    Shift c (c.setFile f { c.ftable f with off := off }) 0 := by
  obtain ⟨d, hd⟩ : ∃ d, d = c.setFile f { c.ftable f with off := off } := ⟨_, rfl⟩
  have hfile : ∀ g, (d.ftable g).type = (c.ftable g).type ∧ (d.ftable g).ref = (c.ftable g).ref := by
    intro g
    rw [hd]
    change (Function.update c.ftable f _ g).type = _ ∧ (Function.update c.ftable f _ g).ref = _
    rw [Function.update_apply]
    split
    · rename_i h
      rw [h]
      exact ⟨rfl, rfl⟩
    · exact ⟨rfl, rfl⟩
  rw [← hd]
  refine ⟨by rw [hd]; rfl, by rw [hd]; rfl, by rw [hd]; rfl, by rw [hd]; rfl, ?_, ?_⟩
  · intro i
    unfold inodeBal inodePtrs
    simp only [fun g => (hfile g).1]
    rw [hd]
    rfl
  · intro g
    unfold fileBal fdPtrs
    rw [(hfile g).2, hd]
    exact (add_zero _).symm

/-- A descriptor set in a state with the same processes. -/
theorem Fd.of_procs {x : Option Nat} (h : c.Fd fd x) (hprocs : d.procs = c.procs)
    (hproc : d.proc = c.proc) : d.Fd fd x := by
  refine ⟨h.1, ?_⟩
  rw [hprocs, hproc]
  exact h.2

theorem fd_setFd (c : Core) (hfd : fd < NOFILE) (x : Option Nat) : (c.setFd fd x).Fd fd x := by
  refine ⟨hfd, ?_⟩
  change (Function.update c.procs c.proc _ c.proc).ofile fd = x
  rw [Function.update_self]
  exact Function.update_self _ _ _

end Core

open Yonix.Fs.Core in
/-- Over a call the balances stay. -/
theorem Effect.shift {page : Option Nat} {c d : Core} (h : Effect page c d) (hT : Tidy c) :
    Shift c d 0 ∧ Tidy d := by
  cases h with
  | same => exact ⟨⟨rfl, rfl, rfl, rfl, fun _ => rfl, fun _ => (add_zero _).symm⟩, hT⟩
  | @dup fd f k hfd hk href =>
    have hf : f < NFILE := hT.fds _ _ _ hfd.2
    have htidy : Tidy (c.setFd k (some f)) := hT.setFd fun g hg => by cases hg; exact hf
    refine ⟨((shift_setFd_some hT.proc hk).trans (shift_dupFile hf)).congr (neg_add_cancel _), ?_⟩
    refine htidy.setFile fun hz => ?_
    change (c.ftable f).ref + 1 = 0 at hz
    omega
  | @close fd f hfd href =>
    have hf : f < NFILE := hT.fds _ _ _ hfd.2
    have htidy : Tidy (c.setFd fd none) := hT.setFd fun g hg => nomatch hg
    exact ⟨((shift_setFd_none hT.proc hfd).trans (shift_close hf href)).congr (add_neg_cancel _),
      htidy.close f⟩
  | @offset f off => exact ⟨shift_offset c f off, hT.setFile fun hz => hT.free f hz⟩
  | @data q data => exact ⟨⟨rfl, rfl, rfl, rfl, fun _ => rfl, fun _ => (add_zero _).symm⟩,
      ⟨hT.proc, hT.free, hT.fds⟩⟩
  | @chdir i j hcd =>
    refine ⟨⟨rfl, rfl, rfl, rfl, ?_, ?_⟩, ((hT.bump i 1).bump j (-1)).setCdir i⟩
    · intro k
      rw [inodeBal_setCdir ((c.bump i 1).bump j (-1)) hT.proc, inodeBal_bump, inodeBal_bump]
      change _ - isFd (some i) k + isFd (c.procs c.proc).cdir k = _
      rw [hcd]
      unfold isFd
      simp only [Option.some.injEq, eq_comm]
      split <;> split <;> omega
    · intro f
      rw [fileBal_setCdir]
      exact (add_zero _).symm
  | @noFd f hfree =>
    refine ⟨?_, (hT.allocFile f).close f⟩
    exact ((shift_allocFile hfree).trans (shift_close hfree.1 (by rw [allocFile_ref]))).congr
      (add_neg_cancel _)
  | @opened f fd i readable writable hfree hfd =>
    obtain ⟨e, he⟩ : ∃ e, e = ((c.allocFile f).setFd fd (some f)).bump i 1 := ⟨_, rfl⟩
    have hfd' : (c.allocFile f).Fd fd none := hfd.of_procs rfl rfl
    have hshift : Shift c ((c.allocFile f).setFd fd (some f)) 0 :=
      ((shift_allocFile hfree).trans (shift_setFd_some hT.proc hfd')).congr (add_neg_cancel _)
    have htidy : Tidy e := by
      rw [he]
      exact ((hT.allocFile f).setFd fun g hg => by cases hg; exact hfree.1).bump i 1
    have hold : e.ftable f = (c.allocFile f).ftable f := by
      rw [he]
      rfl
    have href : ((c.allocFile f).ftable f).ref = 1 := allocFile_ref c f
    have htype : ∀ k, opens (e.ftable f) k = 0 := by
      intro k
      unfold opens
      rw [hold, allocFile_type, hT.free f hfree.2]
      rfl
    rw [← he]
    refine ⟨⟨?_, ?_, ?_, ?_, ?_, ?_⟩, htidy.setFile fun hz => ?_⟩
    · rw [he]
      exact hshift.held
    · rw [he]
      exact hshift.outstanding
    · rw [he]
      exact hshift.locked
    · rw [he]
      exact hshift.proc
    · intro k
      rw [inodeBal_setFile e hfree.1, htype, he, inodeBal_bump, hshift.inode]
      unfold opens
      simp only [FileType.inode.injEq, eq_comm]
      split <;> omega
    · intro g
      rw [fileBal_setFile, hold, he, fileBal_bump, hshift.file]
      change _ + (if g = f then ((c.allocFile f).ftable f).ref - ((c.allocFile f).ftable f).ref else 0) = _
      simp
    · change ((c.allocFile f).ftable f).ref = 0 at hz
      rw [href] at hz
      cases hz
  | @noPage f0 f1 h0 h1 =>
    obtain ⟨hshift, htidy, hr0, hr1⟩ := alloc_both hT h0 h1
    obtain ⟨hshift', htidy'⟩ := close_both htidy h0.1 h1.1 (FreeFile.ne h1) hr0 hr1
    exact ⟨(hshift.trans hshift').congr (by abel), htidy'⟩
  | @noPipeFd f0 f1 q _ h0 h1 =>
    obtain ⟨-, -, hr0, hr1⟩ := alloc_both hT h0 h1
    obtain ⟨hshift, htidy⟩ := setEnds_both (q := q) hT h0 h1
    obtain ⟨hshift', htidy'⟩ := close_both htidy h0.1 h1.1 (FreeFile.ne h1)
      (by rw [setEnds_ref, hr0]) (by rw [setEnds_ref, hr1])
    exact ⟨(hshift.trans hshift').congr (by abel), htidy'⟩
  | @oneFd f0 f1 q fd _ h0 h1 hfd =>
    obtain ⟨-, -, hr0, hr1⟩ := alloc_both hT h0 h1
    obtain ⟨hshift, htidy⟩ := setEnds_both (q := q) hT h0 h1
    obtain ⟨e, he⟩ : ∃ e, e = ((c.allocFile f0).allocFile f1).setEnds q f0 f1 := ⟨_, rfl⟩
    have hfd' : e.Fd fd none := hfd.of_procs (by rw [he]; rfl) (by rw [he]; rfl)
    have hrefs : (e.ftable f0).ref = 1 ∧ (e.ftable f1).ref = 1 := by
      rw [he]
      exact ⟨by rw [setEnds_ref, hr0], by rw [setEnds_ref, hr1]⟩
    rw [← he] at hshift htidy ⊢
    have hset : Shift e ((e.setFd fd (some f0)).setFd fd none) 0 :=
      ((shift_setFd_some htidy.proc hfd').trans
        (shift_setFd_none htidy.proc (fd_setFd e hfd'.1 (some f0)))).congr (neg_add_cancel _)
    have htidy' : Tidy ((e.setFd fd (some f0)).setFd fd none) :=
      (htidy.setFd fun g hg => by cases hg; exact h0.1).setFd fun g hg => nomatch hg
    obtain ⟨hclose, htidy''⟩ := close_both htidy' h0.1 h1.1 (FreeFile.ne h1) hrefs.1 hrefs.2
    exact ⟨((hshift.trans hset).trans hclose).congr (by abel), htidy''⟩
  | @piped f0 f1 q fd0 fd1 _ h0 h1 hfd0 hfd1 =>
    obtain ⟨hshift, htidy⟩ := setEnds_both (q := q) hT h0 h1
    obtain ⟨e, he⟩ : ∃ e, e = ((c.allocFile f0).allocFile f1).setEnds q f0 f1 := ⟨_, rfl⟩
    have hfd0' : e.Fd fd0 none := hfd0.of_procs (by rw [he]; rfl) (by rw [he]; rfl)
    have hfd1' : (e.setFd fd0 (some f0)).Fd fd1 none :=
      hfd1.of_procs (by rw [he]; rfl) (by rw [he]; rfl)
    rw [← he] at hshift htidy ⊢
    have hset := (shift_setFd_some (f := f0) htidy.proc hfd0').trans
      (shift_setFd_some (f := f1) htidy.proc hfd1')
    refine ⟨(hshift.trans hset).congr (by abel), ?_⟩
    exact (htidy.setFd fun g hg => by cases hg; exact h0.1).setFd fun g hg => by cases hg; exact h1.1

/-- **Every call releases what it takes.**  When a call of process `p` returns, the
    buffers, locks and transactions are as before, and the counts of inodes and files
    have changed as the pointers to them have. -/
theorem call_releases {s t : State} {p : Nat} {c : Call} {r : Int}
    (hT : (core { s with proc := p }).Tidy) (h : perform p c s = .ok (r, t)) :
    t.held = s.held ∧ t.outstanding = s.outstanding ∧
      (∀ i, (t.icache i).locked = (s.icache i).locked) ∧
      (∀ i, (t.icache i).ref - (s.icache i).ref =
        ((core t).inodePtrs i : Int) - (core s).inodePtrs i) ∧
      (∀ f, (t.ftable f).ref - (s.ftable f).ref = ((core t).fdPtrs f : Int) - (core s).fdPtrs f) ∧
      (core t).Tidy := by
  unfold perform at h
  rw [modify_bind] at h
  obtain ⟨hshift, htidy⟩ := (code_effect h).shift hT
  refine ⟨hshift.held, hshift.outstanding, congrFun hshift.locked, ?_, ?_, htidy⟩
  · intro i
    have hbal : (t.icache i).ref - ((core t).inodePtrs i : Int) =
        (s.icache i).ref - ((core s).inodePtrs i : Int) := hshift.inode i
    omega
  · intro f
    have hbal : (t.ftable f).ref - ((core t).fdPtrs f : Int) =
        (s.ftable f).ref - ((core s).fdPtrs f : Int) + 0 := hshift.file f
    omega

/-- A kernel with an empty disk and no open files. -/
def blank : State where
  block := fun _ => Bytes.zero
  held := []
  logged := []
  outstanding := 0
  logSize := LOGSIZE
  sb := superOf Bytes.zero
  icache := fun _ => ⟨0, 0, false, false, Dinode.zero⟩
  ftable := fun _ => ⟨.none, 0, false, false, 0⟩
  pipe := fun _ => ⟨[], false, false⟩
  procs := fun _ => ⟨none, fun _ => none, false⟩
  proc := 0
  input := []
  taken := []
  freed := []

theorem blank_tidy {p : Nat} (hp : p < NPROC) : (core { blank with proc := p }).Tidy := by
  refine ⟨hp, fun _ _ => rfl, ?_⟩
  intro q fd f hf
  cases hf

/-- `pipe` takes two files and two descriptors. -/
theorem call_releases_pipe : ∃ t, perform 0 (.pipe true (some 7)) blank = .ok (0, t) ∧
    (t.ftable 0).ref = 1 ∧ (t.ftable 1).ref = 1 ∧ t.held = [] ∧ t.outstanding = 0 ∧
    (t.ftable 0).ref - (blank.ftable 0).ref = ((core t).fdPtrs 0 : Int) - (core blank).fdPtrs 0 := by
  have hok : okWith (fun x : Int × State => decide (x.1 = 0 ∧ (x.2.ftable 0).ref = 1 ∧
      (x.2.ftable 1).ref = 1)) (perform 0 (.pipe true (some 7)) blank) = true := by decide
  obtain ⟨⟨r, t⟩, hperform, hok⟩ := okWith_eq_true.mp hok
  obtain ⟨hr, h0, h1⟩ := of_decide_eq_true hok
  cases hr
  obtain ⟨hheld, hout, -, -, hfile, -⟩ := call_releases (blank_tidy (by decide)) hperform
  exact ⟨t, hperform, h0, h1, hheld, hout, hfile 0⟩

end Yonix.Fs
