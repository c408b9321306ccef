/-
  Yonix/Fs/Files.lean
  ===================
  **Open files over whole runs.**

  To the calls of `sysfile.c` come those of `process.c` that use descriptors: `fork` and
  `lwp_create` copy them, `exit` closes them, and `wait` and `lwp_join` let a slot be
  used again.  Of a slot only whether it is free, in use or a zombie is kept; which slot
  `procalloc` returns and who runs next is in `Proc/`, and here any free slot and any
  process will do.  Calls do not interleave with each other.

  `kalloc` never hands out a page that was not given back: a page for a new pipe has
  been freed as often as it was taken.
-/
import Yonix.Fs.Books
import Yonix.Lib.Run

namespace Yonix.Fs

/-! ### Descriptors of other processes -/

def State.setProcOf (s : State) (p : Nat) (x : Proc) : State :=
  { s with procs := Function.update s.procs p x }

/-- The loop of `fork` and `lwp_create` over the descriptors. -/
def dupFiles (np : Nat) : List Nat → M Unit
  | [] => return ()
  | i :: l => do
    let s ← get
    match (s.procs s.proc).ofile i with
    | none => dupFiles np l
    | some f => do
      filedup f
      modify fun s => s.setProcOf np { s.procs np with
        ofile := Function.update (s.procs np).ofile i (some f) }
      dupFiles np l

/-- What `fork` and `lwp_create` do for the new process `np`. -/
def inherit (np : Nat) : M Unit := do
  dupFiles np (List.range NOFILE)
  let s ← get
  match (s.procs s.proc).cdir with
  | none => stop .stray
  | some i => do
    let j ← idup i
    modify fun s => s.setProcOf np { s.procs np with cdir := some j }

/-- The loop of `exit`. -/
def closeFiles : List Nat → M Unit
  | [] => return ()
  | fd :: l => do
    let s ← get
    match (s.procs s.proc).ofile fd with
    | none => closeFiles l
    | some f => do
      fileclose f
      setFd fd none
      closeFiles l

def exitFiles : M Unit := do
  closeFiles (List.range NOFILE)
  beginOp
  let s ← get
  match (s.procs s.proc).cdir with
  | none => stop .stray
  | some i => do
    iput i
    endOp
    modify fun s => s.setProc { s.procs s.proc with cdir := none }

/-- `p->p_cdir = namei("/")`. -/
def rootDir (p : Nat) : M Unit := do
  let r ← namei [SLASH]
  modify fun s => s.setProcOf p { s.procs p with cdir := r }

/-! ### The system -/

inductive Slot where
  | unused
  | live
  | zombie
deriving DecidableEq

structure Sys where
  fs : State
  slot : Nat → Slot
  initproc : Option Nat

inductive Act where
  | userinit (p : Nat)
  | call (p : Nat) (c : Call)
  /-- `fork` or `lwp_create` by `p`; `none` when there is no slot or no memory -/
  | fork (p : Nat) (np : Option Nat)
  | exit (p : Nat)
  /-- `wait` or `lwp_join` by `p` finds the zombie `q` -/
  | reap (p q : Nat)

/-- The file system part of a step, as process `p`. -/
def Sys.run (k : Sys) (p : Nat) (x : M Unit) : Except Stop Sys :=
  match x { k.fs with proc := p } with
  | .ok (_, fs) => .ok { k with fs := fs }
  | .error e => .error e

def Sys.setSlot (k : Sys) (p : Nat) (x : Slot) : Sys := { k with slot := Function.update k.slot p x }

/-- The page is no one's. -/
def pageOk (s : State) (page : Option Nat) : Prop :=
  ∀ q ∈ page, s.taken.count q = s.freed.count q

instance (s : State) (page : Option Nat) : Decidable (pageOk s page) :=
  inferInstanceAs (Decidable (∀ q ∈ page, s.taken.count q = s.freed.count q))

def Sys.userinit (k : Sys) (p : Nat) : Except Stop Sys :=
  if p < NPROC ∧ k.slot p = .unused ∧ k.initproc = none then do
    let k ← k.run k.fs.proc (rootDir p)
    return { k.setSlot p .live with initproc := some p }
  else .error .notCalled

def Sys.call (k : Sys) (p : Nat) (c : Call) : Except Stop Sys :=
  if p < NPROC ∧ k.slot p = .live ∧ pageOk k.fs c.page then k.run p (do let _ ← c.code)
  else .error .notCalled

def Sys.fork (k : Sys) (p : Nat) : Option Nat → Except Stop Sys
  | none => if p < NPROC ∧ k.slot p = .live then return k else .error .notCalled
  | some np =>
    if p < NPROC ∧ k.slot p = .live ∧ np < NPROC ∧ k.slot np = .unused then do
      let k ← k.run p (inherit np)
      return k.setSlot np .live
    else .error .notCalled

def Sys.exit (k : Sys) (p : Nat) : Except Stop Sys :=
  if p < NPROC ∧ k.slot p = .live then
    if k.initproc = some p then .error (.panic .initExiting)
    else do
      let k ← k.run p exitFiles
      return k.setSlot p .zombie
  else .error .notCalled

def Sys.reap (k : Sys) (p q : Nat) : Except Stop Sys :=
  if p < NPROC ∧ k.slot p = .live ∧ q < NPROC ∧ k.slot q = .zombie then return k.setSlot q .unused
  else .error .notCalled

def Sys.exec (k : Sys) : Act → Except Stop Sys
  | .userinit p => k.userinit p
  | .call p c => k.call p c
  | .fork p np => k.fork p np
  | .exit p => k.exit p
  | .reap p q => k.reap p q

def Sys.Step (k : Sys) (a : Act) (k' : Sys) : Prop := k.exec a = .ok k'

/-! ### The ends of pipes -/

namespace Core

/-- File `f` is the end of pipe `q` for writing, or that for reading. -/
def End (c : Core) (f q : Nat) (w : Bool) : Prop :=
  (c.ftable f).type = .pipe q ∧ (c.ftable f).writable = w

/-- `writeopen` or `readopen`. -/
def flag (c : Core) (q : Nat) (w : Bool) : Bool :=
  if w then (c.pipe q).writeopen else (c.pipe q).readopen

/-- A flag says whether the end is there, an end is one file, and a page is out while
    the pipe has an end. -/
structure Pipes (c : Core) : Prop where
  ends : ∀ f q w, c.End f q w → ∀ w', c.flag q w' = true ↔ ∃ g, c.End g q w'
  one : ∀ f g q w, c.End f q w → c.End g q w → f = g
  used : ∀ f q w, c.End f q w → c.taken.count q = c.freed.count q + 1
  idle : ∀ q, (∀ f w, ¬ c.End f q w) → c.taken.count q = c.freed.count q

variable {c d : Core}

theorem Pipes.congr (h : Pipes c) (hend : ∀ f q w, d.End f q w ↔ c.End f q w)
    (hflag : ∀ q w, d.flag q w = c.flag q w) (htaken : d.taken = c.taken) (hfreed : d.freed = c.freed) :
    Pipes d := by
  refine ⟨?_, ?_, ?_, ?_⟩
  · intro f q w hf w'
    rw [hflag, h.ends f q w ((hend f q w).mp hf) w']
    exact exists_congr fun g => (hend g q w').symm
  · intro f g q w hf hg
    exact h.one f g q w ((hend f q w).mp hf) ((hend g q w).mp hg)
  · intro f q w hf
    rw [htaken, hfreed]
    exact h.used f q w ((hend f q w).mp hf)
  · intro q hq
    rw [htaken, hfreed]
    exact h.idle q fun f w hf => hq f w ((hend f q w).mpr hf)

theorem end_setFile_of_ne {f g q : Nat} {w : Bool} (x : File) (h : g ≠ f) :
    (c.setFile f x).End g q w ↔ c.End g q w := by
  unfold End setFile
  dsimp only
  rw [Function.update_of_ne h]

theorem end_setFile_self {f q : Nat} {w : Bool} (x : File) :
    (c.setFile f x).End f q w ↔ x.type = .pipe q ∧ x.writable = w := by
  unfold End setFile
  dsimp only
  rw [Function.update_self]

/-- A file that is not the end of a pipe becomes another such file, or stays the end
    it was. -/
theorem Pipes.setFile (h : Pipes c) {f : Nat} {x : File}
    (hx : ∀ q w, x.type = .pipe q ∧ x.writable = w ↔ c.End f q w) : Pipes (c.setFile f x) := by
  refine h.congr ?_ (fun _ _ => rfl) rfl rfl
  intro g q w
  by_cases hg : g = f
  · rw [hg, end_setFile_self, hx]
  · rw [end_setFile_of_ne x hg]

theorem Pipes.allocFile (h : Pipes c) (f : Nat) : Pipes (c.allocFile f) :=
  h.setFile fun _ _ => Iff.rfl

theorem Pipes.dupFile (h : Pipes c) (f : Nat) : Pipes (c.dupFile f) :=
  h.setFile fun _ _ => Iff.rfl

theorem Pipes.setFd (h : Pipes c) (fd : Nat) (x : Option Nat) : Pipes (c.setFd fd x) :=
  h.congr (fun _ _ _ => Iff.rfl) (fun _ _ => rfl) rfl rfl

theorem Pipes.bump (h : Pipes c) (i : Nat) (n : Int) : Pipes (c.bump i n) :=
  h.congr (fun _ _ _ => Iff.rfl) (fun _ _ => rfl) rfl rfl

/-! ### Closing an end -/

theorem flag_endPipe (q : Nat) (x : Pipe) (q' : Nat) (w : Bool) :
    (c.endPipe q x).flag q' w = (c.setPipe q x).flag q' w := by
  unfold endPipe
  split
  · rfl
  · rfl

theorem closePipe_ftable (q : Nat) (w : Bool) : (c.closePipe q w).ftable = c.ftable := by
  obtain ⟨pipe, freed, heq⟩ := closePipe_frame c q w
  rw [heq]

theorem closePipe_taken (q : Nat) (w : Bool) : (c.closePipe q w).taken = c.taken := by
  obtain ⟨pipe, freed, heq⟩ := closePipe_frame c q w
  rw [heq]

theorem flag_closePipe_of_ne {q q' : Nat} (h : q' ≠ q) (w w' : Bool) :
    (c.closePipe q w).flag q' w' = c.flag q' w' := by
  unfold closePipe
  split
  · rw [flag_endPipe]
    unfold flag setPipe
    dsimp only
    rw [Function.update_of_ne h]
  · rw [flag_endPipe]
    unfold flag setPipe
    dsimp only
    rw [Function.update_of_ne h]

theorem flag_closePipe_self (q : Nat) (w w' : Bool) :
    (c.closePipe q w).flag q w' = if w' = w then false else c.flag q w' := by
  unfold closePipe
  cases w with
  | true =>
    rw [if_pos rfl, flag_endPipe]
    unfold flag setPipe
    dsimp only
    rw [Function.update_self]
    cases w' with
    | true => rfl
    | false => rfl
  | false =>
    rw [if_neg (by decide), flag_endPipe]
    unfold flag setPipe
    dsimp only
    rw [Function.update_self]
    cases w' with
    | true => rfl
    | false => rfl

/-- The page is freed when the other end is closed already. -/
theorem closePipe_freed (q : Nat) (w : Bool) :
    (c.closePipe q w).freed = if c.flag q (!w) = false then q :: c.freed else c.freed := by
  unfold closePipe endPipe flag
  cases w with
  | true =>
    dsimp only
    simp only [if_true, and_true, Bool.not_true, Bool.false_eq_true, if_false]
    split
    · rfl
    · rfl
  | false =>
    dsimp only
    simp only [if_true, true_and, Bool.not_false, Bool.false_eq_true, if_false]
    split
    · rfl
    · rfl

theorem End.unique {f q q' : Nat} {w w' : Bool} (h : c.End f q w) (h' : c.End f q' w') :
    q' = q ∧ w' = w := by
  obtain ⟨htype, hw⟩ := h
  obtain ⟨htype', hw'⟩ := h'
  rw [htype] at htype'
  cases htype'
  exact ⟨rfl, hw'.symm.trans hw⟩

/-- The last descriptor of an end is closed. -/
theorem Pipes.closeEnd (h : Pipes c) {f q : Nat} {w : Bool} (hf : c.End f q w) (ref : Int) :
    Pipes ((c.setFile f { c.ftable f with ref := ref, type := .none }).closePipe q w) := by
  obtain ⟨b, hb⟩ : ∃ b, b = c.setFile f { c.ftable f with ref := ref, type := .none } := ⟨_, rfl⟩
  rw [← hb]
  have hflag : ∀ q w, b.flag q w = c.flag q w := by
    intro q w
    rw [hb]
    rfl
  have hend : ∀ g q' w', (b.closePipe q w).End g q' w' ↔ g ≠ f ∧ c.End g q' w' := by
    intro g q' w'
    have hsame : (b.closePipe q w).End g q' w' ↔ b.End g q' w' := by
      unfold End
      rw [closePipe_ftable]
    rw [hsame, hb]
    by_cases hg : g = f
    · rw [hg, end_setFile_self]
      simp
    · rw [end_setFile_of_ne _ hg]
      simp [hg]
  have htaken : (b.closePipe q w).taken = c.taken := by
    rw [closePipe_taken, hb]
    rfl
  have hfreed : (b.closePipe q w).freed = if c.flag q (!w) = false then q :: c.freed else c.freed := by
    rw [closePipe_freed, hflag, hb]
    rfl
  -- pages of other pipes
  have hother : ∀ q', q' ≠ q → (b.closePipe q w).freed.count q' = c.freed.count q' := by
    intro q' hne
    rw [hfreed]
    split
    · exact List.count_cons_of_ne (fun heq => hne heq.symm)
    · rfl
  refine ⟨?_, ?_, ?_, ?_⟩
  · intro g q' w1 hg w'
    obtain ⟨hgf, hg⟩ := (hend g q' w1).mp hg
    simp only [hend]
    by_cases hq : q' = q
    · subst hq
      rw [flag_closePipe_self, hflag]
      split
      · rename_i hw
        subst hw
        simp only [Bool.false_eq_true, false_iff]
        rintro ⟨g', hne, hg'⟩
        exact hne (h.one g' f _ _ hg' hf)
      · rename_i hw
        rw [h.ends f _ w hf w']
        refine exists_congr fun g' => ⟨?_, And.right⟩
        intro hg'
        refine ⟨?_, hg'⟩
        rintro rfl
        exact hw (hf.unique hg').2
    · rw [flag_closePipe_of_ne hq, hflag, h.ends g q' w1 hg w']
      refine exists_congr fun g' => ⟨?_, And.right⟩
      intro hg'
      refine ⟨?_, hg'⟩
      rintro rfl
      exact hq (hf.unique hg').1
  · intro g g' q' w' hg hg'
    exact h.one g g' q' w' ((hend g q' w').mp hg).2 ((hend g' q' w').mp hg').2
  · intro g q' w' hend'
    obtain ⟨hgf, hg⟩ := (hend g q' w').mp hend'
    rw [htaken, h.used g q' w' hg]
    by_cases hq : q' = q
    · subst hq
      have hw : w' = !w := by
        rw [Bool.eq_not]
        rintro rfl
        exact hgf (h.one g f _ _ hg hf)
      have hopen : c.flag q' (!w) = true := (h.ends f _ w hf _).mpr ⟨g, hw ▸ hg⟩
      rw [hfreed, hopen, if_neg (by decide)]
    · rw [hother q' hq]
  · intro q' hq'
    rw [htaken]
    by_cases hq : q' = q
    · subst hq
      have hclosed : c.flag q' (!w) = false := by
        by_contra hopen
        rw [Bool.not_eq_false] at hopen
        obtain ⟨g, hg⟩ := (h.ends f _ w hf _).mp hopen
        refine hq' g (!w) ((hend g _ _).mpr ⟨?_, hg⟩)
        rintro rfl
        exact Bool.not_ne_self w (hf.unique hg).2
      rw [hfreed, if_pos hclosed, List.count_cons_self, h.used f _ w hf]
    · rw [hother q' hq]
      refine h.idle q' fun g w' hg => hq' g w' ((hend g q' w').mpr ⟨?_, hg⟩)
      rintro rfl
      exact hq (hf.unique hg).1

theorem Pipes.close (h : Pipes c) (f : Nat) : Pipes (c.close f) := by
  by_cases href : 0 < (c.ftable f).ref - 1
  · rw [close_shared href]
    exact h.setFile fun _ _ => Iff.rfl
  · cases ht : (c.ftable f).type with
    | none =>
      rw [close_none href ht]
      refine h.setFile fun q w => ?_
      unfold End
      rw [ht]
    | inode i =>
      rw [close_inode href ht]
      refine Pipes.bump (h.setFile fun q w => ?_) i (-1)
      unfold End
      rw [ht]
      simp
    | pipe q =>
      rw [close_pipe href ht]
      exact h.closeEnd ⟨ht, rfl⟩ 0

/-! ### A new pipe -/

theorem Pipes.setEnds (h : Pipes c) {q f0 f1 : Nat} (hne : f1 ≠ f0) (hq : ∀ f w, ¬ c.End f q w)
    (ht0 : (c.ftable f0).type = .none) (ht1 : (c.ftable f1).type = .none) :
    Pipes (c.setEnds q f0 f1) := by
  obtain ⟨d, hd⟩ : ∃ d, d = c.setEnds q f0 f1 := ⟨_, rfl⟩
  have hfile0 : d.ftable f0 = { c.ftable f0 with type := .pipe q, readable := true, writable := false } := by
    rw [hd]
    change Function.update (Function.update c.ftable f0 _) f1 _ f0 = _
    rw [Function.update_of_ne hne.symm, Function.update_self]
    rfl
  have hfile1 : d.ftable f1 = { c.ftable f1 with type := .pipe q, readable := false, writable := true } := by
    rw [hd]
    change Function.update (Function.update c.ftable f0 _) f1 _ f1 = _
    rw [Function.update_self]
    change { Function.update c.ftable f0 _ f1 with
      type := FileType.pipe q, readable := false, writable := true } = _
    rw [Function.update_of_ne hne]
  have hfile : ∀ g, g ≠ f0 → g ≠ f1 → d.ftable g = c.ftable g := by
    intro g h0 h1
    rw [hd]
    change Function.update (Function.update c.ftable f0 _) f1 _ g = _
    rw [Function.update_of_ne h1, Function.update_of_ne h0]
  have hend0 : d.End f0 q false := by
    unfold End
    rw [hfile0]
    exact ⟨rfl, rfl⟩
  have hend1 : d.End f1 q true := by
    unfold End
    rw [hfile1]
    exact ⟨rfl, rfl⟩
  have hend : ∀ g q' w, d.End g q' w ↔
      (g = f0 ∧ q' = q ∧ w = false) ∨ (g = f1 ∧ q' = q ∧ w = true) ∨ c.End g q' w := by
    intro g q' w
    constructor
    · intro hg
      by_cases h0 : g = f0
      · subst h0
        exact Or.inl ⟨rfl, hend0.unique hg⟩
      · by_cases h1 : g = f1
        · subst h1
          exact Or.inr (Or.inl ⟨rfl, hend1.unique hg⟩)
        · unfold End at hg
          rw [hfile g h0 h1] at hg
          exact Or.inr (Or.inr hg)
    · rintro (⟨rfl, rfl, rfl⟩ | ⟨rfl, rfl, rfl⟩ | hg)
      · exact hend0
      · exact hend1
      · have h0 : g ≠ f0 := by
          rintro rfl
          rw [hg.1] at ht0
          cases ht0
        have h1 : g ≠ f1 := by
          rintro rfl
          rw [hg.1] at ht1
          cases ht1
        unfold End
        rw [hfile g h0 h1]
        exact hg
  have hold : ∀ g q' w, q' ≠ q → (d.End g q' w ↔ c.End g q' w) := by
    intro g q' w hne'
    rw [hend]
    simp [hne']
  have hnew : ∀ g w, d.End g q w → g = if w then f1 else f0 := by
    intro g w hg
    rcases (hend g q w).mp hg with ⟨rfl, -, rfl⟩ | ⟨rfl, -, rfl⟩ | hg
    · rfl
    · rfl
    · exact (hq g w hg).elim
  have hflag : ∀ w, d.flag q w = true := by
    intro w
    have hpipe : d.pipe q = ⟨[], true, true⟩ := by
      rw [hd]
      exact Function.update_self _ _ _
    unfold flag
    rw [hpipe]
    split
    · rfl
    · rfl
  have hflag' : ∀ q' w, q' ≠ q → d.flag q' w = c.flag q' w := by
    intro q' w hne'
    have hpipe : d.pipe q' = c.pipe q' := by
      rw [hd]
      exact Function.update_of_ne hne' _ _
    unfold flag
    rw [hpipe]
  have htaken : d.taken = q :: c.taken := by
    rw [hd]
    rfl
  have hfreed : d.freed = c.freed := by
    rw [hd]
    rfl
  have hcount : ∀ q', q' ≠ q → d.taken.count q' = c.taken.count q' := by
    intro q' hne'
    rw [htaken, List.count_cons_of_ne (fun heq => hne' heq.symm)]
  rw [← hd]
  refine ⟨?_, ?_, ?_, ?_⟩
  · intro g q' w hg w'
    by_cases hq' : q' = q
    · subst hq'
      rw [hflag w']
      simp only [true_iff]
      cases w' with
      | false => exact ⟨f0, hend0⟩
      | true => exact ⟨f1, hend1⟩
    · rw [hflag' q' w' hq', h.ends g q' w ((hold g q' w hq').mp hg) w']
      exact exists_congr fun g' => (hold g' q' w' hq').symm
  · intro g g' q' w hg hg'
    by_cases hq' : q' = q
    · subst hq'
      rw [hnew g w hg, hnew g' w hg']
    · exact h.one g g' q' w ((hold g q' w hq').mp hg) ((hold g' q' w hq').mp hg')
  · intro g q' w hg
    rw [hfreed]
    by_cases hq' : q' = q
    · subst hq'
      rw [htaken, List.count_cons_self, h.idle _ hq]
    · rw [hcount q' hq']
      exact h.used g q' w ((hold g q' w hq').mp hg)
  · intro q' hidle
    rw [hfreed]
    by_cases hq' : q' = q
    · subst hq'
      exact (hidle f0 false hend0).elim
    · rw [hcount q' hq']
      exact h.idle q' fun g w hg => hidle g w ((hold g q' w hq').mpr hg)

theorem end_allocFile {f g q : Nat} {w : Bool} : (c.allocFile f).End g q w ↔ c.End g q w := by
  by_cases hg : g = f
  · rw [hg]
    unfold allocFile
    rw [end_setFile_self]
    rfl
  · exact end_setFile_of_ne _ hg

theorem Pipes.newPipe (h : Pipes c) (hT : Tidy c) {q f0 f1 : Nat} (h0 : c.FreeFile f0)
    (h1 : (c.allocFile f0).FreeFile f1) (hq : ∀ f w, ¬ c.End f q w) :
    Pipes (((c.allocFile f0).allocFile f1).setEnds q f0 f1) := by
  have hne := FreeFile.ne h1
  have href1 : (c.ftable f1).ref = 0 := by
    rw [← allocFile_of_ne c hne]
    exact h1.2
  refine ((h.allocFile f0).allocFile f1).setEnds hne ?_ ?_ ?_
  · intro f w
    rw [end_allocFile, end_allocFile]
    exact hq f w
  · rw [allocFile_type, allocFile_type]
    exact hT.free f0 h0.2
  · rw [allocFile_type, allocFile_type]
    exact hT.free f1 href1

end Core

open Yonix.Fs.Core in
theorem Effect.pipes {page : Option Nat} {c d : Core} (h : Effect page c d) (hT : Tidy c)
    (hP : Pipes c) (hpage : ∀ q, page = some q → ∀ f w, ¬ c.End f q w) : Pipes d := by
  cases h with
  | same => exact hP
  | @dup fd f k _ _ _ => exact (hP.setFd k (some f)).dupFile f
  | @close fd f _ _ => exact (hP.setFd fd none).close f
  | @offset f off => exact hP.setFile fun _ _ => Iff.rfl
  | @data q data =>
    refine hP.congr (fun _ _ _ => Iff.rfl) ?_ rfl rfl
    intro q' w
    by_cases hq : q' = q
    · subst hq
      unfold flag setPipe
      dsimp only
      rw [Function.update_self]
    · unfold flag setPipe
      dsimp only
      rw [Function.update_of_ne hq]
  | @chdir i j _ => exact hP.congr (fun _ _ _ => Iff.rfl) (fun _ _ => rfl) rfl rfl
  | @noFd f _ => exact (hP.allocFile f).close f
  | @opened f fd i readable writable hfree _ =>
    refine (((hP.allocFile f).setFd fd (some f)).bump i 1).setFile fun q w => ?_
    -- the file was free, so it was no end either
    change _ ↔ (c.allocFile f).End f q w
    rw [end_allocFile]
    unfold End
    rw [hT.free f hfree.2]
    simp
  | @noPage f0 f1 _ _ => exact (((hP.allocFile f0).allocFile f1).close f0).close f1
  | @noPipeFd f0 f1 q hq h0 h1 => exact ((hP.newPipe hT h0 h1 (hpage q hq)).close f0).close f1
  | @oneFd f0 f1 q fd hq h0 h1 _ =>
    exact ((((hP.newPipe hT h0 h1 (hpage q hq)).setFd fd (some f0)).setFd fd none).close f0).close f1
  | @piped f0 f1 q fd0 fd1 hq h0 h1 _ _ =>
    exact ((hP.newPipe hT h0 h1 (hpage q hq)).setFd fd0 (some f0)).setFd fd1 (some f1)

namespace Core

variable {c d : Core} {p : Nat}

theorem setFd_of_ne (hp : p ≠ c.proc) (fd : Nat) (x : Option Nat) :
    (c.setFd fd x).procs p = c.procs p :=
  Function.update_of_ne hp _ _

theorem setFd_setFd_of_ne (hp : p ≠ c.proc) (fd k : Nat) (x y : Option Nat) :
    ((c.setFd fd x).setFd k y).procs p = c.procs p := by
  rw [setFd_of_ne (c := c.setFd fd x) hp, setFd_of_ne hp]

theorem close_procs (c : Core) (f : Nat) : (c.close f).procs = c.procs := (close_tables c f).2.1

theorem newPipe_procs (c : Core) (q f0 f1 : Nat) :
    (((c.allocFile f0).allocFile f1).setEnds q f0 f1).procs = c.procs ∧
      (((c.allocFile f0).allocFile f1).setEnds q f0 f1).proc = c.proc :=
  ⟨rfl, rfl⟩

end Core

open Yonix.Fs.Core in
/-- A call leaves the other processes alone. -/
theorem Effect.others {page : Option Nat} {c d : Core} (h : Effect page c d) {p : Nat}
    (hp : p ≠ c.proc) : d.procs p = c.procs p := by
  cases h with
  | same => rfl
  | dup _ _ _ => exact setFd_of_ne hp _ _
  | close _ _ =>
    rw [close_procs]
    exact setFd_of_ne hp _ _
  | offset off => rfl
  | data data => rfl
  | chdir _ => exact Function.update_of_ne hp _ _
  | noFd _ =>
    rw [close_procs]
    rfl
  | opened readable writable _ _ => exact setFd_of_ne hp _ _
  | noPage _ _ =>
    rw [close_procs, close_procs]
    rfl
  | noPipeFd _ _ _ =>
    rw [close_procs, close_procs]
    rfl
  | @oneFd f0 f1 q fd _ _ _ _ =>
    obtain ⟨hprocs, hproc⟩ := newPipe_procs c q f0 f1
    rw [close_procs, close_procs, setFd_setFd_of_ne (hproc ▸ hp), hprocs]
  | @piped f0 f1 q fd0 fd1 _ _ _ _ _ =>
    obtain ⟨hprocs, hproc⟩ := newPipe_procs c q f0 f1
    rw [setFd_setFd_of_ne (hproc ▸ hp), hprocs]

/-! ### Exact counts -/

namespace Core

structure Exact (c : Core) : Prop where
  tidy : Tidy c
  file : ∀ f, c.fileBal f = 0
  pipes : Pipes c

variable {c d : Core} {p : Nat}

/-- Only the file table, the descriptors and the pipes matter. -/
theorem Exact.congr (h : Exact c) (hproc : d.proc < NPROC) (hft : d.ftable = c.ftable)
    (hofile : ∀ p, (d.procs p).ofile = (c.procs p).ofile) (hpipe : d.pipe = c.pipe)
    (htaken : d.taken = c.taken) (hfreed : d.freed = c.freed) : Exact d := by
  refine ⟨⟨hproc, ?_, ?_⟩, ?_, ?_⟩
  · rw [hft]
    exact h.tidy.free
  · intro p fd f
    rw [hofile]
    exact h.tidy.fds p fd f
  · intro f
    rw [← h.file f]
    unfold fileBal fdPtrs
    simp only [hofile, hft]
  · refine h.pipes.congr ?_ ?_ htaken hfreed
    · intro f q w
      unfold End
      rw [hft]
    · intro q w
      unfold flag
      rw [hpipe]

theorem Exact.at (h : Exact c) (hp : p < NPROC) : Exact { c with proc := p } :=
  h.congr hp rfl (fun _ => rfl) rfl rfl rfl

/-- `p->p_of[fd] = x`. -/
def setFdOf (c : Core) (p fd : Nat) (x : Option Nat) : Core :=
  { ({ c with proc := p } : Core).setFd fd x with proc := c.proc }

theorem setFdOf_of_ne {q : Nat} (hq : q ≠ p) (fd : Nat) (x : Option Nat) :
    (c.setFdOf p fd x).procs q = c.procs q :=
  Function.update_of_ne hq _ _

/-- A descriptor of `p` becomes a copy of one that is in use. -/
theorem Exact.dupTo (h : Exact c) {f fd : Nat} (hp : p < NPROC) (hf : f < NFILE)
    (href : 1 ≤ (c.ftable f).ref) (hfd : fd < NOFILE) (hfree : (c.procs p).ofile fd = none) :
    Exact ((c.dupFile f).setFdOf p fd (some f)) := by
  obtain ⟨b, hb⟩ : ∃ b, b = ({ c.dupFile f with proc := p } : Core) := ⟨_, rfl⟩
  have hbp : b.proc < NPROC := by
    rw [hb]
    exact hp
  have hbfd : b.Fd fd none := by
    rw [hb]
    exact ⟨hfd, hfree⟩
  have hdup : Tidy (c.dupFile f) := by
    refine h.tidy.setFile fun hz => ?_
    change (c.ftable f).ref + 1 = 0 at hz
    omega
  have htidy : Tidy (b.setFd fd (some f)) := by
    refine Tidy.setFd ?_ fun g hg => by cases hg; exact hf
    rw [hb]
    exact ⟨hp, hdup.free, hdup.fds⟩
  have heq : (c.dupFile f).setFdOf p fd (some f) = { b.setFd fd (some f) with proc := c.proc } := by
    rw [hb]
    rfl
  rw [heq]
  refine ⟨⟨h.tidy.proc, htidy.free, htidy.fds⟩, ?_, ?_⟩
  · intro g
    change (b.setFd fd (some f)).fileBal g = 0
    have hbal : b.fileBal g = (c.dupFile f).fileBal g := by
      rw [hb]
      rfl
    rw [(shift_setFd_some hbp hbfd).file g, hbal, (shift_dupFile hf).file g, h.file g, Pi.neg_apply]
    omega
  · have hpipes : Pipes b := by
      rw [hb]
      exact (h.pipes.dupFile f).congr (fun _ _ _ => Iff.rfl) (fun _ _ => rfl) rfl rfl
    exact (hpipes.setFd fd (some f)).congr (fun _ _ _ => Iff.rfl) (fun _ _ => rfl) rfl rfl

/-- A descriptor is closed. -/
theorem Exact.closeFd (h : Exact c) {f fd : Nat} (hfd : c.Fd fd (some f))
    (href : 1 ≤ (c.ftable f).ref) : Exact ((c.close f).setFd fd none) := by
  have hf : f < NFILE := h.tidy.fds _ _ _ hfd.2
  have hclose := (close_tables c f).2
  have hfd' : (c.close f).Fd fd (some f) := hfd.of_procs hclose.1 hclose.2
  have htidy : Tidy (c.close f) := h.tidy.close f
  refine ⟨htidy.setFd fun g hg => (nomatch hg), ?_, (h.pipes.close f).setFd fd none⟩
  intro g
  rw [(shift_setFd_none htidy.proc hfd').file g, (shift_close hf href).file g, h.file g, Pi.neg_apply]
  omega

end Core

open Yonix.Fs.Core

variable {s t : State}

/-- The current directory of a process changes, with a count. -/
theorem exact_setCdir {i p : Nat} {n : Int} {x : Option Nat} (h : (core s).Exact)
    (hcore : core t = (core s).bump i n) :
    (core (t.setProcOf p { t.procs p with cdir := x })).Exact ∧
      (∀ q, ((t.setProcOf p { t.procs p with cdir := x }).procs q).ofile = (s.procs q).ofile) ∧
      ∀ q, q ≠ p → (t.setProcOf p { t.procs p with cdir := x }).procs q = s.procs q := by
  have hprocs : t.procs = s.procs := congrArg Core.procs hcore
  have hproc : t.proc = s.proc := congrArg Core.proc hcore
  have hft : t.ftable = s.ftable := congrArg Core.ftable hcore
  have hpipe : t.pipe = s.pipe := congrArg Core.pipe hcore
  have htaken : t.taken = s.taken := congrArg Core.taken hcore
  have hfreed : t.freed = s.freed := congrArg Core.freed hcore
  have hofile : ∀ q, ((t.setProcOf p { t.procs p with cdir := x }).procs q).ofile =
      (s.procs q).ofile := by
    intro q
    change (Function.update t.procs p { t.procs p with cdir := x } q).ofile = _
    rw [Function.update_apply, hprocs]
    split
    · rename_i hq
      rw [hq]
    · rfl
  refine ⟨h.congr ?_ hft hofile hpipe htaken hfreed, hofile, ?_⟩
  · change t.proc < NPROC
    rw [hproc]
    exact h.tidy.proc
  · intro q hq
    rw [← hprocs]
    exact Function.update_of_ne hq _ _

/-- The loop of `fork`. -/
theorem dupFiles_exact {np : Nat} (hnp : np < NPROC) (l : List Nat) : ∀ {s : State} {u : Unit},
    dupFiles np l s = .ok (u, t) → l.Nodup →
    (∀ fd ∈ l, fd < NOFILE ∧ (s.procs np).ofile fd = none) → (core s).Exact →
    (core t).Exact ∧ ∀ p, p ≠ np → t.procs p = s.procs p := by
  induction l with
  | nil =>
    intro s u h _ _ hexact
    cases h
    exact ⟨hexact, fun _ _ => rfl⟩
  | cons fd l ih =>
    intro s u h hnodup hfree hexact
    obtain ⟨hnot, hnodup⟩ := List.nodup_cons.mp hnodup
    obtain ⟨hfd, hnone⟩ := hfree fd List.mem_cons_self
    have hrest : ∀ k ∈ l, k < NOFILE ∧ (s.procs np).ofile k = none :=
      fun k hk => hfree k (List.mem_cons_of_mem fd hk)
    unfold dupFiles at h
    rw [get_bind] at h
    cases hof : (s.procs s.proc).ofile fd with
    | none =>
      rw [hof] at h
      exact ih h hnodup hrest hexact
    | some f =>
      rw [hof] at h
      obtain ⟨v, s1, h1, h⟩ := code_bind.mp h
      rw [modify_bind] at h
      obtain ⟨href, hdup⟩ := filedup_core h1
      obtain ⟨s2, hs2⟩ : ∃ s2, s2 = s1.setProcOf np { s1.procs np with
        ofile := Function.update (s1.procs np).ofile fd (some f) } := ⟨_, rfl⟩
      rw [← hs2] at h
      have hcore : core s2 = ((core s).dupFile f).setFdOf np fd (some f) := by
        have hset : core s2 = (core s1).setFdOf np fd (some f) := by
          rw [hs2]
          rfl
        rw [hset, hdup]
        rfl
      have hprocs : ∀ p, p ≠ np → s2.procs p = s.procs p := by
        intro p hp
        change (core s2).procs p = (core s).procs p
        rw [hcore]
        exact setFdOf_of_ne hp fd _
      have hkeep : ∀ k ∈ l, k < NOFILE ∧ (s2.procs np).ofile k = none := by
        intro k hk
        refine ⟨(hrest k hk).1, ?_⟩
        have hne : k ≠ fd := fun heq => hnot (heq ▸ hk)
        change ((core s2).procs np).ofile k = none
        rw [hcore]
        change (Function.update (core s).procs np _ np).ofile k = none
        rw [Function.update_self]
        change Function.update ((core s).procs np).ofile fd (some f) k = none
        rw [Function.update_of_ne hne]
        exact (hrest k hk).2
      have hexact2 : (core s2).Exact := by
        rw [hcore]
        exact hexact.dupTo hnp (hexact.tidy.fds _ _ _ hof) href hfd hnone
      obtain ⟨hexact', hothers⟩ := ih h hnodup hkeep hexact2
      exact ⟨hexact', fun p hp => (hothers p hp).trans (hprocs p hp)⟩

theorem inherit_exact {np : Nat} {u : Unit} (hnp : np < NPROC) (h : inherit np s = .ok (u, t))
    (hfree : ∀ fd, fd < NOFILE → (s.procs np).ofile fd = none) (hexact : (core s).Exact) :
    (core t).Exact ∧ ∀ p, p ≠ np → t.procs p = s.procs p := by
  unfold inherit at h
  obtain ⟨v, s1, h1, h⟩ := code_bind.mp h
  obtain ⟨hexact1, hothers⟩ := dupFiles_exact hnp _ h1 List.nodup_range
    (fun fd hfd => ⟨List.mem_range.mp hfd, hfree fd (List.mem_range.mp hfd)⟩) hexact
  rw [get_bind] at h
  cases hcd : (s1.procs s1.proc).cdir with
  | none =>
    rw [hcd] at h
    cases h
  | some i =>
    rw [hcd] at h
    obtain ⟨j, s2, h2, h⟩ := code_bind.mp h
    cases h
    obtain ⟨rfl, hcore⟩ := idup_core h2
    obtain ⟨hexact2, -, hothers2⟩ := exact_setCdir (p := np) (x := some j) hexact1 hcore
    exact ⟨hexact2, fun p hp => (hothers2 p hp).trans (hothers p hp)⟩

/-- The loop of `exit`. -/
theorem closeFiles_exact (l : List Nat) : ∀ {s : State} {u : Unit},
    closeFiles l s = .ok (u, t) → (∀ fd ∈ l, fd < NOFILE) → (core s).Exact →
    (core t).Exact ∧ t.proc = s.proc ∧ (∀ p, p ≠ s.proc → t.procs p = s.procs p) ∧
      ∀ fd, fd ∈ l ∨ (s.procs s.proc).ofile fd = none → (t.procs s.proc).ofile fd = none := by
  induction l with
  | nil =>
    intro s u h _ hexact
    cases h
    refine ⟨hexact, rfl, fun _ _ => rfl, ?_⟩
    rintro fd (hfd | hfd)
    · cases hfd
    · exact hfd
  | cons fd l ih =>
    intro s u h hlt hexact
    have hrest : ∀ k ∈ l, k < NOFILE := fun k hk => hlt k (List.mem_cons_of_mem fd hk)
    unfold closeFiles at h
    rw [get_bind] at h
    cases hof : (s.procs s.proc).ofile fd with
    | none =>
      rw [hof] at h
      obtain ⟨hexact', hproc, hothers, hnone⟩ := ih h hrest hexact
      refine ⟨hexact', hproc, hothers, ?_⟩
      rintro k (hk | hk)
      · rcases List.mem_cons.mp hk with rfl | hk
        · exact hnone _ (Or.inr hof)
        · exact hnone k (Or.inl hk)
      · exact hnone k (Or.inr hk)
    | some f =>
      rw [hof] at h
      obtain ⟨v, s1, h1, h⟩ := code_bind.mp h
      obtain ⟨w, s2, h2, h⟩ := code_bind.mp h
      obtain ⟨href, hclose⟩ := fileclose_core h1
      have hcore : core s2 = ((core s).close f).setFd fd none := by
        cases h2
        rw [← hclose]
        rfl
      obtain ⟨htab, hsame, hproc1⟩ := close_tables (core s) f
      have hproc2 : s2.proc = s.proc := by
        change (core s2).proc = (core s).proc
        rw [hcore]
        exact hproc1
      have hprocs : s2.procs = Function.update s.procs s.proc { s.procs s.proc with
          ofile := Function.update (s.procs s.proc).ofile fd none } := by
        change (core s2).procs = _
        rw [hcore]
        unfold Core.setFd
        rw [hsame, hproc1]
        rfl
      have hexact2 : (core s2).Exact := by
        rw [hcore]
        exact hexact.closeFd ⟨hlt fd List.mem_cons_self, hof⟩ href
      obtain ⟨hexact', hproc, hothers, hnone⟩ := ih h hrest hexact2
      rw [hproc2] at hproc hothers hnone
      refine ⟨hexact', hproc, ?_, ?_⟩
      · intro p hp
        rw [hothers p hp, hprocs]
        exact Function.update_of_ne hp _ _
      · have hofile : ∀ k, (s2.procs s.proc).ofile k =
            Function.update (s.procs s.proc).ofile fd none k := by
          intro k
          rw [hprocs, Function.update_self]
        intro k hk
        by_cases hkfd : k = fd
        · subst hkfd
          refine hnone k (Or.inr ?_)
          rw [hofile, Function.update_self]
        · rcases hk with hk | hk
          · exact hnone k (Or.inl ((List.mem_cons.mp hk).resolve_left hkfd))
          · refine hnone k (Or.inr ?_)
            rw [hofile, Function.update_of_ne hkfd]
            exact hk

theorem exitFiles_exact {u : Unit} (h : exitFiles s = .ok (u, t)) (hexact : (core s).Exact) :
    (core t).Exact ∧ (∀ p, p ≠ s.proc → t.procs p = s.procs p) ∧
      ∀ fd, fd < NOFILE → (t.procs s.proc).ofile fd = none := by
  unfold exitFiles at h
  obtain ⟨v, s1, h1, h⟩ := code_bind.mp h
  obtain ⟨hexact1, hproc, hothers, hnone⟩ :=
    closeFiles_exact _ h1 (fun fd hfd => List.mem_range.mp hfd) hexact
  obtain ⟨w, s2, h2, h⟩ := code_bind.mp h
  rw [get_bind] at h
  cases hcd : (s2.procs s2.proc).cdir with
  | none =>
    rw [hcd] at h
    cases h
  | some i =>
    rw [hcd] at h
    obtain ⟨x, s3, h3, h⟩ := code_bind.mp h
    obtain ⟨y, s4, h4, h⟩ := code_bind.mp h
    cases h
    have hcore : core s4 = (core s1).bump i (-1) := by
      rw [endOp_core h4, iput_core h3, beginOp_core h2, Core.bump_ops, Core.ops_ops]
      simp
    have hproc4 : s4.proc = s.proc := (congrArg Core.proc hcore).trans hproc
    obtain ⟨hexact4, hofile, hothers4⟩ := exact_setCdir (p := s4.proc) (x := none) hexact1 hcore
    refine ⟨hexact4, ?_, ?_⟩
    · intro p hp
      rw [← hothers p hp]
      exact hothers4 p (fun heq => hp (heq.trans hproc4))
    · intro fd hfd
      exact (congrFun (hofile s.proc) fd).trans (hnone fd (Or.inl (List.mem_range.mpr hfd)))

theorem rootDir_exact {p : Nat} {u : Unit} (h : rootDir p s = .ok (u, t)) (hexact : (core s).Exact) :
    (core t).Exact ∧ ∀ q, (t.procs q).ofile = (s.procs q).ofile := by
  unfold rootDir at h
  obtain ⟨r, s1, h1, h⟩ := code_bind.mp h
  cases h
  have hname := namei_core h1
  have hcore : ∃ i n, core s1 = (core s).bump i n := by
    cases r with
    | none =>
      refine ⟨0, 0, ?_⟩
      rw [Core.bump_zero]
      exact hname
    | some i => exact ⟨i, 1, hname⟩
  obtain ⟨i, n, hcore⟩ := hcore
  obtain ⟨hexact1, hofile, -⟩ := exact_setCdir (p := p) (x := r) hexact hcore
  exact ⟨hexact1, hofile⟩

/-! ### Runs -/

/-- The counts are exact, and slots that are not in use have no descriptors. -/
structure Sys.Inv (k : Sys) : Prop where
  exact : (core k.fs).Exact
  idle : ∀ p, k.slot p ≠ .live → ∀ fd, fd < NOFILE → (k.fs.procs p).ofile fd = none

theorem Sys.run_eq {k k' : Sys} {p : Nat} {x : M Unit} (h : k.run p x = .ok k') :
    ∃ u t, x { k.fs with proc := p } = .ok (u, t) ∧ k' = { k with fs := t } := by
  unfold Sys.run at h
  split at h
  · rename_i u t hx
    cases h
    exact ⟨u, t, hx, rfl⟩
  · cases h

theorem Sys.Inv.userinit {k k' : Sys} {p : Nat} (h : k.Inv) (hk : k.userinit p = .ok k') :
    k'.Inv := by
  unfold Sys.userinit at hk
  split at hk
  · obtain ⟨k1, h1, hk⟩ := bind_eq_ok.mp hk
    cases hk
    obtain ⟨u, t, hx, rfl⟩ := Sys.run_eq h1
    obtain ⟨hexact, hofile⟩ := rootDir_exact hx h.exact
    refine ⟨hexact, ?_⟩
    intro q hq fd hfd
    have hold : k.slot q ≠ .live := by
      change Function.update k.slot p .live q ≠ .live at hq
      intro hlive
      rw [Function.update_apply] at hq
      split at hq
      · exact hq rfl
      · exact hq hlive
    change (t.procs q).ofile fd = none
    rw [hofile]
    exact h.idle q hold fd hfd
  · cases hk

theorem Sys.Inv.call {k k' : Sys} {p : Nat} {c : Call} (h : k.Inv)
    (hk : k.call p c = .ok k') : k'.Inv := by
  unfold Sys.call at hk
  split at hk
  · rename_i hguard
    obtain ⟨hp, hlive, hpage⟩ := hguard
    obtain ⟨u, t, hx, rfl⟩ := Sys.run_eq hk
    obtain ⟨r, s1, hcode, hx⟩ := code_bind.mp hx
    cases hx
    have heffect := code_effect hcode
    have hexact := h.exact.at hp
    obtain ⟨hshift, htidy⟩ := heffect.shift hexact.tidy
    have hpipes := heffect.pipes hexact.tidy hexact.pipes (by
      intro q hq f w hend
      have hcount : k.fs.taken.count q = k.fs.freed.count q := hpage q hq
      have hused : k.fs.taken.count q = k.fs.freed.count q + 1 := hexact.pipes.used f q w hend
      omega)
    refine ⟨⟨htidy, ?_, hpipes⟩, ?_⟩
    · intro f
      rw [hshift.file f]
      exact (add_zero _).trans (hexact.file f)
    · intro q hq fd hfd
      have hne : q ≠ p := fun heq => hq (heq ▸ hlive)
      have hothers := heffect.others (p := q) hne
      change ((core t).procs q).ofile fd = none
      rw [hothers]
      exact h.idle q hq fd hfd
  · cases hk

theorem Sys.Inv.fork {k k' : Sys} {p : Nat} {np : Option Nat} (h : k.Inv)
    (hk : k.fork p np = .ok k') : k'.Inv := by
  cases np with
  | none =>
    rw [Sys.fork] at hk
    split at hk
    · cases hk
      exact h
    · cases hk
  | some q =>
    rw [Sys.fork] at hk
    split at hk
    · rename_i hguard
      obtain ⟨hp, hlive, hq, hunused⟩ := hguard
      obtain ⟨k1, h1, hk⟩ := bind_eq_ok.mp hk
      cases hk
      obtain ⟨u, t, hx, rfl⟩ := Sys.run_eq h1
      have hidle : k.slot q ≠ .live := by
        rw [hunused]
        decide
      obtain ⟨hexact, hothers⟩ := inherit_exact hq hx (h.idle q hidle) (h.exact.at hp)
      refine ⟨hexact, ?_⟩
      intro r hr fd hfd
      have hne : r ≠ q := by
        rintro rfl
        exact hr (Function.update_self _ _ _)
      have hslot : k.slot r ≠ .live := by
        intro hl
        apply hr
        change Function.update k.slot q .live r = .live
        rw [Function.update_of_ne hne]
        exact hl
      change (t.procs r).ofile fd = none
      rw [hothers r hne]
      exact h.idle r hslot fd hfd
    · cases hk

theorem Sys.Inv.exit {k k' : Sys} {p : Nat} (h : k.Inv) (hk : k.exit p = .ok k') :
    k'.Inv := by
  unfold Sys.exit at hk
  split at hk
  · rename_i hguard
    split at hk
    · cases hk
    · obtain ⟨k1, h1, hk⟩ := bind_eq_ok.mp hk
      cases hk
      obtain ⟨u, t, hx, rfl⟩ := Sys.run_eq h1
      obtain ⟨hexact, hothers, hnone⟩ := exitFiles_exact hx (h.exact.at hguard.1)
      refine ⟨hexact, ?_⟩
      intro q hq fd hfd
      by_cases hne : q = p
      · rw [hne]
        exact hnone fd hfd
      · have hslot : k.slot q ≠ .live := by
          intro hl
          apply hq
          change Function.update k.slot p .zombie q = .live
          rw [Function.update_of_ne hne]
          exact hl
        change (t.procs q).ofile fd = none
        rw [hothers q hne]
        exact h.idle q hslot fd hfd
  · cases hk

theorem Sys.Inv.reap {k k' : Sys} {p q : Nat} (h : k.Inv) (hk : k.reap p q = .ok k') :
    k'.Inv := by
  unfold Sys.reap at hk
  split at hk
  · rename_i hguard
    cases hk
    refine ⟨h.exact, ?_⟩
    intro r hr fd hfd
    refine h.idle r ?_ fd hfd
    intro hl
    have hne : r ≠ q := by
      rintro rfl
      rw [hguard.2.2.2] at hl
      cases hl
    apply hr
    change Function.update k.slot q .unused r = .live
    rw [Function.update_of_ne hne]
    exact hl
  · cases hk

theorem Sys.Inv.step {k k' : Sys} {a : Act} (h : k.Inv) (hk : k.Step a k') : k'.Inv := by
  cases a with
  | userinit p => exact h.userinit hk
  | call p c => exact h.call hk
  | fork p np => exact h.fork hk
  | exit p => exact h.exit hk
  | reap p q => exact h.reap hk

/-- The kernel before `userinit`: no slot is in use and no file is open. -/
structure Sys.Boot (k : Sys) : Prop where
  proc : k.fs.proc < NPROC
  slot : ∀ p, k.slot p = .unused
  file : ∀ f, (k.fs.ftable f).ref = 0 ∧ (k.fs.ftable f).type = .none
  ofile : ∀ p fd, (k.fs.procs p).ofile fd = none
  pages : k.fs.taken = [] ∧ k.fs.freed = []

theorem Sys.Boot.inv {k : Sys} (h : k.Boot) : k.Inv := by
  have hend : ∀ f q w, ¬ (core k.fs).End f q w := by
    rintro f q w ⟨htype, -⟩
    have hnone : (k.fs.ftable f).type = .none := (h.file f).2
    rw [show (k.fs.ftable f).type = .pipe q from htype] at hnone
    cases hnone
  refine ⟨⟨⟨h.proc, fun f _ => (h.file f).2, ?_⟩, ?_, ?_⟩, fun p _ fd _ => h.ofile p fd⟩
  · intro p fd f hf
    exact nomatch (h.ofile p fd).symm.trans hf
  · intro f
    unfold fileBal fdPtrs
    rw [show ((core k.fs).ftable f).ref = 0 from (h.file f).1, Finset.filter_false_of_mem]
    · rfl
    · intro x _ hx
      exact nomatch (h.ofile x.1 x.2).symm.trans hx
  · refine ⟨fun f q w hf => (hend f q w hf).elim, fun f g q w hf => (hend f q w hf).elim,
      fun f q w hf => (hend f q w hf).elim, ?_⟩
    intro q _
    rw [show (core k.fs).taken = [] from h.pages.1, show (core k.fs).freed = [] from h.pages.2]

/-! ### Open files -/

/-- A descriptor of some process is an end of the pipe in page `q`. -/
def Sys.Piped (k : Sys) (q : Nat) : Prop :=
  ∃ p fd f, p < NPROC ∧ fd < NOFILE ∧ (k.fs.procs p).ofile fd = some f ∧
    (k.fs.ftable f).type = .pipe q

theorem Sys.Inv.ref_eq {k : Sys} (h : k.Inv) (f : Nat) :
    (k.fs.ftable f).ref = (core k.fs).fdPtrs f := by
  have hbal : (k.fs.ftable f).ref - ((core k.fs).fdPtrs f : Int) = 0 := h.exact.file f
  omega

theorem fdPtrs_pos {c : Core} {f : Nat} : 0 < c.fdPtrs f ↔
    ∃ p fd, p < NPROC ∧ fd < NOFILE ∧ (c.procs p).ofile fd = some f := by
  unfold fdPtrs
  rw [Finset.card_pos]
  constructor
  · rintro ⟨⟨p, fd⟩, hx⟩
    obtain ⟨hmem, hof⟩ := Finset.mem_filter.mp hx
    obtain ⟨hp, hfd⟩ := mem_fdSlots.mp hmem
    exact ⟨p, fd, hp, hfd, hof⟩
  · rintro ⟨p, fd, hp, hfd, hof⟩
    exact ⟨(p, fd), Finset.mem_filter.mpr ⟨mem_fdSlots.mpr ⟨hp, hfd⟩, hof⟩⟩

/-- A pipe has an end as long as a descriptor is one. -/
theorem Sys.Inv.piped_iff {k : Sys} (h : k.Inv) (q : Nat) :
    k.Piped q ↔ ∃ f w, (core k.fs).End f q w := by
  constructor
  · rintro ⟨p, fd, f, -, -, -, htype⟩
    exact ⟨f, _, htype, rfl⟩
  · rintro ⟨f, w, htype, -⟩
    have href : (k.fs.ftable f).ref ≠ 0 := by
      intro hz
      have hnone := h.exact.tidy.free f hz
      rw [htype] at hnone
      cases hnone
    have hpos : 0 < (core k.fs).fdPtrs f := by
      have := h.ref_eq f
      omega
    obtain ⟨p, fd, hp, hfd, hof⟩ := fdPtrs_pos.mp hpos
    exact ⟨p, fd, f, hp, hfd, hof, htype⟩

/-- **Open files.**  In every state that is reached, the count of a file is the number
    of descriptors that point to it; a file without any is `FD_NONE`; and the page of a
    pipe has been freed once for each time it was taken, except that it is out while a
    descriptor is an end of the pipe. -/
theorem open_file_counts {k k' : Sys} {as : List Act} (hboot : k.Boot) (h : Run Sys.Step k as k') :
    (∀ f, (k'.fs.ftable f).ref = (core k'.fs).fdPtrs f) ∧
      (∀ f, (k'.fs.ftable f).ref = 0 → (k'.fs.ftable f).type = .none ∧
        ∀ p fd, p < NPROC → fd < NOFILE → (k'.fs.procs p).ofile fd ≠ some f) ∧
      ∀ q, (k'.Piped q → k'.fs.taken.count q = k'.fs.freed.count q + 1) ∧
        (¬ k'.Piped q → k'.fs.taken.count q = k'.fs.freed.count q) := by
  have hinv : k'.Inv := h.invariant Sys.Inv hboot.inv fun _ _ _ hi hst => hi.step hst
  refine ⟨hinv.ref_eq, ?_, ?_⟩
  · intro f hz
    refine ⟨hinv.exact.tidy.free f hz, ?_⟩
    intro p fd hp hfd hof
    have hpos : 0 < (core k'.fs).fdPtrs f := fdPtrs_pos.mpr ⟨p, fd, hp, hfd, hof⟩
    have := hinv.ref_eq f
    omega
  · intro q
    constructor
    · intro hq
      obtain ⟨f, w, hend⟩ := (hinv.piped_iff q).mp hq
      exact hinv.exact.pipes.used f q w hend
    · intro hq
      refine hinv.exact.pipes.idle q fun f w hend => hq ?_
      exact (hinv.piped_iff q).mpr ⟨f, w, hend⟩

/-- A kernel on an empty disk, before `userinit`. -/
def blankSys : Sys := ⟨blank, fun _ => .unused, none⟩

theorem blankSys_boot : blankSys.Boot :=
  ⟨by decide, fun _ => rfl, fun _ => ⟨rfl, rfl⟩, fun _ _ => rfl, rfl, rfl⟩

/-- A pipe that the child inherits: when both have closed their ends its page is freed. -/
theorem open_file_counts_pipe : ∃ k', Run Sys.Step blankSys
      [.userinit 0, .call 0 (.pipe true (some 7)), .fork 0 (some 1), .call 0 (.close (some 0)),
        .call 0 (.close (some 1)), .exit 1, .reap 0 1] k' ∧
    k'.fs.freed = [7] ∧ (k'.fs.ftable 0).ref = (core k'.fs).fdPtrs 0 ∧
    (k'.fs.ftable 0).type = .none ∧ ¬ k'.Piped 7 := by
  have hok : okWith (fun k : Sys => decide (k.fs.freed = [7] ∧ k.fs.taken = [7] ∧
      (k.fs.ftable 0).ref = 0)) ([.userinit 0, .call 0 (.pipe true (some 7)), .fork 0 (some 1),
        .call 0 (.close (some 0)), .call 0 (.close (some 1)), .exit 1, .reap 0 1].foldlM Sys.exec
        blankSys) = true := by decide +kernel
  obtain ⟨k', hrun, hok⟩ := okWith_eq_true.mp hok
  obtain ⟨hfreed, htaken, href⟩ := of_decide_eq_true hok
  have hrun' := Run.of_foldlM hrun
  obtain ⟨hrefs, hfree, hpages⟩ := open_file_counts blankSys_boot hrun'
  refine ⟨k', hrun', hfreed, hrefs 0, (hfree 0 href).1, ?_⟩
  intro hpiped
  have hcount := (hpages 7).1 hpiped
  rw [hfreed, htaken] at hcount
  cases hcount

end Yonix.Fs
