/-
  Yonix/Sync/Wait.lean
  ====================
  **`fork`, `lwp_create`, `exit`, `wait`, `lwp_join` and `kill`, statement by statement
  (`process.c`).**

  `Proc/Model.lean` takes each of these calls as one step.  Here they are programs of
  `Sync/Machine.lean`, and the timer can fall between any two of their statements.  The
  status and the sleep channel of a slot are those of the machine; the other fields of
  `struct proc` that these functions read are in `Table`.

  The answers of `kalloc` and `copyuvm` are labels.  The code between these statements
  (closing files, copying pages, other system calls) is represented by the places where
  a process may sleep on some other address, `nap`.  A slot whose context is cleared or
  freed is at the place `gone`.
-/
import Yonix.Sync.Machine

namespace Yonix.Sync.Wait

open Yonix.Proc (Stat Slot Chan slots)

structure Table where
  prt : Slot → Option Slot
  procp : Slot → Bool
  killed : Slot → Bool
  pid : Slot → Nat
  esqueue : List Slot
  nextpid : Nat
  initproc : Slot

inductive Made where
  | fork | lwp
deriving DecidableEq

/-- Which of `wait` and `lwp_join` a loop belongs to. -/
inductive Loop where
  | wait | join
deriving DecidableEq

/-- The next statement of a process.  `np` is the slot that is being made, `q` the slot
    a loop over the table is at and `l` the slots that are left. -/
inductive Pc where
  | user
  | gone
  | nap (back : Pc) (a : Nat) (i : SleepPc)
  | allocEmpty (m : Made)
  | allocFirst (m : Made)
  | allocRemove (m : Made) (np : Slot)
  | allocEmbryo (m : Made) (np : Slot)
  | allocPid (m : Made) (np : Slot)
  | allocStack (m : Made) (np : Slot)
  | allocUnused (np : Slot)
  | allocCtxt (m : Made) (np : Slot)
  | forkCopy (np : Slot)
  | forkUnused (np : Slot)
  | forkQueue (np : Slot)
  | setPrt (m : Made) (np : Slot)
  | setCtxt (m : Made) (np : Slot)
  | setProcp (m : Made) (np : Slot)
  | setReady (np : Slot)
  | exitInit
  | exitFiles
  | exitWake (e : Option Slot) (i : WakePc Slot)
  | exitScan (l : List Slot)
  | exitAdopt (q : Slot) (l : List Slot)
  | exitZombie (q : Slot) (l : List Slot)
  | exitRouse (i : WakePc Slot) (l : List Slot)
  | exitDie
  | exitLeave
  | dead
  | scanStart (k : Loop)
  | scan (k : Loop) (haveKid : Bool) (l : List Slot)
  | scanKid (k : Loop) (q : Slot) (l : List Slot)
  | scanZombie (k : Loop) (q : Slot) (l : List Slot)
  | sleep (k : Loop) (i : SleepPc)
  | reapPid (k : Loop) (q : Slot)
  | reapPrt (k : Loop) (q : Slot)
  | reapKilled (k : Loop) (q : Slot)
  | reapStat (k : Loop) (q : Slot)
  | reapQueue (q : Slot)
  | killScan (pid : Nat) (l : List Slot)
  | killKilled (q : Slot)
  | killTest (q : Slot)
  | killReady (q : Slot)
deriving DecidableEq

abbrev M := Machine Slot Chan Pc Table

namespace Table

def setPrt (m : Table) (p : Slot) (w : Option Slot) : Table :=
  { m with prt := Function.update m.prt p w }

def setProcp (m : Table) (p : Slot) (b : Bool) : Table :=
  { m with procp := Function.update m.procp p b }

def setKilled (m : Table) (p : Slot) (b : Bool) : Table :=
  { m with killed := Function.update m.killed p b }

def setPid (m : Table) (p : Slot) (n : Nat) : Table :=
  { m with pid := Function.update m.pid p n }

end Table

/-! ### Entering the kernel, and what it is answered -/

inductive Call where
  | fork
  | lwpCreate
  | exit
  | wait
  | lwpJoin
  | kill (pid : Nat)
  | nap (a : Nat)
  | answer (ok : Bool)

def enter (s : M) (p : Slot) (c : Call) : Except Stop M :=
  match c, s.pc p with
  | .fork, .user => .ok (s.goto p (.allocEmpty .fork))
  | .lwpCreate, .user => .ok (s.goto p (.allocEmpty .lwp))
  | .exit, .user => .ok (s.goto p .exitInit)
  | .wait, .user => .ok (s.goto p (.scanStart .wait))
  | .lwpJoin, .user => .ok (s.goto p (.scanStart .join))
  | .kill pid, .user => .ok (s.goto p (.killScan pid slots))
  | .nap a, .user => .ok (s.goto p (.nap .user a .chan))
  | .nap a, .exitFiles => .ok (s.goto p (.nap .exitFiles a .chan))
  | .nap a, .forkCopy np => .ok (s.goto p (.nap (.forkCopy np) a .chan))
  | .answer ok, .allocStack m np =>
    .ok (s.goto p (if ok then .allocCtxt m np else .allocUnused np))
  | .answer ok, .forkCopy np =>
    .ok (s.goto p (if ok then .setPrt .fork np else .forkUnused np))
  | _, _ => .error .notCalled

/-! ### The statements -/

-- `procalloc`, then `copyuvm` for `fork`
def afterAlloc : Made → Slot → Pc
  | .fork, np => .forkCopy np
  | .lwp, np => .setPrt .lwp np

/-- Whether slot `q` is a child that the loop of `p` looks for. -/
def isKid (m : Table) (p : Slot) (k : Loop) (q : Slot) : Bool :=
  m.prt q = some p ∧ (k = .join → m.procp q = false)

-- `wait` clears `p_stat` last, `lwp_join` first
def reapStart : Loop → Slot → Pc
  | .wait, q => .reapPid .wait q
  | .join, q => .reapStat .join q

def afterKilled : Loop → Slot → Pc
  | .wait, q => .reapStat .wait q
  | .join, q => .reapQueue q

def afterStat : Loop → Slot → Pc
  | .wait, q => .reapQueue q
  | .join, q => .reapPid .join q

/-- The next statement of `p`, which is at the given place. -/
def stmtAt (s : M) (p : Slot) : Pc → Except Stop M
  | .user => .error .notCalled
  | .gone => .error .stray
  | .nap back a i => do
    let (s, j) ← sleepStmt s p (.addr a) i
    return s.goto p (j.elim back (.nap back a))
  -- `procalloc`
  | .allocEmpty m => .ok (s.goto p (if s.mem.esqueue = [] then .user else .allocFirst m))
  | .allocFirst m =>
    match s.mem.esqueue with
    | [] => .error .stray
    | np :: _ => .ok (s.goto p (.allocRemove m np))
  | .allocRemove m np =>
    -- another process may have taken the entry in between
    match s.mem.esqueue with
    | [] => .error .stray
    | q :: l =>
      if q = np then .ok ((s.store { s.mem with esqueue := l }).goto p (.allocEmbryo m np))
      else .error .stray
  | .allocEmbryo m np => .ok ((s.setStat np .SEMBRYO).goto p (.allocPid m np))
  | .allocPid m np =>
    .ok ((s.store { s.mem.setPid np s.mem.nextpid with nextpid := s.mem.nextpid + 1 }).goto p
      (.allocStack m np))
  | .allocUnused np => .ok ((s.setStat np .SUNUSED).goto p .user)
  | .allocCtxt m np => .ok ((s.goto np .gone).goto p (afterAlloc m np))
  | .allocStack _ _ => .error .notCalled
  -- `fork` and `lwp_create`
  | .forkCopy _ => .error .notCalled
  | .forkUnused np => .ok ((s.setStat np .SUNUSED).goto p (.forkQueue np))
  | .forkQueue np =>
    .ok ((s.store { s.mem with esqueue := s.mem.esqueue ++ [np] }).goto p .user)
  | .setPrt .fork np => .ok ((s.store (s.mem.setPrt np (some p))).goto p (.setCtxt .fork np))
  | .setPrt .lwp np =>
    .ok ((s.store (s.mem.setPrt np (if s.mem.procp p then some p else s.mem.prt p))).goto p
      (.setCtxt .lwp np))
  | .setCtxt m np => .ok ((s.goto np .user).goto p (.setProcp m np))
  | .setProcp m np =>
    .ok ((s.store (s.mem.setProcp np (decide (m = .fork)))).goto p (.setReady np))
  | .setReady np => .ok ((s.setStat np .READY).goto p .user)
  -- `exit`
  | .exitInit =>
    if p = s.mem.initproc then .error (.panic .initExiting) else .ok (s.goto p .exitFiles)
  | .exitFiles => .ok (s.goto p (.exitWake (s.mem.prt p) (.test slots)))
  | .exitWake e i =>
    let (s, j) := wakeStmt s (e.map .proc) i
    .ok (s.goto p (j.elim (.exitScan slots) (.exitWake e)))
  | .exitScan [] => .ok (s.goto p .exitDie)
  | .exitScan (q :: l) =>
    .ok (s.goto p (if s.mem.prt q = some p then .exitAdopt q l else .exitScan l))
  | .exitAdopt q l =>
    .ok ((s.store (s.mem.setPrt q (some s.mem.initproc))).goto p (.exitZombie q l))
  | .exitZombie q l =>
    .ok (s.goto p (if s.stat q = .SZOMB then .exitRouse (.test slots) l else .exitScan l))
  | .exitRouse i l =>
    let (s, j) := wakeStmt s (some (.proc s.mem.initproc)) i
    .ok (s.goto p (j.elim (.exitScan l) (.exitRouse · l)))
  | .exitDie => .ok ((s.setStat p .SZOMB).goto p .exitLeave)
  | .exitLeave => do return (← s.transform p).goto p .dead
  | .dead => .error (.panic .zombieExit)
  -- `wait` and `lwp_join`
  | .scanStart k => .ok (s.goto p (.scan k false slots))
  | .scan k kid (q :: l) =>
    .ok (s.goto p (if isKid s.mem p k q then .scanKid k q l else .scan k kid l))
  | .scanKid k q l => .ok (s.goto p (.scanZombie k q l))
  | .scanZombie k q l =>
    .ok (s.goto p (if s.stat q = .SZOMB then reapStart k q else .scan k true l))
  | .scan k kid [] =>
    .ok (s.goto p (if kid = false ∨ s.mem.killed p then .user else .sleep k .chan))
  | .sleep k i => do
    let (s, j) ← sleepStmt s p (.proc p) i
    return s.goto p (j.elim (.scanStart k) (.sleep k))
  | .reapPid k q => .ok ((s.store (s.mem.setPid q 0)).goto p (.reapPrt k q))
  | .reapPrt k q => .ok ((s.store (s.mem.setPrt q none)).goto p (.reapKilled k q))
  | .reapKilled k q => .ok ((s.store (s.mem.setKilled q false)).goto p (afterKilled k q))
  | .reapStat k q => .ok ((s.setStat q .SUNUSED).goto p (afterStat k q))
  | .reapQueue q =>
    .ok ((s.store { s.mem with esqueue := s.mem.esqueue ++ [q] }).goto p .user)
  -- `kill`
  | .killScan _ [] => .ok (s.goto p .user)
  | .killScan pid (q :: l) =>
    .ok (s.goto p (if s.mem.pid q = pid then .killKilled q else .killScan pid l))
  | .killKilled q => .ok ((s.store (s.mem.setKilled q true)).goto p (.killTest q))
  | .killTest q => .ok (s.goto p (if s.stat q = .SSLEEPING then .killReady q else .user))
  | .killReady q => .ok ((s.setStat q .READY).goto p .user)

def code : Program Slot Chan Pc Table Call where
  enter := enter
  stmt s p := stmtAt s p (s.pc p)

/-- Behind `userinit`: one process, `initproc`, in its own code. -/
def boot : M where
  cur := none
  iflag := true
  stat := fun p => if p = ⟨0, NPROC_pos⟩ then .READY else .SUNUSED
  chan := fun _ => none
  pc := fun p => if p = ⟨0, NPROC_pos⟩ then .user else .gone
  mem :=
    { prt := fun _ => none
      procp := fun p => p = ⟨0, NPROC_pos⟩
      killed := fun _ => false
      pid := fun p => if p = ⟨0, NPROC_pos⟩ then 1 else 0
      esqueue := slots.tail
      nextpid := 2
      initproc := ⟨0, NPROC_pos⟩ }

end Yonix.Sync.Wait
