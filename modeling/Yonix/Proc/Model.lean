/-
  Yonix/Proc/Model.lean
  =====================
  **Processes and their scheduling (`process.c`, `schedule.c`, `scheduler_class.c`).**

  One CPU: `cur` is the source's `proc`, empty while the scheduler itself runs.
  The process that runs calls `fork`, `lwp_create`, `exec`, `exit`, `wait`,
  `lwp_join`, `sleep`, `kill` and so on; interrupts call `wakeup` and advance
  `ticks`; and when nobody runs the scheduler asks the function of the current
  scheme for the next process.  A process that comes back to the CPU continues
  where it left it, which its field `resume` records: a `wait` or `lwp_join` that slept
  looks through the table once more, and a zombie or a reaped slot has nothing to
  continue with.

  Memory is present only as the set `live` of page directories in use.  Which
  directory address `setupkvm` is given, and whether an allocation fails, is chosen
  by the label.  `p_size`, the open files, the trap frame and the kernel stack are
  left out: no function modelled here depends on them.

  A freed queue entry keeps its place in memory, but `free_slab` overwrites its link
  with the head of the slab free list.  A loop that goes on from such an entry stops
  if that list was empty and walks through free slabs otherwise; the label says
  which, and the second is `stray`.
-/
import Yonix.Lib.Run
import Yonix.Param

namespace Yonix.Proc

abbrev Slot := Fin NPROC

/-! ### The process table -/

inductive Stat where
  | SUNUSED | SEMBRYO | SSLEEPING | READY | SRUN | SZOMB
deriving DecidableEq

inductive Scheme where
  | FIFO | RR | PRIORITY
deriving DecidableEq

/-- A sleep channel: the address of a table slot, or another kernel address. -/
inductive Chan where
  | proc (p : Slot)
  | addr (a : Nat)
deriving DecidableEq

inductive Loop where
  | once | wait | join
deriving DecidableEq

/-- Where a process goes on when it is switched to: in its own code, behind the
    `transform` of a `sleep` entered at `tick0`, behind that of `exit`, nowhere. -/
inductive Resume where
  | user
  | slept (tick0 : Nat) (loop : Loop)
  | dead
  | gone
deriving DecidableEq

/-- `struct proc`; the null pointers are `none`, and `0` for `page`. -/
structure Pcb where
  stat : Stat
  pid : Nat
  procp : Bool
  prt : Option Slot
  page : Nat
  chan : Option Chan
  killed : Bool
  timeSlice : Int
  nice : Int
  spri : Int
  dpri : Int
  avgslp : Int
  resume : Resume

structure Kernel where
  proc : Slot → Pcb
  initproc : Slot
  cur : Option Slot
  scheme : Scheme
  rdyqueue : List Slot
  rdyQDy : Nat → List Slot
  esqueue : List Slot
  nextpid : Nat
  ticks : Nat
  rr : Nat
  live : Nat → Bool

def Kernel.set (s : Kernel) (p : Slot) (f : Pcb → Pcb) : Kernel :=
  { s with proc := Function.update s.proc p (f (s.proc p)) }

-- `search_through_ptablef`
def slots : List Slot := List.finRange NPROC

/-! ### Priorities and time slices -/

def PRI_NUM : Int := 140
def MAX_RT_PRI : Int := 100
def ETERNAL : Int := -255
def SCHED_RR_TIMESLICE : Int := 100
def MIN_TIMESLICE : Int := 100
def TIMER_INTERVAL : Int := 10
def MAX_NICE : Int := 15
def MIN_NICE : Int := -15
def MAX_AVGSLP : Nat := 100
def NQUEUE : Nat := 40

def staticPri (nice : Int) : Int := MAX_RT_PRI + nice + 20

def timeSliceOf (spri : Int) : Int :=
  if spri > 120 then max ((PRI_NUM - spri) * 5) MIN_TIMESLICE
  else max ((PRI_NUM - spri) * 20) MIN_TIMESLICE

-- C division rounds toward zero
def bonus (avgslp : Int) : Int := avgslp.tdiv 10

def dynamicPri (spri bns : Int) : Int := max MAX_RT_PRI (min (spri - bns + 5) (PRI_NUM - 1))

/-- The index `p_dpri - 100` into `rdy_q_dy`. -/
def dyIndex (q : Pcb) : Nat := (q.dpri - MAX_RT_PRI).toNat

/-! ### The scheduling schemes -/

/-- `sched_*_timeslice`. -/
def timeslice (scheme : Scheme) (q : Pcb) : Pcb :=
  match scheme with
  | .FIFO => { q with timeSlice := ETERNAL }
  | .RR => { q with timeSlice := SCHED_RR_TIMESLICE }
  | .PRIORITY =>
    { q with spri := staticPri q.nice, timeSlice := timeSliceOf (staticPri q.nice) }

def insertDy (s : Kernel) (p : Slot) : Kernel :=
  let i := dyIndex (s.proc p)
  { s with rdyQDy := Function.update s.rdyQDy i (s.rdyQDy i ++ [p]) }

def insertFifo (s : Kernel) (p : Slot) : Kernel := { s with rdyqueue := s.rdyqueue ++ [p] }

/-- `sched_*_enqueue`. -/
def enqueue (s : Kernel) (p : Slot) : Kernel :=
  match s.scheme with
  | .FIFO => insertFifo s p
  | .RR => s
  | .PRIORITY => insertDy s p

/-- `sched_*_after` for the process `p` that gives up the CPU. -/
def after (s : Kernel) (p : Slot) : Except Stop Kernel :=
  match s.scheme with
  | .FIFO => .ok (s.set p (timeslice .FIFO))
  | .RR => .ok (s.set p (timeslice .RR))
  | .PRIORITY =>
    let i := dyIndex (s.proc p)
    if p ∈ s.rdyQDy i then
      let s := { s with rdyQDy := Function.update s.rdyQDy i ((s.rdyQDy i).erase p) }
      let s := s.set p fun q =>
        let q := timeslice .PRIORITY q
        { q with dpri := dynamicPri q.spri (bonus q.avgslp) }
      .ok (insertDy s p)
    else .error .stray

/-- The entries that `sched_fifo_init` leaves in the queue.  Its loop frees the first
    one whose process is not ready and cannot go on from there. -/
def fifoSweep (s : Kernel) (slabEmpty : Bool) : List Slot → Except Stop (List Slot)
  | [] => .ok []
  | p :: l =>
    if (s.proc p).stat = .READY then do
      let l ← fifoSweep s slabEmpty l
      return p :: l
    else if slabEmpty then .ok l
    else .error .stray

def rebuild (insert : Kernel → Slot → Kernel) (s : Kernel) : Kernel :=
  slots.foldl (fun s p => if (s.proc p).stat = .READY then insert s p else s) s

/-- `sched_*_init`, called by process `p`. -/
def schedInit (s : Kernel) (p : Slot) (slabEmpty : Bool) : Except Stop Kernel :=
  match s.scheme with
  | .FIFO => do
    let l ← fifoSweep s slabEmpty s.rdyqueue
    return rebuild insertFifo { s with rdyqueue := l }
  | .RR => .ok s
  | .PRIORITY =>
    -- the loop that should clear the queues walks `rdyqueue`, and frees as it goes
    if s.rdyQDy (dyIndex (s.proc p)) = [] ∨ s.rdyqueue = [] then .ok (rebuild insertDy s)
    else if slabEmpty then .ok (rebuild insertDy { s with rdyqueue := s.rdyqueue.tail })
    else .error .stray

def selectScheme (s : Kernel) (p : Slot) (scheme : Scheme) (slabEmpty : Bool) :
    Except Stop Kernel :=
  schedInit { s with scheme := scheme } p slabEmpty

def recalcTimeslice (s : Kernel) : Kernel :=
  slots.foldl (fun s p =>
    if (s.proc p).stat ≠ .SUNUSED then s.set p (timeslice s.scheme) else s) s

/-! ### The process that a scheme function passes to `switch_to` -/

/-- `sched_fifo`.  Its first test never succeeds: the scheduler clears `proc` before
    it asks a scheme. -/
def schedFifo (s : Kernel) : Kernel × Option Slot :=
  match s.cur.filter fun p => (s.proc p).stat = .READY with
  | some p => (s, some p)
  | none =>
    match s.rdyqueue with
    | [] => (s, none)
    | p :: l => ({ s with rdyqueue := l }, some p)

/-- `sched_rr`, with its static pointer `rr`. -/
def schedRr (s : Kernel) : Kernel × Option Slot :=
  match (slots.drop s.rr).find? fun p => (s.proc p).stat = .READY with
  | some p => ({ s with rr := p + 1 }, some p)
  | none => ({ s with rr := 0 }, none)

def schedPriority (s : Kernel) : Kernel × Option Slot :=
  match (List.range NQUEUE).find? fun i => s.rdyQDy i ≠ [] with
  | none => (s, none)
  | some i =>
    match s.rdyQDy i with
    | [] => (s, none)
    | p :: l => ({ s with rdyQDy := Function.update s.rdyQDy i l }, some p)

def sched (s : Kernel) : Kernel × Option Slot :=
  match s.scheme with
  | .FIFO => schedFifo s
  | .RR => schedRr s
  | .PRIORITY => schedPriority s

/-! ### Sleeping, waking, giving up the CPU -/

def transform (s : Kernel) (p : Slot) : Except Stop Kernel :=
  if (s.proc p).stat = .SRUN then .error (.panic .schedRunning) else .ok { s with cur := none }

def giveupCpu (s : Kernel) (p : Slot) : Except Stop Kernel := do
  let s := s.set p fun q => { q with stat := .READY, resume := .user }
  let s ← after (enqueue s p) p
  transform s p

def timesliceYield (s : Kernel) (p : Slot) : Except Stop Kernel :=
  if (s.proc p).timeSlice = ETERNAL then .ok s
  else
    let s := s.set p fun q =>
      { q with timeSlice := q.timeSlice - TIMER_INTERVAL, avgslp := max (-50) (q.avgslp - 1) }
    if (s.proc p).timeSlice ≤ 0 then giveupCpu s p else .ok s

def sleep (s : Kernel) (p : Slot) (e : Option Chan) (loop : Loop) : Except Stop Kernel :=
  transform (s.set p fun q =>
    { q with chan := e, stat := .SSLEEPING, resume := .slept s.ticks loop }) p

-- the sum and the comparison are unsigned, because `tick0 - ticks` is
def avgslpAfter (avgslp : Int) (tick0 ticks : Nat) : Int :=
  let u := ((avgslp + (tick0 - ticks)) % 2 ^ 32).toNat
  if u < MAX_AVGSLP then u else MAX_AVGSLP

/-- The end of `sleep`. -/
def awake (s : Kernel) (p : Slot) (tick0 : Nat) : Kernel :=
  s.set p fun q =>
    { q with chan := none, resume := .user, avgslp := avgslpAfter q.avgslp tick0 s.ticks }

def wakeup (s : Kernel) (e : Option Chan) : Kernel :=
  slots.foldl (fun s p =>
    if (s.proc p).stat = .SSLEEPING ∧ (s.proc p).chan = e then
      enqueue (s.set p fun q => { q with stat := .READY }) p
    else s) s

def kill (s : Kernel) (pid : Nat) : Kernel :=
  match slots.find? fun p => (s.proc p).pid = pid with
  | some p => s.set p fun q =>
      { q with killed := true, stat := if q.stat = .SSLEEPING then .READY else q.stat }
  | none => s

/-! ### Creating processes -/

/-- `procalloc`; `stack` is whether `kalloc` had a page for the kernel stack. -/
def procalloc (s : Kernel) (stack : Bool) : Kernel × Option Slot :=
  match s.esqueue with
  | [] => (s, none)
  | p :: l =>
    let s := { s with esqueue := l, nextpid := s.nextpid + 1 }.set p fun q =>
      let q := { q with
        stat := .SEMBRYO, pid := s.nextpid, nice := 0, spri := staticPri 0, avgslp := 0 }
      let q := timeslice s.scheme q
      { q with dpri := dynamicPri q.spri (bonus q.avgslp) }
    if stack then (s, some p) else (s.set p fun q => { q with stat := .SUNUSED }, none)

inductive Mem where
  | noStack
  | noPages
  | pages (d : Nat)
deriving DecidableEq

def fork (s : Kernel) (p : Slot) (m : Mem) : Kernel :=
  match procalloc s (m ≠ .noStack) with
  | (s, none) => s
  | (s, some n) =>
    match m with
    | .pages d =>
      let s := { s with live := Function.update s.live d true }.set n fun q =>
        { q with page := d, prt := some p, procp := true, stat := .READY, resume := .user }
      enqueue s n
    | _ => { s.set n (fun q => { q with page := 0, stat := .SUNUSED }) with
        esqueue := s.esqueue ++ [n] }

def lwpCreate (s : Kernel) (p : Slot) (stack : Bool) : Kernel :=
  match procalloc s stack with
  | (s, none) => s
  | (s, some n) =>
    let s := s.set n fun q => { q with page := (s.proc p).page }
    if (s.proc n).page = 0 then s
    else
      let s := s.set n fun q =>
        { q with
          prt := if (s.proc p).procp then some p else (s.proc p).prt
          procp := false, stat := .READY, resume := .user }
      enqueue s n

/-! ### Reaping, exiting, replacing the image -/

/-- A call of `freeuvm` on directory `d`, made in state `now` for the slot `p` that is
    being reaped or replaced. -/
structure Freed where
  now : Kernel
  d : Nat
  p : Slot

def freeuvm (s : Kernel) (d : Nat) : Kernel := { s with live := Function.update s.live d false }

/-- What `wait` and `lwp_join` do to the slot of a zombie. -/
def reap (s : Kernel) (p : Slot) : Kernel :=
  { s.set p (fun q =>
      { q with pid := 0, prt := none, killed := false, stat := .SUNUSED, resume := .gone }) with
    esqueue := s.esqueue ++ [p] }

def firstZombie (s : Kernel) (p : Slot) : Option Slot :=
  slots.find? fun q => (s.proc q).prt = some p ∧ (s.proc q).stat = .SZOMB

/-- One pass of `wait` by `p`, down to its return or its `sleep`. -/
def waitLoop (s : Kernel) (p : Slot) : Except Stop (Kernel × List Freed) :=
  match firstZombie s p with
  | some q => .ok (reap (freeuvm s (s.proc q).page) q, [⟨s, (s.proc q).page, q⟩])
  | none =>
    if (∀ q, (s.proc q).prt ≠ some p) ∨ (s.proc p).killed then .ok (s, [])
    else do
      let s ← sleep s p (some (.proc p)) .wait
      return (s, [])

def joinLoop (s : Kernel) (p : Slot) : Except Stop (Kernel × List Freed) :=
  match slots.find? fun q =>
      (s.proc q).prt = some p ∧ (s.proc q).procp = false ∧ (s.proc q).stat = .SZOMB with
  | some q => .ok (reap s q, [])
  | none =>
    if (∀ q, ¬ ((s.proc q).prt = some p ∧ (s.proc q).procp = false)) ∨ (s.proc p).killed then
      .ok (s, [])
    else do
      let s ← sleep s p (some (.proc p)) .join
      return (s, [])

def reparent (s : Kernel) (p : Slot) : Kernel :=
  slots.foldl (fun s q =>
    if (s.proc q).prt = some p then
      let s := s.set q fun x => { x with prt := some s.initproc }
      if (s.proc q).stat = .SZOMB then wakeup s (some (.proc s.initproc)) else s
    else s) s

def exit (s : Kernel) (p : Slot) : Except Stop Kernel :=
  if p = s.initproc then .error (.panic .initExiting)
  else
    let s := wakeup s ((s.proc p).prt.map .proc)
    let s := reparent s p
    transform (s.set p fun q => { q with stat := .SZOMB, resume := .dead }) p

/-- How `exec` ends: before it has a directory, after it built `d`, or with `d` in
    place of the old one. -/
inductive ExecEnd where
  | early
  | bad (d : Nat)
  | commit (d : Nat)
deriving DecidableEq

def execImage (s : Kernel) (p : Slot) (e : ExecEnd) : Kernel × List Freed :=
  match e with
  | .early => (s, [])
  | .bad d =>
    let s := { s with live := Function.update s.live d true }
    (freeuvm s d, [⟨s, d, p⟩])
  | .commit d =>
    let s := { s with live := Function.update s.live d true }
    let old := (s.proc p).page
    let s := s.set p fun q => { q with page := d }
    (freeuvm s old, [⟨s, old, p⟩])

/-! ### The scheduler -/

/-- `switch_to(p)` and what `p` does before it is back in its own code. -/
def switchTo (s : Kernel) (p : Slot) : Except Stop (Kernel × List Freed) :=
  let s := { s with cur := some p }
  if (s.proc p).page = 0 then .error (.panic .noPgdir)
  else
    let s := s.set p fun q => { q with stat := .SRUN }
    match (s.proc p).resume with
    | .user => .ok (s, [])
    | .slept tick0 .once => .ok (awake s p tick0, [])
    | .slept tick0 .wait => waitLoop (awake s p tick0) p
    | .slept tick0 .join => joinLoop (awake s p tick0) p
    | .dead => .error (.panic .zombieExit)
    | .gone => .error .stray

def scheduler (s : Kernel) : Except Stop (Kernel × List Freed) :=
  match sched s with
  | (s, none) => .ok (s, [])
  | (s, some p) => switchTo s p

/-! ### The labels -/

inductive Call where
  | fork (m : Mem)
  | lwpCreate (stack : Bool)
  | exec (e : ExecEnd)
  | exit
  | wait
  | lwpJoin
  | sleep (e : Option Chan)
  | kill (pid : Nat)
  | giveupCpu
  | timesliceYield
  | selectScheme (scheme : Scheme) (slabEmpty : Bool)
  | recalcTimeslice
  | incnice (n : Int)

inductive Act where
  | call (c : Call)
  | wakeup (e : Option Chan)
  | tick
  | scheduler

def incnice (s : Kernel) (p : Slot) (n : Int) : Kernel :=
  let aim := (s.proc p).nice + n
  if MIN_NICE ≤ aim ∧ aim ≤ MAX_NICE then s.set p fun q => { q with nice := aim } else s

-- an address that `kalloc` can return for a new page directory
def Kernel.Fresh (s : Kernel) (d : Nat) : Prop := d ≠ 0 ∧ s.live d = false

instance (s : Kernel) (d : Nat) : Decidable (s.Fresh d) := by unfold Kernel.Fresh; infer_instance

def memOk (s : Kernel) : Mem → Bool
  | .pages d => s.Fresh d
  | _ => true

def endOk (s : Kernel) : ExecEnd → Bool
  | .early => true
  | .bad d => s.Fresh d
  | .commit d => s.Fresh d

def call (s : Kernel) (p : Slot) : Call → Except Stop (Kernel × List Freed)
  | .fork m => if memOk s m then .ok (fork s p m, []) else .error .notCalled
  | .lwpCreate stack => .ok (lwpCreate s p stack, [])
  | .exec e => if endOk s e then .ok (execImage s p e) else .error .notCalled
  | .exit => do return (← exit s p, [])
  | .wait => waitLoop s p
  | .lwpJoin => joinLoop s p
  | .sleep e => do return (← sleep s p e .once, [])
  | .kill pid => .ok (kill s pid, [])
  | .giveupCpu => do return (← giveupCpu s p, [])
  | .timesliceYield => do return (← timesliceYield s p, [])
  | .selectScheme scheme slabEmpty => do return (← selectScheme s p scheme slabEmpty, [])
  | .recalcTimeslice => .ok (recalcTimeslice s, [])
  | .incnice n => .ok (incnice s p n, [])

def exec (s : Kernel) : Act → Except Stop (Kernel × List Freed)
  | .call c =>
    match s.cur with
    | some p => call s p c
    | none => .error .notCalled
  | .wakeup e => .ok (wakeup s e, [])
  | .tick => .ok ({ s with ticks := (s.ticks + 1) % 2 ^ 32 }, [])
  | .scheduler =>
    match s.cur with
    | some _ => .error .notCalled
    | none => scheduler s

def Step (s : Kernel) (a : Act) (t : Kernel) : Prop := ∃ l, exec s a = .ok (t, l)

/-! ### Start-up -/

def unused : Pcb where
  stat := .SUNUSED
  pid := 0
  procp := false
  prt := none
  page := 0
  chan := none
  killed := false
  timeSlice := 0
  nice := 0
  spri := 0
  dpri := 0
  avgslp := 0
  resume := .gone

/-- `esinit`, `rdinit` and the first `select_scheme`. -/
def start : Kernel where
  proc := fun _ => unused
  initproc := ⟨0, NPROC_pos⟩
  cur := none
  scheme := .RR
  rdyqueue := []
  rdyQDy := fun _ => []
  esqueue := slots
  nextpid := 1
  ticks := 0
  rr := 0
  live := fun _ => false

/-- `userinit`, with its page directory at `d`. -/
def userinit (s : Kernel) (d : Nat) : Kernel :=
  match procalloc s true with
  | (s, none) => s
  | (s, some p) =>
    let s := { s with initproc := p, live := Function.update s.live d true }.set p fun q =>
      { q with page := d, procp := true, stat := .READY, resume := .user }
    enqueue s p

end Yonix.Proc
