/-
  Yonix/Sh/Runcmd.lean
  ====================
  **The shell runs a command (`runcmd` of `sh.c`).**

  `runcmd` is a tree of system calls.  A job is the processes that come from it: each has
  what is left to call, its descriptors and its parent.  The kernel chooses which one goes
  on, whether `open`, `exec`, `pipe` and `fork` succeed, and which child `wait` finds.  A
  program that was executed keeps its descriptors and ends at some time.

  `leaves` says what a command means: the programs, and what each has as standard input
  and output.  A pipe is named by the place of its `|` in the command.
-/
import Yonix.Lib.Run
import Yonix.Sh.Parse

namespace Yonix.Sh

/-- Where a command is in the whole one: `true` is the left or the only part. -/
abbrev Pos := List Bool

/-! ### System calls -/

/-- What a process calls, and what it does with the results. -/
inductive Sys (α : Type) where
  | exit
  | exec (argv : List α) (failed : Sys α)
  | close (fd : Nat) (next : Sys α)
  | openFile (file : α) (mode : Nat) (next : Bool → Sys α)
  | dup (fd : Nat) (next : Sys α)
  /-- of the `|` at this place -/
  | pipe (π : Pos) (next : Option (Nat × Nat) → Sys α)
  | fork (next : Option Bool → Sys α)
  | wait (next : Sys α)
  | print (next : Sys α)

variable {α : Type}

def panic : Sys α := .print .exit

/-- `fork1() == 0` -/
def fork1 (next : Bool → Sys α) : Sys α := .fork fun r => r.elim panic next

def runcmd (π : Pos) : Cmd α → Sys α
  | .exec [] => .exit
  | .exec (x :: argv) => .exec (x :: argv) (.print .exit)
  | .redir cmd file mode fd =>
    .close fd (.openFile file mode fun ok => if ok then runcmd (π ++ [true]) cmd else .print .exit)
  | .list left right =>
    fork1 fun child => if child then runcmd (π ++ [true]) left else .wait (runcmd (π ++ [false]) right)
  | .pipe left right =>
    .pipe π fun r => r.elim panic fun p =>
      fork1 fun child =>
        if child then .close 1 (.dup p.2 (.close p.1 (.close p.2 (runcmd (π ++ [true]) left))))
        else fork1 fun child =>
          if child then .close 0 (.dup p.1 (.close p.1 (.close p.2 (runcmd (π ++ [false]) right))))
          else .close p.1 (.close p.2 (.wait (.wait .exit)))
  | .back cmd => fork1 fun child => if child then runcmd (π ++ [true]) cmd else .exit

/-! ### Jobs -/

inductive File (α : Type) where
  /-- what the shell was started with -/
  | base (n : Nat)
  | path (file : α) (mode : Nat)
  | rd (π : Pos)
  | wr (π : Pos)
deriving DecidableEq

abbrev Fds (α : Type) := List (Option (File α))

inductive Work (α : Type) where
  | shell (code : Sys α)
  | running (argv : List α)
  | zombie

structure Proc (α : Type) where
  work : Work α
  fds : Fds α
  parent : Nat

structure Job (α : Type) where
  procs : Nat → Option (Proc α)
  next : Nat
  /-- what was executed, with the descriptors it got -/
  log : List (List α × Fds α)

/-- Process `p` goes on; its call is granted or not, and `wait` looks at this child. -/
structure Turn where
  p : Nat
  ok : Bool
  child : Nat

/-- The lowest free descriptor. -/
def fdalloc (fds : Fds α) (x : File α) : Option (Fds α × Nat) :=
  (fds.findIdx? Option.isNone).map fun n => (fds.set n (some x), n)

/-- What one system call does. -/
inductive Effect (α : Type) where
  | goes (work : Work α) (fds : Fds α)
  | execs (argv : List α)
  | forks (work child : Work α)
  | waits (work : Work α)
  | exits

/-- The next call of a process; `ok` is what the kernel makes of it. -/
def Work.step (fds : Fds α) (ok : Bool) : Work α → Option (Effect α)
  | .zombie => none
  | .running _ => some .exits
  | .shell .exit => some .exits
  | .shell (.exec argv failed) => some (if ok then .execs argv else .goes (.shell failed) fds)
  | .shell (.close fd next) => some (.goes (.shell next) (fds.set fd none))
  | .shell (.openFile file mode next) =>
    match if ok then fdalloc fds (.path file mode) else none with
    | some (fds', _) => some (.goes (.shell (next true)) fds')
    | none => some (.goes (.shell (next false)) fds)
  | .shell (.dup fd next) =>
    match fds.getD fd none with
    | some x =>
      match fdalloc fds x with
      | some (fds', _) => some (.goes (.shell next) fds')
      | none => some (.goes (.shell next) fds)
    | none => some (.goes (.shell next) fds)
  | .shell (.pipe π next) =>
    match if ok then fdalloc fds (.rd π) else none with
    | some (fds', p0) =>
      match fdalloc fds' (.wr π) with
      | some (fds'', p1) => some (.goes (.shell (next (some (p0, p1)))) fds'')
      | none => some (.goes (.shell (next none)) fds)
    | none => some (.goes (.shell (next none)) fds)
  | .shell (.fork next) =>
    some (if ok then .forks (.shell (next (some false))) (.shell (next (some true))) else .goes (.shell (next none)) fds)
  | .shell (.wait next) => some (.waits (.shell next))
  | .shell (.print next) => some (.goes (.shell next) fds)

def Proc.isZombie (q : Proc α) : Bool :=
  match q.work with
  | .zombie => true
  | _ => false

namespace Job

def set (m : Job α) (p : Nat) (q : Option (Proc α)) : Job α := { m with procs := Function.update m.procs p q }

def isChild (m : Job α) (p r : Nat) : Bool := (m.procs r).any fun q => q.parent = p

def isZombie (m : Job α) (p r : Nat) : Bool := (m.procs r).any fun q => q.parent = p && q.isZombie

def children (m : Job α) (p : Nat) : Finset Nat := (Finset.range m.next).filter fun r => m.isChild p r = true

/-- `exit` closes the descriptors and leaves the children to `init`, which is process 0. -/
def exit (m : Job α) (p : Nat) : Job α where
  procs := fun r => (m.procs r).map fun q =>
    if r = p then { q with work := .zombie, fds := q.fds.map fun _ => none }
    else if q.parent = p then { q with parent := 0 }
    else q
  next := m.next
  log := m.log

/-- `wait` takes a child that has ended, or returns if there is none to wait for. -/
def wait (m : Job α) (p : Nat) (q : Proc α) (r : Nat) : Option (Job α) :=
  if m.isZombie p r then some ((m.set p (some q)).set r none)
  else if (m.children p).Nonempty then none
  else some (m.set p (some q))

/-- A call of process `a.p`, which is `q`. -/
def apply (m : Job α) (a : Turn) (q : Proc α) : Effect α → Option (Job α)
  | .goes work fds => some (m.set a.p (some { q with work := work, fds := fds }))
  | .execs argv => some { m.set a.p (some { q with work := .running argv }) with log := m.log ++ [(argv, q.fds)] }
  | .forks work child =>
    some { (m.set a.p (some { q with work := work })).set m.next (some ⟨child, q.fds, a.p⟩) with next := m.next + 1 }
  | .waits work => m.wait a.p { q with work := work } a.child
  | .exits => some (m.exit a.p)

def act (m : Job α) (a : Turn) : Option (Job α) :=
  (m.procs a.p).bind fun q => (q.work.step q.fds a.ok).bind (m.apply a q)

def Step (m : Job α) (a : Turn) (n : Job α) : Prop := m.act a = some n

end Job

/-! ### What a command means -/

def NOFILE : Nat := 16

/-- Standard input, output and error, and nothing else. -/
def table (i o : File α) : Fds α := some i :: some o :: some (.base 2) :: List.replicate (NOFILE - 3) none

/-- A program at its place, with its standard input and output. -/
structure Leaf (α : Type) where
  argv : List α
  π : Pos
  i : File α
  o : File α
deriving DecidableEq

def leaves (π : Pos) : Cmd α → File α → File α → List (Leaf α)
  | .exec [], _, _ => []
  | .exec (x :: argv), i, o => [⟨x :: argv, π, i, o⟩]
  | .redir cmd file mode fd, i, o =>
    if fd = 0 then leaves (π ++ [true]) cmd (.path file mode) o else leaves (π ++ [true]) cmd i (.path file mode)
  | .list left right, i, o => leaves (π ++ [true]) left i o ++ leaves (π ++ [false]) right i o
  | .pipe left right, i, o => leaves (π ++ [true]) left i (.wr π) ++ leaves (π ++ [false]) right (.rd π) o
  | .back cmd, i, o => leaves (π ++ [true]) cmd i o

/-- What is logged when the leaf is executed. -/
def Leaf.entry (x : Leaf α) : List α × Fds α := (x.argv, table x.i x.o)

/-- The redirections are of standard input and output. -/
def Cmd.Std : Cmd α → Prop
  | .exec _ => True
  | .redir cmd _ _ fd => fd < 2 ∧ cmd.Std
  | .list left right => left.Std ∧ right.Std
  | .pipe left right => left.Std ∧ right.Std
  | .back cmd => cmd.Std

/-- The most calls that a command can take. -/
def cost : Cmd α → Nat
  | .exec _ => 3
  | .redir cmd _ _ _ => cost cmd + 4
  | .list left right => cost left + cost right + 4
  | .pipe left right => cost left + cost right + 18
  | .back cmd => cost cmd + 4

/-- The job when the command is started. -/
def start (c : Cmd α) : Job α where
  procs := fun p => if p = 1 then some ⟨.shell (runcmd [] c), table (.base 0) (.base 1), 0⟩ else none
  next := 2
  log := []


end Yonix.Sh
