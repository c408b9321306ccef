/-
  Yonix/Console/Model.lean
  ========================
  **Console input (`console.c`).**

  The keyboard interrupt hands characters to `consoleintr` one at a time; processes in
  `consoleread` take what was committed.  A process is interrupted, and loses the CPU,
  between the statement that takes a character and what it does with it, so these are
  two steps.

  `log` and `line` are bookkeeping, the characters committed so far and those of the line
  being edited; `taken` are the characters that readers took off the ring.

  `consoleintr` looks for the line that it saves at `&input.buf[input.r]`, with an index
  that is not reduced.  What lies behind the buffer is not part of the state: the step
  carries the string that is found there.
-/
import Yonix.Lib.Fifo
import Yonix.Lib.Run
import Yonix.Param

namespace Yonix.Console

def INPUT_BUF : Nat := 128
def CMD_BUF : Nat := 30

def KEY_UP : UInt8 := 0xE2
def KEY_DN : UInt8 := 0xE3

/-- `C(x)`. -/
def ctrl (x : Char) : UInt8 := UInt8.ofNat (x.toNat - '@'.toNat)

def newline : UInt8 := 10
def creturn : UInt8 := 13
def delete : UInt8 := 0x7f

/-- `a - b` for unsigned integers. -/
@[irreducible] def dist (a b : Nat) : Nat := (a + 2 ^ 32 - b) % 2 ^ 32

/-- A process in `consoleread`: in the loop with the characters it has, or with one more
    that it has just taken. -/
inductive Reader where
  | idle
  | loop (target : Nat) (out : List UInt8)
  | got (target : Nat) (out : List UInt8) (c : UInt8)

/-- `input` and `cmd_histy`, with the processes that read. -/
structure Input where
  buf : Nat → UInt8
  r : Nat
  w : Nat
  e : Nat
  cmd : Nat → UInt8
  n : Nat
  c : Nat
  /-- the key that ends the dialogue that `consoleintr` is in -/
  dialogue : Option UInt8
  readers : Nat → Reader
  log : List UInt8
  line : List UInt8
  taken : List UInt8

inductive Fault where
  /-- a string of the history runs past its array -/
  | overrun
  /-- not a step that is possible here -/
  | notEnabled
deriving DecidableEq

/-! ### Editing -/

/-- `input.buf[input.e++ % INPUT_BUF] = c`. -/
def Input.put (s : Input) (c : UInt8) : Input :=
  { s with buf := Function.update s.buf (s.e % INPUT_BUF) c, e := (s.e + 1) % 2 ^ 32,
           line := s.line ++ [c] }

/-- `input.e--`. -/
def Input.erase (s : Input) : Input :=
  { s with e := dist s.e 1, line := s.line.dropLast }

/-- The loop of `clear_line`, for as many characters as there are behind `input.w`. -/
def Input.clear : Nat → Input → Input
  | 0, s => s
  | k + 1, s => if s.buf (dist s.e 1 % INPUT_BUF) = newline then s else clear k s.erase

def Input.clearLine (s : Input) : Input := s.clear (dist s.e s.w)

/-! ### History -/

/-- The string at an offset in `cmd_histy.cmd`. -/
def string (cmd : Nat → UInt8) : Nat → Nat → Except Fault (List UInt8)
  | 0, _ => .error .overrun
  | k + 1, i =>
    if cmd i = 0 then .ok []
    else do
      let l ← string cmd k (i + 1)
      return cmd i :: l

/-- `cmd_histy.cmd[i % CMD_BUF]`. -/
def Input.command (s : Input) (i : Nat) : Except Fault (List UInt8) :=
  string s.cmd (INPUT_BUF * CMD_BUF - INPUT_BUF * (i % CMD_BUF)) (INPUT_BUF * (i % CMD_BUF))

/-- `strncmp(p, q, n) != 0`. -/
def strncmp : List UInt8 → List UInt8 → Nat → Bool
  | _, _, 0 => false
  | [], [], _ + 1 => false
  | [], _ :: _, _ + 1 => true
  | _ :: _, [], _ + 1 => true
  | a :: p, b :: q, n + 1 => a ≠ b || strncmp p q n

def store (cmd : Nat → UInt8) : Nat → List UInt8 → Nat → UInt8
  | _, [] => cmd
  | i, a :: l => store (Function.update cmd i a) (i + 1) l

/-- The string at `&input.buf[input.r]` may be `str`. -/
def Input.found (s : Input) (str : List UInt8) : Prop :=
  (∀ a ∈ str, a ≠ 0) ∧
    ∀ i < str.length + 1, s.r + i < INPUT_BUF → s.buf (s.r + i) = (str ++ [0]).getD i 0

instance (s : Input) (str : List UInt8) : Decidable (s.found str) :=
  inferInstanceAs (Decidable ((∀ a ∈ str, a ≠ 0) ∧ ∀ i < str.length + 1, _))

/-- The line is saved if it is not the last one of the history. -/
def Input.save (s : Input) (str : List UInt8) : Except Fault Input := do
  if str.length ≤ 1 then return s
  let last ← s.command (dist s.n 1)
  if strncmp last str (str.length - 1) = false then return s
  let i := INPUT_BUF * (s.n % CMD_BUF)
  if INPUT_BUF * CMD_BUF < i + str.length then .error .overrun
  return { s with cmd := store s.cmd i (str.dropLast ++ [0]), n := (s.n + 1) % 2 ^ 32 }

/-- The history line `c`, up to a newline. -/
def Input.recalled (s : Input) (c : Nat) : Except Fault (List UInt8) := do
  let l ← s.command (dist c 1)
  return l.takeWhile (· ≠ newline)

/-- `clear_line(); cmd_histy.c = c; put_histy()`. -/
def Input.recall (s : Input) (c : Nat) : Except Fault Input := do
  let l ← s.recalled c
  return l.foldl Input.put { s.clearLine with c := c }

/-! ### `consoleintr` -/

def Input.commit (s : Input) (str : List UInt8) : Except Fault Input :=
  if s.found str then do
    let s ← { s with w := s.e, log := s.log ++ s.line, line := [] }.save str
    return { s with c := (s.n + 1) % 2 ^ 32 }
  else .error .notEnabled

/-- The default case. -/
def Input.typed (s : Input) (c : UInt8) (str : List UInt8) : Except Fault Input :=
  if c ≠ 0 ∧ dist s.e s.r < INPUT_BUF then
    let c := if c = creturn then newline else c
    let s := s.put c
    if c = newline ∨ c = ctrl 'D' ∨ s.e = (s.r + INPUT_BUF) % 2 ^ 32 then s.commit str else .ok s
  else .ok s

/-- A character from `getc`. -/
def Input.intr (s : Input) (c : UInt8) (str : List UInt8) : Except Fault Input :=
  match s.dialogue with
  | some q =>
    if c = q then
      -- `^Z` falls through to the default case
      if c = ctrl 'Z' then { s with dialogue := none }.typed c str
      else .ok { s with dialogue := none }
    else .ok s
  | none =>
    if c = ctrl 'P' ∨ c = ctrl 'C' then .ok s
    else if c = ctrl 'U' then .ok s.clearLine
    else if c = ctrl 'H' ∨ c = delete then .ok (if s.e = s.w then s else s.erase)
    else if c = ctrl 'L' ∨ c = ctrl 'R' ∨ c = ctrl 'S' ∨ c = ctrl 'Z' then
      .ok { s with dialogue := some c }
    else if c = KEY_UP then if 1 < s.c then s.recall (s.c - 1) else .ok s
    else if c = KEY_DN then if s.c < s.n then s.recall (s.c + 1) else .ok s
    else s.typed c str

/-! ### `consoleread` -/

def Input.setReader (s : Input) (p : Nat) (x : Reader) : Input :=
  { s with readers := Function.update s.readers p x }

/-- `c = input.buf[input.r++ % INPUT_BUF]`. -/
def Input.take (s : Input) (p target : Nat) (out : List UInt8) : Input :=
  let c := s.buf (s.r % INPUT_BUF)
  { s with r := (s.r + 1) % 2 ^ 32, taken := s.taken ++ [c] }.setReader p (.got target out c)

/-- `input.r--`. -/
def Input.putBack (s : Input) : Input :=
  { s with r := dist s.r 1, taken := s.taken.dropLast }

/-- What is done with the character. -/
def Input.settle (s : Input) (p target : Nat) (out : List UInt8) (c : UInt8) : Input :=
  if c = ctrl 'D' then (if out = [] then s else s.putBack).setReader p .idle
  else
    let out := out ++ [c]
    s.setReader p (if c = newline ∨ target ≤ out.length then .idle else .loop target out)

inductive Act where
  /-- a character arrives, with the string that is at `&input.buf[input.r]` afterwards -/
  | key (c : UInt8) (str : List UInt8)
  /-- `consoleread(ip, dst, n)` is called -/
  | read (p n : Nat)
  /-- the process takes a character -/
  | take (p : Nat)
  /-- the process goes on with the character -/
  | settle (p : Nat)
  /-- `consoleread` returns -1 to a process that was killed -/
  | killed (p : Nat)

def Input.exec (s : Input) : Act → Except Fault Input
  | .key c str => s.intr c str
  | .read p n =>
    match s.readers p with
    | .idle => .ok (s.setReader p (if n = 0 then .idle else .loop n []))
    | _ => .error .notEnabled
  | .take p =>
    match s.readers p with
    | .loop target out => if s.r = s.w then .error .notEnabled else .ok (s.take p target out)
    | _ => .error .notEnabled
  | .settle p =>
    match s.readers p with
    | .got target out c => .ok (s.settle p target out c)
    | _ => .error .notEnabled
  | .killed p =>
    match s.readers p with
    | .loop _ _ => if s.r = s.w then .ok (s.setReader p .idle) else .error .notEnabled
    | _ => .error .notEnabled

def start : Input :=
  ⟨fun _ => 0, 0, 0, 0, fun _ => 0, 0, 0, none, fun _ => .idle, [], [], []⟩

end Yonix.Console
