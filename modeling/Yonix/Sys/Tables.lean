/-
  Yonix/Sys/Tables.lean
  =====================
  **The function tables of the kernel (`syscall.c`, `sysproc.c`, `schedule.c`, `fs.c`).**

  Three tables are indexed by what a process passes in: `_syscalls` by `eax`, `sched_reftable`
  by the scheme that `sys_sched` has set, and `devsw` by the major number of a device.  An
  entry outside of a table and a call through a null entry go astray.

  `syscall` compares `num` with the size of its table in bytes, and `sys_sched` compares `n`
  with the size of an `int`, both as unsigned numbers.  So the system calls up to 43 and
  those from 176 on are safe, and so is every scheme but 3; `readi` and `writei` check the
  major number as it is stored (`tables_safe_iff`).
-/
import Yonix.Proc.Ranges

namespace Yonix.Sys.Tables

open Yonix.Proc (schemeOf)

/-- Reading `table[i]`. -/
def entry {α : Type} (table : List α) (i : Nat) : Except Stop α :=
  match table[i]? with
  | some x => .ok x
  | none => .error .stray

/-! ### System calls -/

/-- The functions `sys_fork` and so on. -/
inductive Handler where
  | fork | exit | wait | pipe | read | kill | exec | fstat | chdir | dup | getpid | sbrk | sleep
  | uptime | open | write | mknod | unlink | link | mkdir | close | incnice | decnice | sched
  | lwpCreate | lwpJoin | schedName | dsstore | dsrestart | atomAdd | atomSub | atomMul | atomDiv
  | atomMod | atomSet | atomSwp | semInit | semP | semV | mutInit | mutP | mutV | toggleDebug
deriving DecidableEq

-- `SYS_fork` and so on
def Handler.num : Handler → Nat
  | fork => 1 | exit => 2 | wait => 3 | pipe => 4 | read => 5 | kill => 6 | exec => 7 | fstat => 8
  | chdir => 9 | dup => 10 | getpid => 11 | sbrk => 12 | sleep => 13 | uptime => 14 | .open => 15
  | write => 16 | mknod => 17 | unlink => 18 | link => 19 | mkdir => 20 | close => 21
  | incnice => 22 | decnice => 23 | sched => 24 | lwpCreate => 25 | lwpJoin => 26
  | schedName => 27 | dsstore => 28 | dsrestart => 29 | atomAdd => 30 | atomSub => 31
  | atomMul => 32 | atomDiv => 33 | atomMod => 34 | atomSet => 35 | atomSwp => 36 | semInit => 37
  | semP => 38 | semV => 39 | mutInit => 40 | mutP => 41 | mutV => 42 | toggleDebug => 43

-- `__lo_syscll__`
def loSyscll : List Handler :=
  [.fork, .exit, .wait, .pipe, .read, .kill, .exec, .fstat, .chdir, .dup, .getpid, .sbrk, .sleep,
    .uptime, .open, .write, .mknod, .unlink, .link, .mkdir, .close, .incnice, .decnice, .sched,
    .lwpCreate, .lwpJoin, .schedName, .dsstore, .dsrestart, .atomAdd, .atomSub, .atomMul, .atomDiv,
    .atomMod, .atomSet, .atomSwp, .semInit, .semP, .semV, .mutInit, .mutP, .mutV, .toggleDebug]

/-- The table `_syscalls`, as long as its designated initialisers make it; the others are null. -/
def syscalls : List (Option Handler) :=
  (List.range ((loSyscll.map Handler.num).foldr max 0 + 1)).map fun i =>
    loSyscll.find? fun h => h.num = i

def POINTER : Nat := 4

/-- `syscall`: the handler that is called, or none where `eax` becomes -1. -/
def syscall (eax : BitVec 32) : Except Stop (Option Handler) :=
  if eax.toNat < POINTER * syscalls.length then do
    match ← entry syscalls eax.toNat with
    | some h => return some h
    | none => throw .stray
  else .ok none

/-! ### Schemes -/

/-- The table `sched_reftable`. -/
def schedReftable : List Proc.Scheme := [.FIFO, .RR, .PRIORITY]

/-- `cpu->scheme`. -/
structure Cpu where
  scheme : Nat

-- `sizeof (SCHEME_NUMS)`
def SIZEOF_INT : Nat := 4

/-- `select_scheme` as `main` calls it. -/
def boot : Cpu := ⟨1⟩

/-- A function of `sched_reftable[cpu->scheme]` is called. -/
def useScheme (cpu : Cpu) : Except Stop Proc.Scheme := entry schedReftable cpu.scheme

/-- `sys_sched`: `init` and `timeslice` of the new scheme are called. -/
def sysSched (cpu : Cpu) (n : BitVec 32) : Except Stop (Cpu × Int) :=
  if SIZEOF_INT ≤ n.toNat then .ok (cpu, -1)
  else do
    let cpu : Cpu := ⟨n.toNat⟩
    let _ ← useScheme cpu
    let _ ← useScheme cpu
    return (cpu, 0)

inductive Act where
  /-- `sys_sched` -/
  | sched (n : BitVec 32)
  /-- any of the other calls through the table -/
  | use

def exec (cpu : Cpu) : Act → Except Stop Cpu
  | .sched n => do return (← sysSched cpu n).1
  | .use => do
    let _ ← useScheme cpu
    return cpu

/-! ### Devices -/

def NDEV : Nat := 10
def CONSOLE : Nat := 1

inductive Device where
  | consoleread
  | consolewrite
deriving DecidableEq

structure Devsw where
  read : Option Device
  write : Option Device
deriving DecidableEq

/-- The table `devsw` after `consoleinit`. -/
def devsw : List Devsw :=
  (List.replicate NDEV ⟨none, none⟩).set CONSOLE ⟨some .consoleread, some .consolewrite⟩

/-- The `major` of the inode that `sys_mknod` makes, a `short`. -/
def mknodMajor (major : BitVec 32) : Int := (major.setWidth 16).toInt

/-- `readi` and `writei` of a device: what is called, or none where they return -1. -/
def deviceCall (method : Devsw → Option Device) (major : Int) : Except Stop (Option Device) :=
  if major < 0 ∨ NDEV ≤ major then .ok none
  else do return method (← entry devsw major.toNat)

def readi (major : Int) : Except Stop (Option Device) := deviceCall Devsw.read major

def writei (major : Int) : Except Stop (Option Device) := deviceCall Devsw.write major

/-! ### What is safe -/

/-- A handler of the table is called, or `eax` becomes -1. -/
def SyscallSafe (eax : BitVec 32) : Prop :=
  syscall eax = .ok none ∨ ∃ h, some h ∈ syscalls ∧ syscall eax = .ok (some h)

/-- -1 with the scheme as it was, or the scheme is an entry of the table. -/
def SchedSafe (cpu : Cpu) (n : BitVec 32) : Prop :=
  sysSched cpu n = .ok (cpu, -1) ∨
    ∃ t, sysSched cpu n = .ok (t, 0) ∧ t.scheme < schedReftable.length ∧ t.scheme = n.toNat

/-- -1, or an entry of the table that is not null. -/
def CallSafe (method : Devsw → Option Device) (call : Except Stop (Option Device)) : Prop :=
  call = .ok none ∨ ∃ d ∈ devsw, ∃ f, method d = some f ∧ call = .ok (some f)

variable {α : Type} {table : List α} {i : Nat} {n : BitVec 32} {cpu : Cpu} {acts : List Act}

theorem entry_of_lt (h : i < table.length) : entry table i = .ok table[i] := by
  unfold entry
  rw [List.getElem?_eq_getElem h]

theorem entry_of_le (h : table.length ≤ i) : entry table i = .error .stray := by
  unfold entry
  rw [List.getElem?_eq_none h]

/-- Looking a scheme up in the table is what the scheduler's model does. -/
theorem entry_schemes (n : Nat) : entry schedReftable n = schemeOf n := by
  match n with
  | 0 | 1 | 2 => rfl
  | n + 3 => exact entry_of_le (Nat.le_add_left 3 n)

/-! ### System calls -/

theorem length_syscalls : syscalls.length = 44 := by
  unfold syscalls
  rw [List.length_map, List.length_range]
  simp [loSyscll, Handler.num]

theorem entry_syscalls (hi : i < 44) : entry syscalls i = .ok (loSyscll.find? fun h => h.num = i) := by
  rw [entry_of_lt (by rwa [length_syscalls])]
  unfold syscalls
  rw [List.getElem_map, List.getElem_range]

theorem syscalls_zero : entry syscalls 0 = .ok none := entry_syscalls (by decide)

/-- Every number from 1 to 43 has a handler. -/
theorem syscalls_some (h1 : 1 ≤ i) (hi : i ≤ 43) : ∃ h, entry syscalls i = .ok (some h) := by
  have hall : ∀ i : Fin 44, 1 ≤ i.val → (loSyscll.find? fun h => h.num = i.val).isSome = true := by
    decide
  obtain ⟨h, hh⟩ := Option.isSome_iff_exists.mp (hall ⟨i, by omega⟩ h1)
  exact ⟨h, by rw [entry_syscalls (by omega), hh]⟩

theorem mem_of_entry {x : α} (h : entry table i = .ok x) : x ∈ table := by
  unfold entry at h
  split at h
  · rename_i hx
    cases h
    exact List.mem_of_getElem? hx
  · cases h

theorem not_safe_of_stray {eax : BitVec 32} (h : syscall eax = .error .stray) : ¬ SyscallSafe eax := by
  rintro (hnone | ⟨x, -, hx⟩)
  · rw [h] at hnone
    cases hnone
  · rw [h] at hx
    cases hx

theorem syscall_safe_iff (eax : BitVec 32) :
    SyscallSafe eax ↔ 1 ≤ eax.toNat ∧ eax.toNat ≤ 43 ∨ 176 ≤ eax.toNat := by
  by_cases hsize : 176 ≤ eax.toNat
  · refine iff_of_true (Or.inl ?_) (Or.inr hsize)
    unfold syscall POINTER
    rw [length_syscalls, if_neg (by omega)]
  · have hread : syscall eax = entry syscalls eax.toNat >>= fun o =>
        match o with
        | some h => pure (some h)
        | none => throw .stray := by
      unfold syscall POINTER
      rw [length_syscalls, if_pos (by omega)]
    by_cases hzero : eax.toNat = 0
    · refine iff_of_false (not_safe_of_stray ?_) (by omega)
      rw [hread, hzero, syscalls_zero]
      rfl
    · by_cases hlen : eax.toNat ≤ 43
      · obtain ⟨h, hh⟩ := syscalls_some (by omega) hlen
        refine iff_of_true (Or.inr ⟨h, mem_of_entry hh, ?_⟩) (Or.inl ⟨by omega, hlen⟩)
        rw [hread, hh]
        rfl
      · -- past the end of the table
        refine iff_of_false (not_safe_of_stray ?_) (by omega)
        rw [hread, entry_of_le (by rw [length_syscalls]; omega)]
        rfl

/-! ### Schemes -/

theorem sysSched_high (h : 4 ≤ n.toNat) : sysSched cpu n = .ok (cpu, -1) := if_pos h

theorem sysSched_scheme (h : n.toNat < 3) : sysSched cpu n = .ok (⟨n.toNat⟩, 0) := by
  have huse : useScheme ⟨n.toNat⟩ = .ok schedReftable[n.toNat] := entry_of_lt h
  unfold sysSched SIZEOF_INT
  rw [if_neg (by omega)]
  dsimp only
  rw [huse]
  rfl

theorem sysSched_three (h : n.toNat = 3) : sysSched cpu n = .error .stray := by
  unfold sysSched SIZEOF_INT
  rw [if_neg (by omega), h]
  rfl

theorem sched_safe_iff (cpu : Cpu) (n : BitVec 32) : SchedSafe cpu n ↔ n.toNat ≠ 3 := by
  constructor
  · intro h h3
    unfold SchedSafe at h
    rw [sysSched_three h3] at h
    rcases h with h | ⟨t, h, -⟩ <;> cases h
  · intro h
    by_cases h4 : 4 ≤ n.toNat
    · exact Or.inl (sysSched_high h4)
    · have h3 : n.toNat < 3 := by omega
      exact Or.inr ⟨⟨n.toNat⟩, sysSched_scheme h3, h3, rfl⟩

/-- One call, from a scheme of the table. -/
theorem exec_defined (hcpu : cpu.scheme < 3) {a : Act} :
    (∃ t, exec cpu a = .ok t ∧ t.scheme < 3) ∨
      exec cpu a = .error .stray ∧ ∃ n, n.toNat = 3 ∧ a = .sched n := by
  cases a with
  | use =>
    left
    have huse : useScheme cpu = .ok schedReftable[cpu.scheme] := entry_of_lt hcpu
    refine ⟨cpu, ?_, hcpu⟩
    change useScheme cpu >>= _ = _
    rw [huse]
    rfl
  | sched n =>
    by_cases h3 : n.toNat = 3
    · right
      refine ⟨?_, n, h3, rfl⟩
      change sysSched cpu n >>= _ = _
      rw [sysSched_three h3]
      rfl
    · left
      rcases (sched_safe_iff cpu n).mpr h3 with h | ⟨t, h, hlt, -⟩
      · refine ⟨cpu, ?_, hcpu⟩
        change sysSched cpu n >>= _ = _
        rw [h]
        rfl
      · refine ⟨t, ?_, hlt⟩
        change sysSched cpu n >>= _ = _
        rw [h]
        rfl

/-- A run of calls stays inside the table exactly when none of them asks for scheme 3. -/
theorem run_defined_iff (hcpu : cpu.scheme < 3) :
    (∃ t, acts.foldlM exec cpu = .ok t) ↔ ∀ n, .sched n ∈ acts → n.toNat ≠ 3 := by
  induction acts generalizing cpu with
  | nil => exact iff_of_true ⟨cpu, rfl⟩ (fun _ h => absurd h List.not_mem_nil)
  | cons a acts ih =>
    rw [List.foldlM_cons]
    rcases exec_defined (a := a) hcpu with ⟨t, ht, hlt⟩ | ⟨hstray, n, h3, rfl⟩
    · have hgood : ∀ n, a = .sched n → n.toNat ≠ 3 := by
        rintro n rfl h3
        change sysSched cpu n >>= _ = _ at ht
        rw [sysSched_three h3] at ht
        cases ht
      rw [ht]
      refine (ih hlt).trans ?_
      constructor
      · intro h n hn
        rcases List.mem_cons.mp hn with rfl | hn
        · exact hgood n rfl
        · exact h n hn
      · intro h n hn
        exact h n (List.mem_cons_of_mem _ hn)
    · refine iff_of_false ?_ fun h => h n List.mem_cons_self h3
      rintro ⟨t, ht⟩
      rw [hstray] at ht
      cases ht

/-! ### Devices -/

theorem deviceCall_safe (method : Devsw → Option Device) (major : Int) :
    CallSafe method (deviceCall method major) := by
  unfold deviceCall
  split
  · exact Or.inl rfl
  · rename_i h
    have hlt : major.toNat < devsw.length := by
      change major.toNat < 10
      unfold NDEV at h
      omega
    rw [entry_of_lt hlt]
    cases hm : method devsw[major.toNat] with
    | none =>
      left
      change Except.ok (method devsw[major.toNat]) = _
      rw [hm]
    | some f =>
      right
      refine ⟨devsw[major.toNat], List.getElem_mem hlt, f, hm, ?_⟩
      change Except.ok (method devsw[major.toNat]) = _
      rw [hm]

/-- **The tables are indexed safely** by system calls with a handler or from 176 on, by every
    scheme but 3, at once and for the rest of a run, and by every major number. -/
theorem tables_safe_iff (eax n major : BitVec 32) (cpu : Cpu) (acts : List Act) :
    (SyscallSafe eax ↔ 1 ≤ eax.toNat ∧ eax.toNat ≤ 43 ∨ 176 ≤ eax.toNat) ∧
    (SchedSafe cpu n ↔ n.toNat ≠ 3) ∧
    ((∃ cpu, acts.foldlM exec boot = .ok cpu) ↔ ∀ n, .sched n ∈ acts → n.toNat ≠ 3) ∧
    CallSafe Devsw.read (readi (mknodMajor major)) ∧
      CallSafe Devsw.write (writei (mknodMajor major)) :=
  ⟨syscall_safe_iff eax, sched_safe_iff cpu n, run_defined_iff (by decide), deviceCall_safe _ _,
    deviceCall_safe _ _⟩

/-- 50 in `eax` is past the end of `_syscalls`, and the scheme 3 past that of
    `sched_reftable`. -/
theorem tables_overrun : ¬ SyscallSafe 50 ∧ ¬ SyscallSafe 0 ∧ ¬ SchedSafe boot 3 := by
  refine ⟨?_, ?_, ?_⟩
  · rw [syscall_safe_iff]
    decide
  · rw [syscall_safe_iff]
    decide
  · rw [sched_safe_iff]
    decide

end Yonix.Sys.Tables
