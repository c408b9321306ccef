/-
  Yonix/Vm/Elf.lean
  =================
  **`exec` from the bytes of a file, with the registers it sets (`elf.h`, `exec.c`).**

  `Image` of `Vm/Model.lean` is what `exec` gets from the file; here it is read from the
  headers of the file.  `load` is the first half of `exec`, to the guard page, and
  `execRet` is `exec` with the instruction and stack pointers of the trapframe when it
  returns 0.
-/
import Yonix.Lib.Memory
import Yonix.Vm.Frames

namespace Yonix.Vm

/-! ### The file -/

/-- The contents of a file; its size is a `uint`. -/
structure File where
  size : Nat
  byte : Nat → UInt8
  small : size < 2 ^ 32

def ELF_MAGIC : Nat := 0x464C457F
def ELFHDR_SIZE : Nat := 52
def PROGHDR_SIZE : Nat := 32

def File.word (f : File) (off : Nat) : Nat := Memory.word f.byte off
def File.half (f : File) (off : Nat) : Nat := (f.byte off).toNat + 256 * (f.byte (off + 1)).toNat

def File.entry (f : File) : Nat := f.word 24
def File.phoff (f : File) : Nat := f.word 28
def File.phnum (f : File) : Nat := f.half 44

/-- The whole header is there and has the right magic number. -/
def File.header (f : File) : Bool := ELFHDR_SIZE ≤ f.size ∧ f.word 0 = ELF_MAGIC

/-- Program header `i`; `readi` of one that is not wholly in the file falls short. -/
def File.ph (f : File) (i : Nat) : Option Ph :=
  let off := (f.phoff + i * PROGHDR_SIZE) % 2 ^ 32
  if off + PROGHDR_SIZE ≤ f.size then
    some {
      type := f.word off
      off := f.word (off + 4)
      vaddr := f.word (off + 8)
      filesz := f.word (off + 16)
      memsz := f.word (off + 20) }
  else none

/-- What `exec` reads of the file, with the argument strings. -/
def File.image (f : File) (args : List (List UInt8)) : Image where
  header := f.header
  phs := (List.range f.phnum).map f.ph
  file := f.byte
  fileSize := f.size
  args := args

/-! ### The loading part -/

/-- The segments and the two pages of the stack; the size, or `none` for a jump to
    `bad`. -/
def loadImage (d pid : Nat) (img : Image) (s : Core) : Except Stop (Core × Option Nat) := do
  match ← loadPhs d pid img img.phs 0 s with
  | (s, none) => return (s, none)
  | (s, some sz) =>
    let (s, sz) ← allocuvm s d (pgroundup sz) (pgroundup sz + 2 * PGSIZE) pid
    if sz = 0 then return (s, none)
    else
      let s ← clearpteu s d (sz - 2 * PGSIZE)
      return (s, some sz)

/-- The loading part of `exec`: a new directory and its size, or everything undone. -/
def load (pid : Nat) (img : Image) (s : Core) : Except Stop (Core × Option (Nat × Nat)) := do
  match ← setupkvm s with
  | (s, none) => return (s, none)
  | (s, some d) =>
    match ← loadImage d pid img s with
    | (s, none) =>
      let s ← freeuvm s d pid
      return (s, none)
    | (s, some sz) => return (s, some (d, sz))

/-! ### The arguments and the commit -/

/-- The stack of the new image and the stack pointer. -/
def buildStackRet (d sz : Nat) (img : Image) (s : Core) : Except Stop (Core × Option Nat) := do
  match ← pushArgs d img.args 0 sz [] s with
  | (s, none) => return (s, none)
  | (s, some (sp, ustack)) =>
    let argc := img.args.length
    let words := [0xffffffff, argc, (sp + 2 ^ 32 - (argc + 1) * 4) % 2 ^ 32] ++ ustack ++ [0]
    let sp := (sp + 2 ^ 32 - (3 + argc + 1) * 4) % 2 ^ 32
    match ← copyout s d sp (words.flatMap wordBytes) with
    | (s, false) => return (s, none)
    | (s, true) => return (s, some sp)

/-- The registers of the trapframe that `exec` sets. -/
structure Regs where
  eip : Nat
  esp : Nat

/-- `exec` with the registers when it returns 0, and `none` when it returns -1. -/
def execRet (s : Core) (pid : Nat) (P : Proc) (f : File) (args : List (List UInt8)) :
    Except Stop (Core × Option Regs) :=
  if f.header = false then .ok (s, none)
  else do
    match ← load pid (f.image args) s with
    | (s, none) => return (s, none)
    | (s, some (d, sz)) =>
      match ← buildStackRet d sz (f.image args) s with
      | (s, none) =>
        let s ← freeuvm s d pid
        return (s, none)
      | (s, some sp) =>
        let s := s.setProc pid (some { P with page := d, size := sz })
        let s ← freeuvm s P.page pid
        return (s, some ⟨f.entry, sp⟩)

/-! ### It is `exec` -/

variable {s t : Core} {d pid : Nat} {P : Proc}

theorem buildStackRet_fst (sz : Nat) (img : Image) :
    buildStack d sz img s = (buildStackRet d sz img s).map fun r => (r.1, r.2.isSome) := by
  unfold buildStack buildStackRet
  cases pushArgs d img.args 0 sz [] s with
  | error e => rfl
  | ok r =>
    obtain ⟨u, o⟩ := r
    cases o with
    | none => rfl
    | some a =>
      obtain ⟨sp, ustack⟩ := a
      simp only [bind, Except.bind]
      split
      · rename_i heq
        rw [heq]
        rfl
      · rename_i v heq
        rw [heq]
        obtain ⟨w, b⟩ := v
        cases b <;> rfl

/-- `buildImage` is `loadImage` and then the stack. -/
theorem buildImage_eq (img : Image) :
    buildImage d pid img s = (do
      match ← loadImage d pid img s with
      | (s, none) => return (s, none)
      | (s, some sz) =>
        match ← buildStack d sz img s with
        | (s, false) => return (s, none)
        | (s, true) => return (s, some sz)) := by
  unfold buildImage loadImage
  simp only [bind, Except.bind]
  generalize loadPhs d pid img img.phs 0 s = x
  cases x with
  | error e => rfl
  | ok r =>
    obtain ⟨u, o⟩ := r
    cases o with
    | none => rfl
    | some sz =>
      simp only
      generalize allocuvm u d (pgroundup sz) (pgroundup sz + 2 * PGSIZE) pid = x
      cases x with
      | error e => rfl
      | ok r =>
        obtain ⟨v, sz'⟩ := r
        dsimp only
        split
        · rfl
        · generalize clearpteu v d (sz' - 2 * PGSIZE) = y
          cases y with
          | error e => rfl
          | ok w => rfl

theorem execRet_fst (s : Core) (pid : Nat) (P : Proc) (f : File) (args : List (List UInt8)) :
    (execRet s pid P f args).map Prod.fst = exec s pid P (f.image args) := by
  unfold execRet exec load
  change Except.map Prod.fst (if f.header = false then _ else _) = if f.header = false then _ else _
  split
  · rfl
  · cases setupkvm s with
    | error e => rfl
    | ok r =>
      obtain ⟨u, o⟩ := r
      cases o with
      | none => rfl
      | some d =>
        simp only [bind, Except.bind, buildImage_eq]
        cases loadImage d pid (f.image args) u with
        | error e => rfl
        | ok r =>
          obtain ⟨v, o⟩ := r
          cases o with
          | none =>
            simp only [pure, Except.pure]
            cases freeuvm v d pid with
            | error e => rfl
            | ok w => rfl
          | some sz =>
            simp only [pure, Except.pure, buildStackRet_fst]
            cases buildStackRet d sz (f.image args) v with
            | error e => rfl
            | ok r =>
              obtain ⟨w, o⟩ := r
              cases o with
              | none =>
                simp only [Except.map, Option.isSome_none]
                cases freeuvm w d pid with
                | error e => rfl
                | ok x => rfl
              | some sp =>
                simp only [Except.map, Option.isSome_some]
                cases freeuvm (w.setProc pid (some { P with page := d, size := sz })) P.page pid with
                | error e => rfl
                | ok x => rfl

end Yonix.Vm
