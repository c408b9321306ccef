/-
  Yonix/Sys/Trapframe.lean
  ========================
  **The trap frames that `trapret` restores (`trapasm.S`, `process.c`, `exec.c`,
  `sysproc.c`).**

  The frame of a process is at the top of its kernel stack, in the kernel's half of
  memory.  `userinit` builds the first one; `fork` and `lwp_create` copy it, `exec` and
  `syscall` patch it, `dsrestart` overwrites it with 76 bytes from the caller, and a call
  that stores through an unchecked address can hit it like any other kernel memory.  The
  state is that half of memory and, of each process, `p_tf`, `p_stack` and `p_size`; the
  user's half, the open files and whatever else a call looks at come with the label.

  On a trap the processor and `alltraps` write the frame anew, from what `trapret` has
  loaded before and what the program has made of it: it can load `ds` and `es`, and set
  the interrupt flag if the frame gave it the I/O privilege level for that.  That
  `kalloc` returns a page that is nobody's kernel stack, that sizes stay below
  `KERNBASE`, and that the rest of the kernel keeps off the frames, is `Given`.
-/
import Yonix.Lib.Run
import Yonix.Sys.Memmove

namespace Yonix.Sys.Frames

/-! ### Frames -/

def SEG_UCODE : Nat := 4
def SEG_UDATA : Nat := 5
def DPL_USER : Nat := 3

/-- Offsets in `struct trapframe`. -/
def EAX : Nat := 28
def ES : Nat := 40
def DS : Nat := 44
def EIP : Nat := 56
def CS : Nat := 60
def EFLAGS : Nat := 64
def ESP : Nat := 68
def SS : Nat := 72

abbrev Mem := Nat → UInt8

def half (b : Mem) (k : Nat) : Nat := (b k).toNat + 256 * (b (k + 1)).toNat

def word (b : Mem) (k : Nat) : Nat := half b k + 65536 * half b (k + 2)

/-- `FL_IF`, bit 9 of the flags. -/
def interruptsOn (b : Mem) : Prop := (b (EFLAGS + 1)).toNat / 2 % 2 = 1

/-- The bytes of a frame have the user's selectors, and interrupts on. -/
def UserBytes (b : Mem) : Prop :=
  half b CS = SEG_UCODE * 8 + DPL_USER ∧ half b DS = SEG_UDATA * 8 + DPL_USER ∧
    half b ES = SEG_UDATA * 8 + DPL_USER ∧ half b SS = SEG_UDATA * 8 + DPL_USER ∧ interruptsOn b

instance (b : Mem) : Decidable (interruptsOn b) := inferInstanceAs (Decidable (_ = _))

instance (b : Mem) : Decidable (UserBytes b) := inferInstanceAs (Decidable (_ ∧ _ ∧ _ ∧ _ ∧ _))

/-- `FL_IOPL`. -/
def iopl (b : Mem) : Nat := (b (EFLAGS + 1)).toNat / 16 % 4

/-- `FL_VM`. -/
def vm (b : Mem) : Nat := (b (EFLAGS + 2)).toNat / 2 % 2

/-- In addition the program can neither change the interrupt flag nor is in virtual
    8086 mode. -/
def UserFrame (b : Mem) : Prop := UserBytes b ∧ iopl b < 3 ∧ vm b = 0

instance (b : Mem) : Decidable (UserFrame b) := inferInstanceAs (Decidable (_ ∧ _ ∧ _))

/-- The offsets that matter. -/
def vital (k : Nat) : Prop :=
  k = CS ∨ k = CS + 1 ∨ k = DS ∨ k = DS + 1 ∨ k = ES ∨ k = ES + 1 ∨ k = SS ∨ k = SS + 1 ∨
    k = EFLAGS + 1 ∨ k = EFLAGS + 2

theorem UserFrame.congr {b c : Mem} (h : UserFrame b) (hk : ∀ k, vital k → c k = b k) :
    UserFrame c := by
  obtain ⟨⟨h1, h2, h3, h4, h5⟩, h6, h7⟩ := h
  unfold half at h1 h2 h3 h4
  refine ⟨⟨?_, ?_, ?_, ?_, ?_⟩, ?_, ?_⟩
  · unfold half
    rw [hk CS (by simp [vital]), hk (CS + 1) (by simp [vital])]
    exact h1
  · unfold half
    rw [hk DS (by simp [vital]), hk (DS + 1) (by simp [vital])]
    exact h2
  · unfold half
    rw [hk ES (by simp [vital]), hk (ES + 1) (by simp [vital])]
    exact h3
  · unfold half
    rw [hk SS (by simp [vital]), hk (SS + 1) (by simp [vital])]
    exact h4
  · unfold interruptsOn
    rw [hk (EFLAGS + 1) (by simp [vital])]
    exact h5
  · unfold iopl
    rw [hk (EFLAGS + 1) (by simp [vital])]
    exact h6
  · unfold vm
    rw [hk (EFLAGS + 2) (by simp [vital])]
    exact h7

/-- The bytes of memory from `a` on. -/
def bytesAt (m : Mem) (a : Nat) : Mem := fun k => m (a + k)

/-- Store `v` as `w` bytes at `a`. -/
def put (m : Mem) (a w v : Nat) : Mem :=
  fun x => if a ≤ x ∧ x < a + w then Bytes.leByte v (x - a) else m x

/-- `*dst = *src`. -/
def copyFrame (m : Mem) (src dst : Nat) : Mem :=
  fun x => if dst ≤ x ∧ x < dst + TFSIZE then m (src + (x - dst)) else m x

/-- The second byte of the flags: `IOPL` does not change, the interrupt flag only with
    `IOPL` 3. -/
def flags1 (old new : UInt8) : UInt8 :=
  UInt8.ofNat (new.toNat / 64 * 64 + old.toNat / 16 % 4 * 16 + new.toNat / 4 % 4 * 4 +
    (if old.toNat / 16 % 4 < 3 then old.toNat / 2 % 2 else new.toNat / 2 % 2) * 2 + new.toNat % 2)

/-- The third byte of the flags: the program does not enter virtual 8086 mode. -/
def flags2 (old new : UInt8) : UInt8 :=
  UInt8.ofNat (new.toNat / 4 * 4 + old.toNat / 2 % 2 * 2 + new.toNat % 2)

/-- What a trap pushes at offset `k`, for registers `regs`.  There is one code and one
    stack selector for user mode; `ds` and `es` are what the program has loaded. -/
def pushed (b regs : Mem) (k : Nat) : UInt8 :=
  if k = CS ∨ k = CS + 1 ∨ k = SS ∨ k = SS + 1 then b k
  else if k = EFLAGS + 1 then flags1 (b k) (regs k)
  else if k = EFLAGS + 2 then flags2 (b k) (regs k)
  else regs k

def trapEntry (m : Mem) (tf : Nat) (regs : Mem) : Mem :=
  fun x => if tf ≤ x ∧ x < tf + TFSIZE then pushed (bytesAt m tf) regs (x - tf) else m x

/-! ### The data -/

structure Proc where
  tf : Nat
  stack : UInt32
  size : Nat

structure Traps where
  mem : Mem
  procs : Nat → Option Proc

/-- The trap frame on the kernel stack in page `k`. -/
def frameOf (k : Nat) : Nat := k + PGSIZE - TFSIZE

/-- What a call of process `P` works on: the user's half of memory and the other
    components are those of `x`. -/
def view (s : Traps) (P : Proc) (x : Space) : Space :=
  { x with
    mem := fun a => if a < KERNBASE then x.mem a else s.mem a
    stored := []
    size := P.size
    tf := fun k => s.mem (P.tf + k)
    stack := P.stack }

/-- `p_tf->eax` of the caller gets the result. -/
def ret (m : Mem) (P : Proc) (r : Int) : Mem := put m (P.tf + EAX) 4 (ofInt r)

/-! ### The calls -/

/-- `userinit`, with kernel stack `k` in memory `m`. -/
def userinit (m : Mem) (k : Nat) : Traps :=
  let tf := frameOf k
  let m := fun x => if tf ≤ x ∧ x < tf + TFSIZE then 0 else m x
  let m := put m (tf + CS) 2 (SEG_UCODE * 8 + DPL_USER)
  let m := put m (tf + DS) 2 (SEG_UDATA * 8 + DPL_USER)
  let m := put m (tf + ES) 2 (SEG_UDATA * 8 + DPL_USER)
  let m := put m (tf + SS) 2 (SEG_UDATA * 8 + DPL_USER)
  let m := put m (tf + EFLAGS) 4 0x200
  let m := put m (tf + ESP) 4 PGSIZE
  let m := put m (tf + EIP) 4 0
  ⟨m, Function.update (fun _ => none) 1 (some ⟨tf, 0, PGSIZE⟩)⟩

/-- `fork` with kernel stack `k` for the child; its `p_stack` is what the slot had. -/
def fork (s : Traps) (P : Proc) (child k : Nat) (stack : UInt32) : Traps :=
  let tf := frameOf k
  let m := put (copyFrame s.mem P.tf tf) (tf + EAX) 4 0
  ⟨ret m P child, Function.update s.procs child (some ⟨tf, stack, P.size⟩)⟩

/-- The commit of `exec`. -/
def exec (s : Traps) (pid : Nat) (P : Proc) (entry sp size : Nat) : Traps :=
  let m := put (put s.mem (P.tf + EIP) 4 entry) (P.tf + ESP) 4 sp
  ⟨ret m P 0, Function.update s.procs pid (some { P with size := size })⟩

/-- `lwp_create` with kernel stack `k`, once the arguments are read. -/
def lwpCreate (s : Traps) (P : Proc) (x : Space) (child k task arg stack stksz : Nat) : Traps :=
  let tf := frameOf k
  let m := put (copyFrame s.mem P.tf tf) (tf + EAX) 4 0
  let m := put m (tf + EIP) 4 task
  let m := put m (tf + ESP) 4 ((stack + stksz + (2 ^ 32 - 4)) % 2 ^ 32)
  let v := view { s with mem := m } P x
  let v := v.storeWord (word v.mem (tf + ESP)) arg
  let v := v.storeWord (word v.mem (tf + ESP) + (2 ^ 32 - 4)) 0xffffffff
  let m := put v.mem (tf + ESP) 4 ((word v.mem (tf + ESP) + (2 ^ 32 - 4)) % 2 ^ 32)
  ⟨ret m P child, Function.update s.procs child (some ⟨tf, UInt32.ofNat stack, P.size⟩)⟩

def sysLwpCreate (s : Traps) (P : Proc) (x : Space) (k : Nat) : Traps :=
  let v := view s P x
  match argint v 0, argint v 1, argint v 2, argint v 3 with
  | some task, some arg, some stack, some stksz =>
    if toInt stksz < 0 then { s with mem := ret s.mem P (-1) }
    else match x.freshProc with
      | none => { s with mem := ret s.mem P (-1) }
      | some child => lwpCreate s P x child k task arg stack stksz
  | _, _, _, _ => { s with mem := ret s.mem P (-1) }

def sysDsstore (s : Traps) (P : Proc) (x : Space) : Traps :=
  let v := view s P x
  match argint v 0, argint v 1, argint v 2 with
  | some stack, some tf, some stksz =>
    let v := memmove stack P.stack.toNat stksz v
    let v := memmove tf P.tf TFSIZE v
    { s with mem := ret v.mem P 0 }
  | _, _, _ => { s with mem := ret s.mem P (-1) }

def sysDsrestart (s : Traps) (P : Proc) (x : Space) : Traps :=
  let v := view s P x
  match argint v 0, argint v 1, argint v 2 with
  | some stack, some tf, some stksz =>
    let v := memmove P.stack.toNat stack stksz v
    let v := memmove P.tf tf TFSIZE v
    { s with mem := ret v.mem P 0 }
  | _, _, _ => { s with mem := ret s.mem P (-1) }

/-- A call that changes no frame of its own accord. -/
def sysOther (s : Traps) (P : Proc) (x : Space) (c : Call) : Option Traps :=
  match perform (view s P x) c with
  | (.ok r, t) => some { s with mem := ret t.mem P r }
  | (.error .asleep, t) => some { s with mem := t.mem }
  | (.error _, _) => none

/-! ### The labels -/

inductive Act where
  | trap (pid : Nat) (regs : Mem)
  | fork (pid child k : Nat) (stack : UInt32)
  | exec (pid entry sp size : Nat)
  | sbrk (pid size : Nat)
  | exit (pid : Nat)
  | lwpCreate (pid : Nat) (x : Space) (k : Nat)
  | dsstore (pid : Nat) (x : Space)
  | dsrestart (pid : Nat) (x : Space)
  | other (pid : Nat) (x : Space) (c : Call)
  | kernel (m : Mem)

/-- The calls that have a label of their own. -/
def OwnLabel : Call → Bool
  | .lwpCreate | .dsstore | .dsrestart => true
  | _ => false

/-- `k` for the process that the label names. -/
def withProc (s : Traps) (pid : Nat) (k : Proc → Option Traps) : Option Traps :=
  match s.procs pid with
  | none => none
  | some P => k P

def act (s : Traps) : Act → Option Traps
  -- the frame of virtual 8086 mode has another layout
  | .trap pid regs => withProc s pid fun P =>
      if vm (bytesAt s.mem P.tf) = 1 then none else some { s with mem := trapEntry s.mem P.tf regs }
  | .fork pid child k stack => withProc s pid fun P => some (fork s P child k stack)
  | .exec pid entry sp size => withProc s pid fun P => some (exec s pid P entry sp size)
  | .sbrk pid size => withProc s pid fun P => some
      { s with procs := Function.update s.procs pid (some { P with size := size }) }
  | .exit pid => withProc s pid fun _ => some { s with procs := Function.update s.procs pid none }
  | .lwpCreate pid x k => withProc s pid fun P => some (sysLwpCreate s P x k)
  | .dsstore pid x => withProc s pid fun P => some (sysDsstore s P x)
  | .dsrestart pid x => withProc s pid fun P => some (sysDsrestart s P x)
  | .other pid x c => if OwnLabel c then none else withProc s pid fun P => sysOther s P x c
  | .kernel m => some { s with mem := m }

/-- A page from `kalloc`. -/
def NewStack (s : Traps) (k : Nat) : Prop :=
  KERNBASE ≤ k ∧ PGSIZE ∣ k ∧ k + PGSIZE ≤ 2 ^ 32 ∧ ∀ pid P, s.procs pid = some P → P.tf ≠ frameOf k

/-- What the rest of the kernel promises about a label. -/
def Given (s : Traps) : Act → Prop
  | .fork _ child k _ => s.procs child = none ∧ NewStack s k
  | .lwpCreate _ x k => ∀ child, x.freshProc = some child → s.procs child = none ∧ NewStack s k
  | .exec _ _ _ size | .sbrk _ size => size < KERNBASE
  | .kernel m => ∀ pid P, s.procs pid = some P → ∀ k < TFSIZE, m (P.tf + k) = s.mem (P.tf + k)
  | _ => True

def Step (s : Traps) (a : Act) (t : Traps) : Prop := Given s a ∧ act s a = some t

/-- Every process will return to user mode. -/
def UserMode (s : Traps) : Prop := ∀ pid P, s.procs pid = some P → UserBytes (bytesAt s.mem P.tf)

/-! ### The condition -/

/-- The program has not loaded another data selector, the call stores in the caller's
    memory only, and a frame that it restores is one of user mode. -/
def Harmless (s : Traps) : Act → Prop
  | .trap _ regs => half regs DS = SEG_UDATA * 8 + DPL_USER ∧ half regs ES = SEG_UDATA * 8 + DPL_USER
  | .other pid x c => ∀ P, s.procs pid = some P → Permits (view s P x) c
  | .lwpCreate pid x _ => ∀ P, s.procs pid = some P → Permits (view s P x) .lwpCreate
  | .dsstore pid x => ∀ P, s.procs pid = some P → Permits (view s P x) .dsstore
  | .dsrestart pid x => ∀ P, s.procs pid = some P → Permits (view s P x) .dsrestart ∧
      ∀ stack tf stksz, argint (view s P x) 0 = some stack → argint (view s P x) 1 = some tf →
        argint (view s P x) 2 = some stksz →
        UserFrame fun k => (memmove P.stack.toNat stack stksz (view s P x)).load (tf + k)
  | _ => True

/-! ### Copies -/

/-- `memmove` to a place that is not at the very beginning or end of memory. -/
theorem memmove_mem {d p n : Nat} {v : Space} (hlo : n ≤ d) (hd : d + n ≤ 2 ^ 32) (hp : p < 2 ^ 32) :
    ∀ k < n, (memmove d p n v).mem (d + k) = v.load (p + k) := by
  unfold memmove
  split
  · rename_i hover
    refine copyDown_mem n hd ?_
    intro j k hkj hjn heq
    omega
  · rename_i hover
    refine copyUp_mem n hd ?_
    intro j k hjk hkn heq
    omega

theorem copyUp_size (n : Nat) : ∀ (d p : Nat) (v : Space), (copyUp d p n v).size = v.size := by
  induction n with
  | zero => exact fun _ _ _ => rfl
  | succ n ih => exact fun d p v => ih _ _ (v.store d (v.load p))

theorem copyDown_size (n : Nat) : ∀ (d p : Nat) (v : Space), (copyDown d p n v).size = v.size := by
  induction n with
  | zero => exact fun _ _ _ => rfl
  | succ n ih =>
    intro d p v
    unfold copyDown
    dsimp only
    rw [ih]
    rfl

theorem memmove_size (d p n : Nat) (v : Space) : (memmove d p n v).size = v.size := by
  unfold memmove
  split
  · exact copyDown_size n _ _ v
  · exact copyUp_size n d p v

/-! ### Frames in memory -/

theorem put_of_not_mem {m : Mem} {a w v x : Nat} (h : x < a ∨ a + w ≤ x) : put m a w v x = m x :=
  if_neg (by omega)

theorem toNat_leByte (v j : Nat) : (Bytes.leByte v j).toNat = v / 256 ^ j % 256 :=
  UInt8.toNat_ofNat'

theorem half_put (m : Mem) (a v : Nat) (hv : v < 65536) : half (put m a 2 v) a = v := by
  unfold half put
  rw [if_pos (by omega), if_pos (by omega), toNat_leByte, toNat_leByte, Nat.sub_self,
    Nat.add_sub_cancel_left, pow_zero, pow_one]
  omega

theorem word_put (m : Mem) (a v : Nat) (hv : v < 2 ^ 32) : word (put m a 4 v) a = v := by
  have h0 : put m a 4 v a = Bytes.leByte v 0 := by simp [put]
  have h1 : put m a 4 v (a + 1) = Bytes.leByte v 1 := by simp [put]
  have h2 : put m a 4 v (a + 2) = Bytes.leByte v 2 := by simp [put]
  have h3 : put m a 4 v (a + 2 + 1) = Bytes.leByte v 3 := by
    unfold put
    rw [if_pos (by omega)]
    congr 1
    omega
  unfold word half
  rw [h0, h1, h2, h3, toNat_leByte, toNat_leByte, toNat_leByte, toNat_leByte]
  norm_num
  omega

theorem vital_lt {k : Nat} (h : vital k) : k < TFSIZE := by
  unfold vital CS DS ES SS EFLAGS at h
  unfold TFSIZE
  omega

theorem toNat_flags1 (old new : UInt8) : (flags1 old new).toNat / 16 % 4 = old.toNat / 16 % 4 ∧
    (old.toNat / 16 % 4 < 3 → (flags1 old new).toNat / 2 % 2 = old.toNat / 2 % 2) := by
  have hlt := new.toNat_lt
  unfold flags1
  rw [UInt8.toNat_ofNat']
  split <;> omega

theorem toNat_flags2 (old new : UInt8) : (flags2 old new).toNat / 2 % 2 = old.toNat / 2 % 2 := by
  have hlt := new.toNat_lt
  unfold flags2
  rw [UInt8.toNat_ofNat']
  omega

theorem userFrame_pushed {b regs : Mem} (h : UserFrame b)
    (hds : half regs DS = SEG_UDATA * 8 + DPL_USER) (hes : half regs ES = SEG_UDATA * 8 + DPL_USER) :
    UserFrame (pushed b regs) := by
  obtain ⟨⟨h1, -, -, h4, h5⟩, h6, h7⟩ := h
  have hf1 : pushed b regs (EFLAGS + 1) = flags1 (b (EFLAGS + 1)) (regs (EFLAGS + 1)) := rfl
  have hf2 : pushed b regs (EFLAGS + 2) = flags2 (b (EFLAGS + 2)) (regs (EFLAGS + 2)) := rfl
  obtain ⟨hio, hif⟩ := toNat_flags1 (b (EFLAGS + 1)) (regs (EFLAGS + 1))
  refine ⟨⟨h1, hds, hes, h4, ?_⟩, ?_, ?_⟩
  · unfold interruptsOn
    rw [hf1, hif h6]
    exact h5
  · unfold iopl
    rw [hf1, hio]
    exact h6
  · unfold vm
    rw [hf2, toNat_flags2]
    exact h7

/-! ### The invariant -/

/-- A frame at the top of a kernel stack. -/
def Placed (tf : Nat) : Prop := KERNBASE ≤ tf ∧ tf % PGSIZE = PGSIZE - TFSIZE ∧ tf + TFSIZE ≤ 2 ^ 32

structure Inv (s : Traps) : Prop where
  placed : ∀ pid P, s.procs pid = some P → Placed P.tf
  apart : ∀ pid pid' P P', s.procs pid = some P → s.procs pid' = some P' → P.tf = P'.tf → pid = pid'
  size : ∀ pid P, s.procs pid = some P → P.size < KERNBASE
  user : ∀ pid P, s.procs pid = some P → UserFrame (bytesAt s.mem P.tf)

/-- Memory `m` has the same bytes that matter in every frame of `s`. -/
def Keeps (s : Traps) (m : Mem) : Prop :=
  ∀ pid P, s.procs pid = some P → ∀ k, vital k → m (P.tf + k) = s.mem (P.tf + k)

variable {s t : Traps} {P : Proc} {pid : Nat}

theorem placed_disjoint {a b : Nat} (ha : Placed a) (hb : Placed b) :
    a = b ∨ a + TFSIZE ≤ b ∨ b + TFSIZE ≤ a := by
  unfold Placed PGSIZE TFSIZE at *
  omega

theorem Inv.keep (h : Inv s) {m : Mem} (hm : Keeps s m) : Inv { s with mem := m } := by
  refine ⟨h.placed, h.apart, h.size, ?_⟩
  intro pid P hP
  exact (h.user pid P hP).congr fun k hk => hm pid P hP k hk

theorem Keeps.of_kernel {m : Mem} (h : Inv s) (hm : ∀ x, KERNBASE ≤ x → m x = s.mem x) :
    Keeps s m := by
  intro pid P hP k _
  have := (h.placed pid P hP).1
  exact hm _ (by omega)

/-- A field of the caller's own frame, away from the bytes that matter. -/
theorem Keeps.put {m : Mem} (h : Inv s) (hm : Keeps s m) (hP : s.procs pid = some P) {off w v : Nat}
    (hw : off + w ≤ TFSIZE) (hoff : ∀ k, vital k → k < off ∨ off + w ≤ k) :
    Keeps s (put m (P.tf + off) w v) := by
  intro pid' P' hP' k hk
  rw [put_of_not_mem, hm pid' P' hP' k hk]
  have hlt := vital_lt hk
  rcases placed_disjoint (h.placed pid P hP) (h.placed pid' P' hP') with heq | hlt | hlt
  · rcases hoff k hk with h1 | h1 <;> omega
  · omega
  · omega

theorem vital_eax (k : Nat) (hk : vital k) : k < EAX ∨ EAX + 4 ≤ k := by
  unfold vital CS DS ES SS EFLAGS at hk
  unfold EAX
  omega

theorem vital_eip (k : Nat) (hk : vital k) : k < EIP ∨ EIP + 4 ≤ k := by
  unfold vital CS DS ES SS EFLAGS at hk
  unfold EIP
  omega

theorem vital_esp (k : Nat) (hk : vital k) : k < ESP ∨ ESP + 4 ≤ k := by
  unfold vital CS DS ES SS EFLAGS at hk
  unfold ESP
  omega

theorem Keeps.ret {m : Mem} (h : Inv s) (hm : Keeps s m) (hP : s.procs pid = some P) (r : Int) :
    Keeps s (ret m P r) :=
  hm.put h hP (by decide) vital_eax

/-- A process record with the same frame. -/
theorem Inv.setSize (h : Inv s) (hP : s.procs pid = some P) {size : Nat} (hs : size < KERNBASE) :
    Inv { s with procs := Function.update s.procs pid (some { P with size := size }) } := by
  have hold : ∀ pid' P', Function.update s.procs pid (some { P with size := size }) pid' = some P' →
      ∃ Q, s.procs pid' = some Q ∧ P'.tf = Q.tf ∧ P'.size < KERNBASE := by
    intro pid' P' hP'
    rw [Function.update_apply] at hP'
    split at hP'
    · rename_i heq
      cases hP'
      exact ⟨P, heq ▸ hP, rfl, hs⟩
    · exact ⟨P', hP', rfl, h.size pid' P' hP'⟩
  refine ⟨?_, ?_, ?_, ?_⟩
  · intro pid' P' hP'
    obtain ⟨Q, hQ, htf, -⟩ := hold pid' P' hP'
    rw [htf]
    exact h.placed pid' Q hQ
  · intro pid₁ pid₂ P₁ P₂ h₁ h₂ heq
    obtain ⟨Q₁, hQ₁, htf₁, -⟩ := hold pid₁ P₁ h₁
    obtain ⟨Q₂, hQ₂, htf₂, -⟩ := hold pid₂ P₂ h₂
    exact h.apart pid₁ pid₂ Q₁ Q₂ hQ₁ hQ₂ (by rw [← htf₁, ← htf₂, heq])
  · intro pid' P' hP'
    obtain ⟨-, -, -, hlt⟩ := hold pid' P' hP'
    exact hlt
  · intro pid' P' hP'
    obtain ⟨Q, hQ, htf, -⟩ := hold pid' P' hP'
    rw [htf]
    exact h.user pid' Q hQ

/-- A new process with a user frame on a stack of its own. -/
theorem Inv.add (h : Inv s) {child k : Nat} {Q : Proc} (hk : NewStack s k) (htf : Q.tf = frameOf k)
    (hs : Q.size < KERNBASE) (hQ : UserFrame (bytesAt s.mem Q.tf)) :
    Inv { s with procs := Function.update s.procs child (some Q) } := by
  obtain ⟨hk1, hk2, hk3, hk4⟩ := hk
  have hplace : Placed Q.tf := by
    rw [htf]
    unfold Placed frameOf PGSIZE TFSIZE at *
    omega
  have hcase : ∀ pid P, Function.update s.procs child (some Q) pid = some P →
      pid = child ∧ P = Q ∨ pid ≠ child ∧ s.procs pid = some P := by
    intro pid P hP
    rw [Function.update_apply] at hP
    split at hP
    · rename_i heq
      exact Or.inl ⟨heq, (Option.some.inj hP).symm⟩
    · rename_i hne
      exact Or.inr ⟨hne, hP⟩
  refine ⟨?_, ?_, ?_, ?_⟩
  · intro pid P hP
    rcases hcase pid P hP with ⟨-, rfl⟩ | ⟨-, hP⟩
    · exact hplace
    · exact h.placed pid P hP
  · intro pid pid' P P' hP hP' heq
    rcases hcase pid P hP with ⟨hpid, hPQ⟩ | ⟨-, hold⟩
    · rcases hcase pid' P' hP' with ⟨hpid', -⟩ | ⟨-, hold'⟩
      · rw [hpid, hpid']
      · rw [hPQ] at heq
        exact (hk4 pid' P' hold' (heq.symm.trans htf)).elim
    · rcases hcase pid' P' hP' with ⟨-, hPQ'⟩ | ⟨-, hold'⟩
      · rw [hPQ'] at heq
        exact (hk4 pid P hold (heq.trans htf)).elim
      · exact h.apart pid pid' P P' hold hold' heq
  · intro pid P hP
    rcases hcase pid P hP with ⟨-, rfl⟩ | ⟨-, hP⟩
    · exact hs
    · exact h.size pid P hP
  · intro pid P hP
    rcases hcase pid P hP with ⟨-, rfl⟩ | ⟨-, hP⟩
    · exact hQ
    · exact h.user pid P hP

/-! ### Each call -/

theorem Inv.trap (h : Inv s) (hP : s.procs pid = some P) {regs : Mem}
    (hds : half regs DS = SEG_UDATA * 8 + DPL_USER) (hes : half regs ES = SEG_UDATA * 8 + DPL_USER) :
    Inv { s with mem := trapEntry s.mem P.tf regs } := by
  refine ⟨h.placed, h.apart, h.size, ?_⟩
  intro pid' P' hP'
  by_cases hpid : P'.tf = P.tf
  · have hown : ∀ k, vital k → bytesAt (trapEntry s.mem P.tf regs) P'.tf k =
        pushed (bytesAt s.mem P.tf) regs k := by
      intro k hk
      have hlt := vital_lt hk
      unfold bytesAt trapEntry
      rw [hpid, if_pos (by omega), Nat.add_sub_cancel_left]
      rfl
    have huser := h.user pid' P' hP'
    rw [hpid] at huser
    exact (userFrame_pushed huser hds hes).congr hown
  · refine (h.user pid' P' hP').congr ?_
    intro k hk
    have hlt := vital_lt hk
    refine if_neg ?_
    rcases placed_disjoint (h.placed pid P hP) (h.placed pid' P' hP') with heq | hle | hle
    · exact (hpid heq.symm).elim
    · omega
    · omega

theorem newStack_placed {k : Nat} (hk : NewStack s k) : Placed (frameOf k) := by
  obtain ⟨h1, h2, h3, -⟩ := hk
  unfold Placed frameOf PGSIZE TFSIZE at *
  omega

/-- The frame of a new process, before its fields are set: a copy of the caller's. -/
theorem copyFrame_keeps (h : Inv s) (hP : s.procs pid = some P) {k : Nat} (hk : NewStack s k) :
    Keeps s (copyFrame s.mem P.tf (frameOf k)) ∧
      UserFrame (bytesAt (copyFrame s.mem P.tf (frameOf k)) (frameOf k)) := by
  refine ⟨?_, ?_⟩
  · intro pid' P' hP' j hj
    have hlt := vital_lt hj
    refine if_neg ?_
    rcases placed_disjoint (newStack_placed hk) (h.placed pid' P' hP') with heq | hle | hle
    · exact (hk.2.2.2 pid' P' hP' heq.symm).elim
    · omega
    · omega
  · refine (h.user pid P hP).congr ?_
    intro j hj
    have hlt := vital_lt hj
    unfold bytesAt copyFrame
    rw [if_pos (by omega), Nat.add_sub_cancel_left]

/-- A field of a new frame. -/
theorem put_new {m : Mem} {k off w v : Nat} (h : Inv s) (hm : Keeps s m) (hk : NewStack s k)
    (hw : off + w ≤ TFSIZE) : Keeps s (put m (frameOf k + off) w v) := by
  intro pid' P' hP' j hj
  have hlt := vital_lt hj
  rw [put_of_not_mem, hm pid' P' hP' j hj]
  rcases placed_disjoint (newStack_placed hk) (h.placed pid' P' hP') with heq | hle | hle
  · exact (hk.2.2.2 pid' P' hP' heq.symm).elim
  · omega
  · omega

theorem userFrame_put {m : Mem} {a off w v : Nat} (h : UserFrame (bytesAt m a))
    (hoff : ∀ k, vital k → k < off ∨ off + w ≤ k) : UserFrame (bytesAt (put m (a + off) w v) a) := by
  refine h.congr ?_
  intro k hk
  refine put_of_not_mem ?_
  rcases hoff k hk with h1 | h1
  · exact Or.inl (by omega)
  · exact Or.inr (by omega)

/-- Returning to the caller leaves a frame elsewhere alone. -/
theorem userFrame_ret {m : Mem} {k : Nat} (h : Inv s) (hP : s.procs pid = some P) (hk : NewStack s k)
    (hu : UserFrame (bytesAt m (frameOf k))) (r : Int) :
    UserFrame (bytesAt (ret m P r) (frameOf k)) := by
  refine hu.congr ?_
  intro j hj
  have hlt := vital_lt hj
  refine put_of_not_mem ?_
  have heax : EAX + 4 ≤ TFSIZE := by decide
  rcases placed_disjoint (newStack_placed hk) (h.placed pid P hP) with heq | hle | hle
  · exact (hk.2.2.2 pid P hP heq.symm).elim
  · exact Or.inl (by omega)
  · exact Or.inr (by omega)

theorem Inv.fork (h : Inv s) (hP : s.procs pid = some P) {child k : Nat} (hk : NewStack s k)
    (stack : UInt32) : Inv (fork s P child k stack) := by
  obtain ⟨hcopy, huser⟩ := copyFrame_keeps h hP hk
  have hput := put_new (v := 0) h hcopy hk (by decide : EAX + 4 ≤ TFSIZE)
  have hret := hput.ret h hP child
  have hnew := userFrame_ret h hP hk (userFrame_put (v := 0) huser vital_eax) child
  exact (h.keep hret).add (Q := ⟨frameOf k, stack, P.size⟩) hk rfl (h.size pid P hP) hnew

theorem Inv.exec (h : Inv s) (hP : s.procs pid = some P) {entry sp size : Nat}
    (hs : size < KERNBASE) : Inv (exec s pid P entry sp size) := by
  have h1 : Keeps s (put s.mem (P.tf + EIP) 4 entry) :=
    Keeps.put h (fun _ _ _ _ _ => rfl) hP (by decide) vital_eip
  have h2 : Keeps s (put (put s.mem (P.tf + EIP) 4 entry) (P.tf + ESP) 4 sp) :=
    h1.put h hP (by decide) vital_esp
  exact (h.keep (h2.ret h hP 0)).setSize hP hs

/-- Stores in the caller's memory do not reach the kernel's half. -/
theorem kernel_of_inUser {v w : Space} {a n : Nat} (hw : Writes (region a n) v w)
    (hsz : v.size < KERNBASE) (ha : a < 2 ^ 32) (hin : InUser v a n) :
    ∀ x, KERNBASE ≤ x → w.mem x = v.mem x := by
  intro x hx
  refine hw.mem x fun hmem => ?_
  have := (below_region hsz ha).mpr hin x hmem
  omega

theorem word_congr {m m' : Mem} {a : Nat} (h : ∀ x, a ≤ x → m' x = m x) : word m' a = word m a := by
  unfold word half
  rw [h a (by omega), h (a + 1) (by omega), h (a + 2) (by omega), h (a + 2 + 1) (by omega)]

theorem Inv.lwpCreate (h : Inv s) (hP : s.procs pid = some P) {x : Space}
    {child k task arg stack stksz : Nat} (hk : NewStack s k)
    (h1 : InUser (view s P x) ((stack + stksz + (2 ^ 32 - 4)) % 2 ^ 32) 4)
    (h2 : InUser (view s P x) ((stack + stksz + (2 ^ 32 - 8)) % 2 ^ 32) 4) :
    Inv (lwpCreate s P x child k task arg stack stksz) := by
  have hsize := h.size pid P hP
  obtain ⟨hcopy, huser⟩ := copyFrame_keeps h hP hk
  have hbase : KERNBASE ≤ frameOf k := (newStack_placed hk).1
  unfold Frames.lwpCreate
  -- the frame with its three fields
  obtain ⟨m, hm⟩ : ∃ m, m = put (put (put (copyFrame s.mem P.tf (frameOf k)) (frameOf k + EAX) 4 0)
    (frameOf k + EIP) 4 task) (frameOf k + ESP) 4 ((stack + stksz + (2 ^ 32 - 4)) % 2 ^ 32) := ⟨_, rfl⟩
  have hkeep : Keeps s m := by
    rw [hm]
    exact put_new h (put_new h (put_new h hcopy hk (by decide)) hk (by decide)) hk (by decide)
  have hnew : UserFrame (bytesAt m (frameOf k)) := by
    rw [hm]
    exact userFrame_put (userFrame_put (userFrame_put huser vital_eax) vital_eip) vital_esp
  have hesp : word m (frameOf k + ESP) = (stack + stksz + (2 ^ 32 - 4)) % 2 ^ 32 := by
    rw [hm]
    exact word_put _ _ _ (Nat.mod_lt _ (by decide))
  dsimp only
  rw [← hm]
  obtain ⟨v, hv⟩ : ∃ v, v = view { s with mem := m } P x := ⟨_, rfl⟩
  have hvsize : v.size < KERNBASE := by
    rw [hv]
    exact hsize
  have hvmem : ∀ y, KERNBASE ≤ y → v.mem y = m y := by
    intro y hy
    rw [hv]
    exact if_neg (by omega)
  have hvesp : word v.mem (frameOf k + ESP) = (stack + stksz + (2 ^ 32 - 4)) % 2 ^ 32 := by
    rw [← hesp]
    exact word_congr fun y hy => hvmem y (by omega)
  rw [← hv, hvesp]
  -- the two stores are in the caller's memory
  obtain ⟨w, hw⟩ : ∃ w, w = v.storeWord ((stack + stksz + (2 ^ 32 - 4)) % 2 ^ 32) arg := ⟨_, rfl⟩
  have hin1 : InUser v ((stack + stksz + (2 ^ 32 - 4)) % 2 ^ 32) 4 := by
    rw [hv]
    exact h1
  have hwmem : ∀ y, KERNBASE ≤ y → w.mem y = m y := by
    intro y hy
    rw [hw, kernel_of_inUser (storeWord_writes v _ arg) hvsize (Nat.mod_lt _ (by decide)) hin1 y hy]
    exact hvmem y hy
  have hwesp : word w.mem (frameOf k + ESP) = (stack + stksz + (2 ^ 32 - 4)) % 2 ^ 32 := by
    rw [← hesp]
    exact word_congr fun y hy => hwmem y (by omega)
  rw [← hw, hwesp]
  have hwsize : w.size = P.size := by
    rw [hw, hv]
    rfl
  obtain ⟨z, hz⟩ : ∃ z, z = w.storeWord
    ((stack + stksz + (2 ^ 32 - 4)) % 2 ^ 32 + (2 ^ 32 - 4)) 0xffffffff := ⟨_, rfl⟩
  have hin2 : InUser w ((stack + stksz + (2 ^ 32 - 8)) % 2 ^ 32) 4 := by
    unfold InUser
    rw [hwsize]
    exact h2
  have hmod : ((stack + stksz + (2 ^ 32 - 4)) % 2 ^ 32 + (2 ^ 32 - 4)) % 2 ^ 32 =
      (stack + stksz + (2 ^ 32 - 8)) % 2 ^ 32 := by omega
  have hzmem : ∀ y, KERNBASE ≤ y → z.mem y = m y := by
    intro y hy
    have hwr := storeWord_writes w ((stack + stksz + (2 ^ 32 - 4)) % 2 ^ 32 + (2 ^ 32 - 4)) 0xffffffff
    rw [← region_mod, hmod] at hwr
    rw [hz, kernel_of_inUser hwr (by rw [hwsize]; exact hsize) (Nat.mod_lt _ (by decide)) hin2 y hy]
    exact hwmem y hy
  rw [← hz]
  have hzkeep : Keeps s z.mem := by
    intro pid' P' hP' j hj
    have := (h.placed pid' P' hP').1
    rw [hzmem _ (by omega)]
    exact hkeep pid' P' hP' j hj
  have hznew : UserFrame (bytesAt z.mem (frameOf k)) :=
    hnew.congr fun j _ => hzmem _ (by omega)
  have hput := put_new (v := (word z.mem (frameOf k + ESP) + (2 ^ 32 - 4)) % 2 ^ 32) h hzkeep hk
    (by decide : ESP + 4 ≤ TFSIZE)
  exact (h.keep (hput.ret h hP child)).add (Q := ⟨frameOf k, UInt32.ofNat stack, P.size⟩) hk rfl hsize
    (userFrame_ret h hP hk (userFrame_put hznew vital_esp) child)

theorem Inv.sysLwpCreate (h : Inv s) (hP : s.procs pid = some P) {x : Space} {k : Nat}
    (hk : ∀ child, x.freshProc = some child → s.procs child = none ∧ NewStack s k)
    (hc : Permits (view s P x) .lwpCreate) : Inv (sysLwpCreate s P x k) := by
  have hfail : Inv { s with mem := ret s.mem P (-1) } :=
    h.keep (Keeps.ret h (fun _ _ _ _ _ => rfl) hP (-1))
  unfold Frames.sysLwpCreate
  dsimp only
  split
  · rename_i task arg stack stksz h0 h1 h2 h3
    split
    · exact hfail
    · rename_i hneg
      split
      · exact hfail
      · rename_i child hchild
        have hfresh : (view s P x).freshProc ≠ none := by
          change x.freshProc ≠ none
          rw [hchild]
          simp
        obtain ⟨hin1, hin2⟩ := hc task arg stack stksz h0 h1 h2 h3 ⟨by omega, hfresh⟩
        exact h.lwpCreate hP (hk child hchild).2 hin1 hin2
  · exact hfail

theorem view_kernel {x : Space} (y : Nat) (hy : KERNBASE ≤ y) : (view s P x).mem y = s.mem y :=
  if_neg (by omega)

theorem Inv.sysDsstore (h : Inv s) (hP : s.procs pid = some P) {x : Space}
    (hc : Permits (view s P x) .dsstore) : Inv (sysDsstore s P x) := by
  have hsize := h.size pid P hP
  unfold Frames.sysDsstore
  dsimp only
  split
  · rename_i stack tf stksz h0 h1 h2
    obtain ⟨hin1, hin2⟩ := hc stack tf stksz h0 h1 h2
    refine h.keep (Keeps.ret h (Keeps.of_kernel h ?_) hP 0)
    have hsz : (memmove stack P.stack.toNat stksz (view s P x)).size = P.size :=
      memmove_size _ _ _ _
    have hin2' : InUser (memmove stack P.stack.toNat stksz (view s P x)) tf TFSIZE := by
      unfold InUser
      rw [hsz]
      exact hin2
    intro y hy
    rw [kernel_of_inUser (memmove_writes tf P.tf TFSIZE _) (by rw [hsz]; exact hsize) (argint_lt h1)
        hin2' y hy,
      kernel_of_inUser (memmove_writes stack P.stack.toNat stksz _) hsize (argint_lt h0) hin1 y hy]
    exact view_kernel y hy
  · exact h.keep (Keeps.ret h (fun _ _ _ _ _ => rfl) hP (-1))

theorem Inv.sysDsrestart (h : Inv s) (hP : s.procs pid = some P) {x : Space}
    (hc : Permits (view s P x) .dsrestart)
    (hframe : ∀ stack tf stksz, argint (view s P x) 0 = some stack → argint (view s P x) 1 = some tf →
      argint (view s P x) 2 = some stksz →
      UserFrame fun k => (memmove P.stack.toNat stack stksz (view s P x)).load (tf + k)) :
    Inv (sysDsrestart s P x) := by
  have hsize := h.size pid P hP
  obtain ⟨hbase, hmod, hend⟩ := h.placed pid P hP
  unfold Frames.sysDsrestart
  dsimp only
  split
  · rename_i stack tf stksz h0 h1 h2
    have hin := hc stack tf stksz h0 h1 h2
    have hload := hframe stack tf stksz h0 h1 h2
    obtain ⟨v, hv⟩ : ∃ v, v = memmove P.stack.toNat stack stksz (view s P x) := ⟨_, rfl⟩
    rw [← hv] at hload ⊢
    have hvmem : ∀ y, KERNBASE ≤ y → v.mem y = s.mem y := by
      intro y hy
      rw [hv, kernel_of_inUser (memmove_writes P.stack.toNat stack stksz _) hsize P.stack.toNat_lt
        hin y hy]
      exact view_kernel y hy
    have hown := memmove_mem (v := v) (p := tf) (d := P.tf) (n := TFSIZE)
      (by unfold TFSIZE; unfold KERNBASE at hbase; omega) hend (argint_lt h1)
    have hother := memmove_writes P.tf tf TFSIZE v
    -- the own frame is the one that was loaded, the others are as before
    have hinv : Inv { s with mem := (memmove P.tf tf TFSIZE v).mem } := by
      refine ⟨h.placed, h.apart, h.size, ?_⟩
      intro pid' P' hP'
      rcases placed_disjoint (h.placed pid P hP) (h.placed pid' P' hP') with heq | hle
      · refine hload.congr ?_
        intro k hk
        change (memmove P.tf tf TFSIZE v).mem (P'.tf + k) = _
        rw [← heq]
        exact hown k (vital_lt hk)
      · refine (h.user pid' P' hP').congr ?_
        intro k hk
        have hlt := vital_lt hk
        have hbase' := (h.placed pid' P' hP').1
        change (memmove P.tf tf TFSIZE v).mem (P'.tf + k) = s.mem (P'.tf + k)
        rw [hother.mem, hvmem _ (by omega)]
        rintro ⟨j, hj, hjeq⟩
        rw [Nat.mod_eq_of_lt (by omega)] at hjeq
        rcases hle with hle | hle <;> omega
    exact hinv.keep (Keeps.ret hinv (fun _ _ _ _ _ => rfl) hP 0)
  · exact h.keep (Keeps.ret h (fun _ _ _ _ _ => rfl) hP (-1))

theorem Inv.sysOther (h : Inv s) (hP : s.procs pid = some P) {x : Space} {c : Call}
    (hc : Permits (view s P x) c) (ht : sysOther s P x c = some t) : Inv t := by
  have hsafe := (perform_safe_iff (s := view s P x) (h.size pid P hP) rfl c).mpr hc
  have hkeep : Keeps s (perform (view s P x) c).2.mem := by
    refine Keeps.of_kernel h ?_
    intro y hy
    rw [hsafe.2 y hy]
    exact view_kernel y hy
  unfold Frames.sysOther at ht
  split at ht
  · rename_i r v hv
    rw [hv] at hkeep
    cases ht
    exact h.keep (hkeep.ret h hP r)
  · rename_i v hv
    rw [hv] at hkeep
    cases ht
    exact h.keep hkeep
  · cases ht

/-! ### Runs -/

theorem withProc_eq_some {k : Proc → Option Traps} (h : withProc s pid k = some t) :
    ∃ P, s.procs pid = some P ∧ k P = some t := by
  unfold withProc at h
  split at h
  · cases h
  · rename_i P hP
    exact ⟨P, hP, h⟩

theorem Inv.step {a : Act} (h : Inv s) (hst : Step s a t) (hc : Harmless s a) : Inv t := by
  obtain ⟨hg, ht⟩ := hst
  cases a with
  | trap pid regs =>
    obtain ⟨P, hP, ht⟩ := withProc_eq_some ht
    split at ht
    · cases ht
    · cases ht
      exact h.trap hP hc.1 hc.2
  | fork pid child k stack =>
    obtain ⟨P, hP, ht⟩ := withProc_eq_some ht
    cases ht
    exact h.fork hP hg.2 stack
  | exec pid entry sp size =>
    obtain ⟨P, hP, ht⟩ := withProc_eq_some ht
    cases ht
    exact h.exec hP hg
  | sbrk pid size =>
    obtain ⟨P, hP, ht⟩ := withProc_eq_some ht
    cases ht
    exact h.setSize hP hg
  | exit pid =>
    obtain ⟨P, hP, ht⟩ := withProc_eq_some ht
    cases ht
    have hold : ∀ pid' P', Function.update s.procs pid none pid' = some P' →
        s.procs pid' = some P' := by
      intro pid' P' hP'
      rw [Function.update_apply] at hP'
      split at hP'
      · cases hP'
      · exact hP'
    exact ⟨fun pid' P' hP' => h.placed pid' P' (hold pid' P' hP'),
      fun pid₁ pid₂ P₁ P₂ h₁ h₂ => h.apart pid₁ pid₂ P₁ P₂ (hold pid₁ P₁ h₁) (hold pid₂ P₂ h₂),
      fun pid' P' hP' => h.size pid' P' (hold pid' P' hP'),
      fun pid' P' hP' => h.user pid' P' (hold pid' P' hP')⟩
  | lwpCreate pid x k =>
    obtain ⟨P, hP, ht⟩ := withProc_eq_some ht
    cases ht
    exact h.sysLwpCreate hP hg (hc P hP)
  | dsstore pid x =>
    obtain ⟨P, hP, ht⟩ := withProc_eq_some ht
    cases ht
    exact h.sysDsstore hP (hc P hP)
  | dsrestart pid x =>
    obtain ⟨P, hP, ht⟩ := withProc_eq_some ht
    cases ht
    exact h.sysDsrestart hP (hc P hP).1 (hc P hP).2
  | other pid x c =>
    change (if OwnLabel c then none else withProc s pid fun P => Frames.sysOther s P x c) = some t at ht
    split at ht
    · cases ht
    · obtain ⟨P, hP, ht⟩ := withProc_eq_some ht
      exact h.sysOther hP (hc P hP) ht
  | kernel m =>
    cases ht
    refine h.keep ?_
    intro pid P hP k hk
    exact hg pid P hP k (vital_lt hk)

theorem bytesAt_put (m : Mem) (a off w v : Nat) :
    bytesAt (put m (a + off) w v) a = put (bytesAt m a) off w v := by
  funext k
  unfold bytesAt put
  by_cases h : off ≤ k ∧ k < off + w
  · rw [if_pos h, if_pos (by omega)]
    congr 1
    omega
  · rw [if_neg h, if_neg (by omega)]

theorem put_congr {b c : Mem} {k : Nat} (h : b k = c k) (off w v : Nat) :
    put b off w v k = put c off w v k := by
  unfold put
  rw [h]

/-- The fields of a frame with code selector `cs` that `userinit` sets before the stack
    pointer. -/
def frameFields (b : Mem) (cs : Nat) : Mem :=
  put (put (put (put (put b CS 2 cs) DS 2 (SEG_UDATA * 8 + DPL_USER))
    ES 2 (SEG_UDATA * 8 + DPL_USER)) SS 2 (SEG_UDATA * 8 + DPL_USER)) EFLAGS 4 0x200

theorem userFrame_frameFields {b : Mem} (hb : ∀ k < TFSIZE, b k = 0) :
    UserFrame (frameFields b (SEG_UCODE * 8 + DPL_USER)) := by
  have h : UserFrame (frameFields (fun _ => 0) (SEG_UCODE * 8 + DPL_USER)) := by decide
  refine h.congr ?_
  intro k hk
  unfold frameFields
  exact put_congr (put_congr (put_congr (put_congr (put_congr (hb k (vital_lt hk)) _ _ _) _ _ _)
    _ _ _) _ _ _) _ _ _

theorem Inv.userinit (m : Mem) {k : Nat} (h1 : KERNBASE ≤ k) (h2 : PGSIZE ∣ k)
    (h3 : k + PGSIZE ≤ 2 ^ 32) : Inv (userinit m k) := by
  have hempty : Inv ⟨(Frames.userinit m k).mem, fun _ => none⟩ := by
    constructor
    · intro pid P hP
      cases hP
    · intro pid pid' P P' hP
      cases hP
    · intro pid P hP
      cases hP
    · intro pid P hP
      cases hP
  have hnew : NewStack ⟨(Frames.userinit m k).mem, fun _ => none⟩ k := by
    refine ⟨h1, h2, h3, ?_⟩
    intro pid P hP
    cases hP
  refine hempty.add (Q := ⟨frameOf k, 0, PGSIZE⟩) hnew rfl
    (show PGSIZE < KERNBASE by decide) ?_
  refine userFrame_put (userFrame_put ?_ vital_esp) vital_eip
  rw [bytesAt_put, bytesAt_put, bytesAt_put, bytesAt_put, bytesAt_put]
  refine userFrame_frameFields ?_
  intro j hj
  exact if_pos (by omega)

/-- **Trap frames stay in user mode** in every run from `userinit` whose steps are
    harmless. -/
theorem user_frames_stay_user {m : Mem} {k : Nat} {as : List Act} (h1 : KERNBASE ≤ k)
    (h2 : PGSIZE ∣ k) (h3 : k + PGSIZE ≤ 2 ^ 32)
    (hr : Run (fun s a t => Step s a t ∧ Harmless s a) (userinit m k) as s) : UserMode s := by
  have hinv : Inv s :=
    hr.invariant Inv (Inv.userinit m h1 h2 h3) fun _ _ _ h hst => h.step hst.1 hst.2
  exact fun pid P hP => (hinv.user pid P hP).1

/-- The first process after it has trapped into `dsrestart`, with the frame to restore at
    address 2048 of its memory. -/
def trapped : Traps :=
  ⟨trapEntry (userinit (fun _ => 0) 0x80400000).mem (frameOf 0x80400000)
      (put (frameFields (fun _ => 0) 0) ESP 4 1024),
    (userinit (fun _ => 0) 0x80400000).procs⟩

def restarter (cs : Nat) : Space :=
  { caller [0, 2048, 0] with
    mem := fun a =>
      if 2048 ≤ a ∧ a < 2048 + TFSIZE then frameFields (fun _ => 0) cs (a - 2048)
      else (caller [0, 2048, 0]).mem a }

theorem trapped_step : Step (userinit (fun _ => 0) 0x80400000)
    (.trap 1 (put (frameFields (fun _ => 0) 0) ESP 4 1024)) trapped := by
  have hvm : vm (bytesAt (userinit (fun _ => 0) 0x80400000).mem (frameOf 0x80400000)) ≠ 1 := by
    decide
  refine ⟨trivial, ?_⟩
  change (if vm (bytesAt (userinit (fun _ => 0) 0x80400000).mem (frameOf 0x80400000)) = 1 then none
    else some trapped) = some trapped
  exact if_neg hvm

/-- A user frame is restored. -/
theorem user_frames_stay_user_restart : ∃ s,
    Run (fun s a t => Step s a t ∧ Harmless s a) (userinit (fun _ => 0) 0x80400000)
      [.trap 1 (put (frameFields (fun _ => 0) 0) ESP 4 1024),
        .dsrestart 1 (restarter (SEG_UCODE * 8 + DPL_USER))] s ∧ UserMode s := by
  have hrun : Run (fun s a t => Step s a t ∧ Harmless s a) (userinit (fun _ => 0) 0x80400000)
      [.trap 1 (put (frameFields (fun _ => 0) 0) ESP 4 1024),
        .dsrestart 1 (restarter (SEG_UCODE * 8 + DPL_USER))]
      (sysDsrestart trapped ⟨frameOf 0x80400000, 0, PGSIZE⟩
        (restarter (SEG_UCODE * 8 + DPL_USER))) := by
    refine Run.cons ⟨trapped_step, by decide, by decide⟩ (Run.single ⟨⟨trivial, rfl⟩, ?_⟩)
    intro P hP
    cases hP
    have h0 : argint (view trapped ⟨frameOf 0x80400000, 0, PGSIZE⟩
      (restarter (SEG_UCODE * 8 + DPL_USER))) 0 = some 0 := by decide
    have h1 : argint (view trapped ⟨frameOf 0x80400000, 0, PGSIZE⟩
      (restarter (SEG_UCODE * 8 + DPL_USER))) 1 = some 2048 := by decide
    have h2 : argint (view trapped ⟨frameOf 0x80400000, 0, PGSIZE⟩
      (restarter (SEG_UCODE * 8 + DPL_USER))) 2 = some 0 := by decide
    refine ⟨?_, ?_⟩
    · intro stack tf stksz hs ht hz
      cases h0.symm.trans hs
      cases h2.symm.trans hz
      exact Or.inl rfl
    · intro stack tf stksz hs ht hz
      cases h0.symm.trans hs
      cases h1.symm.trans ht
      cases h2.symm.trans hz
      decide
  exact ⟨_, hrun, user_frames_stay_user (by decide) (by decide) (by decide) hrun⟩

/-- The frame that `dsrestart` is given has the kernel's code selector: the next return
    to the program is in ring 0. -/
theorem dsrestart_leaves_user_mode : ∃ s,
    Run Step (userinit (fun _ => 0) 0x80400000)
      [.trap 1 (put (frameFields (fun _ => 0) 0) ESP 4 1024), .dsrestart 1 (restarter 8)] s ∧
      ¬ UserMode s := by
  have hrun : Run Step (userinit (fun _ => 0) 0x80400000)
      [.trap 1 (put (frameFields (fun _ => 0) 0) ESP 4 1024), .dsrestart 1 (restarter 8)]
      (sysDsrestart trapped ⟨frameOf 0x80400000, 0, PGSIZE⟩ (restarter 8)) :=
    Run.cons trapped_step (Run.single ⟨trivial, rfl⟩)
  refine ⟨_, hrun, ?_⟩
  intro h
  have hcs : half (bytesAt (sysDsrestart trapped ⟨frameOf 0x80400000, 0, PGSIZE⟩ (restarter 8)).mem
      (frameOf 0x80400000)) CS = 8 := by decide
  have := (h 1 ⟨frameOf 0x80400000, 0, PGSIZE⟩ rfl).1
  rw [hcs] at this
  revert this
  decide

end Yonix.Sys.Frames
