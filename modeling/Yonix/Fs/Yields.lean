/-
  Yonix/Fs/Yields.lean
  ====================
  **`filewrite` with its switching points (`fs.c`, `file.c`).**

  The functions that a chunk of `filewrite` runs through, once more, as programs whose
  actions are those of `Fs/Model`: reading a buffer, changing one, a look at the copy of
  the inode.  Others may run between any two actions, which is more often than a process
  sleeps: it does so where `bread` waits for the disk or for a lock, in `ilock`, and in
  `begin_op` and `end_op`.  The timer is kept out of the actions themselves; what it does to
  a lock is in `Sync/Sleeplock`.  Without others the programs run as the functions do
  (`run_filewrite`).

  What others do meanwhile is to begin and to end transactions, so the number of these is
  all that changes under the program's feet (`Same`), and all that a program does under
  the lock of the inode is calm.
-/
import Yonix.Lib.Prog
import Yonix.Fs.Calls
import Yonix.Fs.Writei

namespace Yonix.Fs.Yields

open Prog (lift)

abbrev P := Prog State Stop

/-! ### The programs -/

def reads {β : Type} (f : State → β) : P β := lift fun s => .ok (f s, s)

def change (f : State → State) : P Unit := lift (modify f)

def bzero (bno : Nat) : P Unit := do
  let _x ← lift (bread bno)
  lift (logWrite bno Bytes.zero)
  lift (brelse bno)

def ballocLoop (sb : Superblock) : Nat → Nat → P Nat
  | 0, _ => lift (stop (.panic .ballocOutOfBlocks))
  | k + 1, b =>
    if b < sb.size then do
      let x ← lift (bread (sb.bblock b))
      match freeBit x b sb.size with
      | some bi => do
        lift (logWrite (sb.bblock b) (x.setBit bi))
        lift (brelse (sb.bblock b))
        bzero (b + bi)
        return b + bi
      | none => do
        lift (brelse (sb.bblock b))
        ballocLoop sb k (b + BPB)
    else lift (stop (.panic .ballocOutOfBlocks))

def balloc : P Nat := do
  let sb ← reads State.sb
  ballocLoop sb (sb.size / BPB + 1) 0

def iupdate (i : Nat) : P Unit := do
  let ip ← reads fun s => s.icache i
  let sb ← reads State.sb
  let x ← lift (bread (sb.iblock ip.inum))
  lift (logWrite (sb.iblock ip.inum) (putDinode x ip.inum ip.din))
  lift (brelse (sb.iblock ip.inum))

def addrOf (i j : Nat) : P Nat := do
  let d ← reads fun s => (s.icache i).din
  if d.addrs j = 0 then do
    let b ← balloc
    change fun s => s.setDin i (setAddr (s.icache i).din j b)
    return b
  else return d.addrs j

def bmap (i bn : Nat) : P Nat :=
  if bn < NDIRECT then addrOf i bn
  else if bn - NDIRECT < NINDIRECT then do
    let addr ← addrOf i NDIRECT
    let x ← lift (bread addr)
    if x.word (bn - NDIRECT) = 0 then do
      let b ← balloc
      lift (logWrite addr (x.setWord (bn - NDIRECT) b))
      lift (brelse addr)
      return b
    else do
      lift (brelse addr)
      return x.word (bn - NDIRECT)
  else lift (stop (.panic .bmapOutOfRange))

def writeLoop (i : Nat) : Nat → Nat → List UInt8 → P Unit
  | 0, _, _ => return ()
  | k + 1, off, src =>
    if src = [] then return ()
    else do
      let b ← bmap i (off / BSIZE)
      let x ← lift (bread b)
      let m := min src.length (BSIZE - off % BSIZE)
      lift (logWrite b (x.patch (off % BSIZE) (fun j => src.getD j 0) m))
      lift (brelse b)
      writeLoop i k (off + m) (src.drop m)

def growTo (i off : Nat) : P Unit := do
  change fun s => s.setDin i { (s.icache i).din with size := off }
  iupdate i

/-- A device has no lock to write under; its `write` is one action here. -/
def writei (i : Nat) (src : List UInt8) (off : Nat) : P Int := do
  let d ← reads fun s => (s.icache i).din
  let n := src.length
  if d.type = T_DEV then
    if noDevice d then return -1 else lift (consolewrite i n)
  else if d.size < off ∨ (off + n) % 2 ^ 32 < off then return -1
  else if MAXFILE * BSIZE < (off + n) % 2 ^ 32 then return -1
  else do
    writeLoop i n off src
    if 0 < n ∧ d.size < off + n then do
      growTo i (off + n)
      return n
    else return n

/-- `ilock` up to the lock. -/
def acquire (i : Nat) : M Unit := do
  let s ← get
  if (s.icache i).ref < 1 then stop (.panic .ilock)
  else if (s.icache i).locked then stop .asleep
  else modify fun s => s.setInode i { s.icache i with locked := true }

/-- `ilock` after the lock is taken. -/
def ifetch (i : Nat) : P Unit := do
  let ip ← reads fun s => s.icache i
  if ip.valid then return ()
  else do
    let sb ← reads State.sb
    let x ← lift (bread (sb.iblock ip.inum))
    change fun s => s.setDin i (dinodeOf x ip.inum)
    lift (brelse (sb.iblock ip.inum))
    change fun s => s.setInode i { s.icache i with valid := true }
    if (dinodeOf x ip.inum).type = 0 then lift (stop (.panic .ilockNoType)) else return ()

/-- What is done under the lock. -/
def inside (f i : Nat) (src : List UInt8) : P Int := do
  ifetch i
  let off ← reads fun s => (s.ftable f).off
  let r ← writei i src off
  if 0 < r then do
    change fun s => s.setFile f { s.ftable f with off := (s.ftable f).off + r.toNat }
    return r
  else return r

/-- The rest. -/
def leave (i : Nat) (r : Int) : P Int := do
  lift (iunlock i)
  lift endOp
  return r

def fileput (f i : Nat) (src : List UInt8) : P Int := do
  lift beginOp
  lift (acquire i)
  let r ← inside f i src
  leave i r

/-- What one pass of the loop of `filewrite` writes, from byte `k` on. -/
def piece (src : List UInt8) (k : Nat) : List UInt8 := (src.drop k).take WRITEMAX

/-- The loop of `filewrite`, with `put` for what it does with a piece. -/
def loop {σ : Type} (put : List UInt8 → Prog σ Stop Int) (src : List UInt8) : Nat → Nat → Prog σ Stop Nat
  | 0, k => return k
  | fuel + 1, k =>
    if k < src.length then do
      let r ← put (piece src k)
      if r < 0 then return k
      else if r = (piece src k).length then loop put src fuel (k + (piece src k).length)
      else lift (stop (.panic .shortFilewrite))
    else return k

/-- The value of `filewrite` when it has written `k` bytes. -/
def verdict (src : List UInt8) (k : Nat) : Int := if k = src.length then src.length else -1

/-- The loop and the value. -/
def writeAll {σ : Type} (put : List UInt8 → Prog σ Stop Int) (src : List UInt8) (fuel k : Nat) : Prog σ Stop Int := do
  let k' ← loop put src fuel k
  return verdict src k'

/-- A pipe is written to in one action here. -/
def filewrite (f : Nat) (src : List UInt8) : P Int := do
  let x ← reads fun s => s.ftable f
  if x.writable = false then return -1
  else
    match x.type with
    | .pipe q => lift (pipewrite q (strOf src) src.length)
    | .inode i => writeAll (fileput f i) src src.length 0
    | .none => lift (stop (.panic .filewrite))

/-! ### Without others -/

section Run

variable {β : Type} {α : Type}

theorem run_reads_bind (f : State → β) (g : β → P α) :
    (reads f >>= g).run = (get : M State) >>= fun s => (g (f s)).run := rfl

theorem run_change (f : State → State) : (change f).run = modify f := Prog.run_lift _

theorem run_bzero (bno : Nat) : (bzero bno).run = Fs.bzero bno := by
  unfold bzero Fs.bzero
  simp only [Prog.run_bind, Prog.run_lift]

theorem run_ballocLoop (sb : Superblock) (k : Nat) : ∀ b, (ballocLoop sb k b).run = Fs.ballocLoop sb k b := by
  induction k with
  | zero => exact fun _ => Prog.run_lift _
  | succ k ih =>
    intro b
    rw [ballocLoop, Fs.ballocLoop, Prog.run_ite, Prog.run_bind, Prog.run_lift, Prog.run_lift]
    congr 2
    funext x
    cases freeBit x b sb.size with
    | none => simp only [Prog.run_bind, Prog.run_lift, ih]
    | some bi => simp only [Prog.run_bind, Prog.run_lift, Prog.run_pure, run_bzero]

theorem run_balloc : balloc.run = Fs.balloc := by
  unfold balloc Fs.balloc
  rw [run_reads_bind]
  simp only [run_ballocLoop]

theorem run_iupdate (i : Nat) : (iupdate i).run = Fs.iupdate i := by
  unfold iupdate Fs.iupdate
  rw [run_reads_bind]
  simp only [Prog.run_bind, Prog.run_lift]
  rfl

theorem run_addrOf (i j : Nat) : (addrOf i j).run = Fs.addrOf i j := by
  unfold addrOf Fs.addrOf
  rw [run_reads_bind]
  simp only [Prog.run_ite, Prog.run_bind, Prog.run_pure, run_balloc, run_change]

theorem run_bmap (i bn : Nat) : (bmap i bn).run = Fs.bmap i bn := by
  unfold bmap Fs.bmap
  simp only [Prog.run_ite, Prog.run_bind, Prog.run_lift, Prog.run_pure, run_addrOf, run_balloc]

theorem run_writeLoop (i k : Nat) : ∀ off src, (writeLoop i k off src).run = Fs.writeLoop i k off src := by
  induction k with
  | zero => exact fun _ _ => rfl
  | succ k ih =>
    intro off src
    rw [writeLoop, Fs.writeLoop]
    simp only [Prog.run_ite, Prog.run_bind, Prog.run_lift, Prog.run_pure, run_bmap, ih]

theorem run_growTo (i off : Nat) : (growTo i off).run = Fs.growTo i off := by
  unfold growTo Fs.growTo
  simp only [Prog.run_bind, run_change, run_iupdate]

theorem run_writei (i : Nat) (src : List UInt8) (off : Nat) : (writei i src off).run = Fs.writei i src off := by
  unfold writei Fs.writei
  rw [run_reads_bind]
  simp only [Prog.run_ite, Prog.run_bind, Prog.run_lift, Prog.run_pure, run_writeLoop, run_growTo]

theorem run_ifetch (i : Nat) : (ifetch i).run =
    (get : M State) >>= fun s => if (s.icache i).valid then return () else Fs.ifetch i := by
  funext s
  unfold ifetch
  rw [run_reads_bind, get_bind, get_bind, Prog.run_ite]
  by_cases hvalid : (s.icache i).valid = true
  · rw [if_pos hvalid, if_pos hvalid]
    rfl
  · rw [if_neg hvalid, if_neg hvalid]
    simp only [Prog.run_ite, Prog.run_bind, Prog.run_lift, Prog.run_pure, run_change]
    rfl

/-- The two parts of `ilock`. -/
theorem run_ilock (i : Nat) : (acquire i >>= fun _ => (ifetch i).run) = Fs.ilock i := by
  funext s
  change (acquire i s >>= fun p => (ifetch i).run p.2) = _
  unfold acquire Fs.ilock
  rw [get_bind, get_bind]
  by_cases href : (s.icache i).ref < 1
  · rw [if_pos href, if_pos href]
    rfl
  · rw [if_neg href, if_neg href]
    by_cases hlocked : (s.icache i).locked = true
    · rw [if_pos hlocked, if_pos hlocked]
      rfl
    · rw [if_neg hlocked, if_neg hlocked, run_ifetch, modify_bind]
      change (if ((s.setInode i _).icache i).valid = true then _ else _ : M Unit) _ = _
      rw [setInode_self]

theorem run_inside (f i : Nat) (src : List UInt8) : (inside f i src).run =
    (ifetch i).run >>= fun _ => (get : M State) >>= fun s => Fs.writei i src (s.ftable f).off >>= fun r =>
      if 0 < r then advance f r.toNat >>= fun _ => pure r else pure r := by
  unfold inside
  rw [Prog.run_bind]
  congr 1
  funext _
  rw [run_reads_bind]
  congr 1
  funext s
  simp only [Prog.run_bind, Prog.run_ite, Prog.run_pure, run_writei, run_change]
  rfl

/-- Alone, the program is one pass of the loop of `filewrite`. -/
theorem run_fileput (f i : Nat) (addr : Str) (k n : Nat) :
    (fileput f i ((List.range n).map fun j => addr (k + j))).run = Fs.fileput f i addr k n := by
  unfold fileput Fs.fileput leave
  rw [Prog.run_bind, Prog.run_lift]
  congr 1
  funext _
  rw [Prog.run_bind, Prog.run_lift, ← run_ilock, bind_assoc]
  congr 1
  funext _
  rw [Prog.run_bind, run_inside, bind_assoc]
  congr 1
  funext _
  rw [bind_assoc]
  congr 1
  funext s
  rw [bind_assoc]
  congr 1
  funext r
  simp only [Prog.run_bind, Prog.run_lift, Prog.run_pure]
  by_cases hr : 0 < r
  · rw [if_pos hr, if_pos hr, bind_assoc]
    rfl
  · rw [if_neg hr, if_neg hr]
    rfl

theorem length_piece (src : List UInt8) (k : Nat) : (piece src k).length = min (src.length - k) WRITEMAX := by
  rw [piece, List.length_take, List.length_drop, Nat.min_comm]

theorem piece_eq (src : List UInt8) (k : Nat) :
    piece src k = (List.range (min (src.length - k) WRITEMAX)).map fun j => strOf src (k + j) := by
  refine List.ext_getElem ?_ fun j h1 h2 => ?_
  · rw [length_piece, List.length_map, List.length_range]
  · rw [length_piece] at h1
    rw [List.getElem_map, List.getElem_range, strOf, List.getD_eq_getElem _ _ (by omega)]
    simp only [piece, List.getElem_take, List.getElem_drop]

theorem run_loop (f i : Nat) (src : List UInt8) (fuel : Nat) : ∀ k,
    (loop (fileput f i) src fuel k).run = filewriteLoop f i (strOf src) src.length fuel k := by
  induction fuel with
  | zero => exact fun _ => rfl
  | succ fuel ih =>
    intro k
    rw [loop, filewriteLoop, Prog.run_ite]
    by_cases hk : k < src.length
    · rw [if_pos hk, if_pos hk, Prog.run_bind, length_piece]
      dsimp only
      rw [← run_fileput, ← piece_eq]
      congr 1
      funext r
      simp only [Prog.run_ite, Prog.run_pure, Prog.run_lift, ih]
    · rw [if_neg hk, if_neg hk]
      rfl

/-- Alone, the program is `filewrite`. -/
theorem run_filewrite (f : Nat) (src : List UInt8) :
    (filewrite f src).run = Fs.filewrite f (strOf src) src.length := by
  unfold filewrite Fs.filewrite
  rw [run_reads_bind]
  congr 1
  funext s
  rw [Prog.run_ite]
  by_cases hw : (s.ftable f).writable = false
  · rw [if_pos hw, if_pos hw]
    rfl
  · rw [if_neg hw, if_neg hw]
    cases (s.ftable f).type with
    | pipe q => exact Prog.run_lift _
    | none => exact Prog.run_lift _
    | inode i =>
      dsimp only
      unfold writeAll
      rw [Prog.run_bind, run_loop, Int.toNat_natCast]
      congr 1
      funext k
      unfold verdict
      by_cases hk : k = src.length
      · rw [if_pos hk, if_pos (by rw [hk])]
        rfl
      · rw [if_neg hk, if_neg (by omega)]
        rfl

end Run

/-! ### With others -/

/-- The state with another number of transactions. -/
def State.count (s : State) (n : Int) : State := { s with outstanding := n }

/-- `f` is open for writing, and its inode is in slot `i`, locked. -/
structure Opened (f i : Nat) (s : State) : Prop where
  type : (s.ftable f).type = .inode i
  writable : (s.ftable f).writable = true
  locked : (s.icache i).locked = true
  valid : (s.icache i).valid = true
  file : (s.din i).type = T_FILE

/-- What a process sees that is alone in the lock. -/
structure Same (f i : Nat) (v s : State) : Prop where
  seen : s = State.count v s.outstanding
  trans : 1 ≤ v.outstanding
  opened : Opened f i v

/-- The others see the number of transactions. -/
def Count (s t : State) : Prop := t.outstanding = s.outstanding

section Calm

variable {f i : Nat} {α : Type} {s t v : State}

theorem Opened.keep (h : Opened f i s) (hcache : t.icache = s.icache) (htable : t.ftable = s.ftable) :
    Opened f i t := by
  constructor
  · rw [htable]
    exact h.type
  · rw [htable]
    exact h.writable
  · rw [hcache]
    exact h.locked
  · rw [hcache]
    exact h.valid
  · change (t.icache i).din.type = T_FILE
    rw [hcache]
    exact h.file

theorem calm_of {C : α → Prop} {x : M α} (hx : ∀ v n a t, 1 ≤ v.outstanding → Opened f i v →
    x (State.count v n) = .ok (a, t) →
      C a ∧ ∃ u, x v = .ok (a, u) ∧ t = State.count u n ∧ u.outstanding = v.outstanding ∧ Opened f i u) :
    Prog.CalmCode (Same f i) Count C x := by
  intro v s a t h hrun
  rw [h.seen] at hrun
  rcases hx v _ a t h.trans h.opened hrun with ⟨hC, u, hu, ht, hout, hopened⟩
  refine ⟨hC, ?_, u, hu, ?_, by rw [hout]; exact h.trans, hopened⟩
  · rw [ht, h.seen]
    rfl
  · rw [ht]
    rfl

theorem calm_bread (b : Nat) : Prog.CalmCode (Same f i) Count (fun _ => True) (bread b) := by
  refine calm_of fun v n a t _ hopened hrun => ⟨trivial, ?_⟩
  unfold bread at hrun ⊢
  by_cases hb : FSSIZE ≤ b
  · rw [if_pos hb] at hrun
    cases hrun
  · rw [if_neg hb] at hrun ⊢
    by_cases hheld : b ∈ v.held
    · rw [if_pos (show b ∈ (State.count v n).held from hheld)] at hrun
      cases hrun
    · rw [if_neg (show b ∉ (State.count v n).held from hheld)] at hrun
      rw [if_neg hheld]
      cases hrun
      exact ⟨_, rfl, rfl, rfl, hopened.keep rfl rfl⟩

theorem calm_brelse (b : Nat) : Prog.CalmCode (Same f i) Count (fun _ => True) (brelse b) := by
  refine calm_of fun v n a t _ hopened hrun => ⟨trivial, ?_⟩
  unfold brelse at hrun ⊢
  by_cases hheld : b ∈ v.held
  · rw [if_pos (show b ∈ (State.count v n).held from hheld)] at hrun
    rw [if_pos hheld]
    cases hrun
    exact ⟨_, rfl, rfl, rfl, hopened.keep rfl rfl⟩
  · rw [if_neg (show b ∉ (State.count v n).held from hheld)] at hrun
    cases hrun

theorem calm_logWrite (b : Nat) (x : Block) : Prog.CalmCode (Same f i) Count (fun _ => True) (logWrite b x) := by
  refine calm_of fun v n a t htrans hopened hrun => ⟨trivial, ?_⟩
  unfold logWrite at hrun ⊢
  rw [show (State.count v n).logged = v.logged from rfl, show (State.count v n).logSize = v.logSize from rfl] at hrun
  by_cases hfull : LOGSIZE ≤ v.logged.length ∨ v.logSize - 1 ≤ v.logged.length
  · rw [if_pos hfull] at hrun
    cases hrun
  · rw [if_neg hfull] at hrun
    rw [if_neg hfull, if_neg (show ¬ v.outstanding < 1 by omega)]
    by_cases hn : n < 1
    · rw [if_pos (show (State.count v n).outstanding < 1 from hn)] at hrun
      cases hrun
    · rw [if_neg (show ¬ (State.count v n).outstanding < 1 from hn)] at hrun
      cases hrun
      exact ⟨_, rfl, rfl, rfl, hopened.keep rfl rfl⟩

theorem calm_stop (e : Stop) : Prog.CalmCode (Same f i) Count (fun _ => True) (stop e : M α) := by
  intro v s a t _ hrun
  cases hrun

theorem calm_reads {C : α → Prop} {g : State → α} (hg : ∀ v n, g (State.count v n) = g v)
    (hC : ∀ v, Opened f i v → C (g v)) : Prog.CalmCode (Same f i) Count C (fun s => .ok (g s, s) : M α) := by
  refine calm_of fun v n a t _ hopened hrun => ?_
  cases hrun
  rw [hg]
  exact ⟨hC v hopened, v, rfl, rfl, rfl, hopened⟩

theorem calm_change {g : State → State} (hg : ∀ v n, g (State.count v n) = State.count (g v) n)
    (hout : ∀ v, (g v).outstanding = v.outstanding) (hkeep : ∀ v, Opened f i v → Opened f i (g v)) :
    (change g).Calm (Same f i) Count := by
  refine Prog.calm_lift (calm_of fun v n a t _ hopened hrun => ⟨trivial, ?_⟩)
  change (Except.ok ((), g (State.count v n)) : Except Stop (Unit × State)) = .ok (a, t) at hrun
  cases hrun
  exact ⟨g v, rfl, hg v n, hout v, hkeep v hopened⟩

/-- A look at the state from which the program cannot tell how many transactions there are. -/
theorem calm_reads_bind {β : Type} {g : State → β} {k : β → P α} (hg : ∀ v n, g (State.count v n) = g v)
    (hk : ∀ b, (k b).Calm (Same f i) Count) : (reads g >>= k).Calm (Same f i) Count :=
  Prog.calm_lift_bind (calm_reads (C := fun _ => True) hg fun _ _ => trivial) fun b _ => hk b

theorem calm_code_bind {β : Type} {x : M β} {k : β → P α} (hx : Prog.CalmCode (Same f i) Count (fun _ => True) x)
    (hk : ∀ b, (k b).Calm (Same f i) Count) : (lift x >>= k).Calm (Same f i) Count :=
  Prog.calm_lift_bind hx fun b _ => hk b

/-- A change of the copy of the inode that leaves its type. -/
theorem Opened.setDin {d : Dinode} (h : Opened f i s) (htype : d.type = (s.din i).type) :
    Opened f i (s.setDin i d) := by
  have hself : (s.setDin i d).icache i = { s.icache i with din := d } := Function.update_self _ _ _
  constructor
  · exact h.type
  · exact h.writable
  · rw [hself]
    exact h.locked
  · rw [hself]
    exact h.valid
  · rw [setDin_din, htype]
    exact h.file

theorem calm_bzero (b : Nat) : (bzero b).Calm (Same f i) Count := by
  refine calm_code_bind (calm_bread b) fun _ => ?_
  refine calm_code_bind (calm_logWrite b _) fun _ => ?_
  exact Prog.calm_lift (calm_brelse b)

theorem calm_ballocLoop (sb : Superblock) (k : Nat) : ∀ b, (ballocLoop sb k b).Calm (Same f i) Count := by
  induction k with
  | zero => exact fun _ => Prog.calm_lift (calm_stop _)
  | succ k ih =>
    intro b
    refine Prog.Calm.ite ?_ (Prog.calm_lift (calm_stop _))
    refine calm_code_bind (calm_bread _) fun x => ?_
    cases freeBit x b sb.size with
    | none => exact calm_code_bind (calm_brelse _) fun _ => ih _
    | some bi =>
      refine calm_code_bind (calm_logWrite _ _) fun _ => ?_
      refine calm_code_bind (calm_brelse _) fun _ => ?_
      exact (calm_bzero _).bind fun _ => Prog.calm_pure

theorem calm_balloc : balloc.Calm (Same f i) Count :=
  calm_reads_bind (fun _ _ => rfl) fun sb => calm_ballocLoop sb _ 0

theorem calm_iupdate : (iupdate i).Calm (Same f i) Count := by
  refine calm_reads_bind (fun _ _ => rfl) fun ip => ?_
  refine calm_reads_bind (fun _ _ => rfl) fun sb => ?_
  refine calm_code_bind (calm_bread _) fun x => ?_
  refine calm_code_bind (calm_logWrite _ _) fun _ => ?_
  exact Prog.calm_lift (calm_brelse _)

theorem calm_addrOf (j : Nat) : (addrOf i j).Calm (Same f i) Count := by
  refine calm_reads_bind (fun _ _ => rfl) fun d => ?_
  refine Prog.Calm.ite ?_ Prog.calm_pure
  refine calm_balloc.bind fun b => ?_
  refine Prog.Calm.bind ?_ fun _ => Prog.calm_pure
  exact calm_change (fun _ _ => rfl) (fun _ => rfl) fun v h => h.setDin rfl

theorem calm_bmap (bn : Nat) : (bmap i bn).Calm (Same f i) Count := by
  refine Prog.Calm.ite (calm_addrOf bn) (Prog.Calm.ite ?_ (Prog.calm_lift (calm_stop _)))
  refine (calm_addrOf NDIRECT).bind fun addr => ?_
  refine calm_code_bind (calm_bread _) fun x => ?_
  refine Prog.Calm.ite ?_ (calm_code_bind (calm_brelse _) fun _ => Prog.calm_pure)
  refine calm_balloc.bind fun b => ?_
  refine calm_code_bind (calm_logWrite _ _) fun _ => ?_
  exact calm_code_bind (calm_brelse _) fun _ => Prog.calm_pure

theorem calm_writeLoop (k : Nat) : ∀ off src, (writeLoop i k off src).Calm (Same f i) Count := by
  induction k with
  | zero => exact fun _ _ => Prog.calm_pure
  | succ k ih =>
    intro off src
    refine Prog.Calm.ite Prog.calm_pure ?_
    refine (calm_bmap _).bind fun b => ?_
    refine calm_code_bind (calm_bread _) fun x => ?_
    refine calm_code_bind (calm_logWrite _ _) fun _ => ?_
    exact calm_code_bind (calm_brelse _) fun _ => ih _ _

theorem calm_growTo (off : Nat) : (growTo i off).Calm (Same f i) Count := by
  refine Prog.Calm.bind ?_ fun _ => calm_iupdate
  exact calm_change (fun _ _ => rfl) (fun _ => rfl) fun v h => h.setDin rfl

theorem calm_writei (src : List UInt8) (off : Nat) : (writei i src off).Calm (Same f i) Count := by
  refine Prog.calm_lift_bind (calm_reads (C := fun d => d.type = T_FILE) (fun _ _ => rfl) fun v h => h.file) ?_
  intro d hd
  dsimp only
  rw [if_neg (by rw [hd]; decide)]
  refine Prog.Calm.ite Prog.calm_pure (Prog.Calm.ite Prog.calm_pure ?_)
  refine (calm_writeLoop _ _ _).bind fun _ => ?_
  exact Prog.Calm.ite ((calm_growTo _).bind fun _ => Prog.calm_pure) Prog.calm_pure

/-- All that is done under the lock is calm. -/
theorem calm_inside (src : List UInt8) : (inside f i src).Calm (Same f i) Count := by
  have hfetch : (ifetch i).Calm (Same f i) Count := by
    refine Prog.calm_lift_bind (calm_reads (C := fun ip => ip.valid = true) (fun _ _ => rfl) fun v h => h.valid) ?_
    intro ip hvalid
    rw [if_pos hvalid]
    exact Prog.calm_pure
  refine hfetch.bind fun _ => ?_
  refine calm_reads_bind (fun _ _ => rfl) fun off => ?_
  refine (calm_writei src off).bind fun r => ?_
  refine Prog.Calm.ite (Prog.Calm.bind ?_ fun _ => Prog.calm_pure) Prog.calm_pure
  refine calm_change (fun _ _ => rfl) (fun _ => rfl) fun v h => ?_
  have hself : (v.setFile f { v.ftable f with off := (v.ftable f).off + r.toNat }).ftable f =
      { v.ftable f with off := (v.ftable f).off + r.toNat } := Function.update_self _ _ _
  exact ⟨by rw [hself]; exact h.type, by rw [hself]; exact h.writable, h.locked, h.valid, h.file⟩

end Calm

end Yonix.Fs.Yields
