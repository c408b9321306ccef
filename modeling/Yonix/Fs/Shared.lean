/-
  Yonix/Fs/Shared.lean
  ====================
  **Processes that share an open file (`filewrite`).**

  The processes have one `struct file` and call `filewrite` as often as they like; between
  any two actions another may run.  Above this machine is one in which each pass of the
  loop of `filewrite` is one action on the bytes of the file and the offset.  The first
  refines the second (`Sim`, `shared_refines`): a process does all between `begin_op` and
  `iunlock` as if it were alone, since the others cannot take the lock and do no more than
  to begin and to end transactions.

  On the upper machine it is easy to say what became of the bytes: the pieces are put one
  after the other where the offset was (`shared_tiles`).
-/
import Yonix.Fs.Yields
import Yonix.Fs.Directory

namespace Yonix.Fs.Yields

open Prog (lift)

/-! ### The file as the processes see it -/

structure Text where
  contents : List UInt8
  off : Nat

def Text.Refuses (x : Text) (src : List UInt8) : Prop :=
  x.contents.length < x.off ∨ 2 ^ 32 ≤ x.off + src.length ∨ MAXFILE * BSIZE < x.off + src.length

instance (x : Text) (src : List UInt8) : Decidable (x.Refuses src) := by
  unfold Text.Refuses
  infer_instance

def Text.put (x : Text) (src : List UInt8) : Text := ⟨overwrite x.contents x.off src, x.off + src.length⟩

/-- A piece at once. -/
def append (src : List UInt8) : Code Text Stop Int := fun x =>
  if x.Refuses src then .ok (-1, x) else .ok (src.length, x.put src)

/-- The length of a write is an `int`. -/
abbrev Source := { src : List UInt8 // src.length < 2 ^ 31 }

def low (f : Nat) (src : Source) : P Int := filewrite f src.1

/-- The piece as one action. -/
def once (src : List UInt8) : Prog Text Stop Int := lift (append src)

def high (src : Source) : Prog Text Stop Int := writeAll once src.1 src.1.length 0

/-- The file `f` is open for writing, on an inode in slot `i`; `x` is what it has. -/
structure Sound (f i : Nat) (x : Text) (s : State) : Prop where
  owned : Owned s
  core : InCore s i
  whole : Whole s i
  held : s.held = []
  file : (s.din i).type = T_FILE
  type : (s.ftable f).type = .inode i
  writable : (s.ftable f).writable = true
  off : (s.ftable f).off = x.off
  contents : s.contents i = x.contents
  bound : x.off < 2 ^ 32

/-! ### States that differ in locks and in the log -/

section SameFiles

variable {f i : Nat} {s t : State} {x : Text}

structure SameFiles (s t : State) : Prop where
  block : t.block = s.block
  sb : t.sb = s.sb
  held : t.held = s.held
  icache : ∀ j, t.icache j = { s.icache j with locked := (t.icache j).locked }

theorem SameFiles.din (h : SameFiles s t) (j : Nat) : t.din j = s.din j := by
  unfold State.din
  rw [h.icache j]

theorem SameFiles.node (h : SameFiles s t) (m : Nat) : t.node m = s.node m := by
  have hslot : t.slot m = s.slot m := by
    unfold State.slot
    congr 1
    funext j
    rw [h.icache j]
  have hdisk : ∀ m, t.disk m = s.disk m := by
    intro m
    unfold State.disk
    rw [h.block, h.sb]
  have hcopy : ∀ j, t.copy j = s.copy j := by
    intro j
    unfold State.copy
    rw [h.icache j, hdisk]
  unfold State.node
  rw [hslot]
  cases s.slot m with
  | none => exact hdisk m
  | some j => exact hcopy j

theorem SameFiles.owned (h : SameFiles s t) (hown : Owned s) : Owned t := hown.congr h.node h.block h.sb

theorem SameFiles.core (h : SameFiles s t) (hin : InCore s i) : InCore t i := by
  have hinum : ∀ j, t.inum j = s.inum j := by
    intro j
    unfold State.inum
    rw [h.icache j]
  have href : ∀ j, (t.icache j).ref = (s.icache j).ref := by
    intro j
    rw [h.icache j]
  constructor
  · exact hin.lt
  · rw [href]
    exact hin.ref
  · rw [h.icache i]
    exact hin.valid
  · rw [hinum, h.sb]
    exact hin.inum
  · rw [h.din]
    exact hin.type
  · intro j hj hr heq
    rw [hinum, hinum] at heq
    rw [href] at hr
    exact hin.once j hj hr heq

theorem SameFiles.contents (h : SameFiles s t) : t.contents i = s.contents i := by
  unfold State.contents
  rw [h.din, h.block]

theorem SameFiles.whole (h : SameFiles s t) (hwhole : Whole s i) : Whole t i := by
  constructor
  · rw [h.din]
    exact hwhole.size
  · rw [h.din, h.block]
    exact hwhole.slots

theorem Sound.alike (hsound : Sound f i x s) (h : SameFiles s t) (hf : t.ftable = s.ftable) : Sound f i x t := by
  constructor
  · exact h.owned hsound.owned
  · exact h.core hsound.core
  · exact h.whole hsound.whole
  · rw [h.held]
    exact hsound.held
  · rw [h.din]
    exact hsound.file
  · rw [hf]
    exact hsound.type
  · rw [hf]
    exact hsound.writable
  · rw [hf]
    exact hsound.off
  · rw [h.contents]
    exact hsound.contents
  · exact hsound.bound

theorem sameFiles_count (s : State) (n : Int) : SameFiles s (State.count s n) := ⟨rfl, rfl, rfl, fun _ => rfl⟩

/-- The lock of slot `i` is set to `b`. -/
theorem sameFiles_lock (s : State) (i : Nat) (b : Bool) :
    SameFiles s (s.setInode i { s.icache i with locked := b }) := by
  refine ⟨rfl, rfl, rfl, fun j => ?_⟩
  by_cases hj : j = i
  · rw [hj, setInode_self]
  · have hne : (s.setInode i { s.icache i with locked := b }).icache j = s.icache j := Function.update_of_ne hj _ _
    rw [hne]

end SameFiles

/-! ### Under the lock -/

section Inside

variable {f i : Nat} {s t v : State} {x y : Text} {src : List UInt8} {r : Int}

/-- What a process has done when it lets go of the lock. -/
def Done (f i : Nat) (x : Text) (src : List UInt8) (r : Int) (v : State) : Prop :=
  ∃ y, append src x = .ok (r, y) ∧ Sound f i y v

theorem Sound.refuses (h : Sound f i x s) : Refused s i x.off src.length ↔ x.Refuses src := by
  unfold Refused Text.Refuses
  rw [← h.contents, State.contents, Dinode.length_data]

/-- `writei` puts the piece where the offset is. -/
theorem Sound.writei (h : Sound f i x s) (hlen : src.length < 2 ^ 32) (hrun : Fs.writei i src x.off s = .ok (r, t)) :
    (x.Refuses src ∧ r = -1 ∧ t = s) ∨ (¬ x.Refuses src ∧ r = src.length ∧ Wrote i x.off src s t) := by
  have hdev : (s.din i).type ≠ T_DEV := by
    rw [h.file]
    decide
  by_cases hr : x.Refuses src
  · left
    rw [writei_refused hdev h.bound hlen (h.refuses.mpr hr)] at hrun
    cases hrun
    exact ⟨hr, rfl, rfl⟩
  · right
    have hwp := wp_writei (E := fun _ => True) h.owned h.core h.whole h.held hdev (fun hc => hr (h.refuses.mp hc))
      (Or.inl fun _ => trivial)
    exact ⟨hr, hwp.ok hrun⟩

theorem Sound.wrote (h : Sound f i x s) (hr : ¬ x.Refuses src) (hw : Wrote i x.off src s t)
    (hoff : (u.ftable f).off = x.off + src.length) (htype : (u.ftable f).type = (t.ftable f).type)
    (hwritable : (u.ftable f).writable = (t.ftable f).writable) (hfiles : SameFiles t u) : Sound f i (x.put src) u := by
  have htable : t.ftable = s.ftable := by rw [hw.within.rest]; rfl
  constructor
  · exact hfiles.owned hw.owned
  · exact hfiles.core (h.core.within hw.within)
  · exact hfiles.whole hw.whole
  · rw [hfiles.held, over_held hw.within.rest]
    exact h.held
  · rw [hfiles.din, hw.within.type]
    exact h.file
  · rw [htype, htable]
    exact h.type
  · rw [hwritable, htable]
    exact h.writable
  · exact hoff
  · rw [hfiles.contents, hw.contents, h.contents]
    rfl
  · exact Nat.lt_of_not_le fun hc => hr (Or.inr (Or.inl hc))

theorem Sound.inside (h : Sound f i x s) (hlen : src.length < 2 ^ 32) (hrun : (inside f i src).run s = .ok (r, t)) :
    Done f i x src r t := by
  rw [run_inside, run_ifetch] at hrun
  rcases code_bind.mp hrun with ⟨a, u, hfetch, hrest⟩
  rw [get_bind, if_pos h.core.valid] at hfetch
  cases hfetch
  rw [get_bind, h.off] at hrest
  clear hrun
  rcases code_bind.mp hrest with ⟨r', u, hwrite, hrun⟩
  clear hrest
  rcases h.writei hlen hwrite with ⟨hr, rfl, rfl⟩ | ⟨hr, rfl, hw⟩
  · rw [if_neg (by decide)] at hrun
    cases hrun
    exact ⟨x, if_pos hr, h⟩
  · have happend : append src x = .ok ((src.length : Int), x.put src) := if_neg hr
    have htable : u.ftable = s.ftable := by rw [hw.within.rest]; rfl
    by_cases hpos : 0 < (src.length : Int)
    · rw [if_pos hpos] at hrun
      rcases code_bind.mp hrun with ⟨_, w, hadv, hret⟩
      cases hret
      cases hadv
      refine ⟨_, happend, h.wrote hr hw ?_ ?_ ?_ ⟨rfl, rfl, rfl, fun _ => rfl⟩⟩
      all_goals dsimp only [State.setFile]
      · rw [Function.update_self, htable, h.off]
        rfl
      · rw [Function.update_self]
      · rw [Function.update_self]
    · rw [if_neg hpos] at hrun
      cases hrun
      refine ⟨_, happend, h.wrote hr hw ?_ rfl rfl ⟨rfl, rfl, rfl, fun _ => rfl⟩⟩
      rw [htable, h.off]
      omega

end Inside

/-! ### The loop -/

section Loop

variable {σ : Type} (put : List UInt8 → Prog σ Stop Int) (src : List UInt8) {fuel k : Nat}

/-- What comes after a piece. -/
def rest (fuel k : Nat) (r : Int) : Prog σ Stop Int :=
  if r < 0 then writeAll put src 0 k
  else if r = (piece src k).length then writeAll put src fuel (k + (piece src k).length)
  else do
    let k' ← lift (stop (.panic .shortFilewrite))
    return verdict src k'

theorem writeAll_end (h : fuel = 0 ∨ ¬ k < src.length) : writeAll put src fuel k = .ret (verdict src k) := by
  have hloop : loop put src fuel k = .ret k := by
    cases fuel with
    | zero => rfl
    | succ n =>
      rw [loop, if_neg (h.resolve_left (Nat.succ_ne_zero n))]
      rfl
  rw [writeAll, hloop]
  rfl

theorem writeAll_succ (hk : k < src.length) :
    writeAll put src (fuel + 1) k = put (piece src k) >>= rest put src fuel k := by
  rw [writeAll, loop, if_pos hk, Prog.bind_assoc]
  congr 1
  funext r
  unfold rest
  by_cases hr : r < 0
  · rw [if_pos hr, if_pos hr]
    rfl
  · rw [if_neg hr, if_neg hr]
    by_cases heq : r = (piece src k).length
    · rw [if_pos heq, if_pos heq]
      rfl
    · rw [if_neg heq, if_neg heq]

theorem rest_neg {r : Int} (hr : r < 0) : rest put src fuel k r = writeAll put src 0 k := if_pos hr

theorem rest_all : rest put src fuel k (piece src k).length = writeAll put src fuel (k + (piece src k).length) := by
  rw [rest, if_neg (by omega), if_pos rfl]

end Loop

/-! ### The two machines -/

inductive Phase where
  | out
  | begun
  | inside
  | done
deriving DecidableEq

/-- Where a process is in a call, and what is left of it below and above. -/
inductive At (f i : Nat) (x : Text) (s : State) : Phase → Option (P Int) → Option (Prog Text Stop Int) → Prop
  | idle : At f i x s .out none none
  | start (src : Source) : At f i x s .out (some (low f src)) (some (high src))
  | out (src : Source) (fuel k : Nat) :
      At f i x s .out (some (writeAll (fileput f i) src.1 fuel k)) (some (writeAll once src.1 fuel k))
  | begun (src : Source) (fuel k : Nat) :
      At f i x s .begun
        (some (lift (acquire i) >>= fun _ => inside f i (piece src.1 k) >>= fun r =>
          leave i r >>= rest (fileput f i) src.1 fuel k))
        (some (once (piece src.1 k) >>= rest once src.1 fuel k))
  | inside (src : Source) (fuel k : Nat) (q : P Int) (v : State)
      (alone : Prog.Alone (Same f i) Count (Done f i x (piece src.1 k)) q v s) :
      At f i x s .inside (some (q >>= fun r => leave i r >>= rest (fileput f i) src.1 fuel k))
        (some (once (piece src.1 k) >>= rest once src.1 fuel k))
  | done (src : Source) (fuel k : Nat) :
      At f i x s .done (some (lift endOp >>= fun _ => writeAll (fileput f i) src.1 fuel k))
        (some (writeAll once src.1 fuel k))

section At

variable {f i : Nat} {x y : Text} {s t : State} {ph : Phase} {a : Option (P Int)} {b : Option (Prog Text Stop Int)}

/-- Who does not have the lock does not care. -/
theorem At.frame (h : At f i x s ph a b) (hph : ph ≠ .inside) : At f i y t ph a b := by
  cases h with
  | idle => exact .idle
  | start src => exact .start src
  | out src fuel k => exact .out src fuel k
  | begun src fuel k => exact .begun src fuel k
  | inside => exact absurd rfl hph
  | done src fuel k => exact .done src fuel k

/-- Others do what a process in the lock does not see. -/
theorem At.others (h : At f i x s ph a b) (hR : ∀ v, Same f i v s → Same f i v t) : At f i x t ph a b := by
  cases h with
  | idle => exact .idle
  | start src => exact .start src
  | out src fuel k => exact .out src fuel k
  | begun src fuel k => exact .begun src fuel k
  | inside src fuel k q v alone => exact .inside src fuel k q v (alone.others hR)
  | done src fuel k => exact .done src fuel k

theorem At.in_lock (h : At f i x s .inside a b) : ∃ (src : Source) (fuel k : Nat) (q : P Int) (v : State),
    a = some (q >>= fun r => leave i r >>= rest (fileput f i) src.1 fuel k) ∧
      b = some (once (piece src.1 k) >>= rest once src.1 fuel k) ∧
      Prog.Alone (Same f i) Count (Done f i x (piece src.1 k)) q v s := by
  cases h with
  | inside src fuel k q v alone => exact ⟨src, fuel, k, q, v, rfl, rfl, alone⟩

/-- Outside the loop nothing is left but the value. -/
theorem At.ret {r : Int} (h : At f i x s ph (some (.ret r)) b) : ph = .out ∧ b = some (.ret r) := by
  generalize ha : some (Prog.ret r : P Int) = a at h
  cases h with
  | idle => cases ha
  | start src => cases ha
  | out src fuel k =>
    by_cases hend : fuel = 0 ∨ ¬ k < src.1.length
    · rw [writeAll_end _ _ hend] at ha
      cases ha
      exact ⟨rfl, by rw [writeAll_end _ _ hend]⟩
    · rcases not_or.mp hend with ⟨h1, h2⟩
      obtain ⟨n, rfl⟩ := Nat.exists_eq_succ_of_ne_zero h1
      rw [writeAll_succ _ _ (not_not.mp h2)] at ha
      cases ha
  | begun src fuel k => cases ha
  | inside src fuel k q v alone =>
    cases q with
    | ret r' => cases ha
    | call c k' => cases ha
  | done src fuel k => cases ha

end At

section Machines

variable {π : Type} [Fintype π]

/-- How many processes are between `begin_op` and `end_op`. -/
def busy (ph : π → Phase) : Nat := (Finset.univ.filter fun p => ph p ≠ .out).card

def Phase.weight : Phase → Nat
  | .out => 0
  | _ => 1

theorem weight_of_ne {a : Phase} (h : a ≠ .out) : a.weight = 1 := by
  cases a with
  | out => exact absurd rfl h
  | begun => rfl
  | inside => rfl
  | done => rfl

theorem busy_pos {ph : π → Phase} {p : π} (h : ph p ≠ .out) : 1 ≤ busy ph :=
  Finset.card_pos.mpr ⟨p, Finset.mem_filter.mpr ⟨Finset.mem_univ p, h⟩⟩

/-- The lower machine and the upper one, when the processes are where `ph` says. -/
structure Sim (f i : Nat) (ph : π → Phase) (m : Machine State Stop Int π) (n : Machine Text Stop Int π) : Prop where
  each : ∀ p, At f i n.st m.st (ph p) (m.pc p) (n.pc p)
  one : ∀ p q, ph p = .inside → ph q = .inside → p = q
  locked : (m.st.icache i).locked = true ↔ ∃ p, ph p = .inside
  count : m.st.outstanding = busy ph
  sound : (∀ p, ph p ≠ .inside) → Sound f i n.st m.st

section Sim

variable {f i : Nat} {ph : π → Phase} {m m' : Machine State Stop Int π} {n : Machine Text Stop Int π} {p : π}
  {s t : State} {x y : Text} {a b : Phase}

/-- The table has the file open, whoever has the lock. -/
theorem Sim.open (h : Sim f i ph m n) :
    (m.st.ftable f).type = .inode i ∧ (m.st.ftable f).writable = true := by
  by_cases hin : ∃ p, ph p = .inside
  · rcases hin with ⟨p, hp⟩
    have hat := h.each p
    rw [hp] at hat
    rcases hat.in_lock with ⟨src, fuel, k, q, v, -, -, alone⟩
    have hopened := alone.seen.opened
    rw [alone.seen.seen]
    exact ⟨hopened.type, hopened.writable⟩
  · have hsound := h.sound (not_exists.mp hin)
    exact ⟨hsound.type, hsound.writable⟩

variable [DecidableEq π]

theorem busy_update (ph : π → Phase) (p : π) (a : Phase) :
    busy (Function.update ph p a) + (ph p).weight = busy ph + a.weight := by
  have hrest : ∀ a, (Finset.univ.filter fun q => Function.update ph p a q ≠ .out).erase p =
      (Finset.univ.filter fun q => ph q ≠ .out).erase p := by
    intro a
    ext q
    rw [Finset.mem_erase, Finset.mem_erase, Finset.mem_filter, Finset.mem_filter]
    refine and_congr_right fun hq => ?_
    rw [Function.update_of_ne hq]
  have hcard : ∀ a, busy (Function.update ph p a) =
      ((Finset.univ.filter fun q => ph q ≠ .out).erase p).card + a.weight := by
    intro a
    have hmem : p ∈ (Finset.univ.filter fun q => Function.update ph p a q ≠ .out) ↔ a ≠ .out := by
      rw [Finset.mem_filter, Function.update_self]
      exact and_iff_right (Finset.mem_univ p)
    rw [← hrest a]
    by_cases ha : a = .out
    · rw [Finset.erase_eq_of_notMem (fun hc => hmem.mp hc ha), ha]
      rfl
    · rw [weight_of_ne ha, Finset.card_erase_add_one (hmem.mpr ha)]
      rfl
  have hself := hcard (ph p)
  rw [Function.update_eq_self] at hself
  rw [hcard a, hself]
  omega

theorem busy_two {ph : π → Phase} {p q : π} (hne : p ≠ q) (hp : ph p ≠ .out) (hq : ph q ≠ .out) : 2 ≤ busy ph := by
  have h := busy_update ph p .out
  have hpos : 1 ≤ busy (Function.update ph p .out) := by
    refine busy_pos (p := q) ?_
    rwa [Function.update_of_ne hne.symm]
  rw [weight_of_ne hp] at h
  change _ = busy ph + 0 at h
  omega

/-- Process `p` goes from one phase to the next, and the others stay where they are. -/
theorem Sim.move (h : Sim f i ph m n) {u : Option (P Int)} {w : Option (Prog Text Stop Int)}
    (hp : At f i y t b u w) (hothers : ∀ q ≠ p, At f i y t (ph q) (m.pc q) (n.pc q))
    (hone : b = .inside → ∀ q ≠ p, ph q ≠ .inside)
    (hlocked : (t.icache i).locked = true ↔ b = .inside ∨ ∃ q ≠ p, ph q = .inside)
    (hcount : t.outstanding + (ph p).weight = m.st.outstanding + b.weight)
    (hsound : b ≠ .inside → (∀ q ≠ p, ph q ≠ .inside) → Sound f i y t) :
    Sim f i (Function.update ph p b) (m.set p u t) (n.set p w y) := by
  have hself : Function.update ph p b p = b := Function.update_self _ _ _
  have hne : ∀ q ≠ p, Function.update ph p b q = ph q := fun q hq => Function.update_of_ne hq _ _
  constructor
  · intro q
    unfold Machine.set
    dsimp only
    by_cases hq : q = p
    · rw [hq, hself, Function.update_self, Function.update_self]
      exact hp
    · rw [hne q hq, Function.update_of_ne hq, Function.update_of_ne hq]
      exact hothers q hq
  · intro q r hq hr
    by_cases hqp : q = p
    · by_cases hrp : r = p
      · rw [hqp, hrp]
      · rw [hqp, hself] at hq
        rw [hne r hrp] at hr
        exact absurd hr (hone hq r hrp)
    · rw [hne q hqp] at hq
      by_cases hrp : r = p
      · rw [hrp, hself] at hr
        exact absurd hq (hone hr q hqp)
      · rw [hne r hrp] at hr
        exact h.one q r hq hr
  · change (t.icache i).locked = true ↔ _
    rw [hlocked]
    constructor
    · rintro (hb | ⟨q, hq, hin⟩)
      · exact ⟨p, by rw [hself, hb]⟩
      · exact ⟨q, by rw [hne q hq, hin]⟩
    · rintro ⟨q, hq⟩
      by_cases hqp : q = p
      · rw [hqp, hself] at hq
        exact Or.inl hq
      · rw [hne q hqp] at hq
        exact Or.inr ⟨q, hqp, hq⟩
  · change t.outstanding = _
    have hbusy := busy_update ph p b
    have hcount' := h.count
    omega
  · intro hout
    refine hsound ?_ fun q hq => ?_
    · have hb := hout p
      rwa [hself] at hb
    · have hq' := hout q
      rwa [hne q hq] at hq'

/-! ### What one action does -/

theorem beginOp_ok {r : Unit} (h : beginOp s = .ok (r, t)) : t = State.count s (s.outstanding + 1) := by
  unfold beginOp at h
  split at h
  · cases h
  · cases h
    rfl

theorem acquire_ok {r : Unit} (h : acquire i s = .ok (r, t)) :
    (s.icache i).locked = false ∧ t = s.setInode i { s.icache i with locked := true } := by
  unfold acquire at h
  rw [get_bind] at h
  by_cases href : (s.icache i).ref < 1
  · rw [if_pos href] at h
    cases h
  · rw [if_neg href] at h
    by_cases hlocked : (s.icache i).locked = true
    · rw [if_pos hlocked] at h
      cases h
    · rw [if_neg hlocked] at h
      cases h
      exact ⟨Bool.eq_false_iff.mpr hlocked, rfl⟩

theorem iunlock_ok {r : Unit} (h : iunlock i s = .ok (r, t)) :
    t = s.setInode i { s.icache i with locked := false } := by
  unfold iunlock at h
  rw [get_bind] at h
  by_cases hbad : (s.icache i).locked = false ∨ (s.icache i).ref < 1
  · rw [if_pos hbad] at h
    cases h
  · rw [if_neg hbad] at h
    cases h
    rfl

/-- The log is emptied by the last one only. -/
theorem endOp_ok {r : Unit} (h : endOp s = .ok (r, t)) :
    SameFiles s t ∧ t.icache = s.icache ∧ t.ftable = s.ftable ∧ t.outstanding = s.outstanding - 1 ∧
      (2 ≤ s.outstanding → t = State.count s (s.outstanding - 1)) := by
  unfold endOp at h
  by_cases hlast : s.outstanding - 1 = 0
  · rw [if_pos hlast] at h
    cases h
    exact ⟨⟨rfl, rfl, rfl, fun _ => rfl⟩, rfl, rfl, rfl, fun hc => by omega⟩
  · rw [if_neg hlast] at h
    cases h
    exact ⟨⟨rfl, rfl, rfl, fun _ => rfl⟩, rfl, rfl, rfl, fun _ => rfl⟩

theorem Same.count {v : State} {k : Int} (h : Same f i v s) : Same f i v (State.count s k) := by
  refine ⟨?_, h.trans, h.opened⟩
  rw [h.seen]
  rfl

theorem lock_self (s : State) (i : Nat) (b : Bool) :
    ((s.setInode i { s.icache i with locked := b }).icache i).locked = b := by rw [setInode_self]

/-! ### What one step does -/

/-- A process without the lock goes on and does not take it. -/
theorem Sim.pass (h : Sim f i ph m n) {u : Option (P Int)} {w : Option (Prog Text Stop Int)}
    (hph : ph p ≠ .inside) (hb : b ≠ .inside) (hp : At f i n.st t b u w) (hfiles : SameFiles m.st t) (hcache : t.icache = m.st.icache)
    (htable : t.ftable = m.st.ftable)
    (hothers : ∀ q ≠ p, ph q = .inside → ∀ v, Same f i v m.st → Same f i v t)
    (hcount : t.outstanding + (ph p).weight = m.st.outstanding + b.weight) :
    Sim f i (Function.update ph p b) (m.set p u t) (n.set p w n.st) := by
  have hnot : ∀ q, ph q = .inside → q ≠ p := by
    rintro q hq rfl
    exact hph hq
  refine h.move hp ?_ (fun hc => absurd hc hb) ?_ hcount ?_
  · intro q hq
    by_cases hin : ph q = .inside
    · exact (h.each q).others (hothers q hq hin)
    · exact (h.each q).frame hin
  · rw [hcache, h.locked]
    constructor
    · rintro ⟨q, hq⟩
      exact Or.inr ⟨q, hnot q hq, hq⟩
    · rintro (hc | ⟨q, -, hq⟩)
      · exact absurd hc hb
      · exact ⟨q, hq⟩
  · intro _ hout
    exact (h.sound fun q hq => hout q (hnot q hq) hq).alike hfiles htable

/-- A process that is in no transaction. -/
theorem Sim.move_out (h : Sim f i ph m n) {u : Option (P Int)} {w : Option (Prog Text Stop Int)} (hph : ph p = .out)
    (hp : At f i n.st m.st .out u w) :
    Sim f i (Function.update ph p .out) (m.set p u m.st) (n.set p w n.st) :=
  h.pass (by rw [hph]; decide) (by decide) hp ⟨rfl, rfl, rfl, fun _ => rfl⟩ rfl rfl (fun _ _ _ _ hv => hv)
    (by rw [hph])

/-- The call looks at the table. -/
theorem Sim.start (h : Sim f i ph m n) (src : Source) (hph : ph p = .out) (hn : n.pc p = some (high src)) :
    Sim f i (Function.update ph p .out)
      (m.set p (some (writeAll (fileput f i) src.1 src.1.length 0)) m.st) n := by
  have hmove := h.move_out hph (At.out src src.1.length 0)
  rwa [show some (writeAll once src.1 src.1.length 0) = n.pc p from hn.symm, Machine.set_self] at hmove

/-- `begin_op`. -/
theorem Sim.begin (h : Sim f i ph m n) (src : Source) (fuel k : Nat) {r : Unit} (hph : ph p = .out)
    (hn : n.pc p = some (once (piece src.1 k) >>= rest once src.1 fuel k)) (hrun : beginOp m.st = .ok (r, t)) :
    Sim f i (Function.update ph p .begun)
      (m.set p (some (lift (acquire i) >>= fun _ => inside f i (piece src.1 k) >>= fun r =>
        leave i r >>= rest (fileput f i) src.1 fuel k)) t) n := by
  cases beginOp_ok hrun
  have hpass := h.pass (p := p) (by rw [hph]; decide) (by decide) (.begun src fuel k)
    (sameFiles_count m.st (m.st.outstanding + 1)) rfl rfl (fun _ _ _ v hv => hv.count) ?_
  · rwa [← hn, Machine.set_self] at hpass
  · rw [hph]
    change m.st.outstanding + 1 + ((0 : Nat) : Int) = m.st.outstanding + ((1 : Nat) : Int)
    omega

/-- `end_op`. -/
theorem Sim.finish (h : Sim f i ph m n) (src : Source) (fuel k : Nat) {r : Unit} (hph : ph p = .done)
    (hn : n.pc p = some (writeAll once src.1 fuel k)) (hrun : endOp m.st = .ok (r, t)) :
    Sim f i (Function.update ph p .out) (m.set p (some (writeAll (fileput f i) src.1 fuel k)) t) n := by
  rcases endOp_ok hrun with ⟨hfiles, hcache, htable, hout, htwo⟩
  have hpass := h.pass (p := p) (by rw [hph]; decide) (by decide) (.out src fuel k) hfiles hcache htable ?_ ?_
  · rwa [← hn, Machine.set_self] at hpass
  · intro q hq hin v hv
    have hbusy : 2 ≤ busy ph := busy_two hq (by rw [hin]; decide) (by rw [hph]; decide)
    rw [htwo (by rw [h.count]; omega)]
    exact hv.count
  · rw [hout, hph]
    change m.st.outstanding - 1 + ((1 : Nat) : Int) = m.st.outstanding + ((0 : Nat) : Int)
    omega

/-- The lock is taken, and nobody had it. -/
theorem Sim.lock (h : Sim f i ph m n) (src : Source) (fuel k : Nat) {r : Unit} (hph : ph p = .begun)
    (hn : n.pc p = some (once (piece src.1 k) >>= rest once src.1 fuel k)) (hrun : acquire i m.st = .ok (r, t)) :
    Sim f i (Function.update ph p .inside)
      (m.set p (some (inside f i (piece src.1 k) >>= fun r => leave i r >>= rest (fileput f i) src.1 fuel k)) t)
      n := by
  rcases acquire_ok hrun with ⟨hfree, ht⟩
  have hnone : ∀ q, ph q ≠ .inside := by
    intro q hq
    have hlocked := h.locked.mpr ⟨q, hq⟩
    rw [hfree] at hlocked
    cases hlocked
  have hlocked : (t.icache i).locked = true := by rw [ht, lock_self]
  have hout : t.outstanding = m.st.outstanding := by rw [ht]; rfl
  have hsound : Sound f i n.st t := by
    rw [ht]
    exact (h.sound hnone).alike (sameFiles_lock _ _ _) rfl
  have hlen : (piece src.1 k).length < 2 ^ 32 := by
    have hsrc := src.2
    rw [length_piece]
    omega
  have htrans : 1 ≤ t.outstanding := by
    have hbusy : 1 ≤ busy ph := busy_pos (p := p) (by rw [hph]; decide)
    rw [hout, h.count]
    omega
  have hsame : Same f i t t :=
    ⟨rfl, htrans, hsound.type, hsound.writable, hlocked, hsound.core.valid, hsound.file⟩
  have hmove := h.move (p := p) (b := .inside) (y := n.st) (w := n.pc p) (t := t)
    (u := some (inside f i (piece src.1 k) >>= fun r => leave i r >>= rest (fileput f i) src.1 fuel k))
    ?_ (fun q _ => (h.each q).frame (hnone q)) (fun _ q _ => hnone q) (iff_of_true hlocked (Or.inl rfl)) ?_
    (fun hc => absurd rfl hc)
  · rwa [Machine.set_self] at hmove
  · rw [hn]
    exact .inside src fuel k _ t ⟨calm_inside _, hsame, fun r u hr => hsound.inside hlen hr⟩
  · rw [hph, hout]
    rfl

/-- An action under the lock. -/
theorem Sim.inner (h : Sim f i ph m n) (src : Source) (fuel k : Nat) {q q' : P Int} {v : State}
    (hph : ph p = .inside) (hn : n.pc p = some (once (piece src.1 k) >>= rest once src.1 fuel k))
    (halone : Prog.Alone (Same f i) Count (Done f i n.st (piece src.1 k)) q v m.st)
    (hrun : q.next m.st = some (q', t)) :
    Sim f i (Function.update ph p .inside)
      (m.set p (some (q' >>= fun r => leave i r >>= rest (fileput f i) src.1 fuel k)) t) n := by
  rcases halone.step hrun with ⟨hcount, u, halone'⟩
  have hothers : ∀ q ≠ p, ph q ≠ .inside := fun q hq hin => hq (h.one q p hin hph)
  have hmove := h.move (p := p) (b := .inside) (y := n.st) (w := n.pc p) (t := t)
    (u := some (q' >>= fun r => leave i r >>= rest (fileput f i) src.1 fuel k))
    ?_ (fun q hq => (h.each q).frame (hothers q hq)) (fun _ q hq => hothers q hq) ?_ ?_ (fun hc => absurd rfl hc)
  · rwa [Machine.set_self] at hmove
  · rw [hn]
    exact .inside src fuel k q' u halone'
  · refine iff_of_true ?_ (Or.inl rfl)
    rw [halone'.seen.seen]
    exact halone'.seen.opened.locked
  · rw [hph, show t.outstanding = m.st.outstanding from hcount]

/-- The lock is given back: this is where the upper machine puts the piece. -/
theorem Sim.unlock (h : Sim f i ph m n) (src : Source) (fuel k : Nat) {r : Int} {u : Unit} {v : State}
    (hph : ph p = .inside) (hn : n.pc p = some (once (piece src.1 k) >>= rest once src.1 fuel k))
    (halone : Prog.Alone (Same f i) Count (Done f i n.st (piece src.1 k)) (.ret r : P Int) v m.st)
    (hrun : iunlock i m.st = .ok (u, t)) :
    ∃ fuel' k' n', Machine.Step high n (.step p) n' ∧
      rest (fileput f i) src.1 fuel k r = writeAll (fileput f i) src.1 fuel' k' ∧
      Sim f i (Function.update ph p .done)
        (m.set p (some (lift endOp >>= fun _ => writeAll (fileput f i) src.1 fuel' k')) t) n' := by
  have ht := iunlock_ok hrun
  rcases halone.ret with ⟨⟨y, happend, hsound⟩, hsame⟩
  have hothers : ∀ q ≠ p, ph q ≠ .inside := fun q hq hin => hq (h.one q p hin hph)
  obtain ⟨fuel', k', hlow, hhigh⟩ : ∃ fuel' k', rest (fileput f i) src.1 fuel k r =
      writeAll (fileput f i) src.1 fuel' k' ∧ rest once src.1 fuel k r = writeAll once src.1 fuel' k' := by
    unfold append at happend
    by_cases hr : n.st.Refuses (piece src.1 k)
    · rw [if_pos hr] at happend
      cases happend
      exact ⟨0, k, rest_neg _ _ (by decide), rest_neg _ _ (by decide)⟩
    · rw [if_neg hr] at happend
      cases happend
      exact ⟨fuel, k + (piece src.1 k).length, rest_all _ _, rest_all _ _⟩
  have hnext : (once (piece src.1 k) >>= rest once src.1 fuel k).next n.st =
      some (writeAll once src.1 fuel' k', y) := by
    rw [← hhigh]
    change (Prog.call (append (piece src.1 k)) (rest once src.1 fuel k)).next n.st = _
    rw [Prog.next, happend]
  have hfiles : SameFiles v t := by
    rw [ht]
    have hlock := sameFiles_lock m.st i false
    rw [hsame.seen] at hlock ⊢
    exact ⟨rfl, rfl, rfl, hlock.icache⟩
  have htable : t.ftable = v.ftable := by
    rw [ht, hsame.seen]
    rfl
  refine ⟨fuel', k', _, Machine.step_of_next hn hnext, hlow, ?_⟩
  refine h.move (.done src fuel' k') (fun q hq => (h.each q).frame (hothers q hq)) (fun hc => by cases hc) ?_ ?_
    fun _ _ => hsound.alike hfiles htable
  · rw [ht, lock_self]
    constructor
    · intro hc
      cases hc
    · rintro (hc | ⟨q, hq, hin⟩)
      · cases hc
      · exact absurd hin (hothers q hq)
  · rw [hph, ht]
    rfl

/-- An action of process `p`: the upper machine does nothing, or puts a piece. -/
theorem Sim.action (h : Sim f i ph m n) {z z' : P Int} (hz : m.pc p = some z) (hrun : z.next m.st = some (z', t)) :
    ∃ bs n' ph', Run (Machine.Step high) n bs n' ∧ Sim f i ph' (m.set p (some z') t) n' ∧
      bs.filterMap Move.shown = [] := by
  have hat := h.each p
  rw [hz] at hat
  generalize hph : ph p = a at hat
  generalize hn : n.pc p = b at hat
  cases hat with
  | start src =>
    rcases Prog.next_lift hrun with ⟨x, hx, hz'⟩
    cases hx
    have hbody : z' = writeAll (fileput f i) src.1 src.1.length 0 := by
      change z' = if (m.st.ftable f).writable = false then return -1 else _ at hz'
      rw [h.open.2, if_neg (by decide)] at hz'
      rw [h.open.1] at hz'
      exact hz'
    rw [hbody]
    exact ⟨[], n, _, Run.nil, h.start src hph hn, rfl⟩
  | out src fuel k =>
    by_cases hend : fuel = 0 ∨ ¬ k < src.1.length
    · rw [writeAll_end _ _ hend] at hrun
      cases hrun
    · rcases not_or.mp hend with ⟨hfuel, hk⟩
      obtain ⟨fuel', rfl⟩ := Nat.exists_eq_succ_of_ne_zero hfuel
      rw [writeAll_succ _ _ (not_not.mp hk)] at hrun hn
      unfold fileput at hrun
      rw [Prog.bind_assoc] at hrun
      rcases Prog.next_lift hrun with ⟨x, hx, hz'⟩
      rw [Prog.bind_assoc] at hz'
      simp only [Prog.bind_assoc] at hz'
      cases hz'
      exact ⟨[], n, _, Run.nil, h.begin src fuel' k hph hn hx, rfl⟩
  | begun src fuel k =>
    rcases Prog.next_lift hrun with ⟨x, hx, hz'⟩
    cases hz'
    exact ⟨[], n, _, Run.nil, h.lock src fuel k hph hn hx, rfl⟩
  | inside src fuel k q v halone =>
    rcases Prog.next_bind hrun with ⟨q', hq, hz'⟩ | ⟨r, hr, hnext⟩
    · cases hz'
      exact ⟨[], n, _, Run.nil, h.inner src fuel k hph hn halone hq, rfl⟩
    · rw [hr] at halone
      unfold leave at hnext
      rw [Prog.bind_assoc] at hnext
      rcases Prog.next_lift hnext with ⟨x, hx, hz'⟩
      rcases h.unlock src fuel k hph hn halone hx with ⟨fuel', k', n', hstep, hrest, hsim⟩
      rw [Prog.bind_assoc] at hz'
      change z' = lift endOp >>= fun _ => rest (fileput f i) src.1 fuel k r at hz'
      rw [hz', hrest]
      exact ⟨[.step p], n', _, Run.single hstep, hsim, rfl⟩
  | done src fuel k =>
    rcases Prog.next_lift hrun with ⟨x, hx, hz'⟩
    cases hz'
    exact ⟨[], n, _, Run.nil, h.finish src fuel k hph hn hx, rfl⟩

theorem Sim.step {l : Move π Source Int} (h : Sim f i ph m n) (hstep : Machine.Step (low f) m l m') :
    ∃ bs n' ph', Run (Machine.Step high) n bs n' ∧ Sim f i ph' m' n' ∧
      bs.filterMap Move.shown = l.shown.toList := by
  cases l with
  | call q src =>
    rcases Machine.step_call hstep with ⟨hq, rfl⟩
    have hat := h.each q
    rw [hq] at hat
    generalize hph : ph q = a at hat
    generalize hn : n.pc q = b at hat
    cases hat
    exact ⟨[.call q src], _, _, Run.single (Machine.call_step hn), h.move_out hph (.start src), rfl⟩
  | step q =>
    rcases Machine.step_step hstep with ⟨z, z', t, hz, hrun, rfl⟩
    exact h.action hz hrun
  | ret q r =>
    rcases Machine.step_ret hstep with ⟨hq, rfl⟩
    have hat := h.each q
    rw [hq] at hat
    rcases hat.ret with ⟨hph, hn⟩
    exact ⟨[.ret q r], _, _, Run.single (Machine.ret_step hn), h.move_out hph .idle, rfl⟩

end Sim

/-! ### Every run -/

section Refines

variable {f i : Nat} {x : Text} {s : State} {as : List (Move π Source Int)} {m : Machine State Stop Int π}

theorem sim_start (hsound : Sound f i x s) (hfree : (s.icache i).locked = false) (hout : s.outstanding = 0) :
    Sim f i (fun _ : π => .out) ⟨s, fun _ => none⟩ ⟨x, fun _ => none⟩ := by
  constructor
  · exact fun _ => .idle
  · exact fun p q hp _ => by cases hp
  · change (s.icache i).locked = true ↔ _
    rw [hfree]
    exact ⟨fun hc => (by cases hc), fun ⟨p, hp⟩ => (by cases hp)⟩
  · change s.outstanding = _
    have hbusy : busy (fun _ : π => Phase.out) = 0 :=
      Finset.card_eq_zero.mpr (Finset.filter_eq_empty_iff.mpr fun _ _ hc => hc rfl)
    rw [hout, hbusy]
    rfl
  · exact fun _ => hsound

variable [DecidableEq π]

theorem simulated (hsound : Sound f i x s) (hfree : (s.icache i).locked = false) (hout : s.outstanding = 0)
    (r : Run (Machine.Step (low f)) ⟨s, fun _ => none⟩ as m) :
    ∃ bs n ph, Run (Machine.Step high) ⟨x, fun _ => none⟩ bs n ∧ Sim f i ph m n ∧
      bs.filterMap Move.shown = as.filterMap Move.shown := by
  have hstep : ∀ (m : Machine State Stop Int π) (l : Move π Source Int) (m' : Machine State Stop Int π)
      (n : Machine Text Stop Int π), (∃ ph, Sim f i ph m n) → Machine.Step (low f) m l m' →
      ∃ bs n', Run (Machine.Step high) n bs n' ∧ (∃ ph, Sim f i ph m' n') ∧
        bs.filterMap Move.shown = l.shown.toList := by
    rintro m l m' n ⟨ph, hsim⟩ hl
    rcases hsim.step hl with ⟨bs, n', ph', hrun, hsim', hshown⟩
    exact ⟨bs, n', hrun, ⟨ph', hsim'⟩, hshown⟩
  rcases Run.simulate hstep r ⟨_, sim_start hsound hfree hout⟩ with ⟨bs, n, hrun, ⟨ph, hsim⟩, hshown⟩
  exact ⟨bs, n, ph, hrun, hsim, hshown⟩

/-- However the processes are switched, the calls return what they return on the upper machine, and
whenever nobody has the lock the file is as it is there. -/
theorem shared_refines (hsound : Sound f i x s) (hfree : (s.icache i).locked = false) (hout : s.outstanding = 0)
    (r : Run (Machine.Step (low f)) ⟨s, fun _ => none⟩ as m) :
    ∃ bs n, Run (Machine.Step high) ⟨x, fun _ => none⟩ bs n ∧
      bs.filterMap Move.shown = as.filterMap Move.shown ∧
      ((m.st.icache i).locked = false → Sound f i n.st m.st) := by
  rcases simulated hsound hfree hout r with ⟨bs, n, ph, hrun, hsim, hshown⟩
  refine ⟨bs, n, hrun, hshown, fun hunlocked => hsim.sound fun p hp => ?_⟩
  have hlocked := hsim.locked.mpr ⟨p, hp⟩
  rw [hunlocked] at hlocked
  cases hlocked

end Refines

end Machines

/-! ### What becomes of the bytes -/

/-- The pieces of a source; the first argument is fuel. -/
def cut : Nat → List UInt8 → List (List UInt8)
  | 0, _ => []
  | n + 1, src => if src = [] then [] else src.take WRITEMAX :: cut n (src.drop WRITEMAX)

def pieces (src : List UInt8) : List (List UInt8) := cut src.length src

theorem cut_congr (n : Nat) : ∀ (m : Nat) (src : List UInt8), src.length ≤ n → src.length ≤ m →
    cut n src = cut m src := by
  induction n with
  | zero =>
    intro m src h _
    rw [List.eq_nil_of_length_eq_zero (Nat.le_zero.mp h)]
    cases m <;> rfl
  | succ n ih =>
    intro m src hn hm
    cases m with
    | zero =>
      rw [List.eq_nil_of_length_eq_zero (Nat.le_zero.mp hm)]
      rfl
    | succ m =>
      have hmax : 1 ≤ WRITEMAX := by decide
      rw [cut, cut, ih m _ (by rw [List.length_drop]; omega) (by rw [List.length_drop]; omega)]

theorem pieces_nil : pieces [] = [] := rfl

theorem pieces_ne {src : List UInt8} (h : src ≠ []) : pieces src = src.take WRITEMAX :: pieces (src.drop WRITEMAX) := by
  have hlen := List.length_pos_iff.mpr h
  have hmax : 1 ≤ WRITEMAX := by decide
  unfold pieces
  rw [cut_congr src.length (src.length - 1 + 1) src (Nat.le_refl _) (by omega), cut, if_neg h,
    cut_congr (src.length - 1) (src.drop WRITEMAX).length _ (by rw [List.length_drop]; omega) (Nat.le_refl _)]

/-- A source that fits in one transaction is one piece. -/
theorem pieces_small {src : List UInt8} (h : src ≠ []) (hlen : src.length ≤ WRITEMAX) : pieces src = [src] := by
  rw [pieces_ne h, List.take_of_length_le hlen, List.drop_eq_nil_of_le hlen, pieces_nil]

theorem pieces_piece {src : List UInt8} {k : Nat} (hk : k < src.length) :
    pieces (src.drop k) = piece src k :: pieces (src.drop (k + (piece src k).length)) := by
  have hne : src.drop k ≠ [] := by
    rw [Ne, List.drop_eq_nil_iff]
    omega
  rw [pieces_ne hne, List.drop_drop, length_piece]
  congr 2
  by_cases hlast : src.length - k ≤ WRITEMAX
  · rw [List.drop_eq_nil_of_le (by omega), List.drop_eq_nil_of_le (by omega)]
  · rw [Nat.min_eq_right (by omega)]

variable {π : Type} [DecidableEq π]

/-- The source of a call of `p`. -/
def callOf (p : π) : Move π Source Int → Option (List UInt8)
  | .call q src => if q = p then some src.1 else none
  | _ => none

/-- The sources of the calls of `p`. -/
def calls (p : π) (as : List (Move π Source Int)) : List (List UInt8) := as.filterMap (callOf p)

/-- What `p` has put. -/
def putBy (p : π) (l : List (π × List UInt8)) : List (List UInt8) := (l.filter (·.1 = p)).map Prod.snd

theorem overwrite_nil (c : List UInt8) (o : Nat) : overwrite c o [] = c := by
  unfold overwrite
  rw [List.append_nil, List.length_nil, Nat.add_zero, List.take_append_drop]

theorem length_overwrite (c src : List UInt8) (o : Nat) :
    (overwrite c o src).length = min o c.length + src.length + (c.length - (o + src.length)) := by
  unfold overwrite
  rw [List.length_append, List.length_append, List.length_take, List.length_drop]

/-- One piece after the other. -/
theorem overwrite_append {c l src : List UInt8} {o : Nat} (h : o + l.length ≤ (overwrite c o l).length) :
    overwrite (overwrite c o l) (o + l.length) src = overwrite c o (l ++ src) := by
  rw [length_overwrite] at h
  have ho : o ≤ c.length := by omega
  refine List.ext_getElem? fun k => ?_
  rw [getElem?_overwrite (by rw [length_overwrite]; omega), getElem?_overwrite ho, getElem?_overwrite ho,
    List.length_append]
  by_cases h1 : k < o
  · rw [if_pos (by omega), if_pos h1, if_pos h1]
  · rw [if_neg h1, if_neg h1]
    by_cases h2 : k < o + l.length
    · rw [if_pos h2, if_pos h2, if_pos (by omega), List.getElem?_append_left (by omega)]
    · rw [if_neg h2, if_neg h2]
      by_cases h3 : k < o + l.length + src.length
      · rw [if_pos h3, if_pos (by omega), List.getElem?_append_right (by omega)]
        congr 1
        omega
      · rw [if_neg h3, if_neg (by omega)]

/-- What the upper machine has done: `l` was put, and each process has put the pieces of its calls, but for the
rest of the call it is in. -/
structure Tiled (x : Text) (as : List (Move π Source Int)) (n : Machine Text Stop Int π)
    (l : List (π × List UInt8)) : Prop where
  contents : n.st.contents = overwrite x.contents x.off (l.flatMap Prod.snd)
  off : n.st.off = x.off + (l.flatMap Prod.snd).length
  idle : ∀ p, n.pc p = none → putBy p l = (calls p as).flatMap pieces
  busy : ∀ p z, n.pc p = some z → ∃ (src : List UInt8) (fuel k : Nat), z = writeAll once src fuel k ∧
    k ≤ src.length ∧ putBy p l ++ pieces (src.drop k) = (calls p as).flatMap pieces

section Tiled

variable {x : Text} {as : List (Move π Source Int)} {n n' : Machine Text Stop Int π} {l : List (π × List UInt8)}
  {p q : π}

theorem Tiled.move {as' : List (Move π Source Int)} {l' : List (π × List UInt8)} {y : Text}
    {w : Option (Prog Text Stop Int)} (h : Tiled x as n l)
    (hcontents : y.contents = overwrite x.contents x.off (l'.flatMap Prod.snd))
    (hoff : y.off = x.off + (l'.flatMap Prod.snd).length)
    (hothers : ∀ q ≠ p, putBy q l' = putBy q l ∧ calls q as' = calls q as)
    (hidle : w = none → putBy p l' = (calls p as').flatMap pieces)
    (hbusy : ∀ z, w = some z → ∃ (src : List UInt8) (fuel k : Nat), z = writeAll once src fuel k ∧
      k ≤ src.length ∧ putBy p l' ++ pieces (src.drop k) = (calls p as').flatMap pieces) :
    Tiled x as' (n.set p w y) l' := by
  have hself : (n.set p w y).pc p = w := Function.update_self _ _ _
  have hne : ∀ q ≠ p, (n.set p w y).pc q = n.pc q := fun q hq => Function.update_of_ne hq _ _
  constructor
  · exact hcontents
  · exact hoff
  · intro q hq
    by_cases hqp : q = p
    · rw [hqp] at hq ⊢
      exact hidle (hself ▸ hq)
    · rw [(hothers q hqp).1, (hothers q hqp).2]
      exact h.idle q (hne q hqp ▸ hq)
  · intro q z hq
    by_cases hqp : q = p
    · rw [hqp] at hq ⊢
      exact hbusy z (hself ▸ hq)
    · rw [(hothers q hqp).1, (hothers q hqp).2]
      exact h.busy q z (hne q hqp ▸ hq)

theorem calls_snoc (as : List (Move π Source Int)) (a : Move π Source Int) :
    calls q (as ++ [a]) = calls q as ++ (callOf q a).toList := by
  unfold calls
  rw [List.filterMap_append]
  congr 1

theorem putBy_snoc (l : List (π × List UInt8)) (src : List UInt8) :
    putBy q (l ++ [(p, src)]) = putBy q l ++ if p = q then [src] else [] := by
  unfold putBy
  rw [List.filter_append, List.map_append]
  congr 1
  by_cases hq : p = q
  · rw [if_pos hq, List.filter_cons_of_pos (by simpa using hq)]
    rfl
  · rw [if_neg hq, List.filter_cons_of_neg (by simpa using hq)]
    rfl

theorem Tiled.call {src : Source} (h : Tiled x as n l) (hstep : Machine.Step high n (.call p src) n') :
    Tiled x (as ++ [.call p src]) n' l := by
  rcases Machine.step_call hstep with ⟨hp, rfl⟩
  refine h.move h.contents h.off (fun q hq => ⟨rfl, ?_⟩) (fun hc => by cases hc) ?_
  · rw [calls_snoc, callOf, if_neg (Ne.symm hq)]
    exact List.append_nil _
  · rintro z hz
    cases hz
    refine ⟨src.1, src.1.length, 0, rfl, Nat.zero_le _, ?_⟩
    rw [calls_snoc, callOf, if_pos rfl, List.flatMap_append, h.idle p hp, List.drop_zero]
    congr 1
    exact (List.flatMap_singleton _ _).symm

/-- A piece is put, or the call is given up. -/
theorem Tiled.step (h : Tiled x as n l) (hstep : Machine.Step high n (.step p) n') :
    ∃ l', Tiled x (as ++ [.step p]) n' l' := by
  rcases Machine.step_step hstep with ⟨z, z', y, hp, hrun, rfl⟩
  have hcalls : ∀ q, calls q (as ++ [.step p]) = calls q as := by
    intro q
    rw [calls_snoc]
    exact List.append_nil _
  rcases h.busy p z hp with ⟨src, fuel, k, rfl, hk, hput⟩
  by_cases hend : fuel = 0 ∨ ¬ k < src.length
  · rw [writeAll_end _ _ hend] at hrun
    cases hrun
  · rcases not_or.mp hend with ⟨hfuel, hlt⟩
    obtain ⟨fuel, rfl⟩ := Nat.exists_eq_succ_of_ne_zero hfuel
    have hlt := not_not.mp hlt
    rw [writeAll_succ _ _ hlt] at hrun
    rcases Prog.next_lift hrun with ⟨r, hr, hz'⟩
    change z' = _ at hz'
    change append (piece src k) n.st = .ok (r, y) at hr
    unfold append at hr
    by_cases hrefuses : n.st.Refuses (piece src k)
    · rw [if_pos hrefuses] at hr
      cases hr
      refine ⟨l, h.move h.contents h.off (fun q _ => ⟨rfl, hcalls q⟩) (fun hc => by cases hc) ?_⟩
      rintro w hw
      cases hw
      exact ⟨src, 0, k, hz'.trans (rest_neg _ _ (by decide)), hk, by rw [hcalls, hput]⟩
    · rw [if_neg hrefuses] at hr
      cases hr
      have hroom : x.off + (l.flatMap Prod.snd).length ≤ (overwrite x.contents x.off (l.flatMap Prod.snd)).length := by
        rw [← h.off, ← h.contents]
        exact Nat.le_of_not_lt fun hc => hrefuses (Or.inl hc)
      have hflat : (l ++ [(p, piece src k)]).flatMap Prod.snd = l.flatMap Prod.snd ++ piece src k := by
        rw [List.flatMap_append, List.flatMap_singleton]
      refine ⟨l ++ [(p, piece src k)], h.move ?_ ?_ (fun q hq => ⟨?_, hcalls q⟩) (fun hc => by cases hc) ?_⟩
      · rw [hflat, ← overwrite_append hroom, ← h.contents, ← h.off]
        rfl
      · rw [hflat, List.length_append, ← Nat.add_assoc, ← h.off]
        rfl
      · rw [putBy_snoc, if_neg (Ne.symm hq), List.append_nil]
      · rintro w hw
        cases hw
        refine ⟨src, fuel, k + (piece src k).length, hz'.trans (rest_all _ _), ?_, ?_⟩
        · rw [length_piece]
          omega
        · rw [putBy_snoc, if_pos rfl, hcalls, ← hput, pieces_piece hlt, List.append_assoc]
          rfl

/-- A call that has not failed has put all its pieces. -/
theorem Tiled.ret {r : Int} (h : Tiled x as n l) (hr : 0 ≤ r) (hstep : Machine.Step high n (.ret p r) n') :
    Tiled x (as ++ [.ret p r]) n' l := by
  rcases Machine.step_ret hstep with ⟨hp, rfl⟩
  have hcalls : ∀ q, calls q (as ++ [.ret p r]) = calls q as := by
    intro q
    rw [calls_snoc]
    exact List.append_nil _
  refine h.move h.contents h.off (fun q _ => ⟨rfl, hcalls q⟩) (fun _ => ?_) (fun z hz => by cases hz)
  rcases h.busy p _ hp with ⟨src, fuel, k, hz, hk, hput⟩
  have hall : k = src.length := by
    by_cases hend : fuel = 0 ∨ ¬ k < src.length
    · rw [writeAll_end _ _ hend] at hz
      have hv : r = verdict src k := by cases hz; rfl
      unfold verdict at hv
      by_contra hne
      rw [if_neg hne] at hv
      omega
    · rcases not_or.mp hend with ⟨hfuel, hlt⟩
      obtain ⟨fuel, rfl⟩ := Nat.exists_eq_succ_of_ne_zero hfuel
      rw [writeAll_succ _ _ (not_not.mp hlt)] at hz
      cases hz
  rw [hcalls, ← hput, hall, List.drop_length, pieces_nil, List.append_nil]

theorem tiled_run (r : Run (Machine.Step high) ⟨x, fun _ => none⟩ as n)
    (hok : ∀ p r, Move.ret p r ∈ as → 0 ≤ r) : ∃ l, Tiled x as n l := by
  revert hok
  refine r.history (fun as n => (∀ p r, Move.ret p r ∈ as → 0 ≤ r) → ∃ l, Tiled x as n l) ?_ ?_
  · intro _
    refine ⟨[], ?_, ?_, fun _ _ => rfl, fun p z hz => by cases hz⟩
    · exact (overwrite_nil _ _).symm
    · rfl
  · intro as n a n' ih hstep hok
    rcases ih fun p r hr => hok p r (List.mem_append_left _ hr) with ⟨l, hl⟩
    cases a with
    | call p src => exact ⟨l, hl.call hstep⟩
    | step p => exact hl.step hstep
    | ret p r => exact ⟨l, hl.ret (hok p r (List.mem_append_right _ List.mem_cons_self)) hstep⟩

end Tiled

theorem callOf_shown (p : π) (a : Move π Source Int) : a.shown.bind (callOf p) = callOf p a := by
  cases a <;> rfl

theorem calls_shown (p : π) (as : List (Move π Source Int)) :
    calls p as = (as.filterMap Move.shown).filterMap (callOf p) := by
  unfold calls
  rw [List.filterMap_filterMap]
  congr 1
  funext a
  exact (callOf_shown p a).symm

/-- No write is lost: once all calls have returned, and none has failed, the file has the pieces that were
written one after the other from the old offset on, and each process wrote the pieces of its calls. -/
theorem shared_tiles [Fintype π] {f i : Nat} {x : Text} {s : State} {as : List (Move π Source Int)}
    {m : Machine State Stop Int π} (hsound : Sound f i x s) (hfree : (s.icache i).locked = false)
    (hout : s.outstanding = 0) (r : Run (Machine.Step (low f)) ⟨s, fun _ => none⟩ as m)
    (hidle : ∀ p, m.pc p = none) (hok : ∀ p r, Move.ret p r ∈ as → 0 ≤ r) :
    ∃ l : List (π × List UInt8),
      m.st.contents i = overwrite (s.contents i) (s.ftable f).off (l.flatMap Prod.snd) ∧
      (m.st.ftable f).off = (s.ftable f).off + (l.flatMap Prod.snd).length ∧
      ∀ p, putBy p l = (calls p as).flatMap pieces := by
  rcases simulated hsound hfree hout r with ⟨bs, n, ph, hrun, hsim, hshown⟩
  have hok' : ∀ p r, Move.ret p r ∈ bs → 0 ≤ r := by
    intro p r hr
    have hmem : Move.ret p r ∈ bs.filterMap Move.shown := List.mem_filterMap.mpr ⟨_, hr, rfl⟩
    rw [hshown, List.mem_filterMap] at hmem
    rcases hmem with ⟨a, ha, hret⟩
    cases a with
    | call q src => cases hret
    | step q => cases hret
    | ret q r' =>
      cases hret
      exact hok p r ha
  have hall : ∀ p, ph p ≠ .inside ∧ n.pc p = none := by
    intro p
    have hat := hsim.each p
    rw [hidle p] at hat
    generalize hph : ph p = a at hat
    generalize hn : n.pc p = b at hat
    cases hat
    exact ⟨by decide, rfl⟩
  have hend := hsim.sound fun p => (hall p).1
  rcases tiled_run hrun hok' with ⟨l, hl⟩
  refine ⟨l, ?_, ?_, fun p => ?_⟩
  · rw [hend.contents, hl.contents, hsound.contents, hsound.off]
  · rw [hend.off, hl.off, hsound.off]
  · rw [hl.idle p (hall p).2, calls_shown, hshown, ← calls_shown]

/-! ### Two processes and a file of three bytes -/

def desk : State :=
  { shelf 0 with
    outstanding := 0
    icache := fun i => { (shelf 0).icache i with locked := false }
    ftable := fun _ => ⟨.inode 0, 2, true, true, 1⟩ }

theorem desk_sound : Sound 0 0 ⟨[97, 98, 99], 1⟩ desk := by
  have hfiles : SameFiles (shelf 0) desk := ⟨rfl, rfl, rfl, fun _ => rfl⟩
  exact ⟨hfiles.owned (shelf_owned 0), hfiles.core (shelf_inCore 0 0 (by decide)),
    hfiles.whole (shelf_whole 0 0 (by decide)), rfl, rfl, rfl, rfl, rfl, by decide, by decide⟩

theorem desk_first : ([120, 121, 122] : List UInt8).length < 2 ^ 31 := by decide

theorem desk_second : ([48, 49] : List UInt8).length < 2 ^ 31 := by decide

/-- The second process waits for the lock, and the first one ends its transaction while the second writes. -/
def deskTurns : List Bool :=
  false :: true :: false :: true :: (List.replicate 16 false ++ (true :: false :: List.replicate 16 true))

def deskMoves : List (Move Bool Source Int) :=
  .call false ⟨[120, 121, 122], desk_first⟩ :: .call true ⟨[48, 49], desk_second⟩ ::
    (deskTurns.map Move.step ++ [Move.ret false 3, Move.ret true 2])

def returned : Move Bool Source Int → Option Int
  | .ret _ r => some r
  | _ => none

theorem deskMoves_run : ∃ m : Machine State Stop Int Bool,
    Run (Machine.Step (low 0)) ⟨desk, fun _ => none⟩ deskMoves m ∧ ∀ p, m.pc p = none := by
  have heval : (deskMoves.foldlM (fun (m : Machine State Stop Int Bool) l => m.act (low 0) l)
      ⟨desk, fun _ => none⟩).any (fun m => decide (∀ p, (m.pc p).isNone = true)) = true := by
    decide
  rw [Option.any_eq_true] at heval
  rcases heval with ⟨m, hm, hidle⟩
  exact ⟨m, Machine.run_of_foldlM hm, fun p => Option.isNone_iff_eq_none.mp (of_decide_eq_true hidle p)⟩

theorem shared_refines_desk : ∃ m : Machine State Stop Int Bool,
    Run (Machine.Step (low 0)) ⟨desk, fun _ => none⟩ deskMoves m ∧
    ∃ bs n, Run (Machine.Step high) ⟨⟨[97, 98, 99], 1⟩, fun _ => none⟩ bs n ∧
      bs.filterMap Move.shown = deskMoves.filterMap Move.shown := by
  rcases deskMoves_run with ⟨m, hrun, -⟩
  rcases shared_refines desk_sound rfl rfl hrun with ⟨bs, n, hbs, hshown, -⟩
  exact ⟨m, hrun, bs, n, hbs, hshown⟩

theorem shared_tiles_desk : ∃ m : Machine State Stop Int Bool,
    Run (Machine.Step (low 0)) ⟨desk, fun _ => none⟩ deskMoves m ∧
    ∃ l : List (Bool × List UInt8), m.st.contents 0 = overwrite (desk.contents 0) 1 (l.flatMap Prod.snd) ∧
      putBy false l = [[120, 121, 122]] ∧ putBy true l = [[48, 49]] := by
  rcases deskMoves_run with ⟨m, hrun, hidle⟩
  have hreturned : ∀ r ∈ deskMoves.filterMap returned, 0 ≤ r := by decide
  have hok : ∀ p r, Move.ret p r ∈ deskMoves → 0 ≤ r := fun p r hr =>
    hreturned r (List.mem_filterMap.mpr ⟨_, hr, rfl⟩)
  rcases shared_tiles desk_sound rfl rfl hrun hidle hok with ⟨l, hcontents, -, hput⟩
  refine ⟨m, hrun, l, hcontents, ?_, ?_⟩
  · rw [hput false, show calls false deskMoves = [[120, 121, 122]] by decide]
    decide
  · rw [hput true, show calls true deskMoves = [[48, 49]] by decide]
    decide

end Yonix.Fs.Yields
