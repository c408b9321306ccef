/-
  Yonix/Fs/Directory.lean
  =======================
  **Directories are finite maps.**

  The bytes of a directory are read as entries of `DIRENTSIZE` bytes (`dirents`), and an
  entry whose inode number is not 0 binds its name, cut at `DIRSIZ` bytes or at the first
  NUL.  `dirlookup` finds the inode that the name is bound to; `dirlink` stores an entry
  where there is none, or at the end, and binds one name; what `sys_unlink` does with the
  entry unbinds one.  So whatever is done with a directory, it stays a map, and each call
  reports and changes it as it should (`directory_is_map`).
-/
import Yonix.Lib.Slots
import Yonix.Fs.Writei

namespace Yonix.Fs

/-! ### Entries -/

/-- The entries that the bytes of a directory have. -/
def dirents (l : List UInt8) : List Dirent :=
  (List.range (l.length / DIRENTSIZE)).map fun k => direntOf ((l.drop (DIRENTSIZE * k)).take DIRENTSIZE)

section Dirents

variable {l e : List UInt8} {k n inum : Nat} {p q : Str}

theorem getElem?_dirents (l : List UInt8) (k : Nat) : (dirents l)[k]? =
    if k < l.length / DIRENTSIZE then some (direntOf ((l.drop (DIRENTSIZE * k)).take DIRENTSIZE)) else none := by
  unfold dirents
  rw [List.getElem?_map]
  by_cases h : k < l.length / DIRENTSIZE
  · rw [if_pos h, List.getElem?_range h]
    rfl
  · rw [if_neg h, List.getElem?_eq_none (by rw [List.length_range]; omega)]
    rfl

theorem length_overwrite {off : Nat} (h : off ≤ l.length) :
    (overwrite l off e).length = max l.length (off + e.length) := by
  unfold overwrite
  rw [List.length_append, List.length_append, List.length_take_of_le h, List.length_drop]
  omega

/-- An entry is written over another one, or after the last one. -/
theorem stored_dirents (hl : DIRENTSIZE ∣ l.length) (he : e.length = DIRENTSIZE) (hk : DIRENTSIZE * k ≤ l.length) :
    Stored k (direntOf e) (dirents l) (dirents (overwrite l (DIRENTSIZE * k) e)) := by
  have hlen := length_overwrite (e := e) hk
  rw [he] at hlen
  rcases hl with ⟨c, hc⟩
  have hbytes : ∀ j, (((overwrite l (DIRENTSIZE * k) e).drop (DIRENTSIZE * j)).take DIRENTSIZE) =
      if j = k then e else (l.drop (DIRENTSIZE * j)).take DIRENTSIZE := by
    intro j
    refine List.ext_getElem? fun m => ?_
    rw [List.getElem?_take, List.getElem?_drop, getElem?_overwrite hk, he]
    unfold DIRENTSIZE at *
    by_cases hm : m < 16
    · rw [if_pos hm]
      by_cases hj : j = k
      · subst hj
        rw [if_pos rfl, if_neg (by omega), if_pos (by omega), Nat.add_sub_cancel_left]
      · rw [if_neg hj, List.getElem?_take, if_pos hm, List.getElem?_drop]
        split
        · rfl
        · rw [if_neg (by omega)]
    · rw [if_neg hm]
      split
      · rw [List.getElem?_eq_none (by omega)]
      · rw [List.getElem?_take, if_neg hm]
  intro j
  rw [getElem?_dirents, getElem?_dirents, hlen, hbytes]
  unfold DIRENTSIZE at *
  by_cases hj : j = k
  · subst hj
    rw [if_pos rfl, if_pos rfl, if_pos (by omega)]
  · rw [if_neg hj, if_neg hj]
    by_cases hlt : j < l.length / 16
    · rw [if_pos hlt, if_pos (by omega)]
    · rw [if_neg hlt, if_neg (by omega)]

theorem length_strncpy (n : Nat) : ∀ k, (strncpy p k n).length = n := by
  induction n with
  | zero => exact fun _ => rfl
  | succ n ih =>
    intro k
    rw [strncpy, List.length_cons]
    split
    · rw [ih]
    · rw [List.length_replicate]

/-- What `strncpy` copied is read as the same string. -/
theorem cstr_strncpy (n : Nat) : ∀ j k, (∀ m < n, q (j + m) = (strncpy p k n).getD m 0) →
    cstr q j n = cstr p k n := by
  induction n with
  | zero => exact fun _ _ _ => rfl
  | succ n ih =>
    intro j k h
    have h0 : q j = p k := by
      have := h 0 (Nat.succ_pos n)
      rwa [strncpy, List.getD_cons_zero, Nat.add_zero] at this
    rw [cstr, cstr, h0]
    by_cases hp : p k = 0
    · rw [if_pos hp, if_pos hp]
    · rw [if_neg hp, if_neg hp]
      congr 1
      refine ih (j + 1) (k + 1) fun m hm => ?_
      have := h (m + 1) (Nat.succ_lt_succ hm)
      rw [strncpy, if_pos hp, List.getD_cons_succ] at this
      rw [← this, Nat.add_right_comm, Nat.add_assoc]

theorem length_direntBytes (inum : Nat) (p : Str) : (direntBytes inum p).length = DIRENTSIZE := by
  unfold direntBytes
  rw [List.length_cons, List.length_cons, length_strncpy]
  rfl

theorem nameOf_direntBytes (inum : Nat) (p : Str) : nameOf (direntOf (direntBytes inum p)).fname = nameOf p := by
  refine cstr_strncpy DIRSIZ 0 0 fun m _ => ?_
  rw [Nat.zero_add]
  rfl

theorem inum_direntBytes (p : Str) (h : inum < 2 ^ 16) : (direntOf (direntBytes inum p)).inum = inum := by
  change (Bytes.leByte inum 0).toNat + 256 * (Bytes.leByte inum 1).toNat = inum
  unfold Bytes.leByte
  simp
  omega

end Dirents

/-! ### References -/

variable {s t u : State} {E : Stop → Prop} {i k m n dp : Nat} {name : Str}

theorem slot_setInode {x : Inode}
    (h : (0 < x.ref ∧ x.inum = m) ↔ 0 < (s.icache k).ref ∧ (s.icache k).inum = m) :
    (s.setInode k x).slot m = s.slot m := by
  unfold State.slot
  congr 1
  funext i
  by_cases hi : i = k
  · rw [hi, setInode_self]
    exact decide_eq_decide.mpr h
  · rw [show (s.setInode k x).icache i = s.icache i from Function.update_of_ne hi _ _]

/-- `iget` finds a slot. -/
def FreeSlot (s : State) : Prop := ∃ j < NINODE, (s.icache j).ref = 0

/-- `iget` returned slot `k`. -/
inductive Got (n k : Nat) (s : State) : State → Prop where
  | cached (hk : k < NINODE) (href : 0 < (s.icache k).ref) (hinum : (s.icache k).inum = n) :
    Got n k s (s.setInode k { s.icache k with ref := (s.icache k).ref + 1 })
  | fresh (hk : k < NINODE) (href : (s.icache k).ref = 0)
    (hnone : ∀ j < NINODE, 0 < (s.icache j).ref → (s.icache j).inum ≠ n) :
    Got n k s (s.setInode k { s.icache k with inum := n, ref := 1, valid := false })

/-- `iget` returns a slot, if one is free. -/
theorem wp_iget {Q : Nat → State → Prop}
    (henough : (∀ e, E e) ∨ FreeSlot s)
    (hQ : ∀ k t, Got n k s t → Q k t) : wp E (iget n) Q s := by
  unfold wp iget
  cases hslot : (List.range NINODE).find? fun i => decide (0 < (s.icache i).ref ∧ (s.icache i).inum = n) with
  | some i =>
    rcases slot_some hslot with ⟨hi, hr, heq⟩
    exact hQ _ _ (Got.cached hi hr heq)
  | none =>
    have hnone : ∀ j < NINODE, 0 < (s.icache j).ref → (s.icache j).inum ≠ n := fun j hj hr => slot_none hslot hj hr
    dsimp only
    cases hfree : (List.range NINODE).find? fun i => decide ((s.icache i).ref = 0) with
    | some i =>
      have htest := List.find?_some hfree
      exact hQ _ _ (Got.fresh (List.mem_range.mp (List.mem_of_find?_eq_some hfree)) (of_decide_eq_true htest) hnone)
    | none =>
      rcases henough with hE | ⟨j, hj, hr⟩
      · exact hE _
      · exact absurd (decide_eq_true hr) (List.find?_eq_none.mp hfree j (List.mem_range.mpr hj))

/-- Nothing that a file has is different: only slots of the cache that nobody uses are. -/
structure Alike (s t : State) : Prop where
  rest : t = { s with icache := t.icache }
  node : ∀ m, t.node m = s.node m
  inCore : ∀ j, InCore s j → InCore t j ∧ t.din j = s.din j ∧ t.inum j = s.inum j

theorem Alike.block (h : Alike s t) : t.block = s.block := by rw [h.rest]
theorem Alike.sb (h : Alike s t) : t.sb = s.sb := by rw [h.rest]
theorem Alike.held (h : Alike s t) : t.held = s.held := by rw [h.rest]
theorem Alike.logged (h : Alike s t) : t.logged = s.logged := by rw [h.rest]
theorem Alike.logSize (h : Alike s t) : t.logSize = s.logSize := by rw [h.rest]
theorem Alike.outstanding (h : Alike s t) : t.outstanding = s.outstanding := by rw [h.rest]

theorem Alike.refl (s : State) : Alike s s := ⟨rfl, fun _ => rfl, fun _ h => ⟨h, rfl, rfl⟩⟩

/-- The blocks depend on the inodes and what is on the disk. -/
theorem Owned.congr (hown : Owned s) (hnode : ∀ m, t.node m = s.node m) (hblock : t.block = s.block)
    (hsb : t.sb = s.sb) : Owned t := by
  have hplace : ∀ m j, t.place m j = s.place m j := by
    intro m j
    unfold State.place
    rw [hnode, hblock]
  have hmarked : ∀ b, t.marked b = s.marked b := by
    intro b
    unfold State.marked
    rw [hblock, hsb]
  constructor
  · rw [hsb]
    exact hown.geo
  · intro m hm m' hm' j k hj heq
    rw [hsb] at hm hm'
    rw [hplace] at hj
    rw [hplace, hplace] at heq
    exact hown.alone m hm m' hm' j k hj heq
  · intro m hm j hj
    rw [hsb] at hm ⊢
    rw [hplace] at hj ⊢
    exact hown.data m hm j hj
  · intro m hm j hj
    rw [hsb] at hm
    rw [hplace] at hj ⊢
    rw [hmarked]
    exact hown.used m hm j hj
  · intro b hb
    rw [hsb] at hb
    rw [hmarked]
    exact hown.system b hb

theorem Alike.owned (h : Alike s t) (hown : Owned s) : Owned t := hown.congr h.node h.block h.sb

/-- A slot is changed that counts for the same inode as before, or for none. -/
theorem alike_setInode {x : Inode}
    (hslot : ∀ m, (0 < x.ref ∧ x.inum = m) ↔ 0 < (s.icache k).ref ∧ (s.icache k).inum = m)
    (hcopy : 0 < x.ref → x.valid = (s.icache k).valid ∧ x.din = (s.icache k).din) : Alike s (s.setInode k x) := by
  have hself : (s.setInode k x).icache k = x := setInode_self s k x
  have hne : ∀ j, j ≠ k → (s.setInode k x).icache j = s.icache j := fun j hj => Function.update_of_ne hj _ _
  have hlive : 0 < x.ref ↔ 0 < (s.icache k).ref :=
    ⟨fun hr => ((hslot _).mp ⟨hr, rfl⟩).1, fun hr => ((hslot _).mpr ⟨hr, rfl⟩).1⟩
  have hinum : 0 < x.ref → x.inum = (s.icache k).inum := fun hr => ((hslot _).mp ⟨hr, rfl⟩).2.symm
  constructor
  · rfl
  · intro m
    unfold State.node
    rw [slot_setInode (hslot m)]
    cases hs : s.slot m with
    | none => rfl
    | some j =>
      dsimp only
      unfold State.copy
      by_cases hj : j = k
      · rcases slot_some hs with ⟨-, hr, -⟩
        rw [hj] at hr ⊢
        rw [hself, (hcopy (hlive.mpr hr)).1, (hcopy (hlive.mpr hr)).2, hinum (hlive.mpr hr)]
        rfl
      · rw [hne j hj]
        rfl
  · intro j hin
    have hdin : (s.setInode k x).din j = s.din j := by
      by_cases hj : j = k
      · unfold State.din
        rw [hj, hself]
        exact (hcopy (hlive.mpr (hj ▸ hin.ref))).2
      · unfold State.din
        rw [hne j hj]
    have hsame : ∀ l, 0 < ((s.setInode k x).icache l).ref →
        0 < (s.icache l).ref ∧ (s.setInode k x).inum l = s.inum l := by
      intro l hr
      by_cases hl : l = k
      · rw [hl, hself] at hr
        unfold State.inum
        rw [hl, hself]
        exact ⟨hlive.mp hr, hinum hr⟩
      · rw [hne l hl] at hr
        unfold State.inum
        rw [hne l hl]
        exact ⟨hr, rfl⟩
    have href : 0 < ((s.setInode k x).icache j).ref := by
      by_cases hj : j = k
      · rw [hj, hself]
        exact hlive.mpr (hj ▸ hin.ref)
      · rw [hne j hj]
        exact hin.ref
    refine ⟨⟨hin.lt, href, ?_, ?_, ?_, ?_⟩, hdin, (hsame j href).2⟩
    · by_cases hj : j = k
      · rw [hj, hself, (hcopy (hlive.mpr (hj ▸ hin.ref))).1, ← hj]
        exact hin.valid
      · rw [hne j hj]
        exact hin.valid
    · rw [(hsame j href).2]
      exact hin.inum
    · rw [hdin]
      exact hin.type
    · intro l hl hr heq
      rw [(hsame l hr).2, (hsame j href).2] at heq
      exact hin.once l hl (hsame l hr).1 heq

theorem Got.alike (h : Got n k s t) : Alike s t := by
  cases h with
  | cached hk href hinum =>
    refine alike_setInode (fun m => ?_) fun _ => ⟨rfl, rfl⟩
    exact and_congr_left fun _ => iff_of_true (by change 0 < (s.icache k).ref + 1; omega) href
  | fresh hk href hnone =>
    obtain ⟨x, hx⟩ : ∃ x, x = ({ s.icache k with inum := n, ref := 1, valid := false } : Inode) := ⟨_, rfl⟩
    rw [← hx]
    have hself : (s.setInode k x).icache k = x := setInode_self s k x
    have hne : ∀ j, j ≠ k → (s.setInode k x).icache j = s.icache j := fun j hj => Function.update_of_ne hj _ _
    have hk' : ∀ j, 0 < (s.icache j).ref → j ≠ k := by
      rintro j hr rfl
      omega
    constructor
    · rfl
    · intro m
      unfold State.node
      by_cases hm : m = n
      · have hnew : (s.setInode k x).slot m = some k := by
          cases hs : (s.setInode k x).slot m with
          | none =>
            refine absurd ?_ (slot_none hs hk (by rw [hself, hx]; exact Int.one_pos))
            rw [hself, hx, hm]
          | some j =>
            rcases slot_some hs with ⟨hj, hr, heq⟩
            by_cases hjk : j = k
            · rw [hjk]
            · rw [hne j hjk] at hr heq
              exact absurd (heq.trans hm) (hnone j hj hr)
        have hold : s.slot m = none := by
          cases hs : s.slot m with
          | none => rfl
          | some j =>
            rcases slot_some hs with ⟨hj, hr, heq⟩
            exact absurd (heq.trans hm) (hnone j hj hr)
        rw [hnew, hold]
        dsimp only
        unfold State.copy
        rw [hself, hx, if_neg Bool.false_ne_true, hm]
        rfl
      · rw [slot_setInode (iff_of_false (fun h => hm (by rw [← h.2, hx])) fun h => by omega)]
        cases hs : s.slot m with
        | none => rfl
        | some j =>
          rcases slot_some hs with ⟨-, hr, -⟩
          dsimp only
          unfold State.copy
          rw [hne j (hk' j hr)]
          rfl
    · intro j hin
      have hj := hk' j hin.ref
      have hsame : (s.setInode k x).icache j = s.icache j := hne j hj
      have hinum : (s.setInode k x).inum j = s.inum j := congrArg Inode.inum hsame
      have hdin : (s.setInode k x).din j = s.din j := congrArg Inode.din hsame
      refine ⟨⟨hin.lt, ?_, ?_, ?_, ?_, ?_⟩, hdin, hinum⟩
      · rw [hsame]
        exact hin.ref
      · rw [hsame]
        exact hin.valid
      · rw [hinum]
        exact hin.inum
      · rw [hdin]
        exact hin.type
      · intro l hl hr heq
        rw [hinum] at heq
        by_cases hlk : l = k
        · have hl' : (s.setInode k x).inum l = n := by
            rw [hlk, State.inum, hself, hx]
          exact absurd (heq.symm.trans hl') (hnone j hin.lt hin.ref)
        · have hl' : (s.setInode k x).icache l = s.icache l := hne l hlk
          rw [hl'] at hr
          rw [State.inum, hl'] at heq
          exact hin.once l hl hr heq

theorem Got.inum (h : Got n k s t) : t.inum k = n := by
  cases h with
  | cached hk href hinum =>
    rw [State.inum, setInode_self]
    exact hinum
  | fresh hk href hnone => rw [State.inum, setInode_self]

/-- A reference that was just taken is not the last one to an inode that was read. -/
theorem Got.iput (h : Got n k s t) : ∃ u, Fs.iput k t = .ok ((), u) ∧ Alike s u := by
  have hdrop : ∀ x : Inode, ¬ (x.ref = 1 ∧ x.valid ∧ x.din.nlink = 0) →
      Fs.iput k (s.setInode k x) = .ok ((), s.setInode k { x with ref := x.ref - 1 }) := by
    intro x hx
    unfold Fs.iput
    rw [get_bind, setInode_self, if_neg hx]
    unfold idrop
    change Except.ok ((), ((s.setInode k x).setInode k _)) = _
    rw [setInode_self]
    unfold State.setInode
    rw [Function.update_idem]
  cases h with
  | cached hk href hinum =>
    refine ⟨_, hdrop _ (fun hc => ?_), alike_setInode (fun m => ?_) fun _ => ⟨rfl, rfl⟩⟩
    · have := hc.1
      dsimp only at this
      omega
    · refine and_congr_left fun _ => ?_
      dsimp only
      omega
  | fresh hk href hnone =>
    refine ⟨_, hdrop _ (fun hc => ?_), alike_setInode (fun m => ?_) fun hr => ?_⟩
    · exact Bool.false_ne_true hc.2.1
    · refine iff_of_false (fun hc => ?_) fun hc => ?_
      · have := hc.1
        dsimp only at this
        omega
      · omega
    · dsimp only at hr
      omega

/-! ### Directories -/

/-- The names of a directory and what they are bound to. -/
def bindings (es : List Dirent) (key : List UInt8) : Option Nat :=
  binding (fun e : Dirent => e.inum ≠ 0) (fun e => nameOf e.fname) Dirent.inum es key

/-- A directory in slot `dp` of the cache in which no name has two entries. -/
structure Directory (s : State) (dp : Nat) : Prop where
  owned : Owned s
  core : InCore s dp
  held : s.held = []
  type : (s.din dp).type = T_DIR
  whole : Whole s dp
  entries : DIRENTSIZE ∣ (s.din dp).size
  names : OneEach (fun e : Dirent => e.inum ≠ 0) (fun e => nameOf e.fname) (dirents (s.contents dp))

/-- There is room for one more entry, in the file system and the log. -/
structure Roomy (s : State) (dp : Nat) : Prop where
  size : (s.din dp).size < MAXFILE * BSIZE
  blocks : 2 ≤ s.nfree
  room : s.logged.length + 4 ≤ min LOGSIZE (s.logSize - 1)
  trans : 1 ≤ s.outstanding

theorem length_contents (s : State) (i : Nat) : (s.contents i).length = (s.din i).size := Dinode.length_data _ _ _

theorem length_dirents (s : State) (i : Nat) :
    (dirents (s.contents i)).length = (s.din i).size / DIRENTSIZE := by
  unfold dirents
  rw [List.length_map, List.length_range, length_contents]

theorem Directory.alike (h : Directory s dp) (ha : Alike s t) :
    Directory t dp ∧ t.contents dp = s.contents dp := by
  rcases ha.inCore dp h.core with ⟨hcore, hdin, -⟩
  have hcontents : t.contents dp = s.contents dp := by
    unfold State.contents
    rw [hdin, ha.block]
  refine ⟨⟨ha.owned h.owned, hcore, ha.held.trans h.held, ?_, ⟨?_, ?_⟩, ?_, ?_⟩, hcontents⟩
  · rw [hdin]
    exact h.type
  · rw [hdin]
    exact h.whole.size
  · rw [hdin, ha.block]
    exact h.whole.slots
  · rw [hdin]
    exact h.entries
  · rw [hcontents]
    exact h.names

theorem Roomy.alike (h : Roomy s dp) (ha : Alike s t) (hcore : InCore s dp) : Roomy t dp := by
  have hnfree : t.nfree = s.nfree := by
    unfold State.nfree State.marked
    rw [ha.block, ha.sb]
  constructor
  · rw [(ha.inCore dp hcore).2.1]
    exact h.size
  · rw [hnfree]
    exact h.blocks
  · rw [ha.logged, ha.logSize]
    exact h.room
  · rw [ha.outstanding]
    exact h.trans

theorem Directory.notDev (h : Directory s dp) : (s.din dp).type ≠ T_DEV := by
  rw [h.type]
  decide

theorem maxfile_lt : MAXFILE * BSIZE < 2 ^ 32 := by decide

/-- One entry is read, if its block is there. -/
theorem readDirent_piece {p : Panic} {e : Dirent} (hdisk : OnDisk s dp) (hheld : s.held = [])
    (htype : (s.din dp).type ≠ T_DEV) (hsize : (s.din dp).size ≤ MAXFILE * BSIZE)
    (hslot : (s.din dp).slot s.block (DIRENTSIZE * k / BSIZE) ≠ 0)
    (he : (dirents (s.contents dp))[k]? = some e) : readDirent p dp (DIRENTSIZE * k) s = .ok (e, s) := by
  rw [getElem?_dirents, length_contents] at he
  have hmax := maxfile_lt
  split at he
  · rename_i hk
    have hle : DIRENTSIZE * k + DIRENTSIZE ≤ (s.din dp).size := by
      unfold DIRENTSIZE at hk ⊢
      omega
    have hmin : min DIRENTSIZE ((s.din dp).size - DIRENTSIZE * k) = DIRENTSIZE := by omega
    have hread := readi_piece (m := DIRENTSIZE) hdisk hheld htype
      (Nat.le_trans (Nat.le_add_right _ _) hle) (by omega) (by omega) ?_
    · unfold readDirent
      refine code_bind.mpr ⟨_, _, hread, ?_⟩
      have hlen : (((s.contents dp).drop (DIRENTSIZE * k)).take DIRENTSIZE).length = DIRENTSIZE := by
        rw [List.length_take, List.length_drop, length_contents]
        omega
      dsimp only
      rw [if_pos hlen, Option.some.inj he]
      rfl
    · intro bn hbn
      rcases mem_blocksOf.mp hbn with ⟨j, h1, h2, rfl⟩
      rw [hmin] at h2
      have hsame : j / BSIZE = DIRENTSIZE * k / BSIZE := by
        unfold DIRENTSIZE BSIZE at *
        omega
      rwa [hsame]
  · cases he

theorem Directory.readDirent (h : Directory s dp) {p : Panic} {e : Dirent}
    (he : (dirents (s.contents dp))[k]? = some e) : Fs.readDirent p dp (DIRENTSIZE * k) s = .ok (e, s) := by
  refine readDirent_piece (h.owned.onDisk h.core) h.held h.notDev h.whole.size (h.whole.slots _ ?_) he
  rw [getElem?_dirents, length_contents] at he
  split at he
  · rename_i hk
    refine mem_blocksOf.mpr ⟨DIRENTSIZE * k, Nat.zero_le _, ?_, rfl⟩
    unfold DIRENTSIZE at *
    omega
  · cases he

/-- The loop of `dirlookup`, from entry `k` on; what it does behind the entries `es` matters only if none of
    them has the name. -/
theorem wp_dirlookupLoop {es : List Dirent} {l : List Nat} {Q : Option (Nat × Nat) → State → Prop}
    (hread : ∀ (k : Nat) (e : Dirent), es[k]? = some e → ∀ p, Fs.readDirent p dp (DIRENTSIZE * k) s = .ok (e, s))
    (henough : (∀ e, E e) ∨ FreeSlot s)
    (hnone : (∀ (j : Nat) (e : Dirent), es[j]? = some e → e.inum ≠ 0 → nameOf e.fname ≠ nameOf name) →
      wp E (dirlookupLoop dp name l) Q s)
    (hsome : ∀ j e i t, es[j]? = some e → e.inum ≠ 0 → nameOf e.fname = nameOf name →
      Got e.inum i s t → Q (some (i, DIRENTSIZE * j)) t) (c : Nat) : ∀ k, es.length = k + c →
    (∀ (j : Nat) (e : Dirent), j < k → es[j]? = some e → e.inum ≠ 0 → nameOf e.fname ≠ nameOf name) →
    wp E (dirlookupLoop dp name ((List.range' k c).map (DIRENTSIZE * ·) ++ l)) Q s := by
  induction c with
  | zero =>
    intro k hlen hbefore
    refine hnone fun j e he => hbefore j e ?_ he
    rcases List.getElem?_eq_some_iff.mp he with ⟨hj, -⟩
    omega
  | succ c ih =>
    intro k hlen hbefore
    rw [List.range'_succ, List.map_cons, List.cons_append, dirlookupLoop]
    obtain ⟨e, he⟩ : ∃ e, es[k]? = some e := ⟨_, List.getElem?_eq_getElem (by omega)⟩
    refine wp_bind (P := fun d u => d = e ∧ u = s) (wp_of_ok (hread k e he _) ⟨rfl, rfl⟩) ?_
    intro d u hdu
    rw [hdu.1, hdu.2]
    have hnext : (e.inum ≠ 0 → nameOf e.fname ≠ nameOf name) →
        wp E (dirlookupLoop dp name ((List.range' (k + 1) c).map (DIRENTSIZE * ·) ++ l)) Q s := by
      intro hmiss
      refine ih (k + 1) (by omega) fun j d hj hd hlive => ?_
      rcases Nat.lt_succ_iff_lt_or_eq.mp hj with hlt | rfl
      · exact hbefore j d hlt hd hlive
      · rw [he, Option.some.injEq] at hd
        exact hd ▸ hmiss (hd ▸ hlive)
    by_cases hz : e.inum = 0
    · rw [if_pos hz]
      exact hnext fun hlive => absurd hz hlive
    · rw [if_neg hz]
      by_cases hname : namecmp name e.fname = 0
      · rw [if_pos hname]
        refine wp_bind (wp_iget (Q := fun i t => Got e.inum i s t) henough fun _ _ hgot => hgot) ?_
        intro i t hgot
        exact wp_pure (hsome k e i t he hz (namecmp_eq_zero.mp hname).symm hgot)
      · rw [if_neg hname]
        exact hnext fun _ heq => hname (namecmp_eq_zero.mpr heq.symm)

theorem Directory.offs (h : Directory s dp) : direntOffs (s.din dp).size =
    (List.range' 0 (dirents (s.contents dp)).length).map (DIRENTSIZE * ·) := by
  rcases h.entries with ⟨c, hc⟩
  unfold direntOffs
  rw [List.range_eq_range', length_dirents]
  congr 2
  unfold DIRENTSIZE at *
  omega

/-- `dirlookup` finds what the name is bound to. -/
theorem Directory.wp_dirlookup (h : Directory s dp) {Q : Option (Nat × Nat) → State → Prop}
    (henough : (∀ e, E e) ∨ FreeSlot s)
    (hnone : bindings (dirents (s.contents dp)) (nameOf name) = none → Q none s)
    (hsome : ∀ j e i t, (dirents (s.contents dp))[j]? = some e → e.inum ≠ 0 → nameOf e.fname = nameOf name →
      Got e.inum i s t → Q (some (i, DIRENTSIZE * j)) t) : wp E (dirlookup dp name) Q s := by
  unfold dirlookup
  apply wp_get_bind
  rw [if_neg (not_not.mpr h.type), h.offs, ← List.append_nil (List.map _ _)]
  refine wp_dirlookupLoop (fun k e he p => h.readDirent he) henough (fun hmiss => ?_) hsome _ 0 (Nat.zero_add _).symm
    fun j e hj => absurd hj (Nat.not_lt_zero j)
  exact wp_pure (hnone ((binding_eq_none _ _ _).mpr hmiss))

/-- The loop of `dirlink` finds an entry that is free, or the end. -/
theorem Directory.wp_emptyDirent (h : Directory s dp) {Q : Nat → State → Prop}
    (hQ : ∀ k, k ≤ (dirents (s.contents dp)).length →
      (∀ e, (dirents (s.contents dp))[k]? = some e → e.inum = 0) → Q (DIRENTSIZE * k) s) (c : Nat) : ∀ k,
    (dirents (s.contents dp)).length = k + c →
    wp E (emptyDirent dp (DIRENTSIZE * (dirents (s.contents dp)).length)
      ((List.range' k c).map (DIRENTSIZE * ·))) Q s := by
  induction c with
  | zero =>
    intro k hlen
    refine wp_pure (hQ _ (Nat.le_refl _) fun e he => ?_)
    rw [List.getElem?_eq_none (Nat.le_refl _)] at he
    cases he
  | succ c ih =>
    intro k hlen
    rw [List.range'_succ, List.map_cons, emptyDirent]
    obtain ⟨e, he⟩ : ∃ e, (dirents (s.contents dp))[k]? = some e :=
      ⟨_, List.getElem?_eq_getElem (by omega)⟩
    refine wp_bind (P := fun d u => d = e ∧ u = s) (wp_of_ok (h.readDirent he) ⟨rfl, rfl⟩) ?_
    intro d u hdu
    rw [hdu.1, hdu.2]
    by_cases hz : e.inum = 0
    · rw [if_pos hz]
      refine wp_pure (hQ k (by omega) fun d hd => ?_)
      rw [he, Option.some.injEq] at hd
      exact hd ▸ hz
    · rw [if_neg hz]
      exact ih (k + 1) (by omega)

/-! ### Writing an entry -/

theorem card_blocksOf_dirent (k : Nat) : (blocksOf (DIRENTSIZE * k) DIRENTSIZE).card ≤ 1 := by
  refine Finset.card_le_one.mpr fun a ha b hb => ?_
  rcases mem_blocksOf.mp ha with ⟨x, hx1, hx2, rfl⟩
  rcases mem_blocksOf.mp hb with ⟨y, hy1, hy2, rfl⟩
  unfold DIRENTSIZE BSIZE at *
  omega

theorem Roomy.missing (h : Roomy s dp) (k : Nat) : s.missing dp (DIRENTSIZE * k) DIRENTSIZE ≤ s.nfree := by
  have hcard := card_blocksOf_dirent k
  have hfilter := Finset.card_filter_le (blocksOf (DIRENTSIZE * k) DIRENTSIZE)
    fun bn => (s.din dp).slot s.block bn = 0
  have hblocks := h.blocks
  unfold State.missing
  split <;> omega

theorem Roomy.writable (h : Roomy s dp) (k : Nat) : Room dp (blocksOf (DIRENTSIZE * k) DIRENTSIZE).card s := by
  have hcard := card_blocksOf_dirent k
  refine Enough.writable ⟨h.missing k, ?_, h.trans⟩
  have := h.room
  omega

/-- What a directory is after an entry was written. -/
theorem Directory.wp_writei (h : Directory s dp) {l : List UInt8} {Q : Int → State → Prop}
    (hl : l.length = DIRENTSIZE) (hk : k ≤ (dirents (s.contents dp)).length)
    (henough : (∀ e, E e) ∨ Roomy s dp)
    (hnames : (direntOf l).inum ≠ 0 → ∀ (j : Nat) (e : Dirent), j ≠ k → (dirents (s.contents dp))[j]? = some e →
      e.inum ≠ 0 → nameOf e.fname ≠ nameOf (direntOf l).fname)
    (hrefused : (∀ e, E e) → Q (-1) s)
    (hQ : ∀ t, Directory t dp → Stored k (direntOf l) (dirents (s.contents dp)) (dirents (t.contents dp)) →
      Q DIRENTSIZE t) : wp E (writei dp l (DIRENTSIZE * k)) Q s := by
  have hmax := maxfile_lt
  have hsize := h.whole.size
  rcases h.entries with ⟨c, hc⟩
  rw [length_dirents] at hk
  have hle : DIRENTSIZE * k ≤ (s.din dp).size := by
    unfold DIRENTSIZE at *
    omega
  have hoff : DIRENTSIZE * k < 2 ^ 32 := by omega
  by_cases hr : Refused s dp (DIRENTSIZE * k) l.length
  · refine wp_of_ok (writei_refused h.notDev hoff (by rw [hl]; decide) hr) (hrefused ?_)
    refine henough.resolve_right fun hroomy => ?_
    have hlt := hroomy.size
    rcases hr with hr | hr | hr
    · omega
    · rw [hl] at hr
      unfold DIRENTSIZE MAXFILE NDIRECT NINDIRECT BSIZE at *
      omega
    · rw [hl] at hr
      unfold DIRENTSIZE MAXFILE NDIRECT NINDIRECT BSIZE at *
      omega
  · refine (Fs.wp_writei h.owned h.core h.whole h.held h.notDev hr ?_).mono ?_
    · rw [hl]
      exact henough.imp_right fun hroomy => ⟨hroomy.missing k, hroomy.writable k⟩
    · rintro r t ⟨hr', hwrote⟩
      have hst : Stored k (direntOf l) (dirents (s.contents dp)) (dirents (t.contents dp)) := by
        rw [hwrote.contents]
        exact stored_dirents (by rw [length_contents]; exact h.entries) hl (by rwa [length_contents])
      rw [hr', hl]
      refine hQ t ⟨hwrote.owned, h.core.within hwrote.within, (over_held hwrote.within.rest).trans h.held, ?_,
        hwrote.whole, ?_, ?_⟩ hst
      · rw [hwrote.within.type]
        exact h.type
      · rw [hwrote.size, hl, ← Nat.mul_succ]
        rcases Nat.le_total (s.din dp).size (DIRENTSIZE * (k + 1)) with hmx | hmx
        · rw [Nat.max_eq_right hmx]
          exact Nat.dvd_mul_right _ _
        · rw [Nat.max_eq_left hmx]
          exact h.entries
      · exact h.names.store hst hnames

/-! ### The calls -/

/-- What `sys_unlink` does in the directory: the entry that `dirlookup` found is overwritten. -/
def clearEntry (dp : Nat) (name : Str) : M (Option Nat) := do
  let r ← dirlookup dp name
  match r with
  | none => return none
  | some (ip, off) => do
    let n ← writei dp (List.replicate DIRENTSIZE 0) off
    if n = DIRENTSIZE then return some ip else stop (.panic .unlinkWritei)

/-- What is in the directory in slot `dp`. -/
def State.names (s : State) (dp : Nat) (key : List UInt8) : Option Nat := bindings (dirents (s.contents dp)) key

section Calls

variable {inum : Nat} (h : Directory s dp)
include h

/-- The entry that was found is the one of the name. -/
theorem Directory.found {j : Nat} {e : Dirent} (he : (dirents (s.contents dp))[j]? = some e) (hlive : e.inum ≠ 0)
    (hname : nameOf e.fname = nameOf name) : s.names dp (nameOf name) = some e.inum := by
  rw [← hname]
  exact h.names.binding _ he hlive

theorem Directory.lookup (name : Str) (henough : (∀ e, E e) ∨ FreeSlot s) :
    wp E (dirlookup dp name) (fun r t => Alike s t ∧
      r.map (fun p => t.inum p.1) = s.names dp (nameOf name)) s := by
  refine h.wp_dirlookup henough (fun hnone => ⟨Alike.refl s, hnone.symm⟩) ?_
  intro j e i t he hlive hname hgot
  refine ⟨hgot.alike, ?_⟩
  rw [Option.map_some, hgot.inum]
  exact (h.found he hlive hname).symm

/-- `dirlink` fails and changes nothing if the name is bound, and otherwise binds it. -/
theorem Directory.link (name : Str) (hpos : inum ≠ 0) (hlt : inum < 2 ^ 16) (henough : (∀ e, E e) ∨ Roomy s dp ∧ FreeSlot s) :
    wp E (dirlink dp name inum) (fun r t => Directory t dp ∧
      ((s.names dp (nameOf name) ≠ none ∧ r = -1 ∧ Alike s t) ∨
        s.names dp (nameOf name) = none ∧ r = 0 ∧
          t.names dp = Function.update (s.names dp) (nameOf name) (some inum))) s := by
  unfold dirlink
  refine wp_bind (P := fun r t => (r = none ∧ t = s ∧ s.names dp (nameOf name) = none) ∨
    ∃ i off m, r = some (i, off) ∧ s.names dp (nameOf name) ≠ none ∧ Got m i s t)
    (h.wp_dirlookup (henough.imp_right And.right) (fun hnone => Or.inl ⟨rfl, rfl, hnone⟩) ?_) ?_
  · intro j e i t he hlive hname hgot
    refine Or.inr ⟨i, _, _, rfl, ?_, hgot⟩
    rw [h.found he hlive hname]
    exact Option.some_ne_none _
  · rintro r t (⟨rfl, rfl, hnone⟩ | ⟨i, off, m, rfl, hbound, hgot⟩)
    · dsimp only
      apply wp_get_bind
      rw [h.offs, List.length_map, List.length_range']
      refine wp_bind (P := fun off u => u = t ∧ ∃ k, off = DIRENTSIZE * k ∧ k ≤ (dirents (t.contents dp)).length ∧
        ∀ e, (dirents (t.contents dp))[k]? = some e → e.inum = 0)
        (h.wp_emptyDirent (fun k hk hfree => ⟨rfl, k, rfl, hk, hfree⟩) _ 0 (Nat.zero_add _).symm) ?_
      rintro off u ⟨hu, k, rfl, hk, hfree⟩
      rw [hu]
      have hinum : (direntOf (direntBytes inum name)).inum = inum := inum_direntBytes name hlt
      have hname := nameOf_direntBytes inum name
      have hfresh : ∀ (j : Nat) (e : Dirent), (dirents (t.contents dp))[j]? = some e → e.inum ≠ 0 →
          nameOf e.fname ≠ nameOf name := fun j e => (binding_eq_none _ _ _).mp hnone j e
      refine wp_bind (P := fun (n : Int) v => n = -1 ∧ (∀ e, E e) ∨ n = DIRENTSIZE ∧ Directory v dp ∧
        v.names dp = Function.update (t.names dp) (nameOf name) (some inum))
        (h.wp_writei (length_direntBytes inum name) hk (henough.imp_right And.left) ?_ (fun hE => Or.inl ⟨rfl, hE⟩) ?_) ?_
      · intro _ j e _ he hlive
        rw [hname]
        exact hfresh j e he hlive
      · intro v hv hst
        refine Or.inr ⟨rfl, hv, ?_⟩
        have hupd := hst.binding_live Dirent.inum h.names hv.names (by rwa [hinum]) fun e he hlive => hlive (hfree e he)
        rw [hinum, hname] at hupd
        exact hupd
      · rintro n v (⟨rfl, hE⟩ | ⟨rfl, hv, hnames⟩)
        · exact wp_stop (hE _)
        · rw [if_pos rfl]
          exact wp_pure ⟨hv, Or.inr ⟨hnone, rfl, hnames⟩⟩
    · dsimp only
      rcases hgot.iput with ⟨v, hput, halike⟩
      refine wp_bind (P := fun _ w => w = v) (wp_of_ok hput rfl) ?_
      rintro _ w rfl
      exact wp_pure ⟨(h.alike halike).1, Or.inl ⟨hbound, rfl, halike⟩⟩

theorem Directory.unlink (name : Str) (henough : (∀ e, E e) ∨ Roomy s dp ∧ FreeSlot s) :
    wp E (clearEntry dp name) (fun r t => Directory t dp ∧ r.isSome = (s.names dp (nameOf name)).isSome ∧
      t.names dp = Function.update (s.names dp) (nameOf name) none) s := by
  unfold clearEntry
  refine wp_bind (P := fun r t => (r = none ∧ t = s ∧ s.names dp (nameOf name) = none) ∨
    ∃ i j e, r = some (i, DIRENTSIZE * j) ∧ (dirents (s.contents dp))[j]? = some e ∧ e.inum ≠ 0 ∧
      nameOf e.fname = nameOf name ∧ Got e.inum i s t)
    (h.wp_dirlookup (henough.imp_right And.right) (fun hnone => Or.inl ⟨rfl, rfl, hnone⟩)
      fun j e i t he hlive hname hgot => Or.inr ⟨i, j, e, rfl, he, hlive, hname, hgot⟩) ?_
  rintro r t (⟨rfl, rfl, hnone⟩ | ⟨i, j, e, rfl, he, hlive, hname, hgot⟩)
  · refine wp_pure ⟨h, by rw [hnone], ?_⟩
    rw [← hnone, Function.update_eq_self]
  · dsimp only
    rcases h.alike hgot.alike with ⟨ht, hcontents⟩
    have hzero : (direntOf (List.replicate DIRENTSIZE 0)).inum = 0 := by decide
    rcases List.getElem?_eq_some_iff.mp he with ⟨hj, -⟩
    have hst : s.names dp = t.names dp := by
      unfold State.names
      rw [hcontents]
    rw [← hcontents] at hj he
    have hroomy : (∀ e, E e) ∨ Roomy t dp := henough.imp_right fun hr => hr.1.alike hgot.alike h.core
    refine wp_bind (P := fun (n : Int) v => n = -1 ∧ (∀ e, E e) ∨ n = DIRENTSIZE ∧ Directory v dp ∧
      v.names dp = Function.update (t.names dp) (nameOf name) none)
      (ht.wp_writei (List.length_replicate ..) (Nat.le_of_lt hj) hroomy (fun hd => absurd hzero hd)
        (fun hE => Or.inl ⟨rfl, hE⟩) fun v hv hst => ?_) ?_
    · refine Or.inr ⟨rfl, hv, ?_⟩
      have hupd := hst.binding_dead Dirent.inum ht.names hv.names (not_not.mpr hzero) he hlive
      rw [hname] at hupd
      exact hupd
    · rintro n v (⟨rfl, hE⟩ | ⟨rfl, hv, hnames⟩)
      · exact wp_stop (hE _)
      · rw [if_pos rfl]
        refine wp_pure ⟨hv, ?_, hst ▸ hnames⟩
        rw [h.found (hcontents ▸ he) hlive hname]
        rfl

end Calls

/-! ### Runs -/

/-- What is done with a directory, with what it returned. -/
inductive DirOp where
  | lookup (name : Str) (found : Option Nat)
  | link (name : Str) (inum : Nat) (r : Int)
  | unlink (name : Str) (found : Bool)
  | other

/-- A call returns; or something else happens that leaves the bytes of the directory alone. -/
inductive DirStep (dp : Nat) : State → DirOp → State → Prop where
  | lookup {s t : State} {name : Str} {r : Option (Nat × Nat)} (h : dirlookup dp name s = .ok (r, t)) :
    DirStep dp s (.lookup name (r.map fun p => t.inum p.1)) t
  | link {s t : State} {name : Str} {inum : Nat} {r : Int} (hpos : inum ≠ 0) (hlt : inum < 2 ^ 16)
    (h : dirlink dp name inum s = .ok (r, t)) :
    DirStep dp s (.link name inum r) t
  | unlink {s t : State} {name : Str} {r : Option Nat} (h : clearEntry dp name s = .ok (r, t)) :
    DirStep dp s (.unlink name r.isSome) t
  | other {s t : State} (h : Directory t dp) (hcontents : t.contents dp = s.contents dp) : DirStep dp s .other t

/-- The same on a map. -/
def MapStep (f : List UInt8 → Option Nat) : DirOp → (List UInt8 → Option Nat) → Prop
  | .lookup name found, g => found = f (nameOf name) ∧ g = f
  | .link name inum r, g => (f (nameOf name) ≠ none ∧ r = -1 ∧ g = f) ∨
      f (nameOf name) = none ∧ r = 0 ∧ g = Function.update f (nameOf name) (some inum)
  | .unlink name found, g => found = (f (nameOf name)).isSome ∧ g = Function.update f (nameOf name) none
  | .other, g => g = f

theorem Directory.names_alike (h : Directory s dp) (ha : Alike s t) : t.names dp = s.names dp := by
  unfold State.names
  rw [(h.alike ha).2]

theorem DirStep.simulates {op : DirOp} (hstep : DirStep dp s op t) (h : Directory s dp) :
    Directory t dp ∧ MapStep (s.names dp) op (t.names dp) := by
  have hall : ∀ c : Prop, (∀ e, (fun _ : Stop => True) e) ∨ c := fun _ => Or.inl fun _ => trivial
  cases hstep with
  | lookup hrun =>
    rcases (h.lookup _ (hall _)).ok hrun with ⟨halike, hr⟩
    exact ⟨(h.alike halike).1, hr, h.names_alike halike⟩
  | link hpos hlt hrun =>
    rcases (h.link _ hpos hlt (hall _)).ok hrun with ⟨ht, hr⟩
    refine ⟨ht, hr.imp_left fun hbound => ⟨hbound.1, hbound.2.1, h.names_alike hbound.2.2⟩⟩
  | unlink hrun =>
    rcases (h.unlink _ (hall _)).ok hrun with ⟨ht, hr, hnames⟩
    exact ⟨ht, hr, hnames⟩
  | other ht hcontents =>
    refine ⟨ht, ?_⟩
    change t.names dp = s.names dp
    unfold State.names
    rw [hcontents]

/-- A directory is a finite map, whatever is done with it; and with enough room each call returns. -/
theorem directory_is_map {ops : List DirOp} (h : Directory s dp) (hrun : Run (DirStep dp) s ops t) :
    Directory t dp ∧ Run MapStep (s.names dp) ops (t.names dp) ∧
    (FreeSlot t → ∀ name, ∃ r u, dirlookup dp name t = .ok (r, u)) ∧
    (Roomy t dp → FreeSlot t → ∀ name,
      (∀ inum, inum ≠ 0 → inum < 2 ^ 16 → ∃ r u, dirlink dp name inum t = .ok (r, u) ∧
        (r = -1 ↔ t.names dp (nameOf name) ≠ none) ∧ (r = -1 → Alike t u)) ∧
      ∃ r u, clearEntry dp name t = .ok (r, u)) := by
  have hinv : Directory t dp ∧ Run MapStep (s.names dp) ops (t.names dp) := by
    refine hrun.history (fun ops t => Directory t dp ∧ Run MapStep (s.names dp) ops (t.names dp))
      ⟨h, Run.nil⟩ ?_
    rintro ops t op u ⟨ht, hmap⟩ hstep
    rcases hstep.simulates ht with ⟨hu, hmap'⟩
    exact ⟨hu, Run.snoc hmap hmap'⟩
  rcases hinv with ⟨ht, hmap⟩
  refine ⟨ht, hmap, fun hfree name => ?_, fun hroomy hfree name => ⟨fun inum hpos hlt => ?_, ?_⟩⟩
  · rcases wp_total (ht.lookup name (Or.inr hfree)) with ⟨r, u, hr, -⟩
    exact ⟨r, u, hr⟩
  · rcases wp_total (ht.link name hpos hlt (Or.inr ⟨hroomy, hfree⟩)) with ⟨r, u, hr, -, hres⟩
    refine ⟨r, u, hr, ?_⟩
    rcases hres with ⟨hbound, hneg, halike⟩ | ⟨hnone, hzero, -⟩
    · exact ⟨iff_of_true hneg hbound, fun _ => halike⟩
    · have hne : r ≠ -1 := by omega
      exact ⟨iff_of_false hne (not_not.mpr hnone), fun hc => absurd hc hne⟩
  · rcases wp_total (ht.unlink name (Or.inr ⟨hroomy, hfree⟩)) with ⟨r, u, hr, -⟩
    exact ⟨r, u, hr⟩

theorem shelf_directory (n : Nat) : Directory (shelf n) 1 := by
  refine ⟨shelf_owned n, shelf_inCore n 1 (by decide), rfl, rfl, shelf_whole n 1 (by decide), ?_, ?_⟩
  · change DIRENTSIZE ∣ 32
    decide
  · have hfree : ∀ e ∈ dirents ((shelf 0).contents 1), e.inum = 0 := by decide
    intro i j d e hd _ hlive
    exact absurd (hfree d (List.mem_of_getElem? hd)) hlive

theorem shelf_names (n : Nat) (key : List UInt8) : (shelf n).names 1 key = none := by
  have hfree : ∀ e ∈ dirents ((shelf 0).contents 1), e.inum = 0 := by decide
  exact (binding_eq_none _ _ _).mpr fun i e he hlive => absurd (hfree e (List.mem_of_getElem? he)) hlive

theorem shelf_roomy : Roomy (shelf 0) 1 ∧ FreeSlot (shelf 0) := by
  refine ⟨⟨by decide, ?_, by decide, Int.le_refl _⟩, 2, by decide, rfl⟩
  have hmarked : ∀ b ∈ [6, 7], (shelf 0).marked b = false := by decide
  refine Nat.succ_le_of_lt (Finset.one_lt_card.mpr ⟨6, ?_, 7, ?_, by decide⟩)
  · exact Finset.mem_filter.mpr ⟨Finset.mem_range.mpr (by change 6 < 1000; decide), hmarked 6 (by decide)⟩
  · exact Finset.mem_filter.mpr ⟨Finset.mem_range.mpr (by change 7 < 1000; decide), hmarked 7 (by decide)⟩

/-- The name "x" in an empty directory. -/
theorem directory_is_map_one : ∃ t, DirStep 1 (shelf 0) (.link (strOf [120]) 2 0) t ∧ t.names 1 [120] = some 2 ∧
    t.names 1 [121] = none := by
  rcases shelf_roomy with ⟨hroomy, hfree⟩
  have hnil : Run (DirStep 1) (shelf 0) [] (shelf 0) := Run.nil
  rcases directory_is_map (shelf_directory 0) hnil with ⟨-, -, -, hcalls⟩
  rcases (hcalls hroomy hfree (strOf [120])).1 2 (by decide) (by decide) with ⟨r, t, hlink, hr, -⟩
  have hstep : DirStep 1 (shelf 0) (.link (strOf [120]) 2 r) t := DirStep.link (by decide) (by decide) hlink
  rcases directory_is_map (shelf_directory 0) (Run.single hstep) with ⟨-, hmap, -⟩
  have hmap' : Run MapStep ((shelf 0).names 1) ([] ++ [.link (strOf [120]) 2 r]) (t.names 1) := hmap
  rcases Run.unsnoc hmap' with ⟨f, hf, hm⟩
  have hstart : f = (shelf 0).names 1 := hf.history (fun as g => as = [] → g = (shelf 0).names 1) (fun _ => rfl)
    (fun _ _ _ _ _ _ hnil => absurd hnil (List.append_ne_nil_of_right_ne_nil _ (List.cons_ne_nil _ _))) rfl
  rw [hstart] at hm
  have hname : nameOf (strOf [120]) = [120] := by decide
  rcases hm with ⟨hbound, -⟩ | ⟨-, rfl, hnames⟩
  · exact absurd (shelf_names 0 _) hbound
  · refine ⟨t, hstep, ?_, ?_⟩
    · rw [hnames, hname, Function.update_self]
    · rw [hnames, hname, Function.update_of_ne (by decide), shelf_names]

/-- Inode numbers of entries have 16 bits. -/
theorem directory_fails_large : ∃ t, dirlink 1 (strOf [120]) 65536 (shelf 0) = .ok (0, t) ∧
    t.names 1 [120] = none := by
  obtain ⟨⟨r, t⟩, hrun, htest⟩ := okWith_eq_true.mp (show okWith (fun p => decide (p.1 = 0 ∧ p.2.names 1 [120] = none))
    (dirlink 1 (strOf [120]) 65536 (shelf 0)) = true by decide +kernel)
  rcases of_decide_eq_true htest with ⟨hr, hnames⟩
  dsimp only at hr hnames
  exact ⟨t, hr ▸ hrun, hnames⟩

end Yonix.Fs
