/-
  Yonix/Log/Crash.lean
  ====================
  **Crash atomicity of the log.**

  The operations that `end_op` commits together are a *group*: a sequence of
  `begin_op`, `log_write` and `end_op` calls after whose last `end_op` no operation
  is outstanding.  The commit issues four phases of single-block writes:

    * the logged buffers, copied to the log blocks     — `copies`;
    * the header naming them                           — the commit point;
    * the log blocks, copied to their home blocks      — `homes`;
    * the empty header.

  Every disk that a stop can leave is in one of three conditions, `Clean before`,
  `Installing` and `Clean after`, and so is every disk that a stopped recovery
  makes of such a disk; a recovery that completes turns the first into itself and
  the other two into `Clean after`.  `crash_atomicity` assembles this from one
  specification lemma per function of `log.c` and the prefix rule of `Lib/Redo`.
-/
import Yonix.Lib.Run
import Yonix.Lib.Redo
import Yonix.Log.Reservation

namespace Yonix.Log

/-! ### The header block -/

theorem word_foldl_setWord (bs : List Nat) (k : Nat) (buf : Block)
    (hlen : k + bs.length ≤ LOGSIZE) (hb : ∀ b ∈ bs, b < 2 ^ 32) :
    ∀ j, ((bs.zipIdx k).foldl (fun buf p => buf.setWord (p.2 + 1) p.1) buf).word j =
      if k < j ∧ j ≤ k + bs.length then bs.getD (j - 1 - k) 0 else buf.word j := by
  induction bs generalizing k buf with
  | nil =>
    intro j
    rw [if_neg (by simp only [List.length_nil]; omega)]
    rfl
  | cons b bs ih =>
    intro j
    simp only [List.length_cons] at hlen
    rw [List.zipIdx_cons, List.foldl_cons,
      ih (k + 1) _ (by omega) (fun x hx => hb x (List.mem_cons_of_mem _ hx))]
    have hroom : 4 * (k + 1) + 4 ≤ BSIZE := by
      simp only [LOGSIZE, MAXOPBLOCKS] at hlen
      simp only [BSIZE]
      omega
    by_cases hj : j = k + 1
    · subst hj
      rw [if_neg (by omega), if_pos (by simp only [List.length_cons]; omega),
        Bytes.word_setWord _ hroom (hb b List.mem_cons_self)]
      simp
    · rw [Bytes.word_setWord_ne _ _ hj]
      by_cases hin : k + 1 < j ∧ j ≤ k + 1 + bs.length
      · rw [if_pos hin, if_pos (by simp only [List.length_cons]; omega)]
        obtain ⟨i, rfl⟩ : ∃ i, j = k + 2 + i := ⟨j - (k + 2), by omega⟩
        rw [show k + 2 + i - 1 - k = i + 1 by omega, show k + 2 + i - 1 - (k + 1) = i by omega]
        rfl
      · rw [if_neg hin, if_neg (by simp only [List.length_cons]; omega)]

theorem headCount_encodeHead (buf : Block) {bs : List Nat} (hlen : bs.length ≤ LOGSIZE)
    (hb : ∀ b ∈ bs, b < 2 ^ 32) : headCount (encodeHead buf bs) = bs.length := by
  have hsmall : bs.length < 2 ^ 31 := by
    simp only [LOGSIZE, MAXOPBLOCKS] at hlen
    omega
  have hword : (encodeHead buf bs).word 0 = bs.length := by
    rw [encodeHead, word_foldl_setWord bs 0 _ (by omega) hb, if_neg (by omega),
      Bytes.word_setWord _ (by decide) (by omega)]
  rw [headCount, hword, if_pos hsmall]

/-- Recovery reads back the block numbers that the commit wrote. -/
theorem decodeHead_encodeHead (buf : Block) {bs : List Nat} (hlen : bs.length ≤ LOGSIZE)
    (hb : ∀ b ∈ bs, b < 2 ^ 32) : decodeHead (encodeHead buf bs) = bs := by
  rw [decodeHead, headCount_encodeHead buf hlen hb, Int.toNat_natCast]
  apply List.ext_getElem
  · simp only [List.length_map, List.length_range]
  · intro i h1 h2
    rw [List.getElem_map, List.getElem_range, encodeHead,
      word_foldl_setWord bs 0 _ (by omega) hb, if_pos (by omega)]
    simp only [Nat.add_sub_cancel, Nat.sub_zero]
    exact (List.getElem_eq_getD 0).symm

theorem decodeHead_of_headCount_zero {buf : Block} (h : headCount buf = 0) :
    decodeHead buf = [] := by
  simp only [decodeHead, h, Int.toNat_zero, List.range_zero, List.map_nil]

theorem decodeHead_encodeHead_nil (buf : Block) : decodeHead (encodeHead buf []) = [] :=
  decodeHead_encodeHead buf (by simp) (by simp)

/-! ### What each function writes -/

/-- The writes `ws` lead from `d` to `e`. -/
def Wrote (d : Dev) (ws : List (Nat × Block)) (e : Dev) : Prop :=
  e.writes = d.writes ++ ws ∧ e.disk = applyW ws d.disk

theorem Wrote.refl (d : Dev) : Wrote d [] d := ⟨(List.append_nil _).symm, rfl⟩

theorem Wrote.trans {d e f : Dev} {ws vs : List (Nat × Block)} (h1 : Wrote d ws e)
    (h2 : Wrote e vs f) : Wrote d (ws ++ vs) f := by
  constructor
  · rw [h2.1, h1.1, List.append_assoc]
  · rw [h2.2, h1.2, applyW_append]

-- the contents `bread` returns
def view (d : Dev) (b : Nat) : Block := (d.dirty b).getD (d.disk b)

theorem bread_eq (d : Dev) {b : Nat} (hb : b < FSSIZE) : d.bread b = .ok (view d b) := by
  rw [Dev.bread, if_neg (Nat.not_le.mpr hb)]
  rfl

theorem bwrite_spec (d : Dev) {b : Nat} (hb : b < FSSIZE) (x : Block) :
    ∃ e, d.bwrite b x = .ok e ∧ Wrote d [(b, x)] e ∧ e.dirty = Function.update d.dirty b none := by
  refine ⟨_, by rw [Dev.bwrite, if_neg (Nat.not_le.mpr hb)], ⟨rfl, rfl⟩, rfl⟩

def LogClean (c : Conf) (d : Dev) : Prop := ∀ b, c.InLog b → d.dirty b = none

theorem view_of_inLog {c : Conf} {d : Dev} (h : LogClean c d) {b : Nat} (hb : c.InLog b) :
    view d b = d.disk b := by
  rw [view, h b hb]
  rfl

theorem Conf.start_inLog (c : Conf) : c.InLog c.start :=
  ⟨Nat.le_refl _, Nat.lt_add_of_pos_right c.pos⟩

theorem Conf.lt_of_inLog {c : Conf} {b : Nat} (h : c.InLog b) : b < FSSIZE :=
  Nat.lt_of_lt_of_le h.2 c.inDisk

theorem writeHead_spec {c : Conf} {d : Dev} (hd : LogClean c d) (bs : List Nat) :
    ∃ e, writeHead c bs d = .ok e ∧
      Wrote d [(c.start, encodeHead (d.disk c.start) bs)] e ∧
      (∀ b, e.dirty b = if c.InLog b then none else d.dirty b) := by
  have hs := Conf.lt_of_inLog c.start_inLog
  obtain ⟨e, he, hw, hdirty⟩ := bwrite_spec d hs (encodeHead (d.disk c.start) bs)
  refine ⟨e, ?_, hw, ?_⟩
  · simp only [writeHead, bread_eq d hs, view_of_inLog hd c.start_inLog]
    exact he
  · intro b
    rw [hdirty]
    by_cases hb : b = c.start
    · subst hb
      rw [Function.update_self, if_pos c.start_inLog]
    · rw [Function.update_of_ne hb]
      split
      · rename_i hin
        exact hd b hin
      · rfl

-- the writes of `write_log` from index `tail` on
def copies (c : Conf) : Nat → List Block → List (Nat × Block)
  | _, [] => []
  | tail, x :: xs => (c.start + tail + 1, x) :: copies c (tail + 1) xs

/-- `write_log` writes the current contents of the logged buffers. -/
theorem writeLog_spec {c : Conf} (bs : List Nat) (tail : Nat) {d : Dev} (hd : LogClean c d)
    (hroom : tail + bs.length < c.size) (hb : ∀ b ∈ bs, b < FSSIZE ∧ ¬ c.InLog b) :
    ∃ e, writeLog c tail bs d = .ok e ∧ Wrote d (copies c tail (bs.map (view d))) e ∧
      e.dirty = d.dirty := by
  induction bs generalizing tail d with
  | nil => exact ⟨d, rfl, Wrote.refl d, rfl⟩
  | cons b bs ih =>
    simp only [List.length_cons] at hroom
    have hin : c.InLog (c.start + tail + 1) := by
      constructor <;> omega
    obtain ⟨hbd, hbout⟩ := hb b List.mem_cons_self
    obtain ⟨e, he, hw, hdirty⟩ := bwrite_spec d (Conf.lt_of_inLog hin) (view d b)
    have hdirty' : e.dirty = d.dirty := by
      rw [hdirty]
      funext x
      by_cases hx : x = c.start + tail + 1
      · subst hx
        rw [Function.update_self, hd _ hin]
      · rw [Function.update_of_ne hx]
    -- a write to a log block changes no buffer outside the log
    have hview : bs.map (view e) = bs.map (view d) := by
      apply List.map_congr_left
      intro x hx
      have hne : x ≠ c.start + tail + 1 := by
        rintro rfl
        exact (hb _ (List.mem_cons_of_mem _ hx)).2 hin
      simp only [view, hdirty', hw.2, applyW_cons, applyW_nil, Function.update_of_ne hne]
    obtain ⟨f, hf, hw', hfd⟩ := ih (tail + 1) (d := e) (by rw [LogClean, hdirty']; exact hd)
      (by omega) (fun x hx => hb x (List.mem_cons_of_mem _ hx))
    refine ⟨f, ?_, ?_, hfd.trans hdirty'⟩
    · simp only [writeLog, bread_eq d (Conf.lt_of_inLog hin), bread_eq d hbd]
      change (d.bwrite (c.start + tail + 1) (view d b) >>= fun d => writeLog c (tail + 1) bs d) = _
      rw [he]
      exact hf
    · rw [hview] at hw'
      exact hw.trans hw'

-- the log blocks from index `tail` on
def logBlocks (c : Conf) (disk : Nat → Block) (tail n : Nat) : List Block :=
  (List.range n).map fun i => disk (c.start + tail + 1 + i)

theorem logBlocks_succ (c : Conf) (disk : Nat → Block) (tail n : Nat) :
    logBlocks c disk tail (n + 1) =
      disk (c.start + tail + 1) :: logBlocks c disk (tail + 1) n := by
  simp only [logBlocks, List.range_succ_eq_map, List.map_cons, List.map_map, Nat.add_zero]
  congr 1
  apply List.map_congr_left
  intro i _
  simp only [Function.comp_apply]
  congr 1
  omega

/-- `install_trans` copies the log blocks to the blocks the header names. -/
theorem installTrans_spec {c : Conf} (bs : List Nat) (tail : Nat) {d : Dev} (hd : LogClean c d)
    (hroom : tail + bs.length < c.size) (hb : ∀ b ∈ bs, b < FSSIZE ∧ ¬ c.InLog b) :
    ∃ e, installTrans c tail bs d = .ok e ∧
      Wrote d (bs.zip (logBlocks c d.disk tail bs.length)) e ∧
      (∀ b, e.dirty b = if b ∈ bs then none else d.dirty b) := by
  induction bs generalizing tail d with
  | nil => exact ⟨d, rfl, Wrote.refl d, fun b => by simp⟩
  | cons b bs ih =>
    simp only [List.length_cons] at hroom
    have hin : c.InLog (c.start + tail + 1) := by
      constructor <;> omega
    obtain ⟨hbd, hbout⟩ := hb b List.mem_cons_self
    obtain ⟨e, he, hw, hdirty⟩ := bwrite_spec d hbd (d.disk (c.start + tail + 1))
    have hde : LogClean c e := by
      intro x hx
      have hne : x ≠ b := by
        rintro rfl
        exact hbout hx
      rw [hdirty, Function.update_of_ne hne]
      exact hd x hx
    -- a write to a home block changes no log block
    have hlog : logBlocks c e.disk (tail + 1) bs.length = logBlocks c d.disk (tail + 1) bs.length := by
      apply List.map_congr_left
      intro i hi
      rw [List.mem_range] at hi
      have hin' : c.InLog (c.start + (tail + 1) + 1 + i) := by
        constructor <;> omega
      have hne : c.start + (tail + 1) + 1 + i ≠ b := by
        intro heq
        rw [heq] at hin'
        exact hbout hin'
      rw [hw.2, applyW_cons, applyW_nil, Function.update_of_ne hne]
    obtain ⟨f, hf, hw', hfd⟩ := ih (tail + 1) hde (by omega)
      (fun x hx => hb x (List.mem_cons_of_mem _ hx))
    refine ⟨f, ?_, ?_, ?_⟩
    · simp only [installTrans, bread_eq d (Conf.lt_of_inLog hin), bread_eq d hbd,
        view_of_inLog hd hin]
      change (d.bwrite b (d.disk (c.start + tail + 1)) >>= fun d =>
        installTrans c (tail + 1) bs d) = _
      rw [he]
      exact hf
    · rw [List.length_cons, logBlocks_succ, List.zip_cons_cons]
      rw [hlog] at hw'
      exact hw.trans hw'
    · intro x
      rw [hfd, hdirty]
      by_cases hx : x = b
      · subst hx
        simp
      · rw [Function.update_of_ne hx]
        simp [hx]

/-! ### The conditions of a crashed disk -/

/-- The blocks outside the log area are those of `home`. -/
def HomeEq (c : Conf) (d home : Nat → Block) : Prop := ∀ b, ¬ c.InLog b → d b = home b

/-- Nothing to install. -/
structure Clean (c : Conf) (home d : Nat → Block) : Prop where
  head : decodeHead (d c.start) = []
  home : HomeEq c d home

/-- The header names `bs`, the log blocks hold `xs`, and each home block holds its
    old or its new contents. -/
structure Installing (c : Conf) (before : Nat → Block) (bs : List Nat) (xs : List Block)
    (d : Nat → Block) : Prop where
  head : decodeHead (d c.start) = bs
  logged : logBlocks c d 0 bs.length = xs
  mixed : ∀ b, ¬ c.InLog b → d b = before b ∨ d b = applyW (bs.zip xs) before b
  frame : ∀ b, ¬ c.InLog b → b ∉ bs → d b = before b

/-- A transaction: as many contents as home blocks, each block once, all on the
    disk, outside the log and within its capacity. -/
structure Trans (c : Conf) (bs : List Nat) (xs : List Block) : Prop where
  length : bs.length = xs.length
  nodup : bs.Nodup
  room : bs.length < c.size
  small : bs.length ≤ LOGSIZE
  home : ∀ b ∈ bs, b < FSSIZE ∧ ¬ c.InLog b

section

variable {c : Conf} {before : Nat → Block} {bs : List Nat} {xs : List Block}

theorem Trans.map_fst_zip (ht : Trans c bs xs) : (bs.zip xs).map Prod.fst = bs :=
  List.map_fst_zip (Nat.le_of_eq ht.length)

theorem Trans.lt_word (ht : Trans c bs xs) : ∀ b ∈ bs, b < 2 ^ 32 := by
  intro b hb
  have h := (ht.home b hb).1
  simp only [FSSIZE] at h
  omega

theorem applyW_zip_of_not_mem {b : Nat} (hb : b ∉ bs) (d : Nat → Block) :
    applyW (bs.zip xs) d b = d b := by
  apply applyW_of_not_mem
  rintro ⟨a, x⟩ hw rfl
  exact hb (List.of_mem_zip hw).1

theorem Trans.applyW_zip_eq (ht : Trans c bs xs) {b : Nat} (hb : b ∈ bs)
    (d e : Nat → Block) : applyW (bs.zip xs) d b = applyW (bs.zip xs) e b := by
  have hnd : ((bs.zip xs).map Prod.fst).Nodup := by
    rw [ht.map_fst_zip]
    exact ht.nodup
  have hmem : b ∈ (bs.zip xs).map Prod.fst := by
    rw [ht.map_fst_zip]
    exact hb
  obtain ⟨w, hw, rfl⟩ := List.mem_map.mp hmem
  rw [applyW_of_mem hnd d hw, applyW_of_mem hnd e hw]

/-- A header write with an empty list leaves nothing to install. -/
theorem clean_of_head {home d : Nat → Block} (h : HomeEq c d home) (buf : Block) :
    Clean c home (Function.update d c.start (encodeHead buf [])) := by
  refine ⟨?_, ?_⟩
  · rw [Function.update_self]
    exact decodeHead_encodeHead_nil buf
  · intro b hb
    have hne : b ≠ c.start := by
      rintro rfl
      exact hb c.start_inLog
    rw [Function.update_of_ne hne]
    exact h b hb

/-- Each write of `install_trans` keeps the disk in the installing condition. -/
theorem Installing.home_write (ht : Trans c bs xs) {d : Nat → Block}
    (h : Installing c before bs xs d) {w : Nat × Block} (hw : w ∈ bs.zip xs) :
    Installing c before bs xs (Function.update d w.1 w.2) := by
  have hwb : w.1 ∈ bs := (List.of_mem_zip hw).1
  have hout := (ht.home w.1 hwb).2
  have hnd : ((bs.zip xs).map Prod.fst).Nodup := by
    rw [ht.map_fst_zip]
    exact ht.nodup
  refine ⟨?_, ?_, ?_, ?_⟩
  · have hne : c.start ≠ w.1 := by
      intro heq
      exact hout (heq ▸ c.start_inLog)
    rw [Function.update_of_ne hne]
    exact h.head
  · rw [← h.logged]
    apply List.map_congr_left
    intro i hi
    rw [List.mem_range] at hi
    have hin : c.InLog (c.start + 0 + 1 + i) := by
      have := ht.room
      constructor <;> omega
    have hne : c.start + 0 + 1 + i ≠ w.1 := by
      intro heq
      exact hout (heq ▸ hin)
    rw [Function.update_of_ne hne]
  · intro b hb
    by_cases heq : b = w.1
    · subst heq
      rw [Function.update_self, applyW_of_mem hnd before hw]
      exact Or.inr rfl
    · rw [Function.update_of_ne heq]
      exact h.mixed b hb
  · intro b hb hbs
    have hne : b ≠ w.1 := by
      rintro rfl
      exact hbs hwb
    rw [Function.update_of_ne hne]
    exact h.frame b hb hbs

theorem Installing.homeEq_after (ht : Trans c bs xs) {d : Nat → Block}
    (h : Installing c before bs xs d) :
    HomeEq c (applyW (bs.zip xs) d) (applyW (bs.zip xs) before) := by
  intro b hb
  by_cases hbs : b ∈ bs
  · exact ht.applyW_zip_eq hbs d before
  · rw [applyW_zip_of_not_mem hbs, applyW_zip_of_not_mem hbs]
    exact h.frame b hb hbs

/-- The conditions a stop can leave. -/
def CrashInv (c : Conf) (before : Nat → Block) (bs : List Nat) (xs : List Block)
    (d : Nat → Block) : Prop :=
  Clean c before d ∨ Installing c before bs xs d ∨ Clean c (applyW (bs.zip xs) before) d

/-! ### Recovery -/

theorem logClean_boot (d : Nat → Block) : LogClean c (Dev.boot d) := fun _ _ => rfl

/-- The writes of a completed recovery. -/
theorem recoverFromLog_spec {d : Nat → Block} (hhead : (decodeHead (d c.start)).length < c.size)
    (hb : ∀ b ∈ decodeHead (d c.start), b < FSSIZE ∧ ¬ c.InLog b) :
    ∃ r hd, recoverFromLog c (Dev.boot d) = .ok r ∧
      Wrote (Dev.boot d)
        ((decodeHead (d c.start)).zip (logBlocks c d 0 (decodeHead (d c.start)).length) ++
          [(c.start, encodeHead hd [])]) r := by
  have hs := Conf.lt_of_inLog c.start_inLog
  obtain ⟨e, he, hw, hdirty⟩ := installTrans_spec (decodeHead (d c.start)) 0
    (logClean_boot (c := c) d) (by omega) hb
  have hde : LogClean c e := by
    intro b _
    rw [hdirty]
    split
    · rfl
    · rfl
  obtain ⟨r, hr, hw', _⟩ := writeHead_spec hde []
  refine ⟨r, e.disk c.start, ?_, hw.trans hw'⟩
  simp only [recoverFromLog, readHead, bread_eq (Dev.boot d) hs]
  change (installTrans c 0 (decodeHead (d c.start)) (Dev.boot d) >>= fun d => writeHead c [] d) = _
  rw [he]
  exact hr

theorem recover_of_clean {home d : Nat → Block} (h : Clean c home d) :
    ∃ r, recoverFromLog c (Dev.boot d) = .ok r ∧ Clean c home r.disk ∧
      ∀ k, Clean c home (applyW (r.writes.take k) d) := by
  obtain ⟨r, hd, hr, hw⟩ := recoverFromLog_spec (c := c) (d := d)
    (by rw [h.head]; exact c.pos) (by rw [h.head]; intro b hb; cases hb)
  rw [h.head] at hw
  simp only [List.length_nil, List.zip_nil_left, List.nil_append] at hw
  have hstep : ∀ w ∈ [(c.start, encodeHead hd [])], ∀ e, Clean c home e →
      Clean c home (Function.update e w.1 w.2) := by
    intro w hw e he
    rw [List.mem_singleton] at hw
    subst hw
    exact clean_of_head he.home hd
  refine ⟨r, hr, ?_, ?_⟩
  · rw [hw.2]
    exact applyW_of_inv h hstep
  · intro k
    rw [hw.1]
    exact applyW_take_of_inv h hstep k

theorem recover_of_installing (ht : Trans c bs xs) {d : Nat → Block}
    (h : Installing c before bs xs d) :
    ∃ r, recoverFromLog c (Dev.boot d) = .ok r ∧
      Clean c (applyW (bs.zip xs) before) r.disk ∧
      ∀ k, CrashInv c before bs xs (applyW (r.writes.take k) d) := by
  obtain ⟨r, hd, hr, hw⟩ := recoverFromLog_spec (c := c) (d := d)
    (by rw [h.head]; exact ht.room) (by rw [h.head]; exact ht.home)
  rw [h.head, h.logged] at hw
  have hstep : ∀ w ∈ bs.zip xs, ∀ e, Installing c before bs xs e →
      Installing c before bs xs (Function.update e w.1 w.2) :=
    fun w hw e he => he.home_write ht hw
  have hfinal : Clean c (applyW (bs.zip xs) before)
      (applyW (bs.zip xs ++ [(c.start, encodeHead hd [])]) d) := by
    rw [applyW_append]
    exact clean_of_head (h.homeEq_after ht) hd
  refine ⟨r, hr, ?_, ?_⟩
  · rw [hw.2]
    exact hfinal
  · intro k
    rw [hw.1]
    change CrashInv c before bs xs (applyW ((bs.zip xs ++ [(c.start, encodeHead hd [])]).take k) d)
    rcases take_append_cases (bs.zip xs) [(c.start, encodeHead hd [])] k with ⟨j, hj⟩ | ⟨j, hj⟩
    · rw [hj]
      exact Or.inr (Or.inl (applyW_take_of_inv h hstep j))
    · rw [hj]
      cases j with
      | zero =>
        rw [List.take_zero, List.append_nil]
        exact Or.inr (Or.inl (applyW_of_inv h hstep))
      | succ j =>
        rw [List.take_succ_cons, List.take_nil]
        exact Or.inr (Or.inr hfinal)

/-- The disks that any number of stopped recoveries make of `d`. -/
inductive Crashes (c : Conf) (d : Nat → Block) : (Nat → Block) → Prop where
  | none : Crashes c d d
  | again {e : Nat → Block} {r : Dev} (k : Nat) :
      Crashes c d e → recoverFromLog c (Dev.boot e) = .ok r →
      Crashes c d (applyW (r.writes.take k) e)

theorem crashInv_of_crashes (ht : Trans c bs xs) {d e : Nat → Block}
    (h0 : CrashInv c before bs xs d) (h : Crashes c d e) : CrashInv c before bs xs e := by
  induction h with
  | none => exact h0
  | again k _ hr ih =>
    rcases ih with h | h | h
    · obtain ⟨r', hr', _, hk⟩ := recover_of_clean h
      rw [hr] at hr'
      cases hr'
      exact Or.inl (hk k)
    · obtain ⟨r', hr', _, hk⟩ := recover_of_installing ht h
      rw [hr] at hr'
      cases hr'
      exact hk k
    · obtain ⟨r', hr', _, hk⟩ := recover_of_clean h
      rw [hr] at hr'
      cases hr'
      exact Or.inr (Or.inr (hk k))

theorem clean_of_crashes {home d e : Nat → Block} (h0 : Clean c home d) (h : Crashes c d e) :
    Clean c home e := by
  induction h with
  | none => exact h0
  | again k _ hr ih =>
    obtain ⟨r', hr', _, hk⟩ := recover_of_clean ih
    rw [hr] at hr'
    cases hr'
    exact hk k

/-! ### The writes of a commit -/

theorem mem_copies {tail : Nat} {ys : List Block} {w : Nat × Block} (h : w ∈ copies c tail ys) :
    c.start + tail + 1 ≤ w.1 ∧ w.1 < c.start + tail + 1 + ys.length := by
  induction ys generalizing tail with
  | nil => cases h
  | cons y ys ih =>
    simp only [List.length_cons]
    rcases List.mem_cons.mp h with rfl | h
    · constructor <;> dsimp only <;> omega
    · obtain ⟨h1, h2⟩ := ih h
      constructor <;> omega

theorem logBlocks_applyW_copies (ys : List Block) (tail : Nat) (d : Nat → Block) :
    logBlocks c (applyW (copies c tail ys) d) tail ys.length = ys := by
  induction ys generalizing tail d with
  | nil => rfl
  | cons y ys ih =>
    rw [List.length_cons, logBlocks_succ, copies, applyW_cons, ih]
    congr 1
    rw [applyW_of_not_mem, Function.update_self]
    intro w hw heq
    have := (mem_copies hw).1
    omega

/-- Copying buffers to log blocks leaves the header and the home blocks alone. -/
theorem clean_of_copy (ht : Trans c bs xs) {w : Nat × Block} (hw : w ∈ copies c 0 xs)
    {d : Nat → Block} (h : Clean c before d) :
    Clean c before (Function.update d w.1 w.2) := by
  obtain ⟨h1, h2⟩ := mem_copies hw
  have hroom := ht.room
  have hlen := ht.length
  refine ⟨?_, ?_⟩
  · rw [Function.update_of_ne (by omega)]
    exact h.head
  · intro b hb
    have hne : b ≠ w.1 := by
      rintro rfl
      apply hb
      constructor <;> omega
    rw [Function.update_of_ne hne]
    exact h.home b hb

/-- The header write after the copies is the commit point. -/
theorem installing_of_head (ht : Trans c bs xs) {d : Nat → Block} (h : Clean c before d)
    (buf : Block) :
    Installing c before bs xs
      (Function.update (applyW (copies c 0 xs) d) c.start (encodeHead buf bs)) := by
  have hclean : Clean c before (applyW (copies c 0 xs) d) :=
    applyW_of_inv h (fun w hw e he => clean_of_copy ht hw he)
  have hhome : ∀ b, ¬ c.InLog b →
      Function.update (applyW (copies c 0 xs) d) c.start (encodeHead buf bs) b = before b := by
    intro b hb
    have hne : b ≠ c.start := by
      rintro rfl
      exact hb c.start_inLog
    rw [Function.update_of_ne hne]
    exact hclean.home b hb
  refine ⟨?_, ?_, fun b hb => Or.inl (hhome b hb), fun b hb _ => hhome b hb⟩
  · rw [Function.update_self]
    exact decodeHead_encodeHead buf ht.small ht.lt_word
  · have hcopied := logBlocks_applyW_copies (c := c) xs 0 d
    rw [← ht.length] at hcopied
    refine Eq.trans ?_ hcopied
    apply List.map_congr_left
    intro i _
    rw [Function.update_of_ne (by omega)]

/-- Every prefix of the writes of a commit leaves a crash condition, and all of
    them leave the transaction installed. -/
theorem commit_writes (ht : Trans c bs xs) {d : Nat → Block} (h : Clean c before d)
    (hd1 hd2 : Block) :
    (∀ k, CrashInv c before bs xs (applyW ((copies c 0 xs ++ ((c.start, encodeHead hd1 bs) ::
      (bs.zip xs ++ [(c.start, encodeHead hd2 [])]))).take k) d)) ∧
    Clean c (applyW (bs.zip xs) before) (applyW (copies c 0 xs ++ ((c.start, encodeHead hd1 bs) ::
      (bs.zip xs ++ [(c.start, encodeHead hd2 [])]))) d) := by
  have hcopy : ∀ w ∈ copies c 0 xs, ∀ e, Clean c before e →
      Clean c before (Function.update e w.1 w.2) := fun w hw e he => clean_of_copy ht hw he
  have hinst := installing_of_head ht h hd1
  have hstep : ∀ w ∈ bs.zip xs, ∀ e, Installing c before bs xs e →
      Installing c before bs xs (Function.update e w.1 w.2) :=
    fun w hw e he => he.home_write ht hw
  have hfinal : Clean c (applyW (bs.zip xs) before) (applyW (copies c 0 xs ++
      ((c.start, encodeHead hd1 bs) :: (bs.zip xs ++ [(c.start, encodeHead hd2 [])]))) d) := by
    rw [applyW_append, applyW_cons, applyW_append]
    exact clean_of_head (hinst.homeEq_after ht) hd2
  refine ⟨?_, hfinal⟩
  intro k
  rcases take_append_cases (copies c 0 xs) ((c.start, encodeHead hd1 bs) ::
      (bs.zip xs ++ [(c.start, encodeHead hd2 [])])) k with ⟨j, hj⟩ | ⟨j, hj⟩
  · -- stopped while the log blocks were being written
    rw [hj]
    exact Or.inl (applyW_take_of_inv h hcopy j)
  · rw [hj, applyW_append]
    cases j with
    | zero =>
      rw [List.take_zero, applyW_nil]
      exact Or.inl (applyW_of_inv h hcopy)
    | succ j =>
      rw [List.take_succ_cons, applyW_cons]
      rcases take_append_cases (bs.zip xs) [(c.start, encodeHead hd2 [])] j with ⟨i, hi⟩ | ⟨i, hi⟩
      · -- stopped while the home blocks were being written
        rw [hi]
        exact Or.inr (Or.inl (applyW_take_of_inv hinst hstep i))
      · rw [hi, applyW_append]
        cases i with
        | zero =>
          rw [List.take_zero, applyW_nil]
          exact Or.inr (Or.inl (applyW_of_inv hinst hstep))
        | succ i =>
          rw [List.take_succ_cons, List.take_nil]
          exact Or.inr (Or.inr (clean_of_head (hinst.homeEq_after ht) hd2))

end

/-! ### Groups -/

/-- The log between groups: nothing logged, no operation running, no dirty buffer
    and an empty header on disk, as recovery and `commit` leave it. -/
structure Ready (c : Conf) (s : State) : Prop where
  outstanding : s.outstanding = 0
  idle : s.committing = false
  block : s.block = []
  dirty : ∀ b, s.dev.dirty b = none
  head : headCount (s.dev.disk c.start) = 0

inductive Call where
  | beginOp
  | update (b : Nat) (x : Block)
  | endOp

/-- A call that returns without panic and without committing. -/
def CallStep (c : Conf) (s : State) : Call → State → Prop
  | .beginOp, t => beginOp s = some t
  | .update b x, t => update c b x s = .ok t
  | .endOp, t => endOp c s = .ok t ∧ s.outstanding ≠ 1

/-- The contents of block `b` after the group's last `log_write` of it. -/
def lastWritten (calls : List Call) (b : Nat) : Option Block :=
  calls.foldl (fun r call => match call with
    | .update b' x => if b' = b then some x else r
    | _ => r) none

def afterGroup (disk : Nat → Block) (calls : List Call) (b : Nat) : Block :=
  (lastWritten calls b).getD (disk b)

/-- What a group has done before it commits: the disk is untouched, and the dirty
    buffers are those of the logged blocks, with their last contents. -/
structure Pending (c : Conf) (s0 : State) (calls : List Call) (s : State) : Prop where
  idle : s.committing = false
  disk : s.dev.disk = s0.dev.disk
  dirty : ∀ b, s.dev.dirty b = lastWritten calls b
  nodup : s.block.Nodup
  mem : ∀ b, b ∈ s.block ↔ (lastWritten calls b).isSome
  bound : ∀ b ∈ s.block, b < FSSIZE
  room : s.block.length < c.size ∧ s.block.length ≤ LOGSIZE

theorem lastWritten_snoc (calls : List Call) (call : Call) (b : Nat) :
    lastWritten (calls ++ [call]) b = match call with
      | .update b' x => if b' = b then some x else lastWritten calls b
      | _ => lastWritten calls b := by
  simp only [lastWritten, List.foldl_append, List.foldl_cons, List.foldl_nil]

theorem logWrite_spec {c : Conf} {b : Nat} {x : Block} {s t : State}
    (h : logWrite c b x s = .ok t) :
    s.block.length < LOGSIZE ∧ s.block.length + 1 < c.size ∧
      t = { s with
        block := logged s.block b
        dev := { s.dev with dirty := Function.update s.dev.dirty b (some x) } } := by
  simp only [logWrite] at h
  split at h
  · cases h
  · rename_i hg
    split at h
    · cases h
    · simp only [Except.ok.injEq] at h
      refine ⟨by omega, by omega, h.symm⟩

theorem length_logged_le (bs : List Nat) (b : Nat) : (logged bs b).length ≤ bs.length + 1 := by
  unfold logged
  split
  · omega
  · simp

theorem mem_logged {bs : List Nat} {a b : Nat} : a ∈ logged bs b ↔ a ∈ bs ∨ a = b := by
  unfold logged
  split
  · rename_i h
    constructor
    · exact Or.inl
    · rintro (ha | rfl)
      · exact ha
      · exact h
  · simp

theorem Pending.snoc {c : Conf} {s0 s t : State} {calls : List Call} {call : Call}
    (h : Pending c s0 calls s) (hst : CallStep c s call t) :
    Pending c s0 (calls ++ [call]) t := by
  cases call with
  | beginOp =>
    have hst' : beginOp s = some t := hst
    have hlast : ∀ b, lastWritten (calls ++ [.beginOp]) b = lastWritten calls b :=
      fun b => lastWritten_snoc calls _ b
    simp only [beginOp] at hst'
    split at hst'
    · cases hst'
    · split at hst'
      · cases hst'
      · simp only [Option.some.injEq] at hst'
        subst hst'
        exact ⟨h.idle, h.disk, fun b => (h.dirty b).trans (hlast b).symm, h.nodup,
          fun b => by rw [hlast]; exact h.mem b, h.bound, h.room⟩
  | update b x =>
    have hst' : update c b x s = .ok t := hst
    simp only [update, bind_eq_ok] at hst'
    obtain ⟨_, hread, hw⟩ := hst'
    have hb : b < FSSIZE := by
      by_contra hge
      rw [Dev.bread, if_pos (Nat.le_of_not_lt hge)] at hread
      cases hread
    obtain ⟨hlog, hsize, rfl⟩ := logWrite_spec hw
    have hlast : ∀ a, lastWritten (calls ++ [.update b x]) a =
        if b = a then some x else lastWritten calls a := fun a => lastWritten_snoc calls _ a
    have hlen := length_logged_le s.block b
    refine ⟨h.idle, h.disk, ?_, nodup_logged h.nodup b, ?_, ?_, ?_⟩
    · intro a
      rw [hlast]
      by_cases hab : b = a
      · subst hab
        rw [if_pos rfl]
        exact Function.update_self _ _ _
      · rw [if_neg hab, ← h.dirty a]
        exact Function.update_of_ne (Ne.symm hab) _ _
    · intro a
      rw [hlast, mem_logged, h.mem a]
      by_cases hab : b = a
      · simp [hab]
      · simp [hab, Ne.symm hab]
    · intro a ha
      rcases mem_logged.mp ha with ha | rfl
      · exact h.bound a ha
      · exact hb
    · dsimp only
      omega
  | endOp =>
    obtain ⟨hst', hne⟩ : endOp c s = .ok t ∧ s.outstanding ≠ 1 := hst
    have hlast : ∀ b, lastWritten (calls ++ [.endOp]) b = lastWritten calls b :=
      fun b => lastWritten_snoc calls _ b
    have henter : endOpEnter s = .ok ({ s with outstanding := s.outstanding - 1 }, false) := by
      simp only [endOpEnter, h.idle]
      rw [if_neg (by simp), if_neg (by omega)]
    simp only [endOp, henter, bind_eq_ok, Except.ok.injEq] at hst'
    obtain ⟨_, rfl, ht⟩ := hst'
    simp only [Bool.false_eq_true, if_false, pure, Except.pure, Except.ok.injEq] at ht
    subst ht
    exact ⟨h.idle, h.disk, fun b => (h.dirty b).trans (hlast b).symm, h.nodup,
      fun b => by rw [hlast]; exact h.mem b, h.bound, h.room⟩

theorem pending_of_run {c : Conf} {s0 s : State} (h0 : Ready c s0) {calls : List Call}
    (r : Run (CallStep c) s0 calls s) : Pending c s0 calls s := by
  refine Run.history (Pending c s0) ?_ (fun _ _ _ _ h hst => h.snoc hst) r
  refine ⟨h0.idle, rfl, h0.dirty, ?_, ?_, ?_, ?_⟩
  · rw [h0.block]
    exact List.nodup_nil
  · intro b
    rw [h0.block]
    simp [lastWritten]
  · rw [h0.block]
    intro b hb
    cases hb
  · rw [h0.block]
    exact ⟨c.pos, Nat.zero_le _⟩

/-- The blocks of a call sequence lie outside the log area. -/
def OutsideLog (c : Conf) (calls : List Call) : Prop :=
  ∀ b x, Call.update b x ∈ calls → ¬ c.InLog b

theorem mem_of_lastWritten {calls : List Call} {b : Nat} (h : (lastWritten calls b).isSome) :
    ∃ x, Call.update b x ∈ calls := by
  induction calls using List.reverseRecOn with
  | nil => simp [lastWritten] at h
  | append_singleton calls call ih =>
    rw [lastWritten_snoc] at h
    have hold : (lastWritten calls b).isSome → ∃ x, Call.update b x ∈ calls ++ [call] := by
      intro h
      obtain ⟨x, hx⟩ := ih h
      exact ⟨x, List.mem_append_left _ hx⟩
    cases call with
    | beginOp => exact hold h
    | endOp => exact hold h
    | update b' x =>
      by_cases hb : b' = b
      · subst hb
        exact ⟨x, by simp⟩
      · simp only [if_neg hb] at h
        exact hold h

/-- The transaction that a pending group commits. -/
theorem Pending.trans {c : Conf} {s0 s : State} {calls : List Call} (h : Pending c s0 calls s)
    (hout : OutsideLog c calls) : Trans c s.block (s.block.map (view s.dev)) where
  length := (List.length_map _).symm
  nodup := h.nodup
  room := h.room.1
  small := h.room.2
  home := by
    intro b hb
    obtain ⟨x, hx⟩ := mem_of_lastWritten ((h.mem b).mp hb)
    exact ⟨h.bound b hb, hout b x hx⟩

theorem applyW_zip_map_self (bs : List Nat) (f : Nat → Block) (d : Nat → Block) (b : Nat) :
    applyW (bs.zip (bs.map f)) d b = if b ∈ bs then f b else d b := by
  induction bs generalizing d with
  | nil => simp
  | cons a bs ih =>
    rw [List.map_cons, List.zip_cons_cons, applyW_cons, ih]
    by_cases hb : b ∈ bs
    · simp [hb]
    · by_cases hab : b = a
      · subst hab
        simp [hb]
      · simp [hb, hab]

theorem Pending.applyW_eq {c : Conf} {s0 s : State} {calls : List Call}
    (h : Pending c s0 calls s) :
    applyW (s.block.zip (s.block.map (view s.dev))) s0.dev.disk = afterGroup s0.dev.disk calls := by
  funext b
  rw [applyW_zip_map_self, afterGroup]
  by_cases hb : b ∈ s.block
  · rw [if_pos hb, view, h.dirty, h.disk]
  · rw [if_neg hb]
    have hnone : lastWritten calls b = none := by
      rw [h.mem] at hb
      simpa using hb
    rw [hnone]
    rfl

/-- The commit of a non-empty group: its writes, phase by phase. -/
theorem commit_spec {c : Conf} {s : State} {xs : List Block} (hd : LogClean c s.dev)
    (ht : Trans c s.block xs) (hxs : xs = s.block.map (view s.dev)) (hne : 0 < s.block.length) :
    ∃ d hd1 hd2, commit c s = .ok { s with dev := d, block := [] } ∧
      Wrote s.dev (copies c 0 xs ++ ((c.start, encodeHead hd1 s.block) ::
        (s.block.zip xs ++ [(c.start, encodeHead hd2 [])]))) d ∧
      (∀ b, d.dirty b = if c.InLog b ∨ b ∈ s.block then none else s.dev.dirty b) := by
  obtain ⟨d1, h1, hw1, hdirty1⟩ := writeLog_spec s.block 0 hd (by have := ht.room; omega) ht.home
  have hd1 : LogClean c d1 := by rw [LogClean, hdirty1]; exact hd
  obtain ⟨d2, h2, hw2, hdirty2⟩ := writeHead_spec hd1 s.block
  have hd2 : LogClean c d2 := fun b hb => by rw [hdirty2, if_pos hb]
  obtain ⟨d3, h3, hw3, hdirty3⟩ := installTrans_spec s.block 0 hd2
    (by have := ht.room; omega) ht.home
  have hd3 : LogClean c d3 := by
    intro b hb
    rw [hdirty3]
    split
    · rfl
    · exact hd2 b hb
  obtain ⟨d4, h4, hw4, hdirty4⟩ := writeHead_spec hd3 []
  -- what `install_trans` reads from the log is what `write_log` put there
  have hread : logBlocks c d2.disk 0 s.block.length = xs := by
    have hcopied := logBlocks_applyW_copies (c := c) (s.block.map (view s.dev)) 0 s.dev.disk
    rw [List.length_map, ← hw1.2] at hcopied
    rw [hxs]
    refine Eq.trans ?_ hcopied
    apply List.map_congr_left
    intro i _
    rw [hw2.2, applyW_cons, applyW_nil, Function.update_of_ne (by omega)]
  rw [hread] at hw3
  rw [← hxs] at hw1
  refine ⟨d4, d1.disk c.start, d3.disk c.start, ?_, ?_, ?_⟩
  · rw [commit, if_pos hne, h1]
    change (writeHead c s.block d1 >>= fun d => installTrans c 0 s.block d >>= fun d =>
      writeHead c [] d >>= fun d => pure { s with dev := d, block := [] }) = _
    rw [h2]
    change (installTrans c 0 s.block d2 >>= fun d =>
      writeHead c [] d >>= fun d => pure { s with dev := d, block := [] }) = _
    rw [h3]
    change (writeHead c [] d3 >>= fun d => pure { s with dev := d, block := [] }) = _
    rw [h4]
    rfl
  · exact hw1.trans (hw2.trans (hw3.trans hw4))
  · intro b
    rw [hdirty4, hdirty3, hdirty2, hdirty1]
    by_cases hin : c.InLog b
    · simp [hin]
    · by_cases hb : b ∈ s.block
      · simp [hb]
      · simp [hin, hb]

/-- **Crash atomicity.**  Let a group run from a log that is ready and let its last
    `end_op` commit.  The commit completes and leaves the log ready again.  Wherever
    the machine stops between two of its writes, and however often the following
    recoveries stop between two of theirs, the recovery that completes finds every
    block outside the log as before the group or every one as after it — only the
    latter once the commit has returned — and one more recovery changes none. -/
theorem crash_atomicity (c : Conf) {s0 s : State} (h0 : Ready c s0) {calls : List Call}
    (hrun : Run (CallStep c) s0 calls s) (hlast : s.outstanding = 1)
    (hout : OutsideLog c calls) :
    ∃ s' ws, endOp c s = .ok s' ∧ Ready c s' ∧ Wrote s.dev ws s'.dev ∧
      (∀ k d, Crashes c (applyW (ws.take k) s.dev.disk) d →
        ∃ r, recoverFromLog c (Dev.boot d) = .ok r ∧
          (HomeEq c r.disk s0.dev.disk ∨ HomeEq c r.disk (afterGroup s0.dev.disk calls)) ∧
          ∃ r', recoverFromLog c (Dev.boot r.disk) = .ok r' ∧ HomeEq c r'.disk r.disk) ∧
      (∀ d, Crashes c s'.dev.disk d →
        ∃ r, recoverFromLog c (Dev.boot d) = .ok r ∧
          HomeEq c r.disk (afterGroup s0.dev.disk calls)) := by
  have hp := pending_of_run h0 hrun
  have ht := hp.trans hout
  have hafter := hp.applyW_eq
  have hclean : Clean c s0.dev.disk s.dev.disk := by
    refine ⟨?_, fun b _ => by rw [hp.disk]⟩
    rw [hp.disk]
    exact decodeHead_of_headCount_zero h0.head
  have hlogClean : LogClean c s.dev := by
    intro b hb
    rw [hp.dirty]
    by_contra hsome
    obtain ⟨x, hx⟩ := mem_of_lastWritten (Option.isSome_iff_ne_none.mpr hsome)
    exact hout b x hx hb
  have henter : endOpEnter s =
      .ok ({ s with outstanding := 0, committing := true }, true) := by
    simp only [endOpEnter, hp.idle, hlast]
    rfl
  -- the commit, its writes and the condition they leave
  have hcommit : ∃ d ws, commit c { s with outstanding := 0, committing := true } =
        .ok { s with outstanding := 0, committing := true, dev := d, block := [] } ∧
      Wrote s.dev ws d ∧ (∀ b, d.dirty b = none) ∧ headCount (d.disk c.start) = 0 ∧
      (∀ k, CrashInv c s0.dev.disk s.block (s.block.map (view s.dev))
        (applyW (ws.take k) s.dev.disk)) ∧
      Clean c (afterGroup s0.dev.disk calls) d.disk := by
    by_cases hne : 0 < s.block.length
    · obtain ⟨d, hd1, hd2, hc, hw, hdirty⟩ := commit_spec
        (s := { s with outstanding := 0, committing := true }) hlogClean ht rfl hne
      obtain ⟨hk, hfin⟩ := commit_writes ht hclean hd1 hd2
      refine ⟨d, _, hc, hw, ?_, ?_, hk, ?_⟩
      · intro b
        rw [hdirty]
        split
        · rfl
        · rename_i hb
          by_contra hsome
          apply hb
          right
          rw [hp.mem, ← hp.dirty]
          exact Option.isSome_iff_ne_none.mpr hsome
      · rw [hw.2, applyW_append, applyW_cons, applyW_append, applyW_cons, applyW_nil,
          Function.update_self]
        exact headCount_encodeHead hd2 (show ([] : List Nat).length ≤ LOGSIZE by simp) (by simp)
      · rw [← hafter, hw.2]
        exact hfin
    · have hnil : s.block = [] := List.length_eq_zero_iff.mp (Nat.eq_zero_of_not_pos hne)
      refine ⟨s.dev, [], ?_, Wrote.refl _, ?_, ?_, ?_, ?_⟩
      · rw [commit, if_neg hne, ← hnil]
      · intro b
        rw [hp.dirty]
        by_contra hsome
        have : b ∈ s.block := (hp.mem b).mpr (Option.isSome_iff_ne_none.mpr hsome)
        rw [hnil] at this
        cases this
      · rw [hp.disk]
        exact h0.head
      · intro k
        rw [List.take_nil]
        exact Or.inl hclean
      · rw [← hafter, hnil]
        exact hclean
  obtain ⟨d, ws, hc, hw, hdirty, hhead, hk, hfin⟩ := hcommit
  refine ⟨{ s with outstanding := 0, committing := false, dev := d, block := [] }, ws, ?_,
    ⟨rfl, rfl, rfl, hdirty, hhead⟩, hw, ?_, ?_⟩
  · simp only [endOp, henter]
    change endOpCommit c { s with outstanding := 0, committing := true } = _
    simp only [endOpCommit, hc]
    rfl
  · intro k e he
    rcases crashInv_of_crashes ht (hk k) he with h | h | h
    · obtain ⟨r, hr, hclean', _⟩ := recover_of_clean h
      obtain ⟨r', hr', hclean'', _⟩ := recover_of_clean hclean'
      refine ⟨r, hr, Or.inl hclean'.home, r', hr', ?_⟩
      exact fun b hb => (hclean''.home b hb).trans (hclean'.home b hb).symm
    · obtain ⟨r, hr, hclean', _⟩ := recover_of_installing ht h
      obtain ⟨r', hr', hclean'', _⟩ := recover_of_clean hclean'
      refine ⟨r, hr, Or.inr (hafter ▸ hclean'.home), r', hr', ?_⟩
      exact fun b hb => (hclean''.home b hb).trans (hclean'.home b hb).symm
    · obtain ⟨r, hr, hclean', _⟩ := recover_of_clean h
      obtain ⟨r', hr', hclean'', _⟩ := recover_of_clean hclean'
      refine ⟨r, hr, Or.inr (hafter ▸ hclean'.home), r', hr', ?_⟩
      exact fun b hb => (hclean''.home b hb).trans (hclean'.home b hb).symm
  · intro e he
    obtain ⟨r, hr, hclean', _⟩ := recover_of_clean (clean_of_crashes hfin he)
    exact ⟨r, hr, hclean'.home⟩

def oneBlockCalls : List Call := [.beginOp, .update 100 (Bytes.zero.setWord 0 7)]

def oneBlockState : State :=
  ⟨{ blankDev with dirty := Function.update (fun _ => none) 100 (some (Bytes.zero.setWord 0 7)) },
    1, false, [100]⟩

/-- One operation that logs one block, and every crash after its commit. -/
theorem crash_atomicity_one_block :
    ∃ s', endOp mkfsConf oneBlockState = .ok s' ∧
      ∀ d, Crashes mkfsConf s'.dev.disk d →
        ∃ r, recoverFromLog mkfsConf (Dev.boot d) = .ok r ∧
          HomeEq mkfsConf r.disk (afterGroup blankDev.disk oneBlockCalls) := by
  have hready : Ready mkfsConf (init blankDev) := by
    refine ⟨rfl, rfl, rfl, fun _ => rfl, ?_⟩
    simp [headCount, init, blankDev, Dev.boot]
  have hrun : Run (CallStep mkfsConf) (init blankDev) oneBlockCalls oneBlockState :=
    Run.snoc (Run.single (show beginOp (init blankDev) = some ⟨blankDev, 1, false, []⟩ from rfl))
      (show update mkfsConf 100 _ _ = .ok oneBlockState from rfl)
  have hout : OutsideLog mkfsConf oneBlockCalls := by
    intro b x hb
    simp only [oneBlockCalls, List.mem_cons, reduceCtorEq, Call.update.injEq, List.not_mem_nil,
      or_false, false_or] at hb
    rw [hb.1]
    decide
  obtain ⟨s', _, hs', _, _, _, hafter⟩ := crash_atomicity mkfsConf hready hrun rfl hout
  exact ⟨s', hs', hafter⟩

end Yonix.Log
