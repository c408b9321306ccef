/-
  Yonix/Fs/Release.lean
  =====================
  **What a system call leaves behind.**

  The functions of `sysfile.c` are followed through all their returns.  Calls that do
  not touch the file table leave the buffers, locks, counts and transactions as they
  were.  What the others can do to them is listed once, in `Effect`: every lock, buffer
  and transaction is back, and the counts have changed together with the pointers.
-/
import Yonix.Fs.Refs
import Yonix.Fs.Calls

namespace Yonix.Fs

variable {s t : State} {i : Nat}

/-! ### Link counts -/

theorem setNlink_core {n : Nat} {u : Unit} (h : setNlink i n s = .ok (u, t)) : core t = core s := by
  unfold setNlink at h
  rw [modify_bind] at h
  rw [iupdate_core h, core_setDin]

theorem incNlink_core {u : Unit} (h : incNlink i s = .ok (u, t)) : core t = core s := by
  unfold incNlink at h
  rw [get_bind] at h
  exact setNlink_core h

theorem decNlink_core {u : Unit} (h : decNlink i s = .ok (u, t)) : core t = core s := by
  unfold decNlink at h
  rw [get_bind] at h
  exact setNlink_core h

namespace Core

variable (c : Core) (i j : Nat)

@[simp]
theorem ops_ops (m n : Int) : (c.ops m).ops n = c.ops (m + n) := by
  unfold ops
  simp [add_assoc]

@[simp]
theorem ops_zero : c.ops 0 = c := by
  unfold ops
  simp

theorem bump_ops (n m : Int) : (c.ops m).bump i n = (c.bump i n).ops m := rfl

theorem setLock_ops (b : Bool) (m : Int) : (c.ops m).setLock i b = (c.setLock i b).ops m := rfl

theorem locked_ops (m : Int) : (c.ops m).locked = c.locked := rfl

theorem bump_cancel : ((c.bump i 1).bump j 1).bump i (-1) = c.bump j 1 := by
  rw [bump_comm c i j, bump_bump]
  simp

/-- Two locks taken and given back. -/
theorem unlock_both {c : Core} {i j : Nat} (hi : c.locked i = false) (hj : c.locked j = false)
    (hne : j ≠ i) :
    (((c.setLock i true).setLock j true).setLock i false).setLock j false = c := by
  rw [setLock_comm _ hne.symm, setLock_setLock, setLock_comm _ hne.symm, setLock_setLock,
    setLock_self hj, setLock_self hi]

end Core

/-! ### `link` and `unlink` -/

/-- `iunlockput` after `ilock`, with whatever was between them. -/
theorem lock_put {s1 s2 s3 : State} {u v : Unit} (h1 : ilock i s = .ok (u, s1))
    (h2 : iunlockput i s2 = .ok (v, s3)) (h3 : core s2 = core s1) :
    core s3 = (core s).bump i (-1) := by
  obtain ⟨hlock, hcore⟩ := ilock_core h1
  rw [(iunlockput_core h2).2, h3, hcore, Core.setLock_setLock, Core.setLock_self hlock]

theorem lock_unlock {s1 s2 s3 : State} {u v : Unit} (h1 : ilock i s = .ok (u, s1))
    (h2 : iunlock i s2 = .ok (v, s3)) (h3 : core s2 = core s1) : core s3 = core s := by
  obtain ⟨hlock, hcore⟩ := ilock_core h1
  rw [(iunlock_core h2).2, h3, hcore, Core.setLock_setLock, Core.setLock_self hlock]

theorem linkBad_core {r : Int} (h : linkBad i s = .ok (r, t)) :
    core t = ((core s).bump i (-1)).ops (-1) := by
  unfold linkBad at h
  obtain ⟨v, s1, h1, h⟩ := code_bind.mp h
  obtain ⟨w, s2, h2, h⟩ := code_bind.mp h
  obtain ⟨x, s3, h3, h⟩ := code_bind.mp h
  obtain ⟨y, s4, h4, h⟩ := code_bind.mp h
  cases h
  rw [endOp_core h4, lock_put h1 h3 (decNlink_core h2)]

theorem link_core {old new : List UInt8} {r : Int} (h : link old new s = .ok (r, t)) :
    core t = core s := by
  unfold link at h
  obtain ⟨v, s1, h1, h⟩ := code_bind.mp h
  obtain ⟨o, s2, h2, h⟩ := code_bind.mp h
  have hbegin := beginOp_core h1
  have hname := namei_core h2
  cases o with
  | none =>
    obtain ⟨w, s3, h3, h⟩ := code_bind.mp h
    cases h
    rw [endOp_core h3, hname, hbegin]
    change ((core s).ops 1).ops (-1) = core s
    simp
  | some ip =>
    have hname' : core s2 = ((core s).bump ip 1).ops 1 := by
      rw [hname, hbegin]
      rfl
    obtain ⟨w, s3, h3, h⟩ := code_bind.mp h
    rw [get_bind] at h
    split at h
    · obtain ⟨x, s4, h4, h⟩ := code_bind.mp h
      obtain ⟨y, s5, h5, h⟩ := code_bind.mp h
      cases h
      rw [endOp_core h5, lock_put h3 h4 rfl, hname', Core.bump_ops]
      simp
    · obtain ⟨x, s4, h4, h⟩ := code_bind.mp h
      obtain ⟨y, s5, h5, h⟩ := code_bind.mp h
      have hunlock : core s5 = core s2 := lock_unlock h3 h5 (incNlink_core h4)
      obtain ⟨q, s6, h6, h⟩ := code_bind.mp h
      have hparent := nameiparent_core h6
      cases q with
      | none =>
        rw [linkBad_core h, hparent]
        change ((core s5).bump ip (-1)).ops (-1) = core s
        rw [hunlock, hname', Core.bump_ops]
        simp
      | some p =>
        obtain ⟨dp, name⟩ := p
        obtain ⟨z, s7, h7, h⟩ := code_bind.mp h
        obtain ⟨d, s8, h8, h⟩ := code_bind.mp h
        have hparent' : core s6 = (core s5).bump dp 1 := hparent
        split at h
        · obtain ⟨a, s9, h9, h⟩ := code_bind.mp h
          rw [linkBad_core h, lock_put h7 h9 (dirlink_core h8), hparent', Core.bump_bump]
          simp only [add_neg_cancel, Core.bump_zero]
          rw [hunlock, hname', Core.bump_ops]
          simp
        · obtain ⟨a, s9, h9, h⟩ := code_bind.mp h
          obtain ⟨b, s10, h10, h⟩ := code_bind.mp h
          obtain ⟨e, s11, h11, h⟩ := code_bind.mp h
          cases h
          rw [endOp_core h11, iput_core h10, lock_put h7 h9 (dirlink_core h8), hparent', Core.bump_bump]
          simp only [add_neg_cancel, Core.bump_zero]
          rw [hunlock, hname', Core.bump_ops]
          simp

theorem isdiremptyLoop_core (l : List Nat) : ∀ {s : State} {r : Bool},
    isdiremptyLoop i l s = .ok (r, t) → core t = core s := by
  induction l with
  | nil =>
    intro s r h
    cases h
    rfl
  | cons off l ih =>
    intro s r h
    unfold isdiremptyLoop at h
    obtain ⟨de, s1, h1, h⟩ := code_bind.mp h
    split at h
    · cases h
      exact readDirent_core h1
    · rw [ih h, readDirent_core h1]

theorem isdirempty_core {r : Bool} (h : isdirempty i s = .ok (r, t)) : core t = core s := by
  unfold isdirempty at h
  rw [get_bind] at h
  exact isdiremptyLoop_core _ h

theorem unlinkBad_core {r : Int} (h : unlinkBad i s = .ok (r, t)) :
    core t = (((core s).setLock i false).bump i (-1)).ops (-1) := by
  unfold unlinkBad at h
  obtain ⟨v, s1, h1, h⟩ := code_bind.mp h
  obtain ⟨w, s2, h2, h⟩ := code_bind.mp h
  cases h
  rw [endOp_core h2, (iunlockput_core h1).2]

/-- The books after both inodes were unlocked and given back. -/
def Core.releases (c : Core) (dp ip : Nat) : Core :=
  ((((c.setLock dp false).bump dp (-1)).setLock ip false).bump ip (-1)).ops (-1)

theorem unlinkEntry_core {dp ip off : Nat} {r : Int} (h : unlinkEntry dp ip off s = .ok (r, t)) :
    core t = (core s).releases dp ip := by
  unfold unlinkEntry at h
  obtain ⟨n, s1, h1, h⟩ := code_bind.mp h
  have htail : ∀ {u : State}, (do
      iunlockput dp
      decNlink ip
      iunlockput ip
      endOp
      return 0 : M Int) u = .ok (r, t) → core t = (core u).releases dp ip := by
    intro u h
    obtain ⟨w, s3, h3, h⟩ := code_bind.mp h
    obtain ⟨x, s4, h4, h⟩ := code_bind.mp h
    obtain ⟨y, s5, h5, h⟩ := code_bind.mp h
    obtain ⟨z, s6, h6, h⟩ := code_bind.mp h
    cases h
    rw [endOp_core h6, (iunlockput_core h5).2, decNlink_core h4, (iunlockput_core h3).2]
    rfl
  split at h
  · rw [get_bind] at h
    split at h
    · obtain ⟨v, s2, h2, h⟩ := code_bind.mp h
      rw [htail h, decNlink_core h2, writei_core h1]
    · rw [htail h, writei_core h1]
  · cases h

/-- Of a directory and an inode in it, both referenced and locked. -/
def Core.grabs (c : Core) (dp ip : Nat) : Core :=
  (((((c.ops 1).bump dp 1).setLock dp true).bump ip 1).setLock ip true)

theorem Core.releases_grabs {c : Core} {dp ip : Nat} (hd : c.locked dp = false)
    (hi : (c.setLock dp true).locked ip = false) : (c.grabs dp ip).releases dp ip = c := by
  have hne : ip ≠ dp := by
    intro heq
    rw [heq, Core.locked_setLock_self] at hi
    cases hi
  rw [Core.locked_setLock_of_ne _ hne] at hi
  unfold grabs releases
  rw [bump_ops, setLock_ops, bump_ops, setLock_ops, setLock_ops, bump_ops, setLock_ops, bump_ops,
    ops_ops]
  simp only [add_neg_cancel, ops_zero, bump_setLock]
  rw [bump_cancel, bump_bump]
  simp only [add_neg_cancel, bump_zero]
  exact unlock_both hd hi hne

theorem unlink_core {path : List UInt8} {r : Int} (h : unlink path s = .ok (r, t)) :
    core t = core s := by
  unfold unlink at h
  obtain ⟨v, s1, h1, h⟩ := code_bind.mp h
  obtain ⟨o, s2, h2, h⟩ := code_bind.mp h
  have hbegin := beginOp_core h1
  have hname := nameiparent_core h2
  cases o with
  | none =>
    obtain ⟨w, s3, h3, h⟩ := code_bind.mp h
    cases h
    rw [endOp_core h3, hname, hbegin]
    change ((core s).ops 1).ops (-1) = core s
    simp
  | some p =>
    obtain ⟨dp, name⟩ := p
    have hname' : core s2 = ((core s).ops 1).bump dp 1 := by
      rw [hname, hbegin]
      rfl
    obtain ⟨w, s3, h3, h⟩ := code_bind.mp h
    obtain ⟨hdlock, hdcore⟩ := ilock_core h3
    rw [hname'] at hdlock hdcore
    have hdp : (core s).locked dp = false := hdlock
    have hbad : ∀ {u : State}, core u = core s3 → unlinkBad dp u = .ok (r, t) → core t = core s := by
      intro u hu hb
      rw [unlinkBad_core hb, hu, hdcore, Core.setLock_setLock, Core.setLock_self hdlock, Core.bump_bump]
      simp
    split at h
    · exact hbad rfl h
    · obtain ⟨q, s4, h4, h⟩ := code_bind.mp h
      have hlook := dirlookup_core h4
      cases q with
      | none => exact hbad hlook h
      | some p =>
        obtain ⟨ip, off⟩ := p
        have hlook' : core s4 = (core s3).bump ip 1 := hlook
        obtain ⟨x, s5, h5, h⟩ := code_bind.mp h
        obtain ⟨hilock, hicore⟩ := ilock_core h5
        have hgrabs : core s5 = (core s).grabs dp ip := by
          rw [hicore, hlook', hdcore]
          rfl
        have hfree : ((core s).setLock dp true).locked ip = false := by
          rw [hlook', hdcore] at hilock
          exact hilock
        have hentry : ∀ {u : State}, core u = core s5 → unlinkEntry dp ip off u = .ok (r, t) →
            core t = core s := by
          intro u hu he
          rw [unlinkEntry_core he, hu, hgrabs, Core.releases_grabs hdp hfree]
        rw [get_bind] at h
        split at h
        · cases h
        · split at h
          · obtain ⟨e, s6, h6, h⟩ := code_bind.mp h
            split at h
            · exact hentry (isdirempty_core h6) h
            · obtain ⟨y, s7, h7, h⟩ := code_bind.mp h
              refine hbad ?_ h
              rw [lock_put h5 h7 (isdirempty_core h6), hlook', Core.bump_bump]
              simp
          · exact hentry rfl h

/-! ### `create` -/

theorem dirlinkNew_core {e : Panic} {name : List UInt8} {inum : Nat} {u : Unit}
    (h : dirlinkNew e i name inum s = .ok (u, t)) : core t = core s := by
  unfold dirlinkNew at h
  obtain ⟨r, s1, h1, h⟩ := code_bind.mp h
  split at h
  · cases h
  · cases h
    exact dirlink_core h1

theorem createDots_core {dp ip : Nat} {u : Unit} (h : createDots dp ip s = .ok (u, t)) :
    core t = core s := by
  unfold createDots at h
  obtain ⟨v, s1, h1, h⟩ := code_bind.mp h
  rw [get_bind] at h
  obtain ⟨w, s2, h2, h⟩ := code_bind.mp h
  rw [dirlinkNew_core h, dirlinkNew_core h2, incNlink_core h1]

theorem createIn_core {dp ip type major minor : Nat} {name : List UInt8} {r : Option Nat}
    (h : createIn dp name type major minor ip s = .ok (r, t)) :
    r = some ip ∧ (core s).locked ip = false ∧
      core t = (((core s).setLock ip true).setLock dp false).bump dp (-1) := by
  unfold createIn at h
  obtain ⟨v, s1, h1, h⟩ := code_bind.mp h
  obtain ⟨hlock, hcore⟩ := ilock_core h1
  rw [modify_bind] at h
  obtain ⟨w, s2, h2, h⟩ := code_bind.mp h
  have htail : ∀ {u : State}, core u = core s1 → (do
      let s ← get
      dirlinkNew .createDirlink dp name (s.icache ip).inum
      iunlockput dp
      return some ip : M (Option Nat)) u = .ok (r, t) →
        r = some ip ∧ core t = (((core s).setLock ip true).setLock dp false).bump dp (-1) := by
    intro u hu h
    rw [get_bind] at h
    obtain ⟨x, s4, h4, h⟩ := code_bind.mp h
    obtain ⟨y, s5, h5, h⟩ := code_bind.mp h
    cases h
    rw [(iunlockput_core h5).2, dirlinkNew_core h4, hu, hcore]
    exact ⟨rfl, rfl⟩
  have hup : core s2 = core s1 := by rw [iupdate_core h2, core_setDin]
  split at h
  · obtain ⟨x, s3, h3, h⟩ := code_bind.mp h
    obtain ⟨hr, ht⟩ := htail (by rw [createDots_core h3, hup]) h
    exact ⟨hr, hlock, ht⟩
  · obtain ⟨hr, ht⟩ := htail hup h
    exact ⟨hr, hlock, ht⟩

/-- `create` returns its inode referenced and locked. -/
theorem create_core {path : List UInt8} {type major minor : Nat} {r : Option Nat}
    (h : create path type major minor s = .ok (r, t)) :
    (r = none → core t = core s) ∧
      ∀ ip, r = some ip → (core s).locked ip = false ∧
        core t = ((core s).bump ip 1).setLock ip true := by
  unfold create at h
  obtain ⟨o, s1, h1, h⟩ := code_bind.mp h
  have hname := nameiparent_core h1
  cases o with
  | none =>
    cases h
    exact ⟨fun _ => hname, fun ip hip => nomatch hip⟩
  | some p =>
    obtain ⟨dp, name⟩ := p
    have hname' : core s1 = (core s).bump dp 1 := hname
    obtain ⟨v, s2, h2, h⟩ := code_bind.mp h
    obtain ⟨hdlock, hdcore⟩ := ilock_core h2
    obtain ⟨q, s3, h3, h⟩ := code_bind.mp h
    have hlook := dirlookup_core h3
    cases q with
    | some p =>
      obtain ⟨ip, off⟩ := p
      have hlook' : core s3 = (core s2).bump ip 1 := hlook
      obtain ⟨w, s4, h4, h⟩ := code_bind.mp h
      have hput : core s4 = (core s).bump ip 1 := by
        rw [(iunlockput_core h4).2, hlook', hdcore]
        simp only [Core.bump_setLock]
        rw [Core.setLock_setLock, hname', Core.bump_cancel]
        rw [hname'] at hdlock
        exact Core.setLock_self hdlock
      obtain ⟨x, s5, h5, h⟩ := code_bind.mp h
      obtain ⟨hilock, hicore⟩ := ilock_core h5
      rw [hput] at hilock hicore
      rw [get_bind] at h
      split at h
      · cases h
        refine ⟨fun hr => (nomatch hr), ?_⟩
        intro j hj
        cases hj
        exact ⟨hilock, hicore⟩
      · obtain ⟨y, s6, h6, h⟩ := code_bind.mp h
        cases h
        refine ⟨fun _ => ?_, fun j hj => nomatch hj⟩
        rw [lock_put h5 h6 rfl, hput]
        simp
    | none =>
      have hlook' : core s3 = core s2 := hlook
      obtain ⟨ip, s4, h4, h⟩ := code_bind.mp h
      obtain ⟨hr, hilock, hcore⟩ := createIn_core h
      have hne : ip ≠ dp := by
        intro heq
        rw [heq, ialloc_core h4, hlook', hdcore] at hilock
        simp at hilock
      have hfree : (core s).locked ip = false := by
        rw [ialloc_core h4, hlook', hdcore] at hilock
        change (((core s1).setLock dp true).locked ip) = false at hilock
        rw [Core.locked_setLock_of_ne _ hne, hname'] at hilock
        exact hilock
      subst hr
      refine ⟨fun hn => (nomatch hn), ?_⟩
      intro j hj
      cases hj
      refine ⟨hfree, ?_⟩
      rw [hcore, ialloc_core h4, hlook', hdcore]
      simp only [Core.bump_setLock]
      rw [Core.setLock_comm _ hne.symm, Core.setLock_setLock, Core.setLock_comm _ hne, hname',
        Core.bump_cancel]
      congr 1
      rw [hname'] at hdlock
      exact Core.setLock_self hdlock

theorem created_core {r : Option Nat} {n : Int} (h : created r s = .ok (n, t)) :
    (r = none → core t = (core s).ops (-1)) ∧
      ∀ ip, r = some ip → core t = (((core s).setLock ip false).bump ip (-1)).ops (-1) := by
  unfold created at h
  cases r with
  | none =>
    obtain ⟨v, s1, h1, h⟩ := code_bind.mp h
    cases h
    exact ⟨fun _ => endOp_core h1, fun ip hip => nomatch hip⟩
  | some ip =>
    obtain ⟨v, s1, h1, h⟩ := code_bind.mp h
    obtain ⟨w, s2, h2, h⟩ := code_bind.mp h
    cases h
    refine ⟨fun hn => (nomatch hn), ?_⟩
    intro j hj
    cases hj
    rw [endOp_core h2, (iunlockput_core h1).2]

/-- `create` and the end of its callers, in a transaction. -/
theorem create_created {s1 s2 : State} {path : List UInt8} {type major minor : Nat}
    {r : Option Nat} {n : Int} (h0 : core s1 = (core s).ops 1)
    (h1 : create path type major minor s1 = .ok (r, s2)) (h2 : created r s2 = .ok (n, t)) :
    core t = core s := by
  obtain ⟨hnone, hsome⟩ := create_core h1
  obtain ⟨hnone', hsome'⟩ := created_core h2
  cases r with
  | none =>
    rw [hnone' rfl, hnone rfl, h0]
    simp
  | some ip =>
    obtain ⟨hlock, hcore⟩ := hsome ip rfl
    rw [hsome' ip rfl, hcore, h0, Core.setLock_setLock, Core.bump_ops, Core.setLock_ops, Core.bump_ops,
      Core.ops_ops, Core.bump_setLock, Core.bump_bump]
    simp only [add_neg_cancel, Core.bump_zero, Core.ops_zero]
    rw [h0] at hlock
    exact Core.setLock_self hlock

theorem sysMkdir_core {path : Option (List UInt8)} {n : Int} (h : sysMkdir path s = .ok (n, t)) :
    core t = core s := by
  unfold sysMkdir at h
  obtain ⟨v, s1, h1, h⟩ := code_bind.mp h
  have hbegin := beginOp_core h1
  cases path with
  | none =>
    rw [(created_core h).1 rfl, hbegin]
    simp
  | some path =>
    obtain ⟨r, s2, h2, h⟩ := code_bind.mp h
    exact create_created hbegin h2 h

theorem sysMknod_core {path : Option (List UInt8)} {major minor : Option Int} {n : Int}
    (h : sysMknod path major minor s = .ok (n, t)) : core t = core s := by
  unfold sysMknod at h
  obtain ⟨v, s1, h1, h⟩ := code_bind.mp h
  have hbegin := beginOp_core h1
  have hbad : created none s1 = .ok (n, t) → core t = core s := by
    intro hc
    rw [(created_core hc).1 rfl, hbegin]
    simp
  cases path with
  | none => exact hbad h
  | some path =>
    cases major with
    | none => exact hbad h
    | some major =>
      cases minor with
      | none => exact hbad h
      | some minor =>
        obtain ⟨r, s2, h2, h⟩ := code_bind.mp h
        exact create_created hbegin h2 h

/-! ### `exec` and `fstat` -/

theorem readHeader_core {off size : Nat} {r : Option (List UInt8)}
    (h : readHeader i off size s = .ok (r, t)) : core t = core s := by
  unfold readHeader at h
  obtain ⟨l, s1, h1, h⟩ := code_bind.mp h
  cases h
  exact readi_core h1

theorem loaduvm_core {offset sz : Nat} (l : List Nat) : ∀ {s : State} {r : Bool},
    loaduvm i offset sz l s = .ok (r, t) → core t = core s := by
  induction l with
  | nil =>
    intro s r h
    cases h
    rfl
  | cons k l ih =>
    intro s r h
    unfold loaduvm at h
    obtain ⟨o, s1, h1, h⟩ := code_bind.mp h
    cases o with
    | none =>
      cases h
      exact readHeader_core h1
    | some b => rw [ih h, readHeader_core h1]

theorem execLoad_core {alloc : Nat → Bool} (m : Nat) : ∀ {k off : Nat} {s : State} {r : Bool},
    execLoad i alloc m k off s = .ok (r, t) → core t = core s := by
  induction m with
  | zero =>
    intro k off s r h
    cases h
    rfl
  | succ m ih =>
    intro k off s r h
    unfold execLoad at h
    obtain ⟨o, s1, h1, h⟩ := code_bind.mp h
    cases o with
    | none =>
      cases h
      exact readHeader_core h1
    | some ph =>
      dsimp only at h
      split at h
      · rw [ih h, readHeader_core h1]
      · split at h
        · cases h
          exact readHeader_core h1
        · obtain ⟨ok, s2, h2, h⟩ := code_bind.mp h
          split at h
          · rw [ih h, loaduvm_core _ h2, readHeader_core h1]
          · cases h
            rw [loaduvm_core _ h2, readHeader_core h1]

theorem execRead_core {setupkvm r : Bool} {alloc : Nat → Bool}
    (h : execRead i setupkvm alloc s = .ok (r, t)) : core t = core s := by
  unfold execRead at h
  obtain ⟨o, s1, h1, h⟩ := code_bind.mp h
  cases o with
  | none =>
    cases h
    exact readHeader_core h1
  | some elf =>
    dsimp only at h
    split at h
    · cases h
      exact readHeader_core h1
    · rw [execLoad_core _ h, readHeader_core h1]

theorem exec_core {path : List UInt8} {setupkvm : Bool} {alloc : Nat → Bool} {r : Int}
    (h : Fs.exec path setupkvm alloc s = .ok (r, t)) : core t = core s := by
  unfold Fs.exec at h
  obtain ⟨v, s1, h1, h⟩ := code_bind.mp h
  obtain ⟨o, s2, h2, h⟩ := code_bind.mp h
  have hbegin := beginOp_core h1
  have hname := namei_core h2
  cases o with
  | none =>
    obtain ⟨w, s3, h3, h⟩ := code_bind.mp h
    cases h
    rw [endOp_core h3, hname, hbegin]
    change ((core s).ops 1).ops (-1) = core s
    simp
  | some ip =>
    obtain ⟨w, s3, h3, h⟩ := code_bind.mp h
    obtain ⟨ok, s4, h4, h⟩ := code_bind.mp h
    obtain ⟨x, s5, h5, h⟩ := code_bind.mp h
    obtain ⟨y, s6, h6, h⟩ := code_bind.mp h
    cases h
    rw [endOp_core h6, lock_put h3 h5 (execRead_core h4), hname, hbegin]
    change ((((core s).ops 1).bump ip 1).bump ip (-1)).ops (-1) = core s
    simp

theorem filestat_core {f : Nat} {r : Option Stat} (h : filestat f s = .ok (r, t)) :
    core t = core s := by
  unfold filestat at h
  rw [get_bind] at h
  cases htype : (s.ftable f).type with
  | inode ip =>
    rw [htype] at h
    obtain ⟨v, s1, h1, h⟩ := code_bind.mp h
    rw [get_bind] at h
    obtain ⟨w, s2, h2, h⟩ := code_bind.mp h
    cases h
    exact lock_unlock h1 h2 rfl
  | pipe q =>
    rw [htype] at h
    cases h
    rfl
  | none =>
    rw [htype] at h
    cases h
    rfl

/-! ### Files -/

namespace Core

def setFile (c : Core) (f : Nat) (x : File) : Core := { c with ftable := Function.update c.ftable f x }

/-- `proc->p_of[fd] = x`. -/
def setFd (c : Core) (fd : Nat) (x : Option Nat) : Core :=
  { c with
    procs := Function.update c.procs c.proc
      { c.procs c.proc with ofile := Function.update (c.procs c.proc).ofile fd x } }

def setPipe (c : Core) (q : Nat) (x : Pipe) : Core := { c with pipe := Function.update c.pipe q x }

/-- The pipe becomes `x`, and its page is freed when both ends are closed. -/
def endPipe (c : Core) (q : Nat) (x : Pipe) : Core :=
  if x.readopen = false ∧ x.writeopen = false then { c.setPipe q x with freed := q :: c.freed }
  else c.setPipe q x

/-- `pipeclose`. -/
def closePipe (c : Core) (q : Nat) (writable : Bool) : Core :=
  if writable then c.endPipe q { c.pipe q with writeopen := false }
  else c.endPipe q { c.pipe q with readopen := false }

/-- `fileclose`. -/
def close (c : Core) (f : Nat) : Core :=
  let ff := c.ftable f
  if 0 < ff.ref - 1 then c.setFile f { ff with ref := ff.ref - 1 }
  else
    let d := c.setFile f { ff with ref := 0, type := .none }
    match ff.type with
    | .pipe q => d.closePipe q ff.writable
    | .inode i => d.bump i (-1)
    | .none => d

end Core

theorem filealloc_core {r : Option Nat} (h : filealloc s = .ok (r, t)) :
    (r = none → core t = core s) ∧ ∀ f, r = some f → f < NFILE ∧ ((core s).ftable f).ref = 0 ∧
      core t = (core s).setFile f { (core s).ftable f with ref := 1 } := by
  unfold filealloc at h
  split at h
  · rename_i f hf
    cases h
    refine ⟨fun hr => (nomatch hr), ?_⟩
    intro g hg
    cases hg
    have hmem := List.mem_of_find?_eq_some hf
    have hzero : (s.ftable f).ref = 0 := by simpa using List.find?_some hf
    exact ⟨List.mem_range.mp hmem, hzero, rfl⟩
  · cases h
    exact ⟨fun _ => rfl, fun f hf => nomatch hf⟩

theorem filedup_core {f : Nat} {u : Unit} (h : filedup f s = .ok (u, t)) :
    1 ≤ ((core s).ftable f).ref ∧
      core t = (core s).setFile f { (core s).ftable f with ref := ((core s).ftable f).ref + 1 } := by
  unfold filedup at h
  rw [get_bind] at h
  split at h
  · cases h
  · rename_i href
    cases h
    refine ⟨?_, rfl⟩
    change 1 ≤ (s.ftable f).ref
    omega

theorem pipeclose_core {q : Nat} {writable : Bool} {u : Unit} (h : pipeclose q writable s = .ok (u, t)) :
    core t = (core s).closePipe q writable := by
  have hfree : ∀ {y : Pipe}, pipefree q (s.setPipe q y) = .ok (u, t) →
      core t = (core s).endPipe q y := by
    intro y hf
    have hq : (s.setPipe q y).pipe q = y := Function.update_self _ _ _
    unfold pipefree at hf
    rw [get_bind, hq] at hf
    unfold Core.endPipe
    split at hf
    · rename_i hc
      rw [if_pos hc]
      cases hf
      rfl
    · rename_i hc
      rw [if_neg hc]
      cases hf
      rfl
  unfold pipeclose at h
  unfold Core.closePipe
  split at h
  · rename_i hw
    rw [if_pos hw]
    exact hfree h
  · rename_i hw
    rw [if_neg hw]
    exact hfree h

theorem fileclose_core {f : Nat} {u : Unit} (h : fileclose f s = .ok (u, t)) :
    1 ≤ ((core s).ftable f).ref ∧ core t = (core s).close f := by
  unfold fileclose at h
  rw [get_bind] at h
  split at h
  · cases h
  · rename_i href
    have hone : 1 ≤ ((core s).ftable f).ref := by
      change 1 ≤ (s.ftable f).ref
      omega
    refine ⟨hone, ?_⟩
    unfold Core.close
    change _ = if 0 < (s.ftable f).ref - 1 then _ else _
    split at h
    · rename_i hpos
      rw [if_pos hpos]
      cases h
      rfl
    · rename_i hpos
      rw [if_neg hpos]
      rw [modify_bind] at h
      change _ = match (s.ftable f).type with
        | .pipe q => _
        | .inode i => _
        | .none => _
      cases htype : (s.ftable f).type with
      | pipe q =>
        rw [htype] at h
        exact pipeclose_core h
      | inode i =>
        rw [htype] at h
        obtain ⟨v, s1, h1, h⟩ := code_bind.mp h
        obtain ⟨w, s2, h2, h⟩ := code_bind.mp h
        rw [endOp_core h, iput_core h2, beginOp_core h1, Core.bump_ops, Core.ops_ops]
        simp only [add_neg_cancel, Core.ops_zero]
        rfl
      | none =>
        rw [htype] at h
        cases h
        rfl

theorem fdalloc_core {f : Nat} {r : Option Nat} (h : fdalloc f s = .ok (r, t)) :
    (r = none → core t = core s) ∧ ∀ fd, r = some fd → fd < NOFILE ∧
      ((core s).procs (core s).proc).ofile fd = none ∧ core t = (core s).setFd fd (some f) := by
  unfold fdalloc at h
  rw [get_bind] at h
  generalize hfind : (List.range NOFILE).find? _ = o at h
  cases o with
  | none =>
    cases h
    exact ⟨fun _ => rfl, fun fd hfd => nomatch hfd⟩
  | some fd =>
    cases h
    refine ⟨fun hr => (nomatch hr), ?_⟩
    intro k hk
    cases hk
    have hmem := List.mem_of_find?_eq_some hfind
    have hnone : (s.procs s.proc).ofile fd = none := by simpa using List.find?_some hfind
    exact ⟨List.mem_range.mp hmem, hnone, rfl⟩

theorem argfd_core {fd : Option Int} {r : Option (Nat × Nat)} (h : argfd fd s = .ok (r, t)) :
    t = s ∧ ∀ k f, r = some (k, f) → k < NOFILE ∧ ((core s).procs (core s).proc).ofile k = some f := by
  unfold argfd at h
  rw [get_bind] at h
  cases fd with
  | none =>
    cases h
    exact ⟨rfl, fun k f hr => nomatch hr⟩
  | some fd =>
    dsimp only at h
    split at h
    · cases h
      exact ⟨rfl, fun k f hr => nomatch hr⟩
    · rename_i hfd
      cases h
      refine ⟨rfl, ?_⟩
      intro k f hr
      obtain ⟨g, hg, heq⟩ := Option.map_eq_some_iff.mp hr
      cases heq
      refine ⟨?_, hg⟩
      have : ¬ (fd < 0) ∧ ¬ ((NOFILE : Int) ≤ fd) := not_or.mp hfd
      omega

/-! ### What a call can do -/

namespace Core

/-- `filealloc` with result `f`. -/
def allocFile (c : Core) (f : Nat) : Core := c.setFile f { c.ftable f with ref := 1 }

/-- `filedup`. -/
def dupFile (c : Core) (f : Nat) : Core := c.setFile f { c.ftable f with ref := (c.ftable f).ref + 1 }

def setCdir (c : Core) (i : Nat) : Core :=
  { c with procs := Function.update c.procs c.proc { c.procs c.proc with cdir := some i } }

/-- The two ends of a new pipe. -/
def setEnds (c : Core) (q f0 f1 : Nat) : Core :=
  let c := { c.setPipe q ⟨[], true, true⟩ with taken := q :: c.taken }
  let c := c.setFile f0 { c.ftable f0 with type := .pipe q, readable := true, writable := false }
  c.setFile f1 { c.ftable f1 with type := .pipe q, readable := false, writable := true }

/-- The descriptor is free, or is a file. -/
def Fd (c : Core) (fd : Nat) (x : Option Nat) : Prop := fd < NOFILE ∧ (c.procs c.proc).ofile fd = x

def FreeFile (c : Core) (f : Nat) : Prop := f < NFILE ∧ (c.ftable f).ref = 0

end Core

/-- The changes of the core that a call can make, where `page` is what `kalloc` returns
    if it asks for a page. -/
inductive Effect (page : Option Nat) (c : Core) : Core → Prop where
  | same : Effect page c c
  | dup {fd f k : Nat} : c.Fd fd (some f) → c.Fd k none → 1 ≤ (c.ftable f).ref →
      Effect page c ((c.setFd k (some f)).dupFile f)
  | close {fd f : Nat} : c.Fd fd (some f) → 1 ≤ (c.ftable f).ref →
      Effect page c ((c.setFd fd none).close f)
  | offset {f : Nat} (off : Nat) : Effect page c (c.setFile f { c.ftable f with off := off })
  | data {q : Nat} (data : List UInt8) : Effect page c (c.setPipe q { c.pipe q with data := data })
  | chdir {i j : Nat} : (c.procs c.proc).cdir = some j →
      Effect page c (((c.bump i 1).bump j (-1)).setCdir i)
  | noFd {f : Nat} : c.FreeFile f → Effect page c ((c.allocFile f).close f)
  | opened {f fd i : Nat} (readable writable : Bool) : c.FreeFile f → c.Fd fd none →
      Effect page c ((((c.allocFile f).setFd fd (some f)).bump i 1).setFile f
        { (c.allocFile f).ftable f with
          type := .inode i, off := 0, readable := readable, writable := writable })
  | noPage {f0 f1 : Nat} : c.FreeFile f0 → (c.allocFile f0).FreeFile f1 →
      Effect page c ((((c.allocFile f0).allocFile f1).close f0).close f1)
  | noPipeFd {f0 f1 q : Nat} : page = some q → c.FreeFile f0 → (c.allocFile f0).FreeFile f1 →
      Effect page c (((((c.allocFile f0).allocFile f1).setEnds q f0 f1).close f0).close f1)
  | oneFd {f0 f1 q fd : Nat} : page = some q → c.FreeFile f0 → (c.allocFile f0).FreeFile f1 →
      c.Fd fd none →
      Effect page c ((((((((c.allocFile f0).allocFile f1).setEnds q f0 f1).setFd fd (some f0)).setFd fd
        none).close f0).close f1))
  | piped {f0 f1 q fd0 fd1 : Nat} : page = some q → c.FreeFile f0 → (c.allocFile f0).FreeFile f1 →
      c.Fd fd0 none → (c.setFd fd0 (some f0)).Fd fd1 none →
      Effect page c (((((c.allocFile f0).allocFile f1).setEnds q f0 f1).setFd fd0 (some f0)).setFd fd1
        (some f1))

/-- The page that a call gets from `kalloc`. -/
def Call.page : Call → Option Nat
  | .pipe _ mem => mem
  | _ => none

variable {page : Option Nat}

theorem Effect.of_eq {c d : Core} (h : d = c) : Effect page c d := h ▸ Effect.same

/-! ### Each call -/

theorem sysDup_effect {fd : Option Int} {r : Int} (h : sysDup fd s = .ok (r, t)) :
    Effect page (core s) (core t) := by
  unfold sysDup at h
  obtain ⟨a, s1, h1, h⟩ := code_bind.mp h
  obtain ⟨rfl, harg⟩ := argfd_core h1
  cases a with
  | none =>
    cases h
    exact .same
  | some p =>
    obtain ⟨k, f⟩ := p
    obtain ⟨o, s2, h2, h⟩ := code_bind.mp h
    obtain ⟨hnone, hsome⟩ := fdalloc_core h2
    cases o with
    | none =>
      cases h
      exact .of_eq (hnone rfl)
    | some j =>
      obtain ⟨v, s3, h3, h⟩ := code_bind.mp h
      cases h
      obtain ⟨hj, hfree, hcore⟩ := hsome j rfl
      obtain ⟨href, hdup⟩ := filedup_core h3
      rw [hcore] at hdup href
      rw [hdup]
      exact .dup (harg k f rfl) ⟨hj, hfree⟩ href

theorem sysClose_effect {fd : Option Int} {r : Int} (h : sysClose fd s = .ok (r, t)) :
    Effect page (core s) (core t) := by
  unfold sysClose at h
  obtain ⟨a, s1, h1, h⟩ := code_bind.mp h
  obtain ⟨rfl, harg⟩ := argfd_core h1
  cases a with
  | none =>
    cases h
    exact .same
  | some p =>
    obtain ⟨k, f⟩ := p
    obtain ⟨v, s2, h2, h⟩ := code_bind.mp h
    obtain ⟨w, s3, h3, h⟩ := code_bind.mp h
    cases h
    cases h2
    obtain ⟨href, hclose⟩ := fileclose_core h3
    rw [hclose]
    exact .close (harg k f rfl) href

theorem sysFstat_effect {fd : Option Int} {st : Bool} {r : Int} (h : sysFstat fd st s = .ok (r, t)) :
    Effect page (core s) (core t) := by
  unfold sysFstat at h
  obtain ⟨a, s1, h1, h⟩ := code_bind.mp h
  obtain ⟨rfl, -⟩ := argfd_core h1
  cases a with
  | none =>
    cases h
    exact .same
  | some p =>
    cases st with
    | false =>
      cases h
      exact .same
    | true =>
      obtain ⟨o, s2, h2, h⟩ := code_bind.mp h
      have hstat := filestat_core h2
      cases o with
      | none =>
        cases h
        exact .of_eq hstat
      | some st =>
        cases h
        exact .of_eq hstat

/-! ### Reading and writing files -/

theorem piperead_effect {q : Nat} {n : Int} {r : Option (List UInt8)} (h : piperead q n s = .ok (r, t)) :
    Effect page (core s) (core t) := by
  unfold piperead at h
  rw [get_bind] at h
  split at h
  · split at h
    · cases h
      exact .same
    · cases h
  · rw [modify_bind] at h
    cases h
    exact .data _

theorem pipewrite_effect {q : Nat} {addr : Str} {n r : Int} (h : pipewrite q addr n s = .ok (r, t)) :
    Effect page (core s) (core t) := by
  unfold pipewrite at h
  rw [get_bind] at h
  dsimp only at h
  split at h
  · rw [modify_bind] at h
    cases h
    exact .data _
  · split at h
    · rw [modify_bind] at h
      cases h
      exact .data _
    · cases h

/-- An offset set in a state where the locks are still to be given back. -/
theorem advance_core {f n : Nat} {u : Unit} (h : advance f n s = .ok (u, t)) :
    core t = (core s).setFile f { (core s).ftable f with off := ((core s).ftable f).off + n } := by
  cases h
  rfl

theorem fileread_effect {f : Nat} {n : Int} {r : Option (List UInt8)} (h : fileread f n s = .ok (r, t)) :
    Effect page (core s) (core t) := by
  unfold fileread at h
  rw [get_bind] at h
  split at h
  · cases h
    exact .same
  · cases htype : (s.ftable f).type with
    | pipe q =>
      rw [htype] at h
      exact piperead_effect h
    | none =>
      rw [htype] at h
      cases h
    | inode i =>
      rw [htype] at h
      obtain ⟨v, s1, h1, h⟩ := code_bind.mp h
      obtain ⟨hlock, hcore⟩ := ilock_core h1
      obtain ⟨o, s2, h2, h⟩ := code_bind.mp h
      have hread := readi_core h2
      cases o with
      | none =>
        obtain ⟨w, s3, h3, h⟩ := code_bind.mp h
        cases h
        exact .of_eq (lock_unlock h1 h3 hread)
      | some l =>
        obtain ⟨w, s3, h3, h⟩ := code_bind.mp h
        obtain ⟨x, s4, h4, h⟩ := code_bind.mp h
        cases h
        have hfinal : core t = (core s).setFile f
            { (core s).ftable f with off := ((core s).ftable f).off + l.length } := by
          rw [(iunlock_core h4).2, advance_core h3, hread, hcore]
          change (((core s).setLock i true).setLock i false).setFile f _ = _
          rw [Core.setLock_setLock, Core.setLock_self hlock]
          rfl
        rw [hfinal]
        exact .offset _

theorem sysRead_effect {fd n : Option Int} {p : Bool} {r : Int} (h : sysRead fd p n s = .ok (r, t)) :
    Effect page (core s) (core t) := by
  unfold sysRead at h
  obtain ⟨a, s1, h1, h⟩ := code_bind.mp h
  obtain ⟨rfl, -⟩ := argfd_core h1
  cases a with
  | none =>
    cases h
    exact .same
  | some q =>
    cases n with
    | none =>
      cases h
      exact .same
    | some n =>
      cases p with
      | false =>
        cases h
        exact .same
      | true =>
        obtain ⟨o, s2, h2, h⟩ := code_bind.mp h
        have hread : Effect page (core s1) (core s2) := fileread_effect h2
        cases o with
        | none =>
          cases h
          exact hread
        | some l =>
          cases h
          exact hread

/-- Only the offset of file `f` changes. -/
def Core.Offset (c d : Core) (f : Nat) : Prop := ∃ off, d = c.setFile f { c.ftable f with off := off }

theorem Core.Offset.refl (c : Core) (f : Nat) : c.Offset c f := by
  refine ⟨(c.ftable f).off, ?_⟩
  unfold setFile
  rw [Function.update_eq_self]

theorem Core.Offset.trans {c d e : Core} {f : Nat} (h1 : c.Offset d f) (h2 : d.Offset e f) :
    c.Offset e f := by
  obtain ⟨o1, rfl⟩ := h1
  obtain ⟨o2, rfl⟩ := h2
  refine ⟨o2, ?_⟩
  unfold setFile
  simp

theorem fileput_offset {f k n1 : Nat} {addr : Str} {r : Int} (h : fileput f i addr k n1 s = .ok (r, t)) :
    (core s).Offset (core t) f := by
  unfold fileput at h
  obtain ⟨v, s1, h1, h⟩ := code_bind.mp h
  obtain ⟨w, s2, h2, h⟩ := code_bind.mp h
  obtain ⟨hlock, hcore⟩ := ilock_core h2
  rw [beginOp_core h1] at hlock hcore
  rw [get_bind] at h
  obtain ⟨n, s3, h3, h⟩ := code_bind.mp h
  have hwrite := writei_core h3
  split at h
  · obtain ⟨x, s4, h4, h⟩ := code_bind.mp h
    obtain ⟨y, s5, h5, h⟩ := code_bind.mp h
    obtain ⟨z, s6, h6, h⟩ := code_bind.mp h
    cases h
    refine ⟨((core s).ftable f).off + r.toNat, ?_⟩
    rw [endOp_core h6, (iunlock_core h5).2, advance_core h4, hwrite, hcore]
    change (((((core s).ops 1).setLock i true).setLock i false).ops (-1)).setFile f _ = _
    rw [Core.setLock_setLock, Core.setLock_self hlock, Core.ops_ops]
    simp only [add_neg_cancel, Core.ops_zero]
    rfl
  · obtain ⟨y, s5, h5, h⟩ := code_bind.mp h
    obtain ⟨z, s6, h6, h⟩ := code_bind.mp h
    cases h
    have hsame : core t = core s := by
      rw [endOp_core h6, (iunlock_core h5).2, hwrite, hcore, Core.setLock_setLock,
        Core.setLock_self hlock, Core.ops_ops]
      simp
    rw [hsame]
    exact Core.Offset.refl _ f

theorem filewriteLoop_offset {f n : Nat} {addr : Str} (fuel : Nat) : ∀ {k r : Nat} {s : State},
    filewriteLoop f i addr n fuel k s = .ok (r, t) → (core s).Offset (core t) f := by
  induction fuel with
  | zero =>
    intro k r s h
    cases h
    exact Core.Offset.refl _ f
  | succ fuel ih =>
    intro k r s h
    unfold filewriteLoop at h
    split at h
    · dsimp only at h
      obtain ⟨m, s1, h1, h⟩ := code_bind.mp h
      have hput := fileput_offset h1
      split at h
      · cases h
        exact hput
      · split at h
        · exact hput.trans (ih h)
        · cases h
    · cases h
      exact Core.Offset.refl _ f

theorem filewrite_effect {f : Nat} {addr : Str} {n r : Int} (h : filewrite f addr n s = .ok (r, t)) :
    Effect page (core s) (core t) := by
  unfold filewrite at h
  rw [get_bind] at h
  split at h
  · cases h
    exact .same
  · cases htype : (s.ftable f).type with
    | pipe q =>
      rw [htype] at h
      exact pipewrite_effect h
    | none =>
      rw [htype] at h
      cases h
    | inode i =>
      rw [htype] at h
      obtain ⟨k, s1, h1, h⟩ := code_bind.mp h
      cases h
      obtain ⟨off, hoff⟩ := filewriteLoop_offset _ h1
      rw [hoff]
      exact .offset off

theorem sysWrite_effect {fd n : Option Int} {p : Option Str} {r : Int}
    (h : sysWrite fd p n s = .ok (r, t)) : Effect page (core s) (core t) := by
  unfold sysWrite at h
  obtain ⟨a, s1, h1, h⟩ := code_bind.mp h
  obtain ⟨rfl, -⟩ := argfd_core h1
  cases a with
  | none =>
    cases h
    exact .same
  | some q =>
    cases n with
    | none =>
      cases h
      exact .same
    | some n =>
      cases p with
      | none =>
        cases h
        exact .same
      | some addr => exact filewrite_effect h

/-! ### `open`, `chdir` and `pipe` -/

theorem Core.closePipe_grab (c : Core) (q i : Nat) (w : Bool) (n m : Int) (b : Bool) :
    (((c.ops n).bump i m).setLock i b).closePipe q w =
      (((c.closePipe q w).ops n).bump i m).setLock i b := by
  unfold closePipe
  split
  · unfold endPipe
    change (if (c.pipe q).readopen = false ∧ false = false then _ else _) =
      Core.setLock (bump (ops (if (c.pipe q).readopen = false ∧ false = false then _ else _) n) i m) i b
    split
    · rfl
    · rfl
  · unfold endPipe
    change (if false = false ∧ (c.pipe q).writeopen = false then _ else _) =
      Core.setLock (bump (ops (if false = false ∧ (c.pipe q).writeopen = false then _ else _) n) i m) i b
    split
    · rfl
    · rfl

theorem Core.close_shared {c : Core} {f : Nat} (h : 0 < (c.ftable f).ref - 1) :
    c.close f = c.setFile f { c.ftable f with ref := (c.ftable f).ref - 1 } := if_pos h

theorem Core.close_none {c : Core} {f : Nat} (h : ¬ 0 < (c.ftable f).ref - 1)
    (ht : (c.ftable f).type = .none) :
    c.close f = c.setFile f { c.ftable f with ref := 0, type := .none } := by
  unfold close
  rw [if_neg h, ht]

theorem Core.close_inode {c : Core} {f i : Nat} (h : ¬ 0 < (c.ftable f).ref - 1)
    (ht : (c.ftable f).type = .inode i) :
    c.close f = (c.setFile f { c.ftable f with ref := 0, type := .none }).bump i (-1) := by
  unfold close
  rw [if_neg h, ht]

theorem Core.close_pipe {c : Core} {f q : Nat} (h : ¬ 0 < (c.ftable f).ref - 1)
    (ht : (c.ftable f).type = .pipe q) :
    c.close f = (c.setFile f { c.ftable f with ref := 0, type := .none }).closePipe q
      (c.ftable f).writable := by
  unfold close
  rw [if_neg h, ht]

theorem Core.locked_closePipe (c : Core) (q : Nat) (w : Bool) : (c.closePipe q w).locked = c.locked := by
  unfold closePipe endPipe
  split
  · split <;> rfl
  · split <;> rfl

theorem Core.locked_close (c : Core) (f : Nat) : (c.close f).locked = c.locked := by
  by_cases h : 0 < (c.ftable f).ref - 1
  · rw [close_shared h]
    rfl
  · cases ht : (c.ftable f).type with
    | none =>
      rw [close_none h ht]
      rfl
    | inode i =>
      rw [close_inode h ht]
      rfl
    | pipe q =>
      rw [close_pipe h ht, locked_closePipe]
      rfl

/-- Closing a file does not depend on a lock, a transaction or another reference. -/
theorem Core.close_grab (c : Core) (f i : Nat) (n m : Int) (b : Bool) :
    (((c.ops n).bump i m).setLock i b).close f = (((c.close f).ops n).bump i m).setLock i b := by
  obtain ⟨d, hd⟩ : ∃ d, d = ((c.ops n).bump i m).setLock i b := ⟨_, rfl⟩
  have hf : d.ftable f = c.ftable f := by
    rw [hd]
    rfl
  rw [← hd]
  by_cases h : 0 < (c.ftable f).ref - 1
  · rw [close_shared h, close_shared (by rw [hf]; exact h), hf, hd]
    rfl
  · have h' : ¬ 0 < (d.ftable f).ref - 1 := by
      rw [hf]
      exact h
    cases ht : (c.ftable f).type with
    | none =>
      rw [close_none h ht, close_none h' (by rw [hf]; exact ht), hf, hd]
      rfl
    | inode j =>
      rw [close_inode h ht, close_inode h' (by rw [hf]; exact ht), hf, hd]
      change ((((c.setFile f _).bump i m).bump j (-1)).setLock i b).ops n = _
      rw [bump_comm]
      rfl
    | pipe q =>
      rw [close_pipe h ht, close_pipe h' (by rw [hf]; exact ht), hf, hd]
      exact closePipe_grab (c.setFile f { c.ftable f with ref := 0, type := .none }) q i
        (c.ftable f).writable n m b

theorem openFile_effect {s0 : State} {ip omode : Nat} {r : Int} (hlock : (core s0).locked ip = false)
    (hs : core s = (((core s0).ops 1).bump ip 1).setLock ip true)
    (h : openFile ip omode s = .ok (r, t)) : Effect page (core s0) (core t) := by
  -- unlocking, giving back and ending the transaction
  have hundo : ∀ c : Core, c.locked ip = false →
      (((((c.ops 1).bump ip 1).setLock ip true).setLock ip false).bump ip (-1)).ops (-1) = c := by
    intro c hc
    have hc' : ((c.ops 1).bump ip 1).locked ip = false := hc
    rw [Core.setLock_setLock, Core.setLock_self hc', Core.bump_bump]
    simp
  unfold openFile at h
  obtain ⟨o, s1, h1, h⟩ := code_bind.mp h
  obtain ⟨hnone, hsome⟩ := filealloc_core h1
  cases o with
  | none =>
    obtain ⟨v, s2, h2, h⟩ := code_bind.mp h
    obtain ⟨w, s3, h3, h⟩ := code_bind.mp h
    cases h
    refine .of_eq ?_
    rw [endOp_core h3, (iunlockput_core h2).2, hnone rfl, hs, hundo _ hlock]
  | some f =>
    obtain ⟨hlt, href, halloc⟩ := hsome f rfl
    rw [hs] at href halloc
    have hfree : (core s0).FreeFile f := ⟨hlt, href⟩
    obtain ⟨q, s2, h2, h⟩ := code_bind.mp h
    obtain ⟨hnone', hsome'⟩ := fdalloc_core h2
    cases q with
    | none =>
      obtain ⟨v, s3, h3, h⟩ := code_bind.mp h
      obtain ⟨w, s4, h4, h⟩ := code_bind.mp h
      obtain ⟨x, s5, h5, h⟩ := code_bind.mp h
      cases h
      obtain ⟨-, hclose⟩ := fileclose_core h3
      have hfinal : core t = ((core s0).allocFile f).close f := by
        rw [endOp_core h5, (iunlockput_core h4).2, hclose, hnone' rfl, halloc]
        change ((((((((core s0).allocFile f).ops 1).bump ip 1).setLock ip true).close f).setLock ip
          false).bump ip (-1)).ops (-1) = _
        rw [Core.close_grab]
        refine hundo _ ?_
        rw [Core.locked_close]
        exact hlock
      rw [hfinal]
      exact .noFd hfree
    | some fd =>
      obtain ⟨hfd, hofile, hset⟩ := hsome' fd rfl
      obtain ⟨v, s3, h3, h⟩ := code_bind.mp h
      obtain ⟨w, s4, h4, h⟩ := code_bind.mp h
      rw [modify_bind] at h
      cases h
      have hfinal : core s4 = (((core s0).allocFile f).setFd fd (some f)).bump ip 1 := by
        rw [endOp_core h4, (iunlock_core h3).2, hset, halloc]
        change ((((((((core s0).allocFile f).setFd fd (some f)).bump ip 1).setLock ip true).setLock ip
          false).ops 1).ops (-1)) = _
        have hlock' : ((((core s0).allocFile f).setFd fd (some f)).bump ip 1).locked ip = false := hlock
        rw [Core.setLock_setLock, Core.setLock_self hlock', Core.ops_ops]
        simp
      have hofile' : (core s0).Fd fd none := by
        rw [halloc] at hofile
        exact ⟨hfd, hofile⟩
      change Effect page (core s0) ((core s4).setFile f { (core s4).ftable f with
        type := .inode ip
        off := 0
        readable := decide (omode &&& O_WRONLY = 0)
        writable := decide (omode &&& O_WRONLY ≠ 0 ∨ omode &&& O_RDWR ≠ 0) })
      rw [hfinal]
      exact .opened _ _ hfree hofile'

theorem sysOpen_effect {path : Option (List UInt8)} {omode : Option Nat} {r : Int}
    (h : sysOpen path omode s = .ok (r, t)) : Effect page (core s) (core t) := by
  unfold sysOpen at h
  cases path with
  | none =>
    cases h
    exact .same
  | some path =>
    cases omode with
    | none =>
      cases h
      exact .same
    | some omode =>
      obtain ⟨v, s1, h1, h⟩ := code_bind.mp h
      have hbegin := beginOp_core h1
      split at h
      · obtain ⟨o, s2, h2, h⟩ := code_bind.mp h
        obtain ⟨hnone, hsome⟩ := create_core h2
        cases o with
        | none =>
          obtain ⟨w, s3, h3, h⟩ := code_bind.mp h
          cases h
          refine .of_eq ?_
          rw [endOp_core h3, hnone rfl, hbegin]
          simp
        | some ip =>
          obtain ⟨hlock, hcore⟩ := hsome ip rfl
          rw [hbegin] at hlock hcore
          exact openFile_effect hlock hcore h
      · obtain ⟨o, s2, h2, h⟩ := code_bind.mp h
        have hname := namei_core h2
        cases o with
        | none =>
          obtain ⟨w, s3, h3, h⟩ := code_bind.mp h
          cases h
          refine .of_eq ?_
          rw [endOp_core h3, hname, hbegin]
          change ((core s).ops 1).ops (-1) = core s
          simp
        | some ip =>
          have hname' : core s2 = ((core s).ops 1).bump ip 1 := by
            rw [hname, hbegin]
            rfl
          obtain ⟨w, s3, h3, h⟩ := code_bind.mp h
          obtain ⟨hlock, hcore⟩ := ilock_core h3
          rw [hname'] at hlock hcore
          rw [get_bind] at h
          split at h
          · obtain ⟨x, s4, h4, h⟩ := code_bind.mp h
            obtain ⟨y, s5, h5, h⟩ := code_bind.mp h
            cases h
            refine .of_eq ?_
            rw [endOp_core h5, lock_put h3 h4 rfl, hname', Core.bump_bump]
            simp
          · exact openFile_effect hlock hcore h

theorem sysChdir_effect {path : Option (List UInt8)} {r : Int} (h : sysChdir path s = .ok (r, t)) :
    Effect page (core s) (core t) := by
  unfold sysChdir at h
  obtain ⟨v, s1, h1, h⟩ := code_bind.mp h
  have hbegin := beginOp_core h1
  cases path with
  | none =>
    obtain ⟨w, s2, h2, h⟩ := code_bind.mp h
    cases h
    refine .of_eq ?_
    rw [endOp_core h2, hbegin]
    simp
  | some path =>
    obtain ⟨o, s2, h2, h⟩ := code_bind.mp h
    have hname := namei_core h2
    cases o with
    | none =>
      obtain ⟨w, s3, h3, h⟩ := code_bind.mp h
      cases h
      refine .of_eq ?_
      rw [endOp_core h3, hname, hbegin]
      change ((core s).ops 1).ops (-1) = core s
      simp
    | some ip =>
      have hname' : core s2 = ((core s).ops 1).bump ip 1 := by
        rw [hname, hbegin]
        rfl
      obtain ⟨w, s3, h3, h⟩ := code_bind.mp h
      obtain ⟨-, hcore⟩ := ilock_core h3
      rw [get_bind] at h
      split at h
      · obtain ⟨x, s4, h4, h⟩ := code_bind.mp h
        obtain ⟨y, s5, h5, h⟩ := code_bind.mp h
        cases h
        refine .of_eq ?_
        rw [endOp_core h5, lock_put h3 h4 rfl, hname', Core.bump_bump]
        simp
      · obtain ⟨x, s4, h4, h⟩ := code_bind.mp h
        have hunlock := lock_unlock h3 h4 rfl
        have hproc : s3.procs s3.proc = (core s).procs (core s).proc := by
          change (core s3).procs (core s3).proc = _
          rw [hcore, hname']
          rfl
        rw [hproc] at h
        cases hcd : ((core s).procs (core s).proc).cdir with
        | none =>
          rw [hcd] at h
          cases h
        | some old =>
          rw [hcd] at h
          obtain ⟨y, s5, h5, h⟩ := code_bind.mp h
          obtain ⟨z, s6, h6, h⟩ := code_bind.mp h
          rw [modify_bind] at h
          cases h
          have hfinal : core s6 = ((core s).bump ip 1).bump old (-1) := by
            rw [endOp_core h6, iput_core h5, hunlock, hname', Core.bump_ops, Core.bump_ops, Core.ops_ops]
            simp
          change Effect page (core s) ((core s6).setCdir ip)
          rw [hfinal]
          exact .chdir hcd

/-- `pipealloc` either fails or returns both ends of a new pipe. -/
theorem pipealloc_core {mem : Option Nat} {r : Option (Nat × Nat)} (h : pipealloc mem s = .ok (r, t)) :
    (r = none → Effect mem (core s) (core t)) ∧ ∀ f0 f1, r = some (f0, f1) → ∃ q, mem = some q ∧
      (core s).FreeFile f0 ∧ ((core s).allocFile f0).FreeFile f1 ∧
        core t = (((core s).allocFile f0).allocFile f1).setEnds q f0 f1 := by
  unfold pipealloc at h
  obtain ⟨o, s1, h1, h⟩ := code_bind.mp h
  obtain ⟨hnone, hsome⟩ := filealloc_core h1
  cases o with
  | none =>
    cases h
    exact ⟨fun _ => .of_eq (hnone rfl), fun _ _ hr => nomatch hr⟩
  | some f0 =>
    obtain ⟨hlt0, href0, halloc0⟩ := hsome f0 rfl
    obtain ⟨o', s2, h2, h⟩ := code_bind.mp h
    obtain ⟨hnone', hsome'⟩ := filealloc_core h2
    cases o' with
    | none =>
      obtain ⟨v, s3, h3, h⟩ := code_bind.mp h
      cases h
      refine ⟨fun _ => ?_, fun _ _ hr => nomatch hr⟩
      rw [(fileclose_core h3).2, hnone' rfl, halloc0]
      exact .noFd ⟨hlt0, href0⟩
    | some f1 =>
      obtain ⟨hlt1, href1, halloc1⟩ := hsome' f1 rfl
      rw [halloc0] at href1 halloc1
      cases mem with
      | none =>
        obtain ⟨v, s3, h3, h⟩ := code_bind.mp h
        obtain ⟨w, s4, h4, h⟩ := code_bind.mp h
        cases h
        refine ⟨fun _ => ?_, fun _ _ hr => nomatch hr⟩
        rw [(fileclose_core h4).2, (fileclose_core h3).2, halloc1]
        exact .noPage ⟨hlt0, href0⟩ ⟨hlt1, href1⟩
      | some q =>
        dsimp only at h
        rw [modify_bind, modify_bind, modify_bind] at h
        cases h
        refine ⟨fun hr => (nomatch hr), ?_⟩
        intro g0 g1 hg
        cases hg
        refine ⟨q, rfl, ⟨hlt0, href0⟩, ⟨hlt1, href1⟩, ?_⟩
        change (core s2).setEnds q f0 f1 = _
        rw [halloc1]
        rfl

theorem sysPipe_effect {fd : Bool} {mem : Option Nat} {r : Int} (h : sysPipe fd mem s = .ok (r, t)) :
    Effect mem (core s) (core t) := by
  unfold sysPipe at h
  split at h
  · obtain ⟨o, s1, h1, h⟩ := code_bind.mp h
    obtain ⟨hnone, hsome⟩ := pipealloc_core h1
    cases o with
    | none =>
      cases h
      exact hnone rfl
    | some p =>
      obtain ⟨f0, f1⟩ := p
      obtain ⟨q, hmem, hfree0, hfree1, hcore⟩ := hsome f0 f1 rfl
      obtain ⟨o0, s2, h2, h⟩ := code_bind.mp h
      obtain ⟨hfail0, hfd0⟩ := fdalloc_core h2
      rw [hcore] at hfail0 hfd0
      cases o0 with
      | none =>
        obtain ⟨v, s3, h3, h⟩ := code_bind.mp h
        obtain ⟨w, s4, h4, h⟩ := code_bind.mp h
        cases h
        rw [(fileclose_core h4).2, (fileclose_core h3).2, hfail0 rfl]
        exact .noPipeFd hmem hfree0 hfree1
      | some fd0 =>
        obtain ⟨hlt0, hofile0, hset0⟩ := hfd0 fd0 rfl
        obtain ⟨o1, s3, h3, h⟩ := code_bind.mp h
        obtain ⟨hfail1, hfd1⟩ := fdalloc_core h3
        rw [hset0] at hfail1 hfd1
        cases o1 with
        | none =>
          obtain ⟨v, s4, h4, h⟩ := code_bind.mp h
          obtain ⟨w, s5, h5, h⟩ := code_bind.mp h
          obtain ⟨x, s6, h6, h⟩ := code_bind.mp h
          cases h
          have hclear : core s4 = (core s3).setFd fd0 none := by
            cases h4
            rfl
          rw [(fileclose_core h6).2, (fileclose_core h5).2, hclear, hfail1 rfl]
          exact .oneFd hmem hfree0 hfree1 ⟨hlt0, hofile0⟩
        | some fd1 =>
          obtain ⟨hlt1, hofile1, hset1⟩ := hfd1 fd1 rfl
          cases h
          rw [hset1]
          exact .piped hmem hfree0 hfree1 ⟨hlt0, hofile0⟩ ⟨hlt1, hofile1⟩
  · cases h
    exact .same

/-- **What a call can do.** -/
theorem code_effect {c : Call} {r : Int} (h : c.code s = .ok (r, t)) :
    Effect c.page (core s) (core t) := by
  cases c with
  | dup fd => exact sysDup_effect h
  | read fd p n => exact sysRead_effect h
  | write fd p n => exact sysWrite_effect h
  | close fd => exact sysClose_effect h
  | fstat fd st => exact sysFstat_effect h
  | link old new =>
    refine .of_eq ?_
    change sysLink old new s = .ok (r, t) at h
    cases old with
    | none =>
      cases h
      rfl
    | some old =>
      cases new with
      | none =>
        cases h
        rfl
      | some new => exact link_core h
  | unlink path =>
    refine .of_eq ?_
    change sysUnlink path s = .ok (r, t) at h
    cases path with
    | none =>
      cases h
      rfl
    | some path => exact unlink_core h
  | «open» path omode => exact sysOpen_effect h
  | mkdir path => exact .of_eq (sysMkdir_core h)
  | mknod path major minor => exact .of_eq (sysMknod_core h)
  | chdir path => exact sysChdir_effect h
  | pipe fd mem => exact sysPipe_effect h
  | exec path setupkvm alloc => exact .of_eq (exec_core h)

end Yonix.Fs
