/-
  Yonix/Proc/Family.lean
  ======================
  **Page directories and the slots that use them.**

  A light-weight process shares the directory of the process it belongs to, and
  nothing counts the sharers.  `Family` is the discipline under which that is safe:
  every light-weight process is a child of the live process whose directory it uses,
  and no two processes use the same directory.  The operations keep it as long as
  `wait` reaps no light-weight process and a process has joined its own before it
  exits or replaces its image; then whatever `wait` and `exec` free is in nobody
  else's use.
-/
import Yonix.Proc.Sched

namespace Yonix.Proc

/-! ### The family discipline -/

structure Family (s : Kernel) : Prop where
  wf : Wf s
  embryo : ∀ p, (s.proc p).stat ≠ .SEMBRYO
  mapped : ∀ p, (s.proc p).stat ≠ .SUNUSED →
    (s.proc p).page ≠ 0 ∧ s.live (s.proc p).page = true
  distinct : ∀ p q, (s.proc p).stat ≠ .SUNUSED → (s.proc q).stat ≠ .SUNUSED →
    (s.proc p).procp = true → (s.proc q).procp = true → (s.proc p).page = (s.proc q).page → p = q
  lwp : ∀ p, (s.proc p).stat ≠ .SUNUSED → (s.proc p).procp = false →
    ∃ r, (s.proc p).prt = some r ∧ (s.proc r).stat ≠ .SUNUSED ∧ (s.proc r).stat ≠ .SZOMB ∧
      (s.proc r).procp = true ∧ (s.proc r).page = (s.proc p).page

/-- Nothing about the families changes. -/
structure SameFam (s t : Kernel) : Prop where
  unused : ∀ p, (t.proc p).stat = .SUNUSED ↔ (s.proc p).stat = .SUNUSED
  embryo : ∀ p, (t.proc p).stat = .SEMBRYO ↔ (s.proc p).stat = .SEMBRYO
  zomb : ∀ p, (t.proc p).stat = .SZOMB ↔ (s.proc p).stat = .SZOMB
  procp : ∀ p, (s.proc p).stat ≠ .SUNUSED → (t.proc p).procp = (s.proc p).procp
  prt : ∀ p, (s.proc p).stat ≠ .SUNUSED → (t.proc p).prt = (s.proc p).prt
  page : ∀ p, (s.proc p).stat ≠ .SUNUSED → (t.proc p).page = (s.proc p).page
  live : t.live = s.live

theorem SameFam.refl (s : Kernel) : SameFam s s := by
  constructor <;> simp

theorem SameFam.trans {s t u : Kernel} (h1 : SameFam s t) (h2 : SameFam t u) : SameFam s u := by
  constructor <;> grind -ring -linarith [SameFam]

theorem SameFam.family {s t : Kernel} (h : SameFam s t) (hf : Family s) (hwf : Wf t) :
    Family t := by
  obtain ⟨h1, h2, h3, h4, h5, h6, h7⟩ := h
  refine ⟨hwf, ?_, ?_, ?_, ?_⟩
  · grind -ring -linarith [Family]
  · grind -ring -linarith [Family]
  · grind -ring -linarith [Family]
  · intro p hp hproc
    have hp' : (s.proc p).stat ≠ .SUNUSED := by grind -ring -linarith
    obtain ⟨r, hr1, hr2, hr3, hr4, hr5⟩ := hf.lwp p hp' (by grind -ring -linarith)
    exact ⟨r, by grind -ring -linarith, by grind -ring -linarith, by grind -ring -linarith, by grind -ring -linarith, by grind -ring -linarith⟩

/-! ### The operations that leave the families alone -/

theorem sameFam_enqueue (s : Kernel) (p : Slot) : SameFam s (enqueue s p) := by
  unfold enqueue insertFifo insertDy
  split <;> constructor <;> simp

theorem sameFam_set {s : Kernel} {p : Slot} {f : Pcb → Pcb}
    (hstat : ∀ st, st = Stat.SUNUSED ∨ st = .SEMBRYO ∨ st = .SZOMB →
      ((f (s.proc p)).stat = st ↔ (s.proc p).stat = st))
    (hprocp : (f (s.proc p)).procp = (s.proc p).procp) (hprt : (f (s.proc p)).prt = (s.proc p).prt)
    (hpage : (f (s.proc p)).page = (s.proc p).page) : SameFam s (s.set p f) := by
  have h1 := hstat .SUNUSED (by simp)
  have h2 := hstat .SEMBRYO (by simp)
  have h3 := hstat .SZOMB (by simp)
  constructor <;> simp only [Kernel.set, Function.update_apply] <;> grind -ring -linarith

theorem wakeup_sameFam (s : Kernel) (e : Option Chan) : SameFam s (wakeup s e) := by
  unfold wakeup
  refine List.foldlRecOn slots _ (SameFam.refl s) ?_
  intro t ht p _
  split
  · rename_i h
    refine ht.trans (SameFam.trans (sameFam_set ?_ rfl rfl rfl) (sameFam_enqueue _ p))
    grind -ring -linarith
  · exact ht

theorem kill_sameFam (s : Kernel) (pid : Nat) : SameFam s (kill s pid) := by
  unfold kill
  split
  · refine sameFam_set ?_ rfl rfl rfl
    grind -ring -linarith
  · exact SameFam.refl s

theorem giveup_sameFam {s t : Kernel} {p : Slot} (hp : (s.proc p).stat = .SRUN)
    (h : giveupCpu s p = .ok t) : SameFam s t := by
  obtain ⟨u, hu, h⟩ := bind_eq_ok.mp h
  rw [transform_eq_ok h]
  have h1 : SameFam s (s.set p fun q => { q with stat := .READY, resume := .user }) := by
    refine sameFam_set ?_ rfl rfl rfl
    grind -ring -linarith
  have h2 := h1.trans (sameFam_enqueue _ p)
  have h3 : SameFam (enqueue (s.set p fun q => { q with stat := .READY, resume := .user }) p) u := by
    generalize enqueue (s.set p fun q => { q with stat := .READY, resume := .user }) p = v at hu
    unfold after at hu
    split at hu
    · cases hu
      exact sameFam_set (by simp [timeslice]) rfl rfl rfl
    · cases hu
      exact sameFam_set (by simp [timeslice]) rfl rfl rfl
    · dsimp only at hu
      split at hu
      · cases hu
        constructor <;> simp only [insertDy, Kernel.set, timeslice, Function.update_apply] <;> grind -ring -linarith
      · cases hu
  have h4 := h2.trans h3
  exact ⟨h4.unused, h4.embryo, h4.zomb, h4.procp, h4.prt, h4.page, h4.live⟩

theorem timesliceYield_sameFam {s t : Kernel} {p : Slot} (hp : (s.proc p).stat = .SRUN)
    (h : timesliceYield s p = .ok t) : SameFam s t := by
  unfold timesliceYield at h
  split at h
  · cases h
    exact SameFam.refl s
  · dsimp only at h
    have hset : SameFam s (s.set p fun q => { q with
        timeSlice := q.timeSlice - TIMER_INTERVAL, avgslp := max (-50) (q.avgslp - 1) }) :=
      sameFam_set (by simp) rfl rfl rfl
    split at h
    · refine hset.trans (giveup_sameFam ?_ h)
      simp only [Kernel.set, Function.update_self, hp]
    · cases h
      exact hset

theorem sched_live {s u : Kernel} {o : Option Slot} (h : sched s = (u, o)) : u.live = s.live := by
  unfold sched schedFifo schedRr schedPriority at h
  split at h <;> split at h <;> (try split at h) <;> cases h <;> rfl

theorem sleep_sameFam {s t : Kernel} {p : Slot} {e : Option Chan} {loop : Loop}
    (hp : (s.proc p).stat = .SRUN) (h : sleep s p e loop = .ok t) : SameFam s t := by
  rw [sleep_spec h]
  constructor <;> simp only [Kernel.set, Function.update_apply] <;> grind -ring -linarith

theorem select_sameFam {s t : Kernel} {p : Slot} {scheme : Scheme} {slabEmpty : Bool}
    (h : selectScheme s p scheme slabEmpty = .ok t) : SameFam s t := by
  rcases selectScheme_spec h with ⟨-, rfl⟩ | ⟨-, l, -, rfl⟩ | ⟨-, l, rfl⟩ <;>
    constructor <;> simp

theorem recalcTimeslice_sameFam (s : Kernel) : SameFam s (recalcTimeslice s) := by
  unfold recalcTimeslice
  refine List.foldlRecOn slots _ (SameFam.refl s) ?_
  intro t ht p _
  split
  · refine ht.trans (sameFam_set ?_ ?_ ?_ ?_)
    · simp [timeslice_stat]
    all_goals cases t.scheme <;> rfl
  · exact ht

/-! ### Creating and ending -/

/-- A new member: slot `n`, unused before. -/
structure Born (s t : Kernel) (n : Slot) : Prop where
  before : (s.proc n).stat = .SUNUSED
  after : (t.proc n).stat = .READY
  other : ∀ q, q ≠ n → t.proc q = s.proc q

theorem procalloc_born {s t : Kernel} {stack : Bool} {o : Option Slot} (h : Family s)
    (hp : procalloc s stack = (t, o)) :
    (o = none ∧ SameFam s t) ∨ ∃ n, o = some n ∧ (s.proc n).stat = .SUNUSED ∧
      (∀ q, q ≠ n → t.proc q = s.proc q) ∧ (t.proc n).stat = .SEMBRYO ∧ t.live = s.live := by
  unfold procalloc at hp
  split at hp
  · cases hp
    exact Or.inl ⟨rfl, SameFam.refl _⟩
  · rename_i n l hl
    have hn : (s.proc n).stat = .SUNUSED := h.wf.free n (by simp [hl])
    dsimp only at hp
    split at hp
    · cases hp
      right
      refine ⟨n, rfl, hn, ?_, ?_, rfl⟩
      · intro q hq
        simp only [Kernel.set, Function.update_of_ne hq]
      · simp only [Kernel.set, Function.update_self, timeslice_stat]
    · cases hp
      left
      refine ⟨rfl, ?_⟩
      constructor <;> simp only [Kernel.set, Function.update_apply] <;> grind -ring -linarith

theorem enqueue_live (s : Kernel) (p : Slot) : (enqueue s p).live = s.live := by
  unfold enqueue insertFifo insertDy
  split <;> rfl

theorem fork_born {s : Kernel} (h : Family s) (p : Slot) (m : Mem) :
    SameFam s (fork s p m) ∨ ∃ n d, m = .pages d ∧ Born s (fork s p m) n ∧
      ((fork s p m).proc n).procp = true ∧ ((fork s p m).proc n).page = d ∧
      (fork s p m).live = Function.update s.live d true := by
  unfold fork
  split
  · rename_i t ht
    rcases procalloc_born h ht with ⟨-, hs⟩ | ⟨n, hn, -⟩
    · exact Or.inl hs
    · cases hn
  · rename_i t n ht
    rcases procalloc_born h ht with ⟨hn, -⟩ | ⟨n', hn, hunused, hother, hstat, hlive⟩
    · cases hn
    · cases hn
      split
      · rename_i d
        right
        refine ⟨n, d, rfl, ⟨hunused, ?_, ?_⟩, ?_, ?_, ?_⟩
        · rw [enqueue_proc]
          simp only [Kernel.set, Function.update_self]
        · intro q hq
          rw [enqueue_proc]
          simp only [Kernel.set, Function.update_of_ne hq]
          exact hother q hq
        · rw [enqueue_proc]
          simp only [Kernel.set, Function.update_self]
        · rw [enqueue_proc]
          simp only [Kernel.set, Function.update_self]
        · rw [enqueue_live]
          simp only [Kernel.set, hlive]
      · left
        constructor <;> simp only [Kernel.set, Function.update_apply] <;> grind -ring -linarith

/-- A new process with a directory of its own. -/
theorem Family.born {s t : Kernel} (h : Family s) (hwf : Wf t) {n : Slot} {d : Nat}
    (hb : Born s t n) (hprocp : (t.proc n).procp = true) (hpage : (t.proc n).page = d)
    (hlive : t.live = Function.update s.live d true) (hfresh : s.Fresh d) : Family t := by
  obtain ⟨hb1, hb2, hb3⟩ := hb
  refine ⟨hwf, ?_, ?_, ?_, ?_⟩
  · intro q
    by_cases hq : q = n
    · simp [hq, hb2]
    · rw [hb3 q hq]
      exact h.embryo q
  · intro q
    have := h.mapped q
    by_cases hq : q = n
    · intro _
      rw [hq, hpage, hlive]
      exact ⟨hfresh.1, Function.update_self _ _ _⟩
    · rw [hb3 q hq, hlive, Function.update_apply]
      grind -ring -linarith
  · intro q r
    have := h.mapped q
    have := h.mapped r
    have := h.distinct q r
    have := hfresh.2
    grind -ring -linarith
  · intro q hq hproc
    have hqn : q ≠ n := by grind -ring -linarith
    rw [hb3 q hqn] at hq hproc ⊢
    obtain ⟨r, hr1, hr2, hr3, hr4, hr5⟩ := h.lwp q hq hproc
    have hrn : r ≠ n := by grind -ring -linarith
    refine ⟨r, hr1, ?_⟩
    rw [hb3 r hrn]
    exact ⟨hr2, hr3, hr4, hr5⟩

theorem Family.fork {s : Kernel} (h : Family s) {p : Slot} {m : Mem} (hm : memOk s m = true) :
    Family (fork s p m) := by
  have hwf := h.wf.moves (fork_moves s p m)
  rcases fork_born h p m with hs | ⟨n, d, rfl, hb, hprocp, hpage, hlive⟩
  · exact hs.family h hwf
  · exact h.born hwf hb hprocp hpage hlive (of_decide_eq_true hm)

theorem lwpCreate_born {s : Kernel} (h : Family s) {p : Slot} (hp : (s.proc p).stat = .SRUN)
    (stack : Bool) :
    SameFam s (lwpCreate s p stack) ∨ ∃ n, Born s (lwpCreate s p stack) n ∧
      ((lwpCreate s p stack).proc n).procp = false ∧
      ((lwpCreate s p stack).proc n).page = (s.proc p).page ∧
      ((lwpCreate s p stack).proc n).prt =
        (if (s.proc p).procp then some p else (s.proc p).prt) ∧
      (lwpCreate s p stack).live = s.live := by
  unfold lwpCreate
  split
  · rename_i t ht
    rcases procalloc_born h ht with ⟨-, hs⟩ | ⟨n, hn, -⟩
    · exact Or.inl hs
    · cases hn
  · rename_i t n ht
    rcases procalloc_born h ht with ⟨hn, -⟩ | ⟨n', hn, hunused, hother, hstat, hlive⟩
    · cases hn
    · cases hn
      have hpn : p ≠ n := by grind -ring -linarith
      have htp := hother p hpn
      have hpage := (h.mapped p (by simp [hp])).1
      dsimp only
      split
      · rename_i hzero
        simp only [Kernel.set, Function.update_self, htp] at hzero
        exact absurd hzero hpage
      · right
        refine ⟨n, ⟨hunused, ?_, ?_⟩, ?_, ?_, ?_, ?_⟩
        · rw [enqueue_proc]
          simp only [Kernel.set, Function.update_self]
        · intro q hq
          rw [enqueue_proc]
          simp only [Kernel.set, Function.update_of_ne hq]
          exact hother q hq
        · rw [enqueue_proc]
          simp only [Kernel.set, Function.update_self]
        · rw [enqueue_proc]
          simp only [Kernel.set, Function.update_self, htp]
        · rw [enqueue_proc]
          simp only [Kernel.set, Function.update_self, Function.update_of_ne hpn, htp]
        · rw [enqueue_live]
          simp only [Kernel.set, hlive]

theorem Family.lwpCreate {s : Kernel} (h : Family s) {p : Slot} (hp : (s.proc p).stat = .SRUN)
    (stack : Bool) : Family (lwpCreate s p stack) := by
  have hwf := h.wf.moves (lwpCreate_moves s p stack)
  rcases lwpCreate_born h hp stack with hs | ⟨n, ⟨hb1, hb2, hb3⟩, hprocp, hpage, hprt, hlive⟩
  · exact hs.family h hwf
  · generalize Proc.lwpCreate s p stack = t at *
    have hpn : p ≠ n := by grind -ring -linarith
    refine ⟨hwf, ?_, ?_, ?_, ?_⟩
    · intro q
      by_cases hq : q = n
      · simp [hq, hb2]
      · rw [hb3 q hq]
        exact h.embryo q
    · intro q
      have := h.mapped q
      have := h.mapped p
      grind -ring -linarith
    · intro q r
      have := h.distinct q r
      grind -ring -linarith
    · intro q hq hproc
      by_cases hqn : q = n
      · -- its parent is the creator or, for the child of a thread, the creator's parent
        rw [hqn, hprt, hpage]
        cases hpp : (s.proc p).procp with
        | true =>
          refine ⟨p, by simp, ?_⟩
          rw [hb3 p hpn]
          simp [hp, hpp]
        | false =>
          obtain ⟨r, hr1, hr2, hr3, hr4, hr5⟩ := h.lwp p (by simp [hp]) hpp
          have hrn : r ≠ n := by grind -ring -linarith
          refine ⟨r, by simp [hr1], ?_⟩
          rw [hb3 r hrn]
          exact ⟨hr2, hr3, hr4, hr5⟩
      · rw [hb3 q hqn] at hq hproc ⊢
        obtain ⟨r, hr1, hr2, hr3, hr4, hr5⟩ := h.lwp q hq hproc
        have hrn : r ≠ n := by grind -ring -linarith
        refine ⟨r, hr1, ?_⟩
        rw [hb3 r hrn]
        exact ⟨hr2, hr3, hr4, hr5⟩

/-- Like `SameFam`, but children of `p` may have got another parent. -/
structure Adopted (p : Slot) (s t : Kernel) : Prop where
  unused : ∀ q, (t.proc q).stat = .SUNUSED ↔ (s.proc q).stat = .SUNUSED
  embryo : ∀ q, (t.proc q).stat = .SEMBRYO ↔ (s.proc q).stat = .SEMBRYO
  zomb : ∀ q, (t.proc q).stat = .SZOMB ↔ (s.proc q).stat = .SZOMB
  procp : ∀ q, (s.proc q).stat ≠ .SUNUSED → (t.proc q).procp = (s.proc q).procp
  prt : ∀ q, (s.proc q).stat ≠ .SUNUSED → (t.proc q).prt = (s.proc q).prt ∨ (s.proc q).prt = some p
  page : ∀ q, (s.proc q).stat ≠ .SUNUSED → (t.proc q).page = (s.proc q).page
  live : t.live = s.live

theorem Adopted.trans {p : Slot} {s t u : Kernel} (h1 : Adopted p s t) (h2 : Adopted p t u) :
    Adopted p s u := by
  constructor <;> grind -ring -linarith [Adopted]

theorem SameFam.adopted {s t : Kernel} (h : SameFam s t) (p : Slot) : Adopted p s t := by
  constructor <;> grind -ring -linarith [SameFam]

theorem reparent_adopted (s : Kernel) (p : Slot) : Adopted p s (reparent s p) := by
  unfold reparent
  refine List.foldlRecOn slots _ ((SameFam.refl s).adopted p) ?_
  intro t ht q _
  dsimp only
  split
  · rename_i hq
    have hset : Adopted p t (t.set q fun x => { x with prt := some t.initproc }) := by
      constructor <;> simp only [Kernel.set, Function.update_apply] <;> grind -ring -linarith
    split
    · exact (ht.trans hset).trans ((wakeup_sameFam _ _).adopted p)
    · exact ht.trans hset
  · exact ht

/-- No light-weight process of `p` is left unjoined. -/
def Joined (s : Kernel) (p : Slot) : Prop :=
  ∀ q, (s.proc q).stat ≠ .SUNUSED → (s.proc q).procp = false → (s.proc q).prt ≠ some p

theorem Family.exit {s t : Kernel} (h : Family s) {p : Slot} (hcur : s.cur = some p)
    (hj : (s.proc p).procp = true → Joined s p) (hx : exit s p = .ok t) : Family t := by
  have hwf := h.wf.moves (exit_moves hcur hx)
  have hrun := h.wf.cur p hcur
  unfold Proc.exit at hx
  split at hx
  · cases hx
  · have ht := transform_eq_ok hx
    have hu := ((wakeup_sameFam s ((s.proc p).prt.map .proc)).adopted p).trans
      (reparent_adopted _ p)
    generalize reparent (wakeup s ((s.proc p).prt.map .proc)) p = u at *
    obtain ⟨h1, h2, h3, h4, h5, h6, h7⟩ := hu
    have hstat : ∀ q, (t.proc q).stat = if q = p then .SZOMB else (u.proc q).stat := by
      intro q
      rw [ht]
      simp only [Kernel.set, Function.update_apply]
      split <;> rfl
    have hrest : ∀ q, (t.proc q).procp = (u.proc q).procp ∧ (t.proc q).prt = (u.proc q).prt ∧
        (t.proc q).page = (u.proc q).page := by
      intro q
      rw [ht]
      simp only [Kernel.set, Function.update_apply]
      split <;> simp_all
    have hused : ∀ q, (t.proc q).stat ≠ .SUNUSED → (s.proc q).stat ≠ .SUNUSED := by
      intro q
      rw [hstat q]
      grind -ring -linarith
    have hlive : t.live = s.live := by
      rw [ht]
      exact h7
    refine ⟨hwf, ?_, ?_, ?_, ?_⟩
    · intro q
      have := h.embryo q
      rw [hstat q]
      grind -ring -linarith
    · intro q hq
      have hq' := hused q hq
      rw [(hrest q).2.2, h6 q hq', hlive]
      exact h.mapped q hq'
    · intro q r hq hr
      have hq' := hused q hq
      have hr' := hused r hr
      rw [(hrest q).1, (hrest r).1, (hrest q).2.2, (hrest r).2.2, h4 q hq', h4 r hr', h6 q hq',
        h6 r hr']
      exact h.distinct q r hq' hr'
    · intro q hq hproc
      have hq' := hused q hq
      rw [(hrest q).1, h4 q hq'] at hproc
      obtain ⟨r, hr1, hr2, hr3, hr4, hr5⟩ := h.lwp q hq' hproc
      have hrp : r ≠ p := by
        rintro rfl
        exact hj hr4 q hq' hproc hr1
      have hprt : (u.proc q).prt = some r := by grind -ring -linarith
      refine ⟨r, (hrest q).2.1.trans hprt, ?_⟩
      rw [hstat r, if_neg hrp, (hrest r).1, (hrest r).2.2, (hrest q).2.2, h4 r hr2, h6 r hr2,
        h6 q hq']
      refine ⟨?_, ?_, hr4, hr5⟩
      · grind -ring -linarith
      · grind -ring -linarith

/-! ### Freeing directories -/

/-- The directory is in use, and by no slot but the one it is freed for. -/
def FreeOk (f : Freed) : Prop :=
  f.now.live f.d = true ∧
    ∀ q, q ≠ f.p → (f.now.proc q).stat ≠ .SUNUSED → (f.now.proc q).page ≠ f.d

/-- A process without unjoined threads is alone in its directory. -/
theorem Family.alone {s : Kernel} (h : Family s) {p : Slot} (hp : (s.proc p).stat ≠ .SUNUSED)
    (hproc : (s.proc p).procp = true)
    (hj : Joined s p) (q : Slot) (hqp : q ≠ p) (hq : (s.proc q).stat ≠ .SUNUSED) :
    (s.proc q).page ≠ (s.proc p).page := by
  intro hpage
  cases hqq : (s.proc q).procp with
  | true => exact hqp (h.distinct q p hq hp hqq hproc hpage)
  | false =>
    obtain ⟨r, hr1, hr2, -, hr4, hr5⟩ := h.lwp q hq hqq
    have hrp : r ≠ p := by
      rintro rfl
      exact hj q hq hqq hr1
    exact hrp (h.distinct r p hr2 hp hr4 hproc (hr5.trans hpage))

theorem Family.joined_zombie {s : Kernel} (h : Family s) {p : Slot}
    (hp : (s.proc p).stat = .SZOMB) : Joined s p := by
  intro q hq hproc hprt
  obtain ⟨r, hr1, -, hr3, -⟩ := h.lwp q hq hproc
  rw [hprt, Option.some.injEq] at hr1
  exact hr3 (hr1 ▸ hp)

/-- Clearing a slot that no thread belongs to, and freeing a directory that no other
    slot uses. -/
theorem Family.reap {s : Kernel} (h : Family s) {p : Slot} (hp : (s.proc p).stat = .SZOMB)
    {live : Nat → Bool} (hlive : ∀ q, q ≠ p → (s.proc q).stat ≠ .SUNUSED →
      live (s.proc q).page = s.live (s.proc q).page) :
    Family (reap { s with live := live } p) := by
  have hframe : Frame s { s with live := live } := by
    constructor <;> first | exact fun _ => rfl | rfl | exact fun _ => Or.inl rfl
  have hwf := (h.wf.move (Move.frame hframe)).move (Move.reap p hp)
  have hj := h.joined_zombie hp
  refine ⟨hwf, ?_, ?_, ?_, ?_⟩
  · intro q
    have := h.embryo q
    simp only [Proc.reap, Kernel.set, Function.update_apply]
    grind -ring -linarith
  · intro q
    have := h.mapped q
    have := hlive q
    simp only [Proc.reap, Kernel.set, Function.update_apply]
    grind -ring -linarith
  · intro q r
    have := h.distinct q r
    simp only [Proc.reap, Kernel.set, Function.update_apply]
    grind -ring -linarith
  · intro q hq hproc
    have hqp : q ≠ p := by
      rintro rfl
      simp [Proc.reap, Kernel.set] at hq
    simp only [Proc.reap, Kernel.set, Function.update_of_ne hqp] at hq hproc ⊢
    obtain ⟨r, hr1, hr2, hr3, hr4, hr5⟩ := h.lwp q hq hproc
    have hrp : r ≠ p := by
      rintro rfl
      exact hj q hq hproc hr1
    refine ⟨r, hr1, ?_⟩
    simp only [Function.update_of_ne hrp]
    exact ⟨hr2, hr3, hr4, hr5⟩

theorem Family.waitLoop {s t : Kernel} (h : Family s) {p : Slot} {l : List Freed}
    (hcur : s.cur = some p) (hz : ∀ q, firstZombie s p = some q → (s.proc q).procp = true)
    (hx : waitLoop s p = .ok (t, l)) : Family t ∧ ∀ f ∈ l, FreeOk f := by
  have hwf := h.wf.moves (waitLoop_moves hcur hx)
  unfold Proc.waitLoop at hx
  split at hx
  · rename_i q hq
    have hzomb := List.find?_some hq
    simp only [decide_eq_true_eq] at hzomb
    have hused : (s.proc q).stat ≠ .SUNUSED := by simp [hzomb.2]
    have halone := h.alone hused (hz q hq) (h.joined_zombie hzomb.2)
    cases hx
    refine ⟨?_, ?_⟩
    · apply h.reap hzomb.2
      intro r hr hr'
      exact Function.update_of_ne (halone r hr hr') _ _
    · intro f hf
      rw [List.mem_singleton.mp hf]
      exact ⟨(h.mapped q hused).2, halone⟩
  · split at hx
    · cases hx
      exact ⟨h, by simp⟩
    · obtain ⟨u, hu, hx⟩ := bind_eq_ok.mp hx
      cases hx
      exact ⟨(sleep_sameFam (h.wf.cur p hcur) hu).family h hwf, by simp⟩

theorem Family.joinLoop {s t : Kernel} (h : Family s) {p : Slot} {l : List Freed}
    (hcur : s.cur = some p) (hx : joinLoop s p = .ok (t, l)) : Family t ∧ l = [] := by
  have hwf := h.wf.moves (joinLoop_moves hcur hx)
  unfold Proc.joinLoop at hx
  split at hx
  · rename_i q hq
    have hzomb := List.find?_some hq
    simp only [decide_eq_true_eq] at hzomb
    cases hx
    exact ⟨h.reap hzomb.2.2 (fun _ _ _ => rfl), rfl⟩
  · split at hx
    · cases hx
      exact ⟨h, rfl⟩
    · obtain ⟨u, hu, hx⟩ := bind_eq_ok.mp hx
      cases hx
      exact ⟨(sleep_sameFam (h.wf.cur p hcur) hu).family h hwf, rfl⟩

theorem Family.execImage {s t : Kernel} (h : Family s) {p : Slot} {e : ExecEnd} {l : List Freed}
    (hcur : s.cur = some p) (hok : endOk s e = true)
    (hj : ∀ d, e = .commit d → (s.proc p).procp = true ∧ Joined s p)
    (hx : execImage s p e = (t, l)) : Family t ∧ ∀ f ∈ l, FreeOk f := by
  have hrun : (s.proc p).stat ≠ .SUNUSED := by simp [h.wf.cur p hcur]
  have hwf : Wf t := by
    have := h.wf.move (Move.frame (execImage_frame s p e))
    rw [hx] at this
    exact this
  cases e with
  | early =>
    cases hx
    exact ⟨h, by simp⟩
  | bad d =>
    have hfresh : s.Fresh d := of_decide_eq_true hok
    cases hx
    refine ⟨?_, ?_⟩
    · have hlive : Function.update (Function.update s.live d true) d false = s.live := by
        rw [Function.update_idem, ← hfresh.2, Function.update_eq_self]
      refine SameFam.family ?_ h hwf
      constructor <;> simp [freeuvm, hlive]
    · intro f hf
      rw [List.mem_singleton.mp hf]
      refine ⟨Function.update_self _ _ _, ?_⟩
      intro q _ hq hpage
      have := (h.mapped q hq).2
      rw [hpage, hfresh.2] at this
      cases this
  | commit d =>
    have hfresh : s.Fresh d := of_decide_eq_true hok
    obtain ⟨hproc, hjoined⟩ := hj d rfl
    have halone := h.alone hrun hproc hjoined
    have hold := h.mapped p hrun
    have hne : (s.proc p).page ≠ d := by
      intro heq
      rw [heq, hfresh.2] at hold
      exact absurd hold.2 (by simp)
    cases hx
    refine ⟨⟨hwf, ?_, ?_, ?_, ?_⟩, ?_⟩
    · intro q
      have := h.embryo q
      simp only [freeuvm, Kernel.set, Function.update_apply]
      grind -ring -linarith
    · intro q
      have := h.mapped q
      have := halone q
      have := hfresh.1
      simp only [freeuvm, Kernel.set, Function.update_apply]
      grind -ring -linarith
    · intro q r
      have := h.distinct q r
      have := h.mapped q
      have := h.mapped r
      have := hfresh.2
      simp only [freeuvm, Kernel.set, Function.update_apply]
      grind -ring -linarith
    · intro q hq hproc'
      have hqp : q ≠ p := by
        rintro rfl
        simp only [freeuvm, Kernel.set, Function.update_self] at hproc'
        rw [hproc] at hproc'
        cases hproc'
      simp only [freeuvm, Kernel.set, Function.update_of_ne hqp] at hq hproc' ⊢
      obtain ⟨r, hr1, hr2, hr3, hr4, hr5⟩ := h.lwp q hq hproc'
      have hrp : r ≠ p := by
        rintro rfl
        exact hjoined q hq hproc' hr1
      refine ⟨r, hr1, ?_⟩
      simp only [Function.update_of_ne hrp]
      exact ⟨hr2, hr3, hr4, hr5⟩
    · intro f hf
      rw [List.mem_singleton.mp hf]
      refine ⟨?_, ?_⟩
      · simp only [Kernel.set, Function.update_of_ne hne]
        exact hold.2
      · intro q hq
        simp only [Kernel.set, Function.update_of_ne hq]
        exact halone q hq

/-! ### The scheduler -/

/-- The process whose `wait` looks through the table in this step. -/
def Waits (s : Kernel) (a : Act) (p : Slot) : Prop :=
  (a = .call .wait ∧ s.cur = some p) ∨
  (a = .scheduler ∧ s.cur = none ∧ (sched s).2 = some p ∧
    ∃ tick0, (s.proc p).resume = .slept tick0 .wait)

/-- The discipline: `wait` reaps processes only, and a process has joined its
    light-weight processes before it exits or replaces its image, which only a process
    does. -/
def Disciplined (s : Kernel) (a : Act) : Prop :=
  (∀ p, s.cur = some p → a = .call .exit → (s.proc p).procp = true → Joined s p) ∧
  (∀ p d, s.cur = some p → a = .call (.exec (.commit d)) →
    (s.proc p).procp = true ∧ Joined s p) ∧
  (∀ p q, Waits s a p → firstZombie s p = some q → (s.proc q).procp = true)

theorem firstZombie_congr {s t : Kernel} {p : Slot}
    (hprt : ∀ q, (t.proc q).prt = (s.proc q).prt)
    (hz : ∀ q, (t.proc q).stat = .SZOMB ↔ (s.proc q).stat = .SZOMB) :
    firstZombie t p = firstZombie s p := by
  unfold firstZombie
  congr 1
  funext q
  rw [hprt q, decide_eq_decide, hz q]

theorem Family.scheduler {s t : Kernel} (h : Family s) {l : List Freed} (hcur : s.cur = none)
    (hd : Disciplined s .scheduler) (hx : scheduler s = .ok (t, l)) :
    Family t ∧ ∀ f ∈ l, FreeOk f := by
  have hwf := h.wf.moves (scheduler_moves hcur hx)
  unfold Proc.scheduler at hx
  split at hx
  · rename_i u hu
    cases hx
    refine ⟨SameFam.family ?_ h hwf, by simp⟩
    obtain ⟨hproc, -⟩ := sched_proc hu
    have hlive : t.live = s.live := sched_live hu
    constructor <;> simp [hproc, hlive]
  · rename_i u p hu
    obtain ⟨hproc, -⟩ := sched_proc hu
    have hlive : u.live = s.live := sched_live hu
    unfold switchTo at hx
    dsimp only at hx
    split at hx
    · cases hx
    · have hres : (({ u with cur := some p }.set p fun q => { q with stat := .SRUN }).proc p).resume =
          (s.proc p).resume := by
        simp only [Kernel.set, Function.update_self, hproc]
      have hfam : (s.proc p).resume ≠ .dead → (s.proc p).resume ≠ .gone →
          Family ({ u with cur := some p }.set p fun q => { q with stat := .SRUN }) ∧
          ∀ q, ((({ u with cur := some p }.set p fun q => { q with stat := .SRUN }).proc q).stat =
            .SZOMB ↔ (s.proc q).stat = .SZOMB) := by
        intro h1 h2
        have hs : SameFam s ({ u with cur := some p }.set p fun q => { q with stat := .SRUN }) := by
          have hgone := h.wf.gone p
          have hdead := h.wf.dead p
          constructor <;> simp only [Kernel.set, Function.update_apply, hproc, hlive] <;> grind -ring -linarith
        exact ⟨hs.family h (h.wf.move (Move.dispatch p hcur hu h1 h2)), hs.zomb⟩
      have hprt : ∀ q, (({ u with cur := some p }.set p fun q => { q with stat := .SRUN }).proc q).prt =
          (s.proc q).prt := by
        intro q
        simp only [Kernel.set, Function.update_apply, hproc]
        split <;> simp_all
      have hprocp : ∀ q, (({ u with cur := some p }.set p fun q =>
          { q with stat := .SRUN }).proc q).procp = (s.proc q).procp := by
        intro q
        simp only [Kernel.set, Function.update_apply, hproc]
        split <;> simp_all
      have hstat : (({ u with cur := some p }.set p fun q => { q with stat := .SRUN }).proc p).stat =
          .SRUN := by
        simp only [Kernel.set, Function.update_self]
      rw [hres] at hx
      generalize hv : ({ u with cur := some p }.set p fun q => { q with stat := .SRUN }) = v at *
      have hvcur : v.cur = some p := by
        rw [← hv]
        rfl
      have hawake : ∀ tick0, SameFam v (awake v p tick0) := by
        intro tick0
        exact sameFam_set (by simp) rfl rfl rfl
      have hawf : ∀ tick0, Wf v → Wf (awake v p tick0) := by
        intro tick0 hw
        exact hw.move (Move.frame (frame_set rfl rfl (Or.inr hstat)))
      split at hx <;> rename_i hat <;>
        simp only [hat, ne_eq, reduceCtorEq, not_false_eq_true, forall_const] at hfam
      · cases hx
        exact ⟨hfam.1, by simp⟩
      · cases hx
        exact ⟨(hawake _).family hfam.1 (hawf _ hfam.1.wf), by simp⟩
      · rename_i tick0
        refine ((hawake tick0).family hfam.1 (hawf _ hfam.1.wf)).waitLoop hvcur ?_ hx
        intro q hq
        have hprt' : ∀ q, ((awake v p tick0).proc q).prt = (s.proc q).prt := by
          intro q
          rw [← hprt q]
          simp only [awake, Kernel.set, Function.update_apply]
          split <;> simp_all
        have hprocp' : ((awake v p tick0).proc q).procp = (s.proc q).procp := by
          rw [← hprocp q]
          simp only [awake, Kernel.set, Function.update_apply]
          split <;> simp_all
        rw [firstZombie_congr hprt' (fun q => ((hawake tick0).zomb q).trans (hfam.2 q))] at hq
        rw [hprocp']
        exact hd.2.2 p q (Or.inr ⟨rfl, hcur, by rw [hu], tick0, hat⟩) hq
      · have := ((hawake _).family hfam.1 (hawf _ hfam.1.wf)).joinLoop hvcur hx
        refine ⟨this.1, ?_⟩
        rw [this.2]
        simp
      · cases hx
      · cases hx

/-! ### Whole runs -/

theorem Family.exec {s t : Kernel} (h : Family s) {a : Act} {l : List Freed}
    (hd : Disciplined s a) (hx : exec s a = .ok (t, l)) : Family t ∧ ∀ f ∈ l, FreeOk f := by
  have hwf := h.wf.exec hx
  have hquiet : SameFam s t → l = [] → Family t ∧ ∀ f ∈ l, FreeOk f := by
    rintro hs rfl
    exact ⟨hs.family h hwf, by simp⟩
  cases a with
  | wakeup e =>
    simp only [Proc.exec, Except.ok.injEq, Prod.mk.injEq] at hx
    obtain ⟨rfl, rfl⟩ := hx
    exact hquiet (wakeup_sameFam s e) rfl
  | tick =>
    cases hx
    exact hquiet (by constructor <;> simp) rfl
  | scheduler =>
    simp only [Proc.exec] at hx
    split at hx
    · cases hx
    · rename_i hcur
      exact h.scheduler hcur hd hx
  | call c =>
    simp only [Proc.exec] at hx
    split at hx
    case h_2 => cases hx
    case h_1 p hcur =>
      have hrun := h.wf.cur p hcur
      cases c with
      | fork m =>
        simp only [call] at hx
        split at hx
        · rename_i hm
          cases hx
          exact ⟨h.fork hm, by simp⟩
        · cases hx
      | lwpCreate stack =>
        cases hx
        exact ⟨h.lwpCreate hrun stack, by simp⟩
      | exec e =>
        simp only [call] at hx
        split at hx
        · rename_i he
          rw [Except.ok.injEq] at hx
          refine h.execImage hcur he ?_ hx
          rintro d rfl
          exact hd.2.1 p d hcur rfl
        · cases hx
      | exit =>
        obtain ⟨u, hu, hx⟩ := bind_eq_ok.mp hx
        cases hx
        exact ⟨h.exit hcur (hd.1 p hcur rfl) hu, by simp⟩
      | wait => exact h.waitLoop hcur (fun q hq => hd.2.2 p q (Or.inl ⟨rfl, hcur⟩) hq) hx
      | lwpJoin =>
        have := h.joinLoop hcur hx
        refine ⟨this.1, ?_⟩
        rw [this.2]
        simp
      | sleep e =>
        obtain ⟨u, hu, hx⟩ := bind_eq_ok.mp hx
        cases hx
        exact hquiet (sleep_sameFam hrun hu) rfl
      | kill pid =>
        cases hx
        exact hquiet (kill_sameFam s pid) rfl
      | giveupCpu =>
        obtain ⟨u, hu, hx⟩ := bind_eq_ok.mp hx
        cases hx
        exact hquiet (giveup_sameFam hrun hu) rfl
      | timesliceYield =>
        obtain ⟨u, hu, hx⟩ := bind_eq_ok.mp hx
        cases hx
        exact hquiet (timesliceYield_sameFam hrun hu) rfl
      | selectScheme scheme slabEmpty =>
        obtain ⟨u, hu, hx⟩ := bind_eq_ok.mp hx
        cases hx
        exact hquiet (select_sameFam hu) rfl
      | recalcTimeslice =>
        simp only [call, Except.ok.injEq, Prod.mk.injEq] at hx
        obtain ⟨rfl, rfl⟩ := hx
        exact hquiet (recalcTimeslice_sameFam s) rfl
      | incnice n =>
        cases hx
        refine hquiet ?_ rfl
        unfold incnice
        dsimp only
        split
        · exact sameFam_set (by simp) rfl rfl rfl
        · exact SameFam.refl s

theorem Family.start : Family start := by
  refine ⟨Wf.start, ?_, ?_, ?_, ?_⟩ <;> simp [Proc.start, unused]

theorem Family.userinit {d : Nat} (hd : d ≠ 0) : Family (userinit Proc.start d) := by
  have hwf := Wf.start.moves (userinit_moves Proc.start d)
  unfold Proc.userinit at hwf ⊢
  split
  · rename_i t ht
    rw [ht] at hwf
    rcases procalloc_born Family.start ht with ⟨-, hs⟩ | ⟨n, hn, -⟩
    · exact hs.family Family.start hwf
    · cases hn
  · rename_i t n ht
    rw [ht] at hwf
    rcases procalloc_born Family.start ht with ⟨hn, -⟩ | ⟨n', hn, hunused, hother, hstat, hlive⟩
    · cases hn
    · cases hn
      refine Family.start.born (d := d) hwf ⟨hunused, ?_, ?_⟩ ?_ ?_ ?_ ⟨hd, rfl⟩
      · rw [enqueue_proc]
        simp only [Kernel.set, Function.update_self]
      · intro q hq
        rw [enqueue_proc]
        simp only [Kernel.set, Function.update_of_ne hq]
        exact hother q hq
      · rw [enqueue_proc]
        simp only [Kernel.set, Function.update_self]
      · rw [enqueue_proc]
        simp only [Kernel.set, Function.update_self]
      · rw [enqueue_live]
        simp only [Kernel.set, hlive]

/-- **Page directories.**  In a run that keeps the discipline, every `freeuvm` of `wait`
    and of `exec` gets a directory that is in use, and only by the slot being reaped or
    replaced. -/
theorem freed_directory_unshared {d : Nat} (hd : d ≠ 0) {as : List Act} {s : Kernel}
    (hrun : Run (fun s a t => Step s a t ∧ Disciplined s a) (userinit start d) as s)
    {a : Act} {t : Kernel} {l : List Freed} (ha : Disciplined s a)
    (hx : exec s a = .ok (t, l)) : ∀ f ∈ l, FreeOk f := by
  have hfam : Family s := by
    refine hrun.invariant Family (Family.userinit hd) ?_
    intro t a u ht hstep
    obtain ⟨⟨l, hl⟩, hc⟩ := hstep
    exact (ht.exec hc hl).1
  exact (hfam.exec ha hx).2

set_option maxRecDepth 20000 in
theorem freed_directory_unshared_exec :
    ∃ s, Run (fun s a t => Step s a t ∧ Disciplined s a) (userinit start 1) [.scheduler] s ∧
      ∃ t f, exec s (.call (.exec (.commit 2))) = .ok (t, [f]) ∧ f.d = 1 ∧ FreeOk f := by
  have hd : Disciplined (userinit start 1) .scheduler := by
    refine ⟨by simp, by simp, ?_⟩
    rintro p q (⟨h, -⟩ | ⟨-, -, hp, tick0, hres⟩)
    · cases h
    · cases hp
      cases hres
  have hrun : Run (fun s a t => Step s a t ∧ Disciplined s a) (userinit start 1) [.scheduler] _ :=
    Run.single ⟨⟨_, rfl⟩, hd⟩
  refine ⟨_, hrun, _, _, rfl, rfl, ?_⟩
  refine freed_directory_unshared (a := .call (.exec (.commit 2))) (by decide) hrun ?_ rfl _
    List.mem_cons_self
  refine ⟨by simp, ?_, ?_⟩
  · rintro p d hp -
    cases hp
    refine ⟨rfl, ?_⟩
    unfold Joined
    decide
  · rintro p q (⟨h, -⟩ | ⟨h, -⟩) <;> cases h

set_option maxRecDepth 20000 in
/-- The first process makes a thread and waits.  The thread exits, `wait` reaps it, and
    frees the directory in which the first process is running. -/
theorem wait_frees_shared_directory :
    ∃ s, Run Step (userinit start 1)
        [.scheduler, .call (.lwpCreate true), .call .wait, .scheduler, .call .exit,
          .scheduler] s ∧
      ∃ t f, exec s .scheduler = .ok (t, [f]) ∧ f.d = 1 ∧ f.p = ⟨1, by decide⟩ ∧
        (f.now.proc ⟨0, by decide⟩).stat = .SRUN ∧ (f.now.proc ⟨0, by decide⟩).page = 1 ∧
        ¬ FreeOk f := by
  refine ⟨_, Run.cons ⟨_, rfl⟩ (Run.cons ⟨_, rfl⟩ (Run.cons ⟨_, rfl⟩ (Run.cons ⟨_, rfl⟩
    (Run.cons ⟨_, rfl⟩ (Run.single ⟨_, rfl⟩))))), _, _, rfl, rfl, rfl, rfl, rfl, ?_⟩
  intro hok
  exact hok.2 ⟨0, by decide⟩ (by decide) (by decide) rfl

end Yonix.Proc
