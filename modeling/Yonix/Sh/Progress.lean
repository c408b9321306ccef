/-
  Yonix/Sh/Progress.lean
  ======================
  **No job waits for ever.**

  A program can have to wait for its standard input while the pipe is empty and somebody
  can still write to it, and for its standard output while the pipe is full and somebody
  can still read from it.  The kernel says nothing more of the two (`pipe_sleepers_wait`),
  so what the pipes hold is left open here.

  A reader waits for processes further left in the command, a shell for processes further
  down, and a writer for processes further right.  The deepest and leftmost process of all
  can only be a writer; and if the rightmost writer had to wait, then there would be
  another one on the right side of its pipe.
-/
import Yonix.Sh.Jobs
import Yonix.Sync.Pipe

namespace Yonix.Sh

open Sync.Pipes (PIPESIZE)

variable {α : Type}

/-! ### Who waits -/

namespace Job

def Live (m : Job α) (p : Nat) : Prop := ∃ q, m.procs p = some q ∧ q.work ≠ .zombie

/-- Some process has the file open. -/
def Holds (m : Job α) (x : File α) : Prop := ∃ p q, m.procs p = some q ∧ some x ∈ q.fds

/-- A program that may have to wait for its standard input; `level` is what the pipes hold. -/
def Reads (m : Job α) (level : Pos → Nat) (p : Nat) (ρ : Pos) : Prop :=
  ∃ q argv, m.procs p = some q ∧ q.work = .running argv ∧ q.fds[0]? = some (some (.rd ρ)) ∧ level ρ = 0 ∧
    m.Holds (.wr ρ)

/-- A program that may have to wait for its standard output. -/
def Writes (m : Job α) (level : Pos → Nat) (p : Nat) (ρ : Pos) : Prop :=
  ∃ q argv, m.procs p = some q ∧ q.work = .running argv ∧ q.fds[1]? = some (some (.wr ρ)) ∧
    level ρ = PIPESIZE.toNat ∧ m.Holds (.rd ρ)

def Blocked (m : Job α) (level : Pos → Nat) (p : Nat) : Prop := ∃ ρ, m.Reads level p ρ ∨ m.Writes level p ρ

/-- Nobody can go on. -/
def Stuck (m : Job α) (level : Pos → Nat) : Prop := ∀ a n, m.Step a n → m.Blocked level a.p

end Job

/-! ### Places in order -/

theorem lt_of_below {π κ : Pos} {b : Bool} (h : π ++ [b] <+: κ) : π < κ := by
  obtain ⟨t, rfl⟩ := h
  rw [List.append_assoc]
  calc π = π ++ [] := (List.append_nil π).symm
    _ < π ++ ([b] ++ t) := List.append_left_lt (List.nil_lt_cons b t)

/-- What is on the right comes before what is on the left. -/
theorem right_lt_left {ρ π κ : Pos} (hπ : ρ ++ [false] <+: π) (hκ : ρ ++ [true] <+: κ) : π < κ := by
  obtain ⟨s, rfl⟩ := hπ
  obtain ⟨t, rfl⟩ := hκ
  rw [List.append_assoc, List.append_assoc]
  exact List.append_left_lt (List.cons_lt_cons_iff.mpr (.inl rfl))

/-! ### A process that waits -/

/-- A program, or a shell in `wait`. -/
inductive Work.Rests : Work α → Prop
  | running (argv : List α) : Rests (.running argv)
  | wait (next : Sys α) : Rests (.shell (.wait next))

/-- A process that rests has the streams of its place and nothing else. -/
theorem Form.rests {c : Cmd α} {w : Work α} {fds : Fds α} {n : Note α} (hf : Form c w fds n) (hw : w.Rests) :
    ∃ c' i o, Part c n.π c' i o ∧ fds = table i o := by
  cases hf with
  | run π c' i o h => exact ⟨c', i, o, h, rfl⟩
  | running π argv c' i o h => exact ⟨c', i, o, h, rfl⟩
  | listed π left right i o h => exact ⟨_, i, o, h, rfl⟩
  | waits π left right i o h => exact ⟨_, i, o, h, rfl⟩
  | waitsOnce π left right i o h => exact ⟨_, i, o, h, rfl⟩
  | _ => cases hw

theorem mem_table {i o x : File α} (h : some x ∈ table i o) : x = i ∨ x = o ∨ x = .base 2 := by
  unfold table at h
  rw [List.mem_cons, List.mem_cons, List.mem_cons, List.mem_replicate] at h
  rcases h with h | h | h | ⟨-, h⟩
  · exact .inl (Option.some.inj h)
  · exact .inr (.inl (Option.some.inj h))
  · exact .inr (.inr (Option.some.inj h))
  · cases h

theorem Work.step_isSome {w : Work α} (h : w ≠ .zombie) (fds : Fds α) (ok : Bool) : ∃ eff, w.step fds ok = some eff := by
  cases w with
  | zombie => exact absurd rfl h
  | running argv => exact ⟨_, rfl⟩
  | shell code =>
    cases code with
    | openFile file mode next =>
      rw [step]
      split
      · exact ⟨_, rfl⟩
      · exact ⟨_, rfl⟩
    | dup fd next =>
      rw [step]
      split
      · split
        · exact ⟨_, rfl⟩
        · exact ⟨_, rfl⟩
      · exact ⟨_, rfl⟩
    | pipe π next =>
      rw [step]
      split
      · split
        · exact ⟨_, rfl⟩
        · exact ⟨_, rfl⟩
      · exact ⟨_, rfl⟩
    | _ => exact ⟨_, rfl⟩

theorem Work.step_waits {w work : Work α} {fds : Fds α} {ok : Bool} (h : w.step fds ok = some (.waits work)) :
    w.Rests := by
  cases w with
  | zombie => cases h
  | running argv => exact .running argv
  | shell code =>
    cases code with
    | wait next => exact .wait next
    | openFile file mode next =>
      rw [step] at h
      split at h
      · cases h
      · cases h
    | dup fd next =>
      rw [step] at h
      split at h
      · split at h
        · cases h
        · cases h
      · cases h
    | pipe π next =>
      rw [step] at h
      split at h
      · split at h
        · cases h
        · cases h
      · cases h
    | fork next =>
      cases ok with
      | true => cases h
      | false => cases h
    | exec argv next =>
      cases ok with
      | true => cases h
      | false => cases h
    | _ => cases h

/-! ### Nobody can go on -/

section Stuck

variable {c : Cmd α} {m : Job α} {note : Nat → Note α} {level : Pos → Nat} {p : Nat} {q : Proc α} {ρ : Pos}

theorem Job.Blocked.running (h : m.Blocked level p) (hq : m.procs p = some q) : ∃ argv, q.work = .running argv := by
  obtain ⟨ρ, ⟨q', argv, hq', hw, -⟩ | ⟨q', argv, hq', hw, -⟩⟩ := h
  · rw [hq] at hq'
    cases hq'
    exact ⟨argv, hw⟩
  · rw [hq] at hq'
    cases hq'
    exact ⟨argv, hw⟩

/-- A process that cannot go on waits for a pipe or for a child. -/
theorem Job.Stuck.waits (hstuck : m.Stuck level) (hq : m.procs p = some q) (hw : q.work ≠ .zombie) :
    q.work.Rests ∧ (m.Blocked level p ∨ ∃ r q', m.procs r = some q' ∧ q'.parent = p ∧ q'.work ≠ .zombie) := by
  obtain ⟨eff, heff⟩ := Work.step_isSome hw q.fds true
  have hgo : ∀ r n, m.apply ⟨p, true, r⟩ q eff = some n →
      q.work.Rests ∧ (m.Blocked level p ∨ ∃ r q', m.procs r = some q' ∧ q'.parent = p ∧ q'.work ≠ .zombie) := by
    intro r n happly
    have hblocked : m.Blocked level p := hstuck ⟨p, true, r⟩ n (Job.act_eq_some.mpr ⟨q, eff, hq, heff, happly⟩)
    obtain ⟨argv, hrun⟩ := hblocked.running hq
    rw [hrun]
    exact ⟨.running argv, .inl hblocked⟩
  cases eff with
  | waits work =>
    by_cases hz : ∃ r, m.isZombie p r = true
    · obtain ⟨r, hr⟩ := hz
      exact hgo r _ (if_pos hr)
    · by_cases hc : (m.children p).Nonempty
      · obtain ⟨r, hr⟩ := hc
        obtain ⟨-, q', hq', hpar⟩ := Job.mem_children.mp hr
        refine ⟨Work.step_waits heff, .inr ⟨r, q', hq', hpar, fun hzombie => hz ⟨r, ?_⟩⟩⟩
        exact Job.isZombie_iff.mpr ⟨q', hq', hpar, hzombie⟩
      · exact hgo 0 _ ((if_neg fun h => hz ⟨0, h⟩).trans (if_neg hc))
  | goes work fds => exact hgo 0 _ rfl
  | execs argv => exact hgo 0 _ rfl
  | forks work child => exact hgo 0 _ rfl
  | exits => exact hgo 0 _ rfl

/-- Whoever has the write end of a pipe is on its left side. -/
theorem Job.Stuck.holds_wr (hstuck : m.Stuck level) (hF : Family c m note) (h : m.Holds (.wr ρ)) :
    ∃ p, m.Live p ∧ ρ ++ [true] <+: (note p).π := by
  obtain ⟨p, q, hq, hmem⟩ := h
  have hform := hF.form p q hq
  by_cases hz : q.work = .zombie
  · rw [hz] at hform
    generalize note p = n at hform
    cases hform with
    | zombie π fds k hfds =>
      have hnone := hfds _ hmem
      cases hnone
  · obtain ⟨c', i, o, hpart, hfds⟩ := hform.rests (hstuck.waits hq hz).1
    rw [hfds] at hmem
    rcases mem_table hmem with h | h | h
    · exact absurd h.symm hpart.in_ne_wr
    · exact ⟨p, ⟨q, hq, hz⟩, hpart.outs h.symm⟩
    · cases h

/-- Whoever has the read end of a pipe is on its right side. -/
theorem Job.Stuck.holds_rd (hstuck : m.Stuck level) (hF : Family c m note) (h : m.Holds (.rd ρ)) :
    ∃ p, m.Live p ∧ ρ ++ [false] <+: (note p).π ∧ ∃ left right i o, Part c ρ (.pipe left right) i o := by
  obtain ⟨p, q, hq, hmem⟩ := h
  have hform := hF.form p q hq
  by_cases hz : q.work = .zombie
  · rw [hz] at hform
    generalize note p = n at hform
    cases hform with
    | zombie π fds k hfds =>
      have hnone := hfds _ hmem
      cases hnone
  · obtain ⟨c', i, o, hpart, hfds⟩ := hform.rests (hstuck.waits hq hz).1
    rw [hfds] at hmem
    rcases mem_table hmem with h | h | h
    · exact ⟨p, ⟨q, hq, hz⟩, hpart.ins h.symm⟩
    · exact absurd h.symm hpart.out_ne_rd
    · cases h

/-- The place of a program that waits for its standard input. -/
theorem Job.Reads.part (hF : Family c m note) (h : m.Reads level p ρ) :
    ∃ c' o, Part c (note p).π c' (.rd ρ) o := by
  obtain ⟨q, argv, hq, hw, hfd, -, -⟩ := h
  obtain ⟨c', i, o, hpart, hfds⟩ := (hF.form p q hq).rests (by rw [hw]; exact .running argv)
  rw [hfds] at hfd
  cases hfd
  exact ⟨c', o, hpart⟩

theorem Job.Writes.part (hF : Family c m note) (h : m.Writes level p ρ) :
    ∃ c' i, Part c (note p).π c' i (.wr ρ) := by
  obtain ⟨q, argv, hq, hw, hfd, -, -⟩ := h
  obtain ⟨c', i, o, hpart, hfds⟩ := (hF.form p q hq).rests (by rw [hw]; exact .running argv)
  rw [hfds] at hfd
  cases hfd
  exact ⟨c', i, hpart⟩

/-- The deepest and leftmost of some processes waits to write, if what the others wait for is among them. -/
theorem Job.Stuck.exists_writer (hstuck : m.Stuck level) (hF : Family c m note) {T : Nat → Prop}
    (hlive : ∀ p, T p → m.Live p) (hne : ∃ p, T p)
    (hchild : ∀ p r, T p → m.Live r → (∃ b, (note p).π ++ [b] <+: (note r).π) → T r)
    (hread : ∀ p r ρ, T p → m.Reads level p ρ → m.Live r → ρ ++ [true] <+: (note r).π → T r) :
    ∃ p ρ, T p ∧ m.Writes level p ρ := by
  have hfin : {p | T p}.Finite := (Set.finite_lt_nat m.next).subset fun p hp => by
    obtain ⟨q, hq, -⟩ := hlive p hp
    exact (hF.next p q hq).2.1
  obtain ⟨p, hp, hmax⟩ := Set.exists_max_image _ (fun p => (note p).π) hfin hne
  obtain ⟨q, hq, hz⟩ := hlive p hp
  rcases (hstuck.waits hq hz).2 with ⟨ρ, hreads | hwrites⟩ | ⟨r, q', hr, hpar, hz'⟩
  · obtain ⟨c', o, hpart⟩ := hreads.part hF
    have hholds := hreads
    obtain ⟨-, -, -, -, -, -, hholds⟩ := hholds
    obtain ⟨r, hr, hplace⟩ := hstuck.holds_wr hF hholds
    have hle := hmax r (hread p r ρ hp hreads hr hplace)
    exact absurd (right_lt_left (hpart.ins rfl).1 hplace) (not_lt_of_ge hle)
  · exact ⟨p, ρ, hp, hwrites⟩
  · obtain ⟨b, hb⟩ := hF.nest p q r q' hq hr hpar
    have hle := hmax r (hchild p r hp ⟨q', hr, hz'⟩ ⟨b, hb⟩)
    exact absurd (lt_of_below hb) (not_lt_of_ge hle)

/-- If nobody can go on, then all have ended. -/
theorem Job.Stuck.ended (hstuck : m.Stuck level) (hF : Family c m note) (p : Nat) : ¬ m.Live p := by
  intro hp
  obtain ⟨p₀, ρ₀, hlive₀, hw₀⟩ := hstuck.exists_writer hF (fun _ h => h) ⟨p, hp⟩ (fun _ _ _ h _ => h)
    fun _ _ _ _ _ h _ => h
  have hfin : {p | ∃ ρ, m.Writes level p ρ}.Finite := (Set.finite_lt_nat m.next).subset fun p hp => by
    obtain ⟨ρ, q, argv, hq, -⟩ := hp
    exact (hF.next p q hq).2.1
  obtain ⟨p, ⟨ρ, hw⟩, hmin⟩ := Set.exists_min_image _ (fun p => (note p).π) hfin ⟨p₀, ρ₀, hw₀⟩
  obtain ⟨c', i, hpart⟩ := hw.part hF
  have hleft := hpart.outs rfl
  obtain ⟨-, -, -, -, -, hlevel, hholds⟩ := hw
  obtain ⟨h, hh, hright, left, right, i₁, o₁, hpipe⟩ := hstuck.holds_rd hF hholds
  -- the right side of its pipe
  have hside : ∃ p₁ ρ₁, (m.Live p₁ ∧ ρ ++ [false] <+: (note p₁).π) ∧ m.Writes level p₁ ρ₁ := by
    refine hstuck.exists_writer hF (fun _ h => h.1) ⟨h, hh, hright⟩ ?_ ?_
    · rintro p r ⟨-, hp⟩ hr ⟨b, hb⟩
      exact ⟨hr, hp.trans ((List.prefix_append _ _).trans hb)⟩
    · rintro p r ρ' ⟨-, hp⟩ hreads hr hplace
      obtain ⟨c'', o, hpart'⟩ := hreads.part hF
      obtain ⟨-, -, -, -, -, hlevel', -⟩ := hreads
      have hpre := hpipe.inner hpart' hp rfl
      have hne : ρ' ≠ ρ := by
        rintro rfl
        rw [hlevel] at hlevel'
        exact absurd hlevel' (by decide)
      have hlen : ρ.length < ρ'.length := lt_of_le_of_ne hpre.length_le fun h => hne (hpre.eq_of_length h).symm
      have hin : ρ ++ [false] <+: ρ' := by
        refine List.prefix_of_prefix_length_le hp ((List.prefix_append ρ' [false]).trans (hpart'.ins rfl).1) ?_
        rw [List.length_append, List.length_singleton]
        exact hlen
      exact ⟨hr, hin.trans ((List.prefix_append _ _).trans hplace)⟩
  obtain ⟨p₁, ρ₁, ⟨-, hp₁⟩, hw₁⟩ := hside
  exact absurd (right_lt_left hp₁ hleft) (not_lt_of_ge (hmin p₁ ⟨ρ₁, hw₁⟩))

end Stuck

/-! ### Every job -/

section Runs

variable {c : Cmd α} {as : List Turn} {m : Job α}

/-- Whatever the pipes hold, some process can go on until all have ended. -/
theorem never_deadlocks (hc : c.Std) (hr : Run Job.Step (start c) as m) (level : Pos → Nat) (hlive : ∃ p, m.Live p) :
    ∃ a n, m.Step a n ∧ ¬ m.Blocked level a.p := by
  obtain ⟨note, done, hB⟩ := Books.run hc hr
  obtain ⟨p, hp⟩ := hlive
  by_contra hno
  have hstuck : m.Stuck level := by
    intro a n hs
    by_contra hb
    exact hno ⟨a, n, hs, hb⟩
  exact hstuck.ended hB.family p hp

theorem never_deadlocks_pair : ∃ m, Run Job.Step (start pair) pairTurns m ∧ m.Live 2 ∧
    ∃ a n, m.Step a n ∧ ¬ m.Blocked (fun _ => 0) a.p := by
  obtain ⟨m, hrun, -, hsome, hzombie⟩ := pairTurns_run
  obtain ⟨q, hq⟩ := Option.isSome_iff_exists.mp hsome
  have hlive : m.Live 2 := by
    refine ⟨q, hq, fun hw => ?_⟩
    rw [hq, Option.any_some, Proc.isZombie, hw] at hzombie
    cases hzombie
  exact ⟨m, hrun, hlive, never_deadlocks pair_std hrun _ ⟨2, hlive⟩⟩

/-- A job ends, and if nothing failed it has executed all its programs with their streams. -/
theorem job_ends (hc : c.Std) (hr : Run Job.Step (start c) as m) :
    as.length ≤ cost c ∧ ((∀ a n, ¬ m.Step a n) → (∀ p, ¬ m.Live p) ∧
      ((∀ a ∈ as, a.ok = true) →
        (m.log : Multiset (List α × Fds α)) = (leaves [] c (.base 0) (.base 1)).map Leaf.entry)) := by
  obtain ⟨note, done, hB⟩ := Books.run hc hr
  refine ⟨(Nat.le_add_right _ _).trans hB.clock, ?_⟩
  intro hstop
  have hended : ∀ p, ¬ m.Live p := by
    have hstuck : m.Stuck fun _ => 0 := fun a n hs => absurd hs (hstop a n)
    exact hstuck.ended hB.family
  refine ⟨hended, fun hok => ?_⟩
  have hzero : pends m.next note = 0 := by
    refine Finset.sum_eq_zero fun p _ => ?_
    cases hq : m.procs p with
    | none => exact (hB.family.gone p hq).1
    | some q =>
      have hform := hB.family.form p q hq
      have hz : q.work = .zombie := by
        by_contra hz
        exact hended p ⟨q, hq, hz⟩
      rw [hz] at hform
      generalize note p = n at hform
      cases hform
      rfl
  have hfull := hB.full hok
  rw [hzero, add_zero] at hfull
  rw [← hB.log, hfull, Multiset.map_coe]

end Runs

/-! ### Lines -/

theorem denote_wrap {c : Tree} (hc : c.Std) (rs : List Redir) : (rs.foldl Redir.wrap c).Std := by
  induction rs generalizing c with
  | nil => exact hc
  | cons r rs ih =>
    refine ih ⟨?_, hc⟩
    unfold Redir.fd
    split
    · exact Nat.two_pos
    · exact Nat.one_lt_two

theorem background_std {c : Tree} (hc : c.Std) (amps : Nat) : (background c amps).Std := by
  induction amps generalizing c with
  | zero => exact hc
  | succ n ih => exact ih (c := .back c) hc

/-- The parser redirects standard input and output only. -/
theorem Deriv.denote_std {k : Symbol} (d : Deriv k) : d.denote.Std := by
  induction d with
  | last p amps ih => exact background_std ih amps
  | seq p amps l ihp ihl => exact ⟨background_std ihp amps, ihl⟩
  | one e ih => exact ih
  | pipe e p ihe ihp => exact ⟨ihe, ihp⟩
  | block l rs ih => exact denote_wrap ih rs
  | simple items => exact denote_wrap (c := .exec _) trivial _

/-- **A line runs.**  The job of an accepted line makes a bounded number of calls.  Where it
    stops, all its processes have ended; and if nothing failed, then the programs that were
    executed are those of the line's derivation, each once and with its streams. -/
theorem line_ends {s buf : List UInt8} {c : Cmd Span} {as : List Turn} {m : Job (List UInt8)} (hs : ∀ x ∈ s, x ≠ NUL)
    (h : parsecmd s = .ok (c, buf))
    (hr : Run Job.Step (start (c.map fun w => strAt s.length buf w.q)) as m) :
    ∃ d : Deriv .line, d.yield = tokens s ∧ as.length ≤ cost d.denote ∧
      ((∀ a n, ¬ m.Step a n) → (∀ p, ¬ m.Live p) ∧
        ((∀ a ∈ as, a.ok = true) → (m.log : Multiset (List (List UInt8) × Fds (List UInt8))) =
          (leaves [] d.denote (.base 0) (.base 1)).map Leaf.entry)) := by
  obtain ⟨d, -, hyield, hdenote⟩ := parsecmd_ok hs h
  rw [hdenote] at hr
  exact ⟨d, hyield, job_ends d.denote_std hr⟩

def pairLine : List UInt8 := [97, 124, 98]

theorem pairLine_ok : ∀ x ∈ pairLine, x ≠ NUL := by simp [pairLine, NUL]

theorem line_ends_pair : ∃ c buf m, parsecmd pairLine = .ok (c, buf) ∧
    Run Job.Step (start (c.map fun w => strAt pairLine.length buf w.q)) pairTurns m ∧
    ∃ d : Deriv .line, d.yield = tokens pairLine ∧ pairTurns.length ≤ cost d.denote := by
  have hpair : (parsecmd pairLine).map (fun r => r.1.map fun w => strAt pairLine.length r.2 w.q) = .ok pair := by
    decide
  cases h : parsecmd pairLine with
  | error e =>
    rw [h] at hpair
    cases hpair
  | ok r =>
    rw [h] at hpair
    obtain ⟨m, hrun, -⟩ := pairTurns_run
    rw [← Except.ok.inj hpair] at hrun
    obtain ⟨d, hyield, hlen, -⟩ := line_ends pairLine_ok h hrun
    exact ⟨r.1, r.2, m, rfl, hrun, d, hyield, hlen⟩

end Yonix.Sh
