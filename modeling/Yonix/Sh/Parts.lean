/-
  Yonix/Sh/Parts.lean
  ===================
  **What a process of a job can be doing.**

  A process is always at a place of the command, with the streams of the subcommand which
  is there.  `Form` lists what it can be in the middle of, with its descriptors, the
  leaves it answers for, a bound on the calls that it and its later children can make, and
  a bound on the children it has; `Form.step` is what one call makes of this.
-/
import Yonix.Sh.Runcmd

namespace Yonix.Sh

variable {α : Type}

/-! ### Subcommands and their streams -/

/-- A part of the command at place `π`, and the streams it is run with. -/
def Cmd.part (π : Pos) : Bool → Cmd α → File α → File α → Option (Cmd α × File α × File α)
  | true, .redir cmd file mode fd, i, o =>
    some (if fd = 0 then (cmd, .path file mode, o) else (cmd, i, .path file mode))
  | true, .list left _, i, o => some (left, i, o)
  | false, .list _ right, i, o => some (right, i, o)
  | true, .pipe left _, i, _ => some (left, i, .wr π)
  | false, .pipe _ right, _, o => some (right, .rd π, o)
  | true, .back cmd, i, o => some (cmd, i, o)
  | _, _, _, _ => none

/-- The subcommand at a place, and its streams. -/
inductive Part (c : Cmd α) : Pos → Cmd α → File α → File α → Prop
  | whole : Part c [] c (.base 0) (.base 1)
  | down {π : Pos} {c' c'' : Cmd α} {i o i' o' : File α} {b : Bool} (h : Part c π c' i o)
      (hb : c'.part π b i o = some (c'', i', o')) : Part c (π ++ [b]) c'' i' o'

/-- What a part has from the command that it is part of. -/
structure Cmd.Inherits (π : Pos) (b : Bool) (c : Cmd α) (i o : File α) (c' : Cmd α) (i' o' : File α) : Prop where
  std : c.Std → c'.Std
  ins : i' = i ∨ (∃ file mode, i' = .path file mode) ∨ (b = false ∧ i' = .rd π ∧ ∃ left right, c = .pipe left right)
  outs : o' = o ∨ (∃ file mode, o' = .path file mode) ∨ (b = true ∧ o' = .wr π)

theorem Cmd.part_inherits {c c' : Cmd α} {π : Pos} {b : Bool} {i o i' o' : File α}
    (h : c.part π b i o = some (c', i', o')) : Inherits π b c i o c' i' o' := by
  cases c with
  | exec argv => cases b <;> cases h
  | redir cmd file mode fd =>
    cases b with
    | false => cases h
    | true =>
      rw [part, Option.some.injEq] at h
      split at h
      · cases h
        exact ⟨fun hc => hc.2, .inr (.inl ⟨_, _, rfl⟩), .inl rfl⟩
      · cases h
        exact ⟨fun hc => hc.2, .inl rfl, .inr (.inl ⟨_, _, rfl⟩)⟩
  | list left right =>
    cases b with
    | false =>
      cases h
      exact ⟨fun hc => hc.2, .inl rfl, .inl rfl⟩
    | true =>
      cases h
      exact ⟨fun hc => hc.1, .inl rfl, .inl rfl⟩
  | pipe left right =>
    cases b with
    | false =>
      cases h
      exact ⟨fun hc => hc.2, .inr (.inr ⟨rfl, rfl, _, _, rfl⟩), .inl rfl⟩
    | true =>
      cases h
      exact ⟨fun hc => hc.1, .inl rfl, .inr (.inr ⟨rfl, rfl⟩)⟩
  | back cmd =>
    cases b with
    | false => cases h
    | true =>
      cases h
      exact ⟨fun hc => hc, .inl rfl, .inl rfl⟩

namespace Part

variable {c c' c₁ c₂ left right : Cmd α} {π ρ ρ' : Pos} {i o i₁ o₁ i₂ o₂ : File α}

theorem std (h : Part c π c' i o) (hc : c.Std) : c'.Std := by
  induction h with
  | whole => exact hc
  | down _ hb ih => exact (Cmd.part_inherits hb).std ih

theorem unique (h₁ : Part c π c₁ i₁ o₁) (h₂ : Part c π c₂ i₂ o₂) : c₁ = c₂ ∧ i₁ = i₂ ∧ o₁ = o₂ := by
  induction h₁ generalizing c₂ i₂ o₂ with
  | whole =>
    generalize hl : ([] : Pos) = l at h₂
    cases h₂ with
    | whole => exact ⟨rfl, rfl, rfl⟩
    | down _ _ => simp at hl
  | down _ hb ih =>
    rename_i π' _ _ _ _ _ _ b _
    generalize hl : π' ++ [b] = l at h₂
    cases h₂ with
    | whole => simp at hl
    | down h hb' =>
      obtain ⟨rfl, hlast⟩ := List.append_inj' hl rfl
      cases hlast
      obtain ⟨rfl, rfl, rfl⟩ := ih h
      rw [hb] at hb'
      cases hb'
      exact ⟨rfl, rfl, rfl⟩

/-- A write end is that of a `|` which the part is on the left of. -/
theorem outs (h : Part c π c' i o) (ho : o = .wr ρ) : ρ ++ [true] <+: π := by
  induction h with
  | whole => cases ho
  | down h hb ih =>
    obtain ho' | ⟨_, _, ho'⟩ | ⟨rfl, ho'⟩ := (Cmd.part_inherits hb).outs
    · exact (ih (ho'.symm.trans ho)).trans (List.prefix_append _ _)
    · rw [ho'] at ho
      cases ho
    · rw [ho'] at ho
      cases ho
      exact List.prefix_refl _

/-- A read end is that of a `|` which the part is on the right of. -/
theorem ins (h : Part c π c' i o) (hi : i = .rd ρ) :
    ρ ++ [false] <+: π ∧ ∃ left right i' o', Part c ρ (.pipe left right) i' o' := by
  induction h with
  | whole => cases hi
  | down h hb ih =>
    obtain hi' | ⟨_, _, hi'⟩ | ⟨rfl, hi', left, right, rfl⟩ := (Cmd.part_inherits hb).ins
    · obtain ⟨hpre, hpart⟩ := ih (hi'.symm.trans hi)
      exact ⟨hpre.trans (List.prefix_append _ _), hpart⟩
    · rw [hi'] at hi
      cases hi
    · rw [hi'] at hi
      cases hi
      exact ⟨List.prefix_refl _, left, right, _, _, h⟩

theorem out_ne_rd (h : Part c π c' i o) : o ≠ .rd ρ := by
  induction h with
  | whole =>
    intro h
    cases h
  | down _ hb ih =>
    obtain ho | ⟨_, _, ho⟩ | ⟨-, ho⟩ := (Cmd.part_inherits hb).outs
    · rw [ho]
      exact ih
    · rw [ho]
      intro h
      cases h
    · rw [ho]
      intro h
      cases h

theorem in_ne_wr (h : Part c π c' i o) : i ≠ .wr ρ := by
  induction h with
  | whole =>
    intro h
    cases h
  | down _ hb ih =>
    obtain hi | ⟨_, _, hi⟩ | ⟨-, hi, -⟩ := (Cmd.part_inherits hb).ins
    · rw [hi]
      exact ih
    · rw [hi]
      intro h
      cases h
    · rw [hi]
      intro h
      cases h

/-- On the right of a `|`, the read end of no `|` further out is left. -/
theorem inner (hρ : Part c ρ (.pipe left right) i₁ o₁) (h : Part c π c' i o) (hpre : ρ ++ [false] <+: π)
    (hi : i = .rd ρ') : ρ <+: ρ' := by
  induction h with
  | whole => exact absurd (List.prefix_nil.mp hpre) (by simp)
  | down h hb ih =>
    rcases List.prefix_concat_iff.mp hpre with heq | hpre'
    · obtain ⟨rfl, hlast⟩ := List.append_inj' heq rfl
      cases hlast
      obtain ⟨rfl, rfl, rfl⟩ := hρ.unique h
      cases hb
      cases hi
      exact List.prefix_refl _
    · obtain hi' | ⟨_, _, hi'⟩ | ⟨rfl, hi', _⟩ := (Cmd.part_inherits hb).ins
      · exact ih hpre' (hi'.symm.trans hi)
      · rw [hi'] at hi
        cases hi
      · rw [hi'] at hi
        cases hi
        exact (List.prefix_append _ _).trans hpre'

end Part

/-! ### What a process does -/

/-- The descriptors once `pipe` has returned 3 and 4. -/
def ends (π : Pos) (i o : File α) : Fds α :=
  some i :: some o :: some (.base 2) :: some (.rd π) :: some (.wr π) :: List.replicate (NOFILE - 5) none

/-- What is known of a process. -/
structure Note (α : Type) where
  π : Pos
  /-- the leaves it answers for -/
  pend : Multiset (Leaf α)
  /-- at least its calls and those of the children that it will have -/
  pot : Nat
  /-- at least the number of its children -/
  kids : Nat

section Forms

variable (c : Cmd α)

/-- What a process can be in the middle of. -/
inductive Form : Work α → Fds α → Note α → Prop
  | run (π : Pos) (c' : Cmd α) (i o : File α) (h : Part c π c' i o) :
      Form (.shell (runcmd π c')) (table i o) ⟨π, leaves π c' i o, cost c', 0⟩
  | exit (π : Pos) (fds : Fds α) (k : Nat) : Form (.shell .exit) fds ⟨π, 0, 1, k⟩
  | failed (π : Pos) (fds : Fds α) (k : Nat) : Form (.shell (.print .exit)) fds ⟨π, 0, 2, k⟩
  | running (π : Pos) (argv : List α) (c' : Cmd α) (i o : File α) (h : Part c π c' i o) :
      Form (.running argv) (table i o) ⟨π, 0, 1, 0⟩
  | zombie (π : Pos) (fds : Fds α) (k : Nat) (h : ∀ x ∈ fds, x = none) : Form .zombie fds ⟨π, 0, 0, k⟩
  | redir (π : Pos) (cmd : Cmd α) (file : α) (mode fd : Nat) (i o : File α) (hfd : fd < 2)
      (h : Part c π (.redir cmd file mode fd) i o) :
      Form (.shell (.openFile file mode fun ok => if ok then runcmd (π ++ [true]) cmd else .print .exit))
        ((table i o).set fd none) ⟨π, leaves π (.redir cmd file mode fd) i o, cost cmd + 3, 0⟩
  | listed (π : Pos) (left right : Cmd α) (i o : File α) (h : Part c π (.list left right) i o) :
      Form (.shell (.wait (runcmd (π ++ [false]) right))) (table i o)
        ⟨π, leaves (π ++ [false]) right i o, cost right + 1, 1⟩
  | piped (π : Pos) (left right : Cmd α) (i o : File α) (h : Part c π (.pipe left right) i o) :
      Form (.shell (fork1 fun child =>
          if child then .close 1 (.dup 4 (.close 3 (.close 4 (runcmd (π ++ [true]) left))))
          else fork1 fun child =>
            if child then .close 0 (.dup 3 (.close 3 (.close 4 (runcmd (π ++ [false]) right))))
            else .close 3 (.close 4 (.wait (.wait .exit)))))
        (ends π i o) ⟨π, leaves π (.pipe left right) i o, cost left + cost right + 17, 0⟩
  | left (π : Pos) (left right : Cmd α) (i o : File α) (h : Part c π (.pipe left right) i o) :
      Form (.shell (.close 1 (.dup 4 (.close 3 (.close 4 (runcmd (π ++ [true]) left)))))) (ends π i o)
        ⟨π ++ [true], leaves (π ++ [true]) left i (.wr π), cost left + 4, 0⟩
  | leftDup (π : Pos) (left right : Cmd α) (i o : File α) (h : Part c π (.pipe left right) i o) :
      Form (.shell (.dup 4 (.close 3 (.close 4 (runcmd (π ++ [true]) left))))) ((ends π i o).set 1 none)
        ⟨π ++ [true], leaves (π ++ [true]) left i (.wr π), cost left + 3, 0⟩
  | leftClose (π : Pos) (left right : Cmd α) (i o : File α) (h : Part c π (.pipe left right) i o) :
      Form (.shell (.close 3 (.close 4 (runcmd (π ++ [true]) left)))) (ends π i (.wr π))
        ⟨π ++ [true], leaves (π ++ [true]) left i (.wr π), cost left + 2, 0⟩
  | leftClosed (π : Pos) (left right : Cmd α) (i o : File α) (h : Part c π (.pipe left right) i o) :
      Form (.shell (.close 4 (runcmd (π ++ [true]) left))) ((ends π i (.wr π)).set 3 none)
        ⟨π ++ [true], leaves (π ++ [true]) left i (.wr π), cost left + 1, 0⟩
  | forked (π : Pos) (left right : Cmd α) (i o : File α) (h : Part c π (.pipe left right) i o) :
      Form (.shell (fork1 fun child =>
          if child then .close 0 (.dup 3 (.close 3 (.close 4 (runcmd (π ++ [false]) right))))
          else .close 3 (.close 4 (.wait (.wait .exit)))))
        (ends π i o) ⟨π, leaves (π ++ [false]) right (.rd π) o, cost right + 11, 1⟩
  | right (π : Pos) (left right : Cmd α) (i o : File α) (h : Part c π (.pipe left right) i o) :
      Form (.shell (.close 0 (.dup 3 (.close 3 (.close 4 (runcmd (π ++ [false]) right)))))) (ends π i o)
        ⟨π ++ [false], leaves (π ++ [false]) right (.rd π) o, cost right + 4, 0⟩
  | rightDup (π : Pos) (left right : Cmd α) (i o : File α) (h : Part c π (.pipe left right) i o) :
      Form (.shell (.dup 3 (.close 3 (.close 4 (runcmd (π ++ [false]) right))))) ((ends π i o).set 0 none)
        ⟨π ++ [false], leaves (π ++ [false]) right (.rd π) o, cost right + 3, 0⟩
  | rightClose (π : Pos) (left right : Cmd α) (i o : File α) (h : Part c π (.pipe left right) i o) :
      Form (.shell (.close 3 (.close 4 (runcmd (π ++ [false]) right)))) (ends π (.rd π) o)
        ⟨π ++ [false], leaves (π ++ [false]) right (.rd π) o, cost right + 2, 0⟩
  | rightClosed (π : Pos) (left right : Cmd α) (i o : File α) (h : Part c π (.pipe left right) i o) :
      Form (.shell (.close 4 (runcmd (π ++ [false]) right))) ((ends π (.rd π) o).set 3 none)
        ⟨π ++ [false], leaves (π ++ [false]) right (.rd π) o, cost right + 1, 0⟩
  | parent (π : Pos) (left right : Cmd α) (i o : File α) (h : Part c π (.pipe left right) i o) :
      Form (.shell (.close 3 (.close 4 (.wait (.wait .exit))))) (ends π i o) ⟨π, 0, 5, 2⟩
  | parentClosed (π : Pos) (left right : Cmd α) (i o : File α) (h : Part c π (.pipe left right) i o) :
      Form (.shell (.close 4 (.wait (.wait .exit)))) ((ends π i o).set 3 none) ⟨π, 0, 4, 2⟩
  | waits (π : Pos) (left right : Cmd α) (i o : File α) (h : Part c π (.pipe left right) i o) :
      Form (.shell (.wait (.wait .exit))) (table i o) ⟨π, 0, 3, 2⟩
  | waitsOnce (π : Pos) (left right : Cmd α) (i o : File α) (h : Part c π (.pipe left right) i o) :
      Form (.shell (.wait .exit)) (table i o) ⟨π, 0, 2, 1⟩

/-- The process goes down to a part only when it has no children. -/
def Note.Moves (n n' : Note α) : Prop := n'.π = n.π ∨ n'.kids = 0 ∧ n.π <+: n'.π

/-- What follows from a call. -/
def Effect.Sound (fds : Fds α) (ok : Bool) (n : Note α) : Effect α → Prop
  | .goes work fds' => ∃ n', Form c work fds' n' ∧ n.Moves n' ∧ n'.kids = n.kids ∧ n'.pend ≤ n.pend ∧
      (ok = true → n'.pend = n.pend) ∧ n'.pot < n.pot
  | .execs argv => ∃ x : Leaf α, n.pend = {x} ∧ x.entry = (argv, fds) ∧
      Form c (.running argv) fds ⟨n.π, 0, 1, n.kids⟩ ∧ 1 < n.pot
  | .forks work child => ∃ n₁ n₂, Form c work fds n₁ ∧ Form c child fds n₂ ∧ n₁.π = n.π ∧
      (∃ b, n₂.π = n.π ++ [b]) ∧ n₁.kids = n.kids + 1 ∧ n₂.kids = 0 ∧ n₁.pend + n₂.pend = n.pend ∧
      n₁.pot + n₂.pot < n.pot
  | .waits work => ∃ n', Form c work fds n' ∧ n.Moves n' ∧ n'.kids + 1 = n.kids ∧ n'.pend = n.pend ∧ n'.pot < n.pot
  | .exits => n.pend = 0 ∧ 0 < n.pot

end Forms

theorem two_lt_cost (c : Cmd α) : 2 < cost c := by
  cases c with
  | exec argv => exact Nat.lt_succ_self 2
  | redir c file mode fd =>
    rw [cost]
    omega
  | list left right =>
    rw [cost]
    omega
  | pipe left right =>
    rw [cost]
    omega
  | back c =>
    rw [cost]
    omega

section Step

variable {c c' : Cmd α} {w : Work α} {fds : Fds α} {n : Note α} {ok : Bool} {eff : Effect α} {π : Pos} {i o : File α}

/-- A call that is not granted ends the process with a message. -/
theorem Form.fails (n : Note α) (fds : Fds α) (h : 2 < n.pot) :
    (Effect.goes (.shell (.print .exit)) fds).Sound c fds false n :=
  ⟨⟨n.π, 0, 2, n.kids⟩, .failed _ _ _, .inl rfl, rfl, Multiset.zero_le _, fun hok => absurd hok Bool.false_ne_true, h⟩

/-- The first call of a subcommand. -/
theorem Form.step_run (hstd : c'.Std) (h : Part c π c' i o)
    (hs : (Work.shell (runcmd π c')).step (table i o) ok = some eff) :
    eff.Sound c (table i o) ok ⟨π, leaves π c' i o, cost c', 0⟩ := by
  have hpot := two_lt_cost c'
  cases c' with
  | exec argv =>
    cases argv with
    | nil =>
      cases hs
      exact ⟨rfl, Nat.zero_lt_of_lt hpot⟩
    | cons x argv =>
      cases ok with
      | true =>
        cases hs
        exact ⟨⟨x :: argv, π, i, o⟩, rfl, rfl, .running π _ _ i o h, Nat.lt_of_succ_lt hpot⟩
      | false =>
        cases hs
        exact Form.fails _ _ hpot
  | redir cmd file mode fd =>
    cases hs
    exact ⟨_, .redir π cmd file mode fd i o hstd.1 h, .inl rfl, rfl, le_refl _, fun _ => rfl, Nat.lt_succ_self _⟩
  | list left right =>
    cases ok with
    | true =>
      cases hs
      refine ⟨_, _, .listed π left right i o h, .run _ left i o (h.down rfl), rfl, ⟨true, rfl⟩, rfl, rfl, ?_, ?_⟩
      · rw [leaves, ← Multiset.coe_add, add_comm]
      · show cost right + 1 + cost left < cost left + cost right + 4
        omega
    | false =>
      cases hs
      exact Form.fails _ _ hpot
  | pipe left right =>
    cases ok with
    | true =>
      cases hs
      exact ⟨_, .piped π left right i o h, .inl rfl, rfl, le_refl _, fun _ => rfl, Nat.lt_succ_self _⟩
    | false =>
      cases hs
      exact Form.fails _ _ hpot
  | back cmd =>
    cases ok with
    | true =>
      cases hs
      refine ⟨_, _, .exit π _ 1, .run _ cmd i o (h.down rfl), rfl, ⟨true, rfl⟩, rfl, rfl, zero_add _, ?_⟩
      show 1 + cost cmd < cost cmd + 4
      omega
    | false =>
      cases hs
      exact Form.fails _ _ hpot

/-- What the next call of a process makes of it. -/
theorem Form.step (hc : c.Std) (hf : Form c w fds n) (hs : w.step fds ok = some eff) : eff.Sound c fds ok n := by
  cases hf with
  | run π c' i o h => exact Form.step_run (h.std hc) h hs
  | exit π fds k =>
    cases hs
    exact ⟨rfl, Nat.zero_lt_one⟩
  | failed π fds k =>
    cases hs
    exact ⟨_, .exit π fds k, .inl rfl, rfl, le_refl _, fun _ => rfl, Nat.lt_succ_self 1⟩
  | running π argv c' i o h =>
    cases hs
    exact ⟨rfl, Nat.zero_lt_one⟩
  | zombie π fds k h => cases hs
  | redir π cmd file mode fd i o hfd h =>
    have hpot : cost cmd < cost cmd + 3 := Nat.lt_add_of_pos_right (Nat.succ_pos 2)
    cases ok with
    | false =>
      cases hs
      exact Form.fails _ _ ((two_lt_cost cmd).trans hpot)
    | true =>
      rcases Nat.le_one_iff_eq_zero_or_eq_one.mp (Nat.le_of_lt_succ hfd) with rfl | rfl
      · cases hs
        exact ⟨_, .run (π ++ [true]) cmd (.path file mode) o (h.down rfl), .inr ⟨rfl, List.prefix_append _ _⟩, rfl,
          le_refl _, fun _ => rfl, hpot⟩
      · cases hs
        exact ⟨_, .run (π ++ [true]) cmd i (.path file mode) (h.down rfl), .inr ⟨rfl, List.prefix_append _ _⟩, rfl,
          le_refl _, fun _ => rfl, hpot⟩
  | listed π left right i o h =>
    cases hs
    exact ⟨_, .run (π ++ [false]) right i o (h.down rfl), .inr ⟨rfl, List.prefix_append _ _⟩, rfl, rfl,
      Nat.lt_succ_self _⟩
  | piped π left right i o h =>
    cases ok with
    | true =>
      cases hs
      refine ⟨_, _, .forked π left right i o h, .left π left right i o h, rfl, ⟨true, rfl⟩, rfl, rfl, ?_, ?_⟩
      · rw [leaves, ← Multiset.coe_add, add_comm]
      · show cost right + 11 + (cost left + 4) < cost left + cost right + 17
        omega
    | false =>
      cases hs
      refine Form.fails _ _ ?_
      show 2 < cost left + cost right + 17
      omega
  | left π left right i o h =>
    cases hs
    exact ⟨_, .leftDup π left right i o h, .inl rfl, rfl, le_refl _, fun _ => rfl, Nat.lt_succ_self _⟩
  | leftDup π left right i o h =>
    cases hs
    exact ⟨_, .leftClose π left right i o h, .inl rfl, rfl, le_refl _, fun _ => rfl, Nat.lt_succ_self _⟩
  | leftClose π left right i o h =>
    cases hs
    exact ⟨_, .leftClosed π left right i o h, .inl rfl, rfl, le_refl _, fun _ => rfl, Nat.lt_succ_self _⟩
  | leftClosed π left right i o h =>
    cases hs
    exact ⟨_, .run (π ++ [true]) left i (.wr π) (h.down rfl), .inl rfl, rfl, le_refl _, fun _ => rfl,
      Nat.lt_succ_self _⟩
  | forked π left right i o h =>
    cases ok with
    | true =>
      cases hs
      refine ⟨_, _, .parent π left right i o h, .right π left right i o h, rfl, ⟨false, rfl⟩, rfl, rfl, zero_add _, ?_⟩
      show 5 + (cost right + 4) < cost right + 11
      omega
    | false =>
      cases hs
      refine Form.fails _ _ ?_
      show 2 < cost right + 11
      omega
  | right π left right i o h =>
    cases hs
    exact ⟨_, .rightDup π left right i o h, .inl rfl, rfl, le_refl _, fun _ => rfl, Nat.lt_succ_self _⟩
  | rightDup π left right i o h =>
    cases hs
    exact ⟨_, .rightClose π left right i o h, .inl rfl, rfl, le_refl _, fun _ => rfl, Nat.lt_succ_self _⟩
  | rightClose π left right i o h =>
    cases hs
    exact ⟨_, .rightClosed π left right i o h, .inl rfl, rfl, le_refl _, fun _ => rfl, Nat.lt_succ_self _⟩
  | rightClosed π left right i o h =>
    cases hs
    exact ⟨_, .run (π ++ [false]) right (.rd π) o (h.down rfl), .inl rfl, rfl, le_refl _, fun _ => rfl,
      Nat.lt_succ_self _⟩
  | parent π left right i o h =>
    cases hs
    exact ⟨_, .parentClosed π left right i o h, .inl rfl, rfl, le_refl _, fun _ => rfl, Nat.lt_succ_self _⟩
  | parentClosed π left right i o h =>
    cases hs
    exact ⟨_, .waits π left right i o h, .inl rfl, rfl, le_refl _, fun _ => rfl, Nat.lt_succ_self _⟩
  | waits π left right i o h =>
    cases hs
    exact ⟨_, .waitsOnce π left right i o h, .inl rfl, rfl, rfl, Nat.lt_succ_self _⟩
  | waitsOnce π left right i o h =>
    cases hs
    exact ⟨_, .exit π _ 0, .inl rfl, rfl, rfl, Nat.lt_succ_self _⟩

end Step

end Yonix.Sh
