/-
  Yonix/Sh/Jobs.lean
  ==================
  **Every run of a job.**

  `Books` is the invariant: each process has one of the forms, the leaves that are still
  to be executed are shared out among the processes, and so is a bound on the calls that
  are left.  So the programs that are executed are leaves of the command, with their
  streams and nothing else open, and none twice (`commands_get_streams`).
-/
import Yonix.Sh.Parts

namespace Yonix.Sh

variable {α : Type}

/-! ### Processes and their children -/

namespace Job

variable {m : Job α} {p r k : Nat} {q q' : Proc α} {x : Option (Proc α)}

@[simp] theorem set_procs_self : (m.set p x).procs p = x := Function.update_self ..

theorem set_procs_of_ne (h : r ≠ p) : (m.set p x).procs r = m.procs r := Function.update_of_ne h ..

theorem isChild_iff : m.isChild p r = true ↔ ∃ q, m.procs r = some q ∧ q.parent = p := by
  unfold isChild
  simp only [Option.any_eq_true, decide_eq_true_eq]

theorem mem_children : r ∈ m.children p ↔ r < m.next ∧ ∃ q, m.procs r = some q ∧ q.parent = p := by
  unfold children
  rw [Finset.mem_filter, Finset.mem_range, isChild_iff]

theorem isZombie_iff : m.isZombie p r = true ↔ ∃ q, m.procs r = some q ∧ q.parent = p ∧ q.work = .zombie := by
  unfold isZombie
  simp only [Option.any_eq_true, Bool.and_eq_true, decide_eq_true_eq]
  refine exists_congr fun q => and_congr_right fun _ => and_congr_right fun _ => ?_
  unfold Proc.isZombie
  cases q.work <;> simp

theorem act_eq_some {a : Turn} {n : Job α} : m.act a = some n ↔
    ∃ q eff, m.procs a.p = some q ∧ q.work.step q.fds a.ok = some eff ∧ m.apply a q eff = some n := by
  unfold act
  simp only [Option.bind_eq_some_iff]
  constructor
  · rintro ⟨q, hq, eff, heff, h⟩
    exact ⟨q, eff, hq, heff, h⟩
  · rintro ⟨q, eff, hq, heff, h⟩
    exact ⟨q, hq, eff, heff, h⟩

/-- Only the parent of a process counts for who its children are. -/
theorem children_set (hq : m.procs p = some q) (hpar : q'.parent = q.parent) :
    (m.set p (some q')).children k = m.children k := by
  ext r
  rw [mem_children, mem_children]
  by_cases hr : r = p
  · subst hr
    rw [set_procs_self, hq]
    simp [hpar, set]
  · rw [set_procs_of_ne hr]
    rfl

end Job

/-! ### The invariant -/

/-- What is known of each process. -/
structure Family (c : Cmd α) (m : Job α) (note : Nat → Note α) : Prop where
  form : ∀ p q, m.procs p = some q → Form c q.work q.fds (note p)
  gone : ∀ p, m.procs p = none → (note p).pend = 0 ∧ (note p).pot = 0
  next : ∀ p q, m.procs p = some q → 0 < p ∧ p < m.next ∧ q.parent < m.next
  kids : ∀ p q, m.procs p = some q → (m.children p).card ≤ (note p).kids
  nest : ∀ p q r q', m.procs p = some q → m.procs r = some q' → q'.parent = p →
    ∃ b, (note p).π ++ [b] <+: (note r).π

namespace Family

variable {c : Cmd α} {m : Job α} {note : Nat → Note α} {p r : Nat} {q q' : Proc α} {n : Note α}

theorem mem_children_of (hF : Family c m note) (hr : m.procs r = some q') (hpar : q'.parent = p) :
    r ∈ m.children p :=
  Job.mem_children.mpr ⟨(hF.next r q' hr).2.1, q', hr, hpar⟩

/-- A process goes on. -/
theorem moves (hF : Family c m note) (hq : m.procs p = some q) (hpar : q'.parent = q.parent)
    (hform : Form c q'.work q'.fds n) (hm : (note p).Moves n) (hk : (m.children p).card ≤ n.kids) :
    Family c (m.set p (some q')) (Function.update note p n) := by
  have hpre : (note p).π <+: n.π := by
    rcases hm with heq | ⟨-, hpre⟩
    · rw [heq]
    · exact hpre
  have hold : ∀ r q₁, (m.set p (some q')).procs r = some q₁ → ∃ q₀, m.procs r = some q₀ ∧ q₀.parent = q₁.parent := by
    intro r q₁ hr
    by_cases hrp : r = p
    · subst hrp
      rw [Job.set_procs_self] at hr
      cases hr
      exact ⟨q, hq, hpar.symm⟩
    · rw [Job.set_procs_of_ne hrp] at hr
      exact ⟨q₁, hr, rfl⟩
  refine ⟨?_, ?_, ?_, ?_, ?_⟩
  · intro r q₁ hr
    by_cases hrp : r = p
    · subst hrp
      rw [Job.set_procs_self] at hr
      cases hr
      rw [Function.update_self]
      exact hform
    · rw [Job.set_procs_of_ne hrp] at hr
      rw [Function.update_of_ne hrp]
      exact hF.form r q₁ hr
  · intro r hr
    by_cases hrp : r = p
    · subst hrp
      rw [Job.set_procs_self] at hr
      cases hr
    · rw [Job.set_procs_of_ne hrp] at hr
      rw [Function.update_of_ne hrp]
      exact hF.gone r hr
  · intro r q₁ hr
    obtain ⟨q₀, hr₀, hpar₀⟩ := hold r q₁ hr
    rw [← hpar₀]
    exact hF.next r q₀ hr₀
  · intro r q₁ hr
    rw [Job.children_set hq hpar]
    by_cases hrp : r = p
    · subst hrp
      rw [Function.update_self]
      exact hk
    · rw [Function.update_of_ne hrp]
      obtain ⟨q₀, hr₀, -⟩ := hold r q₁ hr
      exact hF.kids r q₀ hr₀
  · intro p₁ q₁ r₁ q₂ hp₁ hr₁ hpar₁
    obtain ⟨q₁', hp₁', -⟩ := hold p₁ q₁ hp₁
    obtain ⟨q₂', hr₁', hpar₂⟩ := hold r₁ q₂ hr₁
    obtain ⟨b, hb⟩ := hF.nest p₁ q₁' r₁ q₂' hp₁' hr₁' (hpar₂.trans hpar₁)
    have hright : ∀ l, l <+: (note r₁).π → l <+: (Function.update note p n r₁).π := by
      intro l hl
      by_cases hrp : r₁ = p
      · subst hrp
        rw [Function.update_self]
        exact hl.trans hpre
      · rw [Function.update_of_ne hrp]
        exact hl
    by_cases hp : p₁ = p
    · subst hp
      rw [Function.update_self]
      rcases hm with heq | ⟨hzero, -⟩
      · rw [heq]
        exact ⟨b, hright _ hb⟩
      · -- it has no children
        have hmem := hF.mem_children_of hr₁' (hpar₂.trans hpar₁)
        rw [hzero, Nat.le_zero, Finset.card_eq_zero] at hk
        rw [hk] at hmem
        exact absurd hmem (Finset.notMem_empty _)
    · rw [Function.update_of_ne hp]
      exact ⟨b, hright _ hb⟩

/-- A child that has ended is taken away. -/
theorem reap (hF : Family c m note) (hr : m.procs r = some q) (hz : q.work = .zombie) :
    Family c (m.set r none) note := by
  have hold : ∀ r' q', (m.set r none).procs r' = some q' → m.procs r' = some q' := by
    intro r' q' h
    by_cases hrr : r' = r
    · subst hrr
      rw [Job.set_procs_self] at h
      cases h
    · rwa [Job.set_procs_of_ne hrr] at h
  refine ⟨fun p q h => hF.form p q (hold p q h), ?_, fun p q h => hF.next p q (hold p q h), ?_, ?_⟩
  · intro r' h
    by_cases hrr : r' = r
    · subst hrr
      have hform := hF.form r' q hr
      rw [hz] at hform
      generalize note r' = n at hform
      cases hform
      exact ⟨rfl, rfl⟩
    · rw [Job.set_procs_of_ne hrr] at h
      exact hF.gone r' h
  · intro p q h
    refine (Finset.card_le_card ?_).trans (hF.kids p q (hold p q h))
    intro k hk
    obtain ⟨hlt, q₁, hq₁, hpar⟩ := Job.mem_children.mp hk
    exact Job.mem_children.mpr ⟨hlt, q₁, hold k q₁ hq₁, hpar⟩
  · intro p q r q' hp hr' hpar
    exact hF.nest p q r q' (hold p q hp) (hold r q' hr') hpar

/-- A process has a new child. -/
theorem spawn (hF : Family c m note) {work : Work α} {fds : Fds α} (hq : m.procs p = some q)
    (hk : (m.children p).card < (note p).kids) (hform : Form c work fds n) (hb : ∃ b, n.π = (note p).π ++ [b])
    (hzero : n.kids = 0) :
    Family c { m.set m.next (some ⟨work, fds, p⟩) with next := m.next + 1 } (Function.update note m.next n) := by
  have hnew : ∀ r q, m.procs r = some q → r ≠ m.next := fun r q h => ((hF.next r q h).2.1).ne
  have hold : ∀ r q', (m.set m.next (some ⟨work, fds, p⟩)).procs r = some q' → r ≠ m.next → m.procs r = some q' := by
    intro r q' h hr
    rwa [Job.set_procs_of_ne hr] at h
  have hchildren : ∀ k, k ≠ p → ({ m.set m.next (some ⟨work, fds, p⟩) with next := m.next + 1 } : Job α).children k ⊆
      m.children k := by
    intro k hkp r hr
    obtain ⟨-, q₁, hq₁, hpar⟩ := Job.mem_children.mp hr
    by_cases hr : r = m.next
    · subst hr
      have hself := Job.set_procs_self (m := m) (p := m.next) (x := some ⟨work, fds, p⟩)
      rw [show q₁ = ⟨work, fds, p⟩ from Option.some.inj (hq₁.symm.trans hself)] at hpar
      exact absurd hpar.symm hkp
    · exact hF.mem_children_of (hold r q₁ hq₁ hr) hpar
  refine ⟨?_, ?_, ?_, ?_, ?_⟩
  · intro r q' hr
    by_cases hrn : r = m.next
    · subst hrn
      rw [Job.set_procs_self] at hr
      cases hr
      rw [Function.update_self]
      exact hform
    · rw [Function.update_of_ne hrn]
      exact hF.form r q' (hold r q' hr hrn)
  · intro r hr
    by_cases hrn : r = m.next
    · subst hrn
      rw [Job.set_procs_self] at hr
      cases hr
    · rw [Job.set_procs_of_ne hrn] at hr
      rw [Function.update_of_ne hrn]
      exact hF.gone r hr
  · intro r q' hr
    by_cases hrn : r = m.next
    · subst hrn
      rw [Job.set_procs_self] at hr
      cases hr
      exact ⟨(Nat.zero_le p).trans_lt (hF.next p q hq).2.1, Nat.lt_succ_self _, (hF.next p q hq).2.1.trans (Nat.lt_succ_self _)⟩
    · obtain ⟨h0, h1, h2⟩ := hF.next r q' (hold r q' hr hrn)
      exact ⟨h0, h1.trans (Nat.lt_succ_self _), h2.trans (Nat.lt_succ_self _)⟩
  · intro r q' hr
    by_cases hrp : r = p
    · subst hrp
      rw [Function.update_of_ne (hnew r q hq)]
      refine (Finset.card_le_card (t := insert m.next (m.children r)) ?_).trans
        ((Finset.card_insert_le _ _).trans hk)
      intro k hkm
      obtain ⟨-, q₁, hq₁, hpar⟩ := Job.mem_children.mp hkm
      by_cases hkn : k = m.next
      · exact Finset.mem_insert.mpr (.inl hkn)
      · exact Finset.mem_insert_of_mem (hF.mem_children_of (hold k q₁ hq₁ hkn) hpar)
    · refine (Finset.card_le_card (hchildren r hrp)).trans ?_
      by_cases hrn : r = m.next
      · -- nobody has the new process as its parent
        subst hrn
        rw [Function.update_self, hzero, Nat.le_zero, Finset.card_eq_zero, Finset.eq_empty_iff_forall_notMem]
        intro k hkm
        obtain ⟨-, q₁, hq₁, hpar⟩ := Job.mem_children.mp hkm
        exact absurd hpar (hF.next k q₁ hq₁).2.2.ne
      · rw [Function.update_of_ne hrn]
        exact hF.kids r q' (hold r q' hr hrn)
  · intro p₁ q₁ r₁ q₂ hp₁ hr₁ hpar
    by_cases hr : r₁ = m.next
    · subst hr
      rw [Job.set_procs_self] at hr₁
      cases hr₁
      subst hpar
      rw [Function.update_self, Function.update_of_ne (hnew p q hq)]
      obtain ⟨b, hb⟩ := hb
      exact ⟨b, by rw [hb]⟩
    · have hr₁' := hold r₁ q₂ hr₁ hr
      have hp : p₁ ≠ m.next := by
        rw [← hpar]
        exact (hF.next r₁ q₂ hr₁').2.2.ne
      rw [Function.update_of_ne hr, Function.update_of_ne hp]
      exact hF.nest p₁ q₁ r₁ q₂ (hold p₁ q₁ hp₁ hp) hr₁' hpar

/-- A process ends. -/
theorem exit (hF : Family c m note) (hq : m.procs p = some q) :
    Family c (m.exit p) (Function.update note p { note p with pend := 0, pot := 0 }) := by
  have hold : ∀ r q', (m.exit p).procs r = some q' → ∃ q₀, m.procs r = some q₀ ∧
      (r ≠ p → q'.work = q₀.work ∧ q'.fds = q₀.fds) ∧ (q'.parent = q₀.parent ∨ q'.parent = 0) ∧
      (r = p → q'.work = .zombie ∧ ∀ x ∈ q'.fds, x = none) := by
    intro r q' hr
    obtain ⟨q₀, hq₀, heq⟩ := Option.map_eq_some_iff.mp hr
    refine ⟨q₀, hq₀, ?_⟩
    by_cases hrp : r = p
    · rw [if_pos hrp] at heq
      subst heq
      refine ⟨fun h => absurd hrp h, .inl rfl, fun _ => ⟨rfl, fun x hx => ?_⟩⟩
      obtain ⟨_, -, hnone⟩ := List.mem_map.mp hx
      exact hnone.symm
    · rw [if_neg hrp] at heq
      by_cases hpar : q₀.parent = p
      · rw [if_pos hpar] at heq
        subst heq
        exact ⟨fun _ => ⟨rfl, rfl⟩, .inr rfl, fun h => absurd h hrp⟩
      · rw [if_neg hpar] at heq
        subst heq
        exact ⟨fun _ => ⟨rfl, rfl⟩, .inl rfl, fun h => absurd h hrp⟩
  have hπ : ∀ r, (Function.update note p { note p with pend := 0, pot := 0 } r).π = (note r).π := by
    intro r
    by_cases hrp : r = p
    · subst hrp
      rw [Function.update_self]
    · rw [Function.update_of_ne hrp]
  refine ⟨?_, ?_, ?_, ?_, ?_⟩
  · intro r q' hr
    obtain ⟨q₀, hr₀, hwork, -, hzombie⟩ := hold r q' hr
    by_cases hrp : r = p
    · obtain ⟨hw, hfds⟩ := hzombie hrp
      rw [hrp, Function.update_self, hw]
      exact .zombie _ _ _ hfds
    · rw [Function.update_of_ne hrp, (hwork hrp).1, (hwork hrp).2]
      exact hF.form r q₀ hr₀
  · intro r hr
    have hr₀ : m.procs r = none := Option.map_eq_none_iff.mp hr
    have hrp : r ≠ p := by
      intro heq
      rw [heq, hq] at hr₀
      cases hr₀
    rw [Function.update_of_ne hrp]
    exact hF.gone r hr₀
  · intro r q' hr
    obtain ⟨q₀, hr₀, -, hpar, -⟩ := hold r q' hr
    obtain ⟨h0, h1, h2⟩ := hF.next r q₀ hr₀
    refine ⟨h0, h1, ?_⟩
    rcases hpar with hpar | hpar
    · rw [hpar]
      exact h2
    · rw [hpar]
      exact h0.trans h1
  · intro r q' hr
    obtain ⟨q₀, hr₀, -⟩ := hold r q' hr
    have hk : (Function.update note p { note p with pend := 0, pot := 0 } r).kids = (note r).kids := by
      by_cases hrp : r = p
      · subst hrp
        rw [Function.update_self]
      · rw [Function.update_of_ne hrp]
    rw [hk]
    refine (Finset.card_le_card ?_).trans (hF.kids r q₀ hr₀)
    intro k hk
    obtain ⟨-, q₁, hq₁, hpar₁⟩ := Job.mem_children.mp hk
    obtain ⟨q₂, hq₂, -, hpar₂, -⟩ := hold k q₁ hq₁
    rcases hpar₂ with hpar₂ | hpar₂
    · exact hF.mem_children_of hq₂ (hpar₂.symm.trans hpar₁)
    · rw [← hpar₁, hpar₂] at hr₀
      exact absurd (hF.next 0 q₀ hr₀).1 (lt_irrefl 0)
  · intro p₁ q₁ r₁ q₂ hp₁ hr₁ hpar
    obtain ⟨q₁', hp₁', -⟩ := hold p₁ q₁ hp₁
    obtain ⟨q₂', hr₁', -, hpar', -⟩ := hold r₁ q₂ hr₁
    rw [hπ, hπ]
    rcases hpar' with hpar' | hpar'
    · exact hF.nest p₁ q₁' r₁ q₂' hp₁' hr₁' (hpar'.symm.trans hpar)
    · rw [← hpar, hpar'] at hp₁'
      exact absurd (hF.next 0 q₁' hp₁').1 (lt_irrefl 0)

end Family

/-! ### Leaves and calls that are left -/

/-- The leaves that are still to be executed. -/
def pends (k : Nat) (note : Nat → Note α) : Multiset (Leaf α) := ∑ p ∈ Finset.range k, (note p).pend

/-- No less than the calls that are left. -/
def pots (k : Nat) (note : Nat → Note α) : Nat := ∑ p ∈ Finset.range k, (note p).pot

/-- One process has a new note. -/
theorem sum_update {M : Type} [AddCommMonoid M] {k p : Nat} (hp : p < k) (note : Nat → Note α) (g : Note α → M) :
    ∃ rest, ∑ r ∈ Finset.range k, g (note r) = g (note p) + rest ∧
      ∀ n, ∑ r ∈ Finset.range k, g (Function.update note p n r) = g n + rest := by
  have hmem := Finset.mem_range.mpr hp
  refine ⟨∑ r ∈ (Finset.range k).erase p, g (note r), (Finset.add_sum_erase _ _ hmem).symm, fun n => ?_⟩
  rw [← Finset.add_sum_erase _ _ hmem, Function.update_self]
  congr 1
  refine Finset.sum_congr rfl fun r hr => ?_
  rw [Function.update_of_ne (Finset.ne_of_mem_erase hr)]

/-- A new process has a note. -/
theorem sum_spawn {M : Type} [AddCommMonoid M] (k : Nat) (note : Nat → Note α) (g : Note α → M) (n : Note α) :
    ∑ r ∈ Finset.range (k + 1), g (Function.update note k n r) = ∑ r ∈ Finset.range k, g (note r) + g n := by
  rw [Finset.sum_range_succ, Function.update_self]
  congr 1
  refine Finset.sum_congr rfl fun r hr => ?_
  rw [Function.update_of_ne (Finset.mem_range.mp hr).ne]

/-- The leaves are shared out; `done` are those that were executed. -/
structure Books (c : Cmd α) (m : Job α) (note : Nat → Note α) (done : Multiset (Leaf α)) (as : List Turn) : Prop where
  family : Family c m note
  log : done.map Leaf.entry = m.log
  books : done + pends m.next note ≤ leaves [] c (.base 0) (.base 1)
  full : (∀ a ∈ as, a.ok = true) → done + pends m.next note = leaves [] c (.base 0) (.base 1)
  clock : as.length + pots m.next note ≤ cost c

namespace Books

variable {c : Cmd α} {m m' : Job α} {note note' : Nat → Note α} {done done' : Multiset (Leaf α)} {as : List Turn}
  {a : Turn} {q q' : Proc α} {n n₁ n₂ : Note α}

/-- A call that keeps the leaves, or loses some because it was not granted. -/
theorem act (hB : Books c m note done as) (hfamily : Family c m' note') (hlog : done'.map Leaf.entry = m'.log)
    (hpend : done' + pends m'.next note' ≤ done + pends m.next note)
    (hfull : a.ok = true → done' + pends m'.next note' = done + pends m.next note)
    (hpot : pots m'.next note' < pots m.next note) : Books c m' note' done' (as ++ [a]) := by
  refine ⟨hfamily, hlog, hpend.trans hB.books, ?_, ?_⟩
  · intro hok
    rw [hfull (hok a (List.mem_append_right _ (List.mem_singleton_self a)))]
    exact hB.full fun b hb => hok b (List.mem_append_left _ hb)
  · have hclock := hB.clock
    rw [List.length_append, List.length_singleton]
    omega

/-- The process alone changes, and so does its note. -/
theorem goes (hB : Books c m note done as) (hq : m.procs a.p = some q)
    (hfamily : Family c m' (Function.update note a.p n)) (hnext : m'.next = m.next) (hlog : m'.log = m.log)
    (hpend : n.pend ≤ (note a.p).pend) (hfull : a.ok = true → n.pend = (note a.p).pend)
    (hpot : n.pot < (note a.p).pot) : Books c m' (Function.update note a.p n) done (as ++ [a]) := by
  have hlt := (hB.family.next a.p q hq).2.1
  obtain ⟨rest, hsum, hnew⟩ := sum_update hlt note Note.pend
  obtain ⟨rest', hsum', hnew'⟩ := sum_update hlt note Note.pot
  refine hB.act hfamily (hB.log.trans (congrArg _ hlog.symm)) ?_ ?_ ?_
  · rw [hnext]
    unfold pends
    rw [hsum, hnew]
    exact add_le_add_right (add_le_add_left hpend rest) done
  · intro hok
    rw [hnext]
    unfold pends
    rw [hsum, hnew, hfull hok]
  · rw [hnext]
    unfold pots
    rw [hsum', hnew']
    exact Nat.add_lt_add_right hpot rest'

theorem execs (hB : Books c m note done as) {argv : List α} {x : Leaf α} (hq : m.procs a.p = some q)
    (hx : (note a.p).pend = {x}) (hentry : x.entry = (argv, q.fds))
    (hform : Form c (.running argv) q.fds ⟨(note a.p).π, 0, 1, (note a.p).kids⟩) (hpot : 1 < (note a.p).pot) :
    Books c { m.set a.p (some { q with work := .running argv }) with log := m.log ++ [(argv, q.fds)] }
      (Function.update note a.p ⟨(note a.p).π, 0, 1, (note a.p).kids⟩) (x ::ₘ done) (as ++ [a]) := by
  have hlt := (hB.family.next a.p q hq).2.1
  obtain ⟨rest, hsum, hnew⟩ := sum_update hlt note Note.pend
  obtain ⟨rest', hsum', hnew'⟩ := sum_update hlt note Note.pot
  have hfam : Family c (m.set a.p (some { q with work := .running argv })) _ :=
    hB.family.moves hq rfl hform (.inl rfl) (hB.family.kids a.p q hq)
  have hpend : x ::ₘ done + pends m.next (Function.update note a.p ⟨(note a.p).π, 0, 1, (note a.p).kids⟩) =
      done + pends m.next note := by
    unfold pends
    rw [hsum, hnew, hx, zero_add, Multiset.cons_add, Multiset.singleton_add, Multiset.add_cons]
  refine hB.act ⟨hfam.form, hfam.gone, hfam.next, hfam.kids, hfam.nest⟩ ?_ hpend.le (fun _ => hpend) ?_
  · rw [Multiset.map_cons, hentry, hB.log, ← Multiset.coe_add, Multiset.coe_singleton, add_comm]
    rfl
  · show pots m.next _ < _
    unfold pots
    rw [hsum', hnew']
    exact Nat.add_lt_add_right hpot rest'

theorem forks (hB : Books c m note done as) {work child : Work α} (hq : m.procs a.p = some q)
    (h₁ : Form c work q.fds n₁) (h₂ : Form c child q.fds n₂) (hπ₁ : n₁.π = (note a.p).π)
    (hπ₂ : ∃ b, n₂.π = (note a.p).π ++ [b]) (hk₁ : n₁.kids = (note a.p).kids + 1) (hk₂ : n₂.kids = 0)
    (hpend : n₁.pend + n₂.pend = (note a.p).pend) (hpot : n₁.pot + n₂.pot < (note a.p).pot) :
    Books c { (m.set a.p (some { q with work := work })).set m.next (some ⟨child, q.fds, a.p⟩) with next := m.next + 1 }
      (Function.update (Function.update note a.p n₁) m.next n₂) done (as ++ [a]) := by
  have hlt := (hB.family.next a.p q hq).2.1
  have hkids := Nat.lt_succ_of_le (hB.family.kids a.p q hq)
  rw [← Nat.succ_eq_add_one] at hk₁
  rw [← hk₁] at hkids
  obtain ⟨rest, hsum, hnew⟩ := sum_update hlt note Note.pend
  obtain ⟨rest', hsum', hnew'⟩ := sum_update hlt note Note.pot
  have hfam : Family c (m.set a.p (some { q with work := work })) (Function.update note a.p n₁) :=
    hB.family.moves hq rfl h₁ (.inl hπ₁) hkids.le
  have hchildren : (m.set a.p (some { q with work := work })).children a.p = m.children a.p :=
    Job.children_set hq rfl
  have hspawn : Family c { (m.set a.p (some { q with work := work })).set m.next (some ⟨child, q.fds, a.p⟩) with
      next := m.next + 1 } (Function.update (Function.update note a.p n₁) m.next n₂) := by
    refine hfam.spawn Job.set_procs_self ?_ h₂ ?_ hk₂
    · rw [hchildren, Function.update_self]
      exact hkids
    · rw [Function.update_self, hπ₁]
      exact hπ₂
  have hpends : done + pends (m.next + 1) (Function.update (Function.update note a.p n₁) m.next n₂) =
      done + pends m.next note := by
    unfold pends
    rw [sum_spawn m.next _ Note.pend, hsum, hnew, ← hpend]
    abel
  refine hB.act hspawn hB.log hpends.le (fun _ => hpends) ?_
  show pots (m.next + 1) _ < _
  unfold pots
  rw [sum_spawn m.next _ Note.pot, hsum', hnew']
  omega

theorem waits (hB : Books c m note done as) {work : Work α} (hq : m.procs a.p = some q)
    (h : Form c work q.fds n) (hm : (note a.p).Moves n) (hk : n.kids + 1 = (note a.p).kids)
    (hpend : n.pend = (note a.p).pend) (hpot : n.pot < (note a.p).pot)
    (hw : m.wait a.p { q with work := work } a.child = some m') :
    Books c m' (Function.update note a.p n) done (as ++ [a]) := by
  have hkids := hB.family.kids a.p q hq
  unfold Job.wait at hw
  split at hw
  · rename_i hz
    cases hw
    obtain ⟨q₁, hq₁, hpar, hzombie⟩ := Job.isZombie_iff.mp hz
    have hne : a.p ≠ a.child := by
      intro heq
      obtain ⟨b, hb⟩ := hB.family.nest a.p q a.child q₁ hq hq₁ hpar
      rw [← heq] at hb
      have hlen := hb.length_le
      rw [List.length_append, List.length_singleton] at hlen
      omega
    have hset : (m.set a.p (some { q with work := work })).set a.child none =
        (m.set a.child none).set a.p (some { q with work := work }) := by
      unfold Job.set
      rw [Function.update_comm hne.symm]
    rw [hset]
    refine hB.goes hq ?_ rfl rfl hpend.le (fun _ => hpend) hpot
    refine (hB.family.reap hq₁ hzombie).moves (q := q) ?_ rfl h hm ?_
    · rw [Job.set_procs_of_ne hne, hq]
    · have hmem := hB.family.mem_children_of hq₁ hpar
      have hlt : ((m.set a.child none).children a.p).card < (m.children a.p).card := by
        refine Finset.card_lt_card ((Finset.ssubset_iff_of_subset ?_).mpr ⟨a.child, hmem, ?_⟩)
        · intro r hr
          obtain ⟨hlt, q₂, hq₂, hpar₂⟩ := Job.mem_children.mp hr
          refine Job.mem_children.mpr ⟨hlt, q₂, ?_, hpar₂⟩
          by_cases hrc : r = a.child
          · subst hrc
            rw [Job.set_procs_self] at hq₂
            cases hq₂
          · rwa [Job.set_procs_of_ne hrc] at hq₂
        · intro hr
          obtain ⟨-, q₂, hq₂, -⟩ := Job.mem_children.mp hr
          rw [Job.set_procs_self] at hq₂
          cases hq₂
      omega
  · split at hw
    · cases hw
    · rename_i hnone
      cases hw
      rw [Finset.not_nonempty_iff_eq_empty] at hnone
      refine hB.goes hq ?_ rfl rfl hpend.le (fun _ => hpend) hpot
      refine hB.family.moves hq rfl h hm ?_
      rw [hnone]
      exact Nat.zero_le _

theorem exits (hB : Books c m note done as) (hq : m.procs a.p = some q) (hpend : (note a.p).pend = 0)
    (hpot : 0 < (note a.p).pot) :
    Books c (m.exit a.p) (Function.update note a.p { note a.p with pend := 0, pot := 0 }) done (as ++ [a]) :=
  hB.goes hq (hB.family.exit hq) rfl rfl hpend.ge (fun _ => hpend.symm) hpot

/-- Every call keeps the books. -/
theorem step (hc : c.Std) (hB : Books c m note done as) (hs : m.Step a m') :
    ∃ note' done', Books c m' note' done' (as ++ [a]) := by
  obtain ⟨q, eff, hq, hw, hs⟩ := Job.act_eq_some.mp hs
  have hsound := (hB.family.form a.p q hq).step hc hw
  cases eff with
  | goes work fds =>
    cases hs
    obtain ⟨n, hform, hm, hk, hpend, hfull, hpot⟩ := hsound
    refine ⟨_, _, hB.goes hq (hB.family.moves hq rfl hform hm ?_) rfl rfl hpend hfull hpot⟩
    rw [hk]
    exact hB.family.kids a.p q hq
  | execs argv =>
    cases hs
    obtain ⟨x, hx, hentry, hform, hpot⟩ := hsound
    exact ⟨_, _, hB.execs hq hx hentry hform hpot⟩
  | forks work child =>
    cases hs
    obtain ⟨n₁, n₂, h₁, h₂, hπ₁, hπ₂, hk₁, hk₂, hpend, hpot⟩ := hsound
    exact ⟨_, _, hB.forks hq h₁ h₂ hπ₁ hπ₂ hk₁ hk₂ hpend hpot⟩
  | waits work =>
    obtain ⟨n, hform, hm, hk, hpend, hpot⟩ := hsound
    exact ⟨_, _, hB.waits hq hform hm hk hpend hpot hs⟩
  | exits =>
    cases hs
    obtain ⟨hpend, hpot⟩ := hsound
    exact ⟨_, _, hB.exits hq hpend hpot⟩

/-- The job as it starts. -/
theorem start (c : Cmd α) :
    Books c (start c) (fun p => ⟨[], if p = 1 then leaves [] c (.base 0) (.base 1) else 0, if p = 1 then cost c else 0, 0⟩)
      0 [] := by
  have hproc : ∀ p q, (Sh.start c).procs p = some q →
      p = 1 ∧ q = ⟨.shell (runcmd [] c), table (.base 0) (.base 1), 0⟩ := by
    intro p q h
    have h' : (if p = 1 then some ⟨.shell (runcmd [] c), table (.base 0) (.base 1), 0⟩ else none) = some q := h
    split at h'
    · rename_i hp
      cases h'
      exact ⟨hp, rfl⟩
    · cases h'
  have hpends : (0 : Multiset (Leaf α)) + ∑ p ∈ Finset.range 2, (if p = 1 then (leaves [] c (.base 0) (.base 1) : Multiset (Leaf α)) else 0) =
      leaves [] c (.base 0) (.base 1) := by
    rw [zero_add, Finset.sum_range_succ, Finset.sum_range_one, if_neg Nat.zero_ne_one, if_pos rfl, zero_add]
  refine ⟨⟨?_, ?_, ?_, ?_, ?_⟩, rfl, hpends.le, fun _ => hpends, ?_⟩
  · intro p q h
    obtain ⟨rfl, rfl⟩ := hproc p q h
    exact .run [] c _ _ .whole
  · intro p h
    have hp : p ≠ 1 := by
      rintro rfl
      cases h
    exact ⟨if_neg hp, if_neg hp⟩
  · intro p q h
    obtain ⟨rfl, rfl⟩ := hproc p q h
    exact ⟨Nat.zero_lt_one, Nat.lt_succ_self 1, Nat.succ_pos 1⟩
  · intro p q h
    obtain ⟨rfl, -⟩ := hproc p q h
    rw [Nat.le_zero, Finset.card_eq_zero, Finset.eq_empty_iff_forall_notMem]
    intro r hr
    obtain ⟨-, q', hq', hpar⟩ := Job.mem_children.mp hr
    obtain ⟨-, rfl⟩ := hproc r q' hq'
    cases hpar
  · intro p q r q' hp hr hpar
    obtain ⟨rfl, -⟩ := hproc p q hp
    obtain ⟨-, rfl⟩ := hproc r q' hr
    cases hpar
  · show 0 + ∑ p ∈ Finset.range 2, (if p = 1 then cost c else 0) ≤ cost c
    rw [Finset.sum_range_succ, Finset.sum_range_one, if_neg Nat.zero_ne_one, if_pos rfl, Nat.zero_add, Nat.zero_add]

/-- The books are kept over every run. -/
theorem run (hc : c.Std) (hr : Run Job.Step (Sh.start c) as m) : ∃ note done, Books c m note done as := by
  refine Run.history (fun as m => ∃ note done, Books c m note done as) ⟨_, _, Books.start c⟩ ?_ hr
  intro as m a m' ⟨note, done, hB⟩ hs
  exact hB.step hc hs

end Books

/-- The programs that were executed are leaves of the command, none twice, and each has its
    standard input and output and nothing else open but standard error. -/
theorem commands_get_streams {c : Cmd α} {as : List Turn} {m : Job α} (hc : c.Std) (hr : Run Job.Step (start c) as m) :
    (m.log : Multiset (List α × Fds α)) ≤ (leaves [] c (.base 0) (.base 1)).map Leaf.entry := by
  obtain ⟨note, done, hB⟩ := Books.run hc hr
  rw [← hB.log, ← Multiset.map_coe]
  exact Multiset.map_le_map ((Multiset.le_add_right _ _).trans hB.books)

/-- `a|b` -/
def pair : Cmd (List UInt8) := .pipe (.exec [[97]]) (.exec [[98]])

theorem pair_std : pair.Std := ⟨trivial, trivial⟩

/-- The shell makes the pipe and forks twice, and its children execute the programs. -/
def pairTurns : List Turn :=
  ([1, 1, 1, 1, 1, 2, 2, 3, 3, 2, 3, 2, 3, 2, 3] : List Nat).map fun p => ⟨p, true, 0⟩

theorem run_of_foldlM {m n : Job α} {as : List Turn} (h : as.foldlM Job.act m = some n) : Run Job.Step m as n := by
  induction as generalizing m with
  | nil =>
    cases h
    exact Run.nil
  | cons a as ih =>
    rw [List.foldlM_cons] at h
    obtain ⟨m', hact, hrest⟩ := Option.bind_eq_some_iff.mp h
    exact Run.cons hact (ih hrest)

theorem pairTurns_run : ∃ m, Run Job.Step (start pair) pairTurns m ∧
    m.log = [([[97]], table (.base 0) (.wr [])), ([[98]], table (.rd []) (.base 1))] ∧ (m.procs 2).isSome = true ∧
    (m.procs 2).any Proc.isZombie = false := by
  have h : (pairTurns.foldlM Job.act (start pair)).any (fun m =>
      decide (m.log = [([[97]], table (.base 0) (.wr [])), ([[98]], table (.rd []) (.base 1))] ∧
        (m.procs 2).isSome = true ∧ (m.procs 2).any Proc.isZombie = false)) = true := by decide
  obtain ⟨m, hm, htest⟩ := Option.any_eq_true _ _ |>.mp h
  exact ⟨m, run_of_foldlM hm, of_decide_eq_true htest⟩

theorem commands_get_streams_pair : ∃ m, Run Job.Step (start pair) pairTurns m ∧ m.log.length = 2 ∧
    (m.log : Multiset (List (List UInt8) × Fds (List UInt8))) ≤ (leaves [] pair (.base 0) (.base 1)).map Leaf.entry := by
  obtain ⟨m, hrun, hlog, -⟩ := pairTurns_run
  exact ⟨m, hrun, by rw [hlog]; rfl, commands_get_streams pair_std hrun⟩

end Yonix.Sh
