/-
  Yonix/Lib/Prog.lean
  ===================
  **Programs that can be interrupted.**

  A program is a sequence of actions, and each says what comes next; between two actions
  others may run.  Alone it runs as the code `run`.  A machine has a program for each
  process and takes one action of one of them at a time.

  A relation `R v s` says that `s` is what a program sees when `v` is what it would have
  made alone.  An action is calm if, started in what the program sees, it does what it
  would have done alone, and to the others no more than `G`.  Then the program ends as it
  would have ended alone, whatever the others do that keeps `R` (`Alone.step`,
  `Alone.others`).

  `Run.simulate` is the rule for a machine with small actions that stands for one with
  large ones: both show the same calls and returns.
-/
import Yonix.Lib.Wp
import Yonix.Lib.Run

namespace Yonix

inductive Prog (σ ε α : Type) : Type 1 where
  | ret (a : α)
  | call {β : Type} (x : Code σ ε β) (k : β → Prog σ ε α)

namespace Prog

variable {σ ε α β : Type} {a : α} {s t v : σ}

/-- The program does `p`, and goes on with `f`. -/
def bind : Prog σ ε α → (α → Prog σ ε β) → Prog σ ε β
  | .ret a, f => f a
  | .call x k, f => .call x fun b => (k b).bind f

/-- One action. -/
def lift (x : Code σ ε α) : Prog σ ε α := .call x .ret

instance : Monad (Prog σ ε) where
  pure := .ret
  bind := bind

/-- The program when nobody else runs. -/
def run : Prog σ ε α → Code σ ε α
  | .ret a => pure a
  | .call x k => x >>= fun b => (k b).run

@[simp] theorem run_pure : (pure a : Prog σ ε α).run = pure a := rfl

@[simp] theorem run_lift (x : Code σ ε α) : (lift x).run = x := bind_pure x

@[simp] theorem run_bind (p : Prog σ ε α) (f : α → Prog σ ε β) : (p >>= f).run = p.run >>= fun a => (f a).run := by
  change (p.bind f).run = _
  induction p with
  | ret a => exact (pure_bind a fun a => (f a).run).symm
  | call x k ih =>
    rw [bind, run, run, LawfulMonad.bind_assoc]
    exact congrArg _ (funext fun b => ih b)

/-- What comes after a sequence. -/
theorem bind_assoc {γ : Type} (p : Prog σ ε α) (f : α → Prog σ ε β) (g : β → Prog σ ε γ) :
    (p >>= f) >>= g = p >>= fun a => f a >>= g := by
  change (p.bind f).bind g = p.bind fun a => (f a).bind g
  induction p with
  | ret a => rfl
  | call x k ih => exact congrArg (Prog.call x) (funext ih)

/-- A branch. -/
theorem run_ite (c : Prop) [Decidable c] (p q : Prog σ ε α) :
    (if c then p else q).run = if c then p.run else q.run := apply_ite run c p q

/-- The next action, and what is left. -/
def next : Prog σ ε α → σ → Option (Prog σ ε α × σ)
  | .ret _, _ => none
  | .call x k, s =>
    match x s with
    | .ok (b, t) => some (k b, t)
    | .error _ => none

theorem next_lift {x : Code σ ε β} {f : β → Prog σ ε α} {q : Prog σ ε α × σ} (h : (lift x >>= f).next s = some q) :
    ∃ b, x s = .ok (b, q.2) ∧ q.1 = f b := by
  change (Prog.call x fun b => (Prog.ret b).bind f).next s = some q at h
  rw [next] at h
  split at h
  · rename_i b t hx
    cases h
    exact ⟨b, hx, rfl⟩
  · cases h

/-- An action of the first part, or it has ended. -/
theorem next_bind {p : Prog σ ε α} {f : α → Prog σ ε β} {q : Prog σ ε β × σ} (h : (p >>= f).next s = some q) :
    (∃ p', p.next s = some (p', q.2) ∧ q.1 = p' >>= f) ∨ ∃ a, p = .ret a ∧ (f a).next s = some q := by
  cases p with
  | ret a => exact Or.inr ⟨a, rfl, h⟩
  | call x k =>
    left
    change (Prog.call x fun b => (k b).bind f).next s = some q at h
    rw [next] at h ⊢
    split at h
    · rename_i b t hx
      cases h
      exact ⟨k b, rfl, rfl⟩
    · cases h

/-! ### Interference -/

section Calm

variable (R G : σ → σ → Prop)

/-- What the action does with what the program sees, it does alone; its result has `C`. -/
def CalmCode (C : α → Prop) (x : Code σ ε α) : Prop :=
  ∀ v s a t, R v s → x s = .ok (a, t) → C a ∧ G s t ∧ ∃ u, x v = .ok (a, u) ∧ R u t

/-- All actions of the program are calm. -/
def Calm : Prog σ ε α → Prop
  | .ret _ => True
  | .call x k => ∃ C, CalmCode R G C x ∧ ∀ b, C b → Calm (k b)

variable {R G}

theorem calm_pure : (pure a : Prog σ ε α).Calm R G := trivial

theorem calm_lift {x : Code σ ε α} (h : CalmCode R G (fun _ => True) x) : (lift x).Calm R G :=
  ⟨_, h, fun _ _ => trivial⟩

/-- The rest of the program has to be calm after the results that there are. -/
theorem calm_lift_bind {C : β → Prop} {x : Code σ ε β} {f : β → Prog σ ε α} (h : CalmCode R G C x)
    (hf : ∀ b, C b → (f b).Calm R G) : (lift x >>= f).Calm R G := ⟨C, h, hf⟩

theorem Calm.bind {p : Prog σ ε α} {f : α → Prog σ ε β} (hp : p.Calm R G) (hf : ∀ a, (f a).Calm R G) :
    (p >>= f).Calm R G := by
  change (p.bind f).Calm R G
  induction p with
  | ret a => exact hf a
  | call x k ih =>
    rcases hp with ⟨C, hx, hk⟩
    exact ⟨C, hx, fun b hb => ih b (hk b hb)⟩

theorem Calm.ite {c : Prop} [Decidable c] {p q : Prog σ ε α} (hp : p.Calm R G) (hq : q.Calm R G) :
    (if c then p else q).Calm R G := by
  split
  · exact hp
  · exact hq

/-- `p` is what is left of a program that alone ends as `Q` says; alone it would be in state `v`, and sees `s`. -/
structure Alone (R G : σ → σ → Prop) (Q : α → σ → Prop) (p : Prog σ ε α) (v s : σ) : Prop where
  calm : p.Calm R G
  seen : R v s
  ends : ∀ a t, p.run v = .ok (a, t) → Q a t

variable {Q : α → σ → Prop}

/-- The next action. -/
theorem Alone.step {p q : Prog σ ε α} (h : Alone R G Q p v s) (hx : p.next s = some (q, t)) :
    G s t ∧ ∃ u, Alone R G Q q u t := by
  cases p with
  | ret a => cases hx
  | call x k =>
    rcases h.calm with ⟨C, hcalm, hk⟩
    rw [next] at hx
    split at hx
    · rename_i b t' hb
      cases hx
      rcases hcalm v s b t h.seen hb with ⟨hC, hG, u, hu, hR⟩
      refine ⟨hG, u, hk b hC, hR, fun a w hrun => h.ends a w ?_⟩
      exact code_bind.mpr ⟨b, u, hu, hrun⟩
    · cases hx

/-- The others run. -/
theorem Alone.others {p : Prog σ ε α} (h : Alone R G Q p v s) (hR : ∀ v, R v s → R v t) : Alone R G Q p v t :=
  ⟨h.calm, hR v h.seen, h.ends⟩

/-- The end. -/
theorem Alone.ret (h : Alone R G Q (.ret a : Prog σ ε α) v s) : Q a v ∧ R v s := ⟨h.ends a v rfl, h.seen⟩

end Calm

end Prog

/-! ### Machines -/

variable {P C : Type}

structure Machine (σ ε α P : Type) : Type 1 where
  st : σ
  /-- what is left of the call that a process is in -/
  pc : P → Option (Prog σ ε α)

inductive Move (P C α : Type) where
  | call (p : P) (c : C)
  | step (p : P)
  | ret (p : P) (a : α)

/-- Calls and returns. -/
def Move.shown {P C α : Type} : Move P C α → Option (Move P C α)
  | .call p c => some (.call p c)
  | .step _ => none
  | .ret p a => some (.ret p a)

namespace Machine

variable [DecidableEq P] [DecidableEq α] (code : C → Prog σ ε α)

def set (m : Machine σ ε α P) (p : P) (x : Option (Prog σ ε α)) (s : σ) : Machine σ ε α P :=
  ⟨s, Function.update m.pc p x⟩

def act (m : Machine σ ε α P) : Move P C α → Option (Machine σ ε α P)
  | .call p c =>
    match m.pc p with
    | none => some (m.set p (some (code c)) m.st)
    | some _ => none
  | .step p =>
    match m.pc p with
    | none => none
    | some x => (x.next m.st).map fun r => m.set p (some r.1) r.2
  | .ret p a =>
    match m.pc p with
    | some (.ret b) => if b = a then some (m.set p none m.st) else none
    | _ => none

def Step (m : Machine σ ε α P) (l : Move P C α) (n : Machine σ ε α P) : Prop := m.act code l = some n

variable {code} {m n : Machine σ ε α P} {p : P}

omit [DecidableEq α] in
theorem set_self (m : Machine σ ε α P) (p : P) : m.set p (m.pc p) m.st = m := by
  unfold set
  rw [Function.update_eq_self]

theorem step_call {c : C} (h : Step code m (.call p c) n) :
    m.pc p = none ∧ n = m.set p (some (code c)) m.st := by
  rw [Step, act] at h
  cases hp : m.pc p with
  | none =>
    rw [hp] at h
    cases h
    exact ⟨rfl, rfl⟩
  | some x =>
    rw [hp] at h
    cases h

theorem step_step (h : Step code m (.step p) n) :
    ∃ x y t, m.pc p = some x ∧ x.next m.st = some (y, t) ∧ n = m.set p (some y) t := by
  rw [Step, act] at h
  cases hp : m.pc p with
  | none =>
    rw [hp] at h
    cases h
  | some x =>
    rw [hp] at h
    change (x.next m.st).map _ = some n at h
    rw [Option.map_eq_some_iff] at h
    rcases h with ⟨⟨y, t⟩, hx, rfl⟩
    exact ⟨x, y, t, rfl, hx, rfl⟩

theorem step_ret {a : α} (h : Step code m (.ret p a) n) : m.pc p = some (.ret a) ∧ n = m.set p none m.st := by
  rw [Step, act] at h
  split at h
  · rename_i b hp
    split at h
    · rename_i hab
      cases h
      exact ⟨by rw [hp, hab], rfl⟩
    · cases h
  · cases h

theorem call_step {c : C} (hp : m.pc p = none) : Step code m (.call p c) (m.set p (some (code c)) m.st) := by
  rw [Step, act, hp]

theorem step_of_next {x y : Prog σ ε α} {t : σ} (hp : m.pc p = some x) (hx : x.next m.st = some (y, t)) :
    Step code m (.step p) (m.set p (some y) t) := by
  rw [Step, act, hp]
  dsimp only
  rw [hx]
  rfl

theorem ret_step {a : α} (hp : m.pc p = some (.ret a)) : Step code m (.ret p a) (m.set p none m.st) := by
  rw [Step, act, hp]
  exact if_pos rfl

theorem run_of_foldlM {as : List (Move P C α)} (h : as.foldlM (fun m l => m.act code l) m = some n) :
    Run (Step code) m as n := by
  induction as generalizing m with
  | nil =>
    cases h
    exact Run.nil
  | cons a as ih =>
    rw [List.foldlM_cons, Option.bind_eq_bind, Option.bind_eq_some_iff] at h
    rcases h with ⟨k, hk, h⟩
    exact Run.cons hk (ih h)

end Machine

/-! ### Simulation -/

/-- Each step of the one system is a run of the other that shows the same. -/
theorem Run.simulate {σ τ A B V : Type*} {step : σ → A → σ → Prop} {step' : τ → B → τ → Prop} {R : σ → τ → Prop}
    {f : A → Option V} {g : B → Option V} {s t : σ} {x : τ} {as : List A}
    (hstep : ∀ s a t x, R s x → step s a t → ∃ bs y, Run step' x bs y ∧ R t y ∧ bs.filterMap g = (f a).toList)
    (r : Run step s as t) (h : R s x) : ∃ bs y, Run step' x bs y ∧ R t y ∧ bs.filterMap g = as.filterMap f := by
  induction r with
  | nil => exact ⟨[], x, Run.nil, h, rfl⟩
  | @snoc as t u a _ hst ih =>
    rcases ih with ⟨bs, y, hrun, hR, hobs⟩
    rcases hstep t a u y hR hst with ⟨bs', z, hrun', hR', hobs'⟩
    refine ⟨bs ++ bs', z, hrun.append hrun', hR', ?_⟩
    rw [List.filterMap_append, List.filterMap_append, hobs, hobs']
    congr 1

end Yonix
