/-
  Yonix/Lib/Wp.lean
  =================
  **Pre- and postconditions for stateful code that can stop.**

  A piece of code is a function `σ → Except ε (α × σ)`.  `wp E x Q s` says that `x`,
  started in `s`, either returns with `Q`, or stops with an error in `E`.  With `E`
  everything it is partial correctness; with `E` empty it says that the code returns;
  in between, `E` lists the ways of stopping that are accounted for.  The rules below
  follow the code: a rule for each way of putting code together, one for weakening, and
  one that reads a postcondition off a known result.

  Nothing here mentions a particular program.
-/
import Yonix.Lib.Run

namespace Yonix

variable {σ ε α β : Type} {E E' : ε → Prop} {s t : σ}

/-- Code on a state `σ` that can stop with an `ε`. -/
abbrev Code (σ ε α : Type) := StateT σ (Except ε) α

/-- The code stops. -/
def stop (e : ε) : Code σ ε α := fun _ => .error e

def wp (E : ε → Prop) (x : Code σ ε α) (Q : α → σ → Prop) (s : σ) : Prop :=
  match x s with
  | .ok (a, t) => Q a t
  | .error e => E e

variable {x : Code σ ε α} {f : α → Code σ ε β} {P Q : α → σ → Prop} {R : β → σ → Prop} {a : α}

theorem code_bind {b : β} : (x >>= f) s = .ok (b, t) ↔ ∃ a u, x s = .ok (a, u) ∧ f a u = .ok (b, t) := by
  change (x s >>= fun p => f p.1 p.2) = _ ↔ _
  rw [bind_eq_ok]
  constructor
  · rintro ⟨⟨a, u⟩, h1, h2⟩
    exact ⟨a, u, h1, h2⟩
  · rintro ⟨a, u, h1, h2⟩
    exact ⟨(a, u), h1, h2⟩

theorem get_bind {g : σ → Code σ ε β} : ((get : Code σ ε σ) >>= g) s = g s s := rfl

theorem modify_bind {m : σ → σ} {g : PUnit → Code σ ε β} :
    ((modify m : Code σ ε PUnit) >>= g) s = g ⟨⟩ (m s) := rfl

theorem wp_of_ok (h : x s = .ok (a, t)) (hQ : Q a t) : wp E x Q s := by
  unfold wp
  rw [h]
  exact hQ

theorem wp_of_error {e : ε} (h : x s = .error e) (hE : E e) : wp E x Q s := by
  unfold wp
  rw [h]
  exact hE

theorem wp.ok (h : wp E x Q s) (hx : x s = .ok (a, t)) : Q a t := by
  unfold wp at h
  rwa [hx] at h

theorem wp.error {e : ε} (h : wp E x Q s) (hx : x s = .error e) : E e := by
  unfold wp at h
  rwa [hx] at h

theorem wp_of_forall (h : ∀ a t, x s = .ok (a, t) → Q a t) : wp (fun _ => True) x Q s := by
  unfold wp
  split
  · rename_i a t hx
    exact h a t hx
  · trivial

theorem wp.mono (h : wp E x P s) (hPQ : ∀ a t, P a t → Q a t) : wp E x Q s := by
  unfold wp at *
  split
  · rename_i a t hx
    rw [hx] at h
    exact hPQ a t h
  · rename_i e hx
    rwa [hx] at h

theorem wp.weaken (h : wp E x Q s) (hE : ∀ e, E e → E' e) : wp E' x Q s := by
  unfold wp at *
  split
  · rename_i a t hx
    rwa [hx] at h
  · rename_i e hx
    rw [hx] at h
    exact hE e h

theorem wp.and (h : wp E x P s) (h' : wp E x Q s) : wp E x (fun a t => P a t ∧ Q a t) s := by
  unfold wp at *
  split
  · rename_i a t hx
    rw [hx] at h h'
    exact ⟨h, h'⟩
  · rename_i e hx
    rwa [hx] at h

theorem wp_pure (h : Q a s) : wp E (pure a) Q s := h

theorem wp_stop {e : ε} (h : E e) : wp E (stop e : Code σ ε α) Q s := h

theorem wp_bind (hx : wp E x P s) (hf : ∀ a t, P a t → wp E (f a) R t) : wp E (x >>= f) R s := by
  unfold wp at hx
  cases h : x s with
  | error e =>
    rw [h] at hx
    refine wp_of_error ?_ hx
    change (x s >>= fun p => f p.1 p.2) = _
    rw [h]
    rfl
  | ok p =>
    obtain ⟨a, t⟩ := p
    rw [h] at hx
    have h' : (x >>= f) s = f a t := by
      change (x s >>= fun p => f p.1 p.2) = _
      rw [h]
      rfl
    have hR := hf a t hx
    unfold wp at *
    rwa [h']

theorem wp_get {Q : σ → σ → Prop} (h : Q s s) : wp E (get : Code σ ε σ) Q s := h

theorem wp_modify {g : σ → σ} {Q : PUnit → σ → Prop} (h : Q ⟨⟩ (g s)) :
    wp E (modify g : Code σ ε PUnit) Q s := h

theorem wp_get_bind {g : σ → Code σ ε β} (h : wp E (g s) R s) : wp E (get >>= g) R s := h

theorem wp_modify_bind {m : σ → σ} {g : PUnit → Code σ ε β} (h : wp E (g ⟨⟩) R (m s)) :
    wp E (modify m >>= g) R s := h

/-- Code that does not stop returns. -/
theorem wp_total (h : wp (fun _ => False) x Q s) : ∃ a t, x s = .ok (a, t) ∧ Q a t := by
  unfold wp at h
  split at h
  · rename_i a t hx
    exact ⟨a, t, hx, h⟩
  · exact h.elim

theorem wp_ite {c : Prop} [Decidable c] {y : Code σ ε α} (hx : c → wp E x Q s)
    (hy : ¬ c → wp E y Q s) : wp E (if c then x else y) Q s := by
  split
  · rename_i h
    exact hx h
  · rename_i h
    exact hy h

end Yonix
