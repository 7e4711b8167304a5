import Mathlib.Data.Nat.Notation
import Mathlib.Logic.Basic

/-!
# Loops of a program with a state and faults

A `Proc` is a piece of sequential code with a state in `σ` that yields an `α` or ends with a fault.
A `while` loop is `Proc.loop`, whose body says after each iteration whether it goes on; a bound on the
number of iterations takes the place of its termination.

`Runs` says what a piece does from a state on: it keeps an invariant, moves the state along a preorder,
ends with none but the allowed faults, and yields what it should. The rule for loops (`Runs.loop`) asks
for a variant that every iteration decreases that goes on; then a bound above the variant is never
reached.
-/

namespace Effect

/-- Code that yields an `α` or ends with a fault, and leaves a state behind. -/
def Proc (ε σ α : Type) := σ → Except ε α × σ

namespace Proc

variable {ε σ α β : Type}

/-- What comes behind a piece of code, with the result it left. -/
def next (f : α → Proc ε σ β) : Except ε α × σ → Except ε β × σ
  | (.ok a, s) => f a s
  | (.error e, s) => (.error e, s)

instance : Monad (Proc ε σ) where
  pure a s := (.ok a, s)
  bind m f s := next f (m s)

/-- The code ends with a fault. -/
def throw (e : ε) : Proc ε σ α :=
  fun s => (.error e, s)

theorem pure_apply (a : α) (s : σ) : (pure a : Proc ε σ α) s = (.ok a, s) := rfl

theorem bind_apply (m : Proc ε σ α) (f : α → Proc ε σ β) (s : σ) : (m >>= f) s = next f (m s) := rfl

end Proc

/-- What an iteration of a loop comes to. -/
inductive Iteration (α β : Type) where
  /-- The loop goes on, with what it has gathered. -/
  | goOn (a : α)
  /-- The loop is left. -/
  | leave (b : β)

/-- A loop: `a` is what it has gathered, and after `n` iterations it is cut off. -/
def Proc.loop {ε σ α β : Type} (cut : ε) (body : α → Proc ε σ (Iteration α β)) :
    ℕ → α → Proc ε σ β
  | 0, _ => throw cut
  | n + 1, a => do
    match ← body a with
    | .goOn a => loop cut body n a
    | .leave b => return b

/-! ### What code does -/

section Runs

variable {ε σ α β : Type} (I : σ → Prop) (R : σ → σ → Prop) (E : ε → Prop)

/-- From `s` on, `m` keeps the invariant `I`, moves along `R`, ends with no fault outside `E`, and
otherwise yields what `Q` asks for. -/
structure Runs (m : Proc ε σ α) (s : σ) (Q : α → σ → Prop) : Prop where
  inv : I (m s).2
  rel : R s (m s).2
  fault : ∀ e, (m s).1 = .error e → E e
  post : ∀ a, (m s).1 = .ok a → Q a (m s).2

/-- `A` where the loop goes on, `B` where it is left. -/
def Iteration.Post (A : α → Prop) (B : β → Prop) : Iteration α β → Prop
  | .goOn a => A a
  | .leave b => B b

variable {I R E} {m : Proc ε σ α} {s : σ} {Q Q' : α → σ → Prop}

theorem Runs.mono (h : Runs I R E m s Q) (h_post : ∀ a s', Q a s' → Q' a s') : Runs I R E m s Q' where
  inv := h.inv
  rel := h.rel
  fault := h.fault
  post a h_eq := h_post a _ (h.post a h_eq)

/-- What was true of the state before stays true of it. -/
theorem Runs.with (h : Runs I R E m s Q) :
    Runs I R E m s fun a s' => I s' ∧ R s s' ∧ Q a s' where
  inv := h.inv
  rel := h.rel
  fault := h.fault
  post a h_eq := ⟨h.inv, h.rel, h.post a h_eq⟩

theorem Runs.ite {c : Prop} [Decidable c] {m' : Proc ε σ α} (h : c → Runs I R E m s Q)
    (h' : ¬ c → Runs I R E m' s Q) : Runs I R E (if c then m else m') s Q := by
  by_cases hc : c
  · rw [if_pos hc]
    exact h hc
  · rw [if_neg hc]
    exact h' hc

variable (h_refl : ∀ s, R s s) (h_trans : ∀ s s' s'', R s s' → R s' s'' → R s s'')

include h_refl in
theorem Runs.pure {a : α} (h_inv : I s) (h : Q a s) : Runs I R E (pure a) s Q where
  inv := h_inv
  rel := h_refl s
  fault _ h_eq := by cases h_eq
  post a' h_eq := by
    obtain rfl := Except.ok.inj h_eq
    exact h

include h_refl in
theorem Runs.throw {e : ε} (h_inv : I s) (h : E e) : Runs I R E (Proc.throw e) s Q where
  inv := h_inv
  rel := h_refl s
  fault e' h_eq := by
    obtain rfl := Except.error.inj h_eq
    exact h
  post a h_eq := by cases h_eq

include h_trans in
theorem Runs.bind {f : α → Proc ε σ β} {Q' : β → σ → Prop} (h : Runs I R E m s Q)
    (h_next : ∀ a s', I s' → R s s' → Q a s' → Runs I R E (f a) s' Q') :
    Runs I R E (m >>= f) s Q' := by
  rcases h_eq : m s with ⟨e | a, s'⟩
  · have h_bind : (m >>= f) s = (.error e, s') := by
      rw [Proc.bind_apply, h_eq]
      rfl
    constructor
    case inv => rw [h_bind]; simpa [h_eq] using h.inv
    case rel => rw [h_bind]; simpa [h_eq] using h.rel
    case fault =>
      intro e' h_error
      rw [h_bind] at h_error
      obtain rfl := Except.error.inj h_error
      exact h.fault e (by rw [h_eq])
    case post =>
      intro b h_ok
      rw [h_bind] at h_ok
      cases h_ok
  · have h_bind : (m >>= f) s = f a s' := by
      rw [Proc.bind_apply, h_eq]
      rfl
    have h_inv := h.inv
    have h_rel := h.rel
    have h_post := h.post a (by rw [h_eq])
    rw [h_eq] at h_inv h_rel h_post
    have h_f := h_next a s' h_inv h_rel h_post
    constructor
    case inv => rw [h_bind]; exact h_f.inv
    case rel => rw [h_bind]; exact h_trans _ _ _ h_rel h_f.rel
    case fault => rw [h_bind]; exact h_f.fault
    case post => rw [h_bind]; exact h_f.post

include h_refl h_trans in
/-- **The rule for loops.** `J` holds at the beginning of each iteration, and `variant` becomes smaller
with each that goes on. A loop that may run for longer than its variant says is not cut off. -/
theorem Runs.loop {cut : ε} {body : α → Proc ε σ (Iteration α β)} {J : α → σ → Prop}
    {Q : β → σ → Prop} (variant : σ → ℕ)
    (h_body : ∀ a s, I s → J a s → Runs I R E (body a) s fun r s' =>
      r.Post (fun a' => J a' s' ∧ variant s' < variant s) fun b => Q b s')
    (n : ℕ) (a : α) (s : σ) (h_inv : I s) (h : J a s) (hn : variant s < n) :
    Runs I R E (Proc.loop cut body n a) s Q := by
  induction n generalizing a s with
  | zero => exact absurd hn (Nat.not_lt_zero _)
  | succ n ih =>
    rw [Proc.loop]
    refine (h_body a s h_inv h).bind h_trans fun r s' h_inv' _ h_post => ?_
    cases r with
    | goOn a' => exact ih a' s' h_inv' h_post.1 (by have := h_post.2; omega)
    | leave b => exact Runs.pure h_refl h_inv' h_post

end Runs

end Effect
