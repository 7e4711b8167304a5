import Mathlib.Algebra.Order.BigOperators.Group.Finset
import Mathlib.Logic.Relation

/-!
# Systems that come to rest

A system takes steps, and is at rest where it can take none. If an invariant is kept and each step lowers a
rank, then all runs are finite; and if the system is at rest only where something holds, then each run can
go on until it does (`ComesToRest`).

`sum_rank_lt` is for systems of several parts of which a step changes one.
-/

namespace Effect.Descent

open Relation (ReflTransGen)

variable {σ : Type*} {Step : σ → σ → Prop} {s s' : σ}

/-! ### Runs -/

/-- A run of so many steps. -/
inductive Steps (Step : σ → σ → Prop) : ℕ → σ → σ → Prop
  | none {s : σ} : Steps Step 0 s s
  | more {n : ℕ} {s s' s'' : σ} (h : Step s s') (h_rest : Steps Step n s' s'') : Steps Step (n + 1) s s''

/-- No step can be taken. -/
def AtRest (Step : σ → σ → Prop) (s : σ) : Prop :=
  ∀ s', ¬ Step s s'

/-- All runs are finite, and end where `P` holds. -/
structure ComesToRest (Step : σ → σ → Prop) (s : σ) (P : σ → Prop) : Prop where
  bounded : ∃ n, ∀ k s', Steps Step k s s' → k ≤ n
  rests : ∀ s', ReflTransGen Step s s' → AtRest Step s' → P s'

/-- **The induction over a run.** What steps preserve, runs preserve. -/
theorem preserved {Inv : σ → Prop} (h_step : ∀ s s', Inv s → Step s s' → Inv s') (h : Inv s)
    (h_run : ReflTransGen Step s s') : Inv s' := by
  induction h_run with
  | refl => exact h
  | tail _ h_last ih => exact h_step _ _ ih h_last

/-! ### Ranks -/

variable {Inv : σ → Prop} {rank : σ → ℕ} {n : ℕ}

/-- The rank bounds the length of a run. -/
theorem length_le (h_step : ∀ s s', Inv s → Step s s' → Inv s')
    (h_rank : ∀ s s', Inv s → Step s s' → rank s' < rank s) (h : Inv s) (h_run : Steps Step n s s') :
    n ≤ rank s := by
  induction h_run with
  | none => exact Nat.zero_le _
  | @more n s s₁ s₂ h_first _ ih =>
    have h_le : n ≤ rank s₁ := ih (h_step s s₁ h h_first)
    have h_lt : rank s₁ < rank s := h_rank s s₁ h h_first
    omega

/-- **Coming to rest**: by an invariant and a rank. -/
theorem ComesToRest.of_rank {P : σ → Prop} (h_step : ∀ s s', Inv s → Step s s' → Inv s')
    (h_rank : ∀ s s', Inv s → Step s s' → rank s' < rank s)
    (h_rest : ∀ s, Inv s → AtRest Step s → P s) (h : Inv s) : ComesToRest Step s P where
  bounded := ⟨rank s, fun _ _ h_run => length_le h_step h_rank h h_run⟩
  rests s' h_run h_end := h_rest s' (preserved h_step h h_run) h_end

/-! ### Parts -/

variable {ι α : Type*} [Fintype ι] [DecidableEq ι]

/-- Where one part lowers its rank, the sum is lower. -/
theorem sum_rank_lt {f : ι → α → ℕ} {parts : ι → α} {i : ι} {a : α} (h : f i a < f i (parts i)) :
    ∑ j, f j (Function.update parts i a j) < ∑ j, f j (parts j) := by
  refine Finset.sum_lt_sum (fun j _ => ?_) ⟨i, Finset.mem_univ i, ?_⟩
  · by_cases h_eq : j = i
    · subst h_eq
      rw [Function.update_self]
      exact h.le
    · rw [Function.update_of_ne h_eq]
  · rwa [Function.update_self]

end Effect.Descent
