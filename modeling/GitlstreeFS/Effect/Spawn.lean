import Mathlib.Tactic.Common

/-!
# Tasks that start tasks

A task does something, and goes on with other tasks (`next`); all that have been started run at the same
time. A state of such a program is the list of the tasks that are still to be done, and a step does one of
them. So the runs have the steps in every order.

A task `Returns` if it and all tasks that come from it can be done. `Returns.finishes` says that then all
runs are finite, and go on until nothing is left; `Endless.not_finishes` that they do not if there is a
task that comes from itself.
-/

namespace Effect.Spawn

variable {α : Type} {next : α → Option (List α)}

/-! ### Runs -/

/-- One of the tasks is done. -/
inductive Step (next : α → Option (List α)) : List α → List α → Prop
  | here {a : α} {new l : List α} (h : next a = some new) : Step next (a :: l) (new ++ l)
  | there {a : α} {l l' : List α} (h : Step next l l') : Step next (a :: l) (a :: l')

/-- So many are done. -/
inductive Steps (next : α → Option (List α)) : ℕ → List α → List α → Prop
  | none {l : List α} : Steps next 0 l l
  | more {n : ℕ} {l l' l'' : List α} (h : Step next l l') (h' : Steps next n l' l'') :
      Steps next (n + 1) l l''

/-- All runs are finite, and in the end no task is left. -/
structure Finishes (next : α → Option (List α)) (a : α) : Prop where
  finite : ∃ n, ∀ k l, Steps next k [a] l → k ≤ n
  returns : ∀ k l, Steps next k [a] l → l = [] ∨ ∃ l', Step next l l'

/-- The task can be done, and so can be all that it starts. -/
inductive Returns (next : α → Option (List α)) : α → Prop
  | mk {a : α} {new : List α} (h : next a = some new) (h_new : ∀ b ∈ new, Returns next b) : Returns next a

/-- With this task there are runs of every length. -/
def Endless (next : α → Option (List α)) (a : α) : Prop :=
  ∀ n l, a ∈ l → ∃ l', Steps next n l l'

variable {a b : α} {l l' l₁ l₂ new : List α} {n : ℕ}

/-! ### Steps -/

/-- Of two lists of tasks, one goes on. -/
theorem step_append (h : Step next (l₁ ++ l₂) l') :
    (∃ l₁', Step next l₁ l₁' ∧ l' = l₁' ++ l₂) ∨ ∃ l₂', Step next l₂ l₂' ∧ l' = l₁ ++ l₂' := by
  induction l₁ generalizing l' with
  | nil => exact .inr ⟨l', h, rfl⟩
  | cons a l₁ ih =>
    cases h with
    | @here _ new _ h => exact .inl ⟨new ++ l₁, .here h, (List.append_assoc _ _ _).symm⟩
    | there h =>
      obtain ⟨l₁', h_step, rfl⟩ | ⟨l₂', h_step, rfl⟩ := ih h
      · exact .inl ⟨a :: l₁', .there h_step, rfl⟩
      · exact .inr ⟨l₂', h_step, rfl⟩

/-- A task that is there can be done. -/
theorem exists_step (h_mem : a ∈ l) (h : next a = some new) :
    ∃ l', Step next l l' ∧ ∀ b ∈ new, b ∈ l' := by
  induction l with
  | nil => exact absurd h_mem List.not_mem_nil
  | cons b l ih =>
    obtain rfl | h_mem := List.mem_cons.mp h_mem
    · exact ⟨new ++ l, .here h, fun b hb => List.mem_append_left l hb⟩
    · obtain ⟨l', h_step, h_sub⟩ := ih h_mem
      exact ⟨b :: l', .there h_step, fun c hc => List.mem_cons_of_mem b (h_sub c hc)⟩

/-! ### Tasks that return -/

/-- There are only so many steps. -/
def Bounded (next : α → Option (List α)) (l : List α) : Prop :=
  ∃ n, ∀ k l', Steps next k l l' → k ≤ n

theorem bounded_nil : Bounded next [] := by
  refine ⟨0, fun k l' h => ?_⟩
  cases h with
  | none => exact Nat.le_refl 0
  | more h _ => cases h

/-- The steps of a run are those of its parts. -/
theorem le_add_of_bounds {n₁ n₂ : ℕ} (h₁ : ∀ k l', Steps next k l₁ l' → k ≤ n₁)
    (h₂ : ∀ k l', Steps next k l₂ l' → k ≤ n₂) {k : ℕ} (h : Steps next k (l₁ ++ l₂) l') : k ≤ n₁ + n₂ := by
  induction k generalizing l₁ l₂ n₁ n₂ with
  | zero => exact Nat.zero_le _
  | succ k ih =>
    cases h with
    | more h h' =>
      obtain ⟨l₁', h_step, rfl⟩ | ⟨l₂', h_step, rfl⟩ := step_append h
      · -- the first part has made one of its steps
        have h_pos : 1 ≤ n₁ := h₁ 1 l₁' (.more h_step .none)
        have h_le := ih (fun j l'' h_j => Nat.le_sub_one_of_lt (h₁ (j + 1) l'' (.more h_step h_j))) h₂ h'
        omega
      · have h_pos : 1 ≤ n₂ := h₂ 1 l₂' (.more h_step .none)
        have h_le := ih h₁ (fun j l'' h_j => Nat.le_sub_one_of_lt (h₂ (j + 1) l'' (.more h_step h_j))) h'
        omega

theorem Bounded.append (h₁ : Bounded next l₁) (h₂ : Bounded next l₂) : Bounded next (l₁ ++ l₂) := by
  obtain ⟨n₁, h₁⟩ := h₁
  obtain ⟨n₂, h₂⟩ := h₂
  exact ⟨n₁ + n₂, fun k l' h => le_add_of_bounds h₁ h₂ h⟩

theorem bounded_of_forall (h : ∀ a ∈ l, Bounded next [a]) : Bounded next l := by
  induction l with
  | nil => exact bounded_nil
  | cons a l ih =>
    rw [List.forall_mem_cons] at h
    exact h.1.append (ih h.2)

/-- A task has one step more than what it starts. -/
theorem Bounded.task (h : next a = some new) (h_new : Bounded next new) : Bounded next [a] := by
  obtain ⟨n, h_n⟩ := h_new
  refine ⟨n + 1, fun k l' h_run => ?_⟩
  cases h_run with
  | none => exact Nat.zero_le _
  | more h_step h_run =>
    cases h_step with
    | here h' =>
      obtain rfl := Option.some.inj (h.symm.trans h')
      rw [List.append_nil] at h_run
      exact Nat.succ_le_succ (h_n _ _ h_run)
    | there h_step => cases h_step

theorem Returns.bounded (h : Returns next a) : Bounded next [a] := by
  induction h with
  | mk h _ ih => exact .task h (bounded_of_forall ih)

theorem Returns.step (h : ∀ a ∈ l, Returns next a) (h_step : Step next l l') : ∀ a ∈ l', Returns next a := by
  induction h_step with
  | @here a new l h_next =>
    rw [List.forall_mem_cons] at h
    obtain ⟨⟨h_next', h_new⟩, h_rest⟩ := h
    obtain rfl := Option.some.inj (h_next.symm.trans h_next')
    exact List.forall_mem_append.mpr ⟨h_new, h_rest⟩
  | there _ ih =>
    rw [List.forall_mem_cons] at h
    exact List.forall_mem_cons.mpr ⟨h.1, ih h.2⟩

theorem Returns.steps (h : ∀ a ∈ l, Returns next a) (h_run : Steps next n l l') :
    ∀ a ∈ l', Returns next a := by
  induction h_run with
  | none => exact h
  | more h_step _ ih => exact ih (Returns.step h h_step)

/-- **A task that returns does so in every run.** -/
theorem Returns.finishes (h : Returns next a) : Finishes next a := by
  refine ⟨h.bounded, fun k l h_run => ?_⟩
  have h_all := Returns.steps (List.forall_mem_singleton.mpr h) h_run
  cases l with
  | nil => exact .inl rfl
  | cons b l =>
    obtain ⟨h_next, _⟩ := h_all b List.mem_cons_self
    exact .inr ⟨_, .here h_next⟩

/-! ### Tasks that do not -/

/-- A task that starts itself. -/
theorem endless_of_mem (h : next a = some new) (h_mem : a ∈ new) : Endless next a := by
  intro n
  induction n with
  | zero => exact fun l _ => ⟨l, .none⟩
  | succ n ih =>
    intro l h_l
    obtain ⟨l', h_step, h_sub⟩ := exists_step h_l h
    obtain ⟨l'', h_run⟩ := ih l' (h_sub a h_mem)
    exact ⟨l'', .more h_step h_run⟩

/-- A task that starts such a task. -/
theorem Endless.of_next (h : Endless next b) (h_next : next a = some new) (h_mem : b ∈ new) :
    Endless next a := by
  intro n l h_l
  cases n with
  | zero => exact ⟨l, .none⟩
  | succ n =>
    obtain ⟨l', h_step, h_sub⟩ := exists_step h_l h_next
    obtain ⟨l'', h_run⟩ := h n l' (h_sub b h_mem)
    exact ⟨l'', .more h_step h_run⟩

/-- **Where a task comes from itself, the runs do not end.** -/
theorem Endless.not_finishes (h : Endless next a) : ¬ Finishes next a := by
  intro h_finishes
  obtain ⟨n, h_n⟩ := h_finishes.finite
  obtain ⟨l, h_run⟩ := h (n + 1) [a] (List.mem_singleton_self a)
  exact absurd (h_n _ _ h_run) (Nat.not_succ_le_self n)

end Effect.Spawn
