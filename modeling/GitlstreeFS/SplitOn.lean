import Mathlib.Data.Nat.Notation
import Mathlib.Tactic.Common

/-!
# Pieces between separators

A list splits at a separator into the pieces that stand between its occurrences, the first and the last of
which stand at the ends of the list (`List.splitOn`). `split_induction` is the induction on the pieces.

`dropRuns` leaves the empty pieces out, but never the last one. It leaves the same pieces as `dropEmpty`, or
just as many, only if the last one is not empty (`dropRuns_eq_dropEmpty_iff`).
-/

namespace SplitOn

variable {α : Type} [DecidableEq α] {c : α} {s a : List α} {l : List (List α)}

/-- A list is one piece, or a piece with a separator behind it and then the rest. -/
theorem split_induction {P : List α → Prop} (h_last : ∀ r, c ∉ r → P r)
    (h_next : ∀ a r, c ∉ a → P r → P (a ++ c :: r)) (s : List α) : P s := by
  by_cases h_mem : c ∈ s
  · obtain ⟨a, r, rfl, ha⟩ := List.eq_append_cons_of_mem h_mem
    exact h_next a r ha (split_induction h_last h_next r)
  · exact h_last s h_mem
termination_by s.length
decreasing_by
  subst_vars
  simp only [List.length_append, List.length_cons]
  omega

/-- No piece holds the separator. -/
theorem notMem_of_mem_splitOn (s : List α) : ∀ x ∈ s.splitOn c, c ∉ x := by
  induction s using split_induction (c := c) with
  | h_last r h =>
    intro x hx
    rw [List.splitOn_eq_singleton h] at hx
    rwa [List.mem_singleton.mp hx]
  | h_next a r ha ih =>
    intro x hx
    rw [List.splitOn_append_cons_self_of_not_mem ha] at hx
    obtain rfl | hx := List.mem_cons.mp hx
    · exact ha
    · exact ih x hx

/-- Each occurrence of the separator begins another piece. -/
theorem length_splitOn (s : List α) : (s.splitOn c).length = s.count c + 1 := by
  induction s using split_induction (c := c) with
  | h_last r h => rw [List.splitOn_eq_singleton h, List.count_eq_zero_of_not_mem h, List.length_singleton]
  | h_next a r ha ih =>
    rw [List.splitOn_append_cons_self_of_not_mem ha, List.length_cons, ih, List.count_append,
      List.count_cons_self, List.count_eq_zero_of_not_mem ha, Nat.zero_add]

/-- The last piece is empty where there is nothing behind the last separator. -/
theorem getLast?_splitOn_eq_nil_iff :
    (s.splitOn c).getLast? = some [] ↔ s = [] ∨ s.getLast? = some c := by
  induction s using split_induction (c := c) with
  | h_last r h =>
    rw [List.splitOn_eq_singleton h, List.getLast?_singleton, Option.some.injEq]
    refine (or_iff_left fun h_c => ?_).symm
    exact h (List.mem_of_getLast? h_c)
  | h_next a r ha ih =>
    obtain ⟨x, l, h_split⟩ := List.exists_cons_of_ne_nil (List.splitOn_ne_nil c r)
    rw [h_split] at ih
    rw [List.splitOn_append_cons_self_of_not_mem ha, h_split, List.getLast?_cons_cons, ih,
      List.getLast?_append]
    cases r with
    | nil => simp
    | cons b r => simp

/-! ### Leaving out what is empty -/

omit [DecidableEq α]

/-- The pieces that are not empty. -/
def dropEmpty (l : List (List α)) : List (List α) :=
  l.filter fun x => !x.isEmpty

/-- The pieces before the last that are not empty, and the last. -/
def dropRuns (l : List (List α)) : List (List α) :=
  dropEmpty l.dropLast ++ l.getLast?.toList

theorem dropRuns_singleton (a : List α) : dropRuns [a] = [a] :=
  rfl

theorem dropRuns_cons (a : List α) (h : l ≠ []) :
    dropRuns (a :: l) = if a = [] then dropRuns l else a :: dropRuns l := by
  obtain ⟨x, l, rfl⟩ := List.exists_cons_of_ne_nil h
  rw [dropRuns, dropRuns, List.dropLast_cons_cons, List.getLast?_cons_cons, dropEmpty, List.filter_cons,
    dropEmpty]
  by_cases h_a : a = []
  · rw [if_pos h_a, if_neg (by simp [h_a])]
  · rw [if_neg h_a, if_pos (by simp [h_a]), List.cons_append]

/-- **The last piece makes the difference.** -/
theorem dropRuns_eq_dropEmpty_iff (h : l ≠ []) :
    (dropRuns l = dropEmpty l ↔ l.getLast? ≠ some [])
      ∧ ((dropRuns l).length = (dropEmpty l).length ↔ l.getLast? ≠ some []) := by
  obtain ⟨l, x, rfl⟩ : ∃ l' x, l = l' ++ [x] := ⟨_, _, (List.dropLast_concat_getLast h).symm⟩
  have h_filter : dropEmpty (l ++ [x]) = dropEmpty l ++ dropEmpty [x] := List.filter_append _ _
  have h_runs : dropRuns (l ++ [x]) = dropEmpty l ++ [x] := by
    rw [dropRuns, List.dropLast_concat, List.getLast?_concat]
    rfl
  rw [h_filter, h_runs, List.getLast?_concat]
  by_cases h_x : x = []
  · subst h_x
    simp [dropEmpty]
  · have h_self : dropEmpty [x] = [x] := by simp [dropEmpty, h_x]
    rw [h_self]
    simp [h_x]

end SplitOn
