import Mathlib.Data.Nat.Notation
import Mathlib.Tactic.Common

/-!
# Patterns

A pattern is matched character by character. Some of the characters separate the components of a name; no
wildcard matches these, so a pattern says how many of them a string has (`Matches.count_eq`).

`Matches` is what it is to match, `eval` computes it (`eval_iff`).
-/

namespace GitlstreeFS.Glob

variable {α : Type}

/-- A piece of a pattern. -/
inductive Item (α : Type) where
  /-- The character itself. -/
  | char (a : α)
  /-- One character of a set, but not a separator. -/
  | oneOf (set : α → Bool)
  /-- Any number of characters, but no separator. -/
  | star

/-- The string matches the pattern. -/
inductive Matches (sep : α) : List (Item α) → List α → Prop where
  | nil : Matches sep [] []
  | char {a : α} {p : List (Item α)} {s : List α} (h : Matches sep p s) :
      Matches sep (.char a :: p) (a :: s)
  | oneOf {set : α → Bool} {a : α} {p : List (Item α)} {s : List α} (h_sep : a ≠ sep) (h_set : set a = true)
      (h : Matches sep p s) : Matches sep (.oneOf set :: p) (a :: s)
  | done {p : List (Item α)} {s : List α} (h : Matches sep p s) : Matches sep (.star :: p) s
  | more {a : α} {p : List (Item α)} {s : List α} (h_sep : a ≠ sep) (h : Matches sep (.star :: p) s) :
      Matches sep (.star :: p) (a :: s)

variable [DecidableEq α] {sep : α} {p : List (Item α)} {s t : List α}

/-! ### Separators -/

/-- The number of separators that a pattern asks for. -/
def separators (sep : α) : List (Item α) → ℕ
  | [] => 0
  | .char a :: p => separators sep p + if a = sep then 1 else 0
  | .oneOf _ :: p => separators sep p
  | .star :: p => separators sep p

/-- **The separators of a string** are those of the pattern. -/
theorem Matches.count_eq (h : Matches sep p s) : s.count sep = separators sep p := by
  induction h with
  | nil => rfl
  | @char a p s _ ih => rw [List.count_cons, separators, ih, beq_eq_decide]; simp
  | oneOf h_sep _ _ ih => rw [List.count_cons_of_ne h_sep, separators, ih]
  | done _ ih => rw [separators, ih]
  | more h_sep _ ih => rw [List.count_cons_of_ne h_sep, ih]

/-- Two strings with different numbers of separators do not both match. -/
theorem Matches.count_congr (h : Matches sep p s) (h' : Matches sep p t) : s.count sep = t.count sep :=
  h.count_eq.trans h'.count_eq.symm

/-! ### Evaluation -/

/-- The rest of the pattern matches behind some of the characters, none of which is a separator. -/
def evalStar (sep : α) (rest : List α → Bool) : List α → Bool
  | [] => rest []
  | a :: s => rest (a :: s) || (a ≠ sep && evalStar sep rest s)

/-- Whether the string matches. -/
def eval (sep : α) : List (Item α) → List α → Bool
  | [], s => s.isEmpty
  | .char _ :: _, [] => false
  | .char a :: p, b :: s => a = b && eval sep p s
  | .oneOf _ :: _, [] => false
  | .oneOf set :: p, b :: s => b ≠ sep && set b && eval sep p s
  | .star :: p, s => evalStar sep (eval sep p) s

theorem evalStar_iff {rest : List α → Bool} (h_rest : ∀ s, rest s = true ↔ Matches sep p s) :
    evalStar sep rest s = true ↔ Matches sep (.star :: p) s := by
  induction s with
  | nil =>
    rw [evalStar, h_rest]
    exact ⟨.done, fun h => by cases h; assumption⟩
  | cons a s ih =>
    rw [evalStar, Bool.or_eq_true, Bool.and_eq_true, decide_eq_true_iff, h_rest, ih]
    constructor
    · rintro (h | ⟨h_sep, h⟩)
      · exact .done h
      · exact .more h_sep h
    · intro h
      cases h with
      | done h => exact .inl h
      | more h_sep h => exact .inr ⟨h_sep, h⟩

/-- **The evaluation is right.** -/
theorem eval_iff : eval sep p s = true ↔ Matches sep p s := by
  induction p generalizing s with
  | nil =>
    rw [eval, List.isEmpty_iff]
    exact ⟨fun h => h ▸ .nil, fun h => by cases h; rfl⟩
  | cons item p ih =>
    cases item with
    | char a =>
      cases s with
      | nil => exact iff_of_false Bool.false_ne_true nofun
      | cons b s =>
        rw [eval, Bool.and_eq_true, decide_eq_true_iff, ih]
        exact ⟨fun ⟨h_eq, h⟩ => h_eq ▸ .char h, fun h => by cases h; exact ⟨rfl, by assumption⟩⟩
    | oneOf set =>
      cases s with
      | nil => exact iff_of_false Bool.false_ne_true nofun
      | cons b s =>
        rw [eval, Bool.and_eq_true, Bool.and_eq_true, decide_eq_true_iff, ih]
        exact ⟨fun ⟨⟨h_sep, h_set⟩, h⟩ => .oneOf h_sep h_set h, fun h => by
          cases h with | oneOf h_sep h_set h => exact ⟨⟨h_sep, h_set⟩, h⟩⟩
    | star => exact evalStar_iff fun _ => ih

end GitlstreeFS.Glob
