import GitlstreeFS.SplitOn
import GitlstreeFS.SplitString

/-!
# The pieces that `SplitStringUsing` returns

Where all positions are `int`s, the pieces are those of `List.splitOn`: they hold no separator, and joined by
it they give the string back (`splitStringUsing_join`). With `token_compress` the empty ones are dropped, but
for the last: the loop takes a last round at the end of the string, where `i` is `npos` and so is not
`prev`. What is dropped is what should be dropped just if the string does not end with the separator
(`dropsEmpty_iff`).
-/

namespace GitlstreeFS

open SplitOn

variable {s r : Str} {c : UInt8} {b : Bool} {pos : ℕ}

/-- The pieces, from a position on. -/
theorem pieces_splitOn (b : Bool) (h : pos + r.length < 0x80000000) :
    Pieces c b pos r (if b then dropRuns (r.splitOn c) else r.splitOn c) := by
  induction r using split_induction (c := c) generalizing pos with
  | h_last r h_r =>
    rw [List.splitOn_eq_singleton h_r, dropRuns_singleton, ite_self]
    exact .last h_r
  | h_next a r ha ih =>
    rw [List.length_append, List.length_cons] at h
    have h_rest : pos + a.length + 1 + r.length < 0x80000000 := by omega
    have h_next := Pieces.next ha (by omega) (ih h_rest)
    rw [push] at h_next
    rw [List.splitOn_append_cons_self_of_not_mem ha, dropRuns_cons a (List.splitOn_ne_nil c r)]
    cases b with
    | false => exact h_next
    | true => simpa using h_next

/-- **What `SplitStringUsing` returns**, as long as all positions are `int`s. -/
theorem splitStringUsing_eq (h : s.length < 0x7fffffff) (h_ne : s ≠ []) (b : Bool) :
    splitStringUsing s c b = .ok (if b then dropRuns (s.splitOn c) else s.splitOn c) :=
  splitStringUsing_eq_ok_iff.mpr (.inr ⟨h_ne, pieces_splitOn b (by omega)⟩)

/-! ### Joining -/

/-- **Joining undoes splitting.** The pieces hold no separator, and there is one more than there are
separators. -/
theorem splitStringUsing_join (s : Str) (c : UInt8) (h : s.length < 0x7fffffff) :
    ∃ l, splitStringUsing s c false = .ok l ∧ (∀ x ∈ l, c ∉ x) ∧ [c].intercalate l = s
      ∧ (s ≠ [] → l.length = s.count c + 1) := by
  by_cases h_nil : s = []
  · -- the loop makes no round
    subst h_nil
    exact ⟨[], rfl, nofun, List.intercalate_nil, fun h_ne => absurd rfl h_ne⟩
  · exact ⟨s.splitOn c, splitStringUsing_eq h h_nil false, notMem_of_mem_splitOn s,
      List.intercalate_splitOn c, fun _ => length_splitOn s⟩

/-- A separator at each end, and two that are adjacent. -/
theorem splitStringUsing_join_spaces :
    ∃ l, splitStringUsing (str " a  b ") space false = .ok l ∧ (∀ x ∈ l, space ∉ x)
      ∧ [space].intercalate l = str " a  b "
      ∧ (str " a  b " ≠ [] → l.length = (str " a  b ").count space + 1) :=
  splitStringUsing_join (str " a  b ") space (by decide)

/-! ### Dropping the empty pieces -/

/-- With `token_compress`, the pieces are those that are not empty. -/
def DropsEmpty (s : Str) (c : UInt8) : Prop :=
  splitStringUsing s c true = (splitStringUsing s c false).map dropEmpty

/-- Who counts the pieces counts those that are not empty. -/
def CountsNonempty (s : Str) (c : UInt8) : Prop :=
  (splitStringUsing s c true).map List.length
    = (splitStringUsing s c false).map fun l => (dropEmpty l).length

/-- **The empty pieces are dropped**, and the others counted, just if the string does not end with the
separator. -/
theorem dropsEmpty_iff (s : Str) (c : UInt8) (h : s.length < 0x7fffffff) :
    (DropsEmpty s c ↔ s.getLast? ≠ some c) ∧ (CountsNonempty s c ↔ s.getLast? ≠ some c) := by
  by_cases h_nil : s = []
  · subst h_nil
    exact ⟨iff_of_true rfl nofun, iff_of_true rfl nofun⟩
  · have h_last : (s.splitOn c).getLast? ≠ some [] ↔ s.getLast? ≠ some c := by
      rw [ne_eq, getLast?_splitOn_eq_nil_iff, or_iff_right h_nil]
    obtain ⟨h_pieces, h_count⟩ := dropRuns_eq_dropEmpty_iff (List.splitOn_ne_nil c s)
    rw [DropsEmpty, CountsNonempty, splitStringUsing_eq h h_nil, splitStringUsing_eq h h_nil]
    constructor
    · exact Iff.trans ⟨Except.ok.inj, congrArg Except.ok⟩ (h_pieces.trans h_last)
    · exact Iff.trans ⟨Except.ok.inj, congrArg Except.ok⟩ (h_count.trans h_last)

/-- Between the fields there may be any number of separators. -/
theorem dropsEmpty_runs : DropsEmpty (str "  a  b") space ∧ CountsNonempty (str "  a  b") space :=
  ⟨(dropsEmpty_iff (str "  a  b") space (by decide)).1.mpr (by decide),
    (dropsEmpty_iff (str "  a  b") space (by decide)).2.mpr (by decide)⟩

/-- Behind them there may not be one. -/
theorem not_dropsEmpty_trailing :
    splitStringUsing (str "a ") space true = .ok [str "a", []]
      ∧ splitStringUsing (str "a ") space false = .ok [str "a", []]
      ∧ ¬ DropsEmpty (str "a ") space ∧ ¬ CountsNonempty (str "a ") space := by
  have h_true : splitStringUsing (str "a ") space true = .ok [str "a", []] := by decide
  have h_false : splitStringUsing (str "a ") space false = .ok [str "a", []] := by decide
  refine ⟨h_true, h_false, ?_, ?_⟩
  · rw [DropsEmpty, h_true, h_false]
    exact fun h => absurd (Except.ok.inj h) (by decide)
  · rw [CountsNonempty, h_true, h_false]
    exact fun h => absurd (Except.ok.inj h) (by decide)

end GitlstreeFS
