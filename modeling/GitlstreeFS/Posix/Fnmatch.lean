import GitlstreeFS.Glob
import GitlstreeFS.Text

/-!
# `fnmatch`

`fnmatch` with `FNM_PATHNAME` in the POSIX locale. A pattern is first freed of its backslashes (`tokens`), then
its bracket expressions are found (`bracket`), and what comes out is matched with the slash as the separator.

A bracket that is not closed, or has a slash in it, is no bracket expression, and stands for itself.
-/

namespace GitlstreeFS.Posix.Fnmatch

open Glob

/-- A character of a pattern: after a backslash it has no special meaning. -/
inductive Token where
  | plain (c : UInt8)
  | quoted (c : UInt8)
  deriving DecidableEq, Repr

/-- The character that a token stands for. -/
def Token.char : Token → UInt8
  | .plain c => c
  | .quoted c => c

/-- The tokens of a pattern. With a backslash at the end there is nothing that it matches. -/
def tokens : Str → Option (List Token)
  | [] => some []
  | [c] => if c = 0x5c then none else some [.plain c]
  | c :: d :: p =>
    if c = 0x5c then (tokens p).map (.quoted d :: ·) else (tokens (d :: p)).map (.plain c :: ·)

/-- The tokens begin with these characters. -/
def begins (s : Str) (p : List Token) : Bool :=
  (s.map Token.plain).isPrefixOf p

/-! ### Bracket expressions -/

/-- The character classes. -/
def classes : List (Str × List (UInt8 × UInt8)) :=
  [(str "alnum", [(0x30, 0x39), (0x41, 0x5a), (0x61, 0x7a)]),
    (str "alpha", [(0x41, 0x5a), (0x61, 0x7a)]),
    (str "blank", [(0x09, 0x09), (0x20, 0x20)]),
    (str "cntrl", [(0x00, 0x1f), (0x7f, 0x7f)]),
    (str "digit", [(0x30, 0x39)]),
    (str "graph", [(0x21, 0x7e)]),
    (str "lower", [(0x61, 0x7a)]),
    (str "print", [(0x20, 0x7e)]),
    (str "punct", [(0x21, 0x2f), (0x3a, 0x40), (0x5b, 0x60), (0x7b, 0x7e)]),
    (str "space", [(0x09, 0x0d), (0x20, 0x20)]),
    (str "upper", [(0x41, 0x5a)]),
    (str "xdigit", [(0x30, 0x39), (0x41, 0x46), (0x61, 0x66)])]

/-- `[:alpha:]` and the others, and how many tokens they have. -/
def characterClass (p : List Token) : Option (List (UInt8 × UInt8) × ℕ) :=
  classes.findSome? fun (name, ranges) =>
    if begins (str "[:" ++ name ++ str ":]") p then some (ranges, name.length + 4) else none

/-- A character, or `[.c.]`, or `[=c=]`, and how many tokens it has. -/
def endpoint : List Token → Option (UInt8 × ℕ)
  | [] => none
  | t :: p =>
    if t.char = slash then none
    else if begins (str "[.") (t :: p) ∧ begins (str ".]") (p.drop 2)
        ∨ begins (str "[=") (t :: p) ∧ begins (str "=]") (p.drop 2) then
      (p[1]?.filter (·.char ≠ slash)).map fun c => (c.char, 5)
    else some (t.char, 1)

/-- A class, a character or a range. -/
def element (p : List Token) : Option (List (UInt8 × UInt8) × ℕ) :=
  match characterClass p with
  | some found => some found
  | none => do
    let (a, i) ← endpoint p
    -- a minus is a range, unless it is the last one in the brackets
    if begins (str "-") (p.drop i) ∧ ¬ begins (str "]") (p.drop (i + 1)) then
      let (b, j) ← endpoint (p.drop (i + 1))
      return ([(a, b)], i + 1 + j)
    else return ([(a, a)], i)

/-- The elements up to the `]`, and how many tokens they have with it. The next `skip` tokens belong to the
element before. A `]` at the beginning is an element. -/
def elements : Bool → ℕ → List Token → Option (List (UInt8 × UInt8) × ℕ)
  | _, _, [] => none
  | _, skip + 1, _ :: p => (elements false skip p).map fun r => (r.1, r.2 + 1)
  | first, 0, t :: p =>
    if t = .plain 0x5d ∧ ¬ first then some ([], 1)
    else do
      let (ranges, n) ← element (t :: p)
      let (others, count) ← elements false (n - 1) p
      return (ranges ++ others, count + 1)

/-- Whether a character is in one of the ranges. -/
def inRanges (ranges : List (UInt8 × UInt8)) (c : UInt8) : Bool :=
  ranges.any fun r => r.1 ≤ c ∧ c ≤ r.2

/-- What is behind a `[`: the set of the bracket expression, and how many tokens it has. -/
def bracket (p : List Token) : Option ((UInt8 → Bool) × ℕ) :=
  if begins (str "!") p ∨ begins (str "^") p then
    (elements true 0 (p.drop 1)).map fun r => (fun c => !inRanges r.1 c, r.2 + 1)
  else (elements true 0 p).map fun r => (inRanges r.1, r.2)

/-! ### `fnmatch` -/

/-- The pieces of the pattern. The next `skip` tokens belong to the bracket expression before. -/
def items : ℕ → List Token → List (Item UInt8)
  | _, [] => []
  | skip + 1, _ :: p => items skip p
  | 0, t :: p =>
    if t = .plain 0x2a then .star :: items 0 p
    else if t = .plain 0x3f then .oneOf (fun _ => true) :: items 0 p
    else if t = .plain 0x5b then
      match bracket p with
      | some (set, n) => .oneOf set :: items n p
      -- a bracket that is not closed stands for itself
      | none => .char 0x5b :: items 0 p
    else .char t.char :: items 0 p

/-- `fnmatch(pattern, string, FNM_PATHNAME) == 0`. -/
def fnmatch (pattern string : Str) : Bool :=
  match tokens pattern with
  | some p => eval slash (items 0 p) string
  | none => false

example : fnmatch (str "c*.[!a-c[:digit:]]") (str "cowfs.h") = true := by decide +kernel

example : fnmatch (str "a[b/c]*") (str "a[b/c]d") = true := by decide +kernel

/-- **A pattern says how many slashes there are**: none of the wildcards matches one. -/
theorem count_slash_congr {pattern s t : Str} (hs : fnmatch pattern s = true) (ht : fnmatch pattern t = true) :
    s.count slash = t.count slash := by
  unfold fnmatch at hs ht
  cases h_p : tokens pattern with
  | none =>
    rw [h_p] at hs
    cases hs
  | some p =>
    rw [h_p] at hs ht
    exact (eval_iff.mp hs).count_congr (eval_iff.mp ht)

end GitlstreeFS.Posix.Fnmatch
