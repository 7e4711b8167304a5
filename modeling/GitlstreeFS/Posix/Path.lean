import Mathlib.Data.List.Infix
import Mathlib.Logic.Equiv.Basic
import Mathlib.Logic.Function.Basic

/-!
# Paths

A path is looked up in one of several directory trees (the argument `dirfd` of the
`*at` calls), named by a `Root`, and consists of file names. The *last* component comes
first, so that the parent of a path is a tail and the paths below a directory are those
its component list is a suffix of.

Renaming a directory carries everything below it along. `Path.swapTree` is that
movement: it exchanges the subtrees at two paths neither of which lies below the other.
-/

namespace Posix

/-- A file name, the characters of one path component. -/
abbrev Name := List Char

/-- A path below `root`, last component first. -/
@[ext]
structure Path (Root : Type) where
  root : Root
  rel : List Name
  deriving DecidableEq, Repr

namespace Path

variable {Root : Type}

/-- The directory a path lies in. -/
def parent (p : Path Root) : Path Root :=
  ⟨p.root, p.rel.tail⟩

/-- The file `n` in the directory `p`. -/
def child (p : Path Root) (n : Name) : Path Root :=
  ⟨p.root, n :: p.rel⟩

/-- String concatenation at the end of a path: it extends the file name. The root
directory is spelled `./`, so there the characters are a file name of their own. -/
def append (p : Path Root) (s : Name) : Path Root :=
  match p.rel with
  | [] => ⟨p.root, [s]⟩
  | n :: ds => ⟨p.root, (n ++ s) :: ds⟩

@[simp] theorem parent_root (p : Path Root) : p.parent.root = p.root := rfl

@[simp] theorem child_root (p : Path Root) (n : Name) : (p.child n).root = p.root := rfl

@[simp] theorem parent_child (p : Path Root) (n : Name) : (p.child n).parent = p := rfl

@[simp] theorem append_root (p : Path Root) (s : Name) : (p.append s).root = p.root := by
  unfold append
  split <;> rfl

@[simp] theorem append_parent (p : Path Root) (s : Name) : (p.append s).parent = p.parent := by
  rcases p with ⟨r, _ | ⟨n, ds⟩⟩ <;> rfl

/-! ### Subtrees -/

/-- `q` is `a` or lies below it. -/
def Below (a q : Path Root) : Prop :=
  q.root = a.root ∧ a.rel <:+ q.rel

instance [DecidableEq Root] (a q : Path Root) : Decidable (Below a q) :=
  inferInstanceAs (Decidable (_ ∧ _))

theorem Below.refl (a : Path Root) : Below a a := ⟨rfl, List.suffix_refl _⟩

/-- Two subtrees that share a path are nested. -/
theorem Below.nested {a b q : Path Root} (ha : Below a q) (hb : Below b q) :
    Below a b ∨ Below b a := by
  rcases List.suffix_or_suffix_of_suffix ha.2 hb.2 with h | h
  · exact Or.inl ⟨hb.1.symm.trans ha.1, h⟩
  · exact Or.inr ⟨ha.1.symm.trans hb.1, h⟩

/-- The path below `a` with the further components `t`. -/
def extend (a : Path Root) (t : List Name) : Path Root :=
  ⟨a.root, t ++ a.rel⟩

theorem below_extend (a : Path Root) (t : List Name) : Below a (a.extend t) :=
  ⟨rfl, t, rfl⟩

theorem Below.exists_extend {a q : Path Root} (h : Below a q) : ∃ t, q = a.extend t := by
  obtain ⟨hr, t, ht⟩ := h
  exact ⟨t, Path.ext hr ht.symm⟩

/-- Re-root a path below `a` at `b`. -/
def graft (a b q : Path Root) : Path Root :=
  b.extend (q.rel.take (q.rel.length - a.rel.length))

theorem graft_extend (a b : Path Root) (t : List Name) : graft a b (a.extend t) = b.extend t := by
  simp [graft, extend]

variable [DecidableEq Root]

/-- Exchange the subtrees at `a` and `b`. -/
def swapTree (a b q : Path Root) : Path Root :=
  if Below a q then graft a b q else if Below b q then graft b a q else q

section SwapTree

variable {a b : Path Root}

theorem swapTree_left (t : List Name) : swapTree a b (a.extend t) = b.extend t := by
  rw [swapTree, if_pos (below_extend a t), graft_extend]

theorem swapTree_right (hab : ¬ Below a b) (hba : ¬ Below b a) (t : List Name) :
    swapTree a b (b.extend t) = a.extend t := by
  have h_left : ¬ Below a (b.extend t) := fun h => (h.nested (below_extend b t)).elim hab hba
  rw [swapTree, if_neg h_left, if_pos (below_extend b t), graft_extend]

theorem swapTree_of_not_below {q : Path Root} (ha : ¬ Below a q) (hb : ¬ Below b q) :
    swapTree a b q = q := by
  rw [swapTree, if_neg ha, if_neg hb]

/-- Exchanging two subtrees twice changes nothing. -/
theorem swapTree_involutive (hab : ¬ Below a b) (hba : ¬ Below b a) :
    Function.Involutive (swapTree a b) := by
  intro q
  by_cases ha : Below a q
  · obtain ⟨t, rfl⟩ := ha.exists_extend
    rw [swapTree_left, swapTree_right hab hba]
  · by_cases hb : Below b q
    · obtain ⟨t, rfl⟩ := hb.exists_extend
      rw [swapTree_right hab hba, swapTree_left]
    · rw [swapTree_of_not_below ha hb, swapTree_of_not_below ha hb]

end SwapTree

end Path

end Posix
