import GitlstreeFS.FileUtil
import GitlstreeFS.Cowfs.Crypt
import Mathlib.Data.List.GetD
import Mathlib.Data.List.TakeWhile

/-!
# Temporary and lock names

`ScopedTempFile` and `ScopedFileLockWithDelete` append to the name of the file they work
for. `Reserved` are the file names that come out of this, and a path is `Clean` if none of
its components is reserved. In a directory tree without reserved names the names a function
makes up for itself are free, and they differ from each other and from the names of the
repository, whose digits contain no dot.

The temporary names of different threads differ (`tmpName_tid`): the thread number is the
run of digits at the end of the name.
-/

namespace GitlstreeFS

open Posix

variable {Root : Type} {p q : Path Root} {opt opt' : Name} {tid tid' : ℕ}

/-- The tags with which cowfs makes temporary names. -/
def tempTags : List Name := ["of".toList, "mb".toList]

/-- The file names `lockName` and `tmpName` produce. -/
def Reserved (n : Name) : Prop :=
  (∃ m : Name, n = m ++ ".lock".toList) ∨
    ∃ m : Name, ∃ opt ∈ tempTags, ∃ tid : ℕ, n = m ++ (".tmp".toList ++ opt ++ Nat.toDigits 10 tid)

/-- No component of the path is a reserved name. -/
def Clean (p : Path Root) : Prop :=
  ∀ n ∈ p.rel, ¬ Reserved n

/-- The file system holds no reserved name. -/
def Tidy (w : FileSystem Root) : Prop :=
  ∀ p, w.names p ≠ none → Clean p

/-! ### Reserved names -/

theorem dot_mem_of_reserved {n : Name} (h : Reserved n) : '.' ∈ n := by
  rcases h with ⟨m, rfl⟩ | ⟨m, opt, -, tid, rfl⟩ <;> simp

theorem clean_of_no_dot (h : ∀ n ∈ p.rel, '.' ∉ n) : Clean p :=
  fun n hn hr => h n hn (dot_mem_of_reserved hr)

theorem append_rel (p : Path Root) (s : Name) :
    (p.append s).rel = (p.rel.headD [] ++ s) :: p.rel.tail := by
  rcases p with ⟨r, _ | ⟨n, ds⟩⟩ <;> rfl

theorem lockName_not_clean (p : Path Root) : ¬ Clean (lockName p) :=
  fun h => h _ (by rw [lockName, append_rel]; exact List.mem_cons_self) (Or.inl ⟨_, rfl⟩)

theorem tmpName_not_clean (p : Path Root) (h : opt ∈ tempTags) (tid : ℕ) :
    ¬ Clean (tmpName p opt tid) :=
  fun hc => hc _ (by rw [tmpName, append_rel]; exact List.mem_cons_self)
    (Or.inr ⟨_, opt, h, tid, rfl⟩)

@[simp] theorem of_mem_tempTags : "of".toList ∈ tempTags := by decide

@[simp] theorem mb_mem_tempTags : "mb".toList ∈ tempTags := by decide

@[simp] theorem lockName_root (p : Path Root) : (lockName p).root = p.root := by
  simp [lockName]

@[simp] theorem lockName_parent (p : Path Root) : (lockName p).parent = p.parent := by
  simp [lockName]

@[simp] theorem tmpName_root (p : Path Root) : (tmpName p opt tid).root = p.root := by
  simp [tmpName]

@[simp] theorem tmpName_parent (p : Path Root) : (tmpName p opt tid).parent = p.parent := by
  simp [tmpName]

/-- Nothing clean is or lies below a path that is not clean. -/
theorem not_below_of_clean (hp : ¬ Clean p) (hq : Clean q) : ¬ Path.Below p q :=
  fun h => hp fun n hn => hq n (h.2.subset hn)

theorem ne_of_clean (hp : ¬ Clean p) (hq : Clean q) : q ≠ p :=
  fun h => hp (h ▸ hq)

namespace Tidy

variable {w : FileSystem Root}

theorem names_eq_none (h : Tidy w) (hp : ¬ Clean p) : w.names p = none := by
  by_contra hn
  exact hp (h p hn)

theorem names_lockName (h : Tidy w) (p : Path Root) : w.names (lockName p) = none :=
  h.names_eq_none (lockName_not_clean p)

theorem names_tmpName (h : Tidy w) (p : Path Root) (ho : opt ∈ tempTags) (tid : ℕ) :
    w.names (tmpName p opt tid) = none :=
  h.names_eq_none (tmpName_not_clean p ho tid)

/-- Nothing lies below a path that is not clean. -/
theorem names_below (h : Tidy w) (hp : ¬ Clean p) (hq : Path.Below p q) : w.names q = none := by
  by_contra hn
  exact not_below_of_clean hp (h q hn) hq

end Tidy

/-! ### Distinct names -/

theorem append_ne_self {s : Name} (hs : s ≠ []) (p : Path Root) : p.append s ≠ p := by
  intro h
  have h_rel := congrArg Path.rel h
  rw [append_rel] at h_rel
  rcases p with ⟨r, _ | ⟨n, ds⟩⟩
  · simp at h_rel
  · simp [hs] at h_rel

/-- The digits at the end of a list of characters. -/
def trailingDigits (n : Name) : Name :=
  (n.reverse.takeWhile Char.isDigit).reverse

theorem trailingDigits_append {m ds : Name} {c : Char} (hc : c.isDigit = false)
    (hd : ∀ x ∈ ds, x.isDigit) : trailingDigits (m ++ [c] ++ ds) = ds := by
  have h_take : (ds.reverse ++ ([c] ++ m.reverse)).takeWhile Char.isDigit = ds.reverse := by
    rw [List.takeWhile_append_of_pos (by simpa using hd)]
    simp [hc]
  unfold trailingDigits
  rw [List.reverse_append, List.reverse_append, List.reverse_singleton, h_take, List.reverse_reverse]

theorem toDigits_injective : Function.Injective (Nat.toDigits 10) := by
  have h_inv : Function.LeftInverse (Nat.ofDigitChars 10 · 0) (Nat.toDigits 10) := fun n =>
    Nat.ofDigitChars_ten_toDigits
  exact h_inv.injective

/-- The last component of a temporary name ends in the digits of the thread. -/
theorem trailingDigits_tmpName (p : Path Root) (ho : opt ∈ tempTags) (tid : ℕ) :
    trailingDigits ((tmpName p opt tid).rel.headD []) = Nat.toDigits 10 tid := by
  have h_digits : ∀ x ∈ Nat.toDigits 10 tid, x.isDigit := fun x hx =>
    Nat.isDigit_of_mem_toDigits (by omega) (by omega) hx
  obtain ⟨m, c, rfl, hc⟩ : ∃ m : Name, ∃ c : Char, opt = m ++ [c] ∧ c.isDigit = false := by
    simp only [tempTags, List.mem_cons, List.not_mem_nil, or_false] at ho
    rcases ho with rfl | rfl
    · exact ⟨['o'], 'f', rfl, rfl⟩
    · exact ⟨['m'], 'b', rfl, rfl⟩
  have h_split : p.rel.headD [] ++ (".tmp".toList ++ (m ++ [c]) ++ Nat.toDigits 10 tid)
      = (p.rel.headD [] ++ ".tmp".toList ++ m) ++ [c] ++ Nat.toDigits 10 tid := by
    simp only [List.append_assoc]
  rw [tmpName, append_rel, List.headD_cons, h_split, trailingDigits_append hc h_digits]

/-- Different threads make different temporary names. -/
theorem tmpName_tid (ho : opt ∈ tempTags) (ho' : opt' ∈ tempTags)
    (h : tmpName p opt tid = tmpName q opt' tid') : tid = tid' := by
  apply toDigits_injective
  rw [← trailingDigits_tmpName p ho tid, ← trailingDigits_tmpName q ho' tid', h]

/-- A lock name ends in no digit, a temporary name in one. -/
theorem lockName_ne_tmpName (p q : Path Root) (ho : opt ∈ tempTags) (tid : ℕ) :
    lockName p ≠ tmpName q opt tid := by
  intro h
  have h_split : p.rel.headD [] ++ ".lock".toList
      = (p.rel.headD [] ++ ".loc".toList) ++ ['k'] ++ [] := by
    simp
  have h_digits := trailingDigits_tmpName q ho tid
  rw [← h, lockName, append_rel, List.headD_cons, h_split,
    trailingDigits_append rfl (by simp)] at h_digits
  exact Nat.toDigits_ne_nil h_digits.symm

namespace Cowfs

variable {sha1 : Bytes → Bytes}

theorem hexChar_ne_dot (n : ℕ) : hexChar n ≠ '.' := by
  by_cases hn : n < 16
  · have h_fin : ∀ a : Fin 16, hexChar a ≠ '.' := by decide
    exact h_fin ⟨n, hn⟩
  · rw [hexChar, List.getD_eq_default _ _ (by simpa using hn)]
    decide

theorem dot_not_mem_gcryptString (buf : Bytes) : '.' ∉ gcryptString sha1 buf := by
  unfold gcryptString hexStringRepresentation
  simp only [List.mem_flatMap, List.mem_cons, List.not_mem_nil, or_false, not_exists, not_and,
    not_or]
  exact fun b _ => ⟨(hexChar_ne_dot _).symm, (hexChar_ne_dot _).symm⟩

theorem repoPath_clean (buf : Bytes) : Clean (repoPath sha1 buf) := by
  apply clean_of_no_dot
  intro n hn
  have h_dot : '.' ∉ gcryptString sha1 buf := dot_not_mem_gcryptString buf
  simp only [repoPath, repoDir, Path.child, gcryptStringGetGitStyleRelpath, List.mem_cons,
    List.not_mem_nil, or_false] at hn
  rcases hn with rfl | rfl
  · exact fun h => h_dot (List.mem_of_mem_drop h)
  · exact fun h => h_dot (List.mem_of_mem_take h)

theorem repoDir_clean (buf : Bytes) : Clean (repoDir sha1 buf) :=
  fun n hn => (repoPath_clean buf : Clean (repoPath sha1 buf)) n (List.mem_cons_of_mem _ hn)

end Cowfs

end GitlstreeFS
