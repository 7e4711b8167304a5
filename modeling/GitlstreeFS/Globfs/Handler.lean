import GitlstreeFS.Posix.Fnmatch

/-!
# `globfs.cc`

A read-only view of a directory that hides what does not match a pattern. `ReadDir` matches the name of an
entry, and `GetAttr` and `Open` its whole path. A pattern that matches one of them does not match the other,
unless they are the same; so only the entries of the root are listed as they are served (`listing_agrees_iff`).
-/

namespace GitlstreeFS.Globfs

open Posix.Fnmatch

/-! ### Paths -/

/-- `GetRelativePath`. `none` is an `assert` that does not hold. -/
def getRelativePath : Str → Option Str
  | [] => none
  | [_] => some (str "./")
  | _ :: path => some path

/-- The path of an entry, which `GetRelativePath` is called with. -/
def entryPath (path name : Str) : Str :=
  if path = [slash] then slash :: name else path ++ slash :: name

/-- `relative_path` joined with a name. -/
def joined (relative_path name : Str) : Str :=
  if relative_path = str "./" then name else relative_path ++ slash :: name

/-- What the calls for an entry get is the path of the directory joined with its name. -/
theorem getRelativePath_entryPath {path name relative_path : Str} (h : getRelativePath path = some relative_path)
    (h_head : path.head? = some slash) (h_path : path = [slash] ∨ path.getLast? ≠ some slash)
    (h_name : name ≠ []) :
    getRelativePath (entryPath path name) = some (joined relative_path name) := by
  obtain ⟨n, name, rfl⟩ := List.exists_cons_of_ne_nil h_name
  match path with
  | [] => cases h
  | [c] =>
    obtain rfl := Option.some.inj h
    obtain rfl : c = slash := Option.some.inj h_head
    rw [entryPath, if_pos rfl, joined, if_pos rfl]
    rfl
  | c :: d :: path =>
    obtain rfl := Option.some.inj h
    have h_last : (c :: d :: path).getLast? ≠ some slash := h_path.resolve_left (by simp)
    have h_ne : d :: path ≠ str "./" := by
      intro h_eq
      rw [h_eq] at h_last
      exact h_last rfl
    rw [entryPath, if_neg (by simp), joined, if_neg h_ne]
    rfl

/-! ### `GlobFsHandler` -/

section Handler

variable (glob_pattern : Str)

/-- `ReadDir`: the value, and the names that `filler` is called with. `scandirat` gives the names of a
directory. -/
def readDir (scandirat : Str → Option (List Str)) (relative_path : Str) : ℤ × List Str :=
  match scandirat relative_path with
  | none => (-2, [str ".", str ".."])
  | some namelist => (0, [str ".", str ".."] ++ namelist.filter fun d_name => fnmatch glob_pattern d_name)

/-- `Open`: the value, if the pattern rejects the path. Otherwise `RoptfsHandler::Open` is called. -/
def openFile (relative_path : Str) : Option ℤ :=
  if fnmatch glob_pattern relative_path = false then some (-2) else none

/-- `GetAttr`: the value, if the pattern rejects the path. Otherwise `RoptfsHandler::GetAttr` is called. -/
def getAttr (relative_path : Str) : Option ℤ :=
  if fnmatch glob_pattern relative_path = false ∧ relative_path ≠ str "./" then some (-2) else none

/-- The entry is listed just if `GetAttr` does not reject it, and just if `Open` does not. -/
def Agrees (scandirat : Str → Option (List Str)) (relative_path name : Str) : Prop :=
  (name ∈ (readDir glob_pattern scandirat relative_path).2 ↔
      getAttr glob_pattern (joined relative_path name) = none)
    ∧ (name ∈ (readDir glob_pattern scandirat relative_path).2 ↔
      openFile glob_pattern (joined relative_path name) = none)

end Handler

variable {glob_pattern relative_path name : Str} {names : List Str}

/-- An entry is listed if its name matches. -/
theorem mem_readDir_iff {scandirat : Str → Option (List Str)} (h_scan : scandirat relative_path = some names)
    (h_mem : name ∈ names) (h_dot : name ≠ str "." ∧ name ≠ str "..") :
    name ∈ (readDir glob_pattern scandirat relative_path).2 ↔ fnmatch glob_pattern name = true := by
  rw [readDir, h_scan]
  simp [h_mem, h_dot]

theorem openFile_eq_none_iff : openFile glob_pattern relative_path = none ↔
    fnmatch glob_pattern relative_path = true := by
  rw [openFile]
  split <;> simp_all

/-- Only the root is exempt. -/
theorem getAttr_eq_none_iff : getAttr glob_pattern relative_path = none ↔
    fnmatch glob_pattern relative_path = true ∨ relative_path = str "./" := by
  rw [getAttr]
  by_cases h_root : relative_path = str "./"
  · rw [if_neg fun h => h.2 h_root]
    exact iff_of_true rfl (.inr h_root)
  · rw [or_iff_left h_root]
    cases fnmatch glob_pattern relative_path <;> simp [h_root]

/-- An entry is not the root. -/
theorem joined_ne (h_name : name ≠ []) (h_slash : slash ∉ name) : joined relative_path name ≠ str "./" := by
  intro h
  rw [joined] at h
  split at h
  · rw [h] at h_slash
    exact h_slash (by decide)
  · -- the slash would be the last character
    have h_length := congrArg List.length h
    rw [List.length_append, List.length_cons] at h_length
    have h_two : (str "./").length = 2 := by decide
    have h_pos : 0 < name.length := List.length_pos_of_ne_nil h_name
    obtain rfl : relative_path = [] := List.eq_nil_of_length_eq_zero (by omega)
    exact absurd (List.cons.inj h).1 (by decide)

/-- Below the root, not both the name and the path match. -/
theorem not_both (h : relative_path ≠ str "./") :
    ¬ (fnmatch glob_pattern name = true ∧ fnmatch glob_pattern (joined relative_path name) = true) := by
  rintro ⟨h_name, h_joined⟩
  have h_count := count_slash_congr h_name h_joined
  rw [joined, if_neg h, List.count_append, List.count_cons_self] at h_count
  omega

/-- **The names that are listed are those that are served** just in the root, and where the pattern matches
neither the name nor the path. -/
theorem listing_agrees_iff (glob_pattern : Str) (scandirat : Str → Option (List Str)) (relative_path : Str)
    (names : List Str) (name : Str) (h_scan : scandirat relative_path = some names) (h_mem : name ∈ names)
    (h_dot : name ≠ str "." ∧ name ≠ str "..") (h_name : name ≠ []) (h_slash : slash ∉ name) :
    Agrees glob_pattern scandirat relative_path name ↔ relative_path = str "./"
      ∨ fnmatch glob_pattern name = false ∧ fnmatch glob_pattern (joined relative_path name) = false := by
  rw [Agrees, mem_readDir_iff h_scan h_mem h_dot, getAttr_eq_none_iff, openFile_eq_none_iff,
    or_iff_left (joined_ne h_name h_slash), and_self]
  by_cases h_root : relative_path = str "./"
  · rw [joined, if_pos h_root]
    exact iff_of_true Iff.rfl (.inl h_root)
  · have h_not : ¬ (fnmatch glob_pattern name = true
        ∧ fnmatch glob_pattern (joined relative_path name) = true) := not_both h_root
    rw [or_iff_right h_root]
    rw [← Bool.not_eq_true, ← Bool.not_eq_true]
    constructor
    · intro h_iff
      exact ⟨fun h => h_not ⟨h, h_iff.mp h⟩, fun h => h_not ⟨h_iff.mpr h, h⟩⟩
    · rintro ⟨h_entry, h_path⟩
      exact iff_of_false h_entry h_path

/-- A directory with one entry. -/
def oneEntry (name relative_path : Str) : Option (List Str) :=
  if relative_path = str "./" ∨ relative_path = str "cdir" then some [name] else none

theorem agrees_root : Agrees (str "c*") (oneEntry (str "c1")) (str "./") (str "c1") :=
  (listing_agrees_iff (str "c*") (oneEntry (str "c1")) (str "./") [str "c1"] (str "c1") (by decide) (by decide)
    (by decide) (by decide) (by decide)).mpr (.inl rfl)

/-- In a directory below it, the entry is listed, but cannot be looked at. -/
theorem not_agrees_cdir :
    str "c1" ∈ (readDir (str "c*") (oneEntry (str "c1")) (str "cdir")).2
      ∧ getAttr (str "c*") (joined (str "cdir") (str "c1")) = some (-2)
      ∧ openFile (str "c*") (joined (str "cdir") (str "c1")) = some (-2)
      ∧ ¬ Agrees (str "c*") (oneEntry (str "c1")) (str "cdir") (str "c1") := by
  have h_listed : str "c1" ∈ (readDir (str "c*") (oneEntry (str "c1")) (str "cdir")).2 := by decide +kernel
  have h_getAttr : getAttr (str "c*") (joined (str "cdir") (str "c1")) = some (-2) := by decide +kernel
  refine ⟨h_listed, h_getAttr, by decide +kernel, fun h => ?_⟩
  rw [h.1.mp h_listed] at h_getAttr
  cases h_getAttr

end GitlstreeFS.Globfs
