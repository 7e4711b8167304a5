import GitlstreeFS.Container.PathSet
import GitlstreeFS.Cpp
import GitlstreeFS.Walk

/-!
# A client of a mount

A client knows paths and names only. It asks what is at a path, lists what is a directory, and goes from a
directory to the paths of the names in it, except `.` and `..`. The kernel looks up one name after the other,
so that there is more at a path only if all its names can be looked up (`Looked`).

`ServesTree` is what a file system has to answer to be seen as a tree, and `mem_find_iff` that a client which
walks the mount comes to this tree then, to each path once (`nodup_find`).
-/

namespace GitlstreeFS.Client

open DirectoryContainer (dirPath)

/-- A name that the kernel looks up in a directory. -/
def Looked (n : Str) : Prop :=
  IsName n ∧ n ≠ str "." ∧ n ≠ str ".."

instance (n : Str) : Decidable (Looked n) :=
  inferInstanceAs (Decidable (_ ∧ _))

/-- What `readdir` has given, without the entries `.` and `..`. -/
def dropDots (names : List Str) : List Str :=
  names.filter fun n => n ≠ str "." ∧ n ≠ str ".."

/-- The mode is that of a directory. -/
def IsDir (st : Stat) : Prop :=
  st.mode &&& sIFMT = sIFDIR

instance (st : Stat) : Decidable (IsDir st) :=
  inferInstanceAs (Decidable (_ = _))

section View

variable (stat : Str → Option Stat) (list : Str → Option (List Str))

/-- A mount that answers `stat` and `readdir`, as a client sees it. -/
def view : Walk.View Str Stat where
  stat q := if ∀ n ∈ q, Looked n then stat (dirPath q) else none
  list q :=
    if ∀ n ∈ q, Looked n then
      (stat (dirPath q)).bind fun st => if IsDir st then (list (dirPath q)).map dropDots else none
    else none

/-- `find` on the mount, from its root down to a depth. -/
def find (depth : ℕ) : List (List Str × Stat) :=
  (view stat list).find depth []

/-- The answers are those of the tree `T`. -/
structure ServesTree (T : List Str → Stat → Prop) : Prop where
  stat : ∀ q, (∀ n ∈ q, Looked n) → ∀ st, stat (dirPath q) = some st ↔ T q st
  above : ∀ q n st, (∀ m ∈ q, Looked m) → T (q ++ [n]) st →
    ∃ st', T q st' ∧ IsDir st' ∧ (list (dirPath q)).isSome
  /-- What is listed are the names at whose paths there is something, each once. -/
  list : ∀ q names, (∀ n ∈ q, Looked n) → list (dirPath q) = some names →
    (dropDots names).Nodup ∧ (∀ n ∈ dropDots names, IsName n) ∧
      ∀ n, Looked n → (n ∈ names ↔ ∃ st, T (q ++ [n]) st)

end View

variable {stat : Str → Option Stat} {list : Str → Option (List Str)} {T : List Str → Stat → Prop}
  {q : List Str} {n : Str} {st : Stat}

theorem mem_dropDots {names : List Str} : n ∈ dropDots names ↔ n ∈ names ∧ n ≠ str "." ∧ n ≠ str ".." := by
  rw [dropDots, List.mem_filter, decide_eq_true_iff]

/-- What a `readdir` gives that has the entries `.` and `..` in front of names of its own. -/
theorem listed_of_children {names : List Str} {P : Str → Prop} (h_nodup : names.Nodup)
    (h_mem : ∀ n, n ∈ names ↔ P n) (h_name : ∀ n, P n → IsName n) :
    (dropDots ([str ".", str ".."] ++ names)).Nodup ∧ (∀ n ∈ dropDots ([str ".", str ".."] ++ names), IsName n) ∧
      ∀ n, Looked n → (n ∈ [str ".", str ".."] ++ names ↔ P n) := by
  -- the entries `.` and `..` come first, and are dropped
  have h_drop : dropDots ([str ".", str ".."] ++ names) = dropDots names := by
    rw [dropDots, List.filter_append]
    rfl
  rw [h_drop]
  refine ⟨h_nodup.filter _, fun n hn => h_name n ((h_mem n).mp (mem_dropDots.mp hn).1), fun n h_n => ?_⟩
  have h_not : n ∉ [str ".", str ".."] := by
    have h_dots := h_n.2
    simpa using h_dots
  rw [List.mem_append, or_iff_right h_not, h_mem n]

namespace ServesTree

variable (h : ServesTree stat list T)

include h

theorem stat_eq_some_iff : (view stat list).stat q = some st ↔ (∀ n ∈ q, Looked n) ∧ T q st := by
  dsimp only [view]
  split_ifs with h_looked
  · rw [h.stat q h_looked, and_iff_right h_looked]
  · exact iff_of_false (by simp) fun h_and => h_looked h_and.1

theorem list_eq_some_iff {names : List Str} : (view stat list).list q = some names ↔
    (∀ n ∈ q, Looked n) ∧ ∃ st, T q st ∧ IsDir st ∧ (list (dirPath q)).map dropDots = some names := by
  dsimp only [view]
  split_ifs with h_looked
  · rw [and_iff_right h_looked, Option.bind_eq_some_iff]
    refine exists_congr fun st => ?_
    rw [h.stat q h_looked]
    refine and_congr_right fun _ => ?_
    split_ifs with h_dir
    · rw [and_iff_right h_dir]
    · exact iff_of_false (by simp) fun h_and => h_dir h_and.1
  · exact iff_of_false (by simp) fun h_and => h_looked h_and.1

/-- What `readdir` lists and what `stat` finds is the same. -/
theorem coherent : (view stat list).Coherent where
  nodup q names h_list := by
    obtain ⟨h_looked, -, -, -, h_map⟩ := h.list_eq_some_iff.mp h_list
    obtain ⟨all, h_all, rfl⟩ := Option.map_eq_some_iff.mp h_map
    exact (h.list q all h_looked h_all).1
  mem_iff q names n h_list := by
    obtain ⟨h_looked, -, -, -, h_map⟩ := h.list_eq_some_iff.mp h_list
    obtain ⟨all, h_all, rfl⟩ := Option.map_eq_some_iff.mp h_map
    obtain ⟨-, h_names, h_mem⟩ := h.list q all h_looked h_all
    rw [Option.isSome_iff_exists]
    simp only [h.stat_eq_some_iff]
    constructor
    · intro hn
      have h_n : Looked n := ⟨h_names n hn, (mem_dropDots.mp hn).2⟩
      obtain ⟨st', h_T'⟩ := (h_mem n h_n).mp (mem_dropDots.mp hn).1
      refine ⟨st', fun m hm => ?_, h_T'⟩
      obtain hm | hm := List.mem_append.mp hm
      · exact h_looked m hm
      · rwa [List.mem_singleton.mp hm]
    · rintro ⟨st', h_all', h_T'⟩
      have h_n : Looked n := h_all' n (List.mem_append_right _ (List.mem_singleton_self n))
      exact mem_dropDots.mpr ⟨(h_mem n h_n).mpr ⟨st', h_T'⟩, h_n.2⟩
  above q n h_some := by
    obtain ⟨st, h_stat⟩ := Option.isSome_iff_exists.mp h_some
    obtain ⟨h_all, h_T⟩ := h.stat_eq_some_iff.mp h_stat
    have h_looked : ∀ m ∈ q, Looked m := fun m hm => h_all m (List.mem_append_left _ hm)
    obtain ⟨st', h_T', h_dir, h_some⟩ := h.above q n st h_looked h_T
    obtain ⟨names, h_names⟩ := Option.isSome_iff_exists.mp h_some
    have h_list : (view stat list).list q = some (dropDots names) :=
      h.list_eq_some_iff.mpr ⟨h_looked, st', h_T', h_dir, by rw [h_names]; rfl⟩
    rw [h_list, h.stat_eq_some_iff.mpr ⟨h_looked, h_T'⟩]
    exact ⟨rfl, rfl⟩

/-- **What a client finds** is the tree, as far as the kernel looks names up. -/
theorem mem_find_iff {depth : ℕ} :
    (q, st) ∈ find stat list depth ↔ q.length ≤ depth ∧ (∀ n ∈ q, Looked n) ∧ T q st := by
  rw [find, h.coherent.mem_find_iff, h.stat_eq_some_iff]
  constructor
  · rintro ⟨h_stat, r, rfl, h_length⟩
    exact ⟨h_length, h_stat⟩
  · rintro ⟨h_length, h_stat⟩
    exact ⟨h_stat, q, rfl, h_length⟩

theorem nodup_find (depth : ℕ) : ((find stat list depth).map Prod.fst).Nodup :=
  h.coherent.nodup_find

end ServesTree

end GitlstreeFS.Client
