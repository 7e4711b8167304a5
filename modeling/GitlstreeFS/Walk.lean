import Mathlib.Data.List.Induction
import Mathlib.Data.List.Nodup
import Mathlib.Tactic.Common

/-!
# Walking a tree

A `View` is how a client sees a tree: it asks what is at a path, and which names a directory lists. `find`
goes down from a path as far as it is told.

What a view answers about a name in a directory and what it answers about the path need not agree. If they
do (`Coherent`), then `find` comes to each path at which there is something, and once (`mem_find_iff`,
`nodup_find`).
-/

namespace Walk

variable {ν κ : Type*}

/-- What a client is told. -/
structure View (ν κ : Type*) where
  /-- What is at a path. -/
  stat : List ν → Option κ
  /-- The names in a directory. -/
  list : List ν → Option (List ν)

namespace View

variable (v : View ν κ)

/-- What is at a path and down to so many names below it. -/
def find : ℕ → List ν → List (List ν × κ)
  | 0, q => ((v.stat q).map (q, ·)).toList
  | depth + 1, q =>
    match v.stat q with
    | none => []
    | some x => (q, x) :: ((v.list q).getD []).flatMap fun n => find depth (q ++ [n])

/-- A directory lists each name once, and those names at whose paths there is something; there is nothing
below what lists no names. -/
structure Coherent : Prop where
  nodup : ∀ q names, v.list q = some names → names.Nodup
  mem_iff : ∀ q names n, v.list q = some names → (n ∈ names ↔ (v.stat (q ++ [n])).isSome)
  above : ∀ q n, (v.stat (q ++ [n])).isSome → (v.stat q).isSome ∧ (v.list q).isSome

variable {v} {q p r : List ν} {n : ν} {x : κ} {depth : ℕ}

/-- Where there is something, there is something above it. -/
theorem Coherent.isSome_of_append (h : v.Coherent) (h_some : (v.stat (q ++ r)).isSome) : (v.stat q).isSome := by
  induction r using List.reverseRecOn with
  | nil => rwa [List.append_nil] at h_some
  | append_singleton r n ih =>
    rw [← List.append_assoc] at h_some
    exact ih (h.above _ _ h_some).1

/-- What `find` comes to is below where it begins. -/
theorem exists_of_mem_find (h : (p, x) ∈ v.find depth q) :
    v.stat p = some x ∧ ∃ r, p = q ++ r ∧ r.length ≤ depth := by
  induction depth generalizing q with
  | zero =>
    rw [find, Option.mem_toList, Option.map_eq_some_iff] at h
    obtain ⟨y, h_stat, h_eq⟩ := h
    obtain ⟨rfl, rfl⟩ := Prod.mk.inj h_eq
    exact ⟨h_stat, [], (List.append_nil _).symm, Nat.le_refl _⟩
  | succ depth ih =>
    rw [find] at h
    cases h_stat : v.stat q with
    | none =>
      rw [h_stat] at h
      exact absurd h List.not_mem_nil
    | some y =>
      rw [h_stat] at h
      obtain h_eq | h_mem := List.mem_cons.mp h
      · obtain ⟨rfl, rfl⟩ := Prod.mk.inj h_eq
        exact ⟨h_stat, [], (List.append_nil _).symm, Nat.zero_le _⟩
      · obtain ⟨n, -, h_below⟩ := List.mem_flatMap.mp h_mem
        obtain ⟨h_p, r, rfl, h_length⟩ := ih h_below
        refine ⟨h_p, n :: r, by simp, ?_⟩
        rw [List.length_cons]
        omega

/-- In a coherent view `find` comes to everything that is not too deep. -/
theorem Coherent.mem_find (h : v.Coherent) (h_stat : v.stat (q ++ r) = some x) (h_length : r.length ≤ depth) :
    (q ++ r, x) ∈ v.find depth q := by
  -- on the depth: the first name of `r` is listed
  induction depth generalizing q r with
  | zero =>
    obtain rfl : r = [] := List.length_eq_zero_iff.mp (Nat.le_zero.mp h_length)
    rw [List.append_nil] at h_stat ⊢
    rw [find, h_stat]
    exact List.mem_singleton.mpr rfl
  | succ depth ih =>
    obtain ⟨y, h_q⟩ : ∃ y, v.stat q = some y :=
      Option.isSome_iff_exists.mp (h.isSome_of_append (r := r) (by rw [h_stat]; rfl))
    rw [find, h_q]
    cases r with
    | nil =>
      rw [List.append_nil] at h_stat ⊢
      obtain rfl := Option.some.inj (h_q.symm.trans h_stat)
      exact List.mem_cons_self
    | cons n r =>
      have h_eq : q ++ n :: r = (q ++ [n]) ++ r := by rw [List.append_assoc]; rfl
      rw [h_eq] at h_stat ⊢
      have h_child : (v.stat (q ++ [n])).isSome := h.isSome_of_append (r := r) (by rw [h_stat]; rfl)
      obtain ⟨names, h_list⟩ := Option.isSome_iff_exists.mp (h.above q n h_child).2
      rw [h_list, Option.getD_some]
      refine List.mem_cons_of_mem _ (List.mem_flatMap.mpr ⟨n, (h.mem_iff q names n h_list).mpr h_child, ?_⟩)
      exact ih h_stat (Nat.le_of_succ_le_succ h_length)

/-- **What `find` comes to**: what is there. -/
theorem Coherent.mem_find_iff (h : v.Coherent) : (p, x) ∈ v.find depth q ↔
    v.stat p = some x ∧ ∃ r, p = q ++ r ∧ r.length ≤ depth := by
  constructor
  · exact exists_of_mem_find
  · rintro ⟨h_stat, r, rfl, h_length⟩
    exact h.mem_find h_stat h_length

/-- **It comes there once.** -/
theorem Coherent.nodup_find (h : v.Coherent) : ((v.find depth q).map Prod.fst).Nodup := by
  induction depth generalizing q with
  | zero =>
    rw [find]
    cases v.stat q with
    | none => exact List.nodup_nil
    | some x => exact List.nodup_singleton _
  | succ depth ih =>
    rw [find]
    cases v.stat q with
    | none => exact List.nodup_nil
    | some x =>
      rw [List.map_cons, List.nodup_cons]
      constructor
      · -- what is below has a longer path
        intro h_mem
        obtain ⟨⟨p, y⟩, h_y, rfl⟩ := List.mem_map.mp h_mem
        obtain ⟨n, -, h_below⟩ := List.mem_flatMap.mp h_y
        obtain ⟨-, r, h_eq, -⟩ := exists_of_mem_find h_below
        have h_length := congrArg List.length h_eq
        simp at h_length
      · rw [List.map_flatMap, List.nodup_flatMap]
        refine ⟨fun n _ => ih, ?_⟩
        cases h_list : v.list q with
        | none => exact List.Pairwise.nil
        | some names =>
          refine (h.nodup q names h_list).imp fun {n m} h_ne p h_n h_m => h_ne ?_
          -- below different names the paths are different
          obtain ⟨⟨_, y⟩, h_y, rfl⟩ := List.mem_map.mp h_n
          obtain ⟨⟨_, z⟩, h_z, h_same⟩ := List.mem_map.mp h_m
          obtain ⟨-, r, h_r, -⟩ := exists_of_mem_find h_y
          obtain ⟨-, r', h_r', -⟩ := exists_of_mem_find h_z
          have h_eq : q ++ ([n] ++ r) = q ++ ([m] ++ r') := by
            rw [← List.append_assoc, ← List.append_assoc, ← h_r, ← h_r']
            exact h_same.symm
          exact (List.cons.inj (List.append_cancel_left h_eq)).1

end View

end Walk
