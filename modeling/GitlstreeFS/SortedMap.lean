import Mathlib.Algebra.BigOperators.Group.List.Lemmas
import Mathlib.Algebra.GroupWithZero.Nat
import Mathlib.Order.Lattice
import Mathlib.Tactic.Common

/-!
# Maps in the order of their keys

A `SortedMap` is the list of its entries, with ascending keys. What it is a map of is said by `lookup`: the
entries are what is found at the keys (`mem_entries_iff`), and `update` changes what is found at one of them
(`lookup_update`).

A map of counters tallies a list if each element of the list is a key, with the number of its occurrences in a
counter that wraps around at a modulus (`Tallies`). One more occurrence is a `bump`. Together the elements
occur as often as the list is long (`Tallies.sum_count`).
-/

/-- A map, as the list of its entries in the order of their keys. -/
structure SortedMap (κ β : Type) [LinearOrder κ] where
  entries : List (κ × β)
  sorted : entries.Pairwise fun a b => a.1 < b.1

namespace SortedMap

variable {κ β : Type} [LinearOrder κ]

/-- The map without entries. -/
def empty : SortedMap κ β :=
  ⟨[], .nil⟩

/-- What is found at a key. -/
def lookup (k : κ) (m : SortedMap κ β) : Option β :=
  m.entries.lookup k

/-! ### Changing one entry -/

/-- The entry of `k` is changed. Where there is none, one is made. -/
def updateEntries (k : κ) (f : Option β → β) : List (κ × β) → List (κ × β)
  | [] => [(k, f none)]
  | (k', v) :: l =>
    if k = k' then (k', f (some v)) :: l
    else if k < k' then (k, f none) :: (k', v) :: l
    else (k', v) :: updateEntries k f l

variable {k x : κ} {v : β} {l : List (κ × β)} {f : Option β → β} {m : SortedMap κ β}

/-- The keys are those that there were, and the one that was asked for. -/
theorem mem_updateEntries {e : κ × β} (h : e ∈ updateEntries k f l) : e.1 = k ∨ e ∈ l := by
  induction l with
  | nil => exact .inl (by rw [List.mem_singleton.mp h])
  | cons e' l ih =>
    obtain ⟨k', v⟩ := e'
    rw [updateEntries] at h
    split_ifs at h with h_eq h_lt
    · obtain rfl | h := List.mem_cons.mp h
      · exact .inl h_eq.symm
      · exact .inr (List.mem_cons_of_mem _ h)
    · obtain rfl | h := List.mem_cons.mp h
      · exact .inl rfl
      · exact .inr h
    · obtain rfl | h := List.mem_cons.mp h
      · exact .inr List.mem_cons_self
      · exact (ih h).imp_right (List.mem_cons_of_mem _)

theorem sorted_updateEntries (h : l.Pairwise fun a b => a.1 < b.1) :
    (updateEntries k f l).Pairwise fun a b => a.1 < b.1 := by
  induction l with
  | nil => exact List.pairwise_singleton _ _
  | cons e l ih =>
    obtain ⟨k', v⟩ := e
    obtain ⟨h_head, h_tail⟩ := List.pairwise_cons.mp h
    rw [updateEntries]
    split_ifs with h_eq h_lt
    · exact List.pairwise_cons.mpr ⟨h_head, h_tail⟩
    · -- before the first key that is greater
      refine List.pairwise_cons.mpr ⟨fun e he => ?_, h⟩
      obtain rfl | he := List.mem_cons.mp he
      · exact h_lt
      · exact h_lt.trans (h_head e he)
    · refine List.pairwise_cons.mpr ⟨fun e he => ?_, ih h_tail⟩
      obtain h_k | he := mem_updateEntries he
      · exact h_k ▸ lt_of_le_of_ne (not_lt.mp h_lt) (Ne.symm h_eq)
      · exact h_head e he

theorem lookup_cons (k' : κ) (v : β) (l : List (κ × β)) (x : κ) :
    ((k', v) :: l).lookup x = if x = k' then some v else l.lookup x := by
  rw [List.lookup_cons]
  split <;> simp_all

/-- A key that is less than all of them is not there. -/
theorem lookup_eq_none_of_lt (h : ∀ e ∈ l, k < e.1) : l.lookup k = none :=
  List.lookup_eq_none_iff.mpr fun e he => by simpa using (h e he).ne

theorem lookup_updateEntries (h : l.Pairwise fun a b => a.1 < b.1) (x : κ) :
    (updateEntries k f l).lookup x = if x = k then some (f (l.lookup k)) else l.lookup x := by
  induction l with
  | nil => rw [updateEntries, lookup_cons]; rfl
  | cons e l ih =>
    obtain ⟨k', v⟩ := e
    obtain ⟨h_head, h_tail⟩ := List.pairwise_cons.mp h
    rw [updateEntries, lookup_cons k' v l k, lookup_cons k' v l x]
    by_cases h_eq : k = k'
    · -- the entry that is there
      subst h_eq
      rw [if_pos rfl, if_pos rfl, lookup_cons]
      by_cases h_x : x = k
      · rw [if_pos h_x, if_pos h_x]
      · rw [if_neg h_x, if_neg h_x, if_neg h_x]
    rw [if_neg h_eq, if_neg h_eq]
    by_cases h_lt : k < k'
    · -- a new one
      have h_none : l.lookup k = none := lookup_eq_none_of_lt fun e he => h_lt.trans (h_head e he)
      rw [if_pos h_lt, lookup_cons, lookup_cons, h_none]
    · rw [if_neg h_lt, lookup_cons, ih h_tail]
      by_cases h_x : x = k'
      · rw [if_pos h_x, if_pos h_x, if_neg fun h => h_eq (h.symm.trans h_x)]
      · rw [if_neg h_x, if_neg h_x]

/-- The entry of a key is changed, or made. -/
def update (k : κ) (f : Option β → β) (m : SortedMap κ β) : SortedMap κ β :=
  ⟨updateEntries k f m.entries, sorted_updateEntries m.sorted⟩

/-- **What is found** then. -/
theorem lookup_update (k : κ) (f : Option β → β) (m : SortedMap κ β) (x : κ) :
    (m.update k f).lookup x = if x = k then some (f (m.lookup k)) else m.lookup x :=
  lookup_updateEntries m.sorted x

/-- The keys are distinct. -/
theorem nodup_keys (m : SortedMap κ β) : (m.entries.map Prod.fst).Nodup :=
  List.pairwise_map.mpr (m.sorted.imp fun h => h.ne)

/-- **The entries** are what is found. -/
theorem mem_entries_iff : (k, v) ∈ m.entries ↔ m.lookup k = some v := by
  obtain ⟨l, h⟩ := m
  change (k, v) ∈ l ↔ l.lookup k = some v
  induction l with
  | nil => exact iff_of_false List.not_mem_nil nofun
  | cons e l ih =>
    obtain ⟨k', v'⟩ := e
    obtain ⟨h_head, h_tail⟩ := List.pairwise_cons.mp h
    rw [lookup_cons, List.mem_cons, ih h_tail, Prod.mk.injEq]
    by_cases h_eq : k = k'
    · -- the other keys are greater
      subst h_eq
      have h_none : l.lookup k = none := lookup_eq_none_of_lt h_head
      rw [if_pos rfl, h_none, and_iff_right rfl, Option.some.injEq, eq_comm, or_iff_left nofun]
    · rw [if_neg h_eq, or_iff_right fun h => h_eq h.1]

/-! ### Counters -/

/-- One more occurrence, in a counter that wraps around at `M`. -/
def bump (M : ℕ) (k : κ) (m : SortedMap κ ℕ) : SortedMap κ ℕ :=
  m.update k fun n => (n.getD 0 + 1) % M

/-- The counters are those of the elements of `ks`. -/
def Tallies (M : ℕ) (m : SortedMap κ ℕ) (ks : List κ) : Prop :=
  ∀ k, m.lookup k = if k ∈ ks then some (ks.count k % M) else none

variable {M n : ℕ} {m : SortedMap κ ℕ} {ks : List κ}

theorem tallies_empty (M : ℕ) : (empty : SortedMap κ ℕ).Tallies M [] :=
  fun _ => rfl

/-- **One more element.** -/
theorem Tallies.bump (h : m.Tallies M ks) (k : κ) : (m.bump M k).Tallies M (ks ++ [k]) := by
  intro x
  have h_mem_iff : x ∈ ks ++ [k] ↔ x ∈ ks ∨ x = k := by rw [List.mem_append, List.mem_singleton]
  rw [SortedMap.bump, lookup_update, h x, h k, List.count_append]
  by_cases h_x : x = k
  · -- a counter that there was not is zero
    subst h_x
    have h_before : (if x ∈ ks then some (ks.count x % M) else none).getD 0 = ks.count x % M := by
      by_cases h_mem : x ∈ ks
      · rw [if_pos h_mem, Option.getD_some]
      · rw [if_neg h_mem, List.count_eq_zero_of_not_mem h_mem, Nat.zero_mod, Option.getD_none]
    rw [if_pos rfl, if_pos (h_mem_iff.mpr (.inr rfl)), h_before, List.count_singleton_self, Nat.mod_add_mod]
  · have h_none : [k].count x = 0 := List.count_eq_zero_of_not_mem fun h => h_x (List.mem_singleton.mp h)
    rw [if_neg h_x, h_none, Nat.add_zero]
    exact if_congr (h_mem_iff.trans (or_iff_left h_x)).symm rfl rfl

theorem Tallies.mem_iff (h : m.Tallies M ks) : (k, n) ∈ m.entries ↔ k ∈ ks ∧ n = ks.count k % M := by
  rw [mem_entries_iff, h k]
  by_cases h_mem : k ∈ ks
  · rw [if_pos h_mem, and_iff_right h_mem, Option.some.injEq, eq_comm]
  · rw [if_neg h_mem]
    exact iff_of_false nofun fun h => h_mem h.1

/-- **Together they occur as often as the list is long.** -/
theorem Tallies.sum_count (h : m.Tallies M ks) : (m.entries.map fun e => ks.count e.1).sum = ks.length := by
  have h_keys : (m.entries.map Prod.fst).Perm ks.dedup := by
    refine (List.perm_ext_iff_of_nodup m.nodup_keys ks.nodup_dedup).mpr fun k => ?_
    rw [List.mem_map, List.mem_dedup]
    constructor
    · rintro ⟨⟨k, n⟩, h_mem, rfl⟩
      exact (h.mem_iff.mp h_mem).1
    · intro h_k
      exact ⟨(k, _), h.mem_iff.mpr ⟨h_k, rfl⟩, rfl⟩
  calc (m.entries.map fun e => ks.count e.1).sum = ((m.entries.map Prod.fst).map (ks.count ·)).sum := by
        rw [List.map_map]
        rfl
    _ = (ks.dedup.map (ks.count ·)).sum := (h_keys.map _).sum_eq
    _ = ks.length := List.sum_map_count_dedup_eq_length ks

end SortedMap
