import Mathlib.Data.List.Nodup
import Mathlib.Data.Nat.Notation
import Mathlib.Tactic.Common

/-!
# Objects that own each other

An object owns others by name, through `unique_ptr`s in a map, and these own others again, down from one
root. An object is found at the names that lead to it (its place), and lives until something else is put in
its place or in the place of an object above it. A raw pointer (`Ptr`) is the place of an object together
with an address that is never used twice, and leads to the object as long as it lives (`deref`).

What is put into a free place comes to what is there (`Store.content_reset`); to put it elsewhere would
destroy something.
-/

namespace Owned

variable {ν κ : Type*}

/-- A pointer to an object. -/
structure Ptr (ν : Type*) where
  loc : List ν
  addr : ℕ
  deriving DecidableEq, Repr

/-- The objects that live, and the next address. -/
structure Store (ν κ : Type*) where
  objects : List (Ptr ν × κ)
  next : ℕ

namespace Store

/-- The places are different. -/
def Sound (s : Store ν κ) : Prop :=
  (s.objects.map fun o => o.1.loc).Nodup

/-- Nothing lives at a place or below it. -/
def Free (s : Store ν κ) (loc : List ν) : Prop :=
  ∀ o ∈ s.objects, ¬ loc <+: o.1.loc

/-- The objects, with their places. -/
def content (s : Store ν κ) : List (List ν × κ) :=
  s.objects.map fun o => (o.1.loc, o.2)

theorem Sound.eq_of_loc {s : Store ν κ} (h : s.Sound) {o o' : Ptr ν × κ} (ho : o ∈ s.objects)
    (ho' : o' ∈ s.objects) (h_loc : o.1.loc = o'.1.loc) : o = o' :=
  List.inj_on_of_nodup_map h ho ho' h_loc

section Operations

variable [DecidableEq ν]

/-- `reset`: a new object gets the place, and what has been at it and below it is destroyed. -/
def reset (s : Store ν κ) (loc : List ν) (x : κ) : Store ν κ :=
  ⟨s.objects.filter (fun o => ¬ loc <+: o.1.loc) ++ [(⟨loc, s.next⟩, x)], s.next + 1⟩

/-- The object of a pointer, if it lives. -/
def deref (s : Store ν κ) (p : Ptr ν) : Option κ :=
  (s.objects.find? fun o => o.1 = p).map Prod.snd

/-- The names of the objects that the one at a place owns. -/
def names (s : Store ν κ) (loc : List ν) : List ν :=
  (s.objects.map fun o => o.1.loc).filterMap fun q => if q.dropLast = loc then q.getLast? else none

end Operations

variable [DecidableEq ν] {s : Store ν κ} {p : Ptr ν} {x : κ} {loc : List ν} {n : ν}

/-- In a free place nothing is destroyed. -/
theorem objects_reset (h : s.Free loc) (x : κ) :
    (s.reset loc x).objects = s.objects ++ [(⟨loc, s.next⟩, x)] := by
  have h_all : s.objects.filter (fun o => ¬ loc <+: o.1.loc) = s.objects :=
    List.filter_eq_self.mpr fun o ho => decide_eq_true (h o ho)
  rw [reset, h_all]

theorem sound_reset (h : s.Sound) (h_free : s.Free loc) (x : κ) : (s.reset loc x).Sound := by
  rw [Sound, objects_reset h_free, List.map_append, List.nodup_append]
  refine ⟨h, List.nodup_singleton _, ?_⟩
  intro q hq r hr h_eq
  obtain ⟨o, ho, rfl⟩ := List.mem_map.mp hq
  obtain rfl := List.mem_singleton.mp hr
  exact h_free o ho (h_eq ▸ List.prefix_refl _)

theorem content_reset (h : s.Free loc) (x : κ) : (s.reset loc x).content = s.content ++ [(loc, x)] := by
  rw [content, objects_reset h, List.map_append]
  rfl

theorem Sound.deref_eq_some_iff (h : s.Sound) : s.deref p = some x ↔ (p, x) ∈ s.objects := by
  rw [deref, Option.map_eq_some_iff]
  constructor
  · rintro ⟨⟨p', x'⟩, h_find, rfl⟩
    have h_p : p' = p := by simpa using List.find?_some h_find
    exact h_p ▸ List.mem_of_find?_eq_some h_find
  · intro h_mem
    have h_some : (s.objects.find? fun o => o.1 = p).isSome :=
      List.find?_isSome.mpr ⟨(p, x), h_mem, decide_eq_true rfl⟩
    obtain ⟨o, ho⟩ := Option.isSome_iff_exists.mp h_some
    have h_p : o.1 = p := by simpa using List.find?_some ho
    obtain rfl := h.eq_of_loc (List.mem_of_find?_eq_some ho) h_mem (congrArg Ptr.loc h_p)
    exact ⟨_, ho, rfl⟩

theorem getLast_eq_iff {q : List ν} : (if q.dropLast = loc then q.getLast? else none) = some n ↔ q = loc ++ [n] := by
  constructor
  · intro h
    split_ifs at h with h_loc
    rw [← h_loc]
    exact (List.dropLast_append_getLast? n h).symm
  · rintro rfl
    rw [if_pos List.dropLast_concat, List.getLast?_concat]

/-- The names are those of what is one name below. -/
theorem mem_names : n ∈ s.names loc ↔ ∃ x, (loc ++ [n], x) ∈ s.content := by
  rw [names, List.mem_filterMap]
  constructor
  · rintro ⟨q, hq, h_last⟩
    obtain ⟨o, ho, rfl⟩ := List.mem_map.mp hq
    exact ⟨o.2, List.mem_map.mpr ⟨o, ho, Prod.ext (getLast_eq_iff.mp h_last) rfl⟩⟩
  · rintro ⟨x, hx⟩
    obtain ⟨o, ho, h_eq⟩ := List.mem_map.mp hx
    exact ⟨o.1.loc, List.mem_map_of_mem ho, getLast_eq_iff.mpr (Prod.mk.inj h_eq).1⟩

theorem Sound.nodup_names (h : s.Sound) : (s.names loc).Nodup := by
  refine h.filterMap fun q r n hq hr => ?_
  rw [getLast_eq_iff.mp hq, getLast_eq_iff.mp hr]

end Store

end Owned
