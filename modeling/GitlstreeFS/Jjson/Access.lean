import GitlstreeFS.Cpp
import GitlstreeFS.Jjson.Number

/-!
# Looking into a `Value`

The accessors of `Value`, with what they do to a value of another kind: some assert, others dereference
what `dynamic_cast` or `find` did not find.
-/

namespace GitlstreeFS.Jjson

open Json

/-- How the use of a `Value` fails. -/
inductive Misuse where
  /-- An assertion fails. -/
  | assertion
  /-- A null pointer or an `end()` is dereferenced. -/
  | undefined
  deriving DecidableEq, Repr

variable {ν : Type}

namespace Value

/-- `get(key)`. -/
def get : Value ν → Str → Except Misuse (Value ν)
  | .object members, key =>
    match members.lookup key with
    | some (some v) => .ok v
    | _ => .error .assertion
  | _, _ => .error .assertion

/-- `operator[](key)`. -/
def member : Value ν → Str → Except Misuse (Value ν)
  | .object members, key =>
    match members.lookup key with
    | some (some v) => .ok v
    | _ => .error .undefined
  | _, _ => .error .undefined

/-- `get_array`. -/
def getArray : Value ν → Except Misuse (List (Value ν))
  | .array elements => .ok elements
  | _ => .error .undefined

/-- `get_string`. -/
def getString : Value ν → Except Misuse Str
  | .string s => .ok s
  | _ => .error .assertion

/-- `get_number`. -/
def getNumber : Value ν → Except Misuse ν
  | .number x => .ok x
  | _ => .error .assertion

/-- The conversion of a `float` to an `int` drops the fraction. -/
def truncate (x : ℚ) : ℤ :=
  if 0 ≤ x then ⌊x⌋ else ⌈x⌉

/-- `get_int`: the `int` is converted back to a `float`. -/
def getInt (value : Value Binary32) : Except Misuse Binary32 := do
  match ← value.getNumber with
  | .finite x => if Fits (truncate x) then .ok (.ofRat (truncate x)) else .error .undefined
  | .infinity _ => .error .undefined

/-- `is_true`. -/
def isTrue : Value ν → Bool
  | .true => .true
  | _ => .false

end Value

/-! ### What they find -/

section Found

variable {value v : Value ν} {key s : Str}

/-- An object with this member, which is not a null pointer. -/
def HasMember (value : Value ν) (key : Str) (v : Value ν) : Prop :=
  ∃ members, value = .object members ∧ members.lookup key = some (some v)

theorem get_eq_ok_iff : value.get key = .ok v ↔ HasMember value key v := by
  constructor
  · intro h
    cases value with
    | object members =>
      rw [Value.get] at h
      split at h
      · next w h_found =>
        obtain rfl := Except.ok.inj h
        exact ⟨members, rfl, h_found⟩
      · cases h
    | _ => cases h
  · rintro ⟨members, rfl, h⟩
    rw [Value.get, h]

theorem member_eq_ok_iff : value.member key = .ok v ↔ HasMember value key v := by
  constructor
  · intro h
    cases value with
    | object members =>
      rw [Value.member] at h
      split at h
      · next w h_found =>
        obtain rfl := Except.ok.inj h
        exact ⟨members, rfl, h_found⟩
      · cases h
    | _ => cases h
  · rintro ⟨members, rfl, h⟩
    rw [Value.member, h]

theorem getArray_eq_ok_iff {elements : List (Value ν)} :
    value.getArray = .ok elements ↔ value = .array elements := by
  cases value with
  | array elements' =>
    constructor
    · intro h
      rw [Except.ok.inj h]
    · intro h
      rw [Value.array.inj h]
      rfl
  | _ => exact ⟨fun h => (by cases h), fun h => (by cases h)⟩

theorem getString_eq_ok_iff : value.getString = .ok s ↔ value = .string s := by
  cases value with
  | string s' =>
    constructor
    · intro h
      rw [Except.ok.inj h]
    · intro h
      rw [Value.string.inj h]
      rfl
  | _ => exact ⟨fun h => (by cases h), fun h => (by cases h)⟩

theorem getNumber_eq_ok_iff {x : ν} : value.getNumber = .ok x ↔ value = .number x := by
  cases value with
  | number x' =>
    constructor
    · intro h
      rw [Except.ok.inj h]
    · intro h
      rw [Value.number.inj h]
      rfl
  | _ => exact ⟨fun h => (by cases h), fun h => (by cases h)⟩

end Found

/-! ### Members of an object -/

variable {ν' : Type} {f : ν → ν'} {ms : List (Str × Datum ν)} {key : Str} {t : Datum ν}

/-- A member is found under its name, if no other has it. -/
theorem lookup_ofMembers (h_nodup : (ms.map Prod.fst).Nodup) (h : (key, t) ∈ ms) :
    (ofMembers (mapMembers f ms)).lookup key = some (some (.ofDatum (t.map f))) := by
  induction ms with
  | nil => cases h
  | cons m ms ih =>
    obtain ⟨key', t'⟩ := m
    rw [List.map_cons, List.nodup_cons] at h_nodup
    rw [mapMembers, ofMembers, List.lookup_cons]
    obtain h_eq | h_mem := List.mem_cons.mp h
    · obtain ⟨rfl, rfl⟩ := Prod.mk.inj h_eq
      rw [beq_self_eq_true]
    · have h_ne : (key == key') = false := by
        refine beq_false_of_ne fun h_key => h_nodup.1 ?_
        rw [← h_key]
        exact List.mem_map.mpr ⟨(key, t), h_mem, rfl⟩
      rw [h_ne]
      exact ih h_nodup.2 h_mem

theorem get_ofDatum (h_nodup : (ms.map Prod.fst).Nodup) (h : (key, t) ∈ ms) :
    (Value.ofDatum ((Datum.object ms).map f)).get key = .ok (.ofDatum (t.map f)) := by
  rw [Datum.map, Value.ofDatum, Value.get, lookup_ofMembers h_nodup h]

theorem member_ofDatum (h_nodup : (ms.map Prod.fst).Nodup) (h : (key, t) ∈ ms) :
    (Value.ofDatum ((Datum.object ms).map f)).member key = .ok (.ofDatum (t.map f)) := by
  rw [Datum.map, Value.ofDatum, Value.member, lookup_ofMembers h_nodup h]

/-- The parts of a distinct object are distinct. -/
theorem distinct_of_mem (h : DistinctMembers ms) (h_mem : (key, t) ∈ ms) : t.Distinct := by
  induction ms with
  | nil => cases h_mem
  | cons m ms ih =>
    obtain ⟨key', t'⟩ := m
    obtain h_eq | h_mem := List.mem_cons.mp h_mem
    · obtain ⟨-, rfl⟩ := Prod.mk.inj h_eq
      exact h.1
    · exact ih h.2 h_mem

end GitlstreeFS.Jjson
