import GitlstreeFS.Jjson.Events

/-!
# Values that are not there

The value of a member or an element is one `ObtainValue` returns, and that may be a null pointer.
`ObtainArray` then gives up. `ObtainObject` does not look, puts the null pointer into the object and
goes on, so that `Parse` may return a tree with null pointers in it.

`textResults` lists what the nested calls of `ObtainValue` in a run return. Unless the run ends with a
null pointer, one of them fails just if some member has no value (`NestedIff`), and a tree has null
pointers in it only then (`NoNullIf`): `propagates_iff`.
-/

namespace GitlstreeFS.Jjson

variable {ν : Type}

/-! ### Trees without null pointers -/

mutual

/-- No member of an object is a null pointer, at any depth. -/
def Value.NoNull : Value ν → Prop
  | .array vs => NoNullElements vs
  | .object ms => NoNullMembers ms
  | _ => True

def NoNullElements : List (Value ν) → Prop
  | [] => True
  | v :: vs => v.NoNull ∧ NoNullElements vs

def NoNullMembers : List (Str × Option (Value ν)) → Prop
  | [] => True
  | (_, none) :: _ => False
  | (_, some v) :: ms => v.NoNull ∧ NoNullMembers ms

end

theorem noNullElements_append {vs : List (Value ν)} {v : Value ν} (h : NoNullElements vs)
    (hv : v.NoNull) : NoNullElements (vs ++ [v]) := by
  induction vs with
  | nil => exact ⟨hv, trivial⟩
  | cons v' vs ih => exact ⟨h.1, ih h.2⟩

theorem noNullMembers_emplace {ms : List (Str × Option (Value ν))} {v : Value ν} (key : Str)
    (h : NoNullMembers ms) (hv : v.NoNull) : NoNullMembers (emplace ms key (some v)) := by
  have h_append : NoNullMembers (ms ++ [(key, some v)]) := by
    induction ms with
    | nil => exact ⟨hv, trivial⟩
    | cons m ms ih =>
      obtain ⟨key', _ | v'⟩ := m
      · exact h.elim
      · exact ⟨h.1, ih h.2⟩
  unfold emplace
  split
  · exact h
  · exact h_append

/-! ### Nested calls -/

section Results

variable (strtof : Str → ν)

mutual

/-- Whether each of the calls of `ObtainValue` within `obtainValue` returns a value. -/
def valueResults : ℕ → Str → List Bool
  | 0, _ => []
  | k + 1, s =>
    if peek s = 0x5b then arrayResults k s
    else if peek s = 0x7b then objectResults k s
    else []

/-- Those within `obtainArray`. -/
def arrayResults : ℕ → Str → List Bool
  | 0, _ => []
  | k + 1, s => elementsResults k (skipWhitespace s.tail)

/-- Those within `elements`. -/
def elementsResults : ℕ → Str → List Bool
  | 0, _ => []
  | k + 1, s =>
    if s = [] then []
    else if peek s = 0x5d then []
    else
      valueResults k s ++
        match obtainValue strtof k s with
        | .error _ => []
        | .ok (none, _) => [false]
        | .ok (some _, r) =>
          true ::
            if peek (skipWhitespace r) = 0x5d then elementsResults k (skipWhitespace r)
            else if peek (skipWhitespace r) = 0x2c then
              elementsResults k (skipWhitespace (skipWhitespace r).tail)
            else []

/-- Those within `obtainObject`. -/
def objectResults : ℕ → Str → List Bool
  | 0, _ => []
  | k + 1, s => membersResults k (skipWhitespace s.tail)

/-- Those within `members`. -/
def membersResults : ℕ → Str → List Bool
  | 0, _ => []
  | k + 1, s =>
    if s = [] then []
    else if peek s = 0x7d then []
    else
      let r := skipWhitespace (obtainString s).2
      if peek r ≠ 0x3a then []
      else
        valueResults k (skipWhitespace r.tail) ++
          match obtainValue strtof k (skipWhitespace r.tail) with
          | .error _ => []
          | .ok (v, r') =>
            v.isSome ::
              if (obtainString s).1 = none then []
              else if peek (skipWhitespace r') = 0x2c then
                membersResults k (skipWhitespace (skipWhitespace r').tail)
              else membersResults k (skipWhitespace r')

end

/-- Whether each of the nested calls of `ObtainValue` in a run of `Parse` returns a value. -/
def textResults (s : Str) : List Bool :=
  valueResults strtof (depthOf s) (skipWhitespace s)

/-- A failure is propagated: what is returned has no null pointer in it, and if a nested value could
not be parsed a null pointer is returned. -/
def Propagates (s : Str) : Prop :=
  (∀ v, parse strtof s = .ok (some v) → v.NoNull) ∧
    (false ∈ textResults strtof s → parse strtof s = .ok none)

end Results

/-! ### Members without a value -/

section Nested

/-- Some member has no value. -/
def Valueless (events : List Event) : Prop :=
  ∃ next, Event.member false next ∈ events

theorem not_valueless_stringEvents (s : Str) : ¬ Valueless (stringEvents s) := by
  rintro ⟨next, h⟩
  fun_induction stringEvents s <;> grind

@[simp] theorem not_valueless_nil : ¬ Valueless [] :=
  fun ⟨_, h⟩ => List.not_mem_nil h

@[simp] theorem valueless_append (es es' : List Event) :
    Valueless (es ++ es') ↔ Valueless es ∨ Valueless es' := by
  simp only [Valueless, List.mem_append, exists_or]

@[simp] theorem valueless_element (next : Separator) (es : List Event) :
    Valueless (.element next :: es) ↔ Valueless es := by
  simp [Valueless]

@[simp] theorem valueless_key (readable colon : Bool) (es : List Event) :
    Valueless (.key readable colon :: es) ↔ Valueless es := by
  simp [Valueless]

@[simp] theorem valueless_member (value : Bool) (next : Separator) (es : List Event) :
    Valueless (.member value next :: es) ↔ value = false ∨ Valueless es := by
  unfold Valueless
  constructor
  · rintro ⟨n, h⟩
    obtain h | h := List.mem_cons.mp h
    · exact .inl (Event.member.inj h).1.symm
    · exact .inr ⟨n, h⟩
  · rintro (rfl | ⟨n, h⟩)
    · exact ⟨next, List.mem_cons_self⟩
    · exact ⟨n, List.mem_cons_of_mem _ h⟩

variable (strtof : Str → ν)

/-- The run of a function has nested failures just if it has members without a value, unless it ends
with a null pointer or is cut off. -/
def FailsIff (res : Result ν) (results : List Bool) (events : List Event) : Prop :=
  res ≠ .error .depth → (∀ r, res ≠ .ok (none, r)) → (false ∈ results ↔ Valueless events)

/-- Nested failures, with `k` calls. -/
structure NestedIff (k : ℕ) : Prop where
  value : ∀ s, FailsIff (obtainValue strtof k s) (valueResults strtof k s) (valueEvents strtof k s)
  array : ∀ s, peek s = 0x5b →
    FailsIff (obtainArray strtof k s) (arrayResults strtof k s) (arrayEvents strtof k s)
  elements : ∀ array s,
    FailsIff (elements strtof k array s) (elementsResults strtof k s) (elementsEvents strtof k s)
  object : ∀ s, peek s = 0x7b →
    FailsIff (obtainObject strtof k s) (objectResults strtof k s) (objectEvents strtof k s)
  members : ∀ object s,
    FailsIff (members strtof k object s) (membersResults strtof k s) (membersEvents strtof k s)

variable {strtof : Str → ν} {k : ℕ}

/-- What a value may begin with that is not nested. -/
theorem ne_of_bracket {s : Str} (h : peek s = 0x5b ∨ peek s = 0x7b) :
    peek s ≠ 0x66 ∧ peek s ≠ 0x6e ∧ peek s ≠ 0x74 ∧ peek s ∉ str "-0123456789+" := by
  obtain h | h := h
  · rw [h]; decide
  · rw [h]; decide

theorem obtainValue_array {s : Str} (h : peek s = 0x5b) :
    obtainValue strtof (k + 1) s = obtainArray strtof k s := by
  obtain ⟨h₁, h₂, h₃, h₄⟩ := ne_of_bracket (.inl h)
  rw [obtainValue, if_neg h₁, if_neg h₂, if_neg h₃, if_neg h₄, if_pos h]

theorem obtainValue_object {s : Str} (h : peek s = 0x7b) :
    obtainValue strtof (k + 1) s = obtainObject strtof k s := by
  obtain ⟨h₁, h₂, h₃, h₄⟩ := ne_of_bracket (.inr h)
  have h_array : peek s ≠ 0x5b := by rw [h]; decide
  rw [obtainValue, if_neg h₁, if_neg h₂, if_neg h₃, if_neg h₄, if_neg h_array, if_pos h]

theorem NestedIff.value_succ (h : NestedIff strtof k) (s : Str) :
    FailsIff (obtainValue strtof (k + 1) s) (valueResults strtof (k + 1) s)
      (valueEvents strtof (k + 1) s) := by
  rw [valueResults, valueEvents]
  by_cases h_array : peek s = 0x5b
  · rw [obtainValue_array h_array, if_pos h_array, if_pos h_array]
    exact h.array s h_array
  by_cases h_object : peek s = 0x7b
  · rw [obtainValue_object h_object, if_neg h_array, if_neg h_array, if_pos h_object,
      if_pos h_object]
    exact h.object s h_object
  · rw [if_neg h_array, if_neg h_array, if_neg h_object, if_neg h_object]
    intro _ _
    refine iff_of_false List.not_mem_nil ?_
    split
    · exact not_valueless_stringEvents _
    · exact not_valueless_nil

theorem NestedIff.elements_succ (h : NestedIff strtof k) (array : List (Value ν)) (s : Str) :
    FailsIff (Jjson.elements strtof (k + 1) array s) (elementsResults strtof (k + 1) s)
      (elementsEvents strtof (k + 1) s) := by
  intro h_depth h_null
  rw [Jjson.elements] at h_depth h_null
  rw [elementsResults, elementsEvents]
  by_cases h_nil : s = []
  · simp [h_nil]
  by_cases h_close : peek s = 0x5d
  · simp [h_nil, h_close]
  rw [if_neg h_nil, if_neg h_close] at h_depth h_null ⊢
  rw [if_neg h_nil, if_neg h_close]
  have h_value := h.value s
  obtain ⟨e, h_eq⟩ | ⟨v, r, h_eq⟩ : (∃ e, obtainValue strtof k s = .error e) ∨
      ∃ v r, obtainValue strtof k s = .ok (v, r) := by
    cases obtainValue strtof k s with
    | error e => exact .inl ⟨e, rfl⟩
    | ok p => exact .inr ⟨p.1, p.2, rfl⟩
  · rw [h_eq] at h_depth h_value
    simpa [h_eq] using h_value h_depth (by simp)
  · cases v with
    | none =>
      -- the array gives up
      rw [h_eq] at h_null
      exact absurd rfl (h_null r)
    | some v =>
      rw [h_eq] at h_depth h_null h_value
      have h_value := h_value (by simp) (by simp)
      simp only [h_eq, List.mem_append, List.mem_cons, h_value, valueless_append, valueless_element,
        Bool.false_eq_true, false_or] at h_depth h_null ⊢
      refine or_congr_right ?_
      split_ifs at h_depth h_null ⊢
      · exact h.elements _ _ h_depth h_null
      · exact h.elements _ _ h_depth h_null
      · simp

theorem NestedIff.members_succ (h : NestedIff strtof k)
    (object : List (Str × Option (Value ν))) (s : Str) :
    FailsIff (Jjson.members strtof (k + 1) object s) (membersResults strtof (k + 1) s)
      (membersEvents strtof (k + 1) s) := by
  intro h_depth h_null
  rw [Jjson.members] at h_depth h_null
  rw [membersResults, membersEvents]
  by_cases h_nil : s = []
  · simp [h_nil]
  by_cases h_close : peek s = 0x7d
  · simp [h_nil, h_close]
  -- what is said of values says nothing of the names
  have h_string : ¬ Valueless (if peek s = 0x22 then stringEvents s.tail else []) := by
    split
    · exact not_valueless_stringEvents _
    · exact not_valueless_nil
  rw [if_neg h_nil, if_neg h_close] at h_depth h_null ⊢
  rw [if_neg h_nil, if_neg h_close]
  have h_key_iff := obtainString_eq_none_iff (s := s)
  simp only [valueless_append, h_string, false_or, valueless_key] at h_depth h_null ⊢
  generalize skipWhitespace (obtainString s).2 = t at h_depth h_null h_key_iff ⊢
  by_cases h_colon : peek t = 0x3a
  · have h_key_iff := h_key_iff h_colon
    rw [if_neg (not_not.mpr h_colon)] at h_depth h_null ⊢
    rw [if_neg (not_not.mpr h_colon), valueless_append, List.mem_append]
    have h_value := h.value (skipWhitespace t.tail)
    -- a fault of the value is one of the whole
    rcases h_eq : obtainValue strtof k (skipWhitespace t.tail) with e | ⟨v, r⟩
    · rw [h_eq] at h_depth h_value
      have h_fault : e ≠ .depth := by
        rintro rfl
        exact h_depth rfl
      simpa [h_eq] using h_value (by simp [h_fault]) (by simp)
    · rw [h_eq] at h_depth h_null h_value
      simp only [List.mem_cons, valueless_member, eq_comm (a := false)] at h_depth h_null ⊢
      cases v with
      | none => simp
      | some v =>
        have h_value := h_value (by simp) (by simp)
        rw [h_value]
        refine or_congr_right ?_
        simp only [Option.isSome_some, Bool.true_eq_false, false_or]
        rcases h_key : (obtainString s).1 with _ | key
        · simp [h_key_iff.mp h_key]
        · have h_readable : keyReadable s = true := by simpa [h_key] using h_key_iff
          simp only [h_key, h_readable, reduceCtorEq, if_false, Bool.true_eq_false]
            at h_depth h_null ⊢
          -- whatever is behind the value, the loop goes on: at the next member, or where it is
          by_cases h_comma : peek (skipWhitespace r) = 0x2c
          · have h_not : peek (skipWhitespace r) ≠ 0x7d := by rw [h_comma]; decide
            rw [if_neg h_not, if_pos h_comma] at h_depth h_null
            rw [if_pos h_comma, if_pos h_comma]
            exact h.members _ _ h_depth h_null
          · rw [if_neg h_comma, ite_self] at h_depth h_null
            rw [if_neg h_comma, if_neg h_comma]
            exact h.members _ _ h_depth h_null
  · rw [if_pos h_colon] at h_null
    exact absurd rfl (h_null _)

variable (strtof) in
theorem nestedIff (k : ℕ) : NestedIff strtof k := by
  induction k with
  | zero =>
    constructor
    case value => exact fun s h_depth _ => absurd rfl h_depth
    case array => exact fun s _ h_depth _ => absurd rfl h_depth
    case elements => exact fun _ s h_depth _ => absurd rfl h_depth
    case object => exact fun s _ h_depth _ => absurd rfl h_depth
    case members => exact fun _ s h_depth _ => absurd rfl h_depth
  | succ k ih =>
    constructor
    case value => exact ih.value_succ
    case elements => exact ih.elements_succ
    case members => exact ih.members_succ
    case array =>
      intro s h_start
      rw [obtainArray, if_neg (not_not.mpr h_start)]
      exact ih.elements _ _
    case object =>
      intro s h_start
      rw [obtainObject, if_neg (not_not.mpr h_start)]
      exact ih.members _ _

end Nested

/-! ### Null pointers in the tree -/

section NoNull

variable (strtof : Str → ν)

/-- If every member in the run of a function has a value, what it returns has no null pointer in it. -/
def Whole (res : Result ν) (events : List Event) : Prop :=
  ∀ v r, res = .ok (some v, r) → ¬ Valueless events → v.NoNull

/-- No null pointers, with `k` calls. -/
structure NoNullIf (k : ℕ) : Prop where
  value : ∀ s, Whole (obtainValue strtof k s) (valueEvents strtof k s)
  array : ∀ s, peek s = 0x5b → Whole (obtainArray strtof k s) (arrayEvents strtof k s)
  elements : ∀ array s, NoNullElements array →
    Whole (elements strtof k array s) (elementsEvents strtof k s)
  object : ∀ s, peek s = 0x7b → Whole (obtainObject strtof k s) (objectEvents strtof k s)
  members : ∀ object s, NoNullMembers object →
    Whole (members strtof k object s) (membersEvents strtof k s)

variable {strtof : Str → ν} {k : ℕ}

theorem noNull_assertConsume {v v' : Value ν} {expect s r : Str} (hv : v.NoNull)
    (h : assertConsume v expect s = (some v', r)) : v'.NoNull := by
  fun_induction assertConsume v expect s with
  | case1 s =>
    obtain rfl := Option.some.inj (Prod.mk.inj h).1
    exact hv
  | case2 => cases h
  | case3 c expect s ih => exact ih h
  | case4 => cases h

theorem NoNullIf.value_succ (h : NoNullIf strtof k) (s : Str) :
    Whole (obtainValue strtof (k + 1) s) (valueEvents strtof (k + 1) s) := by
  rw [valueEvents]
  by_cases h_array : peek s = 0x5b
  · rw [obtainValue_array h_array, if_pos h_array]
    exact h.array s h_array
  by_cases h_object : peek s = 0x7b
  · rw [obtainValue_object h_object, if_neg h_array, if_pos h_object]
    exact h.object s h_object
  intro v r h_eq _
  rw [obtainValue, if_neg h_array, if_neg h_object] at h_eq
  split_ifs at h_eq
  · exact noNull_assertConsume (v := .false) trivial (Except.ok.inj h_eq)
  · exact noNull_assertConsume (v := .null) trivial (Except.ok.inj h_eq)
  · exact noNull_assertConsume (v := .true) trivial (Except.ok.inj h_eq)
  · obtain rfl := Option.some.inj (Prod.mk.inj (Except.ok.inj h_eq)).1
    trivial
  · obtain ⟨content, -, rfl⟩ := Option.map_eq_some_iff.mp (Prod.mk.inj (Except.ok.inj h_eq)).1
    trivial
  · cases h_eq

theorem NoNullIf.elements_succ (h : NoNullIf strtof k) (array : List (Value ν)) (s : Str)
    (h_array : NoNullElements array) :
    Whole (Jjson.elements strtof (k + 1) array s) (elementsEvents strtof (k + 1) s) := by
  intro v r h_eq h_events
  rw [Jjson.elements] at h_eq
  rw [elementsEvents] at h_events
  by_cases h_nil : s = []
  · simp [h_nil] at h_eq
  by_cases h_close : peek s = 0x5d
  · rw [if_neg h_nil, if_pos h_close] at h_eq
    obtain rfl := Option.some.inj (Prod.mk.inj (Except.ok.inj h_eq)).1
    exact h_array
  rw [if_neg h_nil, if_neg h_close] at h_eq h_events
  have h_value := h.value s
  rcases h_res : obtainValue strtof k s with e | ⟨_ | v', r'⟩
  · simp [h_res] at h_eq
  · simp [h_res] at h_eq
  · rw [h_res] at h_value
    simp only [h_res, valueless_append, valueless_element, not_or] at h_eq h_events
    have h_more := noNullElements_append h_array (h_value v' r' rfl h_events.1)
    split_ifs at h_eq h_events
    · exact h.elements _ _ h_more v r h_eq h_events.2
    · exact h.elements _ _ h_more v r h_eq h_events.2
    · cases h_eq

theorem NoNullIf.members_succ (h : NoNullIf strtof k) (object : List (Str × Option (Value ν)))
    (s : Str) (h_object : NoNullMembers object) :
    Whole (Jjson.members strtof (k + 1) object s) (membersEvents strtof (k + 1) s) := by
  intro v r h_eq h_events
  rw [Jjson.members] at h_eq
  rw [membersEvents] at h_events
  by_cases h_nil : s = []
  · simp [h_nil] at h_eq
  by_cases h_close : peek s = 0x7d
  · rw [if_neg h_nil, if_pos h_close] at h_eq
    obtain rfl := Option.some.inj (Prod.mk.inj (Except.ok.inj h_eq)).1
    exact h_object
  rw [if_neg h_nil, if_neg h_close] at h_eq h_events
  have h_key_iff := obtainString_eq_none_iff (s := s)
  simp only [valueless_append, valueless_key, not_or] at h_eq h_events
  generalize skipWhitespace (obtainString s).2 = t at h_eq h_key_iff h_events
  by_cases h_colon : peek t = 0x3a
  · have h_key_iff := h_key_iff h_colon
    rw [if_neg (not_not.mpr h_colon)] at h_eq h_events
    have h_value := h.value (skipWhitespace t.tail)
    rcases h_res : obtainValue strtof k (skipWhitespace t.tail) with e | ⟨v', r'⟩
    · simp [h_res] at h_eq
    · rw [h_res] at h_value
      simp only [h_res, valueless_append, valueless_member, not_or] at h_eq h_events
      obtain ⟨-, h_nested, h_some, h_rest⟩ := h_events
      -- each member has a value, or its event would be valueless
      obtain ⟨v', rfl⟩ : ∃ w, v' = some w := Option.ne_none_iff_exists'.mp (by simpa using h_some)
      rcases h_key : (obtainString s).1 with _ | key
      · simp [h_key] at h_eq
      · have h_readable : keyReadable s = true := by simpa [h_key] using h_key_iff
        -- with it the object is still without null pointers, and the loop goes on
        have h_more := noNullMembers_emplace key h_object (h_value v' r' rfl h_nested)
        simp only [h_key, h_readable, Bool.true_eq_false, if_false] at h_eq h_rest
        by_cases h_comma : peek (skipWhitespace r') = 0x2c
        · have h_not : peek (skipWhitespace r') ≠ 0x7d := by rw [h_comma]; decide
          rw [if_neg h_not, if_pos h_comma] at h_eq
          rw [if_pos h_comma] at h_rest
          exact h.members _ _ h_more v r h_eq h_rest
        · rw [if_neg h_comma, ite_self] at h_eq
          rw [if_neg h_comma] at h_rest
          exact h.members _ _ h_more v r h_eq h_rest
  · simp [h_colon] at h_eq

variable (strtof) in
theorem noNullIf (k : ℕ) : NoNullIf strtof k := by
  induction k with
  | zero =>
    constructor
    case value => exact fun s v r h => by cases h
    case array => exact fun s _ v r h => by cases h
    case elements => exact fun _ s _ v r h => by cases h
    case object => exact fun s _ v r h => by cases h
    case members => exact fun _ s _ v r h => by cases h
  | succ k ih =>
    constructor
    case value => exact ih.value_succ
    case elements => exact ih.elements_succ
    case members => exact ih.members_succ
    case array =>
      intro s h_start
      rw [obtainArray, if_neg (not_not.mpr h_start)]
      exact ih.elements _ _ trivial
    case object =>
      intro s h_start
      rw [obtainObject, if_neg (not_not.mpr h_start)]
      exact ih.members _ _ trivial

/-! ### Propagation -/

/-- What is left behind the value has nothing to do with its members. -/
theorem valueless_textEvents (s : Str) : Valueless (textEvents strtof s) ↔
    Valueless (valueEvents strtof (depthOf s) (skipWhitespace s)) := by
  unfold textEvents
  rw [valueless_append, or_iff_left]
  rintro ⟨next, h⟩
  split at h
  · simp at h
  · simp at h

/-- **Failure propagates.** Where `Parse` does not return a null pointer, it propagates every failure
just if every member in its run has a value. Where it returns a null pointer nothing is asked of it. -/
theorem propagates_iff (strtof : Str → ν) {s : Str} (h : parse strtof s ≠ .ok none) :
    Propagates strtof s ↔ ∀ next, Event.member false next ∉ textEvents strtof s := by
  have h_depth := obtainValue_ne_depth strtof s
  have h_nested := (nestedIff strtof (depthOf s)).value (skipWhitespace s) h_depth
  have h_whole := (noNullIf strtof (depthOf s)).value (skipWhitespace s)
  have h_null : ∀ r, obtainValue strtof (depthOf s) (skipWhitespace s) ≠ .ok (none, r) := by
    intro r h_eq
    rw [parse, parseJsonText, h_eq] at h
    exact h rfl
  have h_events : (∀ next, Event.member false next ∉ textEvents strtof s) ↔
      ¬ Valueless (valueEvents strtof (depthOf s) (skipWhitespace s)) := by
    rw [← valueless_textEvents, Valueless, not_exists]
  rw [h_events, ← h_nested h_null]
  constructor
  · intro h_propagates h_fails
    exact h (h_propagates.2 h_fails)
  · intro h_fails
    refine ⟨fun v h_eq => ?_, fun h_mem => absurd h_mem h_fails⟩
    rcases h_res : obtainValue strtof (depthOf s) (skipWhitespace s) with e | ⟨v', r⟩
    · rw [parse, parseJsonText, h_res] at h_eq
      cases h_eq
    · rw [parse, parseJsonText, h_res] at h_eq
      obtain rfl : v' = some v := Except.ok.inj h_eq
      exact h_whole v r h_res ((h_nested h_null).not.mp h_fails)

/-- `{"a":1}` has a value for its member. -/
theorem propagates_member : Propagates (fun _ => ()) (str "\x7b\"a\":1\x7d") := by
  refine (propagates_iff (fun _ => ()) ?_).mpr ?_
  · intro h
    have h_some : parse (fun _ => ()) (str "\x7b\"a\":1\x7d")
        = .ok (some (.object [(str "a", some (.number ()))])) := rfl
    rw [h_some] at h
    cases h
  · intro next
    cases next <;> decide +kernel

/-- `{"a":}` is accepted, with a null pointer for its member. -/
theorem not_propagates_missingValue : ¬ Propagates (fun _ => ()) (str "\x7b\"a\":\x7d") := by
  intro h
  have h_null : parse (fun _ => ()) (str "\x7b\"a\":\x7d") = .ok (some (.object [(str "a", none)])) :=
    rfl
  exact h.1 _ h_null

end NoNull

end GitlstreeFS.Jjson
