import GitlstreeFS.Jjson.Lexemes

/-!
# What happens in a run of the parser

`textEvents` lists the branches a run of `Parse` takes where the parser could have looked closer:
what it makes of a member's key and of what follows it, what follows a member or an element, which
characters it takes for the digits of a `\u` escape, and what is left at the end.

The event of a key that is missing although a colon follows is the only one that makes a run go
wrong: `parse_ok_iff`. That a run ends at all is `obtainValue_ne_depth`.
-/

namespace GitlstreeFS.Jjson

open Json

variable {ν : Type}

/-! ### Events -/

/-- What follows a member or an element. -/
inductive Separator where
  | close
  | comma
  /-- A comma and then the closing bracket. -/
  | trailing
  | missing
  deriving DecidableEq, Repr

/-- What follows at `s`, where `closing` is the closing bracket. -/
def separator (closing : UInt8) (s : Str) : Separator :=
  if peek s = closing then .close
  else if peek s = 0x2c then
    if peek (skipWhitespace s.tail) = closing then .trailing else .comma
  else .missing

/-- Every `\u` escape up to the closing quote stands for one byte. -/
def codesInRange : Str → Bool
  | [] => true
  | 0x22 :: _ => true
  | 0x5c :: 0x75 :: h₁ :: h₂ :: h₃ :: h₄ :: s =>
    if 0 ≤ charcode h₁ h₂ h₃ h₄ ∧ charcode h₁ h₂ h₃ h₄ < 256 then codesInRange s else false
  | 0x5c :: 0x75 :: _ => true
  | 0x5c :: _ :: s => codesInRange s
  | [0x5c] => true
  | _ :: s => codesInRange s

/-- There is a quote at `s`, and no `\u` escape behind it is out of range. -/
def keyReadable (s : Str) : Bool :=
  peek s = 0x22 && codesInRange s.tail

inductive Event where
  /-- The key of a member is readable or not, and a colon follows or not. -/
  | key (readable colon : Bool)
  /-- A member has a value or not, and something follows it. -/
  | member (value : Bool) (next : Separator)
  /-- Something follows an element. -/
  | element (next : Separator)
  /-- The four characters behind `\u` are the contents of a string literal, or not. -/
  | unicode (closed : Bool)
  /-- Nothing is left behind the value, or something is. -/
  | rest (nothing : Bool)
  deriving DecidableEq, Repr

/-- The events of `stringLoop`. -/
def stringEvents : Str → List Event
  | [] => []
  | 0x22 :: _ => []
  | 0x5c :: 0x75 :: h₁ :: h₂ :: h₃ :: h₄ :: s =>
    .unicode (isClosed [h₁, h₂, h₃, h₄]) ::
      if 0 ≤ charcode h₁ h₂ h₃ h₄ ∧ charcode h₁ h₂ h₃ h₄ < 256 then stringEvents s else []
  | 0x5c :: 0x75 :: _ => []
  | 0x5c :: _ :: s => stringEvents s
  | [0x5c] => []
  | _ :: s => stringEvents s

section Events

variable (strtof : Str → ν)

mutual

/-- The events of `obtainValue`. -/
def valueEvents : ℕ → Str → List Event
  | 0, _ => []
  | k + 1, s =>
    if peek s = 0x5b then arrayEvents k s
    else if peek s = 0x7b then objectEvents k s
    else if peek s = 0x22 then stringEvents s.tail
    else []

/-- The events of `obtainArray`. -/
def arrayEvents : ℕ → Str → List Event
  | 0, _ => []
  | k + 1, s => elementsEvents k (skipWhitespace s.tail)

/-- The events of `elements`. -/
def elementsEvents : ℕ → Str → List Event
  | 0, _ => []
  | k + 1, s =>
    if s = [] then []
    else if peek s = 0x5d then []
    else
      valueEvents k s ++
        match obtainValue strtof k s with
        | .ok (some _, r) =>
          .element (separator 0x5d (skipWhitespace r)) ::
            if peek (skipWhitespace r) = 0x5d then elementsEvents k (skipWhitespace r)
            else if peek (skipWhitespace r) = 0x2c then
              elementsEvents k (skipWhitespace (skipWhitespace r).tail)
            else []
        | _ => []

/-- The events of `obtainObject`. -/
def objectEvents : ℕ → Str → List Event
  | 0, _ => []
  | k + 1, s => membersEvents k (skipWhitespace s.tail)

/-- The events of `members`. -/
def membersEvents : ℕ → Str → List Event
  | 0, _ => []
  | k + 1, s =>
    if s = [] then []
    else if peek s = 0x7d then []
    else
      let r := skipWhitespace (obtainString s).2
      (if peek s = 0x22 then stringEvents s.tail else []) ++
        .key (keyReadable s) (peek r = 0x3a) ::
          if peek r ≠ 0x3a then []
          else
            valueEvents k (skipWhitespace r.tail) ++
              match obtainValue strtof k (skipWhitespace r.tail) with
              | .ok (v, r') =>
                .member v.isSome (separator 0x7d (skipWhitespace r')) ::
                  if keyReadable s = false then []
                  else if peek (skipWhitespace r') = 0x2c then
                    membersEvents k (skipWhitespace (skipWhitespace r').tail)
                  else membersEvents k (skipWhitespace r')
              | _ => []

end

/-- The events of `parse`. -/
def textEvents (s : Str) : List Event :=
  valueEvents strtof (depthOf s) (skipWhitespace s) ++
    match obtainValue strtof (depthOf s) (skipWhitespace s) with
    | .ok (_, r) => [.rest (skipWhitespace r).isEmpty]
    | _ => []

end Events

/-! ### Progress -/

section Progress

variable (strtof : Str → ν)

/-- The rest is no longer than the text, and shorter if a value was found. -/
def Shortens (s : Str) (res : Result ν) : Prop :=
  ∀ v r, res = .ok (v, r) → r.length ≤ s.length ∧ (v ≠ none → r.length < s.length)

/-- Each of the functions moves forward. -/
structure MovesOn (k : ℕ) : Prop where
  value : ∀ s, Shortens s (obtainValue strtof k s)
  array : ∀ s, peek s = 0x5b → Shortens s (obtainArray strtof k s)
  elements : ∀ array s, Shortens s (elements strtof k array s)
  object : ∀ s, peek s = 0x7b → Shortens s (obtainObject strtof k s)
  members : ∀ object s, Shortens s (members strtof k object s)

variable {strtof : Str → ν} {k : ℕ} {s r : Str}

theorem shortens_error (s : Str) (e : Fault) : Shortens s (.error e : Result ν) :=
  fun _ _ h => by simp at h

theorem shortens_none (h : r.length ≤ s.length) : Shortens s (.ok (none, r) : Result ν) := by
  intro v r' h_eq
  obtain ⟨rfl, rfl⟩ := Prod.mk.inj (Except.ok.inj h_eq)
  exact ⟨h, fun h_ne => absurd rfl h_ne⟩

theorem shortens_lt {v : Option (Value ν)} (h : r.length < s.length) :
    Shortens s (.ok (v, r) : Result ν) := by
  intro v' r' h_eq
  obtain ⟨rfl, rfl⟩ := Prod.mk.inj (Except.ok.inj h_eq)
  exact ⟨Nat.le_of_lt h, fun _ => h⟩

theorem Shortens.mono {s' : Str} {res : Result ν} (h : Shortens s res) (h_len : s.length < s'.length) :
    Shortens s' res := by
  intro v r h_eq
  have h_le := (h v r h_eq).1
  exact ⟨by omega, fun _ => by omega⟩

theorem ne_nil_of_peek {b : UInt8} (h : peek s = b) (hb : b ≠ 0) : s ≠ [] := by
  rintro rfl
  exact hb h.symm

theorem length_tail_lt (h : s ≠ []) : s.tail.length < s.length := by
  obtain ⟨b, s, rfl⟩ := List.exists_cons_of_ne_nil h
  exact Nat.lt_succ_self _

theorem shortens_assertConsume (v : Value ν) {expect : Str} (h : expect ≠ []) (s : Str) :
    Shortens s (.ok (assertConsume v expect s)) := by
  intro v' r h_eq
  have h_eq := Except.ok.inj h_eq
  refine ⟨by simpa [h_eq] using length_assertConsume_le v expect s, fun h_some => ?_⟩
  obtain ⟨v', rfl⟩ := Option.ne_none_iff_exists'.mp h_some
  have h_len := congrArg List.length (eq_append_of_assertConsume h_eq)
  have h_pos := List.length_pos_iff.mpr h
  rw [List.length_append] at h_len
  omega

variable (strtof) in
theorem shortens_obtainNumber (h : peek s ∈ str "-0123456789+") :
    Shortens s (.ok (obtainNumber strtof s)) := by
  have h_valid : peek s ∈ validNumber := by
    have h_sub : ∀ b ∈ str "-0123456789+", b ∈ validNumber := by decide +kernel
    exact h_sub _ h
  obtain ⟨b, s, rfl⟩ := List.exists_cons_of_ne_nil
    (ne_nil_of_peek (s := s) rfl fun h_zero => by rw [h_zero] at h; exact absurd h (by decide))
  have h_cons : (consume validNumber (b :: s)).2 = s.dropWhile (· ∈ validNumber) := by
    rw [consume, List.span_eq_takeWhile_dropWhile]
    exact List.dropWhile_cons_of_pos (p := (· ∈ validNumber)) (decide_eq_true h_valid)
  refine shortens_lt ?_
  rw [h_cons]
  exact Nat.lt_succ_of_le (List.dropWhile_suffix _).length_le

theorem MovesOn.zero : MovesOn strtof 0 := by
  constructor
  case value => exact fun s => shortens_error s _
  case array => exact fun s _ => shortens_error s _
  case elements => exact fun _ s => shortens_error s _
  case object => exact fun s _ => shortens_error s _
  case members => exact fun _ s => shortens_error s _

theorem MovesOn.value_succ (h : MovesOn strtof k) (s : Str) :
    Shortens s (obtainValue strtof (k + 1) s) := by
  rw [obtainValue]
  split_ifs with h₁ h₂ h₃ h_number h_array h_object h_string
  · exact shortens_assertConsume _ (by decide) s
  · exact shortens_assertConsume _ (by decide) s
  · exact shortens_assertConsume _ (by decide) s
  · exact shortens_obtainNumber strtof h_number
  · exact h.array s h_array
  · exact h.object s h_object
  · exact shortens_lt (length_obtainString (ne_nil_of_peek h_string (by decide)))
  · exact shortens_none (Nat.le_refl _)

theorem MovesOn.elements_succ (h : MovesOn strtof k) (array : List (Value ν)) (s : Str) :
    Shortens s (Jjson.elements strtof (k + 1) array s) := by
  rw [Jjson.elements]
  by_cases h_nil : s = []
  · rw [if_pos h_nil]
    exact shortens_none (Nat.le_refl _)
  rw [if_neg h_nil]
  split_ifs
  · exact shortens_lt (length_tail_lt h_nil)
  have h_value := h.value s
  generalize obtainValue strtof k s = res at h_value
  rcases res with e | ⟨_ | v, r⟩
  · exact shortens_error s e
  · exact shortens_none (h_value _ r rfl).1
  · have h_lt := (h_value (some v) r rfl).2 (by simp)
    have h_skip := length_skipWhitespace_le r
    dsimp only
    split_ifs with h_close h_comma
    · exact (h.elements _ _).mono (by omega)
    · have h_tail := length_tail_lt (ne_nil_of_peek h_comma (by decide))
      have h_skip' := length_skipWhitespace_le (skipWhitespace r).tail
      exact (h.elements _ _).mono (by omega)
    · exact shortens_none (by omega)

theorem MovesOn.members_succ (h : MovesOn strtof k) (object : List (Str × Option (Value ν)))
    (s : Str) : Shortens s (Jjson.members strtof (k + 1) object s) := by
  rw [Jjson.members]
  by_cases h_nil : s = []
  · rw [if_pos h_nil]
    exact shortens_none (Nat.le_refl _)
  rw [if_neg h_nil]
  split_ifs
  · exact shortens_lt (length_tail_lt h_nil)
  have h_string := length_obtainString h_nil
  have h_skip := length_skipWhitespace_le (obtainString s).2
  generalize skipWhitespace (obtainString s).2 = t at h_skip
  have h_tail : t.tail.length ≤ t.length := by simp
  dsimp only
  split_ifs
  · exact shortens_none (by omega)
  have h_skip' := length_skipWhitespace_le t.tail
  have h_value := h.value (skipWhitespace t.tail)
  generalize obtainValue strtof k (skipWhitespace t.tail) = res at h_value
  rcases res with e | ⟨v, r⟩
  · exact shortens_error s e
  · have h_le := (h_value _ r rfl).1
    have h_skip'' := length_skipWhitespace_le r
    rcases (obtainString s).1 with _ | key
    · exact shortens_error s _
    dsimp only
    split_ifs with h_close h_comma
    · exact (h.members _ _).mono (by omega)
    · have h_tail' : (skipWhitespace r).tail.length ≤ (skipWhitespace r).length := by simp
      have h_skip₃ := length_skipWhitespace_le (skipWhitespace r).tail
      exact (h.members _ _).mono (by omega)
    · exact (h.members _ _).mono (by omega)

variable (strtof) in
theorem movesOn (k : ℕ) : MovesOn strtof k := by
  induction k with
  | zero => exact .zero
  | succ k ih =>
    constructor
    case value => exact ih.value_succ
    case elements => exact ih.elements_succ
    case members => exact ih.members_succ
    case array =>
      intro s h_start
      rw [obtainArray, if_neg (not_not.mpr h_start)]
      have h_tail := length_tail_lt (ne_nil_of_peek h_start (by decide))
      have h_skip := length_skipWhitespace_le s.tail
      exact (ih.elements _ _).mono (by omega)
    case object =>
      intro s h_start
      rw [obtainObject, if_neg (not_not.mpr h_start)]
      have h_tail := length_tail_lt (ne_nil_of_peek h_start (by decide))
      have h_skip := length_skipWhitespace_le s.tail
      exact (ih.members _ _).mono (by omega)

/-- With enough calls no run is cut off. -/
structure Deep (strtof : Str → ν) (k : ℕ) : Prop where
  value : ∀ s, 3 * s.length + 1 ≤ k → obtainValue strtof k s ≠ .error .depth
  array : ∀ s, s ≠ [] → 3 * s.length ≤ k → obtainArray strtof k s ≠ .error .depth
  elements : ∀ array s, 3 * s.length + 2 ≤ k → elements strtof k array s ≠ .error .depth
  object : ∀ s, s ≠ [] → 3 * s.length ≤ k → obtainObject strtof k s ≠ .error .depth
  members : ∀ object s, 3 * s.length + 2 ≤ k → members strtof k object s ≠ .error .depth

theorem Deep.value_succ (h : Deep strtof k) (s : Str) (hk : 3 * s.length + 1 ≤ k + 1) :
    obtainValue strtof (k + 1) s ≠ .error .depth := by
  rw [obtainValue]
  split_ifs with h₁ h₂ h₃ h_number h_array h_object h_string
  · simp
  · simp
  · simp
  · simp
  · exact h.array s (ne_nil_of_peek h_array (by decide)) (by omega)
  · exact h.object s (ne_nil_of_peek h_object (by decide)) (by omega)
  · simp
  · simp

theorem Deep.elements_succ (h : Deep strtof k) (array : List (Value ν)) (s : Str)
    (hk : 3 * s.length + 2 ≤ k + 1) : Jjson.elements strtof (k + 1) array s ≠ .error .depth := by
  rw [Jjson.elements]
  split_ifs with h_nil
  · simp
  · simp
  have h_value := h.value s (by omega)
  have h_moves := (movesOn strtof k).value s
  generalize obtainValue strtof k s = res at h_value h_moves
  rcases res with e | ⟨_ | v, r⟩
  · exact h_value
  · simp
  · have h_lt := (h_moves (some v) r rfl).2 (by simp)
    have h_skip := length_skipWhitespace_le r
    have h_tail : (skipWhitespace r).tail.length ≤ (skipWhitespace r).length := by simp
    have h_skip' := length_skipWhitespace_le (skipWhitespace r).tail
    dsimp only
    split_ifs
    · exact h.elements _ _ (by omega)
    · exact h.elements _ _ (by omega)
    · simp

theorem Deep.members_succ (h : Deep strtof k) (object : List (Str × Option (Value ν))) (s : Str)
    (hk : 3 * s.length + 2 ≤ k + 1) : Jjson.members strtof (k + 1) object s ≠ .error .depth := by
  rw [Jjson.members]
  split_ifs with h_nil
  · simp
  · simp
  have h_string := length_obtainString h_nil
  have h_skip := length_skipWhitespace_le (obtainString s).2
  generalize skipWhitespace (obtainString s).2 = t at h_skip
  have h_tail : t.tail.length ≤ t.length := by simp
  have h_skip' := length_skipWhitespace_le t.tail
  dsimp only
  split_ifs
  · simp
  have h_value := h.value (skipWhitespace t.tail) (by omega)
  have h_moves := (movesOn strtof k).value (skipWhitespace t.tail)
  generalize obtainValue strtof k (skipWhitespace t.tail) = res at h_value h_moves
  rcases res with e | ⟨v, r⟩
  · exact h_value
  · have h_le := (h_moves _ r rfl).1
    have h_skip'' := length_skipWhitespace_le r
    have h_tail' : (skipWhitespace r).tail.length ≤ (skipWhitespace r).length := by simp
    have h_skip₃ := length_skipWhitespace_le (skipWhitespace r).tail
    rcases (obtainString s).1 with _ | key
    · simp
    dsimp only
    split_ifs
    · exact h.members _ _ (by omega)
    · exact h.members _ _ (by omega)
    · exact h.members _ _ (by omega)

theorem deep (k : ℕ) : Deep strtof k := by
  induction k with
  | zero =>
    constructor
    case value => exact fun s hk => by omega
    case array => exact fun s hs hk => by have := List.length_pos_iff.mpr hs; omega
    case elements => exact fun _ s hk => by omega
    case object => exact fun s hs hk => by have := List.length_pos_iff.mpr hs; omega
    case members => exact fun _ s hk => by omega
  | succ k ih =>
    constructor
    case value => exact ih.value_succ
    case elements => exact ih.elements_succ
    case members => exact ih.members_succ
    case array =>
      intro s hs hk
      have h_tail := length_tail_lt hs
      have h_skip := length_skipWhitespace_le s.tail
      rw [obtainArray]
      split_ifs
      · simp
      · exact ih.elements _ _ (by omega)
    case object =>
      intro s hs hk
      have h_tail := length_tail_lt hs
      have h_skip := length_skipWhitespace_le s.tail
      rw [obtainObject]
      split_ifs
      · simp
      · exact ih.members _ _ (by omega)

/-- **`Parse` ends.** The bound that `parse` puts on the number of calls is never reached. -/
theorem obtainValue_ne_depth (strtof : Str → ν) (s : Str) :
    obtainValue strtof (depthOf s) (skipWhitespace s) ≠ .error .depth := by
  have h_skip := length_skipWhitespace_le s
  exact (deep (depthOf s)).value _ (by unfold depthOf; omega)

end Progress

/-! ### Missing keys -/

section NullKey

variable (strtof : Str → ν)

/-- No run of a string has to do with keys. -/
theorem key_not_mem_stringEvents (s : Str) (a b : Bool) : Event.key a b ∉ stringEvents s := by
  fun_induction stringEvents s <;> grind

theorem codesInRange_of_stringLoop {acc s r key : Str} (h : stringLoop acc s = (some key, r)) :
    codesInRange s = true := by
  fun_induction stringLoop acc s <;> grind [codesInRange]

theorem eq_nil_of_codesInRange {acc s r : Str} (h : stringLoop acc s = (none, r))
    (h_range : codesInRange s = true) : r = [] := by
  fun_induction stringLoop acc s <;> grind [codesInRange]

/-- Where a colon follows, the key was read just if it is readable: a literal that is not closed
leaves nothing behind. -/
theorem obtainString_eq_none_iff {s : Str} (h_colon : peek (skipWhitespace (obtainString s).2) = 0x3a) :
    (obtainString s).1 = none ↔ keyReadable s = false := by
  unfold obtainString keyReadable at *
  by_cases h_quote : peek s = 0x22
  · rw [if_pos h_quote] at h_colon ⊢
    rcases h_loop : stringLoop [] s.tail with ⟨_ | key, r⟩
    · rw [h_loop] at h_colon
      have h_out : codesInRange s.tail ≠ true := by
        intro h_range
        obtain rfl := eq_nil_of_codesInRange h_loop h_range
        exact absurd h_colon (by decide)
      simp [h_out]
    · simp [h_quote, codesInRange_of_stringLoop h_loop]
  · simp [h_quote]

/-- A run that is not cut off goes wrong just if a key is missing in it, in each of the
functions. -/
structure NullKeyIff (k : ℕ) : Prop where
  value : ∀ s, obtainValue strtof k s ≠ .error .depth →
    (obtainValue strtof k s = .error .nullKey ↔ Event.key false true ∈ valueEvents strtof k s)
  array : ∀ s, peek s = 0x5b → obtainArray strtof k s ≠ .error .depth →
    (obtainArray strtof k s = .error .nullKey ↔ Event.key false true ∈ arrayEvents strtof k s)
  elements : ∀ array s, elements strtof k array s ≠ .error .depth →
    (elements strtof k array s = .error .nullKey ↔
      Event.key false true ∈ elementsEvents strtof k s)
  object : ∀ s, peek s = 0x7b → obtainObject strtof k s ≠ .error .depth →
    (obtainObject strtof k s = .error .nullKey ↔ Event.key false true ∈ objectEvents strtof k s)
  members : ∀ object s, members strtof k object s ≠ .error .depth →
    (members strtof k object s = .error .nullKey ↔
      Event.key false true ∈ membersEvents strtof k s)

variable {strtof : Str → ν} {k : ℕ}

theorem NullKeyIff.zero : NullKeyIff strtof 0 := by
  constructor <;> simp [obtainValue, obtainArray, Jjson.elements, obtainObject, Jjson.members]

theorem NullKeyIff.value_succ (h : NullKeyIff strtof k) (s : Str)
    (h_depth : obtainValue strtof (k + 1) s ≠ .error .depth) :
    obtainValue strtof (k + 1) s = .error .nullKey ↔
      Event.key false true ∈ valueEvents strtof (k + 1) s := by
  rw [obtainValue] at h_depth ⊢
  rw [valueEvents]
  by_cases h_array : peek s = 0x5b
  · have h_start : peek s ≠ 0x66 ∧ peek s ≠ 0x6e ∧ peek s ≠ 0x74 ∧
        peek s ∉ str "-0123456789+" := by rw [h_array]; decide
    obtain ⟨h₁, h₂, h₃, h₄⟩ := h_start
    rw [if_neg h₁, if_neg h₂, if_neg h₃, if_neg h₄, if_pos h_array] at h_depth ⊢
    rw [if_pos h_array]
    exact h.array s h_array h_depth
  by_cases h_object : peek s = 0x7b
  · have h_start : peek s ≠ 0x66 ∧ peek s ≠ 0x6e ∧ peek s ≠ 0x74 ∧
        peek s ∉ str "-0123456789+" := by rw [h_object]; decide
    obtain ⟨h₁, h₂, h₃, h₄⟩ := h_start
    rw [if_neg h₁, if_neg h₂, if_neg h₃, if_neg h₄, if_neg h_array, if_pos h_object] at h_depth ⊢
    rw [if_neg h_array, if_pos h_object]
    exact h.object s h_object h_depth
  · have h_events : Event.key false true ∉ (if peek s = 0x22 then stringEvents s.tail else []) := by
      split
      · exact key_not_mem_stringEvents _ _ _
      · simp
    rw [if_neg h_array, if_neg h_object, if_neg h_array, if_neg h_object]
    refine iff_of_false ?_ h_events
    split_ifs <;> simp

theorem NullKeyIff.elements_succ (h : NullKeyIff strtof k) (array : List (Value ν)) (s : Str)
    (h_depth : Jjson.elements strtof (k + 1) array s ≠ .error .depth) :
    Jjson.elements strtof (k + 1) array s = .error .nullKey ↔
      Event.key false true ∈ elementsEvents strtof (k + 1) s := by
  rw [Jjson.elements] at h_depth ⊢
  rw [elementsEvents]
  by_cases h_nil : s = []
  · simp [h_nil]
  by_cases h_close : peek s = 0x5d
  · simp [h_nil, h_close]
  rw [if_neg h_nil, if_neg h_close] at h_depth ⊢
  rw [if_neg h_nil, if_neg h_close, List.mem_append]
  have h_value := h.value s
  rcases h_eq : obtainValue strtof k s with e | ⟨_ | v, r⟩
  · rw [h_eq] at h_depth h_value
    simpa using h_value h_depth
  · rw [h_eq] at h_value
    simpa using h_value
  · rw [h_eq] at h_depth h_value
    have h_none : Event.key false true ∉ valueEvents strtof k s := by simpa using h_value
    simp only [h_none, false_or, List.mem_cons, reduceCtorEq] at h_depth ⊢
    split_ifs at h_depth ⊢
    · exact h.elements _ _ h_depth
    · exact h.elements _ _ h_depth
    · simp

theorem NullKeyIff.members_succ (h : NullKeyIff strtof k)
    (object : List (Str × Option (Value ν))) (s : Str)
    (h_depth : Jjson.members strtof (k + 1) object s ≠ .error .depth) :
    Jjson.members strtof (k + 1) object s = .error .nullKey ↔
      Event.key false true ∈ membersEvents strtof (k + 1) s := by
  rw [Jjson.members] at h_depth ⊢
  rw [membersEvents]
  by_cases h_nil : s = []
  · simp [h_nil]
  by_cases h_close : peek s = 0x7d
  · simp [h_nil, h_close]
  -- there are no names within a name
  have h_string : Event.key false true ∉ (if peek s = 0x22 then stringEvents s.tail else []) := by
    split
    · exact key_not_mem_stringEvents _ _ _
    · simp
  rw [if_neg h_nil, if_neg h_close] at h_depth ⊢
  rw [if_neg h_nil, if_neg h_close]
  simp only [List.mem_append, h_string, false_or, List.mem_cons] at h_depth ⊢
  have h_key_iff := obtainString_eq_none_iff (s := s)
  generalize skipWhitespace (obtainString s).2 = t at h_depth h_key_iff ⊢
  by_cases h_colon : peek t = 0x3a
  · have h_key_iff := h_key_iff h_colon
    rw [if_neg (not_not.mpr h_colon)] at h_depth ⊢
    rw [if_neg (not_not.mpr h_colon), List.mem_append]
    have h_value := h.value (skipWhitespace t.tail)
    rcases h_eq : obtainValue strtof k (skipWhitespace t.tail) with e | ⟨v, r⟩
    · rw [h_eq] at h_depth h_value
      have h_fault : e = .nullKey := by
        cases e with
        | nullKey => rfl
        | depth => simp at h_depth
      subst h_fault
      simpa using Or.inr (h_value h_depth)
    · rw [h_eq] at h_depth h_value
      -- the value was read without a fault, so the event is this member's or a later one's
      have h_none : Event.key false true ∉ valueEvents strtof k (skipWhitespace t.tail) := by
        simpa using h_value
      rcases h_key : (obtainString s).1 with _ | key
      · simp [h_key_iff.mp h_key, h_colon]
      · have h_readable : keyReadable s = true := by simpa [h_key] using h_key_iff
        simp only [h_key, h_none, h_colon, h_readable, false_or, List.mem_cons, reduceCtorEq,
          Event.key.injEq, false_and, if_false, Bool.true_eq_false, Bool.false_eq_true]
          at h_depth ⊢
        -- in either case the loop goes on
        by_cases h_comma : peek (skipWhitespace r) = 0x2c
        · have h_not : peek (skipWhitespace r) ≠ 0x7d := by rw [h_comma]; decide
          rw [if_neg h_not, if_pos h_comma] at h_depth ⊢
          rw [if_pos h_comma]
          exact h.members _ _ h_depth
        · rw [if_neg h_comma, ite_self] at h_depth ⊢
          rw [if_neg h_comma]
          exact h.members _ _ h_depth
  · simp [h_colon]

variable (strtof) in
theorem nullKeyIff (k : ℕ) : NullKeyIff strtof k := by
  induction k with
  | zero => exact .zero
  | succ k ih =>
    constructor
    case value => exact ih.value_succ
    case elements => exact ih.elements_succ
    case members => exact ih.members_succ
    case array =>
      intro s h_start h_depth
      rw [obtainArray, if_neg (not_not.mpr h_start)] at h_depth ⊢
      exact ih.elements _ _ h_depth
    case object =>
      intro s h_start h_depth
      rw [obtainObject, if_neg (not_not.mpr h_start)] at h_depth ⊢
      exact ih.members _ _ h_depth

end NullKey

end GitlstreeFS.Jjson
