import GitlstreeFS.Jjson.Events

/-!
# Texts of the grammar are read

A text of the grammar is read as its tree, whatever follows it, and nothing improper happens in
the run: `reads_isText`. The lexicon is any whose lexemes the parser reads (`Reads`); the numbers
and strings of `written` are such, which is how printing is undone: `parse_written`.

The induction is on the bound on the number of calls. What carries it is that a text is read up to
its end and not beyond, of which the numbers need that none of their characters follows.
-/

namespace GitlstreeFS.Jjson

open Json

variable {ν : Type}

/-! ### Trees as values -/

mutual

/-- The value of a tree. -/
def Value.ofDatum : Datum ν → Value ν
  | .null => .null
  | .true => .true
  | .false => .false
  | .number x => .number x
  | .string s => .string s
  | .array ts => .array (ofElements ts)
  | .object ms => .object (ofMembers ms)

def ofElements : List (Datum ν) → List (Value ν)
  | [] => []
  | t :: ts => .ofDatum t :: ofElements ts

def ofMembers : List (Str × Datum ν) → List (Str × Option (Value ν))
  | [] => []
  | (key, t) :: ms => (key, some (.ofDatum t)) :: ofMembers ms

end

/-! ### Proper events -/

/-- What the parser took for a JSON text was one there. -/
def Event.Proper : Event → Prop
  | .key _ _ => True
  | .member value next => value = true ∧ (next = .close ∨ next = .comma)
  | .element next => next = .close ∨ next = .comma
  | .unicode closed => closed = true
  | .rest nothing => nothing = true

instance (e : Event) : Decidable e.Proper :=
  match e with
  | .key _ _ => inferInstanceAs (Decidable True)
  | .member _ _ => inferInstanceAs (Decidable (_ ∧ _))
  | .element _ => inferInstanceAs (Decidable (_ ∨ _))
  | .unicode _ => inferInstanceAs (Decidable (_ = _))
  | .rest _ => inferInstanceAs (Decidable (_ = _))

/-- The parser reads the lexemes of `L`, whatever follows them. -/
structure Reads (strtof : Str → ν) (L : Lexicon ν) : Prop where
  number : ∀ {lexeme x}, L.number lexeme x → peek lexeme ∈ str "-0123456789+" ∧
    (∀ b ∈ lexeme, b ∈ validNumber) ∧ x = strtof lexeme
  string : ∀ {raw s}, L.string raw s → ∀ rest,
    obtainString (0x22 :: raw ++ 0x22 :: rest) = (some s, rest) ∧
      ∀ e ∈ stringEvents (raw ++ 0x22 :: rest), e.Proper

/-- None of the characters of a number follows. -/
def Follows (rest : Str) : Prop :=
  ∀ b ∈ rest.head?, b ∉ validNumber

/-- The parser finds a value before `rest`, and nothing improper happens. -/
def Yields (res : Result ν) (events : List Event) (rest : Str) (P : Value ν → Prop) : Prop :=
  ∃ v, res = .ok (some v, rest) ∧ P v ∧ ∀ e ∈ events, e.Proper

/-! ### Steps of the loops -/

section Steps

variable {strtof : Str → ν} {k : ℕ} {s r n : Str}

/-- Behind `r` the loop goes on at `n`, as it should: at the closing bracket, or at what follows a
comma and is not the closing bracket. -/
def Next (closing : UInt8) (r n : Str) : Prop :=
  peek (skipWhitespace r) = closing ∧ n = skipWhitespace r ∨
    peek (skipWhitespace r) = 0x2c ∧ n = skipWhitespace (skipWhitespace r).tail ∧
      peek n ≠ closing

theorem Next.separator {closing : UInt8} (h : Next closing r n) (h_closing : closing ≠ 0x2c) :
    separator closing (skipWhitespace r) = .close ∨
      separator closing (skipWhitespace r) = .comma := by
  unfold Jjson.separator
  rcases h with ⟨h_close, -⟩ | ⟨h_comma, rfl, h_more⟩
  · exact Or.inl (if_pos h_close)
  · right
    rw [h_comma, if_neg h_closing.symm, if_pos rfl, if_neg h_more]

/-- The loops go on at the next place. -/
theorem Next.ite {α : Type} {closing : UInt8} (h : Next closing r n) (h_closing : closing ≠ 0x2c)
    (f : Str → α) (a : α) :
    (if peek (skipWhitespace r) = closing then f (skipWhitespace r)
      else if peek (skipWhitespace r) = 0x2c then f (skipWhitespace (skipWhitespace r).tail)
      else a) = f n := by
  rcases h with ⟨h_close, rfl⟩ | ⟨h_comma, rfl, -⟩
  · rw [if_pos h_close]
  · rw [if_neg (by rw [h_comma]; exact h_closing.symm), if_pos h_comma]

theorem Next.ite_comma {α : Type} {closing : UInt8} (h : Next closing r n)
    (h_closing : closing ≠ 0x2c) (f : Str → α) :
    (if peek (skipWhitespace r) = 0x2c then f (skipWhitespace (skipWhitespace r).tail)
      else f (skipWhitespace r)) = f n := by
  rcases h with ⟨h_close, rfl⟩ | ⟨h_comma, rfl, -⟩
  · rw [if_neg (by rw [h_close]; exact h_closing)]
  · rw [if_pos h_comma]

/-- The loop of `ObtainArray` after an element. -/
theorem elements_next {array : List (Value ν)} {v : Value ν} {rest : Str} {P : Value ν → Prop}
    (h_nil : s ≠ []) (h_start : peek s ≠ 0x5d) (h : obtainValue strtof k s = .ok (some v, r))
    (h_events : ∀ e ∈ valueEvents strtof k s, e.Proper) (h_next : Next 0x5d r n)
    (h_rest : Yields (elements strtof k (array ++ [v]) n) (elementsEvents strtof k n) rest P) :
    Yields (elements strtof (k + 1) array s) (elementsEvents strtof (k + 1) s) rest P := by
  obtain ⟨v', h_eq, h_v, h_proper⟩ := h_rest
  refine ⟨v', ?_, h_v, ?_⟩
  · rw [elements, if_neg h_nil, if_neg h_start, h]
    exact (h_next.ite (by decide) (elements strtof k (array ++ [v])) _).trans h_eq
  · rw [elementsEvents, if_neg h_nil, if_neg h_start, h]
    intro e he
    simp only [List.mem_append, List.mem_cons] at he
    rcases he with he | rfl | he
    · exact h_events e he
    · exact h_next.separator (by decide)
    · rw [h_next.ite (by decide) (elementsEvents strtof k)] at he
      exact h_proper e he

/-- The loop of `ObtainObject` after a member. -/
theorem members_next {object : List (Str × Option (Value ν))} {key t x : Str} {v : Value ν}
    {rest : Str} {P : Value ν → Prop} (h_start : peek s = 0x22)
    (h_key : obtainString s = (some key, t)) (h_key_events : ∀ e ∈ stringEvents s.tail, e.Proper)
    (h_colon : skipWhitespace t = 0x3a :: x)
    (h : obtainValue strtof k (skipWhitespace x) = .ok (some v, r))
    (h_events : ∀ e ∈ valueEvents strtof k (skipWhitespace x), e.Proper) (h_next : Next 0x7d r n)
    (h_rest : Yields (members strtof k (emplace object key (some v)) n)
      (membersEvents strtof k n) rest P) :
    Yields (members strtof (k + 1) object s) (membersEvents strtof (k + 1) s) rest P := by
  have h_nil : s ≠ [] := ne_nil_of_peek h_start (by decide)
  have h_brace : peek s ≠ 0x7d := by rw [h_start]; decide
  have h_peek : peek (0x3a :: x) = 0x3a := rfl
  have h_readable : keyReadable s = true := by
    have h_iff := obtainString_eq_none_iff (s := s) (by rw [h_key, h_colon]; rfl)
    simpa [h_key] using h_iff
  obtain ⟨v', h_eq, h_v, h_proper⟩ := h_rest
  refine ⟨v', ?_, h_v, ?_⟩
  · rw [members, if_neg h_nil, if_neg h_brace, h_key]
    dsimp only
    rw [h_colon, if_neg (not_not.mpr h_peek), List.tail_cons, h]
    exact (h_next.ite (by decide) (members strtof k (emplace object key (some v))) _).trans h_eq
  · rw [membersEvents, if_neg h_nil, if_neg h_brace, if_pos h_start, h_key]
    dsimp only
    rw [h_colon, if_neg (not_not.mpr h_peek), List.tail_cons, h, h_readable]
    intro e he
    simp only [List.mem_append, List.mem_cons] at he
    rcases he with he | rfl | he | rfl | he
    · exact h_key_events e he
    · trivial
    · exact h_events e he
    · exact ⟨rfl, h_next.separator (by decide)⟩
    · rw [if_neg (by simp), h_next.ite_comma (by decide) (membersEvents strtof k)] at he
      exact h_proper e he

end Steps

/-! ### First characters -/

section Heads

variable {strtof : Str → ν} {L : Lexicon ν} {s w x : Str}

/-- The characters that a value begins with. -/
def valueStart : List UInt8 :=
  str "fnt[\x7b\"-0123456789+"

theorem peek_append (h : peek s ≠ 0) (x : Str) : peek (s ++ x) = peek s := by
  cases s with
  | nil => exact absurd rfl h
  | cons b s => rfl

theorem skipWhitespace_token (hw : IsWs w) (hx : ¬ IsSpace (peek x)) :
    skipWhitespace (w ++ x) = x := by
  refine skipWhitespace_append hw fun b hb => ?_
  cases x with
  | nil => simp at hb
  | cons c x =>
    obtain rfl : c = b := by simpa using hb
    exact hx

theorem peek_mem_valueStart (hL : Reads strtof L) {t : Datum ν} (h : IsValue L t s) :
    peek s ∈ valueStart := by
  cases h with
  | number h =>
    have h_sub : ∀ b ∈ str "-0123456789+", b ∈ valueStart := by decide +kernel
    exact h_sub _ (hL.number h).1
  | null | true | false => decide
  | string _ => exact (by decide : 0x22 ∈ valueStart)
  | emptyArray _ | array _ _ => exact (by decide : 0x5b ∈ valueStart)
  | emptyObject _ | object _ _ => exact (by decide : 0x7b ∈ valueStart)

theorem ne_zero_of_start (h : peek s ∈ valueStart) : peek s ≠ 0 := by
  intro h_zero
  rw [h_zero] at h
  exact absurd h (by decide)

/-- No whitespace begins a value, and no bracket closes there. -/
theorem not_isSpace_of_start (h : peek s ∈ valueStart) :
    ¬ IsSpace (peek s) ∧ peek s ≠ 0x5d := by
  have h_all : ∀ b ∈ valueStart, ¬ IsSpace b ∧ b ≠ 0x5d := by decide +kernel
  exact h_all _ h

theorem peek_mem_valueStart_of_isElements (hL : Reads strtof L) {ts : List (Datum ν)}
    (h : IsElements L ts s) : peek s ∈ valueStart := by
  cases h with
  | last h hw =>
    have h_start := peek_mem_valueStart hL h
    rw [List.append_assoc, peek_append (ne_zero_of_start h_start)]
    exact h_start
  | cons h hw hw' hs =>
    have h_start := peek_mem_valueStart hL h
    rw [List.append_assoc, List.append_assoc, peek_append (ne_zero_of_start h_start)]
    exact h_start

theorem peek_of_isMembers {ms : List (Str × Datum ν)} (h : IsMembers L ms s) : peek s = 0x22 := by
  cases h <;> rfl

/-- No number goes on behind whitespace and a character that belongs to none. -/
theorem follows_token {b : UInt8} (hw : IsWs w) (hb : b ∉ validNumber) (x : Str) :
    Follows (w ++ b :: x) := by
  intro c hc
  cases w with
  | nil =>
    obtain rfl : b = c := by simpa using hc
    exact hb
  | cons d w =>
    obtain rfl : d = c := by simpa using hc
    have h_space : IsSpace d := hw d (by simp)
    have h_not : ∀ b ∈ validWhitespace, b ∉ validNumber := by decide +kernel
    exact h_not d (mem_validWhitespace.mpr h_space)

theorem skipWhitespace_colon (hw : IsWs w) (x : Str) : skipWhitespace (w ++ 0x3a :: x) = 0x3a :: x :=
  skipWhitespace_token hw (by rw [show peek (0x3a :: x) = 0x3a from rfl]; decide)

theorem next_close {closing : UInt8} (hw : IsWs w) (h_space : ¬ IsSpace closing) (x : Str) :
    Next closing (w ++ closing :: x) (closing :: x) := by
  have h_skip : skipWhitespace (w ++ closing :: x) = closing :: x := skipWhitespace_token hw h_space
  exact Or.inl ⟨by rw [h_skip]; rfl, h_skip.symm⟩

theorem next_comma {closing : UInt8} (hw : IsWs w) {w' : Str} (hw' : IsWs w')
    (h_space : ¬ IsSpace (peek x)) (h_more : peek x ≠ closing) :
    Next closing (w ++ 0x2c :: (w' ++ x)) x := by
  have h_skip : skipWhitespace (w ++ 0x2c :: (w' ++ x)) = 0x2c :: (w' ++ x) :=
    skipWhitespace_token hw (by rw [show peek (0x2c :: (w' ++ x)) = 0x2c from rfl]; decide)
  refine Or.inr ⟨by rw [h_skip]; rfl, ?_, h_more⟩
  rw [h_skip, List.tail_cons, skipWhitespace_token hw' h_space]

end Heads

/-! ### Reading -/

section Complete

variable (strtof : Str → ν) (L : Lexicon ν)

/-- What follows the opening bracket of an array and the whitespace behind it. -/
def ArrayEnd (ts : List (Datum ν)) (t : Str) : Prop :=
  ts = [] ∧ t = [0x5d] ∨ IsElements L ts t

/-- What follows the opening brace of an object and the whitespace behind it. -/
def ObjectEnd (ms : List (Str × Datum ν)) (t : Str) : Prop :=
  ms = [] ∧ t = [0x7d] ∨ IsMembers L ms t

/-- Each of the functions reads its texts of the grammar, with `k` calls. -/
structure Complete (k : ℕ) : Prop where
  value : ∀ {t s} rest, IsValue L t s → Follows rest → 3 * s.length + 1 ≤ k →
    Yields (obtainValue strtof k (s ++ rest)) (valueEvents strtof k (s ++ rest)) rest
      fun v => t.Distinct → v = .ofDatum t
  array : ∀ {ts w t} rest, IsWs w → ArrayEnd L ts t → 3 * (w ++ t).length + 3 ≤ k →
    Yields (obtainArray strtof k (0x5b :: w ++ t ++ rest))
      (arrayEvents strtof k (0x5b :: w ++ t ++ rest)) rest
      fun v => DistinctElements ts → v = .array (ofElements ts)
  elements : ∀ {ts t} array rest, ArrayEnd L ts t → 3 * t.length + 2 ≤ k →
    Yields (elements strtof k array (t ++ rest)) (elementsEvents strtof k (t ++ rest)) rest
      fun v => DistinctElements ts → v = .array (array ++ ofElements ts)
  object : ∀ {ms w t} rest, IsWs w → ObjectEnd L ms t → 3 * (w ++ t).length + 3 ≤ k →
    Yields (obtainObject strtof k (0x7b :: w ++ t ++ rest))
      (objectEvents strtof k (0x7b :: w ++ t ++ rest)) rest
      fun v => (ms.map Prod.fst).Nodup ∧ DistinctMembers ms → v = .object (ofMembers ms)
  members : ∀ {ms t} object rest, ObjectEnd L ms t → 3 * t.length + 2 ≤ k →
    Yields (members strtof k object (t ++ rest)) (membersEvents strtof k (t ++ rest)) rest
      fun v => (object.map Prod.fst ++ ms.map Prod.fst).Nodup ∧ DistinctMembers ms →
        v = .object (object ++ ofMembers ms)

variable {strtof : Str → ν} {L : Lexicon ν} {k : ℕ}

theorem Yields.mono {res : Result ν} {events : List Event} {rest : Str} {P Q : Value ν → Prop}
    (h : Yields res events rest P) (h_imp : ∀ v, P v → Q v) : Yields res events rest Q := by
  obtain ⟨v, h_eq, h_v, h_proper⟩ := h
  exact ⟨v, h_eq, h_imp v h_v, h_proper⟩

theorem yields_ok {v : Value ν} {events : List Event} {rest : Str} {P : Value ν → Prop} (h : P v)
    (h_proper : ∀ e ∈ events, e.Proper) : Yields (.ok (some v, rest)) events rest P :=
  ⟨v, rfl, h, h_proper⟩

theorem obtainNumber_append {lexeme rest : Str} (h : ∀ b ∈ lexeme, b ∈ validNumber)
    (h_rest : Follows rest) :
    obtainNumber strtof (lexeme ++ rest) = (some (.number (strtof lexeme)), rest) := by
  rw [obtainNumber, consume_append h h_rest]

theorem Complete.value_succ (hL : Reads strtof L) (h : Complete strtof L k) {t : Datum ν} {s : Str}
    (rest : Str) (h_value : IsValue L t s) (h_rest : Follows rest)
    (hk : 3 * s.length + 1 ≤ k + 1) :
    Yields (obtainValue strtof (k + 1) (s ++ rest)) (valueEvents strtof (k + 1) (s ++ rest)) rest
      fun v => t.Distinct → v = .ofDatum t := by
  have h_start := peek_mem_valueStart hL h_value
  have h_peek : peek (s ++ rest) = peek s := peek_append (ne_zero_of_start h_start) rest
  rw [obtainValue, valueEvents, h_peek]
  cases h_value with
  | null => exact yields_ok (fun _ => rfl) (by simp [peek])
  | true => exact yields_ok (fun _ => rfl) (by simp [peek])
  | false => exact yields_ok (fun _ => rfl) (by simp [peek])
  | number h_number =>
    obtain ⟨h_sign, h_valid, rfl⟩ := hL.number h_number
    have h_not : ∀ b ∈ str "-0123456789+", b ≠ 0x66 ∧ b ≠ 0x6e ∧ b ≠ 0x74 ∧ b ≠ 0x5b ∧ b ≠ 0x7b ∧
        b ≠ 0x22 := by decide +kernel
    obtain ⟨h₁, h₂, h₃, h₄, h₅, h₆⟩ := h_not _ h_sign
    rw [if_neg h₁, if_neg h₂, if_neg h₃, if_pos h_sign, if_neg h₄, if_neg h₅, if_neg h₆,
      obtainNumber_append h_valid h_rest]
    exact yields_ok (fun _ => rfl) (by simp)
  | @string raw content h_string =>
    have h_read := hL.string h_string rest
    have h_text : 0x22 :: raw ++ [0x22] ++ rest = 0x22 :: raw ++ 0x22 :: rest := by simp
    rw [h_text, h_read.1]
    exact yields_ok (fun _ => rfl) (by simpa [peek] using h_read.2)
  | emptyArray hw =>
    exact (h.array rest hw (Or.inl ⟨rfl, rfl⟩) (by simp at hk ⊢; omega)).mono
      fun v h_v _ => h_v trivial
  | array hw h_elements =>
    exact (h.array rest hw (Or.inr h_elements) (by simp at hk ⊢; omega)).mono fun v h_v => h_v
  | emptyObject hw =>
    exact (h.object rest hw (Or.inl ⟨rfl, rfl⟩) (by simp at hk ⊢; omega)).mono
      fun v h_v _ => h_v ⟨List.nodup_nil, trivial⟩
  | object hw h_members =>
    exact (h.object rest hw (Or.inr h_members) (by simp at hk ⊢; omega)).mono fun v h_v => h_v

/-- A value before whitespace and a character that belongs to no number. -/
theorem Complete.value_before (hL : Reads strtof L) (h : Complete strtof L k) {t : Datum ν}
    {s w : Str} {b : UInt8} (h_value : IsValue L t s) (hw : IsWs w) (hb : b ∉ validNumber) (x : Str)
    (hk : 3 * s.length + 1 ≤ k) :
    0 < s.length ∧ peek (s ++ (w ++ b :: x)) ∈ valueStart ∧
      Yields (obtainValue strtof k (s ++ (w ++ b :: x)))
        (valueEvents strtof k (s ++ (w ++ b :: x))) (w ++ b :: x)
        fun v => t.Distinct → v = .ofDatum t := by
  have h_start := peek_mem_valueStart hL h_value
  have h_zero := ne_zero_of_start h_start
  refine ⟨List.length_pos_iff.mpr (ne_nil_of_peek rfl h_zero), ?_,
    h.value _ h_value (follows_token hw hb x) hk⟩
  rw [peek_append h_zero]
  exact h_start

theorem Complete.elements_succ (hL : Reads strtof L) (h : Complete strtof L k)
    {ts : List (Datum ν)} {t : Str} (array : List (Value ν)) (rest : Str) (h_end : ArrayEnd L ts t)
    (hk : 3 * t.length + 2 ≤ k + 1) :
    Yields (Jjson.elements strtof (k + 1) array (t ++ rest))
      (elementsEvents strtof (k + 1) (t ++ rest)) rest
      fun v => DistinctElements ts → v = .array (array ++ ofElements ts) := by
  obtain ⟨rfl, rfl⟩ | h_elements := h_end
  · -- the array was empty, or its last element is behind
    have h_close : peek ([0x5d] ++ rest) = 0x5d := rfl
    rw [Jjson.elements, elementsEvents, if_neg (by simp), if_pos h_close, if_neg (by simp),
      if_pos h_close]
    exact yields_ok (fun _ => by rw [ofElements, List.append_nil]) (by simp)
  cases h_elements with
  | @last v tv w h_v hw =>
    -- the last element, with the bracket behind it
    obtain ⟨h_pos, h_start, v', h_eq, h_v', h_proper⟩ :=
      h.value_before hL h_v hw (b := 0x5d) (by decide) rest (by simp at hk; omega)
    have h_text : tv ++ w ++ [0x5d] ++ rest = tv ++ (w ++ 0x5d :: rest) := by simp
    rw [h_text]
    refine elements_next (ne_nil_of_peek rfl (ne_zero_of_start h_start))
      (not_isSpace_of_start h_start).2 h_eq h_proper (next_close hw (by decide) rest) ?_
    refine (h.elements (array ++ [v']) rest (Or.inl ⟨rfl, rfl⟩) (by simp at hk ⊢; omega)).mono ?_
    intro res h_res h_distinct
    rw [h_res trivial, h_v' h_distinct.1, ofElements, ofElements, ofElements, List.append_nil]
  | @cons v tv w w' vs t' h_v hw hw' hs =>
    -- an element with a comma behind it: the rest of the array is shorter
    have h_start' : peek (t' ++ rest) ∈ valueStart := by
      have h_start' := peek_mem_valueStart_of_isElements hL hs
      rwa [peek_append (ne_zero_of_start h_start')]
    obtain ⟨-, h_start, v', h_eq, h_v', h_proper⟩ :=
      h.value_before hL h_v hw (b := 0x2c) (by decide) (w' ++ (t' ++ rest)) (by simp at hk; omega)
    have h_text : tv ++ w ++ 0x2c :: w' ++ t' ++ rest
        = tv ++ (w ++ 0x2c :: (w' ++ (t' ++ rest))) := by simp
    obtain ⟨h_space, h_more⟩ := not_isSpace_of_start h_start'
    rw [h_text]
    refine elements_next (ne_nil_of_peek rfl (ne_zero_of_start h_start))
      (not_isSpace_of_start h_start).2 h_eq h_proper (next_comma hw hw' h_space h_more) ?_
    refine (h.elements (array ++ [v']) rest (Or.inr hs) (by simp at hk; omega)).mono ?_
    intro res h_res h_distinct
    rw [h_res h_distinct.2, h_v' h_distinct.1, ofElements, List.append_assoc]
    rfl

/-- A member that is new is appended. -/
theorem emplace_append {object : List (Str × Option (Value ν))} {key : Str}
    (h : key ∉ object.map Prod.fst) (v : Option (Value ν)) :
    emplace object key v = object ++ [(key, v)] :=
  if_neg h

/-- The members behind one that was read. -/
theorem Yields.emplace {object : List (Str × Option (Value ν))} {key : Str} {t : Datum ν}
    {v : Value ν} {ms : List (Str × Datum ν)} {res : Result ν} {events : List Event} {rest : Str}
    (h_v : t.Distinct → v = .ofDatum t)
    (h : Yields res events rest fun res =>
      ((emplace object key (some v)).map Prod.fst ++ ms.map Prod.fst).Nodup ∧ DistinctMembers ms →
        res = .object (Jjson.emplace object key (some v) ++ ofMembers ms)) :
    Yields res events rest fun res =>
      (object.map Prod.fst ++ ((key, t) :: ms).map Prod.fst).Nodup ∧ DistinctMembers ((key, t) :: ms) →
        res = .object (object ++ ofMembers ((key, t) :: ms)) := by
  refine h.mono fun res h_res ⟨h_nodup, h_distinct⟩ => ?_
  have h_new : key ∉ object.map Prod.fst :=
    fun h_mem => (List.nodup_append.mp h_nodup).2.2 key h_mem key (by simp) rfl
  rw [emplace_append h_new, List.map_append] at h_res
  rw [h_res ⟨by simpa using h_nodup, h_distinct.2⟩, h_v h_distinct.1, ofMembers, List.append_assoc]
  rfl

theorem Complete.members_succ (hL : Reads strtof L) (h : Complete strtof L k)
    {ms : List (Str × Datum ν)} {t : Str} (object : List (Str × Option (Value ν))) (rest : Str)
    (h_end : ObjectEnd L ms t) (hk : 3 * t.length + 2 ≤ k + 1) :
    Yields (Jjson.members strtof (k + 1) object (t ++ rest))
      (membersEvents strtof (k + 1) (t ++ rest)) rest
      fun v => (object.map Prod.fst ++ ms.map Prod.fst).Nodup ∧ DistinctMembers ms →
        v = .object (object ++ ofMembers ms) := by
  obtain ⟨rfl, rfl⟩ | h_members := h_end
  · have h_close : peek ([0x7d] ++ rest) = 0x7d := rfl
    rw [Jjson.members, membersEvents, if_neg (by simp), if_pos h_close, if_neg (by simp),
      if_pos h_close]
    exact yields_ok (fun _ => by rw [ofMembers, List.append_nil]) (by simp)
  cases h_members with
  | @last raw key w₁ w₂ v tv w h_key h₁ h₂ h_v hw =>
    -- the last member, and the brace behind it
    obtain ⟨h_pos, h_start, v', h_eq, h_v', h_proper⟩ :=
      h.value_before hL h_v hw (b := 0x7d) (by decide) rest (by simp at hk; omega)
    have h_read := hL.string h_key (w₁ ++ 0x3a :: (w₂ ++ (tv ++ (w ++ 0x7d :: rest))))
    have h_text : 0x22 :: raw ++ 0x22 :: w₁ ++ 0x3a :: w₂ ++ tv ++ w ++ [0x7d] ++ rest
        = 0x22 :: raw ++ 0x22 :: (w₁ ++ 0x3a :: (w₂ ++ (tv ++ (w ++ 0x7d :: rest)))) := by simp
    have h_skip₂ := skipWhitespace_token h₂ (not_isSpace_of_start h_start).1
    rw [h_text]
    refine members_next rfl h_read.1 h_read.2 (skipWhitespace_colon h₁ _)
      (by rw [h_skip₂]; exact h_eq) (by rw [h_skip₂]; exact h_proper)
      (next_close hw (by decide) rest) (.emplace h_v' ?_)
    exact h.members _ rest (Or.inl ⟨rfl, rfl⟩) (by simp at hk ⊢; omega)
  | @cons raw key w₁ w₂ v tv w w' ms t' h_key h₁ h₂ h_v hw hw' hs =>
    -- a comma and another member
    have h_quote : peek (t' ++ rest) = 0x22 := by
      have h_quote := peek_of_isMembers hs
      rw [peek_append (by rw [h_quote]; decide), h_quote]
    obtain ⟨-, h_start, v', h_eq, h_v', h_proper⟩ :=
      h.value_before hL h_v hw (b := 0x2c) (by decide) (w' ++ (t' ++ rest)) (by simp at hk; omega)
    have h_read := hL.string h_key
      (w₁ ++ 0x3a :: (w₂ ++ (tv ++ (w ++ 0x2c :: (w' ++ (t' ++ rest))))))
    have h_text : 0x22 :: raw ++ 0x22 :: w₁ ++ 0x3a :: w₂ ++ tv ++ w ++ 0x2c :: w' ++ t' ++ rest
        = 0x22 :: raw ++ 0x22 ::
          (w₁ ++ 0x3a :: (w₂ ++ (tv ++ (w ++ 0x2c :: (w' ++ (t' ++ rest)))))) := by simp
    have h_skip₂ := skipWhitespace_token h₂ (not_isSpace_of_start h_start).1
    rw [h_text]
    refine members_next rfl h_read.1 h_read.2 (skipWhitespace_colon h₁ _)
      (by rw [h_skip₂]; exact h_eq) (by rw [h_skip₂]; exact h_proper)
      (next_comma hw hw' (by rw [h_quote]; decide) (by rw [h_quote]; decide)) (.emplace h_v' ?_)
    exact h.members _ rest (Or.inr hs) (by simp at hk; omega)

theorem complete (hL : Reads strtof L) (k : ℕ) : Complete strtof L k := by
  induction k with
  | zero =>
    constructor
    case value => exact fun _ _ _ hk => by omega
    case array => exact fun _ _ _ hk => by omega
    case elements => exact fun _ _ _ hk => by omega
    case object => exact fun _ _ _ hk => by omega
    case members => exact fun _ _ _ hk => by omega
  | succ k ih =>
    constructor
    case value => exact ih.value_succ hL
    case elements => exact ih.elements_succ hL
    case members => exact ih.members_succ hL
    case array =>
      intro ts w t rest hw h_end hk
      -- what follows the whitespace is no whitespace: the bracket or the start of a value
      have h_start : ¬ IsSpace (peek (t ++ rest)) := by
        obtain ⟨-, rfl⟩ | h_elements := h_end
        · exact (by decide : ¬ IsSpace 0x5d)
        · have h_start := peek_mem_valueStart_of_isElements hL h_elements
          rw [peek_append (ne_zero_of_start h_start)]
          exact (not_isSpace_of_start h_start).1
      have h_skip : skipWhitespace (w ++ t ++ rest) = t ++ rest := by
        rw [List.append_assoc]
        exact skipWhitespace_token hw h_start
      have h_bracket : peek (0x5b :: w ++ t ++ rest) = 0x5b := rfl
      rw [obtainArray, arrayEvents, if_neg (not_not.mpr h_bracket)]
      change Yields (Jjson.elements strtof k [] (skipWhitespace (w ++ t ++ rest)))
        (elementsEvents strtof k (skipWhitespace (w ++ t ++ rest))) rest _
      rw [h_skip]
      exact ih.elements [] rest h_end (by simp at hk; omega)
    case object =>
      intro ms w t rest hw h_end hk
      -- here it is the brace or a quote
      have h_start : ¬ IsSpace (peek (t ++ rest)) := by
        obtain ⟨-, rfl⟩ | h_members := h_end
        · exact (by decide : ¬ IsSpace 0x7d)
        · have h_quote := peek_of_isMembers h_members
          rw [peek_append (by rw [h_quote]; decide), h_quote]
          decide
      have h_skip : skipWhitespace (w ++ t ++ rest) = t ++ rest := by
        rw [List.append_assoc]
        exact skipWhitespace_token hw h_start
      have h_brace : peek (0x7b :: w ++ t ++ rest) = 0x7b := rfl
      rw [obtainObject, objectEvents, if_neg (not_not.mpr h_brace)]
      change Yields (Jjson.members strtof k [] (skipWhitespace (w ++ t ++ rest)))
        (membersEvents strtof k (skipWhitespace (w ++ t ++ rest))) rest _
      rw [h_skip]
      exact ih.members [] rest h_end (by simp at hk; omega)

/-- **A text of the grammar is read as its tree**, and nothing improper happens. -/
theorem reads_isText (hL : Reads strtof L) {t : Datum ν} {s : Str} (h : IsText L t s) :
    ∃ v, parse strtof s = .ok (some v) ∧ (t.Distinct → v = .ofDatum t) ∧
      ∀ e ∈ textEvents strtof s, e.Proper := by
  obtain ⟨w, x, w', hw, h_value, hw', rfl⟩ := h
  have h_start : peek (x ++ w') ∈ valueStart := by
    have h_start := peek_mem_valueStart hL h_value
    rwa [peek_append (ne_zero_of_start h_start)]
  have h_skip : skipWhitespace (w ++ x ++ w') = x ++ w' := by
    rw [List.append_assoc]
    exact skipWhitespace_token hw (not_isSpace_of_start h_start).1
  have h_rest : Follows w' := by
    intro b hb
    have h_not : ∀ b ∈ validWhitespace, b ∉ validNumber := by decide +kernel
    exact h_not b (mem_validWhitespace.mpr (hw' b (List.mem_of_mem_head? hb)))
  obtain ⟨v, h_eq, h_v, h_proper⟩ := (complete hL (depthOf (w ++ x ++ w'))).value w' h_value h_rest
    (by simp [depthOf]; omega)
  refine ⟨v, ?_, h_v, ?_⟩
  · rw [parse, parseJsonText, h_skip, h_eq]
  · rw [textEvents, h_skip, h_eq]
    intro e he
    simp only [List.mem_append, List.mem_singleton] at he
    rcases he with he | rfl
    · exact h_proper e he
    · show (skipWhitespace w').isEmpty = true
      rw [skipWhitespace_of_isWs hw']
      rfl

end Complete

/-! ### Lexicons -/

section Lexicons

/-- The contents of a string literal that the parser reads as they are: closed, and with four
characters behind each `\u` that are closed too and stand for one byte. -/
def isReadable : Str → Bool
  | [] => true
  | 0x22 :: _ => false
  | 0x5c :: 0x75 :: h₁ :: h₂ :: h₃ :: h₄ :: s =>
    isClosed [h₁, h₂, h₃, h₄] && (0 ≤ charcode h₁ h₂ h₃ h₄ && charcode h₁ h₂ h₃ h₄ < 256) &&
      isReadable s
  | 0x5c :: 0x75 :: _ => false
  | 0x5c :: _ :: s => isReadable s
  | [0x5c] => false
  | _ :: s => isReadable s

/-- What the parser reads: its own numbers, and strings in which every `\u` is in order. -/
def readable (strtof : Str → ν) : Lexicon ν where
  number lexeme x := peek lexeme ∈ str "-0123456789+" ∧ (∀ b ∈ lexeme, b ∈ validNumber) ∧
    x = strtof lexeme
  string raw s := isReadable raw = true ∧ obtainString (0x22 :: raw ++ [0x22]) = (some s, [])

/-- Decimal numbers, and strings of any bytes that are written raw or as escapes. -/
def written (strtof : Str → ν) : Lexicon ν where
  number lexeme x := IsDecimal lexeme ∧ x = strtof lexeme
  string := Spells

variable {strtof : Str → ν} {L L' : Lexicon ν} {raw s : Str}

theorem Reads.mono (h : Reads strtof L') (h_number : ∀ {lexeme x}, L.number lexeme x →
    L'.number lexeme x) (h_string : ∀ {raw s}, L.string raw s → L'.string raw s) :
    Reads strtof L :=
  ⟨fun h_lexeme => h.number (h_number h_lexeme), fun h_raw => h.string (h_string h_raw)⟩

theorem stringLoop_of_isReadable (h : isReadable raw = true) :
    ∃ s, ∀ acc rest, stringLoop acc (raw ++ 0x22 :: rest) = (some (acc ++ s), rest) := by
  fun_induction isReadable raw with
  | case1 => exact ⟨[], fun acc rest => by rw [List.nil_append, stringLoop, List.append_nil]⟩
  | case2 => simp at h
  | case3 h₁ h₂ h₃ h₄ s ih =>
    simp only [Bool.and_eq_true, decide_eq_true_eq] at h
    obtain ⟨t, ht⟩ := ih h.2
    refine ⟨UInt8.ofNat (charcode h₁ h₂ h₃ h₄).toNat :: t, fun acc rest => ?_⟩
    simp only [List.cons_append]
    rw [stringLoop_hex, if_pos h.1.2, ht, List.append_assoc]
    rfl
  | case4 => simp at h
  | case5 c s _ h_u ih =>
    obtain ⟨t, ht⟩ := ih h
    refine ⟨escaped c ++ t, fun acc rest => ?_⟩
    rw [List.cons_append, List.cons_append, stringLoop_escape acc h_u, ht, List.append_assoc]
  | case6 => simp at h
  | case7 b s h_quote _ _ h_escape h_end ih =>
    have h_backslash : b ≠ 0x5c := by
      rintro rfl
      cases s with
      | nil => exact h_end rfl rfl
      | cons c s => exact h_escape c s rfl rfl
    obtain ⟨t, ht⟩ := ih h
    refine ⟨b :: t, fun acc rest => ?_⟩
    rw [List.cons_append, stringLoop_raw acc h_quote h_backslash, ht, List.append_assoc]
    rfl

theorem stringEvents_raw {b : UInt8} (h_quote : b ≠ 0x22) (h_backslash : b ≠ 0x5c) (s : Str) :
    stringEvents (b :: s) = stringEvents s := by
  rw [stringEvents]
  all_goals simp_all

theorem stringEvents_escape {c : UInt8} (hc : c ≠ 0x75) (s : Str) :
    stringEvents (0x5c :: c :: s) = stringEvents s := by
  rw [stringEvents]
  all_goals simp_all

theorem proper_of_isReadable (h : isReadable raw = true) (rest : Str) :
    ∀ e ∈ stringEvents (raw ++ 0x22 :: rest), e.Proper := by
  fun_induction isReadable raw with
  | case1 => simp [stringEvents]
  | case2 => simp at h
  | case3 h₁ h₂ h₃ h₄ s ih =>
    simp only [Bool.and_eq_true, decide_eq_true_eq] at h
    intro e he
    simp only [List.cons_append] at he
    rw [stringEvents, if_pos h.1.2, List.mem_cons] at he
    rcases he with rfl | he
    · exact h.1.1
    · exact ih h.2 e he
  | case4 => simp at h
  | case5 c s _ h_u ih =>
    rw [List.cons_append, List.cons_append, stringEvents_escape h_u]
    exact ih h
  | case6 => simp at h
  | case7 b s h_quote _ _ h_escape h_end ih =>
    have h_backslash : b ≠ 0x5c := by
      rintro rfl
      cases s with
      | nil => exact h_end rfl rfl
      | cons c s => exact h_escape c s rfl rfl
    rw [List.cons_append, stringEvents_raw h_quote h_backslash]
    exact ih h

theorem reads_readable (strtof : Str → ν) : Reads strtof (readable strtof) where
  number h := h
  string := by
    intro raw s ⟨h_raw, h_eq⟩ rest
    obtain ⟨t, ht⟩ := stringLoop_of_isReadable h_raw
    have h_read (rest : Str) : obtainString (0x22 :: raw ++ 0x22 :: rest) = (some t, rest) := by
      rw [List.cons_append, obtainString, if_pos (by rfl)]
      exact ht [] rest
    obtain rfl : t = s := by simpa using (h_read []).symm.trans h_eq
    exact ⟨h_read rest, proper_of_isReadable h_raw rest⟩

theorem isReadable_raw {b : UInt8} (h_quote : b ≠ 0x22) (h_backslash : b ≠ 0x5c) (s : Str) :
    isReadable (b :: s) = isReadable s := by
  rw [isReadable]
  all_goals simp_all

theorem isReadable_escape {c : UInt8} (hc : c ≠ 0x75) (s : Str) :
    isReadable (0x5c :: c :: s) = isReadable s := by
  rw [isReadable]
  all_goals simp_all

theorem isClosed_of_isHexDigit {h₁ h₂ : UInt8} {n₁ n₂ : ℕ} (hn₁ : IsHexDigit h₁ n₁)
    (hn₂ : IsHexDigit h₂ n₂) : isClosed [0x30, 0x30, h₁, h₂] = true := by
  have h_plain {b : UInt8} {n : ℕ} (h : IsHexDigit b n) : b ≠ 0x22 ∧ b ≠ 0x5c := by
    obtain ⟨h_lt, h_cases⟩ := h
    refine ⟨fun h_eq => ?_, fun h_eq => ?_⟩
    · have h_nat : b.toNat = 0x22 := by rw [h_eq]; rfl
      omega
    · have h_nat : b.toNat = 0x5c := by rw [h_eq]; rfl
      omega
  have h_closed : Closed [0x30, 0x30, h₁, h₂] := by
    rw [closed_raw (by decide) (by decide), closed_raw (by decide) (by decide),
      closed_raw (h_plain hn₁).1 (h_plain hn₁).2, closed_raw (h_plain hn₂).1 (h_plain hn₂).2]
    rfl
  exact h_closed

/-- What spells a string can be read. -/
theorem isReadable_of_spells (h : Spells raw s) : isReadable raw = true := by
  induction h with
  | nil => rfl
  | raw h_quote h_backslash _ ih => rwa [isReadable_raw h_quote h_backslash]
  | short hc _ ih =>
    have h_short : ∀ p ∈ shortEscapes, p.1 ≠ 0x75 := by simp [shortEscapes]
    rwa [isReadable_escape (h_short _ hc)]
  | @hex h₁ h₂ n₁ n₂ b r s hn₁ hn₂ hb _ ih =>
    have h_lt := b.toNat_lt
    have h_code : 0 ≤ charcode 0x30 0x30 h₁ h₂ ∧ charcode 0x30 0x30 h₁ h₂ < 256 := by
      rw [charcode_hex hn₁ hn₂]
      omega
    rw [isReadable, isClosed_of_isHexDigit hn₁ hn₂, ih]
    simp [h_code]

/-- A digit begins a number, and belongs to it. -/
theorem digit_valid {b : UInt8} (hb : 0x30 ≤ b ∧ b ≤ 0x39) :
    b ∈ str "-0123456789+" ∧ b ∈ validNumber := by
  have h_all : ∀ n ∈ List.range 10, UInt8.ofNat (48 + n) ∈ str "-0123456789+" ∧
      UInt8.ofNat (48 + n) ∈ validNumber := by decide
  have h_eq : b = UInt8.ofNat (48 + (b.toNat - 48)) := by
    have h_le := UInt8.le_iff_toNat_le.mp hb.1
    rw [show 48 + (b.toNat - 48) = b.toNat by simp at h_le; omega, UInt8.ofNat_toNat]
  have h_le := UInt8.le_iff_toNat_le.mp hb.2
  rw [h_eq]
  exact h_all _ (List.mem_range.mpr (by simp at h_le; omega))

/-- A decimal number begins as one and consists of the characters of numbers. -/
theorem isDecimal_valid {lexeme : Str} (h : IsDecimal lexeme) :
    peek lexeme ∈ str "-0123456789+" ∧ ∀ b ∈ lexeme, b ∈ validNumber := by
  obtain ⟨sign, whole, fraction, h_sign, h_whole, h_fraction, rfl⟩ := h
  obtain ⟨b, whole, rfl⟩ := List.exists_cons_of_ne_nil h_whole.1
  constructor
  · rcases h_sign with rfl | rfl
    · exact (digit_valid (h_whole.2 b (by simp))).1
    · exact (by decide : 0x2d ∈ str "-0123456789+")
  · intro c hc
    simp only [List.mem_append] at hc
    rcases hc with (hc | hc) | hc
    · rcases h_sign with rfl | rfl
      · simp at hc
      · obtain rfl : c = 0x2d := by simpa using hc
        decide
    · exact (digit_valid (h_whole.2 c hc)).2
    · rcases h_fraction with rfl | ⟨d, h_d, rfl⟩
      · simp at hc
      · rcases List.mem_cons.mp hc with rfl | hc
        · decide
        · exact (digit_valid (h_d.2 c hc)).2

theorem reads_written (strtof : Str → ν) : Reads strtof (written strtof) := by
  refine (reads_readable strtof).mono ?_ ?_
  · exact fun h => ⟨(isDecimal_valid h.1).1, (isDecimal_valid h.1).2, h.2⟩
  · exact fun h => ⟨isReadable_of_spells h, obtainString_spells h []⟩

end Lexicons

/-- **`Parse` undoes printing.** A tree whose objects have distinct names is what `Parse` returns
on every text that writes it, with any whitespace and any of the escapes. -/
theorem parse_written (strtof : Str → ν) {t : Datum ν} {s : Str} (h_distinct : t.Distinct)
    (h : IsText (written strtof) t s) : parse strtof s = .ok (some (.ofDatum t)) := by
  obtain ⟨v, h_eq, h_v, -⟩ := reads_isText (reads_written strtof) h
  rw [h_eq, h_v h_distinct]

/-- `{"k" : [ "\u0041", -1.5 ]}` with a tab behind it. -/
theorem parse_written_sample :
    parse (fun s => s.length) (str "\x7b\"k\" : [ \"\\u0041\", -1.5 ]\x7d\t")
      = .ok (some (.ofDatum (.object [([0x6b], .array [.string [0x41], .number 4])]))) := by
  refine parse_written (fun s => s.length) ⟨by decide, ⟨trivial, trivial, trivial⟩, trivial⟩ ?_
  have h_space : IsWs [0x20] := by decide
  have h_nil : IsWs [] := by decide
  have h_key : Spells [0x6b] [0x6b] := .raw (by decide) (by decide) .nil
  have h_four : IsHexDigit 0x34 4 := by decide
  have h_one : IsHexDigit 0x31 1 := by decide
  have h_string : Spells [0x5c, 0x75, 0x30, 0x30, 0x34, 0x31] [0x41] :=
    .hex h_four h_one (by decide) .nil
  have h_number : IsDecimal [0x2d, 0x31, 0x2e, 0x35] :=
    ⟨[0x2d], [0x31], [0x2e, 0x35], Or.inr rfl, by decide +kernel,
      Or.inr ⟨[0x35], by decide +kernel, rfl⟩, rfl⟩
  have h_array := IsValue.array (L := written fun s => s.length) h_space
    (.cons (.string h_string) h_nil h_space (.last (.number ⟨h_number, rfl⟩) h_space))
  exact ⟨[], _, [0x9], h_nil, .object h_nil (.last h_key h_space h_space h_array h_nil), by decide,
    by decide⟩

end GitlstreeFS.Jjson
