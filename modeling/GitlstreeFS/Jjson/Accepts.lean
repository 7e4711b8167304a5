import GitlstreeFS.Jjson.Written

/-!
# Texts that are accepted

Where nothing improper happens in a run that returns a value, the text is one of the grammar:
`isText_of_proper`. The lexicon is the most generous one (`lenient`). Together with the converse of
`Written` this says which texts are rightly accepted: `accepted_text`.

The induction is on the bound on the number of calls again. What a function leaves behind is a
suffix of its text, and what it took from it is the text of the value, or the rest of the array or
object up to its closing bracket.
-/

namespace GitlstreeFS.Jjson

open Json

variable {ν : Type}

/-- Numbers are any characters of numbers, strings are anything that is closed. -/
def lenient : Lexicon ν where
  number lexeme _ := lexeme ≠ [] ∧ ∀ b ∈ lexeme, b ∈ validNumber
  string raw _ := Closed raw

/-! ### Lexemes -/

section Lexemes

variable {strtof : Str → ν} {s r n : Str}

theorem cons_of_peek {b : UInt8} (h : peek s = b) (hb : b ≠ 0) : s = b :: s.tail := by
  obtain ⟨c, s, rfl⟩ := List.exists_cons_of_ne_nil (ne_nil_of_peek h hb)
  rw [← h]
  rfl

/-- A string literal that was read is closed, if its `\u` escapes are. -/
theorem closed_of_stringLoop {acc content : Str} (h : stringLoop acc s = (some content, r))
    (h_proper : ∀ e ∈ stringEvents s, e.Proper) :
    ∃ raw, s = raw ++ 0x22 :: r ∧ Closed raw := by
  fun_induction stringLoop acc s with
  | case1 => simp at h
  | case2 acc s =>
    obtain rfl := (Prod.mk.inj h).2
    exact ⟨[], rfl, rfl⟩
  | case3 acc h₁ h₂ h₃ h₄ s h_range ih =>
    rw [stringEvents, if_pos h_range] at h_proper
    obtain ⟨raw, rfl, h_raw⟩ := ih h fun e he => h_proper e (List.mem_cons_of_mem _ he)
    have h_digits : Closed [h₁, h₂, h₃, h₄] := h_proper _ (List.mem_cons_self ..)
    exact ⟨0x5c :: 0x75 :: ([h₁, h₂, h₃, h₄] ++ raw), rfl,
      (closed_escape _ _).mpr (h_digits.append h_raw)⟩
  | case4 => simp at h
  | case5 => simp at h
  | case6 acc c s _ h_u ih =>
    rw [stringEvents_escape h_u] at h_proper
    obtain ⟨raw, rfl, h_raw⟩ := ih h h_proper
    exact ⟨0x5c :: c :: raw, rfl, (closed_escape c raw).mpr h_raw⟩
  | case7 => simp at h
  | case8 acc b s h_quote _ _ h_escape h_end ih =>
    have h_backslash : b ≠ 0x5c := by
      rintro rfl
      cases s with
      | nil => exact h_end rfl rfl
      | cons c s => exact h_escape c s rfl rfl
    rw [stringEvents_raw h_quote h_backslash] at h_proper
    obtain ⟨raw, rfl, h_raw⟩ := ih h h_proper
    exact ⟨b :: raw, rfl, (closed_raw h_quote h_backslash).mpr h_raw⟩

theorem closed_of_obtainString {content : Str} (h : obtainString s = (some content, r))
    (h_proper : ∀ e ∈ (if peek s = 0x22 then stringEvents s.tail else []), e.Proper) :
    ∃ raw, s = 0x22 :: raw ++ 0x22 :: r ∧ Closed raw := by
  unfold obtainString at h
  by_cases h_quote : peek s = 0x22
  · rw [if_pos h_quote] at h h_proper
    obtain ⟨raw, h_tail, h_raw⟩ := closed_of_stringLoop h h_proper
    refine ⟨raw, ?_, h_raw⟩
    rw [cons_of_peek h_quote (by decide), h_tail]
    rfl
  · rw [if_neg h_quote] at h
    simp at h

variable (strtof) in
theorem lenient_of_obtainNumber (h : peek s ∈ str "-0123456789+") :
    s = (consume validNumber s).1 ++ (consume validNumber s).2 ∧
      IsValue lenient (.number (strtof (consume validNumber s).1)) (consume validNumber s).1 := by
  obtain ⟨h_eq, h_valid⟩ := consume_eq_append validNumber s
  refine ⟨h_eq, .number ⟨fun h_nil => ?_, h_valid⟩⟩
  have h_shorter := shortens_obtainNumber strtof h _ _ rfl
  have h_len := congrArg List.length h_eq
  rw [h_nil] at h_len
  have h_lt := h_shorter.2 (by simp)
  simp at h_len
  omega

/-- A proper separator is where the loop goes on. -/
theorem exists_next {closing : UInt8}
    (h : separator closing (skipWhitespace r) = .close ∨
      separator closing (skipWhitespace r) = .comma) : ∃ n, Next closing r n := by
  unfold separator at h
  by_cases h_close : peek (skipWhitespace r) = closing
  · exact ⟨_, Or.inl ⟨h_close, rfl⟩⟩
  by_cases h_comma : peek (skipWhitespace r) = 0x2c
  · by_cases h_more : peek (skipWhitespace (skipWhitespace r).tail) = closing
    · rw [if_neg h_close, if_pos h_comma, if_pos h_more] at h
      simp at h
    · exact ⟨_, Or.inr ⟨h_comma, rfl, h_more⟩⟩
  · rw [if_neg h_close, if_neg h_comma] at h
    simp at h

/-- What stands before the place where the loop goes on. -/
theorem Next.text {closing : UInt8} (h_closing : closing ≠ 0) (h : Next closing r n) :
    (∃ w, IsWs w ∧ r = w ++ n ∧ n = closing :: n.tail) ∨
      ∃ w w', IsWs w ∧ IsWs w' ∧ r = w ++ 0x2c :: w' ++ n ∧ peek n ≠ closing := by
  obtain ⟨w, hw, h_skip⟩ := exists_skipWhitespace r
  rcases h with ⟨h_close, rfl⟩ | ⟨h_comma, rfl, h_more⟩
  · exact Or.inl ⟨w, hw, h_skip, cons_of_peek h_close h_closing⟩
  · obtain ⟨w', hw', h_skip'⟩ := exists_skipWhitespace (skipWhitespace r).tail
    refine Or.inr ⟨w, w', hw, hw', ?_, h_more⟩
    have h_cons := cons_of_peek h_comma (by decide)
    calc r = w ++ skipWhitespace r := h_skip
      _ = w ++ 0x2c :: (skipWhitespace r).tail := by rw [← h_cons]
      _ = w ++ 0x2c :: w' ++ skipWhitespace (skipWhitespace r).tail := by
        rw [List.append_assoc, List.cons_append, ← h_skip']

end Lexemes

/-! ### Runs -/

section Sound

variable (strtof : Str → ν)

/-- What each of the functions took, with `k` calls, is a text of the grammar. -/
structure Sound (k : ℕ) : Prop where
  value : ∀ {s v r}, obtainValue strtof k s = .ok (some v, r) →
    (∀ e ∈ valueEvents strtof k s, e.Proper) →
    ∃ (t : Datum ν) (x : Str), s = x ++ r ∧ IsValue lenient t x
  array : ∀ {s v r}, peek s = 0x5b → obtainArray strtof k s = .ok (some v, r) →
    (∀ e ∈ arrayEvents strtof k s, e.Proper) →
    ∃ (t : Datum ν) (x : Str), s = x ++ r ∧ IsValue lenient t x
  elements : ∀ {array s v r}, elements strtof k array s = .ok (some v, r) →
    (∀ e ∈ elementsEvents strtof k s, e.Proper) →
    s = 0x5d :: r ∨ peek s ≠ 0x5d ∧ ∃ (ts : List (Datum ν)) (x : Str), s = x ++ r ∧
      IsElements lenient ts x
  object : ∀ {s v r}, peek s = 0x7b → obtainObject strtof k s = .ok (some v, r) →
    (∀ e ∈ objectEvents strtof k s, e.Proper) →
    ∃ (t : Datum ν) (x : Str), s = x ++ r ∧ IsValue lenient t x
  members : ∀ {object s v r}, members strtof k object s = .ok (some v, r) →
    (∀ e ∈ membersEvents strtof k s, e.Proper) →
    s = 0x7d :: r ∨ peek s ≠ 0x7d ∧ ∃ (ms : List (Str × Datum ν)) (x : Str), s = x ++ r ∧
      IsMembers lenient ms x

variable {strtof : Str → ν} {k : ℕ} {s r : Str} {v : Value ν}

theorem Sound.value_succ (h : Sound strtof k) (h_eq : obtainValue strtof (k + 1) s = .ok (some v, r))
    (h_proper : ∀ e ∈ valueEvents strtof (k + 1) s, e.Proper) :
    ∃ (t : Datum ν) (x : Str), s = x ++ r ∧ IsValue lenient t x := by
  rw [obtainValue] at h_eq
  rw [valueEvents] at h_proper
  split_ifs at h_eq with h₁ h₂ h₃ h_number h_array h_object h_string
  · exact ⟨.false, _, eq_append_of_assertConsume (Except.ok.inj h_eq), .false⟩
  · exact ⟨.null, _, eq_append_of_assertConsume (Except.ok.inj h_eq), .null⟩
  · exact ⟨.true, _, eq_append_of_assertConsume (Except.ok.inj h_eq), .true⟩
  · obtain ⟨h_text, h_value⟩ := lenient_of_obtainNumber strtof h_number
    obtain rfl := (Prod.mk.inj (Except.ok.inj h_eq)).2
    exact ⟨_, _, h_text, h_value⟩
  · rw [if_pos h_array] at h_proper
    exact h.array h_array h_eq h_proper
  · rw [if_neg h_array, if_pos h_object] at h_proper
    exact h.object h_object h_eq h_proper
  · rw [if_neg h_array, if_neg h_object] at h_proper
    obtain ⟨h_some, rfl⟩ := Prod.mk.inj (Except.ok.inj h_eq)
    obtain ⟨content, h_content, -⟩ := Option.map_eq_some_iff.mp h_some
    obtain ⟨raw, h_text, h_raw⟩ := closed_of_obtainString (Prod.ext h_content rfl) h_proper
    refine ⟨.string content, 0x22 :: raw ++ [0x22], ?_, .string h_raw⟩
    rw [List.append_assoc]
    exact h_text
  · simp at h_eq

theorem Sound.elements_succ (h : Sound strtof k) {array : List (Value ν)}
    (h_eq : Jjson.elements strtof (k + 1) array s = .ok (some v, r))
    (h_proper : ∀ e ∈ elementsEvents strtof (k + 1) s, e.Proper) :
    s = 0x5d :: r ∨ peek s ≠ 0x5d ∧ ∃ (ts : List (Datum ν)) (x : Str), s = x ++ r ∧
      IsElements lenient ts x := by
  rw [Jjson.elements] at h_eq
  rw [elementsEvents] at h_proper
  by_cases h_nil : s = []
  · simp [h_nil] at h_eq
  by_cases h_close : peek s = 0x5d
  · rw [if_neg h_nil, if_pos h_close] at h_eq
    obtain rfl := (Prod.mk.inj (Except.ok.inj h_eq)).2
    exact Or.inl (cons_of_peek h_close (by decide))
  rw [if_neg h_nil, if_neg h_close] at h_eq h_proper
  refine Or.inr ⟨h_close, ?_⟩
  rcases h_value : obtainValue strtof k s with e | ⟨_ | v', r'⟩
  · simp [h_value] at h_eq
  · simp [h_value] at h_eq
  rw [h_value] at h_eq h_proper
  simp only [List.mem_append, List.mem_cons] at h_proper
  obtain ⟨t, x, rfl, h_t⟩ := h.value h_value fun e he => h_proper e (Or.inl he)
  -- the separator is proper, so the loop goes on at the bracket or behind a comma
  obtain ⟨n, h_next⟩ := exists_next (h_proper _ (Or.inr (Or.inl rfl)))
  have h_rest := h.elements
    ((h_next.ite (by decide) (Jjson.elements strtof k (array ++ [v'])) _).symm.trans h_eq)
    (by
      rw [h_next.ite (by decide) (elementsEvents strtof k)] at h_proper
      exact fun e he => h_proper e (Or.inr (Or.inr he)))
  rcases h_next.text (by decide) with ⟨w, hw, rfl, h_n⟩ | ⟨w, w', hw, hw', rfl, h_more⟩
  · rcases h_rest with rfl | ⟨h_not, -⟩
    · exact ⟨[t], x ++ w ++ [0x5d], by simp, .last h_t hw⟩
    · exact absurd (by rw [h_n]; rfl) h_not
  · rcases h_rest with rfl | ⟨-, ts, x', rfl, h_ts⟩
    · exact absurd rfl h_more
    · exact ⟨t :: ts, x ++ w ++ 0x2c :: w' ++ x', by simp, .cons h_t hw hw' h_ts⟩

theorem Sound.members_succ (h : Sound strtof k) {object : List (Str × Option (Value ν))}
    (h_eq : Jjson.members strtof (k + 1) object s = .ok (some v, r))
    (h_proper : ∀ e ∈ membersEvents strtof (k + 1) s, e.Proper) :
    s = 0x7d :: r ∨ peek s ≠ 0x7d ∧ ∃ (ms : List (Str × Datum ν)) (x : Str), s = x ++ r ∧
      IsMembers lenient ms x := by
  rw [Jjson.members] at h_eq
  rw [membersEvents] at h_proper
  by_cases h_nil : s = []
  · simp [h_nil] at h_eq
  by_cases h_close : peek s = 0x7d
  · rw [if_neg h_nil, if_pos h_close] at h_eq
    obtain rfl := (Prod.mk.inj (Except.ok.inj h_eq)).2
    exact Or.inl (cons_of_peek h_close (by decide))
  rw [if_neg h_nil, if_neg h_close] at h_eq h_proper
  refine Or.inr ⟨h_close, ?_⟩
  have h_key_iff := obtainString_eq_none_iff (s := s)
  obtain ⟨w₁, hw₁, h_skip₁⟩ := exists_skipWhitespace (obtainString s).2
  dsimp only at h_eq h_proper
  generalize skipWhitespace (obtainString s).2 = y at h_eq h_proper h_key_iff h_skip₁
  by_cases h_colon : peek y = 0x3a
  swap
  · simp [h_colon] at h_eq
  rw [if_neg (not_not.mpr h_colon)] at h_eq h_proper
  obtain ⟨w₂, hw₂, h_skip₂⟩ := exists_skipWhitespace y.tail
  rcases h_value : obtainValue strtof k (skipWhitespace y.tail) with e | ⟨v', r'⟩
  · simp [h_value] at h_eq
  rw [h_value] at h_eq h_proper
  rcases h_key : (obtainString s).1 with _ | key
  · simp [h_key] at h_eq
  -- the name could be read, so its event is proper
  have h_readable : keyReadable s = true := by simpa [h_key] using h_key_iff h_colon
  rw [h_key] at h_eq
  simp only [h_readable, List.mem_append, List.mem_cons, Bool.true_eq_false, if_false] at h_proper
  obtain ⟨raw, h_text, h_raw⟩ := closed_of_obtainString (r := (obtainString s).2)
    (Prod.ext h_key rfl) fun e he => h_proper e (Or.inl he)
  obtain ⟨h_some, h_separator⟩ := h_proper _ (Or.inr (Or.inr (Or.inr (Or.inl rfl))))
  obtain ⟨v', rfl⟩ := Option.isSome_iff_exists.mp h_some
  obtain ⟨t, x, h_x, h_t⟩ := h.value h_value
    fun e he => h_proper e (Or.inr (Or.inr (Or.inl he)))
  obtain ⟨n, h_next⟩ := exists_next h_separator
  -- proper events leave a comma or the brace behind the value, so the loop goes on there
  have h_rest := h.members
    ((h_next.ite (by decide) (Jjson.members strtof k (emplace object key (some v'))) _).symm.trans
      h_eq)
    (by
      rw [h_next.ite_comma (by decide) (membersEvents strtof k)] at h_proper
      exact fun e he => h_proper e (Or.inr (Or.inr (Or.inr (Or.inr he)))))
  have h_all : s = 0x22 :: raw ++ 0x22 :: w₁ ++ 0x3a :: w₂ ++ x ++ r' := by
    rw [h_text, h_skip₁, cons_of_peek h_colon (by decide), h_skip₂, h_x]
    simp
  rw [h_all]
  -- the brace ends the list, and behind a comma another member has to follow
  rcases h_next.text (by decide) with ⟨w, hw, rfl, h_n⟩ | ⟨w, w', hw, hw', rfl, h_more⟩
  · rcases h_rest with rfl | ⟨h_not, -⟩
    · exact ⟨[(key, t)], _, by simp, .last h_raw hw₁ hw₂ h_t hw⟩
    · exact absurd (by rw [h_n]; rfl) h_not
  · rcases h_rest with rfl | ⟨-, ms, x', rfl, h_ms⟩
    · exact absurd rfl h_more
    · exact ⟨(key, t) :: ms, _, by simp, .cons h_raw hw₁ hw₂ h_t hw hw' h_ms⟩

theorem sound (k : ℕ) : Sound strtof k := by
  induction k with
  | zero =>
    constructor <;> simp [obtainValue, obtainArray, Jjson.elements, obtainObject, Jjson.members]
  | succ k ih =>
    constructor
    case value => exact ih.value_succ
    case elements => exact ih.elements_succ
    case members => exact ih.members_succ
    case array =>
      intro s v r h_start h_eq h_proper
      rw [obtainArray, if_neg (not_not.mpr h_start)] at h_eq
      obtain ⟨w, hw, h_skip⟩ := exists_skipWhitespace s.tail
      have h_cons := cons_of_peek h_start (by decide)
      rcases ih.elements h_eq h_proper with h_close | ⟨-, ts, x, h_x, h_ts⟩
      · refine ⟨.array [], 0x5b :: w ++ [0x5d], ?_, .emptyArray hw⟩
        rw [h_cons, h_skip, h_close]
        simp
      · refine ⟨.array ts, 0x5b :: w ++ x, ?_, .array hw h_ts⟩
        rw [h_cons, h_skip, h_x]
        simp
    case object =>
      intro s v r h_start h_eq h_proper
      rw [obtainObject, if_neg (not_not.mpr h_start)] at h_eq
      obtain ⟨w, hw, h_skip⟩ := exists_skipWhitespace s.tail
      have h_cons := cons_of_peek h_start (by decide)
      rcases ih.members h_eq h_proper with h_close | ⟨-, ms, x, h_x, h_ms⟩
      · refine ⟨.object [], 0x7b :: w ++ [0x7d], ?_, .emptyObject hw⟩
        rw [h_cons, h_skip, h_close]
        simp
      · refine ⟨.object ms, 0x7b :: w ++ x, ?_, .object hw h_ms⟩
        rw [h_cons, h_skip, h_x]
        simp

/-- **A run without anything improper reads a text of the grammar.** -/
theorem isText_of_proper (h : parse strtof s = .ok (some v))
    (h_proper : ∀ e ∈ textEvents strtof s, e.Proper) : ∃ t : Datum ν, IsText lenient t s := by
  unfold parse parseJsonText at h
  unfold textEvents at h_proper
  rcases h_eq : obtainValue strtof (depthOf s) (skipWhitespace s) with e | ⟨v', r⟩
  · simp [h_eq] at h
  rw [h_eq] at h h_proper
  obtain rfl : v' = some v := by simpa using h
  simp only [List.mem_append, List.mem_singleton] at h_proper
  obtain ⟨t, x, h_x, h_t⟩ := (sound (depthOf s)).value h_eq fun e he => h_proper e (Or.inl he)
  have h_rest : (skipWhitespace r).isEmpty = true := h_proper _ (Or.inr rfl)
  obtain ⟨w, hw, h_skip⟩ := exists_skipWhitespace s
  refine ⟨t, w, x, r, hw, h_t, isWs_of_skipWhitespace_eq_nil (List.isEmpty_iff.mp h_rest), ?_⟩
  rw [List.append_assoc, ← h_x]
  exact h_skip

end Sound

/-- **What is accepted.** A text that `Parse` returns a value for is a JSON text if nothing
improper happens in the run, and nothing improper happens in it if it is a JSON text in which every
`\u` is followed by four characters of the literal that stand for one byte. -/
theorem accepted_text (strtof : Str → ν) {s : Str} {v : Value ν}
    (h : parse strtof s = .ok (some v)) :
    ((∀ e ∈ textEvents strtof s, e.Proper) → ∃ t : Datum ν, IsText lenient t s) ∧
      ∀ t, IsText (readable strtof) t s → ∀ e ∈ textEvents strtof s, e.Proper := by
  refine ⟨isText_of_proper h, fun t h_text => ?_⟩
  obtain ⟨-, -, -, h_proper⟩ := reads_isText (reads_readable strtof) h_text
  exact h_proper

/-- `[1, {"a": "b"}]` is accepted as it should. -/
theorem accepted_text_sample :
    ∃ t : Datum Unit, IsText lenient t (str "[1, \x7b\"a\": \"b\"\x7d]") :=
  (accepted_text (fun _ => ()) (v := .array [.number (), .object [(str "a", some (.string (str "b")))]])
    rfl).1 (by decide +kernel)

/-! ### A text that should not be accepted -/

/-- The characters that a value ends with. -/
def valueEnd : List UInt8 :=
  str "le\"]\x7d" ++ validNumber

theorem isElements_end {ts : List (Datum ν)} {x : Str} (h : IsElements lenient ts x) :
    ∃ y, x = y ++ [0x5d] := by
  induction ts generalizing x with
  | nil => cases h
  | cons t ts ih =>
    cases h with
    | last h hw => exact ⟨_, rfl⟩
    | cons h hw hw' hs =>
      obtain ⟨y, rfl⟩ := ih hs
      exact ⟨_, (List.append_assoc ..).symm⟩

theorem isMembers_end {ms : List (Str × Datum ν)} {x : Str} (h : IsMembers lenient ms x) :
    ∃ y, x = y ++ [0x7d] := by
  induction ms generalizing x with
  | nil => cases h
  | cons m ms ih =>
    cases h with
    | last hk h₁ h₂ h hw => exact ⟨_, rfl⟩
    | cons hk h₁ h₂ h hw hw' hs =>
      obtain ⟨y, rfl⟩ := ih hs
      exact ⟨_, (List.append_assoc ..).symm⟩

theorem isValue_end {t : Datum ν} {x : Str} (h : IsValue lenient t x) :
    ∃ y b, x = y ++ [b] ∧ b ∈ valueEnd := by
  cases h with
  | null => exact ⟨str "nul", 0x6c, by decide, by decide⟩
  | true => exact ⟨str "tru", 0x65, by decide, by decide⟩
  | false => exact ⟨str "fals", 0x65, by decide, by decide⟩
  | number h =>
    refine ⟨_, _, (List.dropLast_append_getLast h.1).symm, ?_⟩
    exact List.mem_append_right _ (h.2 _ (List.getLast_mem h.1))
  | string h => exact ⟨_, _, rfl, by decide⟩
  | emptyArray hw => exact ⟨_, _, rfl, by decide⟩
  | array hw h =>
    obtain ⟨y, rfl⟩ := isElements_end h
    exact ⟨_, _, (List.append_assoc ..).symm, by decide⟩
  | emptyObject hw => exact ⟨_, _, rfl, by decide⟩
  | object hw h =>
    obtain ⟨y, rfl⟩ := isMembers_end h
    exact ⟨_, _, (List.append_assoc ..).symm, by decide⟩

/-- `true x` is accepted: nobody asks what is left behind the value. -/
theorem accepted_trueX :
    parse (fun _ => ()) (str "true x") = .ok (some .true) ∧
      ¬ ∃ t : Datum Unit, IsText lenient t (str "true x") := by
  refine ⟨rfl, ?_⟩
  rintro ⟨t, w, x, w', hw, h_value, hw', h_eq⟩
  obtain ⟨y, b, rfl, hb⟩ := isValue_end h_value
  have h_last : (str "true x").getLast? = some 0x78 := by decide
  rw [h_eq] at h_last
  -- the `x` is whitespace, or the end of a value
  rcases List.eq_nil_or_concat w' with rfl | ⟨w', c, rfl⟩
  · obtain rfl : b = 0x78 := by simpa using h_last
    exact absurd hb (by decide)
  · rw [List.concat_eq_append, ← List.append_assoc, List.getLast?_concat] at h_last
    obtain rfl : c = 0x78 := Option.some.inj h_last
    exact absurd (hw' 0x78 (by simp)) (by decide)

end GitlstreeFS.Jjson
