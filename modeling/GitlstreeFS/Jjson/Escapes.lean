import GitlstreeFS.Jjson.Lexemes
import GitlstreeFS.MixedText

/-!
# Escapes

A character of a string literal is written raw, in UTF-8, or as `\u` with its four digits, and the string
should not depend on which. The parser copies the raw bytes; of an escape it makes the one byte of the
number, and above that it gives up. So the escapes change no string in which they are only for ASCII
characters, and every other one: `readsAlike_iff`.
-/

namespace GitlstreeFS.Jjson

open Json MixedText

/-- The contents of a string literal of the characters. The flag of a character says that it is written as an
escape; the others are those that may be raw. -/
inductive Spelling : List Letter → Str → Prop
  | nil : Spelling [] []
  | raw {c : Char} {l s} (h_control : 0x20 ≤ c.toNat) (h_quote : c.toNat ≠ 0x22)
      (h_backslash : c.toNat ≠ 0x5c) (h : Spelling l s) :
      Spelling ((c, false) :: l) (String.utf8EncodeChar c ++ s)
  | hex {c : Char} {h₁ h₂ h₃ h₄ n₁ n₂ n₃ n₄ l s} (hn₁ : IsHexDigit h₁ n₁) (hn₂ : IsHexDigit h₂ n₂)
      (hn₃ : IsHexDigit h₃ n₃) (hn₄ : IsHexDigit h₄ n₄)
      (hc : c.toNat = ((n₁ * 16 + n₂) * 16 + n₃) * 16 + n₄) (h : Spelling l s) :
      Spelling ((c, true) :: l) (0x5c :: 0x75 :: h₁ :: h₂ :: h₃ :: h₄ :: s)

/-- The literal. -/
def literal (s : Str) : Str :=
  0x22 :: s ++ [0x22]

variable {ν : Type} (strtof : Str → ν)

/-- `Parse` accepts both literals and yields the same string. -/
def ReadsAlike (s s' : Str) : Prop :=
  ∃ value, parse strtof (literal s) = .ok (some (.string value)) ∧
    parse strtof (literal s') = .ok (some (.string value))

/-- The way in which the character is written makes no difference: it is an ASCII character, or it is below
U+0100 or raw, and the same way. -/
def Agree (p q : Letter) : Prop :=
  p.1.toNat < 0x80 ∨ p.2 = q.2 ∧ (p.2 = true → p.1.toNat < 0x100)

instance (p q : Letter) : Decidable (Agree p q) :=
  inferInstanceAs (Decidable (_ ∨ _))

variable {strtof} {c : Char} {l l' : List Letter} {s s' : Str}

/-! ### What the parser reads -/

theorem parse_literal (s : Str) :
    parse strtof (literal s) = .ok ((stringLoop [] (s ++ [0x22])).1.map .string) :=
  rfl

theorem stringLoop_append {u : Str} (h : ∀ b ∈ u, b ≠ 0x22 ∧ b ≠ 0x5c) (acc s : Str) :
    stringLoop acc (u ++ s) = stringLoop (acc ++ u) s := by
  induction u generalizing acc with
  | nil => rw [List.nil_append, List.append_nil]
  | cons b u ih =>
    obtain ⟨⟨h_quote, h_backslash⟩, hu⟩ := List.forall_mem_cons.mp h
    rw [List.cons_append, stringLoop_raw acc h_quote h_backslash, ih hu, List.append_assoc,
      List.singleton_append]

/-- The bytes of a raw character are copied. -/
theorem stringLoop_char (h_quote : c.toNat ≠ 0x22) (h_backslash : c.toNat ≠ 0x5c) (acc s : Str) :
    stringLoop acc (String.utf8EncodeChar c ++ s) = stringLoop (acc ++ String.utf8EncodeChar c) s := by
  refine stringLoop_append (fun b hb => ?_) acc s
  by_cases h_ascii : c.toNat < 0x80
  · rw [utf8EncodeChar_ascii h_ascii, List.mem_singleton] at hb
    subst hb
    have h_toNat : (UInt8.ofNat c.toNat).toNat = c.toNat := toNat_byte (by omega)
    constructor
    · intro h_eq
      rw [h_eq] at h_toNat
      exact h_quote h_toNat.symm
    · intro h_eq
      rw [h_eq] at h_toNat
      exact h_backslash h_toNat.symm
  · have h_le : 0x80 ≤ b.toNat := le_of_mem_utf8EncodeChar (Nat.le_of_not_lt h_ascii) hb
    constructor <;> rintro rfl <;> exact absurd h_le (by decide)

/-- The literal is accepted if the numbers of the escapes are bytes, and then these are in the string. -/
theorem stringLoop_spelling (h : Spelling l s) (h_narrow : Narrow l) (acc : Str) :
    stringLoop acc (s ++ [0x22]) = (some (acc ++ mixed l), []) := by
  induction h generalizing acc with
  | nil => rw [mixed_nil, List.append_nil]; rfl
  | raw h_control h_quote h_backslash h ih =>
    obtain ⟨-, h_narrow⟩ := narrow_cons.mp h_narrow
    rw [List.append_assoc, stringLoop_char h_quote h_backslash, ih h_narrow, mixed_cons, List.append_assoc]
    rfl
  | @hex c h₁ h₂ h₃ h₄ n₁ n₂ n₃ n₄ l s hn₁ hn₂ hn₃ hn₄ hc h ih =>
    obtain ⟨h_lt, h_narrow⟩ := narrow_cons.mp h_narrow
    have h_lt : c.toNat < 0x100 := h_lt rfl
    have h_code : charcode h₁ h₂ h₃ h₄ = (c.toNat : ℕ) := by rw [charcode_digits hn₁ hn₂ hn₃ hn₄, hc]
    change stringLoop acc (0x5c :: 0x75 :: h₁ :: h₂ :: h₃ :: h₄ :: (s ++ [0x22])) = _
    rw [stringLoop_hex, h_code, if_pos (by omega), ih h_narrow, mixed_cons, Int.toNat_natCast,
      List.append_assoc]
    rfl

/-- A higher number is refused. -/
theorem stringLoop_spelling_none (h : Spelling l s) (h_wide : ¬ Narrow l) (acc : Str) :
    (stringLoop acc (s ++ [0x22])).1 = none := by
  induction h generalizing acc with
  | nil => exact absurd (fun p hp => absurd hp List.not_mem_nil) h_wide
  | raw h_control h_quote h_backslash h ih =>
    rw [List.append_assoc, stringLoop_char h_quote h_backslash]
    refine ih (fun h_narrow => h_wide (narrow_cons.mpr ⟨?_, h_narrow⟩)) _
    exact fun h_flag => absurd h_flag Bool.false_ne_true
  | @hex c h₁ h₂ h₃ h₄ n₁ n₂ n₃ n₄ l s hn₁ hn₂ hn₃ hn₄ hc h ih =>
    have h_code : charcode h₁ h₂ h₃ h₄ = (c.toNat : ℕ) := by rw [charcode_digits hn₁ hn₂ hn₃ hn₄, hc]
    change (stringLoop acc (0x5c :: 0x75 :: h₁ :: h₂ :: h₃ :: h₄ :: (s ++ [0x22]))).1 = _
    rw [stringLoop_hex, h_code]
    by_cases h_lt : c.toNat < 0x100
    · rw [if_pos (by omega)]
      exact ih (fun h_narrow => h_wide (narrow_cons.mpr ⟨fun _ => h_lt, h_narrow⟩)) _
    · rw [if_neg (by omega)]

theorem parse_spelling (h : Spelling l s) (h_narrow : Narrow l) :
    parse strtof (literal s) = .ok (some (.string (mixed l))) := by
  rw [parse_literal, stringLoop_spelling h h_narrow]
  rfl

theorem parse_spelling_none (h : Spelling l s) (h_wide : ¬ Narrow l) :
    parse strtof (literal s) = .ok none := by
  rw [parse_literal, stringLoop_spelling_none h h_wide]
  rfl

/-! ### The comparison -/

theorem agree_iff_alike {p q : Letter} (h_char : p.1 = q.1) :
    Agree p q ↔ (p.2 = true → p.1.toNat < 0x100) ∧ (q.2 = true → q.1.toNat < 0x100) ∧ Alike p q := by
  rw [← h_char]
  constructor
  · rintro (h_ascii | ⟨h_flag, h_lt⟩)
    · exact ⟨fun _ => by omega, fun _ => by omega, .inl h_ascii⟩
    · exact ⟨h_lt, fun h => h_lt (h_flag.trans h), .inr h_flag⟩
  · rintro ⟨h_lt, -, h_ascii | h_flag⟩
    · exact .inl h_ascii
    · exact .inr ⟨h_flag, h_lt⟩

/-- The escapes are for bytes, and those for characters that are not ASCII are in both literals. -/
theorem forall₂_agree_iff (h_chars : l.map Prod.fst = l'.map Prod.fst) :
    List.Forall₂ Agree l l' ↔ Narrow l ∧ Narrow l' ∧ List.Forall₂ Alike l l' := by
  induction l generalizing l' with
  | nil =>
    rw [List.map_eq_nil_iff.mp h_chars.symm]
    exact iff_of_true .nil ⟨List.forall_mem_nil _, List.forall_mem_nil _, .nil⟩
  | cons p l ih =>
    cases l' with
    | nil => cases h_chars
    | cons q l' =>
      obtain ⟨h_char, h_tail⟩ := List.cons.inj h_chars
      rw [List.forall₂_cons, List.forall₂_cons, agree_iff_alike h_char, ih h_tail, narrow_cons, narrow_cons]
      constructor
      · rintro ⟨⟨hp, hq, h_alike⟩, hl, hl', h_rest⟩
        exact ⟨⟨hp, hl⟩, ⟨hq, hl'⟩, h_alike, h_rest⟩
      · rintro ⟨⟨hp, hl⟩, ⟨hq, hl'⟩, h_alike, h_rest⟩
        exact ⟨⟨hp, hq, h_alike⟩, hl, hl', h_rest⟩

variable (strtof) in
/-- **The escapes make no difference** to `Parse` if and only if those for characters that are not ASCII are in
both literals, and for characters below U+0100. -/
theorem readsAlike_iff (h : Spelling l s) (h' : Spelling l' s')
    (h_chars : l.map Prod.fst = l'.map Prod.fst) :
    ReadsAlike strtof s s' ↔ List.Forall₂ Agree l l' := by
  rw [forall₂_agree_iff h_chars]
  constructor
  · rintro ⟨value, h_s, h_s'⟩
    have h_narrow : Narrow l := by
      by_contra h_wide
      rw [parse_spelling_none h h_wide] at h_s
      cases h_s
    have h_narrow' : Narrow l' := by
      by_contra h_wide
      rw [parse_spelling_none h' h_wide] at h_s'
      cases h_s'
    rw [parse_spelling h h_narrow] at h_s
    rw [parse_spelling h' h_narrow'] at h_s'
    cases h_s
    have h_eq : mixed l' = mixed l := by
      injection h_s' with h_some
      injection h_some with h_string
      injection h_string
    exact ⟨h_narrow, h_narrow', (mixed_eq_iff h_chars h_narrow h_narrow').mp h_eq.symm⟩
  · rintro ⟨h_narrow, h_narrow', h_alike⟩
    have h_eq := (mixed_eq_iff h_chars h_narrow h_narrow').mpr h_alike
    exact ⟨mixed l, parse_spelling h h_narrow, h_eq ▸ parse_spelling h' h_narrow'⟩

/-- `"\u0075"` and `"u"`. -/
theorem readsAlike_u : ReadsAlike (fun _ => ()) (str "\\u0075") (str "u") := by
  have h_escaped : Spelling [(Char.ofNat 0x75, true)] (str "\\u0075") := by
    have h_zero : IsHexDigit 0x30 0 := by decide
    have h_seven : IsHexDigit 0x37 7 := by decide
    have h_five : IsHexDigit 0x35 5 := by decide
    exact .hex h_zero h_zero h_seven h_five (by decide) .nil
  have h_raw : Spelling [(Char.ofNat 0x75, false)] (str "u") :=
    .raw (by decide) (by decide) (by decide) .nil
  exact (readsAlike_iff (fun _ => ()) h_escaped h_raw rfl).mpr (.cons (by decide) .nil)

/-- `"\u00e9"` is read as the byte `E9`, and the same character in UTF-8 as the two bytes that it has. -/
theorem not_readsAlike_eAcute :
    Spelling [(Char.ofNat 0xe9, true)] (str "\\u00e9") ∧ Spelling [(Char.ofNat 0xe9, false)] [0xc3, 0xa9] ∧
      ¬ ReadsAlike (fun _ => ()) (str "\\u00e9") [0xc3, 0xa9] := by
  refine ⟨?_, .raw (by decide) (by decide) (by decide) .nil, ?_⟩
  · have h_zero : IsHexDigit 0x30 0 := by decide
    have h_e : IsHexDigit 0x65 14 := by decide
    have h_nine : IsHexDigit 0x39 9 := by decide
    exact .hex h_zero h_zero h_e h_nine (by decide) .nil
  · rintro ⟨value, h_escaped, h_raw⟩
    have h_one : parse (fun _ => ()) (literal (str "\\u00e9")) = .ok (some (.string [0xe9])) := rfl
    have h_two : parse (fun _ => ()) (literal [0xc3, 0xa9]) = .ok (some (.string [0xc3, 0xa9])) := rfl
    rw [h_one] at h_escaped
    rw [h_two] at h_raw
    cases h_escaped
    cases h_raw

end GitlstreeFS.Jjson
