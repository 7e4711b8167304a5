import GitlstreeFS.Jjson.Grammar
import GitlstreeFS.Jjson.Parser
import GitlstreeFS.Numeral
import Mathlib.Data.List.TakeDrop
import Mathlib.Data.List.TakeWhile

/-!
# Lexemes

What the functions of the parser that call no other one do to a text: `skipWhitespace`,
`obtainString`, `obtainNumber` and `assertConsume`. Each has a lemma for a text that begins with
what the function is looking for, and one that says what was there if the function found it.
-/

namespace GitlstreeFS.Jjson

open Json

variable {ν : Type} {s r w x raw : Str} {b : UInt8}

/-! ### Whitespace -/

theorem mem_validWhitespace : b ∈ validWhitespace ↔ IsSpace b := by
  simp [validWhitespace, IsSpace]

theorem skipWhitespace_append (hw : IsWs w) (hx : ∀ b ∈ x.head?, ¬ IsSpace b) :
    skipWhitespace (w ++ x) = x := by
  unfold skipWhitespace
  rw [List.dropWhile_append_of_pos fun b hb => by simpa [mem_validWhitespace] using hw b hb]
  cases x with
  | nil => rfl
  | cons b x =>
    have hb : ¬ IsSpace b := hx b (by simp)
    exact List.dropWhile_cons_of_neg (by simpa [mem_validWhitespace] using hb)

/-- What was skipped is whitespace. -/
theorem exists_skipWhitespace (s : Str) : ∃ w, IsWs w ∧ s = w ++ skipWhitespace s := by
  refine ⟨s.takeWhile (· ∈ validWhitespace), fun b hb => ?_,
    (List.takeWhile_append_dropWhile (p := (· ∈ validWhitespace))).symm⟩
  have h_mem := List.mem_takeWhile_imp hb
  simpa [mem_validWhitespace] using h_mem

theorem length_skipWhitespace_le (s : Str) : (skipWhitespace s).length ≤ s.length := by
  obtain ⟨w, -, h⟩ := exists_skipWhitespace s
  have h_len := congrArg List.length h
  rw [List.length_append] at h_len
  omega

theorem skipWhitespace_of_isWs (hw : IsWs w) : skipWhitespace w = [] := by
  simpa using skipWhitespace_append (x := []) hw (by simp)

theorem isWs_of_skipWhitespace_eq_nil (h : skipWhitespace s = []) : IsWs s := by
  obtain ⟨w, hw, h_eq⟩ := exists_skipWhitespace s
  rw [h, List.append_nil] at h_eq
  exact h_eq ▸ hw

/-! ### Strings -/

theorem stringLoop_raw (acc : Str) (h_quote : b ≠ 0x22) (h_backslash : b ≠ 0x5c) (s : Str) :
    stringLoop acc (b :: s) = stringLoop (acc ++ [b]) s := by
  rw [stringLoop]
  all_goals simp_all

theorem stringLoop_escape (acc : Str) {c : UInt8} (hc : c ≠ 0x75) (s : Str) :
    stringLoop acc (0x5c :: c :: s) = stringLoop (acc ++ escaped c) s := by
  rw [stringLoop]
  all_goals simp_all

theorem stringLoop_hex (acc : Str) (h₁ h₂ h₃ h₄ : UInt8) (s : Str) :
    stringLoop acc (0x5c :: 0x75 :: h₁ :: h₂ :: h₃ :: h₄ :: s)
      = if 0 ≤ charcode h₁ h₂ h₃ h₄ ∧ charcode h₁ h₂ h₃ h₄ < 256 then
        stringLoop (acc ++ [UInt8.ofNat (charcode h₁ h₂ h₃ h₄).toNat]) s
      else (none, s) := by
  rw [stringLoop]

/-- A hexadecimal digit is one for `strtol`. -/
theorem digitValue_of_isHexDigit {n : ℕ} (h : IsHexDigit b n) : digitValue b = some n := by
  obtain ⟨h_lt, h_cases⟩ := h
  unfold digitValue
  simp only [UInt8.le_iff_toNat_le]
  rcases h_cases with ⟨hb, hn⟩ | ⟨hb, hn⟩ | ⟨hb, hn⟩
  · rw [if_pos (by simp; omega)]
    simp; omega
  · rw [if_neg (by simp; omega), if_pos (by simp; omega)]
    simp; omega
  · rw [if_neg (by simp; omega), if_neg (by simp; omega), if_pos (by simp; omega)]
    simp; omega

theorem ne_zero_of_isHexDigit {n : ℕ} (h : IsHexDigit b n) : b ≠ 0 := by
  rintro rfl
  have h_cases := h.2
  simp only [UInt8.toNat_zero] at h_cases
  omega

/-- `strtol` reads the four digits of a `\u` escape. -/
theorem charcode_digits {h₁ h₂ h₃ h₄ : UInt8} {n₁ n₂ n₃ n₄ : ℕ} (hn₁ : IsHexDigit h₁ n₁)
    (hn₂ : IsHexDigit h₂ n₂) (hn₃ : IsHexDigit h₃ n₃) (hn₄ : IsHexDigit h₄ n₄) :
    charcode h₁ h₂ h₃ h₄ = (((n₁ * 16 + n₂) * 16 + n₃) * 16 + n₄ : ℕ) := by
  have h_all : [h₁, h₂, h₃, h₄].takeWhile (· ≠ 0) = [h₁, h₂, h₃, h₄] := by
    simp [ne_zero_of_isHexDigit hn₁, ne_zero_of_isHexDigit hn₂, ne_zero_of_isHexDigit hn₃,
      ne_zero_of_isHexDigit hn₄]
  have h_numeral : Numeral 16 [h₁, h₂, h₃, h₄] ((((0 * 16 + n₁) * 16 + n₂) * 16 + n₃) * 16 + n₄) :=
    (((Numeral.nil.concat (digitValue_of_isHexDigit hn₁) hn₁.1).concat
      (digitValue_of_isHexDigit hn₂) hn₂.1).concat (digitValue_of_isHexDigit hn₃) hn₃.1).concat
        (digitValue_of_isHexDigit hn₄) hn₄.1
  have h_lt : ((((0 * 16 + n₁) * 16 + n₂) * 16 + n₃) * 16 + n₄) < 16 ^ 4 := h_numeral.lt_pow
  rw [charcode, h_all, strtol_self h_numeral (List.cons_ne_nil _ _) (by omega), Nat.zero_mul, Nat.zero_add]

/-- Below 256 there are two zeros. -/
theorem charcode_hex {h₁ h₂ : UInt8} {n₁ n₂ : ℕ} (hn₁ : IsHexDigit h₁ n₁)
    (hn₂ : IsHexDigit h₂ n₂) : charcode 0x30 0x30 h₁ h₂ = n₁ * 16 + n₂ := by
  have h_zero : IsHexDigit 0x30 0 := by decide
  rw [charcode_digits h_zero h_zero hn₁ hn₂]
  simp

/-- The contents of a string literal are read as what they spell. -/
theorem stringLoop_spells (h : Spells raw s) (acc rest : Str) :
    stringLoop acc (raw ++ 0x22 :: rest) = (some (acc ++ s), rest) := by
  induction h generalizing acc with
  | nil => simp [stringLoop]
  | raw h_quote h_backslash h ih =>
    rw [List.cons_append, stringLoop_raw acc h_quote h_backslash, ih]
    simp
  | @short c b r s hc h ih =>
    have h_escaped : c ≠ 0x75 ∧ escaped c = [b] := by
      simp only [shortEscapes, List.mem_cons, Prod.mk.injEq, List.not_mem_nil, or_false] at hc
      rcases hc with ⟨rfl, rfl⟩ | ⟨rfl, rfl⟩ | ⟨rfl, rfl⟩ | ⟨rfl, rfl⟩ | ⟨rfl, rfl⟩ | ⟨rfl, rfl⟩ |
        ⟨rfl, rfl⟩ | ⟨rfl, rfl⟩ <;> decide
    rw [List.cons_append, List.cons_append, stringLoop_escape acc h_escaped.1, h_escaped.2, ih]
    simp
  | @hex h₁ h₂ n₁ n₂ b r s hn₁ hn₂ hb h ih =>
    simp only [List.cons_append]
    have h_lt := b.toNat_lt
    rw [stringLoop_hex, charcode_hex hn₁ hn₂, if_pos (by omega), ih]
    have h_byte : UInt8.ofNat ((n₁ : ℤ) * 16 + n₂).toNat = b := by
      rw [show ((n₁ : ℤ) * 16 + n₂).toNat = b.toNat by omega, UInt8.ofNat_toNat]
    rw [h_byte]
    simp

theorem obtainString_spells (h : Spells raw s) (rest : Str) :
    obtainString (0x22 :: raw ++ 0x22 :: rest) = (some s, rest) := by
  have h_quote : peek (0x22 :: (raw ++ 0x22 :: rest)) = 0x22 := rfl
  rw [List.cons_append, obtainString, if_pos h_quote]
  exact stringLoop_spells h [] rest

/-- The rest is shorter. -/
theorem length_stringLoop_le (acc s : Str) : (stringLoop acc s).2.length ≤ s.length := by
  fun_induction stringLoop acc s <;> grind

theorem length_obtainString (h : s ≠ []) : (obtainString s).2.length < s.length := by
  obtain ⟨b, s, rfl⟩ := List.exists_cons_of_ne_nil h
  unfold obtainString
  split
  · exact Nat.lt_succ_of_le (length_stringLoop_le [] s)
  · exact Nat.lt_succ_self _

/-! ### Numbers and literals -/

theorem consume_append {valid : List UInt8} (hw : ∀ b ∈ w, b ∈ valid)
    (hx : ∀ b ∈ x.head?, b ∉ valid) : consume valid (w ++ x) = (w, x) := by
  unfold consume
  rw [List.span_eq_takeWhile_dropWhile, List.takeWhile_append_of_pos (by simpa using hw),
    List.dropWhile_append_of_pos (by simpa using hw)]
  cases x with
  | nil => simp
  | cons b x =>
    have hb : b ∉ valid := hx b (by simp)
    rw [List.takeWhile_cons_of_neg (by simpa using hb), List.dropWhile_cons_of_neg (by simpa using hb),
      List.append_nil]

/-- What was consumed is valid. -/
theorem consume_eq_append (valid : List UInt8) (s : Str) :
    s = (consume valid s).1 ++ (consume valid s).2 ∧ ∀ b ∈ (consume valid s).1, b ∈ valid := by
  unfold consume
  rw [List.span_eq_takeWhile_dropWhile]
  exact ⟨List.takeWhile_append_dropWhile.symm, fun b hb => by
    simpa using List.mem_takeWhile_imp hb⟩

/-- A literal that was found is there. -/
theorem eq_append_of_assertConsume {v v' : Value ν} {expect : Str}
    (h : assertConsume v expect s = (some v', r)) : s = expect ++ r := by
  induction expect generalizing s with
  | nil => exact (Prod.mk.inj h).2
  | cons c expect ih =>
    cases s with
    | nil => simp [assertConsume] at h
    | cons b s =>
      rw [assertConsume] at h
      split at h
      · next h_eq =>
        rw [ih h, h_eq]
        rfl
      · simp at h

theorem length_assertConsume_le (v : Value ν) (expect s : Str) :
    (assertConsume v expect s).2.length ≤ s.length := by
  induction expect generalizing s with
  | nil => exact Nat.le_refl _
  | cons c expect ih =>
    cases s with
    | nil => exact Nat.le_refl _
    | cons b s =>
      rw [assertConsume]
      split
      · exact Nat.le_succ_of_le (ih s)
      · exact Nat.le_refl _

end GitlstreeFS.Jjson
