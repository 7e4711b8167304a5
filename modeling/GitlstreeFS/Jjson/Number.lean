import GitlstreeFS.Binary32
import GitlstreeFS.Jjson.Written
import GitlstreeFS.Numeral

/-!
# Numbers in JSON texts

`strtof`, and the numbers of RFC 7159 with the values they denote (`IsNumber`). With them the parser
reads texts whose numbers are exact as trees whose numbers are rounded: `parse_printed`. What it cannot
read is an exponent behind a small `e`, which `valid_number` does not have.
-/

namespace GitlstreeFS

/-! ### `strtof` -/

def isDigit (b : UInt8) : Bool :=
  0x30 ≤ b && b ≤ 0x39

/-- The sign at the head of a number. -/
def sign : Str → ℤ
  | 0x2d :: _ => -1
  | _ => 1

/-- What follows the sign. -/
def dropSign : Str → Str
  | 0x2d :: s => s
  | 0x2b :: s => s
  | s => s

/-- The digits behind a point. -/
def fraction : Str → Str
  | 0x2e :: s => s.takeWhile isDigit
  | _ => []

/-- What follows these. -/
def dropFraction : Str → Str
  | 0x2e :: s => s.dropWhile isDigit
  | s => s

/-- The exponent at the head of a text. Without digits there is none. -/
def exponent : Str → ℤ
  | [] => 0
  | c :: s =>
    if (c = 0x45 ∨ c = 0x65) ∧ isDigit ((dropSign s).headD 0) then
      sign s * digitsFrom 10 0 (dropSign s)
    else 0

/-- A number without a sign. Without digits it is zero. -/
def decimal (s : Str) : ℚ :=
  let whole := s.takeWhile isDigit
  let r := s.dropWhile isDigit
  if whole ++ fraction r = [] then 0
  else digitsFrom 10 0 (whole ++ fraction r) * 10 ^ (exponent (dropFraction r) - (fraction r).length)

/-- `strtof(s, nullptr)`, where `s` consists of characters of numbers only: there are no spaces, no `0x`
and no `inf` or `nan`. -/
def strtof (s : Str) : Binary32 :=
  .ofRat (sign s * decimal (dropSign s))

namespace Jjson

open Json

/-! ### Numbers -/

/-- The fraction of a number, with its digits. -/
inductive IsFraction : Str → Str → Prop
  | none : IsFraction [] []
  | some {d : Str} (hd : d ≠ []) : IsFraction (0x2e :: d) d

/-- The exponent of a number, with its value. It stands behind one of the marks. -/
inductive IsExponent (marks : List UInt8) : Str → ℤ → Prop
  | none : IsExponent marks [] 0
  | some {c : UInt8} {plusMinus d : Str} {n : ℕ} (hc : c ∈ marks)
      (h_sign : plusMinus = [] ∨ plusMinus = [0x2b] ∨ plusMinus = [0x2d]) (hd : d ≠ [])
      (h : Numeral 10 d n) : IsExponent marks (c :: (plusMinus ++ d)) (sign plusMinus * n)

/-- A number with its value. Zeros may stand before it. -/
inductive IsNumber (marks : List UInt8) : Str → ℚ → Prop
  | mk {minus whole f d e : Str} {n : ℕ} {k : ℤ} (h_minus : minus = [] ∨ minus = [0x2d])
      (h_whole : whole ≠ []) (hf : IsFraction f d) (h : Numeral 10 (whole ++ d) n)
      (he : IsExponent marks e k) :
      IsNumber marks (minus ++ (whole ++ (f ++ e))) (sign minus * (n * 10 ^ (k - d.length)))

/-- The marks of RFC 7159. -/
def exponentMarks : List UInt8 := str "eE"

/-- The mark that the parser knows. -/
def knownMarks : List UInt8 := str "E"

/-- Texts whose numbers denote exact values, with strings of any bytes that are written raw or as
escapes. -/
def printed (marks : List UInt8) : Lexicon ℚ where
  number := IsNumber marks
  string := Spells

/-! ### Reading them -/

variable {marks : List UInt8} {s d f e r : Str} {b : UInt8} {n : ℕ} {k : ℤ} {q : ℚ}

/-- The digits are those of base ten. -/
theorem isDigit_of_digitValue {v : ℕ} (h : digitValue b = some v) (hv : v < 10) : isDigit b = true := by
  have h_all : ∀ n : Fin 256, (digitValue (UInt8.ofNat n)).any (· < 10) = isDigit (UInt8.ofNat n) := by
    decide +kernel
  have h_b := h_all ⟨b.toNat, b.toNat_lt⟩
  rw [UInt8.ofNat_toNat, h] at h_b
  exact h_b.symm.trans (decide_eq_true hv)

theorem isDigit_of_numeral (h : Numeral 10 s n) : ∀ b ∈ s, isDigit b = true := by
  intro b hb
  obtain ⟨v, hv, h_v⟩ := h.mem hb
  exact isDigit_of_digitValue h_v hv

/-- No digit follows. -/
def EndsDigits (r : Str) : Prop :=
  ∀ b ∈ r.head?, isDigit b = false

theorem takeWhile_digits (h : ∀ b ∈ d, isDigit b = true) (hr : EndsDigits r) :
    (d ++ r).takeWhile isDigit = d ∧ (d ++ r).dropWhile isDigit = r := by
  rw [List.takeWhile_append_of_pos h, List.dropWhile_append_of_pos h]
  cases r with
  | nil => exact ⟨List.append_nil d, rfl⟩
  | cons b r =>
    have h_b : ¬ isDigit b = true := by simp [hr b rfl]
    rw [List.takeWhile_cons_of_neg h_b, List.dropWhile_cons_of_neg h_b]
    exact ⟨List.append_nil d, rfl⟩

/-- A digit is no sign. -/
theorem sign_digits (h_ne : d ≠ []) (h : ∀ b ∈ d, isDigit b = true) (r : Str) :
    sign (d ++ r) = 1 ∧ dropSign (d ++ r) = d ++ r := by
  obtain ⟨b, d, rfl⟩ := List.exists_cons_of_ne_nil h_ne
  have h_b := h b List.mem_cons_self
  rw [List.cons_append]
  unfold sign dropSign
  constructor
  · split
    · simp_all [isDigit]
    · rfl
  · split
    · simp_all [isDigit]
    · simp_all [isDigit]
    · rfl

theorem exponent_eq (h_marks : ∀ c ∈ marks, c ∈ exponentMarks) (h : IsExponent marks e k) :
    exponent e = k ∧ EndsDigits e ∧ fraction e = [] ∧ dropFraction e = e := by
  cases h with
  | none => exact ⟨rfl, fun _ hb => (by cases hb), rfl, rfl⟩
  | @some c plusMinus d n hc h_sign hd h =>
    have h_digits := isDigit_of_numeral h
    obtain ⟨h_sign_d, h_drop_d⟩ := sign_digits hd h_digits []
    rw [List.append_nil] at h_sign_d h_drop_d
    have h_drop : dropSign (plusMinus ++ d) = d := by
      obtain rfl | rfl | rfl := h_sign
      · exact h_drop_d
      · rfl
      · rfl
    have h_value : sign (plusMinus ++ d) = sign plusMinus := by
      obtain rfl | rfl | rfl := h_sign
      · exact h_sign_d
      · rfl
      · rfl
    have h_mark : c = 0x65 ∨ c = 0x45 := by simpa [exponentMarks, str] using h_marks c hc
    have h_head : isDigit (d.headD 0) = true := by
      obtain ⟨b, d, rfl⟩ := List.exists_cons_of_ne_nil hd
      exact h_digits b List.mem_cons_self
    have h_read := h.digitsFrom_append []
    rw [List.append_nil] at h_read
    refine ⟨?_, ?_, ?_⟩
    · rw [exponent, h_drop, if_pos ⟨h_mark.symm, h_head⟩, h_value, h_read]
      rfl
    · rintro b ⟨⟩
      obtain rfl | rfl := h_mark
      · rfl
      · rfl
    · obtain rfl | rfl := h_mark
      · exact ⟨rfl, rfl⟩
      · exact ⟨rfl, rfl⟩

theorem decimal_eq (h_marks : ∀ c ∈ marks, c ∈ exponentMarks) {whole : Str} (h_whole : whole ≠ [])
    (hf : IsFraction f d) (h : Numeral 10 (whole ++ d) n) (he : IsExponent marks e k) :
    decimal (whole ++ (f ++ e)) = n * 10 ^ (k - d.length) := by
  obtain ⟨h_exponent, h_ends, h_fraction, h_drop⟩ := exponent_eq h_marks he
  have h_digits := isDigit_of_numeral h
  have h_whole_digits : ∀ b ∈ whole, isDigit b = true :=
    fun b hb => h_digits b (List.mem_append_left _ hb)
  have h_d_digits : ∀ b ∈ d, isDigit b = true :=
    fun b hb => h_digits b (List.mem_append_right _ hb)
  have h_read := h.digitsFrom_append []
  rw [List.append_nil] at h_read
  -- where the digits of the whole number end
  have h_f : EndsDigits (f ++ e) ∧ fraction (f ++ e) = d ∧ dropFraction (f ++ e) = e := by
    cases hf with
    | none => exact ⟨h_ends, h_fraction, h_drop⟩
    | some hd =>
      obtain ⟨h_take, h_rest⟩ := takeWhile_digits h_d_digits h_ends
      exact ⟨fun b hb => by cases hb; rfl, h_take, h_rest⟩
  obtain ⟨h_take, h_rest⟩ := takeWhile_digits h_whole_digits h_f.1
  have h_ne : whole ++ d ≠ [] := fun h_nil => h_whole (List.append_eq_nil_iff.mp h_nil).1
  rw [decimal, h_take, h_rest, h_f.2.1, h_f.2.2, if_neg h_ne, h_read, h_exponent]
  rfl

/-- **`strtof` reads numbers**, with either mark. -/
theorem strtof_number (h_marks : ∀ c ∈ marks, c ∈ exponentMarks) (h : IsNumber marks s q) :
    strtof s = .ofRat q := by
  obtain ⟨h_minus, h_whole, hf, h, he⟩ := h
  rename_i minus whole f d e n k
  have h_decimal := decimal_eq h_marks h_whole hf h he
  have h_whole_digits : ∀ b ∈ whole, isDigit b = true :=
    fun b hb => isDigit_of_numeral h b (List.mem_append_left _ hb)
  obtain ⟨h_sign, h_drop⟩ := sign_digits h_whole h_whole_digits (f ++ e)
  obtain rfl | rfl := h_minus
  · rw [List.nil_append, strtof, h_sign, h_drop, h_decimal]
    rfl
  · rw [strtof, List.singleton_append, dropSign, h_decimal]
    rfl

/-- The parser takes a number to its end, if there is no small `e` in it. -/
theorem validNumber_of_number (h : IsNumber knownMarks s q) :
    peek s ∈ str "-0123456789+" ∧ ∀ b ∈ s, b ∈ validNumber := by
  -- the digits of `strtof` are those of the parser's table
  have h_digit : ∀ b, isDigit b = true → b ∈ str "0123456789" := by
    have h_all : ∀ n : Fin 256, isDigit (UInt8.ofNat n) = true →
        UInt8.ofNat n ∈ str "0123456789" := by
      decide +kernel
    intro b hb
    have h_b := h_all ⟨b.toNat, b.toNat_lt⟩
    rw [UInt8.ofNat_toNat] at h_b
    exact h_b hb
  have h_start : ∀ b ∈ str "0123456789", b ∈ str "-0123456789+" := by decide +kernel
  have h_valid : ∀ b ∈ str "0123456789", b ∈ validNumber := by decide +kernel
  obtain ⟨h_minus, h_whole, hf, h, he⟩ := h
  rename_i minus whole f d e n k
  have h_digits := fun b hb => h_digit b (isDigit_of_numeral h b hb)
  -- the first character is a minus or a digit
  constructor
  · obtain rfl | rfl := h_minus
    · obtain ⟨b, whole, rfl⟩ := List.exists_cons_of_ne_nil h_whole
      exact h_start b (h_digits b (by simp))
    · exact (by decide : 0x2d ∈ str "-0123456789+")
  · intro b hb
    simp only [List.mem_append] at hb
    obtain hb | hb | hb | hb := hb
    · -- the sign
      obtain rfl | rfl := h_minus
      · cases hb
      · obtain rfl := List.mem_singleton.mp hb
        decide
    · exact h_valid b (h_digits b (List.mem_append_left _ hb))
    · -- the fraction
      cases hf with
      | none => cases hb
      | some hd =>
        obtain rfl | hb := List.mem_cons.mp hb
        · decide
        · exact h_valid b (h_digits b (List.mem_append_right _ hb))
    · -- the exponent
      cases he with
      | none => cases hb
      | some hc h_sign hd h_exponent =>
        obtain rfl | hb := List.mem_cons.mp hb
        · obtain rfl : b = 0x45 := by simpa [knownMarks, str] using hc
          decide
        obtain hb | hb := List.mem_append.mp hb
        · obtain rfl | rfl | rfl := h_sign
          · cases hb
          · obtain rfl := List.mem_singleton.mp hb
            decide
          · obtain rfl := List.mem_singleton.mp hb
            decide
        · exact h_valid b (h_digit b (isDigit_of_numeral h_exponent b hb))

/-- What is printed can be read. -/
theorem embeds_printed : (printed knownMarks).Embeds Binary32.ofRat (readable strtof) where
  number h := ⟨(validNumber_of_number h).1, (validNumber_of_number h).2,
    (strtof_number (by decide +kernel) h).symm⟩
  string h := ⟨isReadable_of_spells h, obtainString_spells h []⟩

/-- **`Parse` undoes printing, and rounds the numbers.** -/
theorem parse_printed {t : Datum ℚ} (h_distinct : t.Distinct) (h : IsText (printed knownMarks) t s) :
    parse strtof s = .ok (some (.ofDatum (t.map Binary32.ofRat))) := by
  obtain ⟨v, h_eq, h_v, -⟩ := reads_isText (reads_readable strtof) (h.map embeds_printed)
  rw [h_eq, h_v (h_distinct.map Binary32.ofRat)]

end Jjson

end GitlstreeFS
