import GitlstreeFS.Githubfs.Trees

/-!
# Integers in the answers of GitHub

The parser keeps a number as a `float`. An integer that is printed in decimal survives this just if it has no
more than 24 binary digits before its last zeros (`survives_iff`); of those behind, the digits are rounded
off.
-/

namespace GitlstreeFS.Githubfs

open Jjson Json

/-- What `ParseTrees` makes of a number: a `size_t`, and an `int` of this. -/
def toFileSize (x : Binary32) : Except Misuse ℤ := do
  return toInt (← toSize x)

/-- With both accessors, the value is converted to `n`. -/
def Survives (n : ℕ) (value : Value Binary32) : Prop :=
  value.getNumber >>= toFileSize = .ok (n : ℤ) ∧ value.getInt >>= toFileSize = .ok (n : ℤ)

variable {n : ℕ} {s : Str}

/-- The text of an integer. -/
theorem parse_numeral (h : Numeral 10 s n) (h_ne : s ≠ []) :
    parse strtof s = .ok (some (.number (.ofRat n))) := by
  have h_number : IsNumber knownMarks s n := by
    have h_mk : IsNumber knownMarks ([] ++ (s ++ ([] ++ []))) _ :=
      .mk (.inl rfl) h_ne .none (by rwa [List.append_nil]) .none
    simpa [sign] using h_mk
  have h_ws : IsWs [] := by decide
  exact parse_printed (t := .number (n : ℚ)) trivial ⟨[], s, [], h_ws, .number h_number, h_ws, by simp⟩

/-- A number that is a whole one. -/
theorem toFileSize_natCast {k : ℕ} (h : k < 2 ^ 64) : toFileSize (.finite k) = .ok (toInt k) := by
  have h_lt : (k : ℚ) < 0x10000000000000000 := by exact_mod_cast h
  rw [toFileSize, toSize_finite (Nat.cast_nonneg k) h_lt, Int.floor_natCast, Int.toNat_natCast]
  rfl

/-- What a number of 31 bits is rounded to. -/
theorem exists_ofRat_eq (h_n : n < 2 ^ 31) :
    ∃ k : ℕ, Binary32.ofRat n = .finite k ∧ k < 2 ^ 32 ∧ (k = n ↔ Binary32.round (n : ℚ) = n) := by
  obtain ⟨m, e, h_round, -⟩ := Binary32.exists_round_natCast n
  obtain ⟨y, h_eq, -, h_le⟩ := Binary32.exists_ofRat_natCast (n := n) (h_n.trans (by norm_num))
  have h_y : y = Binary32.round n := by
    rw [Binary32.ofRat] at h_eq
    split at h_eq
    · exact (Binary32.finite.inj h_eq).symm
    · cases h_eq
  rw [h_y, h_round] at h_eq h_le
  have h_twice : m * 2 ^ e ≤ 2 * n := by exact_mod_cast h_le
  exact ⟨m * 2 ^ e, h_eq, by omega, by rw [h_round, Nat.cast_inj]⟩

/-- `get_int` of a whole number, which is an `int`. -/
theorem getInt_natCast {k : ℕ} (h : k < 0x80000000) :
    (Value.number (Binary32.finite k)).getInt = .ok (.ofRat k) := by
  have h_truncate : Value.truncate (k : ℚ) = k := by
    rw [Value.truncate, if_pos (Nat.cast_nonneg k), Int.floor_natCast]
  rw [Value.getInt, Value.getNumber, ok_bind]
  dsimp only
  rw [h_truncate, if_pos ⟨by omega, by omega⟩, Int.cast_natCast]

theorem survives_number_iff (h_n : n < 2 ^ 31) :
    Survives n (.number (.ofRat n)) ↔ Binary32.round (n : ℚ) = n := by
  obtain ⟨k, h_eq, h_k, h_iff⟩ := exists_ofRat_eq h_n
  have h_number : (Value.number (Binary32.ofRat n)).getNumber >>= toFileSize = .ok (toInt k) := by
    rw [Value.getNumber, ok_bind, h_eq, toFileSize_natCast (by omega)]
  rw [← h_iff, Survives, h_number]
  constructor
  · rintro ⟨h_int, -⟩
    -- the rounded number has 32 bits, so nothing else becomes `n`
    have h_bmod : (k : ℤ).bmod 0x100000000 = n := Except.ok.inj h_int
    unfold Int.bmod at h_bmod
    dsimp only at h_bmod
    split at h_bmod <;> omega
  · rintro rfl
    have h_int : toInt (k : ℤ) = k := toInt_of_lt h_n
    refine ⟨by rw [h_int], ?_⟩
    rw [h_eq, getInt_natCast h_n, ok_bind, h_eq, toFileSize_natCast (by omega), h_int]

/-- **An integer survives the parser** just if 24 binary digits are enough for it. -/
theorem survives_iff (n : ℕ) (h_n : n < 2 ^ 31) (s : Str) (h : Numeral 10 s n) (h_ne : s ≠ []) :
    ∃ value, parse strtof s = .ok (some value) ∧
      (Survives n value ↔ ∃ m k : ℕ, m < 2 ^ 24 ∧ n = m * 2 ^ k) :=
  ⟨_, parse_numeral h h_ne, (survives_number_iff h_n).trans Binary32.round_natCast_eq_iff⟩

/-- `2^24` is the first number with 25 digits. -/
theorem survives_first : ∃ value, parse strtof (str "16777216") = .ok (some value) ∧
    (Survives 16777216 value ↔ ∃ m k : ℕ, m < 2 ^ 24 ∧ 16777216 = m * 2 ^ k) :=
  survives_iff 16777216 (by decide) (str "16777216") (numeral_digitsFrom (by decide +kernel)) (by decide)

/-- The next one lies between two numbers of the format, of which the lower one is even. -/
theorem ofRat_next : Binary32.ofRat (16777217 : ℕ) = .finite (16777216 : ℕ) := by
  have h_log : Nat.log 2 16777217 = 24 :=
    (Nat.log_eq_iff (.inl (by decide))).mpr ⟨by norm_num, by norm_num⟩
  have h_last : Binary32.lastPlace ((16777217 : ℕ) : ℚ) = 1 := by
    rw [Binary32.lastPlace, abs_of_nonneg (Nat.cast_nonneg _), Int.log_natCast, h_log]
    rfl
  have h_half : ((16777217 : ℕ) : ℚ) / 2 ^ (1 : ℤ) = 8388608 + 1 / 2 := by norm_num
  have h_floor : ⌊(8388608 + 1 / 2 : ℚ)⌋ = 8388608 := by
    rw [Int.floor_eq_iff]
    norm_num
  have h_even : Binary32.halfEven (8388608 + 1 / 2) = 8388608 := by
    rw [Binary32.halfEven, h_floor]
    norm_num
  have h_round : Binary32.round ((16777217 : ℕ) : ℚ) = (16777216 : ℕ) := by
    rw [Binary32.round, h_last, h_half, h_even]
    norm_num
  rw [Binary32.ofRat, h_round]
  exact if_pos (by norm_num)

/-- It is read as the one before. -/
theorem not_survives_next : ∃ value, parse strtof (str "16777217") = .ok (some value)
    ∧ value.getNumber >>= toFileSize = .ok 16777216 ∧ ¬ Survives 16777217 value := by
  have h_numeral : Numeral 10 (str "16777217") 16777217 := numeral_digitsFrom (by decide +kernel)
  have h_read : (Value.number (Binary32.ofRat (16777217 : ℕ))).getNumber >>= toFileSize = .ok 16777216 := by
    rw [Value.getNumber, ok_bind, ofRat_next, toFileSize_natCast (by decide)]
    rfl
  refine ⟨_, parse_numeral h_numeral (by decide), h_read, ?_⟩
  rintro ⟨h_number, -⟩
  rw [h_read] at h_number
  exact absurd (Except.ok.inj h_number) (by decide)

end GitlstreeFS.Githubfs
