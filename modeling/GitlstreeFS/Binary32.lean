import Mathlib.Algebra.Order.Floor.Semifield
import Mathlib.Data.Int.Log
import Mathlib.Data.Rat.Floor
import Mathlib.Tactic.FieldSimp
import Mathlib.Tactic.Linarith
import Mathlib.Tactic.NormNum

/-!
# Single precision numbers

The numbers of the format `binary32`, by their values, and the rounding of a rational number to the
nearest of them, to the even one of two. What the format can represent is not rounded
(`round_eq_self`); the whole numbers up to `2 ^ 24` are such.
-/

/-- A number of the format. The sign of a zero is left out. -/
inductive Binary32 where
  | finite (x : ℚ)
  | infinity (negative : Bool)
  deriving DecidableEq

namespace Binary32

variable {x : ℚ} {m e : ℤ}

/-- The nearest integer, the even one of two. -/
def halfEven (x : ℚ) : ℤ :=
  if x - ⌊x⌋ < 1 / 2 then ⌊x⌋
  else if 1 / 2 < x - ⌊x⌋ then ⌊x⌋ + 1
  else if ⌊x⌋ % 2 = 0 then ⌊x⌋
  else ⌊x⌋ + 1

/-- The exponent of the last place: there are 24 digits, and none behind the place of `2 ^ (-149)`. -/
def lastPlace (x : ℚ) : ℤ :=
  max (Int.log 2 |x| - 23) (-149)

/-- To the nearest number, without a bound on the exponent. -/
def round (x : ℚ) : ℚ :=
  halfEven (x / 2 ^ lastPlace x) * 2 ^ lastPlace x

/-- The conversion to a number of the format. -/
def ofRat (x : ℚ) : Binary32 :=
  if |round x| < 2 ^ (128 : ℤ) then .finite (round x) else .infinity (x < 0)

/-- An integer is not rounded. -/
theorem halfEven_intCast (n : ℤ) : halfEven n = n := by
  rw [halfEven, Int.floor_intCast, sub_self, if_pos (by norm_num)]

/-- Nor is what has only zeros behind the last place. -/
theorem round_of_intCast {n : ℤ} (h : x / 2 ^ lastPlace x = n) : round x = x := by
  have h_pos : (2 : ℚ) ^ lastPlace x ≠ 0 := zpow_ne_zero _ two_ne_zero
  rw [round, h, halfEven_intCast, ← h, div_mul_cancel₀ _ h_pos]

/-- **What the format can represent is not rounded.** -/
theorem round_eq_self (h_m : |m| < 2 ^ 24) (h_e : -149 ≤ e) : round (m * 2 ^ e) = m * 2 ^ e := by
  by_cases h_zero : m = 0
  · exact round_of_intCast (n := 0) (by rw [h_zero]; simp)
  -- the first digit stands at most 23 places before the last
  have h_pos : (0 : ℚ) < 2 ^ e := zpow_pos two_pos e
  have h_abs : |(m : ℚ) * 2 ^ e| = (|m| : ℤ) * 2 ^ e := by
    rw [abs_mul, abs_of_pos h_pos, Int.cast_abs]
  have h_lt : |(m : ℚ) * 2 ^ e| < (2 : ℕ) ^ (24 + e) := by
    have h_cast : ((|m| : ℤ) : ℚ) < 2 ^ (24 : ℤ) := by exact_mod_cast h_m
    rw [h_abs, Nat.cast_ofNat, zpow_add₀ two_ne_zero]
    exact mul_lt_mul_of_pos_right h_cast h_pos
  have h_ne : 0 < |(m : ℚ) * 2 ^ e| :=
    abs_pos.mpr (mul_ne_zero (Int.cast_ne_zero.mpr h_zero) h_pos.ne')
  have h_log := (Int.lt_zpow_iff_log_lt (by decide) h_ne).mp h_lt
  have h_le : lastPlace (m * 2 ^ e) ≤ e := by
    rw [lastPlace]
    omega
  -- so it is a multiple of its last place
  obtain ⟨k, hk⟩ := Int.eq_ofNat_of_zero_le (Int.sub_nonneg_of_le h_le)
  refine round_of_intCast (n := m * 2 ^ k) ?_
  rw [mul_div_assoc, ← zpow_sub₀ two_ne_zero, hk, Int.cast_mul, Int.cast_pow, Int.cast_ofNat]
  exact congrArg _ (zpow_natCast _ k)

/-- A whole number that needs no more than 24 digits is not rounded. -/
theorem round_natCast {n : ℕ} (h : n ≤ 2 ^ 24) : round (n : ℚ) = n := by
  obtain h_lt | rfl := Nat.lt_or_eq_of_le h
  · have h_round := round_eq_self (m := n) (e := 0) (by simpa using h_lt) (by decide)
    simpa using h_round
  · have h_eq : ((2 ^ 24 : ℕ) : ℚ) = (1 : ℤ) * 2 ^ (24 : ℤ) := by norm_num
    rw [h_eq]
    exact round_eq_self (by decide) (by decide)

/-- It is one of the format. -/
theorem ofRat_natCast {n : ℕ} (h : n ≤ 2 ^ 24) : ofRat n = .finite n := by
  have h_lt : |(n : ℚ)| < 2 ^ (128 : ℤ) := by
    have h_cast : (n : ℚ) ≤ 2 ^ 24 := by exact_mod_cast h
    rw [abs_of_nonneg (Nat.cast_nonneg n)]
    exact lt_of_le_of_lt h_cast (by norm_num)
  rw [ofRat, round_natCast h, if_pos h_lt]

theorem halfEven_bounds (x : ℚ) : ⌊x⌋ ≤ halfEven x ∧ halfEven x ≤ ⌊x⌋ + 1 := by
  unfold halfEven
  split_ifs
  · exact ⟨le_refl _, by omega⟩
  · exact ⟨by omega, le_refl _⟩
  · exact ⟨le_refl _, by omega⟩
  · exact ⟨by omega, le_refl _⟩

/-- **A whole number is rounded to a whole number**, and if it is left as it is, it has no more than 24 digits
before its last zeros. -/
theorem exists_round_natCast (n : ℕ) :
    ∃ m k : ℕ, round (n : ℚ) = (m * 2 ^ k : ℕ) ∧ (m * 2 ^ k = n → m < 2 ^ 24) := by
  rcases Nat.lt_or_ge n (2 ^ 24) with h_lt | h_ge
  · exact ⟨n, 0, by rw [round_natCast h_lt.le, pow_zero, mul_one], fun _ => h_lt⟩
  have h_ne : n ≠ 0 := by omega
  have h_log : 24 ≤ Nat.log 2 n := Nat.le_log_of_pow_le (by decide) h_ge
  obtain ⟨k, hk⟩ := Nat.exists_eq_add_of_le (show 23 ≤ Nat.log 2 n by omega)
  have h_last : lastPlace (n : ℚ) = k := by
    rw [lastPlace, abs_of_nonneg (Nat.cast_nonneg n), Int.log_natCast, hk]
    omega
  have h_floor : 0 ≤ ⌊(n : ℚ) / 2 ^ lastPlace (n : ℚ)⌋ :=
    Int.floor_nonneg.mpr (div_nonneg (Nat.cast_nonneg n) (zpow_pos two_pos _).le)
  obtain ⟨m, hm⟩ := Int.eq_ofNat_of_zero_le (h_floor.trans (halfEven_bounds _).1)
  refine ⟨m, k, ?_, fun h_eq => ?_⟩
  · rw [round, hm, h_last, zpow_natCast]
    push_cast
    rfl
  · -- the first digit of the number is that of `m`
    have h_n : m * 2 ^ k < 2 ^ 24 * 2 ^ k := by
      rw [h_eq, ← pow_add]
      refine lt_of_lt_of_le (Nat.lt_pow_succ_log_self (by decide) n) (Nat.pow_le_pow_right (by decide) ?_)
      omega
    exact Nat.lt_of_mul_lt_mul_right h_n

/-- **The whole numbers of the format.** -/
theorem round_natCast_eq_iff {n : ℕ} : round (n : ℚ) = n ↔ ∃ m k : ℕ, m < 2 ^ 24 ∧ n = m * 2 ^ k := by
  constructor
  · intro h
    obtain ⟨m, k, h_round, h_lt⟩ := exists_round_natCast n
    have h_eq : m * 2 ^ k = n := by exact_mod_cast h_round.symm.trans h
    exact ⟨m, k, h_lt h_eq, h_eq.symm⟩
  · rintro ⟨m, k, h_lt, rfl⟩
    have h_round := round_eq_self (m := m) (e := k) (by simpa using h_lt) (by omega)
    rw [zpow_natCast] at h_round
    exact_mod_cast h_round

/-- Rounding makes a whole number at most twice as large. -/
theorem exists_ofRat_natCast {n : ℕ} (h : n < 2 ^ 127) :
    ∃ y : ℚ, ofRat n = .finite y ∧ 0 ≤ y ∧ y ≤ 2 * n := by
  obtain rfl | h_pos := Nat.eq_zero_or_pos n
  · exact ⟨0, by simpa using ofRat_natCast (n := 0) (by decide), le_refl _, by simp⟩
  have h_n : (0 : ℚ) < n := Nat.cast_pos.mpr h_pos
  -- the last place is not before the first digit
  have h_last : (2 : ℚ) ^ lastPlace n ≤ n := by
    have h_log : (0 : ℤ) ≤ Int.log 2 (n : ℚ) := by
      rw [Int.log_natCast]
      exact Int.natCast_nonneg _
    have h_le : lastPlace n ≤ Int.log 2 (n : ℚ) := by
      rw [lastPlace, abs_of_pos h_n]
      omega
    calc (2 : ℚ) ^ lastPlace n ≤ 2 ^ Int.log 2 (n : ℚ) := zpow_le_zpow_right₀ (by norm_num) h_le
      _ ≤ n := by simpa using Int.zpow_log_le_self (b := 2) (by decide) h_n
  have h_unit : (0 : ℚ) < 2 ^ lastPlace n := zpow_pos two_pos _
  obtain ⟨h_ge, h_le⟩ := halfEven_bounds (n / 2 ^ lastPlace (n : ℚ))
  -- the number of units is not negative, and at most one more than the quotient
  have h_round_nonneg : 0 ≤ round n := by
    have h_floor : 0 ≤ ⌊(n : ℚ) / 2 ^ lastPlace (n : ℚ)⌋ := Int.floor_nonneg.mpr (by positivity)
    exact mul_nonneg (by exact_mod_cast h_floor.trans h_ge) h_unit.le
  have h_round_le : round n ≤ 2 * n := by
    have h_cast : (halfEven (n / 2 ^ lastPlace (n : ℚ)) : ℚ) ≤ n / 2 ^ lastPlace (n : ℚ) + 1 := by
      have h_floor := Int.floor_le ((n : ℚ) / 2 ^ lastPlace (n : ℚ))
      have h_le' : (halfEven (n / 2 ^ lastPlace (n : ℚ)) : ℚ)
          ≤ ⌊(n : ℚ) / 2 ^ lastPlace (n : ℚ)⌋ + 1 := by exact_mod_cast h_le
      linarith
    calc round n ≤ (n / 2 ^ lastPlace (n : ℚ) + 1) * 2 ^ lastPlace (n : ℚ) :=
          mul_le_mul_of_nonneg_right h_cast h_unit.le
      _ = n + 2 ^ lastPlace (n : ℚ) := by field_simp
      _ ≤ 2 * n := by linarith
  have h_lt : |round (n : ℚ)| < 2 ^ (128 : ℤ) := by
    have h_cast : (n : ℚ) < 2 ^ 127 := by exact_mod_cast h
    rw [abs_of_nonneg h_round_nonneg]
    have h_bound : (2 : ℚ) ^ (128 : ℤ) = 2 * 2 ^ 127 := by norm_num
    rw [h_bound]
    linarith
  exact ⟨round n, by rw [ofRat, if_pos h_lt], h_round_nonneg, h_round_le⟩

end Binary32
