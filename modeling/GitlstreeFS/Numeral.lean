import GitlstreeFS.Text
import Mathlib.Algebra.Order.Ring.Int

/-!
# Numerals

A numeral is a list of digits, and `strtol` reads it: `strtol_numeral`. The digits of a base above ten
are letters of either case.
-/

namespace GitlstreeFS

/-- `s` is the number `n`, written in digits of the base. -/
inductive Numeral (base : ℕ) : Str → ℕ → Prop
  | nil : Numeral base [] 0
  | concat {s : Str} {n d : ℕ} {b : UInt8} (h : Numeral base s n) (hb : digitValue b = some d)
      (hd : d < base) : Numeral base (s ++ [b]) (n * base + d)

variable {base n d acc : ℕ} {s rest : Str} {b : UInt8}

theorem digitsFrom_cons (hb : digitValue b = some d) (hd : d < base) (acc : ℕ) (s : Str) :
    digitsFrom base acc (b :: s) = digitsFrom base (acc * base + d) s := by
  rw [digitsFrom, hb]
  exact if_pos hd

/-- A numeral at the head of a text is read. -/
theorem Numeral.digitsFrom_append (h : Numeral base s n) (rest : Str) :
    digitsFrom base 0 (s ++ rest) = digitsFrom base n rest := by
  induction h generalizing rest with
  | nil => rfl
  | concat h hb hd ih => rw [List.append_assoc, ih, List.singleton_append, digitsFrom_cons hb hd]

/-- What follows a numeral: nothing, or a character that is neither a digit nor a letter. -/
def EndsNumeral (rest : Str) : Prop :=
  ∀ b ∈ rest.head?, digitValue b = none

theorem digitsFrom_of_ends (h : EndsNumeral rest) : digitsFrom base n rest = n := by
  cases rest with
  | nil => rfl
  | cons b rest => rw [digitsFrom, h b rfl]

theorem Numeral.mem (h : Numeral base s n) (hb : b ∈ s) : ∃ d < base, digitValue b = some d := by
  induction h with
  | nil => exact absurd hb List.not_mem_nil
  | concat h hb' hd ih =>
    obtain hb | hb := List.mem_append.mp hb
    · exact ih hb
    · obtain rfl := List.mem_singleton.mp hb
      exact ⟨_, hd, hb'⟩

theorem Numeral.lt_pow (h : Numeral base s n) : n < base ^ s.length := by
  induction h with
  | nil => exact Nat.one_pos
  | concat h hb hd ih =>
    rw [List.length_append, List.length_singleton, Nat.pow_succ]
    calc _ < _ * base + base := Nat.add_lt_add_left hd _
      _ = (_ + 1) * base := (Nat.succ_mul _ _).symm
      _ ≤ _ := Nat.mul_le_mul_right _ ih

/-- Digits are a numeral, whose number is the one that is read. -/
theorem numeral_digitsFrom (h : ∀ b ∈ s, ∃ d ∈ digitValue b, d < base) :
    Numeral base s (digitsFrom base 0 s) := by
  induction s using List.reverseRecOn with
  | nil => exact .nil
  | append_singleton s b ih =>
    obtain ⟨d, h_d, hd⟩ := h b (List.mem_append_right _ (List.mem_singleton_self b))
    have h_s := ih fun b hb => h b (List.mem_append_left _ hb)
    rw [h_s.digitsFrom_append, digitsFrom_cons h_d hd]
    exact .concat h_s h_d hd

/-- What a digit or a letter is not. -/
theorem of_digitValue (h : digitValue b = some d) : isSpace b = false ∧ b ≠ 0x2d ∧ b ≠ 0x2b := by
  have h_all : ∀ n : Fin 256, (digitValue (UInt8.ofNat n)).isSome →
      isSpace (UInt8.ofNat n) = false ∧ UInt8.ofNat n ≠ 0x2d ∧ UInt8.ofNat n ≠ 0x2b := by
    decide +kernel
  have h_b := h_all ⟨b.toNat, b.toNat_lt⟩
  rw [UInt8.ofNat_toNat, h] at h_b
  exact h_b rfl

/-- The digits behind spaces are read. -/
theorem numberOf_cons {w : Str} (hw : ∀ b ∈ w, isSpace b = true) (hb : digitValue b = some d) (s : Str) :
    numberOf (w ++ b :: s) base = digitsFrom base 0 (dropHexPrefix base (b :: s)) := by
  obtain ⟨h_space, h_minus, h_plus⟩ := of_digitValue hb
  have h_drop : (w ++ b :: s).dropWhile isSpace = b :: s := by
    rw [List.dropWhile_append_of_pos hw, List.dropWhile_cons_of_neg (by simp [h_space])]
  rw [numberOf, h_drop]
  split
  · simp_all
  · simp_all
  · rfl

theorem dropHexPrefix_of_ne (h : base ≠ 16) (s : Str) : dropHexPrefix base s = s := by
  unfold dropHexPrefix
  split <;> simp [h]

/-- There is no `0x` at the head of a numeral. -/
theorem dropHexPrefix_numeral (h : Numeral base s n) (h_rest : EndsNumeral rest) :
    dropHexPrefix base (s ++ rest) = s ++ rest := by
  by_cases h_base : base = 16
  · subst h_base
    unfold dropHexPrefix
    split
    · rename_i x b t h_eq
      refine Eq.trans (if_neg ?_) h_eq.symm
      rintro ⟨-, hx, -⟩
      have h_x : digitValue x = some 33 := by
        obtain rfl | rfl := hx <;> rfl
      -- the `x` is not a digit, and it does not end a numeral
      match s with
      | [] =>
        rw [List.nil_append] at h_eq
        have h_zero := h_rest 0x30 (by rw [h_eq]; rfl)
        cases h_zero
      | [c] =>
        obtain ⟨-, h_tail⟩ := List.cons.inj h_eq
        have h_none := h_rest x (by change rest = _ at h_tail; rw [h_tail]; rfl)
        rw [h_x] at h_none
        cases h_none
      | c :: c' :: s =>
        obtain ⟨-, h_tail⟩ := List.cons.inj h_eq
        obtain ⟨rfl, -⟩ := List.cons.inj h_tail
        obtain ⟨d, hd, h_d⟩ := h.mem (b := c') (by simp)
        rw [h_x] at h_d
        obtain rfl := Option.some.inj h_d
        exact absurd hd (by decide)
    · rfl
  · exact dropHexPrefix_of_ne h_base _

theorem numberOf_numeral (h : Numeral base s n) (h_ne : s ≠ []) {w : Str}
    (hw : ∀ b ∈ w, isSpace b = true) (h_rest : EndsNumeral rest) :
    numberOf (w ++ s ++ rest) base = n := by
  have h_drop := dropHexPrefix_numeral h h_rest
  have h_digits : digitsFrom base 0 (s ++ rest) = n := by
    rw [h.digitsFrom_append, digitsFrom_of_ends h_rest]
  obtain ⟨b, t, rfl⟩ := List.exists_cons_of_ne_nil h_ne
  obtain ⟨d, -, hb⟩ := h.mem (List.mem_cons_self (a := b))
  rw [List.append_assoc, List.cons_append] at *
  rw [numberOf_cons hw hb, h_drop, h_digits]

/-- A numeral and nothing else. -/
theorem numberOf_self (h : Numeral base s n) (h_ne : s ≠ []) : numberOf s base = n := by
  have h_number : numberOf ([] ++ s ++ []) base = n :=
    numberOf_numeral h h_ne (fun b hb => absurd hb List.not_mem_nil) (fun b hb => by cases hb)
  rwa [List.nil_append, List.append_nil] at h_number

/-- **`strtol` reads numerals** of numbers that a `long` can hold. -/
theorem strtol_numeral (h : Numeral base s n) (h_ne : s ≠ []) (h_lt : n < 0x8000000000000000) {w : Str}
    (hw : ∀ b ∈ w, isSpace b = true) (h_rest : EndsNumeral rest) :
    strtol (w ++ s ++ rest) base = n := by
  have h_number := numberOf_numeral h h_ne hw h_rest
  rw [strtol_eq_numberOf (by omega) (by omega), h_number]

theorem strtol_self (h : Numeral base s n) (h_ne : s ≠ []) (h_lt : n < 0x8000000000000000) :
    strtol s base = n := by
  have h_number := numberOf_self h h_ne
  rw [strtol_eq_numberOf (by omega) (by omega), h_number]

end GitlstreeFS
