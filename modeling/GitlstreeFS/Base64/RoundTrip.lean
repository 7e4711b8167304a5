import GitlstreeFS.Base64.Decoder
import Mathlib.Algebra.Order.Ring.Int

/-!
# Decoding what was encoded

`encode` is the standard encoding: three bytes are four characters, and where one or two bytes are left
`=` fills up the last four. A text that holds the characters of an encoding in their order, and between
them only characters that are to be ignored (`Inserted`), is decoded to the bytes:
`base64decode_encode`.

The values of the four characters of a round, put together, are the number that its three bytes are
(`gather_eq`), so that what `output` takes out of it are these bytes.
-/

namespace GitlstreeFS.Base64

/-! ### Encoding -/

/-- The character of a value. -/
def character (n : ℕ) : UInt8 :=
  alphabet.getD n 0

/-- The equals sign. -/
def pad : UInt8 := 0x3d

/-- The standard base64 encoding. -/
def encode : Str → Str
  | [] => []
  | [a] => [character (a.toNat / 4), character (a.toNat % 4 * 16), pad, pad]
  | [a, b] => [character (a.toNat / 4), character (a.toNat % 4 * 16 + b.toNat / 16),
      character (b.toNat % 16 * 4), pad]
  | a :: b :: c :: s => character (a.toNat / 4) :: character (a.toNat % 4 * 16 + b.toNat / 16) ::
      character (b.toNat % 16 * 4 + c.toNat / 64) :: character (c.toNat % 64) :: encode s

/-- Space, carriage return, line feed, tab and the equals sign. -/
def ignorable : List UInt8 := [0x20, 0x0d, 0x0a, 0x09, pad]

/-- `text` is `s` with characters inserted that are to be ignored. -/
inductive Inserted : Str → Str → Prop
  | nil : Inserted [] []
  | keep (c : UInt8) {s text : Str} (h : Inserted s text) : Inserted (c :: s) (c :: text)
  | insert {c : UInt8} {s text : Str} (hc : c ∈ ignorable) (h : Inserted s text) :
      Inserted s (c :: text)

theorem code_character {n : ℕ} (h : n < 64) :
    code (character n) = some n ∧ ¬ IsHigh (character n) := by
  have h_all : ∀ n : Fin 64, code (character n) = some n.val ∧ ¬ IsHigh (character n) := by
    decide +kernel
  exact h_all ⟨n, h⟩

theorem code_ignorable {c : UInt8} (h : c ∈ ignorable) : code c = none ∧ ¬ IsHigh c := by
  have h_all : ∀ c ∈ ignorable, code c = none ∧ ¬ IsHigh c := by
    decide +kernel
  exact h_all c h

theorem pad_mem_ignorable : pad ∈ ignorable := by
  decide

/-- What is inserted changes nothing. -/
theorem Inserted.codes_eq {s text : Str} (h : Inserted s text) : codes text = codes s := by
  induction h with
  | nil => rfl
  | keep c h ih =>
    cases h_code : code c with
    | none => rw [codes_cons_none h_code, codes_cons_none h_code, ih]
    | some t => rw [codes_cons_some h_code, codes_cons_some h_code, ih]
  | insert hc h ih => rw [codes_cons_none (code_ignorable hc).1, ih]

theorem Inserted.inRange {s text : Str} (h : Inserted s text) (hs : InRange s) : InRange text := by
  induction h with
  | nil => exact hs
  | keep c h ih =>
    intro b hb
    obtain rfl | hb := List.mem_cons.mp hb
    · exact hs b List.mem_cons_self
    · exact ih (fun b' hb' => hs b' (List.mem_cons_of_mem _ hb')) b hb
  | insert hc h ih =>
    intro b hb
    obtain rfl | hb := List.mem_cons.mp hb
    · exact (code_ignorable hc).2
    · exact ih hs b hb

/-! ### Numbers -/

theorem or_eq_add {a b k : ℕ} (i : ℕ) (ha : a = 2 ^ i * k) (hb : b < 2 ^ i) : a ||| b = a + b := by
  rw [ha, Nat.two_pow_add_eq_or_of_lt hb]

/-- Four values put together. -/
theorem gather_eq {a b c d : ℕ} (hb : b < 64) (hc : c < 64) (hd : d < 64) :
    gather 0 0 [a, b, c, d] = a * 262144 + b * 4096 + c * 64 + d := by
  have h_b : a * 262144 ||| b * 4096 = a * 262144 + b * 4096 :=
    or_eq_add (k := a) 18 (by omega) (by omega)
  have h_c : (a * 262144 + b * 4096) ||| c * 64 = a * 262144 + b * 4096 + c * 64 :=
    or_eq_add (k := a * 64 + b) 12 (by omega) (by omega)
  have h_d : (a * 262144 + b * 4096 + c * 64) ||| d = a * 262144 + b * 4096 + c * 64 + d :=
    or_eq_add (k := a * 4096 + b * 64 + c) 6 (by omega) (by omega)
  simp only [gather, Nat.shiftLeft_eq]
  change 0 ||| a * 262144 ||| b * 4096 ||| c * 64 ||| d * 1 = _
  rw [Nat.zero_or, h_b, h_c, Nat.mul_one, h_d]

theorem ofNat_and (n : ℕ) : UInt8.ofNat (n &&& 255) = UInt8.ofNat n := by
  have h_mod : n &&& 255 = n % 256 := Nat.and_two_pow_sub_one_eq_mod n 8
  rw [h_mod, ← UInt8.toNat_inj, UInt8.toNat_ofNat', UInt8.toNat_ofNat']
  omega

theorem ofNat_eq {n : ℕ} {b : UInt8} (h : n % 256 = b.toNat) : UInt8.ofNat n = b := by
  rw [← UInt8.toNat_inj, UInt8.toNat_ofNat']
  exact h

/-- The bytes of a round. -/
theorem output_four (r : ℕ) :
    output 4 r = [UInt8.ofNat (r / 65536), UInt8.ofNat (r / 256), UInt8.ofNat r] := by
  change [UInt8.ofNat ((r >>> 16) &&& 255), UInt8.ofNat ((r >>> 8) &&& 255),
    UInt8.ofNat ((r >>> 0) &&& 255)] = _
  rw [ofNat_and, ofNat_and, ofNat_and, Nat.shiftRight_eq_div_pow, Nat.shiftRight_eq_div_pow,
    Nat.shiftRight_zero]

/-- Where values are missing they count as zero. -/
theorem gather_three (a b c : ℕ) : gather 0 0 [a, b, c] = gather 0 0 [a, b, c, 0] := by
  simp only [gather, Nat.zero_shiftLeft, Nat.or_zero]

theorem gather_two (a b : ℕ) : gather 0 0 [a, b] = gather 0 0 [a, b, 0, 0] := by
  simp only [gather, Nat.zero_shiftLeft, Nat.or_zero]

theorem output_three (r : ℕ) : output 3 r = (output 4 r).take 2 := rfl

theorem output_two (r : ℕ) : output 2 r = (output 4 r).take 1 := rfl

/-! ### Rounds -/

/-- The values of three bytes come to these bytes. -/
theorem output_bytes (a b c : UInt8) :
    output 4 (gather 0 0 [a.toNat / 4, a.toNat % 4 * 16 + b.toNat / 16,
      b.toNat % 16 * 4 + c.toNat / 64, c.toNat % 64]) = [a, b, c] := by
  have ha := a.toNat_lt
  have hb := b.toNat_lt
  have hc := c.toNat_lt
  have h_value : gather 0 0 [a.toNat / 4, a.toNat % 4 * 16 + b.toNat / 16,
      b.toNat % 16 * 4 + c.toNat / 64, c.toNat % 64]
      = a.toNat * 65536 + b.toNat * 256 + c.toNat := by
    rw [gather_eq (by omega) (by omega) (by omega)]
    omega
  rw [h_value, output_four, ofNat_eq (b := a) (by omega), ofNat_eq (b := b) (by omega),
    ofNat_eq (b := c) (by omega)]

theorem inRange_cons {c : UInt8} {s : Str} (hc : ¬ IsHigh c) (hs : InRange s) : InRange (c :: s) := by
  intro b hb
  obtain rfl | hb := List.mem_cons.mp hb
  · exact hc
  · exact hs b hb

/-- The characters of an encoding: in range, and their values come to the bytes. -/
theorem encode_spec (s : Str) : InRange (encode s) ∧ groups (codes (encode s)) = s := by
  have h_pad := code_ignorable pad_mem_ignorable
  have h_nil : InRange [] := fun _ h_mem => absurd h_mem List.not_mem_nil
  fun_induction encode s with
  | case1 => exact ⟨h_nil, rfl⟩
  | case2 a =>
    have ha := a.toNat_lt
    have h₁ := code_character (n := a.toNat / 4) (by omega)
    have h₂ := code_character (n := a.toNat % 4 * 16) (by omega)
    constructor
    · exact inRange_cons h₁.2 (inRange_cons h₂.2 (inRange_cons h_pad.2 (inRange_cons h_pad.2 h_nil)))
    · rw [codes_cons_some h₁.1, codes_cons_some h₂.1, codes_cons_none h_pad.1, codes_cons_none h_pad.1]
      -- the missing bytes are taken for zeros, and then left out
      have h_bytes := output_bytes a 0 0
      change output 4 (gather 0 0 [a.toNat / 4, a.toNat % 4 * 16, 0, 0]) = [a, 0, 0] at h_bytes
      change output 2 (gather 0 0 [a.toNat / 4, a.toNat % 4 * 16]) = [a]
      rw [gather_two, output_two, h_bytes]
      rfl
  | case3 a b =>
    have ha := a.toNat_lt
    have hb := b.toNat_lt
    have h₁ := code_character (n := a.toNat / 4) (by omega)
    have h₂ := code_character (n := a.toNat % 4 * 16 + b.toNat / 16) (by omega)
    have h₃ := code_character (n := b.toNat % 16 * 4) (by omega)
    constructor
    · exact inRange_cons h₁.2 (inRange_cons h₂.2 (inRange_cons h₃.2 (inRange_cons h_pad.2 h_nil)))
    · rw [codes_cons_some h₁.1, codes_cons_some h₂.1, codes_cons_some h₃.1, codes_cons_none h_pad.1]
      -- here it is one
      have h_bytes := output_bytes a b 0
      change output 4 (gather 0 0 [a.toNat / 4, a.toNat % 4 * 16 + b.toNat / 16, b.toNat % 16 * 4, 0])
        = [a, b, 0] at h_bytes
      change output 3 (gather 0 0 [a.toNat / 4, a.toNat % 4 * 16 + b.toNat / 16, b.toNat % 16 * 4])
        = [a, b]
      rw [gather_three, output_three, h_bytes]
      rfl
  | case4 a b c s ih =>
    have ha := a.toNat_lt
    have hb := b.toNat_lt
    have hc := c.toNat_lt
    have h₁ := code_character (n := a.toNat / 4) (by omega)
    have h₂ := code_character (n := a.toNat % 4 * 16 + b.toNat / 16) (by omega)
    have h₃ := code_character (n := b.toNat % 16 * 4 + c.toNat / 64) (by omega)
    have h₄ := code_character (n := c.toNat % 64) (by omega)
    constructor
    · exact inRange_cons h₁.2 (inRange_cons h₂.2 (inRange_cons h₃.2 (inRange_cons h₄.2 ih.1)))
    · rw [codes_cons_some h₁.1, codes_cons_some h₂.1, codes_cons_some h₃.1, codes_cons_some h₄.1,
        groups_four, output_bytes, ih.2]
      rfl

/-- **Round trip.** A text that holds an encoding, with characters to be ignored anywhere in it, is
decoded to what was encoded. -/
theorem base64decode_encode {s text : Str} (h : Inserted (encode s) text) :
    base64decode text = .ok s := by
  obtain ⟨h_range, h_groups⟩ := encode_spec s
  rw [base64decode, doit_eq (h.inRange h_range), h.codes_eq, h_groups]

/-- `M\ng=\t=` for `Mg==`. -/
theorem base64decode_encode_two : base64decode (str "M\ng=\t=") = .ok (str "2") := by
  have h_newline : (0x0a : UInt8) ∈ ignorable := by decide
  have h_tab : (0x09 : UInt8) ∈ ignorable := by decide
  have h_inserted : Inserted (encode (str "2")) (str "M\ng=\t=") :=
    .keep _ (.insert h_newline (.keep _ (.keep _ (.insert h_tab (.keep _ .nil)))))
  exact base64decode_encode h_inserted

end GitlstreeFS.Base64
