import Mathlib.Data.List.Forall2
import Mathlib.Data.Nat.Notation
import Mathlib.Tactic.Common

/-!
# Text in two encodings

Each character of a text is written in UTF-8 or, if it is below U+0100, as the one byte of its number. The
bytes do not tell which it was, and other characters can have the same bytes. Of the same characters, though,
two texts differ as soon as one character that is not ASCII is written in two ways: `mixed_eq_iff`.
-/

namespace GitlstreeFS.MixedText

/-- A character. The flag says that it is written as one byte. -/
abbrev Letter := Char × Bool

/-- The bytes of a character. -/
def piece (p : Letter) : List UInt8 :=
  if p.2 then [UInt8.ofNat p.1.toNat] else String.utf8EncodeChar p.1

/-- The bytes of a text. -/
def mixed (l : List Letter) : List UInt8 :=
  l.flatMap piece

/-- The characters that are written as one byte have one. -/
def Narrow (l : List Letter) : Prop :=
  ∀ p ∈ l, p.2 = true → p.1.toNat < 0x100

/-- The same character, written in the same way or an ASCII character. -/
def Alike (p q : Letter) : Prop :=
  p.1.toNat < 0x80 ∨ p.2 = q.2

instance (p q : Letter) : Decidable (Alike p q) :=
  inferInstanceAs (Decidable (_ ∨ _))

variable {c : Char} {p q : Letter} {l l' : List Letter}

@[simp] theorem mixed_nil : mixed [] = [] := rfl

@[simp] theorem mixed_cons (p : Letter) (l : List Letter) : mixed (p :: l) = piece p ++ mixed l := rfl

theorem toNat_byte {n : ℕ} (h : n < 0x100) : (UInt8.ofNat n).toNat = n :=
  UInt8.toNat_ofNat_of_lt' h

theorem narrow_cons : Narrow (p :: l) ↔ (p.2 = true → p.1.toNat < 0x100) ∧ Narrow l :=
  List.forall_mem_cons

/-! ### UTF-8 -/

theorem utf8EncodeChar_ascii (h : c.toNat < 0x80) : String.utf8EncodeChar c = [UInt8.ofNat c.toNat] := by
  change c.val.toNat < 0x80 at h
  simp only [String.utf8EncodeChar]
  rw [if_pos (by omega)]
  rfl

/-- The characters from U+0080 to U+00FF have two bytes. -/
theorem utf8EncodeChar_pair (h : 0x80 ≤ c.toNat) (h' : c.toNat < 0x100) :
    String.utf8EncodeChar c
      = [UInt8.ofNat (c.toNat / 64 + 0xc0), UInt8.ofNat (c.toNat % 64 + 0x80)] := by
  change 0x80 ≤ c.val.toNat at h
  change c.val.toNat < 0x100 at h'
  simp only [String.utf8EncodeChar]
  rw [if_neg (by omega), if_pos (by omega), Nat.mod_eq_of_lt (show c.val.toNat / 64 < 0x20 by omega)]
  rfl

/-- No byte of a character that is not ASCII is. -/
theorem le_of_mem_utf8EncodeChar (h : 0x80 ≤ c.toNat) {b : UInt8} (hb : b ∈ String.utf8EncodeChar c) :
    0x80 ≤ b.toNat := by
  change 0x80 ≤ c.val.toNat at h
  simp only [String.utf8EncodeChar] at hb
  rw [if_neg (by omega)] at hb
  split_ifs at hb <;> simp only [List.mem_cons, List.not_mem_nil, or_false] at hb
  · obtain rfl | rfl := hb <;> rw [UInt8.toNat_ofNat'] <;> omega
  · obtain rfl | rfl | rfl := hb <;> rw [UInt8.toNat_ofNat'] <;> omega
  · obtain rfl | rfl | rfl | rfl := hb <;> rw [UInt8.toNat_ofNat'] <;> omega

theorem piece_eq (h_char : p.1 = q.1) (h : Alike p q) : piece p = piece q := by
  obtain ⟨c, f⟩ := p
  obtain ⟨c', g⟩ := q
  obtain rfl : c = c' := h_char
  obtain h_ascii | rfl : c.toNat < 0x80 ∨ f = g := h
  · unfold piece
    cases f <;> cases g <;> simp [utf8EncodeChar_ascii h_ascii]
  · rfl

/-! ### What both encodings have in common

The two bytes of U+0080 to U+00BF are a `C2` and the one byte, those of U+00C0 to U+00FF are a `C3` and
another byte of the same range, which is `82` for U+00C2 and `83` for U+00C3. -/

/-- What a `C3` does to the bytes behind it. -/
def pop : List UInt8 → List UInt8
  | 0x82 :: α => α
  | 0x83 :: α => pop α
  | _ => []

/-- What a byte does to the bytes behind it. -/
def push (b : UInt8) (α : List UInt8) : List UInt8 :=
  if 0x80 ≤ b.toNat ∧ b.toNat < 0xc0 then b :: α
  else if b.toNat = 0xc2 then α
  else if b.toNat = 0xc3 then pop α
  else []

/-- The bytes from `80` to `BF` that are at the head of the text when two bytes in UTF-8 are replaced by the
one, as often as it is possible. -/
def trace (s : List UInt8) : List UInt8 :=
  s.foldr push []

theorem push_two {n : ℕ} (h : 0xc0 ≤ n) (h' : n < 0x100) (α : List UInt8) :
    pop (UInt8.ofNat (n - 0x40) :: α) = push (UInt8.ofNat n) α := by
  have h_toNat : (UInt8.ofNat n).toNat = n := toNat_byte h'
  have h_toNat' : (UInt8.ofNat (n - 0x40)).toNat = n - 0x40 := toNat_byte (by omega)
  unfold push
  rw [h_toNat, if_neg (by omega)]
  by_cases h_c2 : n = 0xc2
  · subst h_c2
    rfl
  rw [if_neg h_c2]
  by_cases h_c3 : n = 0xc3
  · subst h_c3
    rfl
  rw [if_neg h_c3]
  unfold pop
  split
  · rename_i h_eq
    have h_byte := congrArg UInt8.toNat (List.cons.inj h_eq).1
    rw [h_toNat'] at h_byte
    exact absurd h_byte (by simp; omega)
  · rename_i h_eq
    have h_byte := congrArg UInt8.toNat (List.cons.inj h_eq).1
    rw [h_toNat'] at h_byte
    exact absurd h_byte (by simp; omega)
  · rfl

theorem push_pair (h : 0x80 ≤ c.toNat) (h' : c.toNat < 0x100) (α : List UInt8) :
    (String.utf8EncodeChar c).foldr push α = push (UInt8.ofNat c.toNat) α := by
  rw [utf8EncodeChar_pair h h', List.foldr_cons, List.foldr_cons, List.foldr_nil]
  have h_second : push (UInt8.ofNat (c.toNat % 64 + 0x80)) α = UInt8.ofNat (c.toNat % 64 + 0x80) :: α := by
    have h_toNat : (UInt8.ofNat (c.toNat % 64 + 0x80)).toNat = c.toNat % 64 + 0x80 :=
      toNat_byte (by omega)
    exact if_pos (by omega)
  rw [h_second]
  by_cases h_c0 : c.toNat < 0xc0
  · rw [show c.toNat / 64 + 0xc0 = 0xc2 by omega, show c.toNat % 64 + 0x80 = c.toNat by omega]
    have h_toNat : (UInt8.ofNat c.toNat).toNat = c.toNat := toNat_byte h'
    exact (if_pos (by omega)).symm
  · rw [show c.toNat / 64 + 0xc0 = 0xc3 by omega, show c.toNat % 64 + 0x80 = c.toNat - 0x40 by omega]
    exact push_two (by omega) h' α

/-- Whichever way the character is written. -/
theorem foldr_piece (h_char : p.1 = q.1) (hp : p.2 = true → p.1.toNat < 0x100)
    (hq : q.2 = true → q.1.toNat < 0x100) (α : List UInt8) :
    (piece p).foldr push α = (piece q).foldr push α := by
  by_cases h_alike : Alike p q
  · rw [piece_eq h_char h_alike]
  obtain ⟨c, f⟩ := p
  obtain ⟨c', g⟩ := q
  obtain rfl : c = c' := h_char
  obtain ⟨h_ascii, h_ne⟩ := not_or.mp h_alike
  have h_le : 0x80 ≤ c.toNat := Nat.le_of_not_lt h_ascii
  cases f <;> cases g
  · exact absurd rfl h_ne
  · exact push_pair h_le (hq rfl) α
  · exact (push_pair h_le (hp rfl) α).symm
  · exact absurd rfl h_ne

/-- Texts of the same characters have the same trace. -/
theorem trace_mixed (h_chars : l.map Prod.fst = l'.map Prod.fst) (h : Narrow l) (h' : Narrow l') :
    trace (mixed l) = trace (mixed l') := by
  induction l generalizing l' with
  | nil => rw [List.map_eq_nil_iff.mp h_chars.symm]
  | cons p l ih =>
    cases l' with
    | nil => cases h_chars
    | cons q l' =>
      obtain ⟨h_char, h_chars⟩ := List.cons.inj h_chars
      rw [narrow_cons] at h h'
      have h_rest : trace (mixed l) = trace (mixed l') := ih h_chars h.2 h'.2
      rw [mixed_cons, mixed_cons, trace, trace, List.foldr_append, List.foldr_append]
      change List.foldr push (trace (mixed l)) (piece p) = List.foldr push (trace (mixed l')) (piece q)
      rw [h_rest, foldr_piece h_char h.1 h'.1]

/-! ### The comparison -/

/-- Texts of the same characters differ if the first character is not ASCII and is written in two ways: it
would be U+00C3, and behind it one text would have an `83` more than the other. -/
theorem mixed_ne (h_le : 0x80 ≤ c.toNat) (h_chars : l.map Prod.fst = l'.map Prod.fst)
    (h : Narrow ((c, true) :: l)) (h' : Narrow l') : mixed ((c, true) :: l) ≠ mixed ((c, false) :: l') := by
  intro h_eq
  obtain ⟨h_lt, h⟩ := narrow_cons.mp h
  have h_lt : c.toNat < 0x100 := h_lt rfl
  have h_bytes : UInt8.ofNat c.toNat :: mixed l
      = UInt8.ofNat (c.toNat / 64 + 0xc0) :: UInt8.ofNat (c.toNat % 64 + 0x80) :: mixed l' := by
    rw [mixed_cons, mixed_cons] at h_eq
    change [UInt8.ofNat c.toNat] ++ mixed l = String.utf8EncodeChar c ++ mixed l' at h_eq
    rwa [utf8EncodeChar_pair h_le h_lt] at h_eq
  obtain ⟨h_first, h_rest⟩ := List.cons.inj h_bytes
  have h_toNat := congrArg UInt8.toNat h_first
  rw [toNat_byte h_lt, toNat_byte (by omega)] at h_toNat
  have h_c3 : c.toNat = 0xc3 := by omega
  rw [h_c3] at h_rest
  have h_trace : trace (mixed l) = 0x83 :: trace (mixed l') := by
    rw [h_rest]
    rfl
  rw [trace_mixed h_chars h h'] at h_trace
  have h_length := congrArg List.length h_trace
  rw [List.length_cons] at h_length
  omega

/-- **Two texts of the same characters** are the same bytes if and only if they write each character that is
not ASCII in the same way. -/
theorem mixed_eq_iff (h_chars : l.map Prod.fst = l'.map Prod.fst) (h : Narrow l) (h' : Narrow l') :
    mixed l = mixed l' ↔ List.Forall₂ Alike l l' := by
  induction l generalizing l' with
  | nil =>
    rw [List.map_eq_nil_iff.mp h_chars.symm]
    exact iff_of_true rfl .nil
  | cons p l ih =>
    cases l' with
    | nil => cases h_chars
    | cons q l' =>
      obtain ⟨h_char, h_tail⟩ := List.cons.inj h_chars
      rw [List.forall₂_cons]
      by_cases h_alike : Alike p q
      · have h_rest := ih h_tail (narrow_cons.mp h).2 (narrow_cons.mp h').2
        rw [mixed_cons, mixed_cons, piece_eq h_char h_alike, List.append_cancel_left_eq, h_rest]
        exact (and_iff_right h_alike).symm
      · refine iff_of_false ?_ fun h_both => h_alike h_both.1
        obtain ⟨c, f⟩ := p
        obtain ⟨c', g⟩ := q
        obtain rfl : c = c' := h_char
        obtain ⟨h_ascii, h_ne⟩ := not_or.mp h_alike
        have h_le : 0x80 ≤ c.toNat := Nat.le_of_not_lt h_ascii
        cases f <;> cases g
        · exact absurd rfl h_ne
        · exact (mixed_ne h_le h_tail.symm h' (narrow_cons.mp h).2).symm
        · exact mixed_ne h_le h_tail h (narrow_cons.mp h').2
        · exact absurd rfl h_ne

end GitlstreeFS.MixedText
