import Mathlib.Data.List.Basic
import Mathlib.Data.Nat.Notation
import Mathlib.Tactic.Common

/-!
# JSON texts

The grammar of RFC 7159 over bytes, with a tree for each text. What number and string lexemes
there are and what they denote is a parameter (`Lexicon`), so that a dialect is an instance of
`IsText` rather than a grammar of its own.

The productions keep the closing bracket together with what comes before it: `IsElements` and
`IsMembers` are the texts that follow the opening bracket of an array or object that is not
empty.
-/

namespace Json

abbrev Bytes := List UInt8

/-- What a text denotes, with numbers in `ν`. -/
inductive Datum (ν : Type) where
  | null
  | true
  | false
  | number (x : ν)
  | string (s : Bytes)
  | array (elements : List (Datum ν))
  | object (members : List (Bytes × Datum ν))

/-- The lexemes of numbers, and the lexemes of strings without their quotes. -/
structure Lexicon (ν : Type) where
  number : Bytes → ν → Prop
  string : Bytes → Bytes → Prop

/-- Space, tab, line feed and carriage return. -/
def IsSpace (b : UInt8) : Prop :=
  b = 0x20 ∨ b = 0x09 ∨ b = 0x0a ∨ b = 0x0d

instance (b : UInt8) : Decidable (IsSpace b) :=
  inferInstanceAs (Decidable (_ ∨ _))

def IsWs (w : Bytes) : Prop :=
  ∀ b ∈ w, IsSpace b

instance (w : Bytes) : Decidable (IsWs w) :=
  List.decidableBAll _ w

variable {ν : Type}

/-! ### Texts -/

mutual

/-- The texts of a value. -/
inductive IsValue (L : Lexicon ν) : Datum ν → Bytes → Prop
  | null : IsValue L .null [0x6e, 0x75, 0x6c, 0x6c]
  | true : IsValue L .true [0x74, 0x72, 0x75, 0x65]
  | false : IsValue L .false [0x66, 0x61, 0x6c, 0x73, 0x65]
  | number {lexeme x} (h : L.number lexeme x) : IsValue L (.number x) lexeme
  | string {raw s} (h : L.string raw s) : IsValue L (.string s) (0x22 :: raw ++ [0x22])
  | emptyArray {w} (hw : IsWs w) : IsValue L (.array []) (0x5b :: w ++ [0x5d])
  | array {w ts t} (hw : IsWs w) (h : IsElements L ts t) : IsValue L (.array ts) (0x5b :: w ++ t)
  | emptyObject {w} (hw : IsWs w) : IsValue L (.object []) (0x7b :: w ++ [0x7d])
  | object {w ms t} (hw : IsWs w) (h : IsMembers L ms t) : IsValue L (.object ms) (0x7b :: w ++ t)

/-- The elements of an array that has some, with the closing bracket. -/
inductive IsElements (L : Lexicon ν) : List (Datum ν) → Bytes → Prop
  | last {v t w} (h : IsValue L v t) (hw : IsWs w) : IsElements L [v] (t ++ w ++ [0x5d])
  | cons {v t w w' vs t'} (h : IsValue L v t) (hw : IsWs w) (hw' : IsWs w')
      (hs : IsElements L vs t') : IsElements L (v :: vs) (t ++ w ++ 0x2c :: w' ++ t')

/-- The members of an object that has some, with the closing brace. -/
inductive IsMembers (L : Lexicon ν) : List (Bytes × Datum ν) → Bytes → Prop
  | last {raw key w₁ w₂ v t w} (hk : L.string raw key) (h₁ : IsWs w₁) (h₂ : IsWs w₂)
      (h : IsValue L v t) (hw : IsWs w) :
      IsMembers L [(key, v)] (0x22 :: raw ++ 0x22 :: w₁ ++ 0x3a :: w₂ ++ t ++ w ++ [0x7d])
  | cons {raw key w₁ w₂ v t w w' ms t'} (hk : L.string raw key) (h₁ : IsWs w₁) (h₂ : IsWs w₂)
      (h : IsValue L v t) (hw : IsWs w) (hw' : IsWs w') (hs : IsMembers L ms t') :
      IsMembers L ((key, v) :: ms)
        (0x22 :: raw ++ 0x22 :: w₁ ++ 0x3a :: w₂ ++ t ++ w ++ 0x2c :: w' ++ t')

end

/-- A JSON text: a value with whitespace around it. -/
def IsText (L : Lexicon ν) (v : Datum ν) (s : Bytes) : Prop :=
  ∃ w t w', IsWs w ∧ IsValue L v t ∧ IsWs w' ∧ s = w ++ t ++ w'

/-! ### Distinct names -/

mutual

/-- The members of every object have different names. -/
def Datum.Distinct : Datum ν → Prop
  | .array ts => DistinctElements ts
  | .object ms => (ms.map Prod.fst).Nodup ∧ DistinctMembers ms
  | _ => True

def DistinctElements : List (Datum ν) → Prop
  | [] => True
  | t :: ts => t.Distinct ∧ DistinctElements ts

def DistinctMembers : List (Bytes × Datum ν) → Prop
  | [] => True
  | (_, t) :: ms => t.Distinct ∧ DistinctMembers ms

end

/-! ### Numbers in other types -/

section Map

variable {ν' : Type} (f : ν → ν')

mutual

/-- Change the numbers. -/
def Datum.map : Datum ν → Datum ν'
  | .null => .null
  | .true => .true
  | .false => .false
  | .number x => .number (f x)
  | .string s => .string s
  | .array ts => .array (mapElements ts)
  | .object ms => .object (mapMembers ms)

def mapElements : List (Datum ν) → List (Datum ν')
  | [] => []
  | t :: ts => t.map :: mapElements ts

def mapMembers : List (Bytes × Datum ν) → List (Bytes × Datum ν')
  | [] => []
  | (key, t) :: ms => (key, t.map) :: mapMembers ms

end

/-- The lexemes of `L` are such of `L'`, with their numbers changed. -/
structure Lexicon.Embeds (L : Lexicon ν) (L' : Lexicon ν') : Prop where
  number : ∀ {lexeme x}, L.number lexeme x → L'.number lexeme (f x)
  string : ∀ {raw s}, L.string raw s → L'.string raw s

variable {f} {L : Lexicon ν} {L' : Lexicon ν'}

mutual

theorem IsValue.map (hL : L.Embeds f L') {t : Datum ν} {s : Bytes} :
    IsValue L t s → IsValue L' (t.map f) s
  | .null => .null
  | .true => .true
  | .false => .false
  | .number h => .number (hL.number h)
  | .string h => .string (hL.string h)
  | .emptyArray hw => .emptyArray hw
  | .array hw h => .array hw (h.map hL)
  | .emptyObject hw => .emptyObject hw
  | .object hw h => .object hw (h.map hL)

theorem IsElements.map (hL : L.Embeds f L') {ts : List (Datum ν)} {s : Bytes} :
    IsElements L ts s → IsElements L' (mapElements f ts) s
  | .last h hw => .last (h.map hL) hw
  | .cons h hw hw' hs => .cons (h.map hL) hw hw' (hs.map hL)

theorem IsMembers.map (hL : L.Embeds f L') {ms : List (Bytes × Datum ν)} {s : Bytes} :
    IsMembers L ms s → IsMembers L' (mapMembers f ms) s
  | .last hk h₁ h₂ h hw => .last (hL.string hk) h₁ h₂ (h.map hL) hw
  | .cons hk h₁ h₂ h hw hw' hs => .cons (hL.string hk) h₁ h₂ (h.map hL) hw hw' (hs.map hL)

end

/-- A text of one lexicon is one of another. -/
theorem IsText.map (hL : L.Embeds f L') {t : Datum ν} {s : Bytes} (h : IsText L t s) :
    IsText L' (t.map f) s := by
  obtain ⟨w, x, w', hw, h_value, hw', rfl⟩ := h
  exact ⟨w, x, w', hw, h_value.map hL, hw', rfl⟩

variable (f)

theorem fst_mapMembers (ms : List (Bytes × Datum ν)) :
    (mapMembers f ms).map Prod.fst = ms.map Prod.fst := by
  induction ms with
  | nil => rfl
  | cons m ms ih => rw [mapMembers, List.map_cons, List.map_cons, ih]

mutual

theorem Datum.Distinct.map : ∀ {t : Datum ν}, t.Distinct → (t.map f).Distinct
  | .null, _ | .true, _ | .false, _ | .number _, _ | .string _, _ => trivial
  | .array _, h => DistinctElements.map h
  | .object ms, h => ⟨(fst_mapMembers f ms).symm ▸ h.1, DistinctMembers.map h.2⟩

theorem DistinctElements.map : ∀ {ts : List (Datum ν)},
    DistinctElements ts → DistinctElements (mapElements f ts)
  | [], _ => trivial
  | _ :: _, h => ⟨Datum.Distinct.map h.1, DistinctElements.map h.2⟩

theorem DistinctMembers.map : ∀ {ms : List (Bytes × Datum ν)},
    DistinctMembers ms → DistinctMembers (mapMembers f ms)
  | [], _ => trivial
  | (_, _) :: _, h => ⟨Datum.Distinct.map h.1, DistinctMembers.map h.2⟩

end

end Map

/-! ### Lexemes -/

/-- The escapes of one character, with what they stand for. -/
def shortEscapes : List (UInt8 × UInt8) :=
  [(0x22, 0x22), (0x5c, 0x5c), (0x2f, 0x2f), (0x62, 0x08), (0x66, 0x0c), (0x6e, 0x0a),
    (0x72, 0x0d), (0x74, 0x09)]

/-- `b` is a hexadecimal digit of value `n`. -/
def IsHexDigit (b : UInt8) (n : ℕ) : Prop :=
  n < 16 ∧ (b.toNat = 0x30 + n ∧ n < 10 ∨ b.toNat + 10 = 0x61 + n ∧ 10 ≤ n ∨
    b.toNat + 10 = 0x41 + n ∧ 10 ≤ n)

instance (b : UInt8) (n : ℕ) : Decidable (IsHexDigit b n) :=
  inferInstanceAs (Decidable (_ ∧ _))

/-- The contents of a string literal that spell `s`: each byte stands for itself or is written
as an escape; a quote and a backslash are always escaped. -/
inductive Spells : Bytes → Bytes → Prop
  | nil : Spells [] []
  | raw {b r s} (h_quote : b ≠ 0x22) (h_backslash : b ≠ 0x5c) (h : Spells r s) :
      Spells (b :: r) (b :: s)
  | short {c b r s} (hc : (c, b) ∈ shortEscapes) (h : Spells r s) : Spells (0x5c :: c :: r) (b :: s)
  | hex {h₁ h₂ n₁ n₂ b r s} (hn₁ : IsHexDigit h₁ n₁) (hn₂ : IsHexDigit h₂ n₂)
      (hb : b.toNat = n₁ * 16 + n₂) (h : Spells r s) :
      Spells (0x5c :: 0x75 :: 0x30 :: 0x30 :: h₁ :: h₂ :: r) (b :: s)

/-- No quote is unescaped, and no escape is incomplete. -/
def isClosed : Bytes → Bool
  | [] => true
  | 0x22 :: _ => false
  | [0x5c] => false
  | 0x5c :: _ :: s => isClosed s
  | _ :: s => isClosed s

/-- The contents of a string literal, of which is asked only that no quote in it is unescaped. -/
def Closed (s : Bytes) : Prop :=
  isClosed s = true

instance (s : Bytes) : Decidable (Closed s) :=
  inferInstanceAs (Decidable (_ = true))

theorem closed_raw {b : UInt8} {s : Bytes} (h_quote : b ≠ 0x22) (h_backslash : b ≠ 0x5c) :
    Closed (b :: s) ↔ Closed s := by
  unfold Closed
  rw [isClosed]
  all_goals simp_all

theorem closed_escape (c : UInt8) (s : Bytes) : Closed (0x5c :: c :: s) ↔ Closed s := by
  unfold Closed
  rw [isClosed]

theorem Closed.append {s t : Bytes} (hs : Closed s) (ht : Closed t) : Closed (s ++ t) := by
  unfold Closed at hs
  fun_induction isClosed s with
  | case1 => exact ht
  | case2 => simp at hs
  | case3 => simp at hs
  | case4 c s ih => exact (closed_escape c _).mpr (ih hs)
  | case5 b s h_quote _ h_backslash ih =>
    refine (closed_raw h_quote ?_).mpr (ih hs)
    rintro rfl
    cases s with
    | nil => simp_all
    | cons c s => exact h_backslash c s rfl rfl

/-- Digits, at least one. -/
def IsDigits (s : Bytes) : Prop :=
  s ≠ [] ∧ ∀ b ∈ s, 0x30 ≤ b ∧ b ≤ 0x39

instance (s : Bytes) : Decidable (IsDigits s) :=
  inferInstanceAs (Decidable (_ ∧ _))

/-- An optional minus, digits, and an optional fraction. -/
def IsDecimal (s : Bytes) : Prop :=
  ∃ sign whole fraction, (sign = [] ∨ sign = [0x2d]) ∧ IsDigits whole ∧
    (fraction = [] ∨ ∃ d, IsDigits d ∧ fraction = 0x2e :: d) ∧ s = sign ++ whole ++ fraction

/-- The `int` of RFC 7159: a zero, or digits that do not begin with one. -/
def IsInt (s : Bytes) : Prop :=
  s = [0x30] ∨ IsDigits s ∧ s.head? ≠ some 0x30

/-- The `frac` of RFC 7159, or nothing. -/
def IsFrac (s : Bytes) : Prop :=
  s = [] ∨ ∃ d, IsDigits d ∧ s = 0x2e :: d

/-- The `exp` of RFC 7159, or nothing. -/
def IsExp (s : Bytes) : Prop :=
  s = [] ∨ ∃ e plusMinus d, (e = 0x65 ∨ e = 0x45) ∧
    (plusMinus = [] ∨ plusMinus = [0x2b] ∨ plusMinus = [0x2d]) ∧ IsDigits d ∧ s = e :: (plusMinus ++ d)

/-- The `number` of RFC 7159. -/
def IsNumberLexeme (s : Bytes) : Prop :=
  ∃ minus int frac exp, (minus = [] ∨ minus = [0x2d]) ∧ IsInt int ∧ IsFrac frac ∧ IsExp exp ∧
    s = minus ++ (int ++ (frac ++ exp))

/-- The end of the text, or what stands behind a value: whitespace, a comma or a closing bracket. -/
def Delimits (rest : Bytes) : Prop :=
  ∀ b ∈ rest.head?, IsSpace b ∨ b = 0x2c ∨ b = 0x5d ∨ b = 0x7d

theorem IsInt.isDigits {s : Bytes} (h : IsInt s) : IsDigits s := by
  obtain rfl | h := h
  · decide +kernel
  · exact h.1

end Json
