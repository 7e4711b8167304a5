import GitlstreeFS.Text
import Mathlib.Algebra.Order.Ring.Int

/-!
# The C++ library

What several files use of it: `find` and `substr`, the numbers that an `int` has, and `struct stat`.
-/

namespace GitlstreeFS

/-- The newline. -/
def newline : UInt8 := 0x0a

/-- The space. -/
def space : UInt8 := 0x20

/-! ### `int` and `std::string` -/

/-- `s.find(c, pos)`, where `none` is `npos`. -/
def find (s : Str) (c : UInt8) (pos : ℕ) : Option ℕ :=
  ((s.drop pos).findIdx? (· = c)).map (· + pos)

/-- `s.substr(pos, count)` for a `pos` within the string. A negative `count` is converted to a number
that no length exceeds. -/
def substr (s : Str) (pos : ℕ) (count : ℤ) : Str :=
  if 0 ≤ count then (s.drop pos).take count.toNat else s.drop pos

/-- The number is an `int`. -/
def Fits (n : ℤ) : Prop :=
  -0x80000000 ≤ n ∧ n < 0x80000000

instance (n : ℤ) : Decidable (Fits n) :=
  inferInstanceAs (Decidable (_ ∧ _))

/-- The conversion of a `size_t` or a `long` to `int`, which is also `int32_t`. -/
def toInt (n : ℤ) : ℤ :=
  n.bmod 0x100000000

theorem toInt_of_fits {n : ℤ} (h : Fits n) : toInt n = n :=
  Int.bmod_eq_of_le (by unfold Fits at h; omega) (by unfold Fits at h; omega)

theorem toInt_of_lt {n : ℕ} (h : n < 0x80000000) : toInt n = n :=
  toInt_of_fits ⟨by omega, by omega⟩

theorem fits_toInt (n : ℤ) : Fits (toInt n) := by
  have h_pos : 0 < 0x100000000 := by decide
  have h_le := Int.le_bmod (x := n) h_pos
  have h_lt := Int.bmod_lt (x := n) h_pos
  unfold Fits toInt
  omega

/-- The bits of an `int32_t`. -/
def bits (n : ℤ) : ℕ :=
  (n % 0x100000000).toNat

/-- They are not changed by the conversion, also where it makes the number negative. -/
theorem bits_toInt {n : ℕ} (h : n < 0x100000000) : bits (toInt n) = n := by
  have h_mod : toInt n % 0x100000000 = (n : ℤ) % 0x100000000 := Int.bmod_emod
  rw [bits, h_mod]
  omega

/-! ### `struct stat` -/

/-- `S_IFMT`. -/
def sIFMT : ℕ := 0xf000

/-- `S_IFDIR`. -/
def sIFDIR : ℕ := 0x4000

/-- `S_IFREG`. -/
def sIFREG : ℕ := 0x8000

/-- `S_IFLNK`. -/
def sIFLNK : ℕ := 0xa000

/-- What a `Getattr` fills in. -/
structure Stat where
  mode : ℕ
  nlink : ℕ
  size : ℤ
  deriving DecidableEq, Repr

/-! ### Looking for a character -/

variable {c : UInt8} {s u : Str}

theorem find_behind (u v : Str) (c : UInt8) :
    find (u ++ v) c u.length = (find v c 0).map (· + u.length) := by
  rw [find, find, List.drop_left, List.drop_zero, Option.map_map]
  rfl

theorem find_eq_none (h : c ∉ s) (pos : ℕ) : find s c pos = none := by
  rw [find, Option.map_eq_none_iff, List.findIdx?_eq_none_iff]
  intro x hx
  have h_ne : x ≠ c := fun h_eq => h (h_eq ▸ List.mem_of_mem_drop hx)
  simpa using h_ne

/-- What does not hold the character is skipped. -/
theorem find_skip (h : c ∉ u) (v : Str) : find (u ++ v) c 0 = (find v c 0).map (· + u.length) := by
  have h_none : u.findIdx? (· = c) = none := by
    rw [List.findIdx?_eq_none_iff]
    intro x hx
    have h_ne : x ≠ c := fun h_eq => h (h_eq ▸ hx)
    simpa using h_ne
  rw [find, find, List.drop_zero, List.drop_zero, List.findIdx?_append, h_none, Option.none_or,
    Option.map_map, Option.map_map]
  rfl

theorem find_append (h : c ∉ u) (v : Str) : find (u ++ c :: v) c 0 = some u.length := by
  have h_head : find (c :: v) c 0 = some 0 := by
    rw [find, List.drop_zero, List.findIdx?_cons]
    simp
  rw [find_skip h, h_head, Option.map_some, Nat.zero_add]

end GitlstreeFS
