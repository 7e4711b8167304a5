import GitlstreeFS.Buffer
import GitlstreeFS.Text

/-!
# Contents in memory

What a `Read` of a file copies whose content is in memory as a whole: a mapping, or a `std::string`.
-/

namespace GitlstreeFS.Cache

/-- What `FileElement::Read` copies of a mapping, the end of both its versions, and the `Read`s of the files
whose content is a `std::string`. `none` is a `memcpy` that leaves the content; the sum is a `size_t`. -/
def readMemory (content : Str) (size : ℕ) (offset : ℤ) : Option Str :=
  if offset < content.length then
    let count : ℤ :=
      if (content.length : ℤ) < (offset + size) % 0x10000000000000000 then content.length - offset else size
    if 0 ≤ offset ∧ offset + count ≤ content.length then
      some ((content.drop offset.toNat).take count.toNat)
    else none
  else some []

/-- The slice that a read asks for. -/
def slice (content : Str) (size offset : ℕ) : Str :=
  (content.drop offset).take size

/-- **The slice is copied**, unless the sum overflows. -/
theorem readMemory_eq {content : Str} {size offset : ℕ} (h : offset + size < 0x10000000000000000) :
    readMemory content size offset = some (slice content size offset) := by
  have h_sum : ((offset : ℤ) + size) % 0x10000000000000000 = offset + size :=
    Int.emod_eq_of_lt (by omega) (by omega)
  rw [readMemory, h_sum]
  by_cases h_offset : offset < content.length
  · rw [if_pos (by omega)]
    by_cases h_size : content.length < offset + size
    · have h_big : (content.length : ℤ) < offset + size := by omega
      have h_drop : (content.drop offset).length ≤ size := by
        rw [List.length_drop]
        omega
      have h_count : ((content.length : ℤ) - offset).toNat = (content.drop offset).length := by
        rw [List.length_drop]
        omega
      dsimp only
      rw [if_pos h_big, if_pos (by omega), h_count, Int.toNat_natCast, List.take_length, slice,
        List.take_of_length_le h_drop]
    · have h_small : ¬ (content.length : ℤ) < offset + size := by omega
      dsimp only
      rw [if_neg h_small, if_pos (by omega)]
      rfl
  · rw [if_neg (by omega), slice, List.drop_of_length_le (not_lt.mp h_offset), List.take_nil]

/-- The slice in terms of the number of bytes that there are. -/
theorem slice_eq_take (content : Str) (size offset : ℕ) :
    slice content size offset = (content.drop offset).take (Buffer.count content size offset) := by
  rw [slice, Buffer.count, ← List.length_drop, ← List.take_eq_take_min]

theorem length_slice (content : Str) (size offset : ℕ) :
    (slice content size offset).length = Buffer.count content size offset := by
  rw [slice, List.length_take, List.length_drop, Buffer.count]

end GitlstreeFS.Cache

namespace GitlstreeFS

open Cache

/-- The end of the `Read`s of the files whose content is a `std::string`: the value, and what is copied to
`target`. -/
def readString (s : Str) (size : ℕ) (offset : ℤ) : Option (ℤ × Str) :=
  (readMemory s size offset).map fun bytes => (bytes.length, bytes)

theorem readString_eq {s : Str} {size offset : ℕ} (h : offset + size < 0x10000000000000000) :
    readString s size offset
      = some ((Buffer.count s size offset : ℤ), (s.drop offset).take (Buffer.count s size offset)) := by
  rw [readString, readMemory_eq h, Option.map_some, length_slice, slice_eq_take]

end GitlstreeFS
