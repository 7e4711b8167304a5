import GitlstreeFS.Ext2.BlockMap

/-!
# Files with holes

The blocks of a file that are holes should read as zeros, and the others as they are in the image
(`ReadsSparse`). The list of `GetFileContent` has no holes. A zero pointer of the inode or of a doubly
indirect block is left out, so that the blocks behind it move up and there are too few of them; one of the
indirect block becomes block 0 of the image, and a zero pointer to a block of pointers makes these be read
from block 0.

So a file with holes is read as it should be only by chance: where none of its pointers are left out, and
what is read in the place of the holes happens to be zero (`readsSparse_iff`).
-/

namespace GitlstreeFS.Ext2

open Blocks

variable {reader : Ext2Reader} {inode : ℤ} {content : FileContent}

/-! ### What should be read -/

/-- The byte at a pointer. -/
def byteAt (m : Str) (a : ℤ) : Option UInt8 :=
  if 0 ≤ a then m[a.toNat]? else none

/-- The byte at `q` of a block of the file. -/
def blockByte (reader : Ext2Reader) : Option ℕ → ℕ → Option UInt8
  | none, _ => some 0
  | some b, q => byteAt reader.map (b * reader.blockSize + q)

/-- The file can be read, from the beginning of each of its blocks on, and each byte is the one that the
block map has at its position. -/
def ReadsSparse (reader : Ext2Reader) (inode : ℤ) : Prop :=
  ∃ content, getFileContent reader inode = .ok content
    ∧ ∀ k n, k * reader.blockSize + n ≤ content.size →
      ∃ copied, copy reader.blockSize content n (k * reader.blockSize) = .ok copied
        ∧ copied.length = n
        ∧ ∀ i < n, ∀ o, MapsTo reader inode ((k * reader.blockSize + i) / reader.blockSize) o →
          ∃ a v, copied[i]? = some a ∧ byteAt reader.map a = some v
            ∧ blockByte reader o ((k * reader.blockSize + i) % reader.blockSize) = some v

/-- What the block map says is one thing. -/
theorem Leads.unique {m : Str} {bs n : ℕ} {path : List ℕ} {o o' : Option ℕ} (h : Leads m bs n path o)
    (h' : Leads m bs n path o') : o = o' := by
  induction h with
  | hole =>
    cases h' with
    | hole => rfl
    | block h_pos => exact absurd rfl h_pos
    | indirect h_pos => exact absurd rfl h_pos
  | block h_pos =>
    cases h' with
    | hole => exact absurd rfl h_pos
    | block => rfl
  | indirect h_pos _ h_entry _ ih =>
    cases h' with
    | hole => exact absurd rfl h_pos
    | indirect _ _ h_entry' h_leads' =>
      obtain rfl := Except.ok.inj (h_entry.symm.trans h_entry')
      exact ih h_leads'

theorem MapsTo.unique {i : ℕ} {o o' : Option ℕ} (h : MapsTo reader inode i o)
    (h' : MapsTo reader inode i o') : o = o' := by
  obtain ⟨n, hn, h_leads⟩ := h
  obtain ⟨n', hn', h_leads'⟩ := h'
  obtain rfl := Except.ok.inj (hn.symm.trans hn')
  exact h_leads.unique h_leads'

/-! ### Reading from the beginning of a block on -/

/-- What is copied from the beginning of a block on. -/
theorem copy_block_eq_ok_iff (h_bs : 0 < reader.blockSize) {k n : ℕ} {copied : List ℤ} :
    copy reader.blockSize content n (k * reader.blockSize) = .ok copied
      ↔ n ≤ (content.blocks.length - k) * reader.blockSize
        ∧ copied = ((concatenation reader.blockSize content.blocks).drop (k * reader.blockSize)).take n := by
  rw [copy_aligned (Nat.mul_mod_left k _), Nat.mul_div_cancel k h_bs]
  by_cases h_fits : n ≤ (content.blocks.length - k) * reader.blockSize
  · rw [if_pos h_fits, and_iff_right h_fits, Except.ok.injEq, eq_comm]
  · rw [if_neg h_fits]
    exact iff_of_false (fun h => by cases h) fun h => h_fits h.1

/-- The `i`-th of the bytes. -/
theorem getElem?_copied (h_bs : 0 < reader.blockSize) {k n i : ℕ} (hi : i < n) :
    (((concatenation reader.blockSize content.blocks).drop (k * reader.blockSize)).take n)[i]?
      = content.blocks[(k * reader.blockSize + i) / reader.blockSize]?.map fun block : ℤ =>
        block + ((k * reader.blockSize + i) % reader.blockSize : ℕ) := by
  rw [List.getElem?_take_of_lt hi, List.getElem?_drop, getElem?_concatenation h_bs]

/-! ### The number of blocks -/

section Size

variable {size p i : ℕ}

/-- The blocks of a file are enough for it. -/
theorem le_actualBlocks (h_bs : 0 < reader.blockSize) :
    size ≤ actualBlocks reader size * reader.blockSize := by
  have h_div := Nat.div_add_mod (size + reader.blockSize - 1) reader.blockSize
  have h_mod := Nat.mod_lt (size + reader.blockSize - 1) h_bs
  rw [actualBlocks, Nat.mul_comm]
  omega

/-- Each of them is needed. -/
theorem mul_lt_of_lt_actualBlocks (hi : i < actualBlocks reader size) : i * reader.blockSize < size := by
  have h_le : (i + 1) * reader.blockSize ≤ size + reader.blockSize - 1 :=
    le_trans (Nat.mul_le_mul_right _ hi) (Nat.div_mul_le_self _ _)
  rw [Nat.succ_mul] at h_le
  have h_bs : 0 < reader.blockSize := by
    refine Nat.pos_of_ne_zero fun h_zero => ?_
    rw [actualBlocks, h_zero, Nat.div_zero] at hi
    exact Nat.not_lt_zero i hi
  omega

/-- A position within the file is in one of its blocks. -/
theorem div_lt_actualBlocks (h_bs : 0 < reader.blockSize) (h : p < size) :
    p / reader.blockSize < actualBlocks reader size := by
  refine Nat.div_lt_of_lt_mul ?_
  rw [Nat.mul_comm]
  exact lt_of_lt_of_le h (le_actualBlocks h_bs)

end Size

/-! ### Reading a file with holes -/

section Sparse

variable {size : ℕ}

/-- The `i`-th block reads as the block map has it, as far as the file goes, where it is read at the block
`x` of the image. -/
def BlockRight (reader : Ext2Reader) (inode : ℤ) (size i x : ℕ) : Prop :=
  ∀ q < reader.blockSize, i * reader.blockSize + q < size → ∀ o, MapsTo reader inode i o →
    ∃ v, byteAt reader.map (readBlock reader x + q) = some v ∧ blockByte reader o q = some v

/-- If one block is listed for each block of the file, and each reads right, so does the file. -/
theorem readsSparse_of_blocks (h_bs : 0 < reader.blockSize)
    (h_content : getFileContent reader inode = .ok content)
    (h_blocks : ∀ i < actualBlocks reader content.size, ∃ x : ℕ,
      content.blocks[i]? = some (readBlock reader x) ∧ BlockRight reader inode content.size i x)
    (h_len : content.blocks.length = actualBlocks reader content.size) :
    ReadsSparse reader inode := by
  refine ⟨content, h_content, fun k n h_fits => ?_⟩
  have h_enough : n ≤ (content.blocks.length - k) * reader.blockSize := by
    have h_le : content.size ≤ actualBlocks reader content.size * reader.blockSize := le_actualBlocks h_bs
    rw [h_len, Nat.sub_mul]
    omega
  refine ⟨_, (copy_block_eq_ok_iff h_bs).mpr ⟨h_enough, rfl⟩, ?_, fun i hi o ho => ?_⟩
  · rw [List.length_take, List.length_drop, length_concatenation, ← Nat.sub_mul]
    exact Nat.min_eq_left h_enough
  · have h_lt : k * reader.blockSize + i < content.size := by omega
    obtain ⟨x, h_at, h_right⟩ := h_blocks _ (div_lt_actualBlocks h_bs h_lt)
    have h_within : (k * reader.blockSize + i) / reader.blockSize * reader.blockSize
        + (k * reader.blockSize + i) % reader.blockSize < content.size := by
      rw [Nat.mul_comm, Nat.div_add_mod]
      exact h_lt
    obtain ⟨v, h_byte, h_same⟩ := h_right _ (Nat.mod_lt _ h_bs) h_within o ho
    exact ⟨_, v, (getElem?_copied h_bs hi).trans (by rw [h_at]; rfl), h_byte, h_same⟩

/-- If the file reads right, one block has been listed for each of its blocks. -/
theorem le_length_of_reads (h_bs : 0 < reader.blockSize)
    (h : ∀ k n, k * reader.blockSize + n ≤ content.size →
      ∃ copied, copy reader.blockSize content n (k * reader.blockSize) = .ok copied) :
    actualBlocks reader content.size ≤ content.blocks.length := by
  rcases Nat.eq_zero_or_pos (actualBlocks reader content.size) with h_zero | h_pos
  · omega
  · -- the first byte of the last block
    have h_last : (actualBlocks reader content.size - 1) * reader.blockSize < content.size :=
      mul_lt_of_lt_actualBlocks (Nat.sub_lt h_pos Nat.one_pos)
    obtain ⟨copied, h_copy⟩ := h (actualBlocks reader content.size - 1) 1 h_last
    obtain ⟨h_fits, -⟩ := (copy_block_eq_ok_iff h_bs).mp h_copy
    have h_some : 0 < content.blocks.length - (actualBlocks reader content.size - 1) :=
      Nat.pos_of_mul_pos_right (lt_of_lt_of_le Nat.one_pos h_fits)
    omega

/-- What is read in the place of a hole is zero by chance. The pointer that the code comes to, where it
takes a zero pointer for block 0, is not left out, and there are zeros in its block as far as the file
goes. -/
def ZeroByChance (reader : Ext2Reader) (inode : ℤ) (size i : ℕ) : Prop :=
  12 ≤ i ∧ ∃ x : ℕ, pointerAt reader inode i = .ok x
    ∧ (12 + indirectBlockContents reader ≤ i → x ≠ 0)
    ∧ ∀ q < reader.blockSize, i * reader.blockSize + q < size →
      byteAt reader.map (readBlock reader x + q) = some 0

/-- The pointers of an inode that is in the image can be read. -/
theorem exists_block_eq (h_inode : 0 ≤ inode ∧ inode + 128 ≤ reader.map.length) {i : ℕ} (hi : i < 15) :
    ∃ a, block reader.map inode i = .ok a := by
  have h_in : 0 ≤ inode + 40 + 4 * i ∧ inode + 40 + 4 * i + (4 : ℕ) ≤ reader.map.length := by omega
  rw [block, le32, bytes, if_pos h_in]
  exact ⟨_, rfl⟩

/-- A pointer that is not left out is listed. -/
theorem found_eq {i x : ℕ} (h : pointerAt reader inode i = .ok x)
    (h_kept : x ≠ 0 ∨ 12 ≤ i ∧ i < 12 + indirectBlockContents reader) :
    found reader inode i = [readBlock reader x] := by
  rw [found, h]
  refine if_neg fun h_zero => ?_
  rcases h_kept with h_pos | h_indirect
  · exact h_pos h_zero.1
  · exact h_zero.2 h_indirect

/-- A block of the image has bytes. -/
theorem exists_byteAt {b q : ℕ} (h_in : (b + 1) * reader.blockSize ≤ reader.map.length)
    (hq : q < reader.blockSize) : ∃ v, byteAt reader.map (b * reader.blockSize + q) = some v := by
  have h_lt : b * reader.blockSize + q < reader.map.length := by
    rw [Nat.succ_mul] at h_in
    omega
  have h_cast : ((b : ℤ) * reader.blockSize + q).toNat = b * reader.blockSize + q := by
    rw [← Nat.cast_mul, ← Nat.cast_add, Int.toNat_natCast]
  have h_nonneg : 0 ≤ (b : ℤ) * reader.blockSize + q := by
    rw [← Nat.cast_mul, ← Nat.cast_add]
    exact Int.natCast_nonneg _
  rw [byteAt, if_pos h_nonneg, h_cast]
  exact ⟨_, List.getElem?_eq_getElem h_lt⟩

/-- One block at most is listed for a pointer. -/
theorem length_found_le (i : ℕ) : (found reader inode i).length ≤ 1 := by
  rw [found, pushed]
  split <;> simp

/-- Where a block is listed, it is that of the pointer. -/
theorem found_eq_singleton {i : ℕ} {a : ℤ} (h : found reader inode i = [a]) :
    found reader inode i = [readBlock reader (result (pointerAt reader inode i) : ℕ)]
      ∧ (result (pointerAt reader inode i) ≠ 0 ∨ 12 ≤ i ∧ i < 12 + indirectBlockContents reader) := by
  rw [found, pushed] at h ⊢
  split at h
  · cases h
  · next h_kept =>
    rw [if_neg h_kept]
    exact ⟨rfl, or_iff_not_imp_left.mpr fun h_zero =>
      not_not.mp fun h_out => h_kept ⟨not_not.mp h_zero, h_out⟩⟩

/-- A hole among the direct blocks is a zero in the inode. -/
theorem pointerAt_hole {i : ℕ} (h : MapsTo reader inode i none) (hi : i < 12) :
    pointerAt reader inode i = .ok 0 := by
  obtain ⟨n, h_block, h_leads⟩ := h
  rw [route, if_pos hi] at h_block h_leads
  rw [pointerAt_direct hi, h_block]
  cases h_leads
  rfl

/-- **A file with holes reads as it should** just if it needs no triply indirect block and what is read in
the place of its holes is zero by chance. -/
theorem readsSparse_iff (h_bs : 0 < reader.blockSize)
    (h_inode : 0 ≤ inode ∧ inode + 128 ≤ reader.map.length)
    (h_size : sizeLo reader.map inode = .ok size)
    (h_limit : actualBlocks reader size ≤ 12 + indirectBlockContents reader
      + indirectBlockContents reader * indirectBlockContents reader)
    (h_map : ∀ i < actualBlocks reader size, ∃ o, MapsTo reader inode i o
      ∧ ∀ b ∈ o, (b + 1) * reader.blockSize ≤ reader.map.length) :
    ReadsSparse reader inode ↔ actualBlocks reader size < 12 + indirectBlockContents reader
        + indirectBlockContents reader * indirectBlockContents reader
      ∧ ∀ i < actualBlocks reader size, MapsTo reader inode i none → ZeroByChance reader inode size i := by
  constructor
  · rintro ⟨content, h_content, h_read⟩
    obtain ⟨h_size', h_lt, -, -, -, h_readable, h_blocks⟩ := getFileContent_eq_ok_iff.mp h_content
    obtain rfl := Except.ok.inj (h_size'.symm.trans h_size)
    refine ⟨h_lt, fun i hi h_hole => ?_⟩
    -- none of the pointers has been left out
    have h_len := le_length_of_reads h_bs fun k n h_fits =>
      let ⟨copied, h_copy, _⟩ := h_read k n h_fits
      ⟨copied, h_copy⟩
    rw [h_blocks] at h_len
    have h_found := fun j hj =>
      let ⟨_, h_one⟩ := exists_of_length_le (fun j _ => length_found_le j) h_len j hj
      found_eq_singleton h_one
    have h_at : content.blocks[i]? = some (readBlock reader (result (pointerAt reader inode i) : ℕ)) := by
      rw [h_blocks]
      exact getElem?_collected (fun j hj => (h_found j hj).1) hi
    obtain ⟨-, h_kept⟩ := h_found i hi
    refine ⟨?_, _, h_readable i hi, fun h_le => h_kept.resolve_right (by omega), fun q hq h_within => ?_⟩
    · by_contra h_direct
      have h_pointer := pointerAt_hole h_hole (Nat.lt_of_not_le h_direct)
      rw [h_pointer] at h_kept
      exact h_kept.elim (fun h => h rfl) fun h => h_direct h.1
    · -- the bytes of the block up to this one
      obtain ⟨copied, h_copy, -, h_bytes⟩ := h_read i (q + 1) h_within
      obtain ⟨-, rfl⟩ := (copy_block_eq_ok_iff h_bs).mp h_copy
      have h_div : (i * reader.blockSize + q) / reader.blockSize = i := by
        rw [Nat.mul_comm, Nat.mul_add_div h_bs, Nat.div_eq_of_lt hq, Nat.add_zero]
      have h_mod : (i * reader.blockSize + q) % reader.blockSize = q := Nat.mul_add_mod_of_lt hq
      obtain ⟨a, v, h_copied, h_byte, h_zero⟩ := h_bytes q (Nat.lt_succ_self q) none (by rwa [h_div])
      rw [getElem?_copied h_bs (Nat.lt_succ_self q), h_div, h_mod, h_at, Option.map_some] at h_copied
      rw [Option.some.inj h_copied, h_byte]
      exact h_zero.symm
  · rintro ⟨h_lt, h_holes⟩
    -- the pointer of each block can be read and is listed, and what is read there is right
    have h_each : ∀ i < actualBlocks reader size, ∃ x : ℕ, pointerAt reader inode i = .ok x
        ∧ found reader inode i = [readBlock reader x] ∧ BlockRight reader inode size i x := by
      intro i hi
      obtain ⟨o, ho, h_in⟩ := h_map i hi
      cases o with
      | none =>
        obtain ⟨h_direct, x, h_pointer, h_doubly, h_zero⟩ := h_holes i hi ho
        refine ⟨x, h_pointer, found_eq h_pointer ?_, fun q hq h_within o' ho' => ?_⟩
        · by_cases h_le : 12 + indirectBlockContents reader ≤ i
          · exact .inl (h_doubly h_le)
          · exact .inr ⟨h_direct, Nat.lt_of_not_le h_le⟩
        · obtain rfl := ho.unique ho'
          exact ⟨0, h_zero q hq h_within, rfl⟩
      | some b =>
        obtain ⟨h_pointer, h_pos, h_int⟩ := pointerAt_of_mapsTo ho
        refine ⟨b, h_pointer, found_eq h_pointer (.inl h_pos), fun q hq _ o' ho' => ?_⟩
        obtain rfl := ho.unique ho'
        obtain ⟨v, hv⟩ := exists_byteAt (h_in b rfl) hq
        rw [readBlock_of_lt h_int]
        exact ⟨v, hv, hv⟩
    have h_found : ∀ i < actualBlocks reader size, found reader inode i
        = [readBlock reader (result (pointerAt reader inode i) : ℕ)] := by
      intro i hi
      obtain ⟨x, h_pointer, h_one, -⟩ := h_each i hi
      rw [h_one, h_pointer]
      rfl
    have h_content : getFileContent reader inode
        = .ok ⟨size, (List.range (actualBlocks reader size)).flatMap (found reader inode)⟩ := by
      refine getFileContent_eq_ok_iff.mpr ⟨h_size, h_lt, fun i hi => ?_,
        fun _ => exists_block_eq h_inode (by omega), fun _ => exists_block_eq h_inode (by omega),
        fun i hi => ?_, rfl⟩
      · obtain ⟨a, ha⟩ := exists_block_eq h_inode (i := i) (by omega)
        rw [pointerAt_direct hi, ha]
        rfl
      · obtain ⟨x, h_pointer, -⟩ := h_each i hi
        rw [h_pointer]
        rfl
    refine readsSparse_of_blocks h_bs h_content (fun i hi => ?_) (length_collected h_found)
    obtain ⟨x, h_pointer, -, h_right⟩ := h_each i hi
    refine ⟨x, ?_, h_right⟩
    rw [getElem?_collected h_found hi, h_pointer]
    rfl

/-- An image with an empty block 0 and an inode in block 1, of a file with 13 blocks: 12 times block 1, and
a hole, whose pointer is in block 2. -/
def holeBehind : Ext2Reader :=
  ⟨List.replicate 1024 0 ++ ([0, 0, 0, 0, 0, 52, 0, 0] ++ List.replicate 32 0
    ++ ((List.range 12).flatMap fun _ => [1, 0, 0, 0]) ++ [2, 0, 0, 0] ++ List.replicate 1956 0),
    1024, 0, 0, 0⟩

theorem readsSparse_holeBehind : ReadsSparse holeBehind 1024 := by
  have h_direct : ∀ i < 12, block holeBehind.map 1024 i = .ok 1 := by decide +kernel
  have h_slot : block holeBehind.map 1024 12 = .ok 2 := by decide +kernel
  have h_entry : le32 holeBehind.map ((2 : ℕ) * (1024 : ℕ) + 4 * (0 : ℕ)) = .ok 0 := by decide +kernel
  have h_some : ∀ i < 12, MapsTo holeBehind 1024 i (some 1) := by
    intro i hi
    refine ⟨1, ?_, ?_⟩
    · rw [route, if_pos hi]
      exact h_direct i hi
    · rw [route, if_pos hi]
      exact .block (by decide) (by decide)
  have h_none : MapsTo holeBehind 1024 12 none :=
    ⟨2, h_slot, .indirect (by decide) (by decide) h_entry .hole⟩
  have h_size : sizeLo holeBehind.map 1024 = .ok 13312 := by decide +kernel
  refine (readsSparse_iff (by decide) (by decide +kernel) h_size (by decide) fun i hi => ?_).mpr
    ⟨by decide, fun i hi h_hole => ?_⟩
  · have h_lt : i < 13 := hi
    rcases Nat.lt_succ_iff_lt_or_eq.mp h_lt with h_lt | rfl
    · refine ⟨_, h_some i h_lt, fun b hb => ?_⟩
      obtain rfl := Option.some.inj hb
      decide +kernel
    · exact ⟨_, h_none, fun b hb => by cases hb⟩
  · have h_lt : i < 13 := hi
    rcases Nat.lt_succ_iff_lt_or_eq.mp h_lt with h_lt | rfl
    · cases (h_some i h_lt).unique h_hole
    · have h_zero : ∀ q : ℕ, q < 1024 → byteAt holeBehind.map (readBlock holeBehind (0 : ℕ) + q) = some 0 := by
        intro q hq
        rw [readBlock_of_lt (by decide), Nat.cast_zero, zero_mul, zero_add, byteAt,
          if_pos (Int.natCast_nonneg q), Int.toNat_natCast]
        exact (List.getElem?_append_left (by rwa [List.length_replicate])).trans
          (List.getElem?_replicate_of_lt hq)
      exact ⟨le_rfl, 0, by decide +kernel, fun h_le => absurd h_le (by decide), fun q hq _ => h_zero q hq⟩

end Sparse

/-- A file with 2 blocks, of which the first is a hole and the second is block 1. -/
def holeBefore : Ext2Reader :=
  ⟨[0, 0, 0, 0, 0, 8, 0, 0] ++ List.replicate 32 0 ++ [0, 0, 0, 0, 1, 0, 0, 0] ++ List.replicate 976 0
    ++ List.replicate 1024 7, 1024, 0, 0, 0⟩

/-- The hole is read as block 1. -/
theorem not_readsSparse_holeBefore : ¬ ReadsSparse holeBefore 0 := by
  rintro ⟨content, h_content, h_read⟩
  have h_run : getFileContent holeBefore 0 = .ok ⟨2048, [1024]⟩ := by decide +kernel
  obtain rfl := Except.ok.inj (h_run.symm.trans h_content)
  have h_copy : copy 1024 ⟨2048, [1024]⟩ 1 0 = .ok [1024] := by decide +kernel
  obtain ⟨copied, h_copied, -, h_bytes⟩ := h_read 0 1 (by decide)
  obtain rfl := Except.ok.inj (h_copy.symm.trans h_copied)
  have h_hole : MapsTo holeBefore 0 0 none :=
    ⟨0, by decide +kernel, .hole⟩
  obtain ⟨a, v, h_at, h_byte, h_zero⟩ := h_bytes 0 Nat.one_pos none h_hole
  obtain rfl : (1024 : ℤ) = a := Option.some.inj h_at
  have h_seven : byteAt holeBefore.map 1024 = some 7 := by decide +kernel
  obtain rfl : (7 : UInt8) = v := Option.some.inj (h_seven.symm.trans h_byte)
  cases h_zero

end GitlstreeFS.Ext2
