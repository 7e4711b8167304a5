import GitlstreeFS.Ext2.Sparse

/-!
# The size limit of `GetFileContent`

An inode without a triply indirect block has room for `12 + p + p * p` blocks. `GetFileContent` lists that
many, but then asserts that there are fewer: a file that needs exactly so many blocks ends the process
(`getFileContent_limit`).

The assertion comes last. Before it nothing can fail but a pointer that is not in the image, which
`FailsUnmapped` says of each of the loops.
-/

namespace GitlstreeFS.Ext2

open Blocks

variable {reader : Ext2Reader} {inode : ℤ} {α β : Type}

/-! ### What fails before the assertion -/

/-- Nothing goes wrong, other than that something is not part of the image. -/
def FailsUnmapped (x : Except Fault α) : Prop :=
  ∀ e, x = .error e → e = .unmapped

theorem failsUnmapped_ok (a : α) : FailsUnmapped (.ok a) := by
  rintro e ⟨⟩

theorem FailsUnmapped.bind {x : Except Fault α} {f : α → Except Fault β} (h : FailsUnmapped x)
    (hf : ∀ a, FailsUnmapped (f a)) : FailsUnmapped (x >>= f) := by
  intro e h_error
  obtain h_first | ⟨a, -, h_second⟩ := bind_eq_error_iff.mp h_error
  · exact h e h_first
  · exact hf a e h_second

theorem failsUnmapped_collect {f : ℕ → Except Fault (List α)} (h : ∀ i, FailsUnmapped (f i)) (n : ℕ) :
    FailsUnmapped (collect f n) := by
  intro e h_error
  obtain ⟨i, -, h_run⟩ := exists_of_collect_eq_error h_error
  exact h i e h_run

theorem failsUnmapped_le32 (m : Str) (c : ℤ) : FailsUnmapped (le32 m c) := by
  refine FailsUnmapped.bind ?_ fun s => failsUnmapped_ok _
  intro e h
  rw [bytes] at h
  split at h
  · cases h
  · exact (Except.error.inj h).symm

theorem failsUnmapped_directBlocks (n : ℕ) : FailsUnmapped (directBlocks reader inode n) :=
  failsUnmapped_collect (fun _ => (failsUnmapped_le32 _ _).bind fun _ => failsUnmapped_ok _) 12

theorem failsUnmapped_indirectBlocks (n : ℕ) : FailsUnmapped (indirectBlocks reader inode n) := by
  rw [indirectBlocks]
  split
  · exact (failsUnmapped_le32 _ _).bind fun _ => failsUnmapped_collect
      (fun _ => (failsUnmapped_le32 _ _).bind fun _ => failsUnmapped_ok _) _
  · exact failsUnmapped_ok _

theorem failsUnmapped_doublyIndirectBlocks (n : ℕ) :
    FailsUnmapped (doublyIndirectBlocks reader inode n) := by
  rw [doublyIndirectBlocks]
  split
  · exact (failsUnmapped_le32 _ _).bind fun _ => failsUnmapped_collect
      (fun _ => (failsUnmapped_le32 _ _).bind fun _ => (failsUnmapped_le32 _ _).bind fun _ =>
        failsUnmapped_ok _) _
  · exact failsUnmapped_ok _

/-! ### The limit -/

/-- The number of blocks that an inode has room for, as long as it has no triply indirect block. -/
def blockLimit (reader : Ext2Reader) : ℕ :=
  12 + indirectBlockContents reader + indirectBlockContents reader * indirectBlockContents reader

/-- The pointers of a file with `n` blocks are part of the image: those of the inode, and those that they
lead to. -/
structure PointersMapped (reader : Ext2Reader) (inode : ℤ) (n : ℕ) : Prop where
  direct : Readable reader inode 12
  indirect : 12 ≤ n → ∃ a, block reader.map inode 12 = .ok a
  doubly : 12 + indirectBlockContents reader ≤ n → ∃ a, block reader.map inode 13 = .ok a
  readable : Readable reader inode n

/-- In an inode of the image it is enough to ask where its pointers lead. -/
theorem pointersMapped_of_readable (h_inode : 0 ≤ inode ∧ inode + 128 ≤ reader.map.length) {n : ℕ}
    (h : Readable reader inode n) : PointersMapped reader inode n := by
  refine ⟨fun i hi => ?_, fun _ => exists_block_eq h_inode (by decide),
    fun _ => exists_block_eq h_inode (by decide), h⟩
  obtain ⟨a, h_a⟩ := exists_block_eq (i := i) h_inode (by omega)
  rw [pointerAt_direct hi, h_a]
  rfl

/-- The three loops come to their ends just if the pointers are part of the image. -/
theorem loops_eq_ok_iff {n : ℕ} (h_limit : n ≤ blockLimit reader) :
    (∃ direct indirect doubly, directBlocks reader inode n = .ok direct
      ∧ indirectBlocks reader inode n = .ok indirect
      ∧ doublyIndirectBlocks reader inode n = .ok doubly) ↔ PointersMapped reader inode n := by
  constructor
  · rintro ⟨direct, indirect, doubly, h₁, h₂, h₃⟩
    obtain ⟨h_read₁, -⟩ := directBlocks_eq_ok_iff.mp h₁
    obtain ⟨h_slot₁, h_read₂, -⟩ := indirectBlocks_eq_ok_iff.mp h₂
    obtain ⟨h_slot₂, h_read₃, -⟩ := (doublyIndirectBlocks_eq_ok_iff h_limit).mp h₃
    exact ⟨h_read₁, h_slot₁, h_slot₂, (readable_iff n (indirectBlockContents reader)).mpr
      ⟨fun i hi => h_read₁ i (by omega), h_read₂, h_read₃⟩⟩
  · intro h
    obtain ⟨-, h_read₂, h_read₃⟩ := (readable_iff n (indirectBlockContents reader)).mp h.readable
    exact ⟨_, _, _, directBlocks_eq_ok_iff.mpr ⟨h.direct, rfl⟩,
      indirectBlocks_eq_ok_iff.mpr ⟨h.indirect, h_read₂, rfl⟩,
      (doublyIndirectBlocks_eq_ok_iff h_limit).mpr ⟨h.doubly, h_read₃, rfl⟩⟩

/-- How `GetFileContent` ends once the loops have come to their ends. -/
theorem getFileContent_eq_of_mapped {size : ℕ} (h_size : sizeLo reader.map inode = .ok size)
    (h_limit : actualBlocks reader size ≤ blockLimit reader)
    (h : PointersMapped reader inode (actualBlocks reader size)) :
    ∃ blocks, getFileContent reader inode
      = if blockLimit reader ≤ actualBlocks reader size then .error .assertion else .ok ⟨size, blocks⟩ := by
  obtain ⟨direct, indirect, doubly, h₁, h₂, h₃⟩ := (loops_eq_ok_iff h_limit).mpr h
  refine ⟨direct ++ indirect ++ doubly, ?_⟩
  rw [getFileContent, h_size, ok_bind]
  dsimp only
  rw [h₁, ok_bind, h₂, ok_bind, h₃, ok_bind]
  rfl

/-- If it returns, or comes to the assertion, the loops have come to their ends. -/
theorem mapped_of_getFileContent {size : ℕ} (h_size : sizeLo reader.map inode = .ok size)
    (h_limit : actualBlocks reader size ≤ blockLimit reader)
    (h : getFileContent reader inode ≠ .error .unmapped) :
    PointersMapped reader inode (actualBlocks reader size) := by
  rw [← loops_eq_ok_iff h_limit]
  rw [getFileContent, h_size, ok_bind] at h
  dsimp only at h
  cases h₁ : directBlocks reader inode (actualBlocks reader size) with
  | error e => exact absurd (by rw [h₁, failsUnmapped_directBlocks _ e h₁]; rfl) h
  | ok direct =>
    cases h₂ : indirectBlocks reader inode (actualBlocks reader size) with
    | error e => exact absurd (by rw [h₁, ok_bind, h₂, failsUnmapped_indirectBlocks _ e h₂]; rfl) h
    | ok indirect =>
      cases h₃ : doublyIndirectBlocks reader inode (actualBlocks reader size) with
      | error e =>
        exact absurd
          (by rw [h₁, ok_bind, h₂, ok_bind, h₃, failsUnmapped_doublyIndirectBlocks _ e h₃]; rfl) h
      | ok doubly => exact ⟨direct, indirect, doubly, rfl, rfl, rfl⟩

/-- **The size limit.** Of the files that need no triply indirect block, `GetFileContent` returns the content
of those whose pointers are in the image, but for the largest: with `12 + p + p * p` blocks it comes to its
assertion. -/
theorem getFileContent_limit (reader : Ext2Reader) (inode : ℤ) (size : ℕ)
    (h_size : sizeLo reader.map inode = .ok size)
    (h_limit : actualBlocks reader size ≤ blockLimit reader) :
    ((∃ content, getFileContent reader inode = .ok content) ↔
        PointersMapped reader inode (actualBlocks reader size)
          ∧ actualBlocks reader size ≠ blockLimit reader)
      ∧ (getFileContent reader inode = .error .assertion ↔
        PointersMapped reader inode (actualBlocks reader size)
          ∧ actualBlocks reader size = blockLimit reader) := by
  by_cases h_mapped : PointersMapped reader inode (actualBlocks reader size)
  · obtain ⟨blocks, h_eq⟩ := getFileContent_eq_of_mapped h_size h_limit h_mapped
    rw [h_eq, and_iff_right h_mapped, and_iff_right h_mapped]
    by_cases h_last : actualBlocks reader size = blockLimit reader
    · rw [if_pos h_last.ge]
      exact ⟨iff_of_false (by rintro ⟨content, ⟨⟩⟩) fun h => h h_last, iff_of_true rfl h_last⟩
    · rw [if_neg fun h_le => h_last (le_antisymm h_limit h_le)]
      exact ⟨iff_of_true ⟨_, rfl⟩ h_last, iff_of_false (by rintro ⟨⟩) h_last⟩
  · have h_unmapped : getFileContent reader inode = .error .unmapped := by
      by_contra h
      exact h_mapped (mapped_of_getFileContent h_size h_limit h)
    rw [h_unmapped]
    exact ⟨iff_of_false (by rintro ⟨content, ⟨⟩⟩) fun h => h_mapped h.1,
      iff_of_false (by rintro ⟨⟩) fun h => h_mapped h.1⟩

/-- The file with 13 blocks is far from the limit. -/
theorem getFileContent_limit_thirteen :
    ((∃ content, getFileContent thirteenBlocks 0 = .ok content) ↔
        PointersMapped thirteenBlocks 0 (actualBlocks thirteenBlocks 12289)
          ∧ actualBlocks thirteenBlocks 12289 ≠ blockLimit thirteenBlocks)
      ∧ (getFileContent thirteenBlocks 0 = .error .assertion ↔
        PointersMapped thirteenBlocks 0 (actualBlocks thirteenBlocks 12289)
          ∧ actualBlocks thirteenBlocks 12289 = blockLimit thirteenBlocks) :=
  getFileContent_limit thirteenBlocks 0 12289 (by decide +kernel) (by decide)

/-- The bytes of an empty area at the beginning of an image. -/
theorem bytes_replicate {k a n : ℕ} (h : a + n ≤ k) (v : UInt8) (rest : Str) :
    bytes (List.replicate k v ++ rest) (a : ℤ) n = .ok (List.replicate n v) := by
  have h_length : (a : ℤ) + n ≤ (List.replicate k v ++ rest).length := by
    rw [List.length_append, List.length_replicate]
    omega
  have h_drop : n ≤ (List.replicate (k - a) v).length := by
    rw [List.length_replicate]
    omega
  rw [bytes, if_pos ⟨Int.natCast_nonneg a, h_length⟩, Int.toNat_natCast,
    List.drop_append_of_le_length (by rw [List.length_replicate]; omega), List.drop_replicate,
    List.take_append_of_le_length h_drop, List.take_replicate, Nat.min_eq_left (by omega)]

/-- An image with an empty block 0 and an inode in block 1, of a file with 65804 blocks of 1024 bytes each.
All of them are holes. -/
def largestFile : Ext2Reader :=
  ⟨List.replicate 1024 0 ++ ([0, 0, 0, 0, 0, 48, 4, 4] ++ List.replicate 1016 0), 1024, 0, 0, 0⟩

/-- Every pointer of the file is zero. -/
theorem pointerAt_largestFile {i : ℕ} (hi : i < 65804) : pointerAt largestFile 1024 i = .ok 0 := by
  have h_block : ∀ j < 15, block largestFile.map 1024 j = .ok 0 := by decide +kernel
  have h_entry : ∀ j < 256, le32 largestFile.map (readBlock largestFile (0 : ℕ) + 4 * (j : ℕ)) = .ok 0 := by
    intro j hj
    -- block 0 is empty
    have h_address : readBlock largestFile (0 : ℕ) + 4 * (j : ℕ) = ((4 * j : ℕ) : ℤ) := by
      have h_zero : readBlock largestFile (0 : ℕ) = 0 := by decide
      omega
    rw [h_address, le32, largestFile, bytes_replicate (by omega)]
    rfl
  have h_p : indirectBlockContents largestFile = 256 := rfl
  by_cases h₁ : i < 12
  · rw [pointerAt_direct h₁]
    exact h_block i (by omega)
  obtain ⟨j, rfl⟩ := Nat.exists_eq_add_of_le (Nat.le_of_not_lt h₁)
  by_cases h₂ : j < 256
  · rw [pointerAt_indirect (by rwa [h_p]) (h_block 12 (by decide))]
    exact h_entry j h₂
  obtain ⟨k, rfl⟩ := Nat.exists_eq_add_of_le (Nat.le_of_not_lt h₂)
  have h_eq : 12 + (256 + k) = 12 + indirectBlockContents largestFile + k := by omega
  rw [h_eq, pointerAt_doubly k (h_block 13 (by decide)), h_p, h_entry _ (by omega), ok_bind]
  exact h_entry _ (Nat.mod_lt k (by decide))

/-- The largest file that needs no triply indirect block ends the process. -/
theorem largestFile_assertion :
    sizeLo largestFile.map 1024 = .ok 67383296
      ∧ actualBlocks largestFile 67383296 = blockLimit largestFile
      ∧ ¬ ∃ content, getFileContent largestFile 1024 = .ok content := by
  have h_size : sizeLo largestFile.map 1024 = .ok 67383296 := by decide +kernel
  have h_blocks : actualBlocks largestFile 67383296 = blockLimit largestFile := by decide
  refine ⟨h_size, h_blocks, ?_⟩
  have h_mapped : PointersMapped largestFile 1024 (actualBlocks largestFile 67383296) := by
    refine pointersMapped_of_readable (by decide +kernel) fun i hi => ?_
    rw [pointerAt_largestFile hi]
    rfl
  obtain ⟨blocks, h_eq⟩ := getFileContent_eq_of_mapped h_size h_blocks.le h_mapped
  rw [h_eq, if_pos h_blocks.ge]
  rintro ⟨content, ⟨⟩⟩

end GitlstreeFS.Ext2
