import GitlstreeFS.Ext2.Read

/-!
# The block map of a file

An inode has pointers to the first 12 blocks of a file, and one to a block of `p` pointers to the next
ones, and one to a block of `p` pointers to such blocks (`route`). `MapsTo` is what they say by the rules
of ext2: a zero pointer stands for a hole, whether it is the one of a block of the file or one of a block
of pointers.

`GetFileContent` goes over these in three loops, which are one loop over the blocks of the file
(`getFileContent_eq_ok_iff`): it follows zero pointers to block 0 like others, and the list that it makes
leaves out the zero pointers that it comes to, but not those of the indirect block.
-/

namespace GitlstreeFS.Ext2

open Blocks

variable {reader : Ext2Reader} {inode : ℤ} {content : FileContent}

/-! ### What the pointers say -/

/-- Where the pointer to the `i`-th block of a file is: the entry of `block`, and behind it the entries of
the blocks of pointers. -/
def route (p i : ℕ) : ℕ × List ℕ :=
  if i < 12 then (i, [])
  else if i < 12 + p then (12, [i - 12])
  else (13, [(i - 12 - p) / p, (i - 12 - p) % p])

/-- The pointer `n`, and those that it leads to, lead to the block of the file, or to a hole if it is
`none`. The numbers of blocks are below 2^31. -/
inductive Leads (m : Str) (bs : ℕ) : ℕ → List ℕ → Option ℕ → Prop where
  | hole {path : List ℕ} : Leads m bs 0 path none
  | block {n : ℕ} (h_pos : n ≠ 0) (h_int : n < 0x80000000) : Leads m bs n [] (some n)
  | indirect {n n' i : ℕ} {path : List ℕ} {o : Option ℕ} (h_pos : n ≠ 0) (h_int : n < 0x80000000)
      (h_entry : le32 m (n * bs + 4 * i) = .ok n') (h_leads : Leads m bs n' path o) :
      Leads m bs n (i :: path) o

/-- **The block map**: the `i`-th block of the file is the block `o` of the image, or a hole. -/
def MapsTo (reader : Ext2Reader) (inode : ℤ) (i : ℕ) (o : Option ℕ) : Prop :=
  ∃ n, block reader.map inode (route (indirectBlockContents reader) i).1 = .ok n
    ∧ Leads reader.map reader.blockSize n (route (indirectBlockContents reader) i).2 o

/-! ### What the code follows -/

/-- The pointer at the end of a path, where a zero is taken for block 0. -/
def follow (reader : Ext2Reader) : ℕ → List ℕ → Except Fault ℕ
  | n, [] => .ok n
  | n, i :: path => do follow reader (← le32 reader.map (readBlock reader n + 4 * i)) path

/-- The pointer that is taken for that of the `i`-th block. -/
def pointerAt (reader : Ext2Reader) (inode : ℤ) (i : ℕ) : Except Fault ℕ := do
  let n ← block reader.map inode (route (indirectBlockContents reader) i).1
  follow reader n (route (indirectBlockContents reader) i).2

/-- What is appended to `blocks` for the pointer `x` of the `i`-th block. -/
def pushed (reader : Ext2Reader) (i x : ℕ) : List ℤ :=
  if x = 0 ∧ ¬ (12 ≤ i ∧ i < 12 + indirectBlockContents reader) then [] else [readBlock reader x]

theorem follow_single (n i : ℕ) :
    follow reader n [i] = le32 reader.map (readBlock reader n + 4 * i) := by
  rw [follow]
  cases le32 reader.map (readBlock reader n + 4 * i) <;> rfl

theorem readBlock_of_lt {n : ℕ} (h : n < 0x80000000) :
    readBlock reader n = n * reader.blockSize := by
  rw [readBlock, toInt_of_fits ⟨by omega, by omega⟩]

/-- Where no pointer is zero, the code follows them as it should. -/
theorem follow_of_leads {n b : ℕ} {path : List ℕ}
    (h : Leads reader.map reader.blockSize n path (some b)) :
    follow reader n path = .ok b ∧ b ≠ 0 ∧ b < 0x80000000 := by
  generalize ho : some b = o at h
  induction h with
  | hole => cases ho
  | block h_pos h_int =>
    cases ho
    exact ⟨rfl, h_pos, h_int⟩
  | indirect h_pos h_int h_entry h_leads ih =>
    rw [follow, readBlock_of_lt h_int, h_entry]
    exact ih ho

theorem pointerAt_of_mapsTo {i b : ℕ} (h : MapsTo reader inode i (some b)) :
    pointerAt reader inode i = .ok b ∧ b ≠ 0 ∧ b < 0x80000000 := by
  obtain ⟨n, h_block, h_leads⟩ := h
  rw [pointerAt, h_block]
  exact follow_of_leads h_leads

/-! ### The three loops -/

section Loops

variable {actual_blocks : ℕ} {l : List ℤ}

theorem pointerAt_direct {i : ℕ} (hi : i < 12) :
    pointerAt reader inode i = block reader.map inode i := by
  rw [pointerAt, route, if_pos hi]
  cases block reader.map inode i <;> rfl

theorem pointerAt_indirect {i : ℕ} (hi : i < indirectBlockContents reader) {a : ℕ}
    (ha : block reader.map inode 12 = .ok a) :
    pointerAt reader inode (12 + i) = le32 reader.map (readBlock reader a + 4 * i) := by
  rw [pointerAt, route, if_neg (by omega), if_pos (by omega), ha, ok_bind, Nat.add_sub_cancel_left,
    follow_single]

theorem pointerAt_doubly (i : ℕ) {a : ℕ} (ha : block reader.map inode 13 = .ok a) :
    pointerAt reader inode (12 + indirectBlockContents reader + i)
      = le32 reader.map (readBlock reader a + 4 * (i / indirectBlockContents reader : ℕ)) >>= fun n =>
        le32 reader.map (readBlock reader n + 4 * (i % indirectBlockContents reader : ℕ)) := by
  have h_j : 12 + indirectBlockContents reader + i - 12 - indirectBlockContents reader = i := by omega
  rw [pointerAt, route, if_neg (by omega), if_neg (by omega), ha, ok_bind, h_j, follow]
  simp only [follow_single]

/-- The first `n` of the pointers can be read. -/
def Readable (reader : Ext2Reader) (inode : ℤ) (n : ℕ) : Prop :=
  ∀ i < n, pointerAt reader inode i = .ok (result (pointerAt reader inode i))

/-- What is appended for the `i`-th block. -/
def found (reader : Ext2Reader) (inode : ℤ) (i : ℕ) : List ℤ :=
  pushed reader i (result (pointerAt reader inode i))

theorem directBlocks_eq_ok_iff :
    directBlocks reader inode actual_blocks = .ok l ↔ Readable reader inode 12
      ∧ l = (List.range (min 12 actual_blocks)).flatMap (found reader inode) := by
  rw [directBlocks, collect_result_eq_ok_iff (e := fun i => block reader.map inode i)
    (g := fun i (n : ℕ) => if n ≠ 0 ∧ i < actual_blocks then [readBlock reader n] else [])]
  have h_direct : ∀ i < 12, block reader.map inode i = pointerAt reader inode i :=
    fun i hi => (pointerAt_direct hi).symm
  -- the loop goes on behind the end of the file, where it appends nothing
  have h_list : ((List.range 12).flatMap fun i =>
      if result (block reader.map inode i) ≠ 0 ∧ i < actual_blocks then
        [readBlock reader (result (block reader.map inode i) : ℕ)] else [])
      = (List.range (min 12 actual_blocks)).flatMap (found reader inode) := by
    have h_split : 12 = min 12 actual_blocks + (12 - actual_blocks) := by omega
    conv_lhs => rw [h_split]
    rw [flatMap_range_add]
    have h_behind : ((List.range (12 - actual_blocks)).flatMap fun i =>
        if result (block reader.map inode (min 12 actual_blocks + i)) ≠ 0
            ∧ min 12 actual_blocks + i < actual_blocks then
          [readBlock reader (result (block reader.map inode (min 12 actual_blocks + i)) : ℕ)]
        else []) = [] := by
      rw [List.flatMap_eq_nil_iff]
      intro i hi
      rw [List.mem_range] at hi
      exact if_neg fun h => by omega
    rw [h_behind, List.append_nil]
    refine List.flatMap_congr fun i hi => ?_
    rw [List.mem_range] at hi
    rw [found, pushed, h_direct i (by omega)]
    -- before it, a block is appended unless its pointer is zero
    by_cases h_zero : result (pointerAt reader inode i) = 0
    · rw [if_neg fun h => h.1 h_zero, if_pos ⟨h_zero, fun h => by omega⟩]
    · rw [if_pos ⟨h_zero, by omega⟩, if_neg fun h => h_zero h.1]
  rw [h_list]
  constructor
  · rintro ⟨h_run, h_eq⟩
    exact ⟨fun i hi => h_direct i hi ▸ h_run i hi, h_eq⟩
  · rintro ⟨h_run, h_eq⟩
    exact ⟨fun i hi => (h_direct i hi).symm ▸ h_run i hi, h_eq⟩

theorem indirectBlocks_eq_ok_iff :
    indirectBlocks reader inode actual_blocks = .ok l
      ↔ (12 ≤ actual_blocks → ∃ a, block reader.map inode 12 = .ok a)
        ∧ (∀ i < min (indirectBlockContents reader) (actual_blocks - 12),
          pointerAt reader inode (12 + i) = .ok (result (pointerAt reader inode (12 + i))))
        ∧ l = (List.range (min (indirectBlockContents reader) (actual_blocks - 12))).flatMap
          fun i => found reader inode (12 + i) := by
  by_cases h_reached : 12 ≤ actual_blocks
  swap
  · have h_none : min (indirectBlockContents reader) (actual_blocks - 12) = 0 := by omega
    rw [indirectBlocks, if_neg h_reached, h_none]
    exact ⟨fun h => ⟨fun h_le => absurd h_le h_reached, fun i hi => absurd hi (Nat.not_lt_zero i),
      (Except.ok.inj h).symm⟩, fun h => congrArg Except.ok h.2.2.symm⟩
  rw [indirectBlocks, if_pos h_reached]
  rcases ha : block reader.map inode 12 with e | a
  · rw [error_bind]
    exact iff_of_false (fun h => by cases h) fun h => by obtain ⟨a, h_a⟩ := h.1 h_reached; cases h_a
  rw [and_iff_right fun _ => ⟨a, rfl⟩, ok_bind, collect_result_eq_ok_iff
    (e := fun i : ℕ => le32 reader.map (readBlock reader a + 4 * i))
    (g := fun i (n : ℕ) => [readBlock reader n])]
  have h_pointer : ∀ i < min (indirectBlockContents reader) (actual_blocks - 12),
      le32 reader.map (readBlock reader a + 4 * i) = pointerAt reader inode (12 + i) :=
    fun i hi => (pointerAt_indirect (lt_of_lt_of_le hi (Nat.min_le_left _ _)) ha).symm
  refine and_congr (forall₂_congr fun i hi => by rw [h_pointer i hi]) (Eq.congr_right ?_)
  refine List.flatMap_congr fun i hi => ?_
  rw [List.mem_range] at hi
  -- a zero pointer is not left out here
  rw [h_pointer i hi, found, pushed, if_neg fun h => h.2 (by omega)]

theorem doublyIndirectBlocks_eq_ok_iff
    (h_limit : actual_blocks ≤ 12 + indirectBlockContents reader
      + indirectBlockContents reader * indirectBlockContents reader) :
    doublyIndirectBlocks reader inode actual_blocks = .ok l
      ↔ (12 + indirectBlockContents reader ≤ actual_blocks → ∃ a, block reader.map inode 13 = .ok a)
        ∧ (∀ i < actual_blocks - 12 - indirectBlockContents reader,
          pointerAt reader inode (12 + indirectBlockContents reader + i)
            = .ok (result (pointerAt reader inode (12 + indirectBlockContents reader + i))))
        ∧ l = (List.range (actual_blocks - 12 - indirectBlockContents reader)).flatMap
          fun i => found reader inode (12 + indirectBlockContents reader + i) := by
  -- the limit makes the minimum the number of blocks that are left
  have h_min : min (indirectBlockContents reader * indirectBlockContents reader)
      (actual_blocks - 12 - indirectBlockContents reader)
      = actual_blocks - 12 - indirectBlockContents reader := by omega
  by_cases h_reached : 12 + indirectBlockContents reader ≤ actual_blocks
  swap
  · have h_none : actual_blocks - 12 - indirectBlockContents reader = 0 := by omega
    rw [doublyIndirectBlocks, if_neg h_reached, h_none]
    exact ⟨fun h => ⟨fun h_le => absurd h_le h_reached, fun i hi => absurd hi (Nat.not_lt_zero i),
      (Except.ok.inj h).symm⟩, fun h => congrArg Except.ok h.2.2.symm⟩
  rw [doublyIndirectBlocks, if_pos h_reached]
  rcases ha : block reader.map inode 13 with e | a
  · rw [error_bind]
    exact iff_of_false (fun h => by cases h) fun h => by obtain ⟨a, h_a⟩ := h.1 h_reached; cases h_a
  -- the two reads of a run are one computation
  have h_run : ∀ i : ℕ, (le32 reader.map (readBlock reader a + 4 * (i / indirectBlockContents reader : ℕ))
        >>= fun b => le32 reader.map (readBlock reader b + 4 * (i % indirectBlockContents reader : ℕ))
        >>= fun n => pure (if n ≠ 0 then [readBlock reader n] else []))
      = pointerAt reader inode (12 + indirectBlockContents reader + i)
        >>= fun n => pure (if n ≠ 0 then [readBlock reader n] else []) := by
    intro i
    rw [pointerAt_doubly i ha]
    cases le32 reader.map (readBlock reader a + 4 * (i / indirectBlockContents reader : ℕ)) with
    | error e => rw [error_bind, error_bind, error_bind]
    | ok b => rw [ok_bind, ok_bind]
  rw [and_iff_right fun _ => ⟨a, rfl⟩, ok_bind, h_min, collect_congr h_run,
    collect_result_eq_ok_iff (g := fun _ (n : ℕ) => if n ≠ 0 then [readBlock reader n] else [])]
  refine and_congr_right fun _ => Eq.congr_right (List.flatMap_congr fun i _ => ?_)
  rw [found, pushed]
  by_cases h_zero : result (pointerAt reader inode (12 + indirectBlockContents reader + i)) = 0
  · rw [if_neg fun h => h h_zero, if_pos ⟨h_zero, fun h => by omega⟩]
  · rw [if_pos h_zero, if_neg fun h => h_zero h.1]

/-- The blocks of the file are those of the three loops, one behind the other. -/
theorem flatMap_range_three {α : Type} (g : ℕ → List α) (n p : ℕ) :
    (List.range n).flatMap g = (List.range (min 12 n)).flatMap g
      ++ ((List.range (min p (n - 12))).flatMap fun i => g (12 + i))
      ++ (List.range (n - 12 - p)).flatMap fun i => g (12 + p + i) := by
  rcases Nat.le_total n 12 with h_direct | h_more
  · rw [Nat.min_eq_right h_direct, Nat.sub_eq_zero_of_le h_direct, Nat.min_zero, Nat.zero_sub,
      List.range_zero, List.flatMap_nil, List.flatMap_nil, List.append_nil, List.append_nil]
  rw [Nat.min_eq_left h_more]
  rcases Nat.le_total n (12 + p) with h_indirect | h_doubly
  · have h_n : n = 12 + (n - 12) := by omega
    have h_min : min p (n - 12) = n - 12 := by omega
    have h_none : n - 12 - p = 0 := by omega
    rw [h_min, h_none, List.range_zero, List.flatMap_nil, List.append_nil, ← flatMap_range_add, ← h_n]
  · have h_n : n = 12 + p + (n - 12 - p) := by omega
    have h_min : min p (n - 12) = p := by omega
    rw [h_min, ← flatMap_range_add, ← flatMap_range_add, ← h_n]

/-- So are their pointers. -/
theorem readable_iff (n p : ℕ) : Readable reader inode n ↔ Readable reader inode (min 12 n)
      ∧ (∀ i < min p (n - 12),
        pointerAt reader inode (12 + i) = .ok (result (pointerAt reader inode (12 + i))))
      ∧ ∀ i < n - 12 - p,
        pointerAt reader inode (12 + p + i) = .ok (result (pointerAt reader inode (12 + p + i))) := by
  constructor
  · intro h
    exact ⟨fun i hi => h i (by omega), fun i hi => h (12 + i) (by omega),
      fun i hi => h (12 + p + i) (by omega)⟩
  · rintro ⟨h_direct, h_indirect, h_doubly⟩ i hi
    by_cases h₁ : i < 12
    · exact h_direct i (by omega)
    obtain ⟨j, rfl⟩ := Nat.exists_eq_add_of_le (Nat.le_of_not_lt h₁)
    by_cases h₂ : j < p
    · exact h_indirect j (by omega)
    obtain ⟨k, rfl⟩ := Nat.exists_eq_add_of_le (Nat.le_of_not_lt h₂)
    rw [← Nat.add_assoc]
    exact h_doubly k (by omega)

/-- **The three loops are one** over the blocks of the file, as long as no triply indirect block is
needed. -/
theorem getFileContent_eq_ok_iff :
    getFileContent reader inode = .ok content
      ↔ sizeLo reader.map inode = .ok content.size
        ∧ actualBlocks reader content.size < 12 + indirectBlockContents reader
          + indirectBlockContents reader * indirectBlockContents reader
        ∧ Readable reader inode 12
        ∧ (12 ≤ actualBlocks reader content.size → ∃ a, block reader.map inode 12 = .ok a)
        ∧ (12 + indirectBlockContents reader ≤ actualBlocks reader content.size →
          ∃ a, block reader.map inode 13 = .ok a)
        ∧ Readable reader inode (actualBlocks reader content.size)
        ∧ content.blocks
          = (List.range (actualBlocks reader content.size)).flatMap (found reader inode) := by
  obtain ⟨size, blocks⟩ := content
  rw [getFileContent, bind_eq_ok_iff,
    readable_iff (actualBlocks reader size) (indirectBlockContents reader),
    flatMap_range_three (found reader inode) (actualBlocks reader size) (indirectBlockContents reader)]
  constructor
  · rintro ⟨size', h_size, h⟩
    obtain ⟨direct, h_direct, h⟩ := bind_eq_ok_iff.mp h
    obtain ⟨indirect, h_indirect, h⟩ := bind_eq_ok_iff.mp h
    obtain ⟨doubly, h_doubly, h⟩ := bind_eq_ok_iff.mp h
    -- the assertion about triply indirect blocks comes last
    by_cases h_limit : 12 + indirectBlockContents reader
        + indirectBlockContents reader * indirectBlockContents reader ≤ actualBlocks reader size'
    · rw [if_pos h_limit] at h
      cases h
    · rw [if_neg h_limit] at h
      obtain ⟨rfl, rfl⟩ := FileContent.mk.inj (Except.ok.inj h)
      obtain ⟨h_read₁, rfl⟩ := directBlocks_eq_ok_iff.mp h_direct
      obtain ⟨h_slot₁, h_read₂, rfl⟩ := indirectBlocks_eq_ok_iff.mp h_indirect
      obtain ⟨h_slot₂, h_read₃, rfl⟩ := (doublyIndirectBlocks_eq_ok_iff (by omega)).mp h_doubly
      exact ⟨h_size, Nat.lt_of_not_le h_limit, h_read₁, h_slot₁, h_slot₂,
        ⟨fun i hi => h_read₁ i (by omega), h_read₂, h_read₃⟩, rfl⟩
  · rintro ⟨h_size, h_limit, h_read₁, h_slot₁, h_slot₂, ⟨-, h_read₂, h_read₃⟩, h_blocks⟩
    refine ⟨size, h_size, ?_⟩
    refine bind_eq_ok_iff.mpr ⟨_, directBlocks_eq_ok_iff.mpr ⟨h_read₁, rfl⟩, ?_⟩
    refine bind_eq_ok_iff.mpr ⟨_, indirectBlocks_eq_ok_iff.mpr ⟨h_slot₁, h_read₂, rfl⟩, ?_⟩
    refine bind_eq_ok_iff.mpr ⟨_, (doublyIndirectBlocks_eq_ok_iff (Nat.le_of_lt h_limit)).mpr
      ⟨h_slot₂, h_read₃, rfl⟩, ?_⟩
    exact (if_neg (Nat.not_le_of_gt h_limit)).trans
      (congrArg Except.ok (congrArg (FileContent.mk size) h_blocks.symm))

end Loops

/-! ### Files without holes -/

/-- For a pointer that is not zero one block is appended. -/
theorem found_of_pointerAt {i x : ℕ} (h : pointerAt reader inode i = .ok x) (h_pos : x ≠ 0) :
    found reader inode i = [readBlock reader x] := by
  rw [found, h]
  exact if_neg fun h_zero => h_pos h_zero.1

/-- For a block that is mapped its place is appended. -/
theorem found_of_mapsTo {i b : ℕ} (h : MapsTo reader inode i (some b)) :
    found reader inode i = [readBlock reader (result (pointerAt reader inode i) : ℕ)] ∧
      readBlock reader (result (pointerAt reader inode i) : ℕ) = (b : ℤ) * reader.blockSize := by
  obtain ⟨h_pointer, h_pos, h_int⟩ := pointerAt_of_mapsTo h
  rw [found_of_pointerAt h_pointer h_pos, h_pointer]
  exact ⟨rfl, readBlock_of_lt h_int⟩

/-- What is collected where each block is mapped. -/
theorem listed_of_dense {n : ℕ} (h_dense : ∀ i < n, ∃ b, MapsTo reader inode i (some b)) :
    ((List.range n).flatMap (found reader inode)).length = n ∧
      ∀ i < n, ∀ b, MapsTo reader inode i (some b) →
        ((List.range n).flatMap (found reader inode))[i]? = some ((b : ℤ) * reader.blockSize) := by
  have h_one : ∀ i < n, found reader inode i = [readBlock reader (result (pointerAt reader inode i) : ℕ)] := by
    intro i hi
    obtain ⟨b, hb⟩ := h_dense i hi
    exact (found_of_mapsTo hb).1
  refine ⟨length_collected h_one, fun i hi b hb => ?_⟩
  rw [getElem?_collected h_one hi, (found_of_mapsTo hb).2]

/-- **A file without holes**: whenever `GetFileContent` returns, it has listed the blocks of the file, each
at its place. -/
theorem blocks_eq (h : getFileContent reader inode = .ok content)
    (h_dense : ∀ i < actualBlocks reader content.size, ∃ b, MapsTo reader inode i (some b)) :
    sizeLo reader.map inode = .ok content.size
      ∧ content.blocks.length = actualBlocks reader content.size
      ∧ ∀ i < actualBlocks reader content.size, ∀ b, MapsTo reader inode i (some b) →
        content.blocks[i]? = some ((b : ℤ) * reader.blockSize) := by
  obtain ⟨h_size, -, -, -, -, -, h_blocks⟩ := getFileContent_eq_ok_iff.mp h
  obtain ⟨h_length, h_at⟩ := listed_of_dense h_dense
  rw [h_blocks]
  exact ⟨h_size, h_length, h_at⟩

/-- An inode at the beginning of the image, of a file with 13 blocks: the pointers 2 .. 13 in the inode,
and the pointer 14 in the block 1. -/
def thirteenBlocks : Ext2Reader :=
  ⟨[0, 0, 0, 0, 1, 48, 0, 0] ++ List.replicate 32 0
    ++ ((List.range 12).flatMap fun i => [UInt8.ofNat (i + 2), 0, 0, 0])
    ++ [1, 0, 0, 0] ++ List.replicate 932 0 ++ [14, 0, 0, 0] ++ List.replicate 1020 0, 1024, 0, 0, 0⟩

theorem blocks_eq_thirteen :
    ∃ content, getFileContent thirteenBlocks 0 = .ok content ∧ content.blocks.length = 13 := by
  have h_run : getFileContent thirteenBlocks 0
      = .ok ⟨12289, (List.range 13).map fun i : ℕ => ((i : ℤ) + 2) * 1024⟩ := by decide +kernel
  have h_direct : ∀ i < 12, block thirteenBlocks.map 0 i = .ok (i + 2) := by decide +kernel
  have h_slot : block thirteenBlocks.map 0 12 = .ok 1 := by decide +kernel
  have h_entry : le32 thirteenBlocks.map ((1 : ℕ) * (1024 : ℕ) + 4 * (0 : ℕ)) = .ok 14 := by decide +kernel
  refine ⟨_, h_run, (blocks_eq h_run fun i hi => ?_).2.1⟩
  have h_lt : i < 13 := hi
  rcases Nat.lt_succ_iff_lt_or_eq.mp h_lt with h_lt | rfl
  · refine ⟨i + 2, i + 2, ?_, ?_⟩
    · rw [route, if_pos h_lt]
      exact h_direct i h_lt
    · rw [route, if_pos h_lt]
      exact .block (Nat.succ_ne_zero _) (by omega)
  · exact ⟨14, 1, h_slot, .indirect (by decide) (by decide) h_entry (.block (by decide) (by decide))⟩

end GitlstreeFS.Ext2
