import GitlstreeFS.Buffer
import GitlstreeFS.Ext2.Limit

/-!
# Symbolic links

The target of a link is stored in one of two ways: in the 60 bytes of `block` if it is shorter than that, and
in the blocks of the file otherwise (`StoresLink`). `Readlink` takes a target of exactly 60 bytes to be in
`block` too, where the pointers are. It lists the blocks in any case, and `GetFileContent` has its limit.

What it writes to the buffer is said for all sizes of this (`readlink_eq`): the right string, but for these two.
-/

namespace GitlstreeFS.Ext2

open Blocks Buffer

variable {reader : Ext2Reader} {inode : ℤ} {target : Str} {size : ℕ}

/-- The byte that `memcpy` takes from a pointer. -/
def load (m : Str) (a : ℤ) : Except Fault UInt8 :=
  match byteAt m a with
  | some v => .ok v
  | none => .error .unmapped

/-- What `Readlink` copies: where the `size` bytes are taken from. -/
def linkCopied (reader : Ext2Reader) (inode : ℤ) (contents : FileContent) (contents_size size : ℕ) :
    Except Fault (List ℤ) :=
  -- `EXT4_N_BLOCKS * sizeof(Le32)` is 60
  if 60 < contents_size then copy reader.blockSize contents size 0
  else return memcpy (inode + 40) size

/-- `Ext2File::Readlink`: the value, and what is written to `target`, from its beginning on. -/
def readlink (reader : Ext2Reader) (inode : ℤ) (size : ℕ) : Except Fault (ℤ × Str) := do
  let contents_size ← sizeLo reader.map inode
  let contents ← getFileContent reader inode
  let copied ← linkCopied reader inode contents contents_size
    (if contents_size < size then contents_size else size)
  let s ← copied.mapM (load reader.map)
  return (0, if contents_size < size then s ++ [0] else s)

/-- **The rule of ext2**: the inode is in the image, and has the length of the target; this is in `block` if it
is shorter than 60 bytes, and else in the blocks that the block map has. What a triply indirect block
leads to is left open. -/
structure StoresLink (reader : Ext2Reader) (inode : ℤ) (target : Str) : Prop where
  inode_mem : 0 ≤ inode ∧ inode + 128 ≤ reader.map.length
  size : sizeLo reader.map inode = .ok target.length
  inline : target.length < 60 → ∀ i < target.length, byteAt reader.map (inode + 40 + i) = target[i]?
  blocks : 60 ≤ target.length → ∀ i < target.length, i / reader.blockSize < blockLimit reader →
    ∃ b, MapsTo reader inode (i / reader.blockSize) (some b)
      ∧ byteAt reader.map (b * reader.blockSize + (i % reader.blockSize : ℕ)) = target[i]?

/-- The block size of an image that can be opened. -/
theorem le_blockSize_of_openImage {m : Str} (h : openImage m = .ok reader) : 1024 ≤ reader.blockSize := by
  unfold openImage at h
  dsimp only at h
  obtain ⟨_, -, h⟩ := bind_eq_ok_iff.mp h
  obtain ⟨_, -, h⟩ := bind_eq_ok_iff.mp h
  obtain ⟨_, -, h⟩ := bind_eq_ok_iff.mp h
  obtain ⟨_, -, h⟩ := bind_eq_ok_iff.mp h
  obtain ⟨_, -, h⟩ := bind_eq_ok_iff.mp h
  obtain ⟨block_size, h_size, h⟩ := bind_eq_ok_iff.mp h
  obtain ⟨_, -, h⟩ := bind_eq_ok_iff.mp h
  obtain ⟨_, -, h⟩ := bind_eq_ok_iff.mp h
  obtain rfl := Except.ok.inj h
  obtain ⟨log_block_size, -, h_size⟩ := bind_eq_ok_iff.mp h_size
  split at h_size
  · obtain rfl := Except.ok.inj h_size
    exact Nat.le_mul_of_pos_right 1024 (Nat.two_pow_pos log_block_size)
  · cases h_size

/-! ### What is copied -/

/-- The bytes of a piece of the target, given where they are taken from. -/
theorem mapM_load_eq {m : Str} {l : List ℤ} {s : Str} (h : l.map (byteAt m) = s.map some) :
    l.mapM (load m) = .ok s := by
  have h_load :
      load m = (fun v => v.elim (.error .unmapped) .ok : Option UInt8 → Except Fault UInt8) ∘ byteAt m := by
    funext a
    rw [load, Function.comp_apply]
    cases byteAt m a <;> rfl
  rw [mapM_eq_ok_iff, h_load, ← List.map_map, h, List.map_map]
  rfl

theorem mapM_load_take {m : Str} {l : List ℤ} {s : Str} (h_length : l.length ≤ s.length)
    (h : ∀ i < l.length, ∃ a, l[i]? = some a ∧ byteAt m a = s[i]?) :
    l.mapM (load m) = .ok (s.take l.length) := by
  refine mapM_load_eq (List.ext_getElem? fun i => ?_)
  rw [List.getElem?_map, List.getElem?_map]
  by_cases hi : i < l.length
  · obtain ⟨a, h_a, h_byte⟩ := h i hi
    rw [List.getElem?_take_of_lt hi, h_a, Option.map_some, h_byte,
      List.getElem?_eq_getElem (Nat.lt_of_lt_of_le hi h_length), Option.map_some]
  · rw [List.getElem?_eq_none (Nat.le_of_not_lt hi), List.getElem?_take_eq_none (Nat.le_of_not_lt hi)]
    rfl

/-- What is copied from the beginning of a file. -/
theorem exists_copy_zero {bs n : ℕ} {content : FileContent} (h_bs : 0 < bs)
    (h_fits : n ≤ content.blocks.length * bs) :
    ∃ copied, copied.length = n ∧ copy bs content n 0 = .ok copied
      ∧ ∀ i < n, copied[i]? = content.blocks[i / bs]?.map fun block : ℤ => block + (i % bs : ℕ) := by
  have h_copy := @copy_aligned bs content n 0 (Nat.zero_mod bs)
  rw [Nat.zero_div, Nat.sub_zero, if_pos h_fits, List.drop_zero] at h_copy
  refine ⟨_, ?_, h_copy, fun i hi => ?_⟩
  · rw [List.length_take, length_concatenation, Nat.min_eq_left h_fits]
  · rw [List.getElem?_take_of_lt hi, getElem?_concatenation h_bs]

/-- The 60 bytes of `block`. -/
def blockArea (reader : Ext2Reader) (inode : ℤ) : Str :=
  (reader.map.drop (inode + 40).toNat).take 60

theorem length_blockArea (h : 0 ≤ inode ∧ inode + 128 ≤ reader.map.length) :
    (blockArea reader inode).length = 60 := by
  rw [blockArea, List.length_take, List.length_drop]
  omega

theorem getElem?_blockArea (h : 0 ≤ inode ∧ inode + 128 ≤ reader.map.length) {i : ℕ} (hi : i < 60) :
    (blockArea reader inode)[i]? = byteAt reader.map (inode + 40 + i) := by
  have h_nonneg : 0 ≤ inode + 40 + i := by omega
  have h_toNat : (inode + 40 + i).toNat = (inode + 40).toNat + i := by omega
  rw [blockArea, List.getElem?_take_of_lt hi, List.getElem?_drop, byteAt, if_pos h_nonneg, h_toNat]

/-- What `Readlink` takes for the target. -/
def shownTarget (reader : Ext2Reader) (inode : ℤ) (target : Str) : Str :=
  if target.length = 60 then blockArea reader inode else target

theorem length_shownTarget (h : 0 ≤ inode ∧ inode + 128 ≤ reader.map.length) :
    (shownTarget reader inode target).length = target.length := by
  rw [shownTarget]
  split
  · next h_sixty => rw [length_blockArea h, h_sixty]
  · rfl

/-! ### The content of a link -/

/-- The pointers of a short file can be read, whatever they are. -/
theorem readable_of_le (h_inode : 0 ≤ inode ∧ inode + 128 ≤ reader.map.length) {n : ℕ} (hn : n ≤ 12) :
    Readable reader inode n := by
  intro i hi
  obtain ⟨a, h_a⟩ := exists_block_eq (i := i) h_inode (by omega)
  rw [pointerAt_direct (by omega), h_a]
  rfl

/-- A string of 60 bytes fits into one block. -/
theorem actualBlocks_le_one (h_bs : 1024 ≤ reader.blockSize) {n : ℕ} (hn : n ≤ 60) :
    actualBlocks reader n ≤ 1 :=
  Nat.le_of_lt_succ (Nat.div_lt_of_lt_mul (by omega))

/-- The blocks of a long target are where the rule has them. -/
theorem StoresLink.mapsTo (h_bs : 1024 ≤ reader.blockSize) (h : StoresLink reader inode target)
    (h_long : 60 ≤ target.length) (h_limit : actualBlocks reader target.length < blockLimit reader) {i : ℕ}
    (hi : i < actualBlocks reader target.length) : ∃ b, MapsTo reader inode i (some b) := by
  have h_pos : 0 < reader.blockSize := by omega
  have h_div : i * reader.blockSize / reader.blockSize = i := Nat.mul_div_cancel i h_pos
  obtain ⟨b, h_maps, -⟩ := h.blocks h_long _ (mul_lt_of_lt_actualBlocks hi) (by omega)
  rw [h_div] at h_maps
  exact ⟨b, h_maps⟩

/-- `GetFileContent` returns for a link below the limit. -/
theorem StoresLink.getFileContent (h_bs : 1024 ≤ reader.blockSize) (h : StoresLink reader inode target)
    (h_limit : actualBlocks reader target.length < blockLimit reader) :
    ∃ blocks, getFileContent reader inode = .ok ⟨target.length, blocks⟩ := by
  have h_readable : Readable reader inode (actualBlocks reader target.length) := by
    by_cases h_long : 60 ≤ target.length
    · intro i hi
      obtain ⟨b, h_maps⟩ := h.mapsTo h_bs h_long h_limit hi
      rw [(pointerAt_of_mapsTo h_maps).1]
      rfl
    · exact readable_of_le h.inode_mem (le_trans (actualBlocks_le_one h_bs (by omega)) (by decide))
  obtain ⟨blocks, h_eq⟩ := getFileContent_eq_of_mapped h.size h_limit.le
    (pointersMapped_of_readable h.inode_mem h_readable)
  exact ⟨blocks, h_eq.trans (if_neg (Nat.not_le_of_lt h_limit))⟩

/-- **What `Readlink` writes**, below the limit. -/
theorem readlink_eq (h_bs : 1024 ≤ reader.blockSize) (h : StoresLink reader inode target)
    (h_limit : actualBlocks reader target.length < blockLimit reader) (size : ℕ) :
    readlink reader inode size = .ok (0, putString (shownTarget reader inode target) size) := by
  obtain ⟨blocks, h_content⟩ := h.getFileContent h_bs h_limit
  have h_length : (shownTarget reader inode target).length = target.length := length_shownTarget h.inode_mem
  generalize hn : (if target.length < size then target.length else size) = n
  have h_le : n ≤ target.length := by
    split at hn <;> omega
  -- where the bytes are taken from
  have h_copied : ∃ copied, copied.length = n
      ∧ linkCopied reader inode ⟨target.length, blocks⟩ target.length n = .ok copied
      ∧ ∀ i < n, ∃ a, copied[i]? = some a ∧ byteAt reader.map a = (shownTarget reader inode target)[i]? := by
    rw [linkCopied]
    by_cases h_long : 60 < target.length
    · -- from the blocks, each of which is mapped to where the link is stored
      have h_pos : 0 < reader.blockSize := by omega
      obtain ⟨h_blocks, h_at⟩ := listed_of_dense fun i hi => h.mapsTo h_bs h_long.le h_limit hi
      obtain ⟨-, -, -, -, -, -, h_list⟩ := getFileContent_eq_ok_iff.mp h_content
      dsimp only at h_list
      rw [← h_list] at h_blocks h_at
      have h_fits : n ≤ blocks.length * reader.blockSize := by
        rw [h_blocks]
        exact le_trans h_le (le_actualBlocks h_pos)
      obtain ⟨copied, h_n, h_copy, h_pointers⟩ :=
        @exists_copy_zero reader.blockSize n ⟨target.length, blocks⟩ h_pos h_fits
      rw [if_pos h_long]
      refine ⟨copied, h_n, h_copy, fun i hi => ?_⟩
      have h_i : i < target.length := by omega
      have h_block := div_lt_actualBlocks h_pos h_i
      obtain ⟨b, h_maps, h_byte⟩ := h.blocks h_long.le i h_i (by omega)
      rw [h_pointers i hi, h_at _ h_block b h_maps, shownTarget, if_neg (by omega)]
      exact ⟨_, rfl, h_byte⟩
    · -- from `block`, which for a link of 60 bytes is not where it is stored
      rw [if_neg h_long]
      refine ⟨_, length_memcpy _ n, rfl, fun i hi => ⟨_, getElem?_memcpy hi _, ?_⟩⟩
      rw [shownTarget]
      split
      · exact (getElem?_blockArea h.inode_mem (by omega)).symm
      · exact h.inline (by omega) i (by omega)
  obtain ⟨copied, h_n, h_copy, h_bytes⟩ := h_copied
  have h_load := mapM_load_take (by omega) (fun i hi => h_bytes i (h_n ▸ hi))
  rw [readlink, h.size, ok_bind, h_content, ok_bind, hn, h_copy, ok_bind, h_load, ok_bind, h_n, putString,
    h_length]
  subst hn
  by_cases h_size : target.length < size
  · rw [if_pos h_size, if_pos h_size, if_pos h_size, ← h_length, List.take_length]
    rfl
  · rw [if_neg h_size, if_neg h_size, if_neg h_size]
    rfl

/-- Beyond the limit it does not return. -/
theorem readlink_ne_ok (h : StoresLink reader inode target)
    (h_limit : ¬ actualBlocks reader target.length < blockLimit reader) (size : ℕ) (r : ℤ × Str) :
    readlink reader inode size ≠ .ok r := by
  intro h_ok
  obtain ⟨contents_size, -, h_ok⟩ := bind_eq_ok_iff.mp h_ok
  obtain ⟨content, h_content, -⟩ := bind_eq_ok_iff.mp h_ok
  obtain ⟨h_size, h_lt, -⟩ := getFileContent_eq_ok_iff.mp h_content
  obtain h_eq := Except.ok.inj (h.size.symm.trans h_size)
  rw [h_eq] at h_limit
  exact h_limit h_lt

/-- `Readlink` gives the target in these cases: where this has 60 bytes, the bytes of `block` are the same by
chance, and there are fewer blocks than `GetFileContent` has its limit at. -/
def LinkReadable (reader : Ext2Reader) (inode : ℤ) (target : Str) : Prop :=
  (target.length = 60 → blockArea reader inode = target)
    ∧ actualBlocks reader target.length < blockLimit reader

theorem shownTarget_eq_iff :
    shownTarget reader inode target = target ↔ (target.length = 60 → blockArea reader inode = target) := by
  by_cases h_sixty : target.length = 60
  · rw [shownTarget, if_pos h_sixty, imp_iff_right h_sixty]
  · rw [shownTarget, if_neg h_sixty]
    exact iff_of_true rfl fun h => absurd h h_sixty

/-- **A link is read right** by a buffer that is longer than its target just if the target has not 60 bytes,
other than by chance, and is not too long for `GetFileContent`. -/
theorem readlink_target (reader : Ext2Reader) (inode : ℤ) (target : Str) (size : ℕ)
    (h_bs : 1024 ≤ reader.blockSize) (h : StoresLink reader inode target) (h_size : target.length < size) :
    readlink reader inode size = .ok (0, target ++ [0]) ↔ LinkReadable reader inode target := by
  by_cases h_limit : actualBlocks reader target.length < blockLimit reader
  · rw [LinkReadable, and_iff_left h_limit, ← shownTarget_eq_iff, readlink_eq h_bs h h_limit,
      putString, if_pos (by rwa [length_shownTarget h.inode_mem]), Except.ok.injEq, Prod.mk.injEq,
      and_iff_right rfl, List.append_left_inj]
  · exact iff_of_false (readlink_ne_ok h h_limit size _) fun h_readable => h_limit h_readable.2

/-- An image with an inode at its beginning, of a link with `n` bytes, which are in block 1. -/
def oneBlockLink (n : UInt8) : Ext2Reader :=
  ⟨[0, 0, 0, 0, n, 0, 0, 0] ++ List.replicate 32 0 ++ [1, 0, 0, 0] ++ List.replicate 980 0
    ++ List.replicate 1024 97, 1024, 0, 0, 0⟩

theorem storesLink_oneBlock {n : UInt8} (hn : n = 60 ∨ n = 61) :
    StoresLink (oneBlockLink n) 0 (List.replicate n.toNat 97) := by
  have h_mem : 0 + 128 ≤ ((oneBlockLink n).map.length : ℤ) := by rcases hn with rfl | rfl <;> decide +kernel
  have h_size : sizeLo (oneBlockLink n).map 0 = .ok (List.replicate n.toNat (97 : UInt8)).length := by
    rcases hn with rfl | rfl <;> decide +kernel
  have h_long : 60 ≤ (List.replicate n.toNat (97 : UInt8)).length := by rcases hn with rfl | rfl <;> decide
  have h_block : block (oneBlockLink n).map 0 0 = .ok 1 := by rcases hn with rfl | rfl <;> decide +kernel
  have h_bytes : ∀ i < n.toNat, byteAt (oneBlockLink n).map ((1 : ℕ) * (1024 : ℕ) + (i % 1024 : ℕ))
      = (List.replicate n.toNat (97 : UInt8))[i]? := by
    intro i hi
    have h_lt := n.toNat_lt
    have h_address : ((1 : ℕ) * (1024 : ℕ) + (i % 1024 : ℕ) : ℤ).toNat = 1024 + i := by omega
    rw [byteAt, if_pos (by omega), h_address, List.getElem?_replicate_of_lt hi]
    -- block 1 has nothing but the target
    have h_head : ([0, 0, 0, 0, n, 0, 0, 0] ++ List.replicate 32 0 ++ [1, 0, 0, 0]
        ++ List.replicate 980 0).length = 1024 := by
      simp only [List.length_append, List.length_replicate, List.length_cons, List.length_nil]
    rw [oneBlockLink, List.getElem?_append_right (by omega), h_head, List.getElem?_replicate_of_lt (by omega)]
  refine ⟨⟨le_rfl, h_mem⟩, h_size, fun h_short => by omega, fun _ i hi _ => ⟨1, ?_, ?_⟩⟩
  · have h_first : i / (oneBlockLink n).blockSize = 0 := by
      refine Nat.div_eq_of_lt ?_
      rw [List.length_replicate] at hi
      have h_lt := n.toNat_lt
      change i < 1024
      omega
    rw [h_first]
    exact ⟨1, h_block, .block (by decide) (by decide)⟩
  · exact h_bytes i (by rwa [List.length_replicate] at hi)

/-- With 61 bytes it is read right. -/
theorem readlink_target_oneBlock :
    readlink (oneBlockLink 61) 0 4096 = .ok (0, List.replicate 61 97 ++ [0]) :=
  (readlink_target (oneBlockLink 61) 0 (List.replicate 61 97) 4096 (by decide)
    (storesLink_oneBlock (.inr rfl)) (by decide)).mpr ⟨by decide, by decide⟩

/-- With 60 bytes the pointers are read in place of the target. -/
theorem readlink_sixty :
    StoresLink (oneBlockLink 60) 0 (List.replicate 60 97)
      ∧ readlink (oneBlockLink 60) 0 4096 = .ok (0, 1 :: List.replicate 60 0)
      ∧ readlink (oneBlockLink 60) 0 4096 ≠ .ok (0, List.replicate 60 97 ++ [0]) := by
  have h_run : readlink (oneBlockLink 60) 0 4096 = .ok (0, 1 :: List.replicate 60 0) := by decide +kernel
  refine ⟨storesLink_oneBlock (.inl rfl), h_run, ?_⟩
  rw [h_run]
  decide

end GitlstreeFS.Ext2
