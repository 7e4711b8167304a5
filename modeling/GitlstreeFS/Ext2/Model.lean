import GitlstreeFS.Blocks
import GitlstreeFS.Cpp

/-!
# `ext2.cc`

An ext2 image is mapped into memory, and the files of it are read where they are.

* A pointer is an offset into the image. To read where nothing is mapped is undefined, and so is to ask a
  `std::vector` for an element that it has not (`Fault`).
* `FileContent` has the blocks of a file as a list of pointers. What `copy` copies is given by where it is
  taken from: the pointer to each of the bytes.
* `WalkDir` makes calls of `fs->add`, which are recorded in their order. What the container makes of them
  is said where the container is.
-/

namespace GitlstreeFS.Ext2

open Blocks (collect)

inductive Fault where
  /-- What is read is not part of the image. -/
  | unmapped
  /-- There is no such block in the list. -/
  | outOfRange
  /-- An `ASSERT_EQ` does not hold. -/
  | assertion
  /-- The result does not fit into an `int`. -/
  | overflow
  /-- A division by zero. -/
  | division
  /-- The bound on the number of directory entries was too small. -/
  | endless
  deriving DecidableEq, Repr

/-! ### The image -/

/-- The `n` bytes from `c` on. -/
def bytes (m : Str) (c : ℤ) (n : ℕ) : Except Fault Str :=
  if 0 ≤ c ∧ c + n ≤ m.length then .ok ((m.drop c.toNat).take n) else .error .unmapped

/-- The number of little-endian bytes. -/
def littleEndian (s : Str) : ℕ :=
  s.foldr (fun b n => b.toNat + 256 * n) 0

/-- `Le32::get` -/
def le32 (m : Str) (c : ℤ) : Except Fault ℕ :=
  return littleEndian (← bytes m c 4)

/-- `Le16::get` -/
def le16 (m : Str) (c : ℤ) : Except Fault ℕ :=
  return littleEndian (← bytes m c 2)

/-- An `__u8`. -/
def u8 (m : Str) (c : ℤ) : Except Fault ℕ :=
  return littleEndian (← bytes m c 1)

/-- The result of an operation on `int`s. -/
def int (n : ℤ) : Except Fault ℤ :=
  if Fits n then .ok n else .error .overflow

/-! ### `Ext2Reader` -/

/-- `Ext2Reader`: the image, and what is used of its superblock. -/
structure Ext2Reader where
  /-- `fs_block_map_` -/
  map : Str
  /-- `s_->block_size()` -/
  blockSize : ℕ
  /-- `s_->inodes_per_group` -/
  inodesPerGroup : ℕ
  /-- `s_->inode_size` -/
  inodeSize : ℕ
  /-- `group_desc_` -/
  groupDesc : ℤ
  deriving DecidableEq, Repr

/-- `ext4_inode::mode`, of the inode at `inode`. -/
def mode (m : Str) (inode : ℤ) : Except Fault ℕ := le16 m inode

/-- `ext4_inode::size_lo` -/
def sizeLo (m : Str) (inode : ℤ) : Except Fault ℕ := le32 m (inode + 4)

/-- `ext4_inode::block[i]` -/
def block (m : Str) (inode : ℤ) (i : ℕ) : Except Fault ℕ := le32 m (inode + 40 + 4 * i)

/-- `FileContent` -/
structure FileContent where
  size : ℕ
  blocks : List ℤ
  deriving DecidableEq, Repr

section Reader

variable (reader : Ext2Reader)

/-- `ReadBlock(n)`, whose argument is converted to an `int`. -/
def readBlock (n : ℤ) : ℤ :=
  toInt n * reader.blockSize

/-- `GroupDesc(n)->inode_table_lo` -/
def inodeTable (n : ℕ) : Except Fault ℕ := do
  let offset ← int (toInt n * 32)
  le32 reader.map (reader.groupDesc + offset + 8)

/-- `Inode(inode_number)`: where the inode is. What is computed are `size_t`s. -/
def inodeOf (inode_number : ℕ) : Except Fault ℤ := do
  -- `inode_number - 1` is an `int`, and is converted by the division
  let n ← int (toInt inode_number - 1)
  let k := (n % 0x10000000000000000).toNat
  if reader.inodesPerGroup = 0 ∨ reader.blockSize = 0 then .error .division
  else
    let index := k % reader.inodesPerGroup
    let block_group := k / reader.inodesPerGroup
    let containing_block := (index * reader.inodeSize) / reader.blockSize
    let index_inside_block := (index * reader.inodeSize) % reader.blockSize
    let c := readBlock reader ((← inodeTable reader block_group) + containing_block)
    return c + index_inside_block

/-! ### `GetFileContent` -/

/-- `BlockSize() / sizeof(__le32)` -/
def indirectBlockContents : ℕ :=
  reader.blockSize / 4

/-- `actual_blocks`, for the size of a file. -/
def actualBlocks (size : ℕ) : ℕ :=
  (size + reader.blockSize - 1) / reader.blockSize

variable (inode : ℤ) (actual_blocks : ℕ)

/-- The loop over `inode->block`. -/
def directBlocks : Except Fault (List ℤ) :=
  collect (fun i => do
    let n ← block reader.map inode i
    return if n ≠ 0 ∧ i < actual_blocks then [readBlock reader n] else []) 12

/-- The indirect block. -/
def indirectBlocks : Except Fault (List ℤ) :=
  if 12 ≤ actual_blocks then do
    let a := readBlock reader (← block reader.map inode 12)
    collect (fun i => return [readBlock reader (← le32 reader.map (a + 4 * i))])
      (min (indirectBlockContents reader) (actual_blocks - 12))
  else return []

/-- The doubly indirect block. -/
def doublyIndirectBlocks : Except Fault (List ℤ) :=
  let p := indirectBlockContents reader
  if 12 + p ≤ actual_blocks then do
    let a := readBlock reader (← block reader.map inode 13)
    collect (fun i => do
      let b := readBlock reader (← le32 reader.map (a + 4 * (i / p : ℕ)))
      let n ← le32 reader.map (b + 4 * (i % p : ℕ))
      -- a pointer that is zero is left out, and what follows moves up
      return if n ≠ 0 then [readBlock reader n] else []) (min (p * p) (actual_blocks - 12 - p))
  else return []

/-- `GetFileContent` -/
def getFileContent : Except Fault FileContent := do
  let size ← sizeLo reader.map inode
  let actual_blocks := actualBlocks reader size
  let direct ← directBlocks reader inode actual_blocks
  let indirect ← indirectBlocks reader inode actual_blocks
  let doubly ← doublyIndirectBlocks reader inode actual_blocks
  let p := indirectBlockContents reader
  -- the TODO about triply indirect blocks, `ASSERT_EQ(1, 0)`
  if 12 + p + p * p ≤ actual_blocks then .error .assertion
  else return ⟨size, direct ++ indirect ++ doubly⟩

end Reader

/-! ### `FileContent::copy` and `Ext2File::Read` -/

/-- The bytes that `memcpy` copies from `src`. -/
def memcpy (src : ℤ) (n : ℕ) : List ℤ :=
  (List.range n).map fun i : ℕ => src + i

section Copy

variable (block_size : ℕ)

/-- The loop, and the `memcpy` behind it, where `blocks` are those from `blocks[b]` on. -/
def copyBlocks : List ℤ → ℕ → Except Fault (List ℤ)
  | [], remaining_size => if remaining_size = 0 then .ok [] else .error .outOfRange
  | block :: blocks, remaining_size =>
    if block_size < remaining_size then do
      let copied ← copyBlocks blocks (remaining_size - block_size)
      return memcpy block block_size ++ copied
    else return memcpy block remaining_size

variable (content : FileContent) (remaining_size offset : ℕ)

/-- `copy(target, remaining_size, offset)`. The subtraction is one of `size_t`s. -/
def copy : Except Fault (List ℤ) :=
  let b := offset / block_size
  if offset % block_size ≠ 0 then
    -- taken from the size, not from the block; if the size is less, it wraps around
    let to_copy := min remaining_size
      ((remaining_size + 0x10000000000000000 - offset % block_size) % 0x10000000000000000)
    match content.blocks[b]? with
    -- `blocks[b]` behind the end of the vector
    | none => .error .outOfRange
    | some block => do
      let copied ← copyBlocks block_size (content.blocks.drop (b + 1)) (remaining_size - to_copy)
      return memcpy (block + (offset % block_size : ℕ)) to_copy ++ copied
  else copyBlocks block_size (content.blocks.drop b) remaining_size

/-- The conversion of a `size_t` to `off_t` and to `ssize_t`. -/
def toSsize (n : ℕ) : ℤ :=
  (n : ℤ).bmod 0x10000000000000000

/-- `Ext2File::Read` of a file with these contents: the number that is returned, and what is copied. -/
def read (content : FileContent) (size offset : ℕ) : Except Fault (ℤ × List ℤ) :=
  if (offset : ℤ) < toSsize content.size then do
    let size :=
      if content.size < (offset + size) % 0x10000000000000000 then content.size - offset else size
    let copied ← copy block_size content size offset
    return (toSsize size, copied)
  else return (0, [])

end Copy

/-! ### `WalkDir` -/

/-- `ext4_dir_entry_2::filename` of the entry at `dirent`. -/
def filename (m : Str) (dirent : ℤ) : Except Fault Str := do
  bytes m (dirent + 8) (← u8 m (dirent + 6))

/-- `ext4_dir_entry_2::next` -/
def next (m : Str) (dirent : ℤ) : Except Fault ℤ :=
  return dirent + (← le16 m (dirent + 4))

/-- `Ext2File`, with the number of its `InodeCache`. -/
structure Ext2File where
  icache : ℕ
  deriving DecidableEq, Repr

/-- What `WalkDir` has done. -/
structure Walked where
  /-- `inode_cache_`: the inodes of the `InodeCache`s, in the order in which these were made. -/
  inodeCache : List ℤ
  /-- What `fs_->add` was called with. -/
  adds : List (Str × Ext2File)
  deriving DecidableEq, Repr

/-- `inode_cache_[inode]`, which is made where it is not there. -/
def icacheOf (walked : Walked) (inode : ℤ) : Walked × ℕ :=
  if inode ∈ walked.inodeCache then (walked, walked.inodeCache.idxOf inode)
  else ({ walked with inodeCache := walked.inodeCache ++ [inode] }, walked.inodeCache.length)

/-- The `else` branch: a file is added. -/
def addFile (new_path : Str) (inode : ℤ) (walked : Walked) : Walked :=
  let (walked, icache) := icacheOf walked inode
  { walked with adds := walked.adds ++ [(new_path, ⟨icache⟩)] }

/-- The loop of `WalkDir` from the entry `dirent` on, with a bound on the number of entries. Behind the
entry of a directory the loop over this directory comes first. -/
def walkFrom (reader : Ext2Reader) : ℕ → Str → ℤ → ℤ → Walked → Except Fault Walked
  | 0, _, _, _, _ => .error .endless
  | k + 1, path, limit, dirent, walked =>
    if dirent < limit then do
      let name ← filename reader.map dirent
      if name ≠ str "." ∧ name ≠ str ".." then
        let inode ← inodeOf reader (← le32 reader.map dirent)
        let new_path := path ++ name
        if (← mode reader.map inode) &&& sIFMT = sIFDIR then
          -- only the first block of a directory is walked
          let first := readBlock reader (← block reader.map inode 0)
          let walked ← walkFrom reader k (new_path ++ [slash]) (first + reader.blockSize) first walked
          walkFrom reader k path limit (← next reader.map dirent) walked
        else
          walkFrom reader k path limit (← next reader.map dirent) (addFile new_path inode walked)
      else walkFrom reader k path limit (← next reader.map dirent) walked
    else return walked

/-- `WalkDir` -/
def walkDir (reader : Ext2Reader) (k : ℕ) (path : Str) (block : ℕ) (walked : Walked) :
    Except Fault Walked :=
  let first := readBlock reader block
  walkFrom reader k path (first + reader.blockSize) first walked

/-! ### The constructor -/

/-- `ASSERT_EQ` -/
def assertEq (a b : ℕ) : Except Fault Unit :=
  if a = b then .ok () else .error .assertion

/-- `block_size()` of the superblock at `s`: an `int` that is shifted. -/
def blockSizeOf (m : Str) (s : ℤ) : Except Fault ℕ := do
  let log_block_size ← le32 m (s + 24)
  if log_block_size < 21 then return 1024 * 2 ^ log_block_size
  else .error .overflow

/-- `Ext2Reader::Ext2Reader`, once the file is mapped: what the superblock says. -/
def openImage (m : Str) : Except Fault Ext2Reader := do
  let s := 1024
  assertEq (← le16 m (s + 56)) 0xef53
  let feature_incompat ← le32 m (s + 96)
  -- of the incompatible features `FILETYPE` has to be there, and no other one
  assertEq (feature_incompat &&& 0x0002) 0x0002
  assertEq (feature_incompat &&& 0xfffffffd) 0
  let block_size ← blockSizeOf m s
  let superblock_block_number := 1024 / block_size
  return {
    map := m
    blockSize := block_size
    inodesPerGroup := ← le32 m (s + 40)
    inodeSize := ← le16 m (s + 88)
    groupDesc := (superblock_block_number + 1 : ℕ) * block_size }

/-- `LoadDirectory`: the reader, and what `WalkDir` does from the root on. -/
def loadDirectory (m : Str) (k : ℕ) : Except Fault (Ext2Reader × Walked) := do
  let reader ← openImage m
  let root ← inodeOf reader 2
  assertEq (← mode m root) 0o40755
  return (reader, ← walkDir reader k [slash] (← block m root 0) ⟨[], []⟩)

end GitlstreeFS.Ext2
