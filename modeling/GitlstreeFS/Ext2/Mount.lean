import GitlstreeFS.Container.Mount
import GitlstreeFS.Ext2.Symlink
import GitlstreeFS.Ext2.Tree

/-!
# The mounted image

From an image to a client of the mount: what `WalkDir` has added is found (`mounted_image`), and a file whose
blocks are all there is read from its blocks.

The kernel reads pages, so a reader comes to offsets that are multiples of a block, where `copy` is right
(`Stores.serves`). The contents of an inode are listed at the first read through any of its names, and kept in
its `InodeCache`; what is read is said for all that may have been read before (`Cached`).
-/

namespace GitlstreeFS.Ext2

open Buffer DirectoryContainer
open Client (Looked)

variable {reader : Ext2Reader} {inode : ℤ} {data : Str} {content : FileContent} {nodes : List (List Str × Kind)}
  {limit dirent : ℤ}

/-! ### `InodeCache` -/

/-- `content_` of each `InodeCache`. -/
abbrev Contents := ℕ → Option FileContent

/-- `CachedFileContent` of the `InodeCache` with this number, which is that of `inode`. -/
def cachedFileContent (reader : Ext2Reader) (inode : ℤ) (icache : ℕ) (contents : Contents) :
    Except Fault (FileContent × Contents) :=
  match contents icache with
  | some content => .ok (content, contents)
  | none => do
    let content ← getFileContent reader inode
    return (content, Function.update contents icache (some content))

/-- `Ext2File::Read`: the value, and what is written to `target`. -/
def Ext2File.read (reader : Ext2Reader) (inodeCache : List ℤ) (file : Ext2File) (size offset : ℕ)
    (contents : Contents) : Except Fault ((ℤ × Str) × Contents) :=
  match inodeCache[file.icache]? with
  | none => .error .outOfRange
  | some inode => do
    let (content, contents) ← cachedFileContent reader inode file.icache contents
    let (n, copied) ← Ext2.read reader.blockSize content size offset
    return ((n, ← copied.mapM (load reader.map)), contents)

/-- `Ext2File::Getattr`, of a `stat` that is zero before. -/
def Ext2File.getattr (reader : Ext2Reader) (inodeCache : List ℤ) (file : Ext2File) : Except Fault Stat :=
  match inodeCache[file.icache]? with
  | none => .error .outOfRange
  | some inode => return ⟨← mode reader.map inode, 0, ← sizeLo reader.map inode⟩

/-- Something to read from: a file, in the state of all `InodeCache`s. -/
def Ext2File.toReader (reader : Ext2Reader) (inodeCache : List ℤ) (file : Ext2File) : Reader UInt8 :=
  ⟨Contents, fun contents size offset => (file.read reader inodeCache size offset contents).toOption⟩

/-- What is kept are the contents of the inode. -/
def Cached (reader : Ext2Reader) (inodeCache : List ℤ) (contents : Contents) : Prop :=
  ∀ i content, contents i = some content →
    ∃ inode, inodeCache[i]? = some inode ∧ getFileContent reader inode = .ok content

variable {inodeCache : List ℤ} {file : Ext2File} {contents : Contents} {icache : ℕ}

theorem cached_initial : Cached reader inodeCache fun _ => none :=
  fun _ _ h => by cases h

/-- Whether they are kept or not, the contents are those of the inode, and are kept then. -/
theorem Cached.cachedFileContent (h : Cached reader inodeCache contents)
    (h_inode : inodeCache[icache]? = some inode)
    (h_content : getFileContent reader inode = .ok content) :
    ∃ contents', cachedFileContent reader inode icache contents = .ok (content, contents') ∧
      Cached reader inodeCache contents' := by
  cases h_kept : contents icache with
  | some content' =>
    obtain ⟨inode', h_inode', h_content'⟩ := h icache content' h_kept
    obtain rfl := Option.some.inj (h_inode.symm.trans h_inode')
    obtain rfl := Except.ok.inj (h_content.symm.trans h_content')
    exact ⟨contents, by rw [Ext2.cachedFileContent, h_kept], h⟩
  | none =>
    refine ⟨Function.update contents icache (some content), ?_, fun i content' h_i => ?_⟩
    · rw [Ext2.cachedFileContent, h_kept]
      dsimp only
      rw [h_content]
      rfl
    · by_cases h_eq : i = icache
      · subst h_eq
        rw [Function.update_self] at h_i
        obtain rfl := Option.some.inj h_i
        exact ⟨inode, h_inode, h_content⟩
      · rw [Function.update_of_ne h_eq] at h_i
        exact h i content' h_i

theorem littleEndian_lt (s : Str) : littleEndian s < 256 ^ s.length := by
  induction s with
  | nil => exact Nat.one_pos
  | cons b s ih =>
    have h_b : b.toNat < 256 := b.toNat_lt
    rw [littleEndian, List.foldr_cons, List.length_cons, Nat.pow_succ]
    change b.toNat + 256 * littleEndian s < _
    omega

/-- A number of the image has 32 bits. -/
theorem lt_of_le32 {m : Str} {c : ℤ} {n : ℕ} (h : le32 m c = .ok n) : n < 0x100000000 := by
  obtain ⟨s, h_s, h_n⟩ := bind_eq_ok_iff.mp h
  obtain rfl := Except.ok.inj h_n
  rw [bytes] at h_s
  split at h_s
  · obtain rfl := Except.ok.inj h_s
    refine lt_of_lt_of_le (littleEndian_lt _) (Nat.pow_le_pow_right (by omega) (List.length_take_le 4 _))
  · cases h_s

/-! ### Files without holes -/

/-- **The rule of ext2** for a file without holes: the inode is in the image and has the length of the data,
and these are in the blocks that the block map has. No triply indirect block is needed. -/
structure Stores (reader : Ext2Reader) (inode : ℤ) (data : Str) : Prop where
  inode_mem : 0 ≤ inode ∧ inode + 128 ≤ reader.map.length
  size : sizeLo reader.map inode = .ok data.length
  limit : actualBlocks reader data.length < 12 + indirectBlockContents reader
    + indirectBlockContents reader * indirectBlockContents reader
  dense : ∀ i < actualBlocks reader data.length, ∃ b, MapsTo reader inode i (some b)
  bytes : ∀ i < data.length, ∀ b, MapsTo reader inode (i / reader.blockSize) (some b) →
    byteAt reader.map (b * reader.blockSize + (i % reader.blockSize : ℕ)) = data[i]?

/-- The contents of such a file: a block for each of its blocks. -/
theorem Stores.exists_content (h : Stores reader inode data) :
    ∃ content, getFileContent reader inode = .ok content ∧ content.size = data.length ∧
      content.blocks.length = actualBlocks reader data.length ∧
      ∀ i < actualBlocks reader data.length, ∃ b, MapsTo reader inode i (some b) ∧
        content.blocks[i]? = some ((b : ℤ) * reader.blockSize) := by
  obtain ⟨h_length, h_at⟩ := listed_of_dense h.dense
  refine ⟨⟨data.length, (List.range (actualBlocks reader data.length)).flatMap (found reader inode)⟩,
    getFileContent_eq_ok_iff.mpr ⟨h.size, h.limit, fun i hi => ?_,
      fun _ => exists_block_eq h.inode_mem (by omega), fun _ => exists_block_eq h.inode_mem (by omega),
      fun i hi => ?_, rfl⟩, rfl, h_length, fun i hi => ?_⟩
  · obtain ⟨a, ha⟩ := exists_block_eq h.inode_mem (i := i) (by omega)
    rw [pointerAt_direct hi, ha]
    rfl
  · obtain ⟨b, hb⟩ := h.dense i hi
    rw [(pointerAt_of_mapsTo hb).1]
    rfl
  · obtain ⟨b, hb⟩ := h.dense i hi
    exact ⟨b, hb, h_at i hi b hb⟩

/-- The bytes of the blocks are those of the data, as far as these go. -/
theorem Stores.map_byteAt (h : Stores reader inode data) (h_bs : 0 < reader.blockSize)
    (h_blocks : ∀ i < actualBlocks reader data.length, ∃ b, MapsTo reader inode i (some b) ∧
      content.blocks[i]? = some ((b : ℤ) * reader.blockSize)) :
    ((concatenation reader.blockSize content.blocks).take data.length).map (byteAt reader.map)
      = data.map some := by
  refine List.ext_getElem? fun i => ?_
  rw [List.getElem?_map, List.getElem?_map]
  by_cases hi : i < data.length
  · obtain ⟨b, h_maps, h_block⟩ := h_blocks _ (div_lt_actualBlocks h_bs hi)
    rw [List.getElem?_take_of_lt hi, getElem?_concatenation h_bs, h_block, Option.map_some, Option.map_some,
      h.bytes i hi b h_maps, List.getElem?_eq_getElem hi, Option.map_some]
  · rw [List.getElem?_take_eq_none (Nat.le_of_not_lt hi), List.getElem?_eq_none (Nat.le_of_not_lt hi)]
    rfl

/-- A read from the beginning of a block on, or at the end. -/
theorem Stores.read_eq (h : Stores reader inode data) (h_bs : 0 < reader.blockSize)
    (h_size : content.size = data.length)
    (h_length : content.blocks.length = actualBlocks reader data.length)
    (h_blocks : ∀ i < actualBlocks reader data.length, ∃ b, MapsTo reader inode i (some b) ∧
      content.blocks[i]? = some ((b : ℤ) * reader.blockSize))
    {size offset : ℕ} (h_lt : size < 0x100000000) (h_at : AtBlock data reader.blockSize offset)
    (h_offset : offset < 0x8000000000000000) (h_data : data.length < 0x8000000000000000) :
    ∃ copied, Ext2.read reader.blockSize content size offset = .ok ((count data size offset : ℕ), copied) ∧
      copied.mapM (load reader.map) = .ok ((data.drop offset).take (count data size offset)) := by
  have h_ssize : toSsize content.size = data.length := by rw [h_size, toSsize_of_lt h_data]
  by_cases h_end : data.length ≤ offset
  · have h_zero : count data size offset = 0 := by
      unfold count
      omega
    refine ⟨[], ?_, ?_⟩
    · rw [Ext2.read, h_ssize, if_neg (by omega), h_zero]
      rfl
    · rw [h_zero, List.take_zero]
      rfl
  · obtain ⟨k, rfl⟩ : ∃ k, offset = k * reader.blockSize := by
      obtain ⟨k, rfl⟩ := h_at.resolve_right h_end
      exact ⟨k, Nat.mul_comm _ _⟩
    -- the size is cut to what there is
    have h_count : (if content.size < (k * reader.blockSize + size) % 0x10000000000000000 then
        content.size - k * reader.blockSize else size) = count data size (k * reader.blockSize) := by
      rw [Nat.mod_eq_of_lt (by omega), h_size, count]
      split <;> omega
    have h_fits : count data size (k * reader.blockSize) ≤ (content.blocks.length - k) * reader.blockSize := by
      have h_le : data.length ≤ actualBlocks reader data.length * reader.blockSize := le_actualBlocks h_bs
      rw [h_length, Nat.sub_mul, count]
      omega
    have h_copy := (copy_block_eq_ok_iff h_bs).mpr ⟨h_fits, rfl⟩
    have h_le : count data size (k * reader.blockSize) ≤ size := Nat.min_le_left _ _
    refine ⟨((concatenation reader.blockSize content.blocks).drop (k * reader.blockSize)).take
      (count data size (k * reader.blockSize)), ?_, mapM_load_eq ?_⟩
    · rw [Ext2.read, h_ssize, if_pos (by omega)]
      dsimp only
      rw [h_count, h_copy, ok_bind, toSsize_of_lt (by omega)]
      rfl
    · have h_within : ((concatenation reader.blockSize content.blocks).drop (k * reader.blockSize)).take
            (count data size (k * reader.blockSize))
          = (((concatenation reader.blockSize content.blocks).take data.length).drop
              (k * reader.blockSize)).take
            (count data size (k * reader.blockSize)) := by
        have h_min : min (count data size (k * reader.blockSize)) (data.length - k * reader.blockSize)
            = count data size (k * reader.blockSize) := Nat.min_eq_left (Nat.min_le_right _ _)
        rw [List.drop_take, List.take_take, h_min]
      rw [h_within, List.map_take, List.map_drop, h.map_byteAt h_bs h_blocks, ← List.map_drop, ← List.map_take]

/-- **A file without holes** is read right from the beginning of each of its blocks on, whatever has been read
of this and of other files before. -/
theorem Stores.serves (h : Stores reader inode data) (h_bs : 0 < reader.blockSize)
    (h_inode : inodeCache[file.icache]? = some inode) :
    ServesAt (file.toReader reader inodeCache) (Cached reader inodeCache) data (AtBlock data reader.blockSize)
      0x100000000 0x8000000000000000 := by
  intro contents h_cached size h_lt offset h_offset h_at
  obtain ⟨content, h_content, h_size, h_length, h_blocks⟩ := h.exists_content
  obtain ⟨contents', h_get, h_cached'⟩ := h_cached.cachedFileContent h_inode h_content
  have h_data : data.length < 0x100000000 := lt_of_le32 h.size
  obtain ⟨copied, h_read, h_load⟩ := h.read_eq h_bs h_size h_length h_blocks h_lt h_at h_offset (by omega)
  refine ⟨contents', h_cached', ?_⟩
  have h_file : file.read reader inodeCache size offset contents
      = .ok (((count data size offset : ℕ), (data.drop offset).take (count data size offset)), contents') := by
    unfold Ext2File.read
    simp only [h_inode]
    rw [h_get, ok_bind]
    dsimp only
    rw [h_read, ok_bind]
    dsimp only
    rw [h_load, ok_bind]
    rfl
  exact congrArg Except.toOption h_file

/-! ### What has been read before -/

/-- What `Read` and `Readlink` do to the `InodeCache`s: they ask one of them for its contents. -/
def Asks (reader : Ext2Reader) (inodeCache : List ℤ) (contents contents' : Contents) : Prop :=
  ∃ icache inode content, inodeCache[icache]? = some inode ∧
    cachedFileContent reader inode icache contents = .ok (content, contents')

/-- After any number of reads of any files. -/
def Asked (reader : Ext2Reader) (inodeCache : List ℤ) : Contents → Prop :=
  Relation.ReflTransGen (Asks reader inodeCache) fun _ => none

theorem Asked.cached (h : Asked reader inodeCache contents) : Cached reader inodeCache contents := by
  induction h with
  | refl => exact cached_initial
  | tail _ h_asks ih =>
    obtain ⟨icache, inode, content, h_inode, h_get⟩ := h_asks
    -- either it has them already, or `GetFileContent` has returned them
    have h_content : ∃ content', getFileContent reader inode = .ok content' := by
      rw [cachedFileContent] at h_get
      split at h_get
      · next content' h_kept =>
        obtain ⟨inode', h_inode', h_content'⟩ := ih icache content' h_kept
        obtain rfl := Option.some.inj (h_inode.symm.trans h_inode')
        exact ⟨content', h_content'⟩
      · obtain ⟨content', h_content', -⟩ := bind_eq_ok_iff.mp h_get
        exact ⟨content', h_content'⟩
    obtain ⟨content', h_content'⟩ := h_content
    obtain ⟨contents'', h_get', h_cached⟩ := ih.cachedFileContent h_inode h_content'
    obtain ⟨-, rfl⟩ := Prod.mk.inj (Except.ok.inj (h_get.symm.trans h_get'))
    exact h_cached

/-! ### From the image to the client -/

theorem Listed.looked (h : Listed reader limit dirent nodes) : ∀ x ∈ nodes, ∀ n ∈ x.1, Looked n := by
  induction h with
  | done => exact fun x hx => absurd hx List.not_mem_nil
  | dots _ _ _ ih => exact ih
  | file _ h_name h_dots _ _ _ _ _ ih =>
    intro x hx n hn
    obtain rfl | hx := List.mem_cons.mp hx
    · exact List.mem_singleton.mp hn ▸ ⟨h_name, h_dots⟩
    · exact ih x hx n hn
  | dir _ h_name h_dots _ _ _ _ _ _ _ ih_below ih_rest =>
    intro x hx n hn
    obtain hx | hx := List.mem_append.mp hx
    · obtain rfl | hx := List.mem_cons.mp hx
      · exact List.mem_singleton.mp hn ▸ ⟨h_name, h_dots⟩
      · obtain ⟨y, hy, rfl⟩ := List.mem_map.mp hx
        obtain rfl | hn := List.mem_cons.mp hn
        · exact ⟨h_name, h_dots⟩
        · exact ih_below y hy n hn
    · exact ih_rest x hx n hn

theorem Listed.exists_mode (h : Listed reader limit dirent nodes) {q : List Str}
    (h_mem : (q, Kind.file inode) ∈ nodes) :
    ∃ n, mode reader.map inode = .ok n := by
  induction h generalizing q with
  | done => exact absurd h_mem List.not_mem_nil
  | dots _ _ _ ih => exact ih h_mem
  | file _ _ _ _ h_mode _ _ _ ih =>
    obtain h_eq | h_mem := List.mem_cons.mp h_mem
    · obtain ⟨-, h_kind⟩ := Prod.mk.inj h_eq
      obtain rfl := Kind.file.inj h_kind
      exact ⟨_, h_mode⟩
    · exact ih h_mem
  | dir _ _ _ _ _ _ _ _ _ _ ih_below ih_rest =>
    obtain h_mem | h_mem := List.mem_append.mp h_mem
    · obtain h_eq | h_mem := List.mem_cons.mp h_mem
      · cases (Prod.mk.inj h_eq).2
      · obtain ⟨y, hy, h_eq⟩ := List.mem_map.mp h_mem
        obtain ⟨-, h_kind⟩ := Prod.mk.inj h_eq
        exact ih_below (q := y.1) (h_kind ▸ hy)
    · exact ih_rest h_mem

/-- What a client finds at a path: a file with what its inode says, or a directory that has a file below
it. -/
inductive FoundAt (reader : Ext2Reader) (nodes : List (List Str × Kind)) : List Str → Stat → Prop
  | root : FoundAt reader nodes [] directoryStat
  | file {q : List Str} {inode : ℤ} {n size : ℕ} (h : (q, Kind.file inode) ∈ nodes)
    (h_mode : mode reader.map inode = .ok n) (h_size : sizeLo reader.map inode = .ok size) :
    FoundAt reader nodes q ⟨n, 0, size⟩
  | dir {q p : List Str} {inode : ℤ} (h : (q, Kind.dir) ∈ nodes) (h_file : (p, Kind.file inode) ∈ nodes)
    (h_below : q <+: p) : FoundAt reader nodes q directoryStat

/-- What a client is told of a file. (A `Getattr` that fails does not come back.) -/
def fileStat (reader : Ext2Reader) (inodeCache : List ℤ) (file : Ext2File) : Stat :=
  match file.getattr reader inodeCache with
  | .ok st => st
  | .error _ => ⟨0, 0, 0⟩

theorem fileStat_eq {n size : ℕ} (h_inode : inodeCache[file.icache]? = some inode)
    (h_mode : mode reader.map inode = .ok n) (h_size : sizeLo reader.map inode = .ok size) :
    fileStat reader inodeCache file = ⟨n, 0, size⟩ := by
  have h_getattr : file.getattr reader inodeCache = .ok ⟨n, 0, size⟩ := by
    unfold Ext2File.getattr
    simp only [h_inode]
    rw [h_mode, ok_bind, h_size]
    rfl
  rw [fileStat, h_getattr]

/-- The mount of an image with these paths. -/
structure Shown (reader : Ext2Reader) (nodes : List (List Str × Kind)) (inodeCache : List ℤ)
    (c : Container Ext2File) : Prop where
  find : ∀ depth q st, (q, st) ∈ clientFind (fileStat reader inodeCache) Container.fsOpendir c depth ↔
    q.length ≤ depth ∧ FoundAt reader nodes q st
  once : ∀ depth, ((clientFind (fileStat reader inodeCache) Container.fsOpendir c depth).map Prod.fst).Nodup
  /-- A file without holes can be opened and read in whole blocks, whatever has been read before. -/
  reads : ∀ q inode data, (q, Kind.file inode) ∈ nodes → Stores reader inode data →
    ∃ ptr a file, c.fsOpen (render q) = .ok (.ok ptr) ∧ c.deref ptr = some (.file a file) ∧
      ∀ contents, Asked reader inodeCache contents → ∀ sizes : List ℕ,
        (∀ n ∈ sizes, 0 < n ∧ n < 0x100000000 ∧ reader.blockSize ∣ n) →
        ∃ ended, (file.toReader reader inodeCache).readOn sizes contents 0 = some (data.take sizes.sum, ended) ∧
          (ended = true → data.length ≤ sizes.sum) ∧ (data.length < sizes.length → ended = true)

/-- What the container of the files shows. -/
theorem Listed.shown {c : Container Ext2File} (h : Listed reader limit dirent nodes)
    (h_bs : 0 < reader.blockSize)
    (h_sizes : ∀ q inode, (q, Kind.file inode) ∈ nodes → ∃ size, sizeLo reader.map inode = .ok size)
    (h_cached : ∀ x ∈ filesOf nodes, x.2 ∈ inodeCache)
    (h_represents : Represents c (mounted inodeCache (filesOf nodes))) : Shown reader nodes inodeCache c := by
  have h_inode {q : List Str} {inode : ℤ} (h_file : (q, Kind.file inode) ∈ nodes) :
      inodeCache[inodeCache.idxOf inode]? = some inode :=
    List.getElem?_idxOf (h_cached _ (mem_filesOf.mpr h_file))
  have h_paths : ∀ x ∈ mounted inodeCache (filesOf nodes), IsPath x.1 := by
    rintro ⟨q, file⟩ h_mem
    obtain ⟨inode, h_file, -⟩ := mem_mounted.mp h_mem
    exact h.isPath _ h_file
  have h_serves := h_represents.serves h_paths
  refine ⟨fun depth q st => ?_, fun depth => h_serves.nodup_find .plain depth,
    fun q inode data h_file h_stores => ?_⟩
  · rw [h_serves.mem_find_iff .plain, and_congr_right_iff]
    intro _
    constructor
    · rintro ⟨-, ⟨rfl, rfl⟩ | ⟨x, ⟨file, h_mem, rfl⟩ | ⟨h_dir, rfl⟩, rfl⟩⟩
      · exact .root
      · obtain ⟨inode, h_file, rfl⟩ := mem_mounted.mp h_mem
        obtain ⟨n, h_mode⟩ := h.exists_mode h_file
        obtain ⟨size, h_size⟩ := h_sizes _ _ h_file
        have h_stat : fileStat reader inodeCache ⟨inodeCache.idxOf inode⟩ = ⟨n, 0, size⟩ :=
          fileStat_eq (h_inode h_file) h_mode h_size
        rw [NewFile.getattr, h_stat]
        exact .file h_file h_mode h_size
      · obtain ⟨h_dir, p, inode, h_file, h_below⟩ := h.isAncestor_iff.mp h_dir
        exact .dir h_dir h_file h_below
    · intro h_found
      cases h_found with
      | root => exact ⟨fun n hn => absurd hn List.not_mem_nil, .inl ⟨rfl, rfl⟩⟩
      | file h_file h_mode h_size =>
        refine ⟨h.looked _ h_file, .inr ⟨_, .inl ⟨_, mem_mounted.mpr ⟨_, h_file, rfl⟩, rfl⟩, ?_⟩⟩
        exact (fileStat_eq (h_inode h_file) h_mode h_size).symm
      | dir h_dir h_file h_below =>
        exact ⟨h.looked _ h_dir,
          .inr ⟨.dir, .inr ⟨h.isAncestor_iff.mpr ⟨h_dir, _, _, h_file, h_below⟩, rfl⟩, rfl⟩⟩
  · obtain ⟨ptr, a, h_open, h_deref⟩ :=
      h_represents.fsOpen (mem_mounted.mpr ⟨inode, h_file, rfl⟩) (h.isPath _ h_file)
    refine ⟨ptr, a, _, h_open, h_deref, fun contents h_asked sizes h_blocks => ?_⟩
    have h_data : data.length < 0x100000000 := lt_of_le32 h_stores.size
    exact (h_stores.serves h_bs (h_inode h_file)).readOn_blocks (by omega) h_blocks h_asked.cached

/-- **An image is mounted.** `WalkDir` comes to its end from the root on, and a client that walks the mount
finds the files of the image at their paths, with the mode and the size of their inodes, and the directories
that have a file below them, each once, and nothing else. A file without holes that it has opened gives its
data to a reader of whole blocks, whatever has been read before through this or another name. -/
theorem mounted_image {block : ℕ} (h_bs : 0 < reader.blockSize)
    (h : Listed reader (readBlock reader block + reader.blockSize) (readBlock reader block) nodes)
    (h_sizes : ∀ q inode, (q, Kind.file inode) ∈ nodes → ∃ size, sizeLo reader.map inode = .ok size) :
    ∃ n walked c, (∀ k, n ≤ k → walkDir reader k [slash] block ⟨[], []⟩ = .ok walked) ∧
      mount Container.empty walked.adds = .ok c ∧ Shown reader nodes walked.inodeCache c := by
  obtain ⟨n, walked, c, h_walk, h_add, h_visited, h_represents⟩ := exists_walk h
  exact ⟨n, walked, c, h_walk, h_add, h.shown h_bs h_sizes h_visited.cached h_represents⟩

theorem mounted_image_nested :
    ∃ n walked c, (∀ k, n ≤ k → walkDir (pagesReader nestedImage) k [slash] 5 ⟨[], []⟩ = .ok walked) ∧
      mount Container.empty walked.adds = .ok c ∧
      Shown (pagesReader nestedImage) nestedNodes walked.inodeCache c := by
  have h_root : readBlock (pagesReader nestedImage) (5 : ℕ) = 5120 := rfl
  refine mounted_image (show 0 < 1024 by decide) (by rw [h_root]; exact listed_nested) fun q inode h_file => ?_
  have h_readme : PageNumber nestedImage 4356 4 5 := by decide +kernel
  have h_run : PageNumber nestedImage 4612 4 2 := by decide +kernel
  have h_inodes : ∀ x ∈ nestedNodes, x.2 = .dir ∨ x.2 = .file 4352 ∨ x.2 = .file 4608 := by decide
  obtain h_kind | h_kind | h_kind := h_inodes _ h_file
  · cases h_kind
  · obtain rfl := Kind.file.inj h_kind
    exact ⟨5, h_readme.read⟩
  · obtain rfl := Kind.file.inj h_kind
    exact ⟨2, h_run.read⟩

end GitlstreeFS.Ext2
