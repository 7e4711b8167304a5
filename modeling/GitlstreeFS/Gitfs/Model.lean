import GitlstreeFS.Cpp
import GitlstreeFS.GitTree
import GitlstreeFS.Memory
import GitlstreeFS.Owned
import GitlstreeFS.Posix.SysCall

/-!
# The git file system of libgit2

`experimental/gitfs.cc` reads all trees of a commit when it is mounted, through `gitxx.cc`. Each
`FileElement` owns those of its directory, from `root_` down, and `fullpath_to_files_` maps full paths, without
the slash in front, to raw pointers. The contents of a blob are copied at the first `Read`.

* The trees are those of `GitTree`. What libgit2 answers about an entry is a parameter (`Libgit2`), of which
  the documentation of libgit2 says what `Libgit2.Documents` states.
* The `FileElement`s are a `Store`. What only `Read` changes, `buf_`, is kept apart (`Buffers`).
-/

namespace GitlstreeFS.Gitfs

open GitTree (Entry)
open Owned (Ptr Store)
open Posix (Errno)

/-! ### Objects of libgit2 -/

/-- `git_otype`, as far as an entry of a tree has it. -/
inductive ObjType where
  | commit
  | tree
  | blob
  deriving DecidableEq, Repr

/-- `git_object`, as far as the program looks into it. -/
inductive GitObject where
  | commit
  | tree
  | blob (rawcontent : Str)
  deriving DecidableEq, Repr

/-- `Object::size`. -/
def GitObject.size : GitObject → ℕ
  | .blob rawcontent => rawcontent.length
  | _ => 0

/-- `Object::GetBlobContent`. -/
def GitObject.getBlobContent : GitObject → Str
  | .blob rawcontent => rawcontent
  | _ => []

/-- What the loop over a tree asks about an entry. -/
structure Libgit2 where
  /-- `git_tree_entry_type`. -/
  entryType : Entry → ObjType
  /-- `git_tree_entry_filemode`. -/
  entryFilemode : Entry → ℕ
  /-- `git_tree_entry_id`, as `git_oid_tostr` prints it. -/
  entryId : Entry → Str
  /-- `git_tree_entry_to_object`, where it sets the object. -/
  entryToObject : Entry → Option GitObject

/-- The modes that `git_filemode_t` has for a blob: a file, one that can be executed, and a symlink. -/
def blobModes : List ℕ :=
  [0x81a4, 0x81ed, 0xa000]

/-- The type is that of the object, and the mode is a `git_filemode_t`. A mode that is none is normalized. -/
def Libgit2.Documents (git : Libgit2) : Entry → Prop
  | .blob mode sha size =>
    git.entryType (.blob mode sha size) = .blob ∧ git.entryFilemode (.blob mode sha size) ∈ blobModes ∧
      (mode ∈ blobModes → git.entryFilemode (.blob mode sha size) = mode)
  | .commit sha => git.entryType (.commit sha) = .commit ∧ git.entryFilemode (.commit sha) = 0xe000
  | .tree sha es => git.entryType (.tree sha es) = .tree ∧ git.entryFilemode (.tree sha es) = 0x4000

/-! ### The tree of elements -/

/-- `FileElement`, without the elements it owns and without `buf_`. -/
structure FileElement where
  attribute_ : ℕ
  fileType : ObjType
  sha1 : Str
  size : ℤ
  /-- `object_`: null for what is no blob. -/
  object : Option GitObject
  deriving DecidableEq, Repr

/-- `GitTree`: `fullpath_to_files_`, and what `root_` owns. -/
structure GitTree where
  files : Str → Option (Ptr Str)
  owned : Store Str FileElement

/-- What stops the program or leaves it undefined. -/
inductive Misuse where
  /-- `git_tree_entry_to_object` has not set `object`. -/
  | noObject
  /-- A `git_tree *` that is none. -/
  | noTree
  /-- A pointer to an element that is gone. -/
  | destroyed
  /-- `object_` is null. -/
  | nullObject
  /-- The `assert` of `Getattr`. -/
  | assertion
  /-- `substr(1)` of an empty path. -/
  | outOfRange
  /-- Memory outside of a string. -/
  | outOfBounds
  deriving DecidableEq, Repr

section Load

variable (git : Libgit2)

/-- What `Tree::for_each_file` hands over for an entry, as a `FileElement`. The size of a blob becomes an
`int`. -/
def newElement (e : Entry) : Except Misuse FileElement :=
  if git.entryType e = .blob then
    match git.entryToObject e with
    | none => .error .noObject
    | some object =>
      .ok ⟨git.entryFilemode e, git.entryType e, git.entryId e, toInt object.size, some object⟩
  else .ok ⟨git.entryFilemode e, git.entryType e, git.entryId e, 0, none⟩

/-- The first handler of `LoadDirectory`: `(*files)[name].reset(fe)` in the element at `loc`, and the index. -/
def GitTree.fileHandler (t : GitTree) (loc : List Str) (subdir name : Str) (fe : FileElement) : GitTree where
  files := Function.update t.files (subdir ++ name) (some ⟨loc ++ [name], t.owned.next⟩)
  owned := t.owned.reset (loc ++ [name]) fe

/-- `LoadDirectory` into the `files_` of the element at `loc`, with the loop of `for_each_file`. -/
def GitTree.loadDirectory (t : GitTree) (loc : List Str) (subdir : Str) :
    List (Str × Entry) → Except Misuse GitTree
  | [] => .ok t
  | (name, e) :: tree => do
    let fe ← newElement git e
    let t := t.fileHandler loc subdir name fe
    let t ←
      if git.entryType e = .tree then
        match e with
        | .tree _ subtree =>
          match git.entryToObject e with
          | none => .error .noObject
          | some .tree => t.loadDirectory (loc ++ [name]) (subdir ++ name ++ [slash]) subtree
          | some _ => .error .noTree
        | _ => .error .noTree
      else .ok t
    t.loadDirectory loc subdir tree
  termination_by tree => sizeOf tree

/-- `root_`. -/
def rootElement : FileElement :=
  ⟨0x4000, .tree, str "TODO", 0, none⟩

/-- With `root_` alone, and nothing in the index. -/
def GitTree.rootOnly : GitTree :=
  ⟨fun _ => none, ⟨[(⟨[], 0⟩, rootElement)], 1⟩⟩

/-- The constructor, for the tree of the commit. -/
def GitTree.make (tree : List (Str × Entry)) : Except Misuse GitTree := do
  let t ← GitTree.rootOnly.loadDirectory git [] [] tree
  .ok { t with files := Function.update t.files [] (some ⟨[], 0⟩) }

end Load

/-! ### Attributes and contents -/

/-- `Getattr` of an element. -/
def FileElement.getattr (f : FileElement) : Except Misuse Stat :=
  if f.attribute_ = sIFDIR then
    if f.fileType = .tree then .ok ⟨sIFDIR ||| 0x1ed, 2, f.size⟩ else .error .assertion
  else if f.attribute_ = sIFLNK then .ok ⟨sIFLNK ||| 0x1a4, 1, f.size⟩
  else .ok ⟨sIFREG ||| f.attribute_, 1, f.size⟩

/-- `buf_` of each element. -/
abbrev Buffers := Ptr Str → Option Str

/-- The first block of `FileElement::Read`, under `buf_mutex_`: the buffer, once it has been filled. -/
def FileElement.fill (f : FileElement) (ptr : Ptr Str) (bufs : Buffers) : Except Misuse (Str × Buffers) :=
  match bufs ptr, f.object with
  | some buf, _ => .ok (buf, bufs)
  | none, some object =>
    .ok (object.getBlobContent, Function.update bufs ptr (some object.getBlobContent))
  | none, none => .error .nullObject

/-- `FileElement::Read`. -/
def FileElement.read (f : FileElement) (ptr : Ptr Str) (size offset : ℕ) (bufs : Buffers) :
    Except Misuse ((ℤ × Str) × Buffers) := do
  let (buf, bufs) ← f.fill ptr bufs
  match readString buf size offset with
  | none => .error .outOfBounds
  | some result => .ok (result, bufs)

/-! ### The callbacks of `gitfs_fusemain.cc` -/

namespace GitTree

variable (t : GitTree)

/-- `get`, and what the pointer leads to. -/
def get (fullpath : Str) : Except Misuse (Option (Ptr Str × FileElement)) :=
  match t.files fullpath with
  | none => .ok none
  | some ptr =>
    match t.owned.deref ptr with
    | none => .error .destroyed
    | some f => .ok (some (ptr, f))

/-- `fs_getattr`: `Getattr`. -/
def fsGetattr (path : Str) : Except Misuse (Except Errno Stat) :=
  if path = [] then .error .outOfRange
  else do
    match ← t.get (path.drop 1) with
    | none => .ok (.error .ENOENT)
    | some (_, f) => (f.getattr).map .ok

/-- `fs_readdir`: the names that `filler` is called with. -/
def fsReaddir (path : Str) : Except Misuse (Except Errno (List Str)) :=
  if path.head? ≠ some slash then .ok (.error .ENOENT)
  else
    match t.files (path.drop 1) with
    | none => .ok (.error .ENOENT)
    | some ptr =>
      match t.owned.deref ptr with
      | none => .error .destroyed
      | some _ => .ok (.ok ([str ".", str ".."] ++ t.owned.names ptr.loc))

/-- `fs_open`, which only asks whether there is a pointer. -/
def fsOpen (path : Str) : Except Errno Unit :=
  if path.head? ≠ some slash then .error .ENOENT
  else if (t.files (path.drop 1)).isSome then .ok () else .error .ENOENT

/-- `fs_read`. -/
def fsRead (path : Str) (size offset : ℕ) (bufs : Buffers) :
    Except Misuse (Except Errno (ℤ × Str) × Buffers) :=
  if path.head? ≠ some slash then .ok (.error .ENOENT, bufs)
  else do
    match ← t.get (path.drop 1) with
    | none => .ok (.error .ENOENT, bufs)
    | some (ptr, f) =>
      let (result, bufs) ← f.read ptr size offset bufs
      .ok (.ok result, bufs)

end GitTree

end GitlstreeFS.Gitfs
