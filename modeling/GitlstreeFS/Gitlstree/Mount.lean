import GitlstreeFS.Container.Mount
import GitlstreeFS.Gitlstree.Handles
import GitlstreeFS.Gitlstree.Head
import GitlstreeFS.Gitlstree.Listing

/-!
# The mounted tree

From `git ls-tree` to the client: `LoadDirectory` reads the listing into the container, `git_adapter` answers
with it, and a client that walks the mount finds the entries of the tree (`mounted_listing`). A handle of a
file leads back to its entry: `fs_getattr` with it says the same as without, and the ioctl of
`gitlstree_fusemain.cc` gives the hash.

`fs_open` opens the file too, and `FileElement::Open` ends the process where it gets no content for the blob:
the object is missing, as the commit of a submodule is, or it is empty, so that it cannot be mapped.
-/

namespace GitlstreeFS.Gitlstree

open Client (Looked)
open DirectoryContainer

/-! ### The callbacks -/

/-- `Getattr`, where the message of the `StatusHandler` is `message` now. -/
def File.getattr (message : Str) : File → Stat
  | .element e => e.getattr
  | .status => ⟨sIFREG ||| 0o400, 1, message.length⟩
  | .head rev => (GitHeadHandler.make rev).getattr

/-- `Open`: the value, and `memory_` behind it. `got` is what `get` returns, if it is called; where its
`fetch` has ended the process, there is nothing either. -/
def File.openFile (got memory : Option ℕ) : File → Except CallFault (ℤ × Option ℕ)
  | .element _ => (Gitlstree.openFile got memory).map fun r => (r.1.value, r.2)
  | .status => .ok (0, memory)
  | .head _ => .ok (0, memory)

/-- How `fs_open` ends where it does not return. -/
inductive OpenFault where
  | misuse (x : Misuse)
  | call (x : CallFault)
  deriving DecidableEq, Repr

/-- `fs_open` of `git_adapter`, which does not look at what `Open` returns: the handle, and `memory_` of the
file. -/
def fsOpen (c : Container File) (got memory : Option ℕ) (path : Str) :
    Except OpenFault (Except Posix.Errno Ptr × Option ℕ) :=
  if path.head? ≠ some slash then .ok (.error .ENOENT, memory)
  else
    match c.get path with
    | none => .ok (.error .ENOENT, memory)
    | some ptr =>
      match c.deref ptr with
      | none => .error (.misuse .destroyed)
      | some (.dir _ _) => .ok (.ok ptr, memory)
      | some (.file _ f) =>
        match f.openFile got memory with
        | .error x => .error (.call x)
        | .ok (_, memory) => .ok (.ok ptr, memory)

/-- `FileElement::GetHash`: forty bytes from the data of `sha1_`, which a zero ends. -/
def FileElement.getHash (e : FileElement) : Option Str :=
  if 40 ≤ e.sha1.length + 1 then some ((e.sha1 ++ [0]).take 40) else none

/-- `fs_ioctl` with `IOCTL_GIT_HASH`. -/
def fsIoctlGitHash (c : Container File) (fi : Ptr) : Except Misuse (Except Posix.Errno (Option Str)) :=
  match c.deref fi with
  | none => .error .destroyed
  | some (.file _ (.element e)) => .ok (.ok e.getHash)
  | some _ => .ok (.error .ENOENT)

/-! ### From the listing to the client -/

variable {entries : List Entry} {lines : List Str} {ref hash : Str} {runGitCommand : List Str → Str × ℤ}
  {c : Container File}

/-- What a client finds at a path: an entry, a file of the file system's own, or a directory. -/
inductive Found (entries : List Entry) (hash message : Str) : List Str → Stat → Prop
  | root : Found entries hash message [] directoryStat
  | entry {e : Entry} (h : e ∈ entries) : Found entries hash message e.path e.element.getattr
  | own {o : List Str × File} (h : o ∈ own hash) : Found entries hash message o.1 (o.2.getattr message)
  | above {q : List Str} (h : IsAncestor (files entries hash) q) : Found entries hash message q directoryStat

theorem found_iff {message : Str} {q : List Str} {st : Stat} : Found entries hash message q st ↔
    q = [] ∧ st = directoryStat ∨
      ∃ x, Above (files entries hash) q x ∧ st = x.getattr (File.getattr message) := by
  constructor
  · rintro (_ | h | h | h)
    · exact .inl ⟨rfl, rfl⟩
    · exact .inr ⟨_, .inl ⟨_, List.mem_append_left _ (List.mem_map_of_mem h), rfl⟩, rfl⟩
    · exact .inr ⟨_, .inl ⟨_, List.mem_append_right _ h, rfl⟩, rfl⟩
    · exact .inr ⟨_, .inr ⟨h, rfl⟩, rfl⟩
  · rintro (⟨rfl, rfl⟩ | ⟨x, ⟨f, h_mem, rfl⟩ | ⟨h_dir, rfl⟩, rfl⟩)
    · exact .root
    · obtain h_entry | h_own := List.mem_append.mp h_mem
      · obtain ⟨e, he, h_eq⟩ := List.mem_map.mp h_entry
        obtain ⟨rfl, rfl⟩ := Prod.mk.inj h_eq
        exact .entry he
      · exact .own h_own
    · exact .above h_dir

/-- A file is opened as its `Open` is. -/
theorem exists_open (h : Represents c (files entries hash)) {q : List Str} {f : File}
    (h_mem : (q, f) ∈ files entries hash) (h_q : IsPath q) :
    ∃ ptr a, c.deref ptr = some (.file a f) ∧ ∀ got memory, fsOpen c got memory (render q) =
      match f.openFile got memory with
      | .error x => .error (.call x)
      | .ok (_, memory) => .ok (.ok ptr, memory) := by
  obtain ⟨ptr, a, h_get, h_deref⟩ := h.file _ h_mem
  have h_slash : (render q).head? = some slash := by
    obtain ⟨n, q, rfl⟩ := List.exists_cons_of_ne_nil h_q.ne_nil
    rfl
  dsimp only at h_get h_deref
  refine ⟨ptr, a, h_deref, fun got memory => ?_⟩
  rw [fsOpen, if_neg (by simp [h_slash]), h_get]
  simp only [h_deref]

/-- **An entry can be opened just if there is content for it**, and else the process ends. An open file leads
to its entry. -/
structure Opens (c : Container File) (e : Entry) (message : Str) : Prop where
  aborts : ∀ got memory, (memory <|> got) = none →
    fsOpen c got memory (render e.path) = .error (.call .aborted)
  opens : ∃ ptr, (∀ got memory p, (memory <|> got) = some p →
      fsOpen c got memory (render e.path) = .ok (.ok ptr, some p)) ∧
    c.fsGetattr (File.getattr message) (render e.path) (some ptr) = .ok (.ok e.element.getattr) ∧
    fsIoctlGitHash c ptr = .ok (.ok (some e.sha))

theorem opens_entry (h : Represents c (files entries hash)) {e : Entry} (he : e ∈ entries)
    (h_wf : e.WellFormed) (message : Str) : Opens c e message := by
  have h_mem : (e.path, File.element e.element) ∈ files entries hash :=
    List.mem_append_left _ (List.mem_map_of_mem he)
  obtain ⟨ptr, a, h_deref, h_open⟩ := exists_open h h_mem h_wf.isPath
  have h_hash : e.element.getHash = some e.sha := by
    have h_sha : e.element.sha1 = e.sha := rfl
    rw [FileElement.getHash, h_sha, if_pos (by have := h_wf.sha_length; omega),
      List.take_append_of_le_length (Nat.le_of_eq h_wf.sha_length.symm), ← h_wf.sha_length, List.take_length]
  refine ⟨fun got memory h_none => ?_, ptr, fun got memory p h_some => ?_, ?_, ?_⟩
  · rw [h_open, File.openFile, Gitlstree.openFile, maybeCatFileLocked_aborts h_none]
    rfl
  · rw [h_open, File.openFile, Gitlstree.openFile, maybeCatFileLocked_eq_ok h_some]
    rfl
  · rw [Container.fsGetattr, Container.getattrAt, h_deref]
    rfl
  · rw [fsIoctlGitHash, h_deref]
    simp only [h_hash]

/-- The files that the file system has for itself can always be opened. -/
theorem exists_open_own (h : Represents c (files entries hash)) {o : List Str × File} (ho : o ∈ own hash) :
    ∃ ptr, ∀ got memory, fsOpen c got memory (render o.1) = .ok (.ok ptr, memory) := by
  have h_mem : (o.1, o.2) ∈ files entries hash := List.mem_append_right _ ho
  obtain rfl | rfl : o = _ ∨ o = _ := by simpa [own] using ho
  · obtain ⟨ptr, -, -, h_open⟩ := exists_open h h_mem (by decide : IsPath [str ".status"])
    exact ⟨ptr, h_open⟩
  · obtain ⟨ptr, -, -, h_open⟩ := exists_open h h_mem (by decide : IsPath [str ".git", str "HEAD"])
    exact ⟨ptr, h_open⟩

/-- **The listing is mounted.** If `LoadDirectory` can read the listing, then a client that walks the mount
finds each entry at its path, with the mode and the size of the listing, the two files that the file system
has for itself, the directories above all these, each once, and nothing else; it can open an entry just if
there is content for it, and can ask an open one for its hash. -/
theorem mounted_listing (h : Prints runGitCommand ref hash lines) (h_lines : List.Forall₂ IsLine entries lines)
    (h_wf : ∀ e ∈ entries, e.WellFormed)
    (h_free : PrefixFree (entries.map fun e => (e.path, File.element e.element)))
    (h_read : Readable entries lines) (h_looked : ∀ e ∈ entries, ∀ n ∈ e.path, Looked n) :
    ∃ c, loadDirectory runGitCommand ref Container.empty = .ok (true, c) ∧
      (∀ message depth,
        ((clientFind (File.getattr message) Container.gitFsOpendir c depth).map Prod.fst).Nodup ∧
        ∀ q st, (q, st) ∈ clientFind (File.getattr message) Container.gitFsOpendir c depth ↔
          q.length ≤ depth ∧ Found entries hash message q st) ∧
      (∀ e ∈ entries, ∀ message, Opens c e message) ∧
      ∀ o ∈ own hash, ∃ ptr, ∀ got memory, fsOpen c got memory (render o.1) = .ok (.ok ptr, memory) := by
  obtain ⟨c, h_load, h_represents⟩ := complete_of_readable h h_lines h_wf h_free h_read
  have h_serves := h_represents.serves (files_isPath h_wf)
  refine ⟨c, h_load, fun message depth => ⟨h_serves.nodup_find .git depth, fun q st => ?_⟩,
    fun e he message => opens_entry h_represents he (h_wf e he) message,
    fun o ho => exists_open_own h_represents ho⟩
  rw [h_serves.mem_find_iff .git, found_iff, and_congr_right_iff]
  refine fun _ => and_iff_right_of_imp fun h_found n hn => ?_
  -- each name is one of the path of a file
  have h_file (x : List Str × File) (hx : x ∈ files entries hash) (hn : n ∈ x.1) : Looked n := by
    obtain h_entry | h_own := List.mem_append.mp hx
    · obtain ⟨e, he, rfl⟩ := List.mem_map.mp h_entry
      exact h_looked e he n hn
    · obtain rfl | rfl : x = _ ∨ x = _ := by simpa [own] using h_own
      · exact (by decide : ∀ n ∈ [str ".status"], Looked n) n hn
      · exact (by decide : ∀ n ∈ [str ".git", str "HEAD"], Looked n) n hn
  obtain ⟨rfl, -⟩ | ⟨x, ⟨f, h_mem, -⟩ | ⟨⟨-, y, hy, h_pre, -⟩, -⟩, -⟩ := h_found
  · exact absurd hn List.not_mem_nil
  · exact h_file _ h_mem hn
  · exact h_file y hy (h_pre.subset hn)

theorem mounted_listing_nested :
    ∃ c, loadDirectory printsNested (str "HEAD") Container.empty = .ok (true, c) ∧
      (∀ message depth,
        ((clientFind (File.getattr message) Container.gitFsOpendir c depth).map Prod.fst).Nodup ∧
        ∀ q st, (q, st) ∈ clientFind (File.getattr message) Container.gitFsOpendir c depth ↔
          q.length ≤ depth ∧ Found nestedEntries (str "5c7b") message q st) ∧
      (∀ e ∈ nestedEntries, ∀ message, Opens c e message) ∧
      ∀ o ∈ own (str "5c7b"), ∃ ptr, ∀ got memory,
        fsOpen c got memory (render o.1) = .ok (.ok ptr, memory) :=
  mounted_listing printsNested_prints isLine_nested nested_wellFormed (by decide) nested_readable (by decide)

end GitlstreeFS.Gitlstree
