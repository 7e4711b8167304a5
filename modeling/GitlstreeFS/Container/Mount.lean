import GitlstreeFS.Client
import GitlstreeFS.Container.Look
import GitlstreeFS.Posix.SysCall

/-!
# What a client sees of a container

Five file systems keep their files in a `DirectoryContainer` and answer FUSE with the same few callbacks:
`gitlstree` and `git-githubfs` through `git_adapter.cc`, and `ninjafs`, `cpiofs` and `ext2` with callbacks of
their own, which differ from it in `fs_opendir`.

A client knows paths and names only. It goes from a directory to the names in it, and from these to paths,
which the callbacks look up in the index. `Serves` says which paths a container has, in its index and in its
directories, and `mem_find_iff` that then a client which walks the mount comes to these, each once, whichever
of the callbacks answer.
-/

namespace GitlstreeFS.DirectoryContainer

open Client (Looked)

variable {F : Type}

/-! ### The callbacks -/

/-- `fi->fh`: a pointer to a file, or null. -/
abbrev Fh := Option Ptr

/-- `Directory::Getattr`, of a `stat` that is zero before. -/
def directoryStat : Stat :=
  ⟨sIFDIR ||| 0x1ed, 2, 0⟩

/-- `Getattr` of a file. -/
def NewFile.getattr (fileStat : F → Stat) : NewFile F → Stat
  | .file f => fileStat f
  | .dir => directoryStat

namespace Container

/-- `f->Getattr` through a pointer. -/
def getattrAt (fileStat : F → Stat) (c : Container F) (ptr : Ptr) : Except Misuse (Except Posix.Errno Stat) :=
  match c.deref ptr with
  | none => .error .destroyed
  | some t => .ok (.ok (t.kind.getattr fileStat))

/-- `DirectoryContainer::Getattr`. -/
def getattr (fileStat : F → Stat) (c : Container F) (path : Str) : Except Misuse (Except Posix.Errno Stat) :=
  match c.get path with
  | none => .ok (.error .ENOENT)
  | some ptr => c.getattrAt fileStat ptr

/-- `dynamic_cast<Directory *>(fs->mutable_get(path))`. -/
def castDirectory (c : Container F) (path : Str) : Except Misuse Fh :=
  match c.get path with
  | none => .ok none
  | some ptr =>
    match c.deref ptr with
    | none => .error .destroyed
    | some (.file _ _) => .ok none
    | some (.dir _ _) => .ok (some ptr)

/-- `fs_getattr`. A client that has the file open passes its handle. -/
def fsGetattr (fileStat : F → Stat) (c : Container F) (path : Str) (fi : Option Ptr) :
    Except Misuse (Except Posix.Errno Stat) :=
  match fi with
  | some ptr => c.getattrAt fileStat ptr
  | none => c.getattr fileStat path

/-- `fs_opendir` of `ninjafs`, `cpiofs` and `ext2`. What is no directory leaves a null handle. -/
def fsOpendir (c : Container F) (path : Str) : Except Misuse (Except Posix.Errno Fh) :=
  if path = [] then .ok (.error .ENOENT)
  else (c.castDirectory path).map .ok

/-- `fs_opendir` of `git_adapter`. -/
def gitFsOpendir (c : Container F) (path : Str) : Except Misuse (Except Posix.Errno Fh) :=
  if path.head? ≠ some slash then .ok (.error .ENOENT)
  else
    (c.castDirectory path).map fun
      | none => .error .ENOENT
      | some ptr => .ok (some ptr)

/-- `fs_readdir`, the same everywhere: what `filler` is called with, and what is returned. -/
def fsReaddir (c : Container F) (fh : Fh) : Except Misuse (List Str × Except Posix.Errno Unit) :=
  match fh with
  | none => .ok ([str ".", str ".."], .error .ENOENT)
  | some ptr =>
    match c.deref ptr with
    | none => .error .destroyed
    | some (.file _ _) => .error .notDirectory
    | some (.dir _ es) => .ok ([str ".", str ".."] ++ es.map Prod.fst, .ok ())

/-- `fs_open` of `cpiofs` and `ext2`, where `Open` of a file does nothing. A directory does not let itself be
opened. -/
def fsOpen (c : Container F) (path : Str) : Except Misuse (Except Posix.Errno Ptr) :=
  if path = [] then .ok (.error .ENOENT)
  else
    match c.get path with
    | none => .ok (.error .ENOENT)
    | some ptr =>
      match c.deref ptr with
      | none => .error .destroyed
      | some (.file _ _) => .ok (.ok ptr)
      | some (.dir _ _) => .ok (.error .EINVAL)

/-- A sequence of calls `fs->add(path, f)` in a loop. -/
def addFiles : Container F → List (Str × F) → Except Misuse (Container F)
  | c, [] => .ok c
  | c, (path, f) :: files =>
    match c.add path (.file f) with
    | .error e => .error e
    | .ok c' => addFiles c' files

theorem addFiles_render (c : Container F) (files : List (List Str × F)) :
    c.addFiles (files.map fun e => (render e.1, e.2)) = c.addAll (files.map fun e => (e.1, .file e.2)) := by
  induction files generalizing c with
  | nil => rfl
  | cons e files ih =>
    rw [List.map_cons, List.map_cons, addFiles, addAll]
    cases c.add (render e.1) (.file e.2) with
    | error _ => rfl
    | ok c' => exact ih c'

end Container

/-! ### A client -/

/-- Which `fs_opendir` a file system has. -/
inductive OpendirOf (F : Type) : (Container F → Str → Except Misuse (Except Posix.Errno Fh)) → Prop
  | plain : OpendirOf F Container.fsOpendir
  | git : OpendirOf F Container.gitFsOpendir

section Client

variable (fileStat : F → Stat) (opendir : Container F → Str → Except Misuse (Except Posix.Errno Fh))
  (c : Container F)

/-- `opendir`, and `readdir` to the end. -/
def clientList (path : Str) : Option (List Str) :=
  match opendir c path with
  | .ok (.ok fh) =>
    match c.fsReaddir fh with
    | .ok (names, .ok ()) => some names
    | _ => none
  | _ => none

/-- `stat`. -/
def clientStat (path : Str) : Option Stat :=
  match c.fsGetattr fileStat path none with
  | .ok (.ok st) => some st
  | _ => none

/-- `find` on the mount, from its root down to a depth. -/
def clientFind (depth : ℕ) : List (List Str × Stat) :=
  Client.find (clientStat fileStat c) (clientList opendir c) depth

end Client

/-! ### Containers that serve a tree -/

/-- The index and the directories have what `T` says, besides the root. -/
structure Serves (c : Container F) (T : List Str → NewFile F → Prop) : Prop where
  root : c.isDirectory [slash] = true
  look : ∀ q x, IsPath q → (c.look (render q) = some (some x) ↔ T q x)
  isPath : ∀ q x, T q x → IsPath q
  above : ∀ q n x, T (q ++ [n]) x → q = [] ∨ T q .dir
  children : ∀ q, q = [] ∨ T q .dir → ∀ n, n ∈ (c.forEach (dirPath q)).map Prod.fst ↔ ∃ x, T (q ++ [n]) x
  once : ∀ s, ((c.forEach s).map Prod.fst).Nodup

variable {c : Container F} {S : List (List Str × F)} {T : List Str → NewFile F → Prop} {q : List Str} {n : Str}
  {x : NewFile F} {fileStat : F → Stat} {opendir : Container F → Str → Except Misuse (Except Posix.Errno Fh)}

/-- The files `S` and the directories above them. -/
def Above (S : List (List Str × F)) (q : List Str) (x : NewFile F) : Prop :=
  (∃ f, (q, f) ∈ S ∧ x = .file f) ∨ IsAncestor S q ∧ x = .dir

theorem isDirectory_iff_look {s : Str} : c.isDirectory s = true ↔ c.look s = some (some .dir) := by
  rw [Container.isDirectory, Container.look, Container.get]
  cases c.files s with
  | none => simp
  | some ptr =>
    dsimp only [Option.map_some]
    rcases c.deref ptr with _ | ⟨a, f⟩ | ⟨a, es⟩ <;> simp [Node.kind]

/-- **A container that represents files serves them.** -/
theorem Represents.serves (h : Represents c S) (h_paths : ∀ e ∈ S, IsPath e.1) : Serves c (Above S) where
  root := (h.directories _).mpr (.inl rfl)
  look q x hq := by
    have h_of_above (y : NewFile F) (h_y : Above S q y) : c.look (render q) = some (some y) := by
      obtain ⟨f, h_mem, rfl⟩ | ⟨h_dir, rfl⟩ := h_y
      · exact h.look h_mem
      · exact isDirectory_iff_look.mp ((h.directories _).mpr (.inr ⟨q, rfl, h_dir⟩))
    refine ⟨fun h_look => ?_, h_of_above x⟩
    have h_get : c.get (render q) ≠ none := by
      intro h_none
      rw [Container.look, h_none] at h_look
      cases h_look
    obtain ⟨y, h_y⟩ : ∃ y, Above S q y := by
      obtain h_root | ⟨p, h_eq, h_p⟩ := (h.keys _).mp h_get
      · exact absurd h_root (render_ne_slash hq)
      · have hp : IsPath p := by
          obtain ⟨e, he, rfl⟩ | h_dir := h_p
          · exact h_paths e he
          · exact isPath_of_isAncestor h_paths h_dir
        obtain rfl := render_inj hq.isName hp.isName h_eq
        obtain ⟨e, he, rfl⟩ | h_dir := h_p
        · exact ⟨.file e.2, .inl ⟨e.2, he, rfl⟩⟩
        · exact ⟨.dir, .inr ⟨h_dir, rfl⟩⟩
    obtain rfl : y = x := by simpa using (h_of_above y h_y).symm.trans h_look
    exact h_y
  isPath q x h_x := by
    obtain ⟨f, h_mem, -⟩ | ⟨h_dir, -⟩ := h_x
    · exact h_paths _ h_mem
    · exact isPath_of_isAncestor h_paths h_dir
  above q n x h_x := by
    by_cases hq : q = []
    · exact .inl hq
    · have h_pre : q <+: q ++ [n] := List.prefix_append q [n]
      have h_ne {p : List Str} (h_p : q ++ [n] <+: p) : q ≠ p := by
        rintro rfl
        exact absurd h_p.length_le (by simp)
      obtain ⟨f, h_mem, -⟩ | ⟨⟨-, e, he, h_e, -⟩, -⟩ := h_x
      · exact .inr (.inr ⟨⟨hq, _, h_mem, h_pre, h_ne (List.prefix_refl _)⟩, rfl⟩)
      · exact .inr (.inr ⟨⟨hq, e, he, h_pre.trans h_e, h_ne h_e⟩, rfl⟩)
  children q hq n := by
    have h_dir : q = [] ∨ IsAncestor S q := by
      obtain rfl | ⟨f, -, h_file⟩ | ⟨h_dir, -⟩ := hq
      · exact .inl rfl
      · cases h_file
      · exact .inr h_dir
    rw [h.children q h_dir n]
    constructor
    · rintro ⟨e, he, h_pre⟩
      by_cases h_eq : q ++ [n] = e.1
      · exact ⟨.file e.2, .inl ⟨e.2, h_eq ▸ he, rfl⟩⟩
      · exact ⟨.dir, .inr ⟨⟨by simp, e, he, h_pre, h_eq⟩, rfl⟩⟩
    · rintro ⟨x, ⟨f, h_mem, -⟩ | ⟨⟨-, e, he, h_pre, -⟩, -⟩⟩
      · exact ⟨_, h_mem, List.prefix_refl _⟩
      · exact ⟨e, he, h_pre⟩
  once := h.once

/-- What is opened is the file. -/
theorem Represents.fsOpen (h : Represents c S) {f : F} (h_mem : (q, f) ∈ S) (hq : IsPath q) :
    ∃ ptr a, c.fsOpen (render q) = .ok (.ok ptr) ∧ c.deref ptr = some (.file a f) := by
  obtain ⟨ptr, a, h_get, h_deref⟩ := h.file _ h_mem
  refine ⟨ptr, a, ?_, h_deref⟩
  have h_nil : render q ≠ [] := by
    obtain ⟨n, r, rfl⟩ := List.exists_cons_of_ne_nil hq.ne_nil
    exact List.cons_ne_nil _ _
  rw [Container.fsOpen, if_neg h_nil]
  simp only [h_get, h_deref]

/-- The directories depend on the paths only. -/
theorem isAncestor_congr {G : Type} {S' : List (List Str × G)} (h : S.map Prod.fst = S'.map Prod.fst) :
    IsAncestor S q ↔ IsAncestor S' q := by
  have h_of {A B : Type} {L : List (List Str × A)} {L' : List (List Str × B)}
      (h : L.map Prod.fst = L'.map Prod.fst) (h_q : IsAncestor L q) : IsAncestor L' q := by
    obtain ⟨hq, e, he, h_pre⟩ := h_q
    obtain ⟨e', he', h_eq⟩ := List.mem_map.mp (h ▸ List.mem_map_of_mem he)
    exact ⟨hq, e', he', h_eq ▸ h_pre⟩
  exact ⟨h_of h, h_of h.symm⟩

/-! ### What the client gets -/

theorem dirPath_eq_slash_cons (q : List Str) : ∃ r, dirPath q = slash :: r := by
  rw [dirPath]
  cases q with
  | nil => exact ⟨[], rfl⟩
  | cons n q => exact ⟨n ++ render q, rfl⟩

theorem clientStat_eq (s : Str) : clientStat fileStat c s = (c.look s).join.map (NewFile.getattr fileStat) := by
  rw [clientStat, Container.fsGetattr, Container.getattr, Container.look]
  cases c.get s with
  | none => rfl
  | some ptr =>
    rw [Option.map_some, Option.join_some]
    dsimp only [Container.getattrAt]
    cases c.deref ptr <;> rfl

/-- A directory lists its entries, whichever `fs_opendir` there is. -/
theorem clientList_eq (h_opendir : OpendirOf F opendir) (h : c.isDirectory (dirPath q) = true) :
    clientList opendir c (dirPath q)
      = some ([str ".", str ".."] ++ (c.forEach (dirPath q)).map Prod.fst) := by
  obtain ⟨r, h_path⟩ := dirPath_eq_slash_cons q
  rw [h_path] at h ⊢
  obtain ⟨ptr, a, es, h_get, h_deref⟩ : ∃ ptr a es, c.get (slash :: r) = some ptr ∧
      c.deref ptr = some (.dir a es) := by
    rw [Container.isDirectory] at h
    rw [Container.get]
    cases h_files : c.files (slash :: r) with
    | none => simp [h_files] at h
    | some ptr =>
      rw [h_files] at h
      dsimp only at h
      rcases h_deref : c.deref ptr with _ | ⟨a, f⟩ | ⟨a, es⟩
      · simp [h_deref] at h
      · simp [h_deref] at h
      · exact ⟨ptr, a, es, rfl, h_deref⟩
  have h_cast : c.castDirectory (slash :: r) = .ok (some ptr) := by
    rw [Container.castDirectory, h_get]
    simp only [h_deref]
  have h_open : opendir c (slash :: r) = .ok (.ok (some ptr)) := by
    cases h_opendir with
    | plain => rw [Container.fsOpendir, if_neg (List.cons_ne_nil _ _), h_cast]; rfl
    | git => rw [Container.gitFsOpendir, if_neg (by simp), h_cast]; rfl
  have h_each : c.forEach (slash :: r) = es := by
    rw [Container.forEach, h_get]
    simp only [h_deref]
  rw [clientList, h_open, h_each]
  simp only [Container.fsReaddir, h_deref]

/-- Nothing else lists anything: a null handle, or no handle at all. -/
theorem clientList_eq_none (h_opendir : OpendirOf F opendir) {s : Str} (h : c.isDirectory s = false) :
    clientList opendir c s = none := by
  have h_cast : c.castDirectory s = .ok none ∨ c.castDirectory s = .error .destroyed := by
    rw [Container.isDirectory] at h
    rw [Container.castDirectory, Container.get]
    cases h_files : c.files s with
    | none => exact .inl rfl
    | some ptr =>
      rw [h_files] at h
      dsimp only at h ⊢
      rcases h_deref : c.deref ptr with _ | ⟨a, f⟩ | ⟨a, es⟩
      · exact .inr rfl
      · exact .inl rfl
      · simp [h_deref] at h
  rw [clientList]
  cases h_opendir with
  | plain =>
    rw [Container.fsOpendir]
    split_ifs with h_nil
    · rfl
    · obtain h_cast | h_cast := h_cast <;> rw [h_cast] <;> rfl
  | git =>
    rw [Container.gitFsOpendir]
    split_ifs with h_slash
    · rfl
    · obtain h_cast | h_cast := h_cast <;> rw [h_cast] <;> rfl

namespace Serves

variable (h : Serves c T)

include h

theorem clientStat_root : clientStat fileStat c (dirPath []) = some directoryStat := by
  have h_look : c.look [slash] = some (some .dir) := isDirectory_iff_look.mp h.root
  rw [clientStat_eq, dirPath, if_pos rfl, h_look]
  rfl

theorem clientStat_iff (hq : IsPath q) {st : Stat} : clientStat fileStat c (dirPath q) = some st ↔
    ∃ x, T q x ∧ st = x.getattr fileStat := by
  rw [clientStat_eq, dirPath, if_neg hq.ne_nil, Option.map_eq_some_iff]
  refine exists_congr fun x => ?_
  rw [← h.look q x hq, Option.join_eq_some_iff, eq_comm (b := st)]

theorem isDirectory_iff (hq : ∀ n ∈ q, IsName n) :
    c.isDirectory (dirPath q) = true ↔ q = [] ∨ T q .dir := by
  by_cases h_nil : q = []
  · subst h_nil
    exact iff_of_true h.root (.inl rfl)
  · rw [isDirectory_iff_look, dirPath, if_neg h_nil, h.look q .dir ⟨h_nil, hq⟩, or_iff_right h_nil]

/-- **The callbacks serve the tree** of what the container has. -/
theorem servesTree (h_opendir : OpendirOf F opendir) :
    Client.ServesTree (clientStat fileStat c) (clientList opendir c)
      fun q st => q = [] ∧ st = directoryStat ∨ ∃ x, T q x ∧ st = x.getattr fileStat where
  stat q h_looked st := by
    by_cases h_nil : q = []
    · subst h_nil
      rw [h.clientStat_root, Option.some_inj, eq_comm]
      refine ⟨fun h_eq => .inl ⟨rfl, h_eq⟩, ?_⟩
      rintro (⟨-, h_eq⟩ | ⟨x, h_x, -⟩)
      · exact h_eq
      · exact absurd rfl (h.isPath _ _ h_x).ne_nil
    · rw [h.clientStat_iff ⟨h_nil, fun n hn => (h_looked n hn).1⟩]
      exact ⟨.inr, fun h_or => h_or.resolve_left fun h_and => h_nil h_and.1⟩
  above q n st h_looked h_T := by
    obtain ⟨h_nil, -⟩ | ⟨x, h_x, -⟩ := h_T
    · exact absurd h_nil (by simp)
    · have h_dir := h.above q n x h_x
      have h_is := (h.isDirectory_iff fun m hm => (h_looked m hm).1).mpr h_dir
      refine ⟨directoryStat, ?_, by decide, by rw [clientList_eq h_opendir h_is]; rfl⟩
      obtain rfl | h_dir := h_dir
      · exact .inl ⟨rfl, rfl⟩
      · exact .inr ⟨_, h_dir, rfl⟩
  list q names h_looked h_list := by
    have h_is : c.isDirectory (dirPath q) = true := by
      by_contra h_not
      rw [clientList_eq_none h_opendir (Bool.eq_false_iff.mpr h_not)] at h_list
      cases h_list
    have h_dir := (h.isDirectory_iff fun n hn => (h_looked n hn).1).mp h_is
    obtain rfl := Option.some.inj ((clientList_eq h_opendir h_is).symm.trans h_list)
    refine Client.listed_of_children (h.once _) (fun n => ?_) fun n h_n => ?_
    · rw [h.children q h_dir n]
      constructor
      · rintro ⟨x, h_x⟩
        exact ⟨_, .inr ⟨x, h_x, rfl⟩⟩
      · rintro ⟨st', ⟨h_nil, -⟩ | ⟨x, h_x, -⟩⟩
        · exact absurd h_nil (by simp)
        · exact ⟨x, h_x⟩
    · obtain ⟨st', ⟨h_nil, -⟩ | ⟨x, h_x, -⟩⟩ := h_n
      · exact absurd h_nil (by simp)
      · exact (h.isPath _ _ h_x).isName n (by simp)

/-- **What a client finds**: the root, and what the container serves, as far as the kernel looks names up. -/
theorem mem_find_iff (h_opendir : OpendirOf F opendir) {depth : ℕ} {st : Stat} :
    (q, st) ∈ clientFind fileStat opendir c depth ↔ q.length ≤ depth ∧ (∀ n ∈ q, Looked n) ∧
      (q = [] ∧ st = directoryStat ∨ ∃ x, T q x ∧ st = x.getattr fileStat) :=
  (h.servesTree h_opendir).mem_find_iff

theorem nodup_find (h_opendir : OpendirOf F opendir) (depth : ℕ) :
    ((clientFind fileStat opendir c depth).map Prod.fst).Nodup :=
  (h.servesTree h_opendir).nodup_find depth

end Serves

/-! ### What has been added -/

/-- **A mount shows what has been added.** Files of which no path lies below another are added in any order,
and a client that walks the mount finds them and the directories above them, with what `Getattr` says of each,
once, and nothing else. -/
theorem client_finds_added (S adds : List (List Str × F)) (h_order : adds.Perm S)
    (h_paths : ∀ e ∈ S, IsPath e.1) (h_free : PrefixFree S) (fileStat : F → Stat)
    (h_opendir : OpendirOf F opendir) :
    ∃ c, Container.empty.addAll (adds.map fun e => (e.1, NewFile.file e.2)) = .ok c ∧
      ∀ depth, ((clientFind fileStat opendir c depth).map Prod.fst).Nodup ∧
        ∀ q st, (q, st) ∈ clientFind fileStat opendir c depth ↔ q.length ≤ depth ∧ (∀ n ∈ q, Looked n) ∧
          (q = [] ∧ st = directoryStat ∨ ∃ x, Above S q x ∧ st = x.getattr fileStat) := by
  have h_paths' : ∀ e ∈ adds, IsPath e.1 := fun e he => h_paths e (h_order.mem_iff.mp he)
  obtain ⟨c, h_add, h_represents⟩ := represents_addAll h_paths' (h_free.of_perm h_order)
  have h_serves : Serves c (Above S) := (h_represents.of_perm h_order).serves h_paths
  exact ⟨c, h_add, fun depth => ⟨h_serves.nodup_find h_opendir depth,
    fun q st => h_serves.mem_find_iff h_opendir⟩⟩

/-- Files with one mode each. -/
def statByKind (b : Bool) : Stat :=
  ⟨if b then sIFREG ||| 0x1a4 else sIFLNK ||| 0x1a4, 1, 0⟩

theorem client_finds_added_threeFiles :
    ∃ c, Container.empty.addAll (threeFiles.map fun e => (e.1, NewFile.file e.2)) = .ok c ∧
      ∀ depth, ((clientFind statByKind Container.gitFsOpendir c depth).map Prod.fst).Nodup ∧
        ∀ q st, (q, st) ∈ clientFind statByKind Container.gitFsOpendir c depth ↔
          q.length ≤ depth ∧ (∀ n ∈ q, Looked n) ∧
          (q = [] ∧ st = directoryStat ∨ ∃ x, Above threeFiles q x ∧ st = x.getattr statByKind) :=
  client_finds_added threeFiles threeFiles (.refl _) (by decide) (by decide) statByKind .git

end GitlstreeFS.DirectoryContainer
