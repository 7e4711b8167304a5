import GitlstreeFS.Effect.Run
import GitlstreeFS.Posix.SysCall
import GitlstreeFS.Text

/-!
# `cached_file.cc`

`Cache` is an `unordered_map` from names to mapped files, a mutex, and a directory of files. Its
methods are programs over the calls of `Op`: what they do to the mutex, to the map and to the disk.

* A thread is an `ι`; the mutex remembers which one holds it. `lock` fails while somebody does, and
  the constructor of `unique_lock` and `l.lock()` retry it.
* Where a path leads is a parameter, `resolve`; two paths may lead to the same place. A file is an
  inode, which a descriptor and a mapping refer to directly: renaming a file, or removing its name,
  concerns neither.
* The parent of a file that is created exists. A call fails only as the state makes it fail, or by a
  fault that is injected; a `write` may also come out short.
* `mmap` fails for a length of 0 and for a directory.
* `fetch` is what the function of that name is going to return: the content, or `none` if it fails.
  It runs without the mutex and touches nothing of the cache, so that when it is decided does not
  matter.
-/

namespace GitlstreeFS.Cache

open Effect
open Posix (Errno)

/-! ### Names -/

/-- `GetFileName`: the directory of a file and its name there. -/
def getFileName (cacheDir name : Str) : Str × Str :=
  (cacheDir ++ name.take 2, name.drop 2)

/-- `cache_file_path`. -/
def cacheFilePath (cacheDir name : Str) : Str :=
  (getFileName cacheDir name).1 ++ slash :: (getFileName cacheDir name).2

/-- `temporary`. -/
def temporary (cacheDir name : Str) : Str :=
  cacheFilePath cacheDir name ++ str ".tmp"

/-! ### State -/

/-- What a path may lead to, and a descriptor be open on. -/
inductive Node where
  | file (inode : ℕ)
  | directory
  deriving DecidableEq, Repr

/-- `Memory`: the inode that is mapped at `memory_`, and `size_`. -/
structure Memory where
  inode : ℕ
  size : ℕ
  deriving DecidableEq, Repr

/-- An element of `mapped_files_`, with its address. -/
structure Entry where
  address : ℕ
  memory : Memory
  deriving DecidableEq, Repr

structure World (ι κ : Type) where
  /-- The thread that holds `mutex_`. -/
  holder : Option ι
  /-- `mapped_files_`. -/
  mapped : List (Str × Entry)
  node : κ → Option Node
  content : ℕ → Str
  /-- The inodes from here on are free. -/
  inodes : ℕ
  /-- The addresses from here on are free. -/
  addresses : ℕ

namespace World

variable {ι κ : Type}

/-- `mapped_files_.find(name)`. -/
def find (s : World ι κ) (name : Str) : Option Entry :=
  (s.mapped.find? (·.1 = name)).map Prod.snd

/-- What a pointer that `get` returned shows: the name of the element, `size()`, and the bytes from
`memory_charp()` on. -/
def deref (s : World ι κ) (p : ℕ) : Option (Str × ℕ × Str) :=
  (s.mapped.find? (·.2.address = p)).map fun m =>
    (m.1, m.2.memory.size, (s.content m.2.memory.inode).take m.2.memory.size)

end World

/-! ### Calls -/

inductive Op (ι : Type) where
  | lock (i : ι)
  | unlock
  | find (name : Str)
  | emplace (name : Str) (m : Memory)
  | mkdir (path : Str)
  | open (path : Str)
  | unlink (path : Str)
  | create (path : Str)
  | write (fd : Node) (data : Str)
  | rename (old new : Str)
  | fstat (fd : Node)
  | mmap (size : ℕ) (fd : Node)

@[reducible] def Op.Val {ι : Type} : Op ι → Type
  | .lock _ => Unit
  | .unlock => Unit
  | .find _ => Option Entry
  | .emplace _ _ => ℕ
  | .mkdir _ => Unit
  | .open _ => Node
  | .unlink _ => Unit
  | .create _ => Node
  | .write _ _ => ℕ
  | .rename _ _ => Unit
  | .fstat _ => ℕ
  | .mmap _ _ => Memory

/-- The calls that the kernel answers, which a fault may make fail. -/
def Op.isSysCall {ι : Type} : Op ι → Bool
  | .lock _ | .unlock | .find _ | .emplace _ _ => false
  | _ => true

abbrev sig (ι : Type) : Signature := ⟨Op ι, Op.Val, Errno⟩

/-- A call fails with an error, or a `write` writes `n` bytes at most. -/
inductive Fault where
  | errno (e : Errno)
  | short (n : ℕ)
  deriving DecidableEq, Repr

section Calls

variable {ι κ : Type} [DecidableEq κ] (resolve : Str → κ)

namespace World

/-- A new element of `mapped_files_`. -/
def added (s : World ι κ) (name : Str) (m : Memory) : World ι κ :=
  { s with mapped := s.mapped ++ [(name, ⟨s.addresses, m⟩)], addresses := s.addresses + 1 }

/-- `mapped_files_.emplace(name, m)`: an element that is there already stays. -/
def emplace (s : World ι κ) (name : Str) (m : Memory) : ℕ × World ι κ :=
  match s.find name with
  | some e => (e.address, s)
  | none => (s.addresses, s.added name m)

/-- What stands at a place is replaced. -/
def setNode (s : World ι κ) (k : κ) (nd : Option Node) : World ι κ :=
  { s with node := Function.update s.node k nd }

/-- The bytes of a file are replaced. -/
def setContent (s : World ι κ) (i : ℕ) (data : Str) : World ι κ :=
  { s with content := Function.update s.content i data }

@[simp] theorem setNode_self (s : World ι κ) (k : κ) (nd : Option Node) :
    (s.setNode k nd).node k = nd := by
  simp [setNode]

theorem setNode_of_ne (s : World ι κ) {k k' : κ} (nd : Option Node) (h : k' ≠ k) :
    (s.setNode k nd).node k' = s.node k' := by
  simp [setNode, h]

omit [DecidableEq κ] in
@[simp] theorem setContent_self (s : World ι κ) (i : ℕ) (data : Str) :
    (s.setContent i data).content i = data := by
  simp [setContent]

omit [DecidableEq κ] in
theorem setContent_of_ne (s : World ι κ) {i j : ℕ} (data : Str) (h : j ≠ i) :
    (s.setContent i data).content j = s.content j := by
  simp [setContent, h]

/-- `mkdir(path, 0700)`. -/
def mkdir (s : World ι κ) (path : Str) : Except Errno Unit × World ι κ :=
  match s.node (resolve path) with
  | some _ => (.error .EEXIST, s)
  | none => (.ok (), s.setNode (resolve path) (some .directory))

/-- `unlink(path)`. -/
def unlink (s : World ι κ) (path : Str) : Except Errno Unit × World ι κ :=
  match s.node (resolve path) with
  | none => (.error .ENOENT, s)
  | some .directory => (.error .EISDIR, s)
  | some (.file _) => (.ok (), s.setNode (resolve path) none)

/-- A new, empty file. -/
def created (s : World ι κ) (k : κ) : World ι κ :=
  { (s.setNode k (some (.file s.inodes))).setContent s.inodes [] with inodes := s.inodes + 1 }

/-- `open(path, O_RDWR | O_CREAT | O_EXCL, 0666)`. -/
def create (s : World ι κ) (path : Str) : Except Errno Node × World ι κ :=
  match s.node (resolve path) with
  | some _ => (.error .EEXIST, s)
  | none => (.ok (.file s.inodes), s.created (resolve path))

/-- `write(fd, data)`, to a file that was created just now. -/
def write (s : World ι κ) (fd : Node) (data : Str) : Except Errno ℕ × World ι κ :=
  match fd with
  | .directory => (.error .EBADF, s)
  | .file i => (.ok data.length, s.setContent i data)

omit [DecidableEq κ] in
theorem write_error {s : World ι κ} {fd : Node} {data : Str} {x : Errno}
    (h : (s.write fd data).1 = .error x) : (s.write fd data).2 = s := by
  cases fd with
  | file i => simp [World.write] at h
  | directory => rfl

/-- `rename(old, new)` of a file. -/
def rename (s : World ι κ) (old new : Str) : Except Errno Unit × World ι κ :=
  match s.node (resolve old) with
  | none => (.error .ENOENT, s)
  | some nd =>
    if resolve old = resolve new then (.ok (), s)
    else if s.node (resolve new) = some .directory then (.error .EISDIR, s)
    else (.ok (), (s.setNode (resolve old) none).setNode (resolve new) (some nd))

/-- `st_size`; that of a directory is some number. -/
def fstat (s : World ι κ) : Node → ℕ
  | .file i => (s.content i).length
  | .directory => 4096

/-- `mmap(nullptr, size, PROT_READ, MAP_SHARED, fd, 0)`. -/
def mmap (size : ℕ) : Node → Except Errno Memory
  | .file i => if size = 0 then .error .EINVAL else .ok ⟨i, size⟩
  | .directory => .error (.other 19)

end World

/-- The meaning of a call. -/
def Op.run (s : World ι κ) : (c : Op ι) → Except Errno c.Val × World ι κ
  | .lock i => if s.holder = none then (.ok (), { s with holder := some i }) else (.error (.other 16), s)
  | .unlock => (.ok (), { s with holder := none })
  | .find name => (.ok (s.find name), s)
  | .emplace name m => (.ok (s.emplace name m).1, (s.emplace name m).2)
  | .mkdir path => s.mkdir resolve path
  | .open path =>
    match s.node (resolve path) with
    | none => (.error .ENOENT, s)
    | some nd => (.ok nd, s)
  | .unlink path => s.unlink resolve path
  | .create path => s.create resolve path
  | .write fd data => s.write fd data
  | .rename old new => s.rename resolve old new
  | .fstat fd => (.ok (s.fstat fd), s)
  | .mmap size fd => (World.mmap size fd, s)

/-- A call of which a `write` writes `n` bytes at most. -/
def Op.runShort (n : ℕ) (s : World ι κ) : (c : Op ι) → Except Errno c.Val × World ι κ
  | .write fd data => s.write fd (data.take n)
  | c => c.run resolve s

/-- A call under a fault. -/
def exec (f : Option Fault) (c : Op ι) (s : World ι κ) : Except Errno c.Val × World ι κ :=
  match f with
  | none => c.run resolve s
  | some (.errno e) => if c.isSysCall then (.error e, s) else c.run resolve s
  | some (.short n) => c.runShort resolve n s

theorem run_error {s : World ι κ} {c : Op ι} {x : Errno} (h : (c.run resolve s).1 = .error x) :
    (c.run resolve s).2 = s := by
  cases c with
  | lock i =>
    rw [Op.run] at h ⊢
    split_ifs at h ⊢
    rfl
  | mkdir path =>
    rw [Op.run, World.mkdir] at h ⊢
    split at h <;> simp_all
  | «open» path =>
    rw [Op.run] at h ⊢
    split <;> rfl
  | unlink path =>
    rw [Op.run, World.unlink] at h ⊢
    split at h <;> simp_all
  | create path =>
    rw [Op.run, World.create] at h ⊢
    split at h <;> simp_all
  | write fd data => exact World.write_error h
  | rename old new =>
    rw [Op.run, World.rename] at h ⊢
    split at h
    · rfl
    · split_ifs at h ⊢
      all_goals simp_all
  | unlock | find | emplace | fstat | mmap => simp_all [Op.run]

theorem exec_error (f : Option Fault) (c : Op ι) (s : World ι κ) (x : Errno)
    (h : (exec resolve f c s).1 = .error x) : (exec resolve f c s).2 = s := by
  cases f with
  | none => exact run_error resolve h
  | some f =>
    cases f with
    | errno e =>
      unfold exec at h ⊢
      by_cases h_sys : c.isSysCall
      · simp only [h_sys, if_true]
      · simp only [h_sys] at h ⊢
        exact run_error resolve h
    | short n =>
      cases c with
      | write fd data => exact World.write_error h
      | _ => exact run_error resolve h

/-- The machine of the calls of the cache. -/
def machine : Machine (sig ι) (World ι κ) Fault where
  exec := exec resolve
  exec_error := exec_error resolve

end Calls

/-! ### What a call does -/

section Runs

variable {ι κ : Type} [DecidableEq κ] {resolve : Str → κ} {s : World ι κ} {name path : Str}
  {nd : Node} {j : ℕ}

theorem run_emplace_new (h : s.find name = none) (m : Memory) :
    (Op.emplace (ι := ι) name m).run resolve s = (.ok s.addresses, s.added name m) := by
  simp only [Op.run, World.emplace, h]

theorem run_mkdir_none (h : s.node (resolve path) = none) :
    (Op.mkdir (ι := ι) path).run resolve s
      = (.ok (), s.setNode (resolve path) (some .directory)) := by
  simp only [Op.run, World.mkdir, h]

theorem run_mkdir_some (h : s.node (resolve path) = some nd) :
    (Op.mkdir (ι := ι) path).run resolve s = (.error .EEXIST, s) := by
  simp only [Op.run, World.mkdir, h]

theorem run_open_none (h : s.node (resolve path) = none) :
    (Op.open (ι := ι) path).run resolve s = (.error .ENOENT, s) := by
  simp only [Op.run, h]

theorem run_open_some (h : s.node (resolve path) = some nd) :
    (Op.open (ι := ι) path).run resolve s = (.ok nd, s) := by
  simp only [Op.run, h]

theorem run_create_none (h : s.node (resolve path) = none) :
    (Op.create (ι := ι) path).run resolve s
      = (.ok (.file s.inodes), s.created (resolve path)) := by
  simp only [Op.run, World.create, h]

theorem run_create_some (h : s.node (resolve path) = some nd) :
    (Op.create (ι := ι) path).run resolve s = (.error .EEXIST, s) := by
  simp only [Op.run, World.create, h]

/-- `unlink` leaves everything as it is, or makes the name free. -/
theorem run_unlink (resolve : Str → κ) (s : World ι κ) (path : Str) :
    ∃ r, (Op.unlink (ι := ι) path).run resolve s = (r, s) ∨
      (Op.unlink (ι := ι) path).run resolve s = (r, s.setNode (resolve path) none) := by
  rw [Op.run, World.unlink]
  split
  · exact ⟨_, Or.inl rfl⟩
  · exact ⟨_, Or.inl rfl⟩
  · exact ⟨_, Or.inr rfl⟩

/-- A `write` fails, or writes all of the data or the beginning of it. -/
theorem exec_write (resolve : Str → κ) (f : Option Fault) (j : ℕ) (data : Str)
    (s : World ι κ) :
    (∃ x, exec resolve f (.write (.file j) data) s = (.error x, s)) ∨
      ∃ d, exec resolve f (.write (.file j) data) s = (.ok d.length, s.setContent j d) ∧
        (d.length = data.length → d = data) := by
  rcases f with _ | ⟨x | n⟩
  · exact Or.inr ⟨data, rfl, fun _ => rfl⟩
  · exact Or.inl ⟨x, rfl⟩
  · refine Or.inr ⟨data.take n, rfl, fun h_length => ?_⟩
    rw [List.length_take] at h_length
    exact List.take_of_length_le (by omega)

theorem run_rename {old new : Str} (h_old : s.node (resolve old) = some nd)
    (h_ne : resolve old ≠ resolve new) (h_new : s.node (resolve new) ≠ some .directory) :
    (Op.rename (ι := ι) old new).run resolve s
      = (.ok (), (s.setNode (resolve old) none).setNode (resolve new) (some nd)) := by
  simp only [Op.run, World.rename, h_old, h_ne, h_new, if_false]

theorem run_mmap_empty (h : s.content j = []) :
    (Op.mmap (ι := ι) (s.content j).length (.file j)).run resolve s = (.error .EINVAL, s) := by
  simp only [Op.run, World.mmap, h, List.length_nil, if_true]

theorem run_mmap_file (h : s.content j ≠ []) :
    (Op.mmap (ι := ι) (s.content j).length (.file j)).run resolve s
      = (.ok ⟨j, (s.content j).length⟩, s) := by
  have h_length : (s.content j).length ≠ 0 := fun h_zero => h (List.length_eq_zero_iff.mp h_zero)
  simp only [Op.run, World.mmap, h_length, if_false]

end Runs

/-! ### Methods -/

section Methods

variable {ι α : Type}

/-- A method of the cache. -/
abbrev Proc (ι α : Type) := Prog (sig ι) α

def sys (c : Op ι) : Proc ι (Except Errno c.Val) :=
  .call (S := sig ι) c .ret

/-- A call that does not fail. -/
def always (c : Op ι) : Proc ι c.Val := do
  match ← sys c with
  | .ok v => return v
  | .error _ => .abort

/-- The constructor of `unique_lock` and `lock_guard`, and `unique_lock::lock`. -/
def lock (i : ι) : Proc ι Unit :=
  .spin (S := sig ι) (.lock i) .ret

/-- The end of a scope in which the mutex is held. -/
def leave (a : α) : Proc ι α := do
  always .unlock
  return a

/-- The end of `Cache::get`: the file open at `fd` is mapped. -/
def mapFile (name : Str) (fd : Node) : Proc ι (Option ℕ) := do
  match ← sys (.fstat fd) with
  | .error _ => .abort
  | .ok size =>
    match ← sys (.mmap size fd) with
    | .error _ => leave none
    | .ok m =>
      let p ← always (.emplace name m)
      leave (some p)

section Get

variable (cacheDir : Str)

/-- The part of `Cache::get` that writes the file, under its temporary name first. -/
def store (name result : Str) : Proc ι (Option ℕ) := do
  match ← sys (.create (temporary cacheDir name)) with
  -- `O_EXCL`: the name was not free in spite of the `unlink`
  | .error _ => leave none
  | .ok fd =>
    match ← sys (.write fd result) with
    | .error _ => .abort
    | .ok (n : ℕ) =>
      -- the `assert` compares what was written with the size of the result
      if n ≠ result.length then .abort
      else
        match ← sys (.rename (temporary cacheDir name) (cacheFilePath cacheDir name)) with
        | .error _ => .abort
        | .ok _ => mapFile name fd

/-- `Cache::get` from where the mutex is held again, after `fetch` returned `result`. -/
def populate (name result : Str) : Proc ι (Option ℕ) := do
  match ← always (.find name) with
  | some e => leave (some e.address)
  | none =>
    let _ ← sys (.unlink (temporary cacheDir name))
    store cacheDir name result

/-- `Cache::get` from where there is no file: `fetch` runs without the mutex. -/
def fetchFile (i : ι) (name : Str) (fetch : Option Str) : Proc ι (Option ℕ) := do
  always .unlock
  match fetch with
  | none => return none
  | some result =>
    lock i
    populate cacheDir name result

/-- `Cache::get` from where the directory is there. -/
def openFile (i : ι) (name : Str) (fetch : Option Str) : Proc ι (Option ℕ) := do
  match ← sys (.open (cacheFilePath cacheDir name)) with
  | .ok fd => mapFile name fd
  | .error e => if e ≠ .ENOENT then .abort else fetchFile cacheDir i name fetch

/-- `Cache::get` from where there is no mapping. On a name that is too short `substr` throws. -/
def openOrFetch (i : ι) (name : Str) (fetch : Option Str) : Proc ι (Option ℕ) := do
  if name.length < 2 then .abort
  else
    match ← sys (.mkdir (getFileName cacheDir name).1) with
    | .error e => if e ≠ .EEXIST then leave none else openFile cacheDir i name fetch
    | .ok _ => openFile cacheDir i name fetch

/-- `Cache::get`, called by the thread `i`. -/
def get (i : ι) (name : Str) (fetch : Option Str) : Proc ι (Option ℕ) := do
  lock i
  match ← always (.find name) with
  | some e => leave (some e.address)
  | none => openOrFetch cacheDir i name fetch

end Get

/-- `Cache::release`. The condition is the wrong way round: `it` is used where it is `end()`, which
designates no element, and then anything may happen (`none`). -/
def release (i : ι) (name : Str) (_item : Option ℕ) : Proc ι (Option Bool) := do
  lock i
  match ← always (.find name) with
  | some _ => leave (some false)
  | none => return none

end Methods

/-! ### The callers -/

section Callers

variable {ι : Type} (cacheDir : Str)

/-- `FileElement::maybe_cat_file_locked` of `gitlstree.cc`, for a blob that the repository has:
`Request` returns its content. The pointer that is kept in `memory_` comes out. -/
def gitlstreeMaybeCatFile (i : ι) (sha1 content : Str) (memory : Option ℕ) : Proc ι ℕ := do
  match memory with
  | some p => return p
  | none =>
    match ← get cacheDir i sha1 (some content) with
    | none => .abort
    | some p => return p

/-- `FileElement::Open` of `gitlstree.cc`: the return value and `memory_`. -/
def gitlstreeOpen (i : ι) (sha1 content : Str) (memory : Option ℕ) : Proc ι (ℤ × Option ℕ) := do
  let p ← gitlstreeMaybeCatFile cacheDir i sha1 content memory
  return (0, some p)

/-- `FileElement::Open` of `git-githubfs.cc`: the return value, which `fs_open` ignores, and
`memory_`. -/
def githubfsOpen (i : ι) (sha1 : Str) (fetch : Option Str) (memory : Option ℕ) :
    Proc ι (ℤ × Option ℕ) := do
  match memory with
  | some p => return (0, some p)
  | none =>
    match ← get cacheDir i sha1 fetch with
    | none => return (-5, none)
    | some p => return (0, some p)

/-- `FileElement::Release` of `git-githubfs.cc`. -/
def githubfsRelease (i : ι) (sha1 : Str) (memory : Option ℕ) : Proc ι (Option Bool) :=
  release i sha1 memory

end Callers

end GitlstreeFS.Cache
