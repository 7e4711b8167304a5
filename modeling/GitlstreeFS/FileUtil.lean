import GitlstreeFS.Posix.Machine

/-!
# File utilities

The helpers of `strutil.cc`, `scoped_fileutil.cc` and `file_copy.cc` that cowfs is built
from.

A C++ object with a destructor is a function that takes the rest of its scope as an
argument and runs the destructor after it: `scopedFileLockWithDelete` and `scopedTempFile`
below. The scope of a `ScopedTempFile` says at its end whether the object still owns a
name, that is whether `clear` was called.
-/

namespace GitlstreeFS

open Effect Posix

/-- A function of the program, over the directory trees `Root`. -/
abbrev Proc (Root α : Type) := Prog (sig Root) α

variable {Root α : Type}

/-! ### `strutil.cc` -/

/-- The part of `readFromFile` during which the descriptor is open. -/
def readOpened (fd : OpenFile) : Proc Root (Option Bytes) := do
  match ← sys (.fstat fd) with
  | .error _ => return none
  | .ok st =>
    match ← sys (.read fd st.size) with
    | .error _ => return none
    | .ok result => return if st.size ≠ result.length then none else some result

/-- `ReadFromFile`. A file that cannot be opened ends the process; `none` is the return
value `false`. -/
def readFromFile (p : Path Root) : Proc Root (Option Bytes) := do
  match ← sys (.openat p .rdonly 0) with
  | .error _ => .abort
  | .ok fd =>
    let result ← readOpened fd
    let _ ← sys (.close fd)
    return result

/-! ### `scoped_fileutil.cc` -/

/-- `basename + ".tmp" + opt + std::to_string(pthread_self())`. -/
def tmpName (p : Path Root) (opt : Name) (tid : ℕ) : Path Root :=
  p.append (".tmp".toList ++ opt ++ Nat.toDigits 10 tid)

/-- `basename + ".lock"`. -/
def lockName (p : Path Root) : Path Root :=
  p.append ".lock".toList

/-- The constructor of `ScopedTempFile` removes a file that has the name already. -/
def scopedTempFileCtor (name : Path Root) : Proc Root Unit := do
  match ← sys (.unlinkat name) with
  | .ok _ => return
  | .error _ =>
    if (← Prog.getErrno) ≠ .ENOENT then .abort else return

/-- The destructor of a `ScopedTempFile` that still owns its name. -/
def scopedTempFileDtor (name : Path Root) : Proc Root Unit := do
  match ← sys (.unlinkat name) with
  | .ok _ => return
  | .error _ => .abort

/-- A scope with a `ScopedTempFile`. The scope returns with `true` if the object still
owns its name when it is destroyed, that is if `clear` was not called. -/
def scopedTempFile (p : Path Root) (opt : Name) (tid : ℕ)
    (scope : Path Root → Proc Root (α × Bool)) : Proc Root α := do
  scopedTempFileCtor (tmpName p opt tid)
  let r ← scope (tmpName p opt tid)
  if r.2 then scopedTempFileDtor (tmpName p opt tid)
  return r.1

/-- A scope with a `ScopedFileLockWithDelete`: the constructor tries to make the lock
directory until it succeeds, the destructor removes it. -/
def scopedFileLockWithDelete (p : Path Root) (scope : Proc Root α) : Proc Root α := do
  let _ ← sysUntilOk (.mkdirat (lockName p) 0o700)
  let a ← scope
  let _ ← sys (.rmdirat (lockName p))
  return a

/-! ### `file_copy.cc` -/

/-- The part of `fileCopyInternal` during which the new file is open. The result of
`posix_fallocate` is compared with `-1`, which it never is. -/
def fileCopyOpened (fromFd : OpenFile) (st : Stat) (toFd : OpenFile) : Proc Root Bool := do
  let _ ← sys (.posixFallocate toFd st.size)
  match ← sys (.sendfile toFd fromFd st.size) with
  | .error _ => return false
  | .ok readBytes =>
    if readBytes ≠ st.size then return false
    else
      match ← sys (.fchmod toFd st.attr.mode) with
      | .error _ => return false
      | .ok _ =>
        -- `&st.st_mtim` is read as an array of two: the times are `st_mtim` and `st_ctim`
        match ← sys (.futimens toFd (some st.attr.mtime) (some st.attr.ctime)) with
        | .error _ => return false
        | .ok _ =>
          match ← sys (.fchown toFd (some st.attr.uid) (some st.attr.gid)) with
          | .error _ => return false
          | .ok _ => return true

/-- `O_WRONLY | O_CREAT`. -/
def copyFlags : OpenFlags := ⟨.wronly, true, false, false, false⟩

/-- `FileCopyInternal`. -/
def fileCopyInternal (fromFd : OpenFile) (st : Stat) (target : Path Root) : Proc Root Bool := do
  match ← sys (.openat target copyFlags st.attr.mode) with
  | .error _ => return false
  | .ok toFd =>
    let ret ← fileCopyOpened fromFd st toFd
    let _ ← sys (.close toFd)
    return ret

end GitlstreeFS
