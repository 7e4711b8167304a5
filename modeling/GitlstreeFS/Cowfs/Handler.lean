import GitlstreeFS.Ptfs.Handler
import GitlstreeFS.Cowfs.Crypt

/-!
# The copy-on-write file system

`cowfs.cc` keeps files of equal content as hard links of one repository file and breaks
the link before a file is opened for writing.

* `findOutRepoAndMaybeHardlink` links a file with the repository: a content the
  repository does not hold yet is linked there, otherwise the file is replaced by a link
  of the repository file (`hardlinkOneFile` in one or the other direction).
* `maybeBreakHardlink` replaces a file of link count two or more by a copy of it, and
  removes the repository file if nothing else is linked to it.
* `garbageCollectOneRepoFile` removes a repository file of link count one.

`cowfsHandler` overrides `Open`, `Create`, `Release` and `Unlink` of the pass-through
handler with these; all other requests pass through. `tid` is the thread that runs a
function and goes into the names of its temporary files.
-/

namespace GitlstreeFS.Cowfs

open Effect Posix

variable (sha1 : Bytes → Bytes) (tid : ℕ)

/-! ### Linking two files -/

/-- The part of `hardlinkOneFile` after the inodes were found to differ. -/
def hardlinkFresh (src dst : Path Tree) : Proc Tree Bool :=
  scopedTempFile dst "of".toList tid fun toTmp => do
    match ← sys (.linkat src toTmp) with
    | .error _ => return (false, false)
    | .ok _ =>
      match ← sys (.renameat2 toTmp dst .none) with
      | .error _ => return (false, true)
      | .ok _ => return (true, false)

/-- `HardlinkOneFile`: make `dst` a hard link of `src`. -/
def hardlinkOneFile (src dst : Path Tree) : Proc Tree Bool := do
  match ← sys (.fstatat src false) with
  | .error _ => hardlinkFresh tid src dst
  | .ok st1 =>
    match ← sys (.fstatat dst false) with
    | .error _ => hardlinkFresh tid src dst
    | .ok st2 => if st1.ino = st2.ino then return true else hardlinkFresh tid src dst

/-! ### The repository -/

/-- `GetRepoItemPath`; `none` is the empty path it returns on error. -/
def getRepoItemPath (p : Path Tree) : Proc Tree (Option (Path Tree)) := do
  match ← readFromFile p with
  | none => return none
  | some buf => return some (repoPath sha1 buf)

/-- `GarbageCollectOneRepoFile`. -/
def garbageCollectOneRepoFile (repoFile : Path Tree) : Proc Tree Bool := do
  match ← sys (.fstatat repoFile true) with
  | .error _ => return true
  | .ok st =>
    if st.nlink = 1 then
      match ← sys (.unlinkat repoFile) with
      -- `ENOENT`: a thread running in parallel has deleted the file
      | .error _ => return decide ((← Prog.getErrno) = .ENOENT)
      | .ok _ => return true
    else return true

/-- `MaybeGcAfterHardlinkBreakForTarget`. -/
def maybeGcAfterHardlinkBreakForTarget (target : Path Tree) : Proc Tree Bool := do
  match ← getRepoItemPath sha1 target with
  | none => return false
  | some repoFile => garbageCollectOneRepoFile repoFile

/-! ### Breaking a link -/

/-- The scope of `to_tmp` in `maybeBreakHardlink`. It yields the value to return and
whether `from_fd` still holds its descriptor. -/
def breakCopied (target : Path Tree) (fromFd : OpenFile) (st : Stat) (toTmp : Path Tree) :
    Proc Tree ((Bool × Bool) × Bool) := do
  if ← fileCopyInternal fromFd st toTmp then
    let _ ← sys (.close fromFd)
    match ← sys (.renameat2 toTmp target .none) with
    | .error _ => return ((false, false), true)
    | .ok _ => return ((← maybeGcAfterHardlinkBreakForTarget sha1 target, false), false)
  else
    -- a copy that failed because somebody removed the file is no error
    return ((decide ((← Prog.getErrno) = .ENOENT), true), false)

/-- The part of `maybeBreakHardlink` with the target open. -/
def breakOpened (target : Path Tree) (fromFd : OpenFile) : Proc Tree (Bool × Bool) := do
  match ← sys (.fstat fromFd) with
  | .error _ => return (false, true)
  | .ok st =>
    if st.nlink = 0 then return (true, true)
    else if st.nlink = 1 then return (true, true)
    else scopedTempFile target "mb".toList tid (breakCopied sha1 target fromFd st)

/-- The part of `maybeBreakHardlink` with the lock held. Where the target could not be
opened, `errno` is looked at only here, after the lock was taken. -/
def breakLocked (target : Path Tree) : Except Errno OpenFile → Proc Tree (Bool × Bool)
  | .error _ => do return (decide ((← Prog.getErrno) = .ENOENT), false)
  | .ok fd => breakOpened sha1 tid target fd

/-- `MaybeBreakHardlink`. -/
def maybeBreakHardlink (target : Path Tree) : Proc Tree Bool := do
  -- the file is opened before the lock is taken, and its errno is looked at only then
  let fromFd ← sys (.openat target .rdonly 0)
  let ret ← scopedFileLockWithDelete target (breakLocked sha1 tid target fromFd)
  match fromFd with
  | .error _ => return ret.1
  | .ok fd =>
    -- `fromFd` is a `ScopedFd`, closed at the end unless that was done before
    if ret.2 then
      let _ ← sys (.close fd)
      return ret.1
    else return ret.1

/-! ### Deduplication -/

/-- The branch of `findOutRepoAndMaybeHardlink` for a content new to the repository. -/
def linkToRepo (target : Path Tree) (buf : Bytes) : Proc Tree Bool := do
  match ← sys (.mkdirat (repoDir sha1 buf) 0o700) with
  | .error _ =>
    if (← Prog.getErrno) ≠ .EEXIST then return false
    else hardlinkOneFile tid target (repoPath sha1 buf)
  | .ok _ => hardlinkOneFile tid target (repoPath sha1 buf)

/-- The part of `findOutRepoAndMaybeHardlink` with the content read. -/
def linkContent (target : Path Tree) (buf : Bytes) : Proc Tree Bool := do
  match ← sys (.fstatat (repoPath sha1 buf) true) with
  | .error _ =>
    if (← Prog.getErrno) = .ENOENT then linkToRepo sha1 tid target buf
    else hardlinkOneFile tid (repoPath sha1 buf) target
  | .ok _ => hardlinkOneFile tid (repoPath sha1 buf) target

/-- The part of `findOutRepoAndMaybeHardlink` with the lock held. -/
def findOutRepoLocked (target : Path Tree) : Proc Tree Bool := do
  match ← readFromFile target with
  | none => return false
  | some buf => linkContent sha1 tid target buf

/-- `FindOutRepoAndMaybeHardlink`. -/
def findOutRepoAndMaybeHardlink (target : Path Tree) : Proc Tree Bool :=
  scopedFileLockWithDelete target (findOutRepoLocked sha1 tid target)

/-! ### The handler -/

/-- `CowFileHandle`. -/
structure CowFileHandle where
  relativePath : Path Tree
  fd : OpenFile
  deriving DecidableEq, Repr

/-- `CowFileSystemHandler::Open` and `Create` break the hard link of a file that is about
to be written, then do what the pass-through method `openFd` does. -/
def openBroken (p : Path Tree) (fl : OpenFlags) (openFd : Proc Tree (Except Errno OpenFile)) :
    Proc Tree (Except Errno CowFileHandle) := do
  if fl.writes then
    if ← maybeBreakHardlink sha1 tid p then return (← openFd).map (CowFileHandle.mk p)
    else return .error Errno.EIO
  else return (← openFd).map (CowFileHandle.mk p)

def open' (p : Path Tree) (fl : OpenFlags) : Proc Tree (Except Errno CowFileHandle) :=
  openBroken sha1 tid p fl (Ptfs.open' p fl)

def create (p : Path Tree) (fl : OpenFlags) (mode : Mode) :
    Proc Tree (Except Errno CowFileHandle) :=
  openBroken sha1 tid p fl (Ptfs.create p fl mode)

/-- `CowFileSystemHandler::Release`. -/
def release (accessFlags : OpenFlags) (fh : CowFileHandle) : Proc Tree (Except Errno Unit) := do
  let ret ← sys (.close fh.fd)
  if accessFlags.writes then
    let _ ← findOutRepoAndMaybeHardlink sha1 tid fh.relativePath
    return ret
  else return ret

/-- `CowFileSystemHandler::Unlink`. Collecting the empty path does nothing: there is no
such file. -/
def unlink (p : Path Tree) : Proc Tree (Except Errno Unit) := do
  let repoFile ← getRepoItemPath sha1 p
  let ret ← Ptfs.unlink p
  match repoFile with
  | none => return ret
  | some r =>
    let _ ← garbageCollectOneRepoFile r
    return ret

/-- `CowFileSystemHandler`. -/
def cowfsHandler : Handler Tree CowFileHandle where
  fd := CowFileHandle.fd
  open' := open' sha1
  create := create sha1
  release := release sha1
  unlink _ := unlink sha1

/-! ### A fresh mount -/

/-- An empty underlying directory and an empty repository, owned by root. -/
def emptyMount : FileSystem Tree where
  names p := if p.rel = [] then some (if p.root = .workdir then 0 else 1) else none
  dom := {⟨.workdir, []⟩, ⟨.repository, []⟩}
  node _ := ⟨.dir, ⟨0o755#12, 0, 0, 0, 0, 0, []⟩⟩
  next := 2
  cred := ⟨0, 0⟩
  now := 0
  mem_dom p := by
    rcases p with ⟨_ | _, _ | ⟨n, ds⟩⟩ <;> simp
  names_lt p i h := by
    rcases p with ⟨_ | _, _ | ⟨n, ds⟩⟩ <;> simp at h <;> omega

def fileA : Path Tree := ⟨.workdir, ["a".toList]⟩

def fileB : Path Tree := ⟨.workdir, ["b".toList]⟩

end GitlstreeFS.Cowfs
