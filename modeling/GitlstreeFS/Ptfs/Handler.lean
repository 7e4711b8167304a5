import GitlstreeFS.FileUtil

/-!
# The pass-through file system

`ptfs_handler.cc` answers each FUSE request with the system call of the same name on
the underlying directory. A path-based request resolves its path anew; a request on an
open file uses the descriptor of its handle.

A `Handler` holds the methods a subclass overrides, with the type `H` of the handles its
`Open` and `Create` allocate; the requests nobody overrides are the functions of this
file. A `Session` is the state of a mounted file system between requests: the underlying
directory and the handles FUSE keeps in `fuse_file_info::fh`. Handles are numbered in
the order of the `Open` and `Create` requests, failed ones included.
-/

namespace GitlstreeFS

open Effect Posix

variable {Root : Type}

/-! ### `PtfsHandler` -/

namespace Ptfs

/-- `PtfsHandler::Open`, up to the allocation of the handle. -/
def open' (p : Path Root) (accessFlags : OpenFlags) : Proc Root (Except Errno OpenFile) := do
  match ← sys (.openat p accessFlags 0) with
  | .error _ => return .error .ENOENT
  | .ok fd => return .ok fd

/-- `PtfsHandler::Create`, up to the allocation of the handle. -/
def create (p : Path Root) (accessFlags : OpenFlags) (mode : Mode) :
    Proc Root (Except Errno OpenFile) := do
  match ← sys (.openat p accessFlags mode) with
  | .error _ => return .error .ENOENT
  | .ok fd => return .ok fd

def write (fd : OpenFile) (buf : Bytes) (offset : ℕ) : Proc Root (Except Errno ℕ) :=
  sys (.pwrite fd buf offset)

def release (fd : OpenFile) : Proc Root (Except Errno Unit) :=
  sys (.close fd)

def unlink (p : Path Root) : Proc Root (Except Errno Unit) :=
  sys (.unlinkat p)

def chmod (p : Path Root) (mode : Mode) : Proc Root (Except Errno Unit) :=
  sys (.fchmodat p mode)

def chown (p : Path Root) (uid gid : Option ℕ) : Proc Root (Except Errno Unit) :=
  sys (.fchownat p uid gid)

/-- The scope of the macro `WITH_FD`: a descriptor of the file, closed at the end. -/
def withFd (p : Path Root) (mode : OpenFlags) (scope : OpenFile → Proc Root (Except Errno Unit)) :
    Proc Root (Except Errno Unit) := do
  match ← sys (.openat p mode 0) with
  | .error x => return .error x
  | .ok fd =>
    let ret ← scope fd
    let _ ← sys (.close fd)
    return ret

def truncate (p : Path Root) (size : ℕ) : Proc Root (Except Errno Unit) :=
  withFd p .wronly fun fd => sys (.ftruncate fd size)

def utimens (p : Path Root) (atime mtime : Option ℕ) : Proc Root (Except Errno Unit) :=
  sys (.utimensat p atime mtime)

def setxattr (p : Path Root) (name : Name) (value : Bytes) (fl : XattrFlags) :
    Proc Root (Except Errno Unit) :=
  withFd p .rdonly fun fd => sys (.fsetxattr fd name value fl)

def mknod (p : Path Root) (k : Kind Root) (mode : Mode) : Proc Root (Except Errno Unit) :=
  sys (.mknodat p k mode)

def link (a b : Path Root) : Proc Root (Except Errno Unit) :=
  sys (.linkat a b)

def symlink (target p : Path Root) : Proc Root (Except Errno Unit) :=
  sys (.symlinkat target p)

def mkdir (p : Path Root) (mode : Mode) : Proc Root (Except Errno Unit) :=
  sys (.mkdirat p mode)

def rmdir (p : Path Root) : Proc Root (Except Errno Unit) :=
  sys (.rmdirat p)

def rename (a b : Path Root) (renameFlags : RenameFlags) : Proc Root (Except Errno Unit) :=
  sys (.renameat2 a b renameFlags)

end Ptfs

/-- The methods a file system handler may override, over its handles `H`. -/
structure Handler (Root H : Type) where
  /-- `FileHandle::fd_get`. -/
  fd : H → OpenFile
  open' : (tid : ℕ) → Path Root → OpenFlags → Proc Root (Except Errno H)
  create : (tid : ℕ) → Path Root → OpenFlags → Mode → Proc Root (Except Errno H)
  release : (tid : ℕ) → OpenFlags → H → Proc Root (Except Errno Unit)
  unlink : (tid : ℕ) → Path Root → Proc Root (Except Errno Unit)

/-- `PtfsHandler`, whose handles are descriptors. -/
def ptfsHandler : Handler Root OpenFile where
  fd := id
  open' _ := Ptfs.open'
  create _ := Ptfs.create
  release _ _ := Ptfs.release
  unlink _ := Ptfs.unlink

/-! ### Requests and sessions -/

/-- The requests that change the underlying directory. -/
inductive Request (Root : Type) where
  | open' (p : Path Root) (fl : OpenFlags)
  | create (p : Path Root) (fl : OpenFlags) (mode : Mode)
  | write (h : ℕ) (buf : Bytes) (offset : ℕ)
  | release (h : ℕ)
  | unlink (p : Path Root)
  | rename (a b : Path Root) (fl : RenameFlags)
  | link (a b : Path Root)
  | symlink (target p : Path Root)
  | mknod (p : Path Root) (k : Kind Root) (mode : Mode)
  | mkdir (p : Path Root) (mode : Mode)
  | rmdir (p : Path Root)
  | chmod (p : Path Root) (mode : Mode)
  | chown (p : Path Root) (uid gid : Option ℕ)
  | truncate (p : Path Root) (size : ℕ)
  | utimens (p : Path Root) (atime mtime : Option ℕ)
  | setxattr (p : Path Root) (name : Name) (value : Bytes) (fl : XattrFlags)
  deriving DecidableEq, Repr

/-- The thread that serves a request: what `pthread_self` prints, and the error register
it comes with. -/
structure Caller where
  tid : ℕ
  errno : Errno
  deriving DecidableEq, Repr

/-- A mounted file system between requests. A live handle keeps the flags of its open. -/
structure Session (Root H : Type) where
  fs : FileSystem Root
  handles : ℕ → Option (H × OpenFlags)
  opened : ℕ

/-- A file system just mounted. -/
def Session.start {H : Type} (w : FileSystem Root) : Session Root H :=
  ⟨w, fun _ => none, 0⟩

/-- What a successful request hands back. -/
inductive Reply (H : Type) where
  | ok
  | count (n : ℕ)
  | opened (h : H)
  deriving DecidableEq

namespace Session

variable {H : Type} (s : Session Root H)

/-- The handle table after a request was answered. `Release` destroys its handle
whatever it returns. -/
def handlesAfter : Request Root → Except Errno (Reply H) → ℕ → Option (H × OpenFlags)
  | .open' _ fl, .ok (.opened fh) => Function.update s.handles s.opened (some (fh, fl))
  | .create _ fl _, .ok (.opened fh) => Function.update s.handles s.opened (some (fh, fl))
  | .release h, _ => Function.update s.handles h none
  | _, _ => s.handles

/-- The number of `Open` and `Create` requests after this one. -/
def openedAfter : Request Root → ℕ
  | .open' .. => s.opened + 1
  | .create .. => s.opened + 1
  | _ => s.opened

end Session

namespace Handler

variable {H : Type}

/-- Run a method and wrap what it yields. -/
def reply {α : Type} (f : α → Reply H) (p : Proc Root (Except Errno α)) :
    Proc Root (Except Errno (Reply H)) := do
  return (← p).map f

/-- The function that answers a request. A request on a handle that is not live is
answered with `EBADF`. -/
def answer (M : Handler Root H) (s : Session Root H) (tid : ℕ) :
    Request Root → Proc Root (Except Errno (Reply H))
  | .open' p fl => reply .opened (M.open' tid p fl)
  | .create p fl mode => reply .opened (M.create tid p fl mode)
  | .write h buf offset =>
    match s.handles h with
    | none => return .error .EBADF
    | some (fh, _) => reply .count (Ptfs.write (M.fd fh) buf offset)
  | .release h =>
    match s.handles h with
    | none => return .error .EBADF
    | some (fh, fl) => reply (fun _ => .ok) (M.release tid fl fh)
  | .unlink p => reply (fun _ => .ok) (M.unlink tid p)
  | .rename a b fl => reply (fun _ => .ok) (Ptfs.rename a b fl)
  | .link a b => reply (fun _ => .ok) (Ptfs.link a b)
  | .symlink target p => reply (fun _ => .ok) (Ptfs.symlink target p)
  | .mknod p k mode => reply (fun _ => .ok) (Ptfs.mknod p k mode)
  | .mkdir p mode => reply (fun _ => .ok) (Ptfs.mkdir p mode)
  | .rmdir p => reply (fun _ => .ok) (Ptfs.rmdir p)
  | .chmod p mode => reply (fun _ => .ok) (Ptfs.chmod p mode)
  | .chown p uid gid => reply (fun _ => .ok) (Ptfs.chown p uid gid)
  | .truncate p size => reply (fun _ => .ok) (Ptfs.truncate p size)
  | .utimens p atime mtime => reply (fun _ => .ok) (Ptfs.utimens p atime mtime)
  | .setxattr p name value fl => reply (fun _ => .ok) (Ptfs.setxattr p name value fl)

variable [DecidableEq Root]

/-- Serve one request to its end, with every system call answered by the state. -/
def serve (M : Handler Root H) (s : Session Root H) (c : Caller) (r : Request Root) :
    Outcome (Except Errno (Reply H)) × Session Root H :=
  let f := (machine Root).run (M.answer s c.tid r) c.errno [] s.fs
  match f.outcome with
  | .done reply => (.done reply, ⟨f.state, s.handlesAfter r reply, s.openedAfter r⟩)
  | .aborted => (.aborted, ⟨f.state, s.handles, s.opened⟩)
  | .stuck => (.stuck, ⟨f.state, s.handles, s.opened⟩)

/-- Serve requests one after the other. -/
def serveAll (M : Handler Root H) (s : Session Root H) (rs : List (Caller × Request Root)) :
    Session Root H :=
  rs.foldl (fun s r => (M.serve s r.1 r.2).2) s

@[simp] theorem serveAll_nil (M : Handler Root H) (s : Session Root H) : M.serveAll s [] = s := rfl

@[simp] theorem serveAll_cons (M : Handler Root H) (s : Session Root H)
    (r : Caller × Request Root) (rs : List (Caller × Request Root)) :
    M.serveAll s (r :: rs) = M.serveAll (M.serve s r.1 r.2).2 rs := rfl

theorem serveAll_append (M : Handler Root H) (s : Session Root H)
    (rs rs' : List (Caller × Request Root)) :
    M.serveAll s (rs ++ rs') = M.serveAll (M.serveAll s rs) rs' :=
  List.foldl_append

/-- Every request is in `P` of the session it is served in. -/
def Along (M : Handler Root H) (P : Session Root H → Caller → Request Root → Prop) :
    Session Root H → List (Caller × Request Root) → Prop
  | _, [] => True
  | s, r :: rs => P s r.1 r.2 ∧ Along M P (M.serve s r.1 r.2).2 rs

instance instDecidableAlong (M : Handler Root H)
    (P : Session Root H → Caller → Request Root → Prop) [∀ s c r, Decidable (P s c r)] :
    ∀ s rs, Decidable (M.Along P s rs)
  | _, [] => isTrue trivial
  | s, r :: rs =>
    have : Decidable (M.Along P (M.serve s r.1 r.2).2 rs) := instDecidableAlong M P _ rs
    inferInstanceAs (Decidable (_ ∧ _))

@[simp] theorem along_nil (M : Handler Root H)
    (P : Session Root H → Caller → Request Root → Prop) (s : Session Root H) : M.Along P s [] :=
  trivial

@[simp] theorem along_cons (M : Handler Root H)
    {P : Session Root H → Caller → Request Root → Prop} {s : Session Root H}
    {r : Caller × Request Root} {rs : List (Caller × Request Root)} :
    M.Along P s (r :: rs) ↔ P s r.1 r.2 ∧ M.Along P (M.serve s r.1 r.2).2 rs := Iff.rfl

end Handler

end GitlstreeFS
