import GitlstreeFS.Effect.Program
import GitlstreeFS.Posix.FileSystem

/-!
# System calls

The calls a file system daemon issues, each as a function from a state to its result
and the state after it. A call fails only as the state makes it fail, with the error
Linux gives, and then changes nothing; `machine` packs the calls into a machine and adds
the faults that may replace the state's answer: any call may fail with any error, and a
transfer may come out short.

Conventions:

* a path argument of a call without `NOFOLLOW` is resolved through symbolic links
  (`follow`); directories in the middle of a path are looked up by name only;
* `posix_fallocate` returns its error number and leaves `errno` alone, so it never counts
  as a failing call here;
* one `read` or `sendfile` transfers at most `maxRwCount` bytes;
* a call that would block (opening a FIFO) is taken to return;
* a change of an inode sets its `ctime` to `now`; changes of the link count do not.
-/

namespace Posix

open Effect

inductive Errno where
  | ENOENT
  | EEXIST
  | EACCES
  | EBADF
  | EINVAL
  | EISDIR
  | ENOTDIR
  | ENOTEMPTY
  | EPERM
  | EIO
  | ENXIO
  | ENODATA
  | ELOOP
  | EOPNOTSUPP
  | other (n : ℕ)
  deriving DecidableEq, Repr

/-- The flags of an `open`. -/
structure OpenFlags where
  access : AccessMode
  creat : Bool
  excl : Bool
  trunc : Bool
  append : Bool
  deriving DecidableEq, Repr

/-- `O_RDONLY`. -/
def OpenFlags.rdonly : OpenFlags := ⟨.rdonly, false, false, false, false⟩

/-- `O_WRONLY`. -/
def OpenFlags.wronly : OpenFlags := ⟨.wronly, false, false, false, false⟩

/-- `(flags & O_ACCMODE) != O_RDONLY`. -/
def OpenFlags.writes (fl : OpenFlags) : Bool := fl.access != .rdonly

/-- The flags of `renameat2`. -/
inductive RenameFlags where
  | none
  | noreplace
  | exchange
  deriving DecidableEq, Repr

/-- The flags of `fsetxattr`: `XATTR_CREATE` and `XATTR_REPLACE`. -/
structure XattrFlags where
  create : Bool
  replace : Bool
  deriving DecidableEq, Repr

/-- The fields of `struct stat`. -/
structure Stat where
  ino : ℕ
  nlink : ℕ
  size : ℕ
  attr : Attr
  deriving DecidableEq, Repr

/-- The most one `read` or `sendfile` transfers. -/
def maxRwCount : ℕ := 0x7ffff000

/-- The bytes of a file after `data` was written at `off`. -/
def writeAt (d : Bytes) (off : ℕ) (data : Bytes) : Bytes :=
  if data = [] then d
  else d.take off ++ List.replicate (off - d.length) 0 ++ data ++ d.drop (off + data.length)

/-- The bytes of a file after its size was set to `n`. -/
def resize (d : Bytes) (n : ℕ) : Bytes :=
  d.take n ++ List.replicate (n - d.length) 0

/-- A `chown` clears the set-user-ID bit of a file, and the set-group-ID bit of one that
its group may execute. -/
def Mode.chowned (m : Mode) : Mode :=
  if m.getLsbD 3 then m &&& 0o1777#12 else m &&& 0o3777#12

namespace Attr

variable (a : Attr) (now : ℕ)

def chmod (m : Mode) : Attr := { a with mode := m, ctime := now }

def chown (uid gid : Option ℕ) : Attr :=
  { a with mode := a.mode.chowned, uid := uid.getD a.uid, gid := gid.getD a.gid, ctime := now }

def utimes (atime mtime : Option ℕ) : Attr :=
  if atime = none ∧ mtime = none then a
  else { a with atime := atime.getD a.atime, mtime := mtime.getD a.mtime, ctime := now }

def setxattr (name : Name) (value : Bytes) : Attr :=
  { a with xattr := (name, value) :: a.xattr.filter (·.1 ≠ name), ctime := now }

/-- Why the flags do not let an extended attribute be set: `XATTR_CREATE` is for a name that is new, and
`XATTR_REPLACE` for one that is there. -/
def refusesXattr (name : Name) (fl : XattrFlags) : Option Errno :=
  if a.xattr.any (·.1 = name) then
    if fl.create then some .EEXIST else none
  else
    if fl.replace then some .ENODATA else none

/-- A write changes both times. -/
def written : Attr := { a with mtime := now, ctime := now }

end Attr

namespace FileSystem

variable {Root : Type} [DecidableEq Root] (w : FileSystem Root)

/-- The attributes of an inode created now. -/
def newAttr (mode : Mode) : Attr :=
  ⟨mode, w.cred.uid, w.cred.gid, w.now, w.now, w.now, []⟩

def newInode (k : Kind Root) (mode : Mode) : Inode Root :=
  ⟨k, w.newAttr mode⟩

/-- The directories directly in the directory `i`. -/
def subdirs (i : ℕ) : Finset (Path Root) :=
  w.dom.filter fun q => w.isDir q ∧ q.rel ≠ [] ∧ w.names q.parent = some i

/-- `st_nlink`: a directory also counts its `.` and the `..` of its subdirectories. -/
def stNlink (i : ℕ) : ℕ :=
  match (w.node i).kind with
  | .dir => w.nlink i + 1 + (w.subdirs i).card
  | _ => w.nlink i

def stat (i : ℕ) : Stat :=
  ⟨i, w.stNlink i, (w.node i).kind.size, (w.node i).attr⟩

/-! ### Path lookup -/

/-- Why no name can be made in the parent directory of `p`, if so. -/
def parentError (p : Path Root) : Option Errno :=
  match w.inode? p.parent with
  | some ⟨.dir, _⟩ => none
  | some _ => some .ENOTDIR
  | none => some .ENOENT

/-- The error of a lookup that finds no `p`. -/
def missing (p : Path Root) : Errno :=
  (w.parentError p).getD .ENOENT

/-- Follow symbolic links, at most `n` of them. -/
def followN : ℕ → Path Root → Except Errno (Path Root)
  | 0, _ => .error .ELOOP
  | n + 1, p =>
    match w.inode? p with
    | some ⟨.symlink t, _⟩ => followN n t
    | _ => .ok p

/-- The path `p` resolves to. -/
def follow (p : Path Root) : Except Errno (Path Root) :=
  w.followN 40 p

/-- The inode `p` resolves to. -/
def resolve (p : Path Root) (nofollow : Bool) : Except Errno ℕ :=
  match (if nofollow then .ok p else w.follow p) with
  | .error x => .error x
  | .ok q =>
    match w.names q with
    | some i => .ok i
    | none => .error (w.missing q)

/-! ### Names -/

/-- Make the new name `p` of a new inode. -/
def makeNode (p : Path Root) (n : Inode Root) : Except Errno Unit × FileSystem Root :=
  match w.names p, w.parentError p with
  | some _, _ => (.error .EEXIST, w)
  | none, some x => (.error x, w)
  | none, none => (.ok (), (w.alloc n).setName p w.next)

def mkdirat (p : Path Root) (mode : Mode) : Except Errno Unit × FileSystem Root :=
  w.makeNode p (w.newInode .dir mode)

def mknodat (p : Path Root) (k : Kind Root) (mode : Mode) : Except Errno Unit × FileSystem Root :=
  w.makeNode p (w.newInode k mode)

def symlinkat (target p : Path Root) : Except Errno Unit × FileSystem Root :=
  w.makeNode p (w.newInode (.symlink target) 0o777#12)

/-- `unlinkat` without `AT_REMOVEDIR`. -/
def unlinkat (p : Path Root) : Except Errno Unit × FileSystem Root :=
  if (w.names p).isNone then (.error (w.missing p), w)
  else if w.isDir p then (.error .EISDIR, w)
  else (.ok (), w.clearName p)

/-- `unlinkat` with `AT_REMOVEDIR`. -/
def rmdirat (p : Path Root) : Except Errno Unit × FileSystem Root :=
  if (w.names p).isNone then (.error (w.missing p), w)
  else if ¬ w.isDir p then (.error .ENOTDIR, w)
  else if w.entriesBelow p ≠ ∅ then (.error .ENOTEMPTY, w)
  else (.ok (), w.clearName p)

/-- `linkat` without flags: a symbolic link is linked, not followed. -/
def linkat (a b : Path Root) : Except Errno Unit × FileSystem Root :=
  match w.names a with
  | none => (.error (w.missing a), w)
  | some i =>
    if w.isDir a then (.error .EPERM, w)
    else if (w.names b).isSome then (.error .EEXIST, w)
    else
      match w.parentError b with
      | some x => (.error x, w)
      | none => (.ok (), w.setName b i)

/-- Exchange what is at `a` and `b`, with everything below where one is a directory. -/
def exchange (a b : Path Root) : Except Errno Unit × FileSystem Root :=
  if w.isDir a ∨ w.isDir b then
    if h : ¬ Path.Below a b ∧ ¬ Path.Below b a then
      (.ok (), w.permute (Path.swapTree_involutive h.1 h.2).toPerm)
    else (.error .EINVAL, w)
  else (.ok (), w.permute (Equiv.swap a b))

/-- Why `b` cannot be replaced by `a`, if so. -/
def replaceError (a b : Path Root) : Option Errno :=
  if (w.names b).isNone then none
  else if w.isDir a then
    if ¬ w.isDir b then some .ENOTDIR
    else if w.entriesBelow b ≠ ∅ then some .ENOTEMPTY
    else none
  else if w.isDir b then some .EISDIR
  else none

/-- `renameat2`. Renaming one name of an inode onto another one of the same inode does
nothing and succeeds. -/
def renameat2 (a b : Path Root) (fl : RenameFlags) : Except Errno Unit × FileSystem Root :=
  if (w.names a).isNone then (.error (w.missing a), w)
  else
    match w.parentError b with
    | some x => (.error x, w)
    | none =>
      match fl with
      | .exchange => if (w.names b).isNone then (.error .ENOENT, w) else w.exchange a b
      | .noreplace =>
        if (w.names b).isSome then (.error .EEXIST, w) else w.exchange a b
      | .none =>
        -- two names of one inode stay
        if w.names a = w.names b then (.ok (), w)
        else
          match w.replaceError a b with
          | some x => (.error x, w)
          | none =>
            match (w.clearName b).exchange a b with
            | (.ok (), w') => (.ok (), w')
            | (.error x, _) => (.error x, w)

/-! ### Descriptors -/

/-- Open the inode `i` at hand. -/
def openIno (i : ℕ) (fl : OpenFlags) : Except Errno OpenFile × FileSystem Root :=
  if (w.node i).kind = .dir ∧ (fl.writes ∨ fl.creat ∨ fl.trunc) then (.error .EISDIR, w)
  else if (w.node i).kind = .special false then (.error Errno.ENXIO, w)
  else if (fl.access ≠ .wronly ∧ ¬ w.cred.permits (w.node i).attr 2)
      ∨ ((fl.writes ∨ fl.trunc) ∧ ¬ w.cred.permits (w.node i).attr 1) then (.error .EACCES, w)
  else
    match fl.trunc, (w.node i).kind with
    | true, .reg _ =>
      (.ok ⟨i, fl.access, fl.append⟩, w.setNode i ⟨.reg [], (w.node i).attr.written w.now⟩)
    | _, _ => (.ok ⟨i, fl.access, fl.append⟩, w)

/-- Create the regular file `p` and open it. -/
def createFile (p : Path Root) (fl : OpenFlags) (mode : Mode) :
    Except Errno OpenFile × FileSystem Root :=
  match w.makeNode p (w.newInode (.reg []) mode) with
  | (.error x, _) => (.error x, w)
  | (.ok (), w') => (.ok ⟨w.next, fl.access, fl.append⟩, w')

def openat (p : Path Root) (fl : OpenFlags) (mode : Mode) :
    Except Errno OpenFile × FileSystem Root :=
  if fl.creat ∧ fl.excl then
    -- with `O_EXCL` a symbolic link is not followed
    if (w.names p).isSome then (.error .EEXIST, w) else w.createFile p fl mode
  else
    match w.follow p with
    | .error x => (.error x, w)
    | .ok q =>
      match w.names q with
      | some i => w.openIno i fl
      | none => if fl.creat then w.createFile q fl mode else (.error (w.missing q), w)

def fstatat (p : Path Root) (nofollow : Bool) : Except Errno Stat :=
  match w.resolve p nofollow with
  | .error x => .error x
  | .ok i => .ok (w.stat i)

/-- `read` of at most `n` bytes. -/
def read (f : OpenFile) (n : ℕ) : Except Errno Bytes :=
  if f.access = .wronly then .error .EBADF
  else
    match (w.node f.ino).kind with
    | .reg data => .ok (data.take (min n maxRwCount))
    | .dir => .error .EISDIR
    | _ => .ok []

def pwrite (f : OpenFile) (data : Bytes) (off : ℕ) : Except Errno ℕ × FileSystem Root :=
  if f.access = .rdonly then (.error .EBADF, w)
  else
    match (w.node f.ino).kind with
    | .reg old =>
      (.ok data.length, w.setNode f.ino
        ⟨.reg (writeAt old (if f.append then old.length else off) data),
          (w.node f.ino).attr.written w.now⟩)
    | _ => (.ok data.length, w)

/-- `sendfile` without an offset, of at most `n` bytes. -/
def sendfile (out inp : OpenFile) (n : ℕ) : Except Errno ℕ × FileSystem Root :=
  if out.access = .rdonly ∨ inp.access = .wronly then (.error .EBADF, w)
  else
    match (w.node inp.ino).kind, (w.node out.ino).kind with
    | .reg src, .reg dst =>
      (.ok (src.take (min n maxRwCount)).length, w.setNode out.ino
        ⟨.reg (writeAt dst 0 (src.take (min n maxRwCount))), (w.node out.ino).attr.written w.now⟩)
    | _, _ => (.error .EINVAL, w)

/-- `posix_fallocate` from offset 0: it returns an error number, or makes the file at
least `n` bytes long. -/
def posixFallocate (f : OpenFile) (n : ℕ) : Option Errno × FileSystem Root :=
  if f.access = .rdonly then (some .EBADF, w)
  else if n = 0 then (some .EINVAL, w)
  else
    match (w.node f.ino).kind with
    | .reg data =>
      (none, w.setNode f.ino ⟨.reg (resize data (max n data.length)), (w.node f.ino).attr⟩)
    | _ => (some .EINVAL, w)

def ftruncate (f : OpenFile) (n : ℕ) : Except Errno Unit × FileSystem Root :=
  if f.access = .rdonly then (.error .EINVAL, w)
  else
    match (w.node f.ino).kind with
    | .reg data =>
      (.ok (), w.setNode f.ino ⟨.reg (resize data n), (w.node f.ino).attr.written w.now⟩)
    | _ => (.error .EINVAL, w)

/-! ### Attributes -/

/-- Change the attributes of the inode `i`. -/
def setAttr (i : ℕ) (f : Attr → Attr) : FileSystem Root :=
  w.setNode i ⟨(w.node i).kind, f (w.node i).attr⟩

def fsetxattr (f : OpenFile) (name : Name) (value : Bytes) (fl : XattrFlags) :
    Except Errno Unit × FileSystem Root :=
  match (w.node f.ino).attr.refusesXattr name fl with
  | some x => (.error x, w)
  | none => (.ok (), w.setAttr f.ino (·.setxattr w.now name value))

/-- Change the attributes of the inode a path resolves to. -/
def setattrat (p : Path Root) (nofollow : Bool) (f : Attr → Attr) :
    Except Errno Unit × FileSystem Root :=
  match w.resolve p nofollow with
  | .error x => (.error x, w)
  | .ok i => (.ok (), w.setAttr i f)

end FileSystem

/-! ### The signature -/

/-- The calls, with their arguments. -/
inductive SysCall (Root : Type) where
  | openat (p : Path Root) (fl : OpenFlags) (mode : Mode)
  | close (f : OpenFile)
  | fstat (f : OpenFile)
  | fstatat (p : Path Root) (nofollow : Bool)
  | read (f : OpenFile) (n : ℕ)
  | pwrite (f : OpenFile) (data : Bytes) (off : ℕ)
  | sendfile (out inp : OpenFile) (n : ℕ)
  | posixFallocate (f : OpenFile) (n : ℕ)
  | ftruncate (f : OpenFile) (n : ℕ)
  | fchmod (f : OpenFile) (mode : Mode)
  | fchown (f : OpenFile) (uid gid : Option ℕ)
  | futimens (f : OpenFile) (atime mtime : Option ℕ)
  | fsetxattr (f : OpenFile) (name : Name) (value : Bytes) (fl : XattrFlags)
  | fchmodat (p : Path Root) (mode : Mode)
  | fchownat (p : Path Root) (uid gid : Option ℕ)
  | utimensat (p : Path Root) (atime mtime : Option ℕ)
  | mkdirat (p : Path Root) (mode : Mode)
  | mknodat (p : Path Root) (k : Kind Root) (mode : Mode)
  | symlinkat (target p : Path Root)
  | unlinkat (p : Path Root)
  | rmdirat (p : Path Root)
  | linkat (a b : Path Root)
  | renameat2 (a b : Path Root) (fl : RenameFlags)

/-- What a call yields when it succeeds. -/
@[reducible]
def SysCall.Val {Root : Type} : SysCall Root → Type
  | .openat .. => OpenFile
  | .fstat .. => Stat
  | .fstatat .. => Stat
  | .read .. => Bytes
  | .pwrite .. => ℕ
  | .sendfile .. => ℕ
  | .posixFallocate .. => Option Errno
  | _ => Unit

/-- The signature of the system calls. -/
@[reducible]
def sig (Root : Type) : Signature := ⟨SysCall Root, SysCall.Val, Errno⟩

/-- Issue one call. -/
def sys {Root : Type} (c : SysCall Root) : Prog (sig Root) (Except Errno c.Val) :=
  .call c .ret

/-- Issue a call until it succeeds. -/
def sysUntilOk {Root : Type} (c : SysCall Root) : Prog (sig Root) c.Val :=
  .spin c .ret

@[simp] theorem sys_eq {Root : Type} (c : SysCall Root) : sys c = .call c .ret := rfl

@[simp] theorem sysUntilOk_eq {Root : Type} (c : SysCall Root) :
    sysUntilOk c = .spin c .ret := rfl

/-- What may happen to a call in place of the state's answer: it fails, or it transfers
at most `n` bytes. -/
inductive Fault where
  | fail (x : Errno)
  | short (n : ℕ)
  deriving DecidableEq, Repr

section Exec

variable {Root : Type} [DecidableEq Root]

/-- The answer the state determines. -/
def answer (w : FileSystem Root) :
    (c : SysCall Root) → Except Errno c.Val × FileSystem Root
  | .openat p fl mode => w.openat p fl mode
  | .close _ => (.ok (), w)
  | .fstat f => (.ok (w.stat f.ino), w)
  | .fstatat p nofollow => (w.fstatat p nofollow, w)
  | .read f n => (w.read f n, w)
  | .pwrite f data off => w.pwrite f data off
  | .sendfile out inp n => w.sendfile out inp n
  | .posixFallocate f n => (.ok (w.posixFallocate f n).1, (w.posixFallocate f n).2)
  | .ftruncate f n => w.ftruncate f n
  | .fchmod f mode => (.ok (), w.setAttr f.ino (·.chmod w.now mode))
  | .fchown f uid gid => (.ok (), w.setAttr f.ino (·.chown w.now uid gid))
  | .futimens f atime mtime => (.ok (), w.setAttr f.ino (·.utimes w.now atime mtime))
  | .fsetxattr f name value fl => w.fsetxattr f name value fl
  | .fchmodat p mode => w.setattrat p false (·.chmod w.now mode)
  | .fchownat p uid gid => w.setattrat p true (·.chown w.now uid gid)
  | .utimensat p atime mtime => w.setattrat p true (·.utimes w.now atime mtime)
  | .mkdirat p mode => w.mkdirat p mode
  | .mknodat p k mode => w.mknodat p k mode
  | .symlinkat target p => w.symlinkat target p
  | .unlinkat p => w.unlinkat p
  | .rmdirat p => w.rmdirat p
  | .linkat a b => w.linkat a b
  | .renameat2 a b fl => w.renameat2 a b fl

/-- The answer under a fault. -/
def exec (w : FileSystem Root) :
    Option Fault → (c : SysCall Root) → Except Errno c.Val × FileSystem Root
  | some (.fail x), .posixFallocate _ _ => (.ok (some x), w)
  | some (.fail x), _ => (.error x, w)
  | some (.short m), .read f n => (w.read f (min n m), w)
  | some (.short m), .pwrite f data off => w.pwrite f (data.take m) off
  | some (.short m), .sendfile out inp n => w.sendfile out inp (min n m)
  | some (.short _), c => answer w c
  | none, c => answer w c

end Exec

end Posix
