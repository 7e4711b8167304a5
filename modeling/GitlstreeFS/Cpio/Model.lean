import GitlstreeFS.Cpp

/-!
# `cpiofs.cc`

`LoadDirectory` walks over a mapped `cpio` file: a `CpioHeader` is a pointer into it, behind the header
stands the name, behind that the contents, and behind these the next header.

* A pointer is an offset into the mapped file `m`. To read where nothing is mapped is undefined, and so
  is a sum of `int`s that does not fit into one (`Fault`).
* `Loaded` records what `LoadDirectory` does: the headers that it visits, the calls of `fs->add` and the
  assignments to `hardlink_map`, which it does not read. What the container makes of the calls is said
  where the container is.
-/

namespace GitlstreeFS.Cpio

inductive Fault where
  /-- What is read is not part of the file. -/
  | unmapped
  /-- A sum does not fit into an `int`. -/
  | overflow
  /-- The bound on the number of headers was too small. -/
  | endless
  deriving DecidableEq, Repr

/-- The `n` bytes from `c` on. -/
def bytes (m : Str) (c n : ℤ) : Except Fault Str :=
  if 0 ≤ c ∧ 0 ≤ n ∧ c + n ≤ m.length then .ok ((m.drop c.toNat).take n.toNat) else .error .unmapped

/-- The result of an operation on `int`s. -/
def int (n : ℤ) : Except Fault ℤ :=
  if -0x80000000 ≤ n ∧ n < 0x80000000 then .ok n else .error .overflow

/-! ### `CpioHeader` -/

section Header

variable (m : Str) (c : ℤ)

/-- `Number::get` of the `i`-th number. -/
def number (i : ℕ) : Except Fault ℤ := do
  let s ← bytes m (c + 6 + 8 * i) 8
  return toInt (strtol s 16)

/-! The numbers that are read; the others are `uid`, `gid`, `mtime`, `rmajor`, `rminor` and `chksum`. -/

def ino : Except Fault ℤ := number m c 0
def mode : Except Fault ℤ := number m c 1
def nlink : Except Fault ℤ := number m c 4
def filesize : Except Fault ℤ := number m c 6
def major : Except Fault ℤ := number m c 7
def minor : Except Fault ℤ := number m c 8
def namesize : Except Fault ℤ := number m c 11

/-- `end`. -/
def headerEnd : ℤ := c + 110

/-- The loop of `CheckHeader`, from where `golden` is left to compare. -/
def checkMagic : ℤ → Str → Except Fault Bool
  | _, [] => return true
  | c, b :: golden => do
    if (← bytes m c 1) ≠ [b] then return false
    else checkMagic (c + 1) golden

/-- `CheckHeader`. -/
def checkHeader : Except Fault Bool :=
  checkMagic m c (str "070701")

/-- `FileName`. -/
def fileName : Except Fault Str := do
  let n ← int ((← namesize m c) - 1)
  bytes m (headerEnd c) n

/-- `padding`, in `ContentsOffset` and in `EndOffset`. -/
def padding (n : ℤ) : Except Fault ℤ := do
  let k ← int (n + 2)
  return (4 - k.tmod 4).tmod 4

/-- `ContentsOffset`. -/
def contentsOffset : Except Fault ℤ := do
  let n ← namesize m c
  int (n + (← padding n))

/-- `Contents`. -/
def contents : Except Fault Str := do
  let offset ← contentsOffset m c
  bytes m (headerEnd c + offset) (← filesize m c)

/-- `Contents().size()`, for which nothing of the contents is read: zero just if this is. -/
def contentsSize : Except Fault ℤ := do
  let _ ← contentsOffset m c
  filesize m c

/-- `EndOffset`. -/
def endOffset : Except Fault ℤ := do
  let n ← int ((← contentsOffset m c) + (← filesize m c))
  int (n + (← padding n))

/-- `Next`. -/
def next : Except Fault ℤ :=
  return headerEnd c + (← endOffset m c)

end Header

/-! ### `LoadDirectory` -/

/-- `HardlinkKey`. -/
structure HardlinkKey where
  major : ℤ
  minor : ℤ
  inode : ℤ
  deriving DecidableEq, Repr

/-- What has been done. -/
structure Loaded where
  visited : List ℤ
  /-- The names and the headers that `fs->add` was called with. -/
  adds : List (Str × ℤ)
  hardlinks : List (HardlinkKey × ℤ)
  deriving DecidableEq, Repr

/-- The file type is one of those that are supported. -/
def isSupported (mode : ℕ) : Bool :=
  mode &&& sIFMT = sIFREG ∨ mode &&& sIFMT = sIFLNK

/-- The cases of the `switch`. -/
def addFile (m : Str) (c : ℤ) (name : Str) (loaded : Loaded) : Except Fault Loaded := do
  let key : HardlinkKey := ⟨← major m c, ← minor m c, ← ino m c⟩
  let added := { loaded with adds := loaded.adds ++ [(slash :: name, c)] }
  if 1 < (← nlink m c) ∧ (← contentsSize m c) ≠ 0 then
    return { added with hardlinks := added.hardlinks ++ [(key, c)] }
  else return added

/-- The body of the loop, behind the test for the trailer. -/
def visit (m : Str) (c : ℤ) (name : Str) (loaded : Loaded) : Except Fault Loaded := do
  -- the size is printed
  let _ ← contentsSize m c
  let visited := { loaded with visited := loaded.visited ++ [c] }
  if isSupported (bits (← mode m c)) then addFile m c name visited
  else return visited

/-- The loop, with a bound on the number of headers. -/
def load (m : Str) : ℕ → ℤ → Loaded → Except Fault (Bool × Loaded)
  | 0, _, _ => .error .endless
  | n + 1, c, loaded => do
    if ← checkHeader m c then
      let name ← fileName m c
      if name = str "TRAILER!!!" then return (true, loaded)
      else
        let loaded ← visit m c name loaded
        load m n (← next m c) loaded
    -- no magic number: the archive ends without a trailer
    else return (false, loaded)

/-- `LoadDirectory` on a file that holds `m`. -/
def loadDirectory (m : Str) (n : ℕ) : Except Fault (Bool × Loaded) :=
  load m n 0 ⟨[], [], []⟩

end GitlstreeFS.Cpio
