import GitlstreeFS.Cpio.Model

/-!
# `CpioFile`

A file of the mounted file system: the header that it was made from, and what it takes of the mapped file
when it is read. A file with several links may have no contents of its own. Then it looks for the header
that has them in `hardlink_map`.

`hardlink_map` is a `std::map`, which wants its keys to be ordered by `operator<`. The one of `HardlinkKey`
orders them only where of two keys none is less in one number and greater in another; what a map of other
keys finds is undefined (`FileFault.unordered`).
-/

namespace GitlstreeFS.Cpio

inductive FileFault where
  /-- `nlink_ > 1` does not hold. -/
  | assertion
  /-- A header is looked for that is not there, and the null pointer dereferenced. -/
  | null
  /-- The keys of `hardlink_map` are not ordered. -/
  | unordered
  /-- Reading the mapped file goes wrong. -/
  | fault (e : Fault)
  deriving DecidableEq, Repr

/-! ### `hardlink_map` -/

/-- `operator<`. -/
def HardlinkKey.lt (a b : HardlinkKey) : Prop :=
  a.major < b.major ∨ a.minor < b.minor ∨ a.inode < b.inode

instance (a b : HardlinkKey) : Decidable (a.lt b) :=
  inferInstanceAs (Decidable (_ ∨ _))

/-- Of two keys one is not less than the other. -/
def Ordered (keys : List HardlinkKey) : Prop :=
  ∀ a ∈ keys, ∀ b ∈ keys, ¬ (a.lt b ∧ b.lt a)

instance (keys : List HardlinkKey) : Decidable (Ordered keys) :=
  inferInstanceAs (Decidable (∀ a ∈ keys, ∀ b ∈ keys, ¬ (HardlinkKey.lt a b ∧ HardlinkKey.lt b a)))

/-- `*hardlink_map[key]`, after the assignments `hardlinks`, of which the last counts. -/
def hardlinkTarget (hardlinks : List (HardlinkKey × ℤ)) (key : HardlinkKey) : Except FileFault ℤ :=
  if Ordered (key :: hardlinks.map Prod.fst) then
    match hardlinks.reverse.lookup key with
    | some c => .ok c
    | none => .error .null
  else .error .unordered

/-! ### `Contents` -/

/-- What goes wrong with the mapped file goes wrong with the file. -/
def lift {α : Type} : Except Fault α → Except FileFault α
  | .ok a => .ok a
  | .error e => .error (.fault e)

section File

variable (m : Str)

/-- `Contents()`, of which nothing is read: where they begin, and the `size_t` that their size is
converted to. -/
def contentsView (c : ℤ) : Except Fault (ℤ × ℕ) := do
  let offset ← contentsOffset m c
  let size ← filesize m c
  return (headerEnd c + offset, (size % 0x10000000000000000).toNat)

/-- `copy(target, n, pos)`, which stops at the end of the contents. -/
def copy (view : ℤ × ℕ) (n pos : ℕ) : Except Fault Str :=
  bytes m (view.1 + pos) (min n (view.2 - pos) : ℕ)

variable (hardlinks : List (HardlinkKey × ℤ)) (c : ℤ)

/-! ### The methods -/

/-- `resolveHardlink`, which finds the same each time. -/
def resolveHardlink : Except FileFault ℤ := do
  let nlink_ ← lift (nlink m c)
  if nlink_ = 1 then return c
  else if 1 < nlink_ then
    -- an empty file of several links stands for the one that has the content
    if (← lift (contentsSize m c)) = 0 then
      let key : HardlinkKey := ⟨← lift (major m c), ← lift (minor m c), ← lift (ino m c)⟩
      hardlinkTarget hardlinks key
    else return c
  else .error .assertion

/-- `Read`: what is copied. The comparison with the end is one of `off_t`s, the other one of `size_t`s. -/
def read (size offset : ℕ) : Except FileFault Str := do
  let c ← resolveHardlink m hardlinks c
  let view ← lift (contentsView m c)
  if (offset : ℤ) < (view.2 : ℤ).bmod 0x10000000000000000 then
    let size := if view.2 < (offset + size) % 0x10000000000000000 then view.2 - offset else size
    lift (copy m view size offset)
  else return []

/-- `Readlink`: what is copied. -/
def readlink (size : ℕ) : Except FileFault Str := do
  let view ← lift (contentsView m c)
  let size := if view.2 < size then view.2 else size
  lift (copy m view size 0)

end File

/-! ### What a `CpioFile` remembers -/

/-- `*hardlink_map[key]` of a map that finds what it was given last under the key, whatever the order of
its keys is. -/
def finiteTarget (hardlinks : List (HardlinkKey × ℤ)) (key : HardlinkKey) : Except FileFault ℤ :=
  match hardlinks.reverse.lookup key with
  | some c => .ok c
  | none => .error .null

/-- `CpioFile`: the header `c_`, `nlink_`, and `t_`, which is a null pointer at first. -/
structure CpioFile where
  c : ℤ
  nlink : ℤ
  t : Option ℤ
  deriving DecidableEq, Repr

namespace CpioFile

variable (m : Str) (target : HardlinkKey → Except FileFault ℤ)

/-- The constructor. -/
def make (c : ℤ) : Except FileFault CpioFile := do
  return ⟨c, ← lift (Cpio.nlink m c), none⟩

/-- `resolveHardlink`, where `target` is `*hardlink_map[key]`. -/
def resolveHardlink (f : CpioFile) : Except FileFault (ℤ × CpioFile) := do
  if f.nlink = 1 then return (f.c, f)
  else if let some t := f.t then return (t, f)
  else if 1 < f.nlink then
    if (← lift (contentsSize m f.c)) = 0 then
      let key : HardlinkKey := ⟨← lift (major m f.c), ← lift (minor m f.c), ← lift (ino m f.c)⟩
      let t ← target key
      return (t, { f with t := some t })
    else return (f.c, { f with t := some f.c })
  else .error .assertion

/-- `Getattr`: `st_mode` and `st_size`. -/
def getattr (f : CpioFile) : Except FileFault ((ℕ × ℤ) × CpioFile) := do
  let st_mode := bits (← lift (mode m f.c))
  let (c, f) ← f.resolveHardlink m target
  return ((st_mode, ← lift (filesize m c)), f)

/-- `Read`: what is copied. -/
def read (f : CpioFile) (size offset : ℕ) : Except FileFault (Str × CpioFile) := do
  let (c, f) ← f.resolveHardlink m target
  let view ← lift (contentsView m c)
  if (offset : ℤ) < (view.2 : ℤ).bmod 0x10000000000000000 then
    let size := if view.2 < (offset + size) % 0x10000000000000000 then view.2 - offset else size
    return (← lift (copy m view size offset), f)
  else return ([], f)

/-- `Read`: the `size` that is returned, which is an `ssize_t` then, and what is copied. -/
def readReturned (f : CpioFile) (size offset : ℕ) : Except FileFault ((ℤ × Str) × CpioFile) := do
  let (c, f) ← f.resolveHardlink m target
  let view ← lift (contentsView m c)
  if (offset : ℤ) < (view.2 : ℤ).bmod 0x10000000000000000 then
    let size := if view.2 < (offset + size) % 0x10000000000000000 then view.2 - offset else size
    let copied ← lift (copy m view size offset)
    return (((size : ℤ).bmod 0x10000000000000000, copied), f)
  else return ((0, []), f)

/-- `Readlink`, which takes the header of the file itself: the value, and what is written to `target`. -/
def readlink (f : CpioFile) (size : ℕ) : Except FileFault (ℤ × Str) := do
  let view ← lift (contentsView m f.c)
  if view.2 < size then return (0, (← lift (copy m view view.2 0)) ++ [0])
  else return (0, ← lift (copy m view size 0))

/-- The file after `n` calls of `resolveHardlink`, which is all that `Getattr` and `Read` do to it. -/
def after : ℕ → CpioFile → Except FileFault CpioFile
  | 0, f => return f
  | n + 1, f => do
    let (_, f) ← f.resolveHardlink m target
    after n f

end CpioFile

end GitlstreeFS.Cpio
