import GitlstreeFS.Cpp

/-!
# `git_cat_file.cc`

`GitCatFileProcess::Request` writes a line to `git cat-file --batch` and reads the answer: a header,
whose line says how long the content is, the content and a newline. The header is taken from what the
first read delivers, and the rest is read until the computed number of bytes is there.

* A `Request` is an automaton: its `State` says what it waits for, and `receive` what it does with what
  a read delivers.
* An `int` has 32 bits. A sum of `int`s or a number behind `atoi` that does not fit is undefined
  behaviour, and a conversion from `size_t` keeps the lower 32 bits.
* A failed assertion ends the process (`Outcome.aborted`).
-/

namespace GitlstreeFS.GitCatFile

/-! ### `Request` -/

/-- How a `Request` ends. -/
inductive Outcome where
  | returned (content : Str)
  /-- `ObjectNotFoundException` is thrown. -/
  | notFound
  | aborted
  | undefined
  deriving DecidableEq, Repr

/-- `GitCatFileMetadata`. -/
structure Metadata where
  firstLineSize : ℤ
  size : ℤ
  sha1 : Str
  type : Str
  deriving DecidableEq, Repr

/-- `ASSERT_NE(A, npos, CONTEXT)`. -/
def assertNe : Option ℕ → Except Outcome ℕ
  | none => .error .aborted
  | some n => .ok n

/-- `assert(A)`. -/
def assert (p : Prop) [Decidable p] : Except Outcome Unit :=
  if p then .ok () else .error .aborted

/-- `atoi(s)`. -/
def atoi (s : Str) : Except Outcome ℤ :=
  if Fits (strtol s 10) then .ok (strtol s 10) else .error .undefined

/-- The end of the constructor, where there is a second space in the first line. -/
def sizedMetadata (header : Str) (newline space1 space2 : ℕ) : Except Outcome Metadata := do
  assert (space2 < newline)
  let size ← atoi (header.drop (space2 + 1))
  return ⟨toInt (newline + 1), size, header.take space1,
    substr header (space1 + 1) (space2 - (space1 + 1))⟩

/-- `GitCatFileMetadata::GitCatFileMetadata`. -/
def metadata (header : Str) : Except Outcome Metadata := do
  let newline ← assertNe (find header newline 0)
  let space1 ← assertNe (find header space 0)
  assert (space1 < newline)
  -- there are only two fields if the object could not be found
  let unsized : Metadata := ⟨toInt (newline + 1), -1, header.take space1,
    substr header (space1 + 1) (newline - (space1 + 1))⟩
  match find header space (space1 + 1) with
  | none => return unsized
  | some space2 =>
    if newline < space2 then return unsized
    else sizedMetadata header newline space1 space2

/-- What a `Request` that holds `m_` is about to do. -/
inductive State where
  /-- `Write`. -/
  | start
  /-- The first `Read`. -/
  | header
  /-- `Read(remaining)` in the loop. -/
  | content (metadata : Metadata) (response : Str) (remaining : ℕ)
  | ended (o : Outcome)
  deriving DecidableEq, Repr

/-- `Request` behind the loop. -/
def finish (metadata : Metadata) (response : Str) : Outcome :=
  if response.getLast? = some newline then
    .returned (substr response metadata.firstLineSize.toNat metadata.size)
  else .aborted

/-- The size of what is wanted, if the sum is defined. -/
def wanted (metadata : Metadata) : Option ℤ :=
  if Fits (metadata.size + metadata.firstLineSize) ∧ Fits (metadata.size + metadata.firstLineSize + 1)
  then some (metadata.size + metadata.firstLineSize + 1)
  else none

/-- The loop, from its condition on. -/
def loop (metadata : Metadata) (response : Str) : State :=
  match wanted metadata with
  | none => .ended .undefined
  | some size =>
    if 0 < toInt (size - response.length) then
      .content metadata response (toInt (size - response.length)).toNat
    else .ended (finish metadata response)

/-- `Request` from where the first `Read` has returned `response`. -/
def receiveHeader (response : Str) : State :=
  match metadata response with
  | .error o => .ended o
  | .ok metadata => if metadata.type = str "missing" then .ended .notFound else loop metadata response

/-- `kMaxHeaderSize`. -/
def maxHeaderSize : ℕ := 4096

/-- The size that the next `Read` asks for. -/
def State.asked : State → Option ℕ
  | .header => some maxHeaderSize
  | .content _ _ remaining => some remaining
  | _ => none

/-- A `Read` returns. -/
def State.receive : State → Str → State
  | .header, s => receiveHeader s
  | .content metadata response _, s => loop metadata (response ++ s)
  | st, _ => st

/-- `BidirectionalPopen::Read`, where `read` fails or delivers some bytes. -/
def read (result : Option Str) : Str :=
  result.getD []

end GitlstreeFS.GitCatFile
