import GitlstreeFS.Base64.Decoder
import GitlstreeFS.Cpp
import GitlstreeFS.Jjson.Access

/-!
# `git-githubfs.cc`

`ParseCommit` and `ParseBlob` read GitHub's answers to requests for a commit and for a blob. `ParseTrees`
reads that to a request for a tree, and calls a handler for each of the files in it. The model returns the
calls with the result.
-/

namespace GitlstreeFS.Githubfs

open Jjson

inductive GitFileType where
  | blob
  | tree
  | commit
  deriving DecidableEq, Repr

/-- `file_type_map`. -/
def fileTypeMap : List (Str × GitFileType) :=
  [(str "blob", .blob), (str "tree", .tree), (str "commit", .commit)]

/-- `FileTypeStringToFileType`. -/
def fileTypeStringToFileType (fileTypeString : Str) : Except Misuse GitFileType :=
  match fileTypeMap.lookup fileTypeString with
  | some fstype => .ok fstype
  | none => .error .undefined

/-- A call of `file_handler`, with its arguments. -/
structure FileCall where
  path : Str
  mode : ℤ
  fstype : GitFileType
  sha : Str
  size : ℤ
  url : Str
  deriving DecidableEq, Repr

/-- `ParseCommit`. A fault of the parser is a null pointer that is dereferenced too. -/
def parseCommit (commitString : Str) : Except Misuse Str :=
  match parse strtof commitString with
  | .error _ => .error .undefined
  | .ok none => .error .undefined
  | .ok (some commit) => do
    (← (← (← commit.get (str "commit")).member (str "tree")).member (str "sha")).getString

/-- `ParseBlob`. An index that is not one of the table of `base64decode` is undefined as well. -/
def parseBlob (blobString : Str) : Except Misuse Str :=
  match parse strtof blobString with
  | .error _ => .error .undefined
  -- `blob` is null if the text is no JSON, and that is not looked at
  | .ok none => .error .undefined
  | .ok (some blob) => do
    let encoding ← (← blob.get (str "encoding")).getString
    if encoding = str "base64" then
      let content ← (← blob.get (str "content")).getString
      match Base64.base64decode content with
      | .error _ => .error .undefined
      | .ok memory => return memory
    -- no other encoding is known
    else .error .assertion

/-- The conversion of a `float` to a `size_t`, which drops the fraction. -/
def toSize : Binary32 → Except Misuse ℕ
  | .finite x => if -1 < x ∧ x < 0x10000000000000000 then .ok ⌊x⌋.toNat else .error .undefined
  | .infinity _ => .error .undefined

/-- `file_size`: only a blob has one. -/
def fileSize (file : Value Binary32) (type : Str) : Except Misuse ℕ := do
  if type = str "blob" then toSize (← (← file.get (str "size")).getNumber) else return 0

/-- The body of the loop of `ParseTrees`. -/
def parseFile (file : Value Binary32) : Except Misuse FileCall := do
  let type ← (← file.get (str "type")).getString
  let fileSize ← fileSize file type
  let fstype ← fileTypeStringToFileType type
  let path ← (← file.get (str "path")).getString
  let mode ← (← file.get (str "mode")).getString
  let sha ← (← file.get (str "sha")).getString
  let url ← (← file.get (str "url")).getString
  return ⟨path, toInt (strtol mode 8), fstype, sha, toInt fileSize, url⟩

/-- `ParseTrees`: what it returns and the calls of `file_handler`. -/
def parseTrees (treesString : Str) : Except Misuse (Bool × List FileCall) :=
  match parse strtof treesString with
  | .error _ => .error .undefined
  | .ok none => .error .undefined
  | .ok (some value) => do
    let truncated ← value.get (str "truncated")
    -- an answer that was cut off is read again, directory by directory
    if truncated.isTrue then return (false, [])
    else
      let files ← (← value.member (str "tree")).getArray
      let calls ← files.mapM parseFile
      return (true, calls)

end GitlstreeFS.Githubfs
