import GitlstreeFS.Container.Model
import GitlstreeFS.SplitString

/-!
# `gitlstree.cc`

`GitTree::LoadDirectory` reads what `git ls-tree -l -r` prints, line by line, and adds a file for each line
that has four fields. What a command prints and exits with is a parameter.
-/

namespace GitlstreeFS.Gitlstree

open DirectoryContainer

/-! ### Files -/

/-- `FileElement`, as it is constructed. -/
structure FileElement where
  attribute_ : ℤ
  sha1 : Str
  size : ℤ
  deriving DecidableEq, Repr

/-- `FileElement::Getattr`. -/
def FileElement.getattr (e : FileElement) : Stat :=
  if e.attribute_ = sIFLNK then ⟨sIFLNK ||| 0x1a4, 1, e.size⟩
  else ⟨sIFREG ||| bits e.attribute_, 1, e.size⟩

/-- The `File`s that `LoadDirectory` adds. -/
inductive File where
  | element (e : FileElement)
  /-- `StatusHandler` -/
  | status
  /-- `GitHeadHandler` -/
  | head (rev : Str)
  deriving DecidableEq, Repr

/-- What ends the process. -/
inductive Fault where
  | split (f : SplitFault)
  /-- `resize` throws `std::length_error`. -/
  | lengthError
  | assertion
  /-- `atoi` of what is not an `int`. -/
  | atoi
  | container (m : Misuse)
  deriving DecidableEq, Repr

/-! ### `LoadDirectory` -/

/-- `SplitStringUsing`. -/
def split (s : Str) (c : UInt8) (tokenCompress : Bool) : Except Fault (List Str) :=
  (splitStringUsing s c tokenCompress).mapError .split

/-- `atoi`. -/
def atoi (s : Str) : Except Fault ℤ :=
  if Fits (strtol s 10) then .ok (strtol s 10) else .error .atoi

/-- The tab. -/
def tab : UInt8 := 0x09

/-- A line with four fields: the path and the file to add there. -/
def parseElements : List Str → Except Fault (Option (Str × FileElement))
  | [mode, _, sha1, sizeAndPath] => do
    -- the last field: the size, a tab and the path
    match ← split sizeAndPath tab false with
    | [size, filePath] =>
      let size ← atoi size
      if filePath.head? = some slash then .error .assertion
      else return some (slash :: filePath, ⟨toInt (strtol mode 8), sha1, size⟩)
    | _ => .error .assertion
  -- a line with another number of fields is skipped
  | _ => return none

/-- What a line asks to add. -/
def parseLine (line : Str) : Except Fault (Option (Str × FileElement)) := do
  parseElements (← split line space true)

/-- `container->add(path, file)`. -/
def addFile (container : Container File) (path : Str) (file : File) : Except Fault (Container File) :=
  (container.add path (.file file)).mapError .container

/-- The loop over the lines. -/
def addLines : Container File → List Str → Except Fault (Container File)
  | container, [] => return container
  | container, line :: lines => do
    match ← parseLine line with
    | some (path, e) => addLines (← addFile container path (.element e)) lines
    | none => addLines container lines

/-- `LoadDirectory`. `runGitCommand` says what a command prints and with which code it exits. -/
def loadDirectory (runGitCommand : List Str → Str × ℤ) (ref : Str) (container : Container File) :
    Except Fault (Bool × Container File) := do
  let revParse := runGitCommand [str "git", str "rev-parse", ref]
  if revParse.1 = [] then .error .lengthError
  else
    -- without the final newline
    let hash := revParse.1.dropLast
    if revParse.2 ≠ 0 then return (false, container)
    else
      let lsTree := runGitCommand [str "git", str "ls-tree", str "-l", str "-r", hash]
      if lsTree.2 ≠ 0 then return (false, container)
      else
        let lines ← split lsTree.1 newline true
        let container ← addLines container lines
        let container ← addFile container (str "/.status") .status
        let container ← addFile container (str "/.git/HEAD") (.head hash)
        return (true, container)

end GitlstreeFS.Gitlstree
