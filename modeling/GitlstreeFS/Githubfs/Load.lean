import GitlstreeFS.Container.Look
import GitlstreeFS.Githubfs.Model

/-!
# `GitTree::LoadDirectoryInternal`

It asks for a tree, and adds its files and directories to the container. If the answer is truncated, it
asks again without `recursive`, and starts a job for each subtree.

The jobs run at the same time, and so do their own jobs. `add` holds a mutex, and nothing else is shared;
so a run is given by the order in which `add` is called. `Loads` says which orders there are.
-/

namespace GitlstreeFS

/-- `l` has the elements of `l₁` and `l₂`, each in their order. -/
inductive Interleaving {α : Type} : List α → List α → List α → Prop
  | nil : Interleaving [] [] []
  | left {a : α} {l₁ l₂ l : List α} (h : Interleaving l₁ l₂ l) : Interleaving (a :: l₁) l₂ (a :: l)
  | right {a : α} {l₁ l₂ l : List α} (h : Interleaving l₁ l₂ l) : Interleaving l₁ (a :: l₂) (a :: l)

namespace Interleaving

variable {α : Type} {l₁ l₂ l : List α}

theorem nil_left (l : List α) : Interleaving [] l l := by
  induction l with
  | nil => exact .nil
  | cons a l ih => exact .right ih

/-- One after the other. -/
theorem append (l₁ l₂ : List α) : Interleaving l₁ l₂ (l₁ ++ l₂) := by
  induction l₁ with
  | nil => exact nil_left l₂
  | cons a l₁ ih => exact .left ih

theorem eq_of_nil_left (h : Interleaving [] l₂ l) : l = l₂ := by
  induction l₂ generalizing l with
  | nil =>
    cases h
    rfl
  | cons a l₂ ih =>
    cases h with
    | right h => rw [ih h]

end Interleaving

namespace Githubfs

open DirectoryContainer

/-! ### Files -/

/-- `FileElement`, as it is constructed. -/
structure FileElement where
  attribute_ : ℤ
  sha1_ : Str
  size_ : ℤ
  deriving DecidableEq, Repr

/-- `FileElement::Getattr`. -/
def FileElement.getattr (e : FileElement) : Stat :=
  if e.attribute_ = sIFDIR then ⟨sIFDIR ||| 0x1ed, 2, e.size_⟩
  else if e.attribute_ = sIFLNK then ⟨sIFLNK ||| 0x1a4, 1, e.size_⟩
  else ⟨sIFREG ||| bits e.attribute_, 1, e.size_⟩

/-- The `File`s that are added. -/
inductive File where
  | element (e : FileElement)
  /-- `StatusHandler` -/
  | status
  deriving DecidableEq, Repr

/-! ### `LoadDirectoryInternal` -/

/-- `fetch_url`. -/
def fetchUrl (githubApiPrefix treeHash : Str) (remoteRecurse : Bool) : Str :=
  githubApiPrefix ++ str "/git/trees/" ++ treeHash ++
    if remoteRecurse then str "?recursive=true" else []

/-- A call of `add`. -/
abbrev Add := Str × NewFile File

/-- The file of a blob. -/
def FileCall.element (call : FileCall) : FileElement :=
  ⟨call.mode, call.sha, call.size⟩

section Loads

variable (httpFetch : Str → Str) (githubApiPrefix : Str)

mutual

/-- The calls of `add` in a run of `LoadDirectoryInternal`, in the order in which they take place. -/
inductive Loads : Str → Str → Bool → List Add → Prop
  | read {subdir treeHash : Str} {remoteRecurse : Bool} {calls : List FileCall} {adds : List Add}
      (h_parse : parseTrees (httpFetch (fetchUrl githubApiPrefix treeHash remoteRecurse))
        = .ok (true, calls))
      (h : Handles subdir remoteRecurse calls adds) : Loads subdir treeHash remoteRecurse adds
  | retry {subdir treeHash : Str} {remoteRecurse : Bool} {adds : List Add}
      (h_parse : parseTrees (httpFetch (fetchUrl githubApiPrefix treeHash remoteRecurse))
        = .ok (false, []))
      (h : Loads subdir treeHash false adds) : Loads subdir treeHash remoteRecurse adds

/-- The same for the calls of the handler, and the jobs that they start. -/
inductive Handles : Str → Bool → List FileCall → List Add → Prop
  | nil {subdir : Str} {remoteRecurse : Bool} : Handles subdir remoteRecurse [] []
  | blob {subdir : Str} {remoteRecurse : Bool} {call : FileCall} {calls : List FileCall}
      {adds : List Add} (h_type : call.fstype = .blob) (h : Handles subdir remoteRecurse calls adds) :
      Handles subdir remoteRecurse (call :: calls)
        ((slash :: call.path, .file (.element call.element)) :: adds)
  | tree {subdir : Str} {call : FileCall} {calls : List FileCall} {adds : List Add}
      (h_type : call.fstype = .tree) (h : Handles subdir true calls adds) :
      Handles subdir true (call :: calls) ((slash :: call.path, .dir) :: adds)
  | job {subdir : Str} {call : FileCall} {calls : List FileCall} {jobAdds adds all : List Add}
      (h_type : call.fstype = .tree) (h_job : Loads (subdir ++ call.path ++ str "/") call.sha false jobAdds)
      (h : Handles subdir false calls adds) (h_all : Interleaving jobAdds adds all) :
      Handles subdir false (call :: calls) ((slash :: call.path, .dir) :: all)
  -- nothing is done for a commit
  | commit {subdir : Str} {remoteRecurse : Bool} {call : FileCall} {calls : List FileCall}
      {adds : List Add} (h_type : call.fstype = .commit)
      (h : Handles subdir remoteRecurse calls adds) : Handles subdir remoteRecurse (call :: calls) adds

end

end Loads

/-- The calls of `add`, one after the other. -/
def addPaths : Container File → List Add → Except Misuse (Container File)
  | container, [] => .ok container
  | container, (path, x) :: adds =>
    match container.add path x with
    | .error e => .error e
    | .ok container' => addPaths container' adds

/-- The constructor of `GitTree`, where `LoadDirectoryInternal` has made the calls `adds`. -/
def gitTree (adds : List Add) : Except Misuse (Container File) :=
  addPaths Container.empty (adds ++ [(str "/.status", .file .status)])

end Githubfs

end GitlstreeFS
