import GitlstreeFS.Container.Mount
import GitlstreeFS.Ninjafs.Model
import GitlstreeFS.SplitJoin

/-!
# The mounted targets

From `ninja -t targets all` to the client: `LoadDirectory` splits what `ninja` prints into lines, and a line
into the name of a target and its rule, and adds a `NinjaTarget` for each name to the container. A client that
walks the mount finds the log and the targets (`mounted_targets`), and an open file leads to the name that
`ninja` is run with.
-/

namespace GitlstreeFS.Ninjafs

open Client (Looked)
open DirectoryContainer
open SplitOn

/-! ### `LoadDirectory` -/

/-- What is in the container. -/
inductive File where
  | log
  | target (originalTargetName : Str)
  deriving DecidableEq, Repr

/-- What ends the process. -/
inductive Fault where
  | split (f : SplitFault)
  | assertion
  | container (m : Misuse)
  deriving DecidableEq, Repr

/-- The colon. -/
def colon : UInt8 := 0x3a

/-- `SplitStringUsing`. -/
def split (s : Str) (c : UInt8) (tokenCompress : Bool) : Except Fault (List Str) :=
  (splitStringUsing s c tokenCompress).mapError .split

/-- The name of a target in a line, if it has one. -/
def parseLine (line : Str) : Except Fault (Option Str) := do
  match ← split line colon true with
  | [filename, _] => if filename.head? = some slash then .error .assertion else return some filename
  -- a line with another number of elements is skipped
  | _ => return none

/-- `fs->add(path, file)`. -/
def addFile (container : Container File) (path : Str) (file : File) : Except Fault (Container File) :=
  (container.add path (.file file)).mapError .container

/-- The loop over the lines. -/
def addLines : Container File → List Str → Except Fault (Container File)
  | container, [] => return container
  | container, line :: lines => do
    match ← parseLine line with
    | some filename => addLines (← addFile container (slash :: filename) (.target filename)) lines
    | none => addLines container lines

/-- `LoadDirectory`. `popen` says what a command prints and how it exits. -/
def loadDirectory (popen : List Str → Str × ℤ) (container : Container File) :
    Except Fault (Bool × Container File) := do
  let container ← addFile container (str "/ninja.log") .log
  let ninjaTargets := popen [str "ninja", str "-t", str "targets", str "all"]
  if ninjaTargets.2 ≠ 0 then return (false, container)
  else
    let lines ← split ninjaTargets.1 newline false
    let container ← addLines container lines
    return (true, container)

/-! ### The listing -/

/-- A target and its rule, as `ninja` knows them. -/
structure Target where
  path : List Str
  rule : Str

/-- The name that `ninja` prints. -/
def Target.name (x : Target) : Str :=
  (render x.path).tail

/-- The line that `ninja` prints. -/
def Target.line (x : Target) : Str :=
  x.name ++ colon :: x.rule

/-- There is neither a colon nor a newline in a line, but the colon between the name and the rule. -/
structure Target.WellFormed (x : Target) : Prop where
  isPath : IsPath x.path
  name : ∀ n ∈ x.path, colon ∉ n ∧ newline ∉ n
  rule : colon ∉ x.rule ∧ newline ∉ x.rule

/-- What `ninja` prints. -/
def listing (targets : List Target) : Str :=
  (targets.map fun x => x.line ++ [newline]).flatten

/-- The files: the log, and the targets by their names. -/
def files (targets : List Target) : List (List Str × File) :=
  ([str "ninja.log"], .log) :: targets.map fun x => (x.path, .target x.name)

variable {x : Target} {targets : List Target} {c c' : Container File}

theorem split_eq {s : Str} {b : UInt8} (h : s.length < 0x7fffffff) (h_ne : s ≠ []) (compress : Bool) :
    split s b compress = .ok (if compress then dropRuns (s.splitOn b) else s.splitOn b) := by
  rw [split, splitStringUsing_eq h h_ne]
  rfl

theorem notMem_name {b : UInt8} (hb : b ≠ slash) (h : ∀ n ∈ x.path, b ∉ n) : b ∉ x.name := by
  intro h_mem
  obtain ⟨n, hn, h_mem⟩ := List.mem_flatMap.mp (List.mem_of_mem_tail h_mem)
  obtain rfl | h_mem := List.mem_cons.mp h_mem
  · exact hb rfl
  · exact h n hn h_mem

/-- The name of a target is its path without the slash in front, and begins with none. -/
theorem Target.WellFormed.name_eq (h : x.WellFormed) :
    slash :: x.name = render x.path ∧ x.name ≠ [] ∧ x.name.head? ≠ some slash := by
  obtain ⟨n, q, h_eq⟩ := List.exists_cons_of_ne_nil h.isPath.ne_nil
  have hn : IsName n := h.isPath.isName n (by rw [h_eq]; exact List.mem_cons_self)
  obtain ⟨b, n, rfl⟩ := List.exists_cons_of_ne_nil hn.1
  have h_name : x.name = b :: (n ++ render q) := by
    rw [Target.name, h_eq]
    rfl
  rw [h_name, h_eq]
  refine ⟨rfl, List.cons_ne_nil _ _, fun h_head => hn.2 ?_⟩
  obtain rfl : b = slash := Option.some.inj h_head
  exact List.mem_cons_self

/-- **A line is read.** -/
theorem parseLine_eq (h : x.WellFormed) (h_length : x.line.length < 0x7fffffff) :
    parseLine x.line = .ok (some x.name) := by
  obtain ⟨-, h_ne, h_head⟩ := h.name_eq
  have h_colon : colon ∉ x.name := notMem_name (by decide) fun n hn => (h.name n hn).1
  have h_pieces : dropRuns (x.line.splitOn colon) = [x.name, x.rule] := by
    rw [Target.line, List.splitOn_append_cons_self_of_not_mem h_colon, List.splitOn_eq_singleton h.rule.1,
      dropRuns_cons _ (List.cons_ne_nil _ _), if_neg h_ne, dropRuns_singleton]
  rw [parseLine, split_eq h_length (by simp [Target.line]), if_pos rfl, h_pieces, ok_bind]
  dsimp only
  rw [if_neg h_head]
  rfl

/-- **The listing is split into its lines**, and there is an empty one behind. -/
theorem splitOn_listing (h : ∀ x ∈ targets, x.WellFormed) :
    (listing targets).splitOn newline = targets.map Target.line ++ [[]] := by
  induction targets with
  | nil => rfl
  | cons x targets ih =>
    rw [List.forall_mem_cons] at h
    have h_line : newline ∉ x.line := by
      rw [Target.line, List.mem_append, List.mem_cons, not_or, not_or]
      exact ⟨notMem_name (by decide) fun n hn => (h.1.name n hn).2, by decide, h.1.rule.2⟩
    have h_eq : listing (x :: targets) = x.line ++ newline :: listing targets := by
      rw [listing, List.map_cons, List.flatten_cons, List.append_assoc]
      rfl
    rw [h_eq, List.splitOn_append_cons_self_of_not_mem h_line, ih h.2]
    rfl

theorem length_line_le (hx : x ∈ targets) : x.line.length ≤ (listing targets).length := by
  have h_le :=
    (List.sublist_flatten_of_mem
      (List.mem_map_of_mem (f := fun x : Target => x.line ++ [newline]) hx)).length_le
  rw [List.length_append] at h_le
  exact (Nat.le_add_right _ _).trans h_le

/-- **The loop adds the targets.** -/
theorem addLines_eq (h : ∀ x ∈ targets, x.WellFormed) (h_length : ∀ x ∈ targets, x.line.length < 0x7fffffff) :
    addLines c (targets.map Target.line ++ [[]])
      = (c.addAll (targets.map fun x => (x.path, .file (.target x.name)))).mapError .container := by
  induction targets generalizing c with
  | nil => rfl
  | cons x targets ih =>
    rw [List.forall_mem_cons] at h h_length
    rw [List.map_cons, List.map_cons, List.cons_append, addLines, parseLine_eq h.1 h_length.1, ok_bind,
      Container.addAll]
    dsimp only
    rw [(h.1.name_eq).1, addFile]
    cases c.add (render x.path) (.file (.target x.name)) with
    | error m => rfl
    | ok c' => exact ih h.2 h_length.2

/-- What `LoadDirectory` does with the listing. -/
theorem loadDirectory_eq {popen : List Str → Str × ℤ}
    (h_popen : popen [str "ninja", str "-t", str "targets", str "all"] = (listing targets, 0))
    (h : ∀ x ∈ targets, x.WellFormed) (h_length : (listing targets).length < 0x7fffffff)
    (h_add : Container.empty.addAll ((files targets).map fun e => (e.1, .file e.2)) = .ok c) :
    loadDirectory popen Container.empty = .ok (true, c) := by
  have h_log : render [str "ninja.log"] = str "/ninja.log" := by decide
  have h_lines (c₁ : Container File) :
      (split (listing targets) newline false >>= fun lines => addLines c₁ lines)
        = (c₁.addAll (targets.map fun x => (x.path, .file (.target x.name)))).mapError .container := by
    by_cases h_nil : listing targets = []
    · -- `ninja` knows no target, and there is no line
      obtain rfl : targets = [] := by
        cases targets with
        | nil => rfl
        | cons x targets => simp [listing] at h_nil
      rfl
    · rw [split_eq h_length h_nil, if_neg Bool.false_ne_true, ok_bind, splitOn_listing h,
        addLines_eq h fun x hx => lt_of_le_of_lt (length_line_le hx) h_length]
  rw [files, List.map_cons, List.map_map, Container.addAll, h_log] at h_add
  rw [loadDirectory, addFile]
  cases h_first : (Container.empty (F := File)).add (str "/ninja.log") (.file .log) with
  | error m =>
    rw [h_first] at h_add
    cases h_add
  | ok c₁ =>
    rw [h_first] at h_add
    have h_all : c₁.addAll (targets.map fun x => (x.path, .file (.target x.name))) = .ok c := h_add
    have h_both := h_lines c₁
    rw [h_all] at h_both
    obtain ⟨lines, h_split, h_loop⟩ := bind_eq_ok_iff.mp h_both
    change (if (popen [str "ninja", str "-t", str "targets", str "all"]).2 ≠ 0 then _ else _) = _
    rw [h_popen, if_neg (by simp), h_split, ok_bind, h_loop]
    rfl

/-! ### From `ninja` to the client -/

/-- `Getattr` of a file, where the log and the `buf_`s of the targets are these. -/
def fileStat (log : Str) (bufs : Str → Option Str) : File → Stat
  | .log => NinjaLog.getattr log
  | .target name => NinjaTarget.getattr ⟨bufs name, log, 0⟩

/-- What a client finds at a path. -/
inductive FoundAt (targets : List Target) (log : Str) (bufs : Str → Option Str) : List Str → Stat → Prop
  | root : FoundAt targets log bufs [] directoryStat
  | log : FoundAt targets log bufs [str "ninja.log"] (NinjaLog.getattr log)
  | target {x : Target} (h : x ∈ targets) :
      FoundAt targets log bufs x.path (NinjaTarget.getattr ⟨bufs x.name, log, 0⟩)
  | above {q : List Str} (h : IsAncestor (files targets) q) : FoundAt targets log bufs q directoryStat

theorem foundAt_iff {log : Str} {bufs : Str → Option Str} {q : List Str} {st : Stat} :
    FoundAt targets log bufs q st ↔ q = [] ∧ st = directoryStat ∨
      ∃ y, Above (files targets) q y ∧ st = y.getattr (fileStat log bufs) := by
  constructor
  · intro h
    cases h with
    | root => exact .inl ⟨rfl, rfl⟩
    | log => exact .inr ⟨_, .inl ⟨_, List.mem_cons_self, rfl⟩, rfl⟩
    | target h => exact .inr ⟨_, .inl ⟨_, List.mem_cons_of_mem _ (List.mem_map_of_mem h), rfl⟩, rfl⟩
    | above h => exact .inr ⟨_, .inr ⟨h, rfl⟩, rfl⟩
  · rintro (⟨rfl, rfl⟩ | ⟨y, ⟨f, h_mem, rfl⟩ | ⟨h_dir, rfl⟩, rfl⟩)
    · exact .root
    · obtain h_eq | h_mem := List.mem_cons.mp h_mem
      · obtain ⟨rfl, rfl⟩ := Prod.mk.inj h_eq
        exact .log
      · obtain ⟨x, hx, h_eq⟩ := List.mem_map.mp h_mem
        obtain ⟨rfl, rfl⟩ := Prod.mk.inj h_eq
        exact .target hx
    · exact .above h_dir

theorem files_isPath (h : ∀ x ∈ targets, x.WellFormed) : ∀ e ∈ files targets, IsPath e.1 := by
  intro e he
  obtain rfl | he := List.mem_cons.mp he
  · exact (by decide : IsPath [str "ninja.log"])
  · obtain ⟨x, hx, rfl⟩ := List.mem_map.mp he
    exact (h x hx).isPath

/-- **The targets are mounted.** If no target is below another one or below the log, then a client that walks
the mount finds the log, the targets by their paths, and the directories above them, each once, and nothing
else, whatever has been built; and what it opens at the path of a target is the file that runs `ninja` with the
name of this target. -/
theorem mounted_targets {popen : List Str → Str × ℤ}
    (h_popen : popen [str "ninja", str "-t", str "targets", str "all"] = (listing targets, 0))
    (h : ∀ x ∈ targets, x.WellFormed) (h_length : (listing targets).length < 0x7fffffff)
    (h_free : PrefixFree (files targets)) (h_looked : ∀ x ∈ targets, ∀ n ∈ x.path, Looked n) :
    ∃ c, loadDirectory popen Container.empty = .ok (true, c) ∧
      (∀ log bufs depth,
        ((clientFind (fileStat log bufs) Container.fsOpendir c depth).map Prod.fst).Nodup ∧
        ∀ q st, (q, st) ∈ clientFind (fileStat log bufs) Container.fsOpendir c depth ↔
          q.length ≤ depth ∧ FoundAt targets log bufs q st) ∧
      ∀ x ∈ targets, ∃ ptr a,
        c.get (render x.path) = some ptr ∧ c.deref ptr = some (.file a (.target x.name)) := by
  obtain ⟨c, h_add, h_represents⟩ := represents_addAll (files_isPath h) h_free
  have h_serves := h_represents.serves (files_isPath h)
  refine ⟨c, loadDirectory_eq h_popen h h_length h_add, fun log bufs depth =>
    ⟨h_serves.nodup_find .plain depth, fun q st => ?_⟩,
    fun x hx => h_represents.file _ (List.mem_cons_of_mem _ (List.mem_map_of_mem hx))⟩
  rw [h_serves.mem_find_iff .plain, foundAt_iff, and_congr_right_iff]
  refine fun _ => and_iff_right_of_imp fun h_found n hn => ?_
  -- each name is one of the path of a file
  have h_file (e : List Str × File) (he : e ∈ files targets) (hn : n ∈ e.1) : Looked n := by
    obtain rfl | he := List.mem_cons.mp he
    · exact (by decide : ∀ n ∈ [str "ninja.log"], Looked n) n hn
    · obtain ⟨x, hx, rfl⟩ := List.mem_map.mp he
      exact h_looked x hx n hn
  obtain ⟨rfl, -⟩ | ⟨y, ⟨f, h_mem, -⟩ | ⟨⟨-, e, he, h_pre, -⟩, -⟩, -⟩ := h_found
  · exact absurd hn List.not_mem_nil
  · exact h_file _ h_mem hn
  · exact h_file e he (h_pre.subset hn)

/-- A target in a directory, and a phony one. -/
def twoTargets : List Target :=
  [⟨[str "out", str "a.o"], str " cc"⟩, ⟨[str "all"], str " phony"⟩]

theorem mounted_targets_twoTargets :
    ∃ c, loadDirectory (fun _ => (str "out/a.o: cc\nall: phony\n", 0)) Container.empty = .ok (true, c) ∧
      (∀ log bufs depth,
        ((clientFind (fileStat log bufs) Container.fsOpendir c depth).map Prod.fst).Nodup ∧
        ∀ q st, (q, st) ∈ clientFind (fileStat log bufs) Container.fsOpendir c depth ↔
          q.length ≤ depth ∧ FoundAt twoTargets log bufs q st) ∧
      ∀ x ∈ twoTargets, ∃ ptr a,
        c.get (render x.path) = some ptr ∧ c.deref ptr = some (.file a (.target x.name)) := by
  have h_wf : ∀ x ∈ twoTargets, x.WellFormed := by
    intro x hx
    obtain rfl | rfl : x = ⟨[str "out", str "a.o"], str " cc"⟩ ∨ x = ⟨[str "all"], str " phony"⟩ := by
      simpa [twoTargets] using hx
    · exact ⟨by decide, by decide, by decide⟩
    · exact ⟨by decide, by decide, by decide⟩
  exact mounted_targets (Prod.ext (by decide) rfl) h_wf (by decide) (by decide) (by decide)

end GitlstreeFS.Ninjafs
