import GitlstreeFS.Githubfs.Model

/-!
# Which answers are handled

The three functions go down into an answer with accessors that assert, or dereference what they have not
found. So each of them returns for the answers of a certain shape (`IsCommit`, `IsBlob`, `IsTrees`), and for
no others: `handled_iff`. That GitHub says what has gone wrong is not among them.
-/

namespace GitlstreeFS.Githubfs

open Jjson

/-- The function returns. -/
def Handled {α : Type} (result : Except Misuse α) : Prop :=
  ∃ a, result = .ok a

/-! ### Shapes -/

/-- `commit.tree.sha` is a string. -/
def IsCommit (value : Value Binary32) : Prop :=
  ∃ commit tree sha, HasMember value (str "commit") commit ∧ HasMember commit (str "tree") tree ∧
    HasMember tree (str "sha") (.string sha)

/-- There is a `content` in `base64`, without bytes that would be negative indices. -/
def IsBlob (value : Value Binary32) : Prop :=
  HasMember value (str "encoding") (.string (str "base64")) ∧
    ∃ content, HasMember value (str "content") (.string content) ∧ Base64.InRange content

/-- The number can be converted to a `size_t`. -/
def IsSize : Binary32 → Prop
  | .finite x => -1 < x ∧ x < 0x10000000000000000
  | .infinity _ => False

/-- A file has a type that is known, with a size if it is a blob, and four strings. -/
def IsFile (file : Value Binary32) : Prop :=
  ∃ type, HasMember file (str "type") (.string type) ∧ type ∈ fileTypeMap.map Prod.fst ∧
    (type = str "blob" → ∃ x, HasMember file (str "size") (.number x) ∧ IsSize x) ∧
    ∀ key ∈ [str "path", str "mode", str "sha", str "url"], ∃ s, HasMember file key (.string s)

/-- It is `truncated`, or has an array of files. -/
def IsTrees (value : Value Binary32) : Prop :=
  ∃ truncated, HasMember value (str "truncated") truncated ∧ (truncated.isTrue = false →
    ∃ files, HasMember value (str "tree") (.array files) ∧ ∀ file ∈ files, IsFile file)

/-! ### Commits and blobs -/

variable {value file : Value Binary32} {s key type : Str}

/-- A string that is a member. -/
theorem get_getString_iff {sha : Str} :
    (value.get key >>= Value.getString) = .ok sha ↔ HasMember value key (.string sha) := by
  rw [bind_eq_ok_iff]
  constructor
  · rintro ⟨v, h_get, h_string⟩
    rw [getString_eq_ok_iff] at h_string
    rw [← h_string]
    exact get_eq_ok_iff.mp h_get
  · intro h
    exact ⟨_, get_eq_ok_iff.mpr h, rfl⟩

/-- **`ParseCommit` returns what is at `commit.tree.sha`.** -/
theorem parseCommit_eq_ok_iff {sha : Str} : parseCommit s = .ok sha ↔ ∃ value commit tree,
    parse strtof s = .ok (some value) ∧ HasMember value (str "commit") commit ∧
      HasMember commit (str "tree") tree ∧ HasMember tree (str "sha") (.string sha) := by
  rw [parseCommit]
  constructor
  · intro h
    split at h
    · cases h
    · cases h
    · next value h_parse =>
      obtain ⟨commit, h_commit, h⟩ := bind_eq_ok_iff.mp h
      obtain ⟨tree, h_tree, h⟩ := bind_eq_ok_iff.mp h
      obtain ⟨v, h_sha, h⟩ := bind_eq_ok_iff.mp h
      obtain rfl := getString_eq_ok_iff.mp h
      exact ⟨value, commit, tree, h_parse, get_eq_ok_iff.mp h_commit, member_eq_ok_iff.mp h_tree,
        member_eq_ok_iff.mp h_sha⟩
  · rintro ⟨value, commit, tree, h_parse, h_commit, h_tree, h_sha⟩
    rw [h_parse]
    simp only [get_eq_ok_iff.mpr h_commit, member_eq_ok_iff.mpr h_tree, member_eq_ok_iff.mpr h_sha, ok_bind]
    rfl

theorem handled_parseCommit_iff :
    Handled (parseCommit s) ↔ ∃ value, parse strtof s = .ok (some value) ∧ IsCommit value := by
  constructor
  · rintro ⟨sha, h⟩
    obtain ⟨value, commit, tree, h_parse, h⟩ := parseCommit_eq_ok_iff.mp h
    exact ⟨value, h_parse, commit, tree, sha, h⟩
  · rintro ⟨value, h_parse, commit, tree, sha, h⟩
    exact ⟨sha, parseCommit_eq_ok_iff.mpr ⟨value, commit, tree, h_parse, h⟩⟩

/-- **`ParseBlob` returns what `content` decodes to.** -/
theorem parseBlob_eq_ok_iff {memory : Str} : parseBlob s = .ok memory ↔ ∃ value content,
    parse strtof s = .ok (some value) ∧ HasMember value (str "encoding") (.string (str "base64")) ∧
      HasMember value (str "content") (.string content) ∧ Base64.base64decode content = .ok memory := by
  rw [parseBlob]
  constructor
  · intro h
    split at h
    · cases h
    · cases h
    · next value h_parse =>
      obtain ⟨v, h_encoding, h₁⟩ := bind_eq_ok_iff.mp h
      obtain ⟨encoding, h_string, h₂⟩ := bind_eq_ok_iff.mp h₁
      rw [getString_eq_ok_iff.mp h_string] at h_encoding
      split at h₂
      · next h_base64 =>
        rw [h_base64] at h_encoding
        obtain ⟨w, h_content, h₃⟩ := bind_eq_ok_iff.mp h₂
        obtain ⟨content, h_string', h₄⟩ := bind_eq_ok_iff.mp h₃
        rw [getString_eq_ok_iff.mp h_string'] at h_content
        split at h₄
        · cases h₄
        · next memory' h_memory =>
          obtain rfl := Except.ok.inj h₄
          exact ⟨value, content, h_parse, get_eq_ok_iff.mp h_encoding, get_eq_ok_iff.mp h_content, h_memory⟩
      · cases h₂
  · rintro ⟨value, content, h_parse, h_encoding, h_content, h_memory⟩
    rw [h_parse]
    simp only [get_eq_ok_iff.mpr h_encoding, get_eq_ok_iff.mpr h_content, ok_bind, Value.getString, if_true,
      h_memory]
    rfl

theorem handled_parseBlob_iff :
    Handled (parseBlob s) ↔ ∃ value, parse strtof s = .ok (some value) ∧ IsBlob value := by
  constructor
  · rintro ⟨memory, h⟩
    obtain ⟨value, content, h_parse, h_encoding, h_content, h_memory⟩ := parseBlob_eq_ok_iff.mp h
    exact ⟨value, h_parse, h_encoding, content, h_content, Base64.doit_isOk_iff.mp ⟨memory, h_memory⟩⟩
  · rintro ⟨value, h_parse, h_encoding, content, h_content, h_range⟩
    obtain ⟨memory, h_memory⟩ := Base64.doit_isOk_iff.mpr h_range
    exact ⟨memory, parseBlob_eq_ok_iff.mpr ⟨value, content, h_parse, h_encoding, h_content, h_memory⟩⟩

/-! ### Trees -/

theorem handled_toSize_iff {x : Binary32} : Handled (toSize x) ↔ IsSize x := by
  cases x with
  | finite y =>
    rw [toSize, IsSize]
    split
    · next h => exact iff_of_true ⟨_, rfl⟩ h
    · next h =>
      refine iff_of_false ?_ h
      rintro ⟨n, h_ok⟩
      cases h_ok
  | infinity negative =>
    refine iff_of_false ?_ id
    rintro ⟨n, h_ok⟩
    cases h_ok

/-- A size is asked for where there is a blob. -/
theorem handled_fileSize_iff : Handled (fileSize file type) ↔
    (type = str "blob" → ∃ x, HasMember file (str "size") (.number x) ∧ IsSize x) := by
  rw [fileSize]
  split
  · next h_blob =>
    rw [forall_prop_of_true h_blob]
    constructor
    · rintro ⟨n, h⟩
      obtain ⟨v, h_size, h⟩ := bind_eq_ok_iff.mp h
      obtain ⟨x, h_number, h⟩ := bind_eq_ok_iff.mp h
      obtain rfl := getNumber_eq_ok_iff.mp h_number
      exact ⟨x, get_eq_ok_iff.mp h_size, handled_toSize_iff.mp ⟨n, h⟩⟩
    · rintro ⟨x, h_size, h_fits⟩
      obtain ⟨n, h⟩ := handled_toSize_iff.mpr h_fits
      exact ⟨n, bind_eq_ok_iff.mpr ⟨_, get_eq_ok_iff.mpr h_size, h⟩⟩
  · next h_blob => exact iff_of_true ⟨0, rfl⟩ fun h => absurd h h_blob

theorem handled_fileType_iff :
    Handled (fileTypeStringToFileType type) ↔ type ∈ fileTypeMap.map Prod.fst := by
  have h_found : (fileTypeMap.lookup type).isSome ↔ type ∈ fileTypeMap.map Prod.fst := by
    rw [List.lookup_isSome_iff, List.mem_map]
    constructor
    · rintro ⟨entry, h_mem, h_eq⟩
      exact ⟨entry, h_mem, (beq_iff_eq.mp h_eq).symm⟩
    · rintro ⟨entry, h_mem, rfl⟩
      exact ⟨entry, h_mem, beq_self_eq_true _⟩
  rw [← h_found, Handled, fileTypeStringToFileType]
  cases h : fileTypeMap.lookup type with
  | none => exact iff_of_false (fun ⟨_, h_ok⟩ => by cases h_ok) Bool.false_ne_true
  | some fstype => exact iff_of_true ⟨fstype, rfl⟩ rfl

theorem handled_parseFile_iff : Handled (parseFile file) ↔ IsFile file := by
  constructor
  · rintro ⟨call, h⟩
    rw [parseFile] at h
    obtain ⟨v, h_type, h₁⟩ := bind_eq_ok_iff.mp h
    obtain ⟨type, h_type', h₂⟩ := bind_eq_ok_iff.mp h₁
    obtain ⟨n, h_size, h₃⟩ := bind_eq_ok_iff.mp h₂
    obtain ⟨fstype, h_fstype, h₄⟩ := bind_eq_ok_iff.mp h₃
    obtain ⟨v, h_path, h₅⟩ := bind_eq_ok_iff.mp h₄
    obtain ⟨path, h_path', h₆⟩ := bind_eq_ok_iff.mp h₅
    obtain ⟨v, h_mode, h₇⟩ := bind_eq_ok_iff.mp h₆
    obtain ⟨mode, h_mode', h₈⟩ := bind_eq_ok_iff.mp h₇
    obtain ⟨v, h_sha, h₉⟩ := bind_eq_ok_iff.mp h₈
    obtain ⟨sha, h_sha', h₁₀⟩ := bind_eq_ok_iff.mp h₉
    obtain ⟨v, h_url, h₁₁⟩ := bind_eq_ok_iff.mp h₁₀
    obtain ⟨url, h_url', -⟩ := bind_eq_ok_iff.mp h₁₁
    have h_member {key : Str} {v : Value Binary32} {s : Str} (h_get : file.get key = .ok v)
        (h_string : v.getString = .ok s) : HasMember file key (.string s) :=
      get_getString_iff.mp (bind_eq_ok_iff.mpr ⟨v, h_get, h_string⟩)
    refine ⟨type, h_member h_type h_type', handled_fileType_iff.mp ⟨fstype, h_fstype⟩,
      handled_fileSize_iff.mp ⟨n, h_size⟩, ?_⟩
    simp only [List.forall_mem_cons]
    exact ⟨⟨path, h_member h_path h_path'⟩, ⟨mode, h_member h_mode h_mode'⟩, ⟨sha, h_member h_sha h_sha'⟩,
      ⟨url, h_member h_url h_url'⟩, fun key h_key => absurd h_key List.not_mem_nil⟩
  · rintro ⟨type, h_type, h_known, h_blob, h_strings⟩
    simp only [List.forall_mem_cons] at h_strings
    obtain ⟨⟨path, h_path⟩, ⟨mode, h_mode⟩, ⟨sha, h_sha⟩, ⟨url, h_url⟩, -⟩ := h_strings
    obtain ⟨n, h_size⟩ := handled_fileSize_iff.mpr h_blob
    obtain ⟨fstype, h_fstype⟩ := handled_fileType_iff.mpr h_known
    refine ⟨⟨path, toInt (strtol mode 8), fstype, sha, toInt n, url⟩, ?_⟩
    rw [parseFile]
    simp only [get_eq_ok_iff.mpr h_type, get_eq_ok_iff.mpr h_path, get_eq_ok_iff.mpr h_mode,
      get_eq_ok_iff.mpr h_sha, get_eq_ok_iff.mpr h_url, ok_bind, Value.getString, h_size, h_fstype]
    rfl

theorem handled_parseTrees_iff :
    Handled (parseTrees s) ↔ ∃ value, parse strtof s = .ok (some value) ∧ IsTrees value := by
  rw [parseTrees]
  constructor
  · rintro ⟨r, h⟩
    split at h
    · cases h
    · cases h
    · next value h_parse =>
      obtain ⟨truncated, h_truncated, h₁⟩ := bind_eq_ok_iff.mp h
      refine ⟨value, h_parse, truncated, get_eq_ok_iff.mp h_truncated, fun h_whole => ?_⟩
      rw [if_neg (by rw [h_whole]; exact Bool.false_ne_true)] at h₁
      obtain ⟨v, h_tree, h₂⟩ := bind_eq_ok_iff.mp h₁
      obtain ⟨files, h_array, h₃⟩ := bind_eq_ok_iff.mp h₂
      obtain ⟨calls, h_calls, -⟩ := bind_eq_ok_iff.mp h₃
      rw [getArray_eq_ok_iff.mp h_array] at h_tree
      exact ⟨files, member_eq_ok_iff.mp h_tree,
        fun file h_file => handled_parseFile_iff.mp (exists_mapM_eq_ok_iff.mp ⟨calls, h_calls⟩ file h_file)⟩
  · rintro ⟨value, h_parse, truncated, h_truncated, h_whole⟩
    rw [h_parse]
    simp only [get_eq_ok_iff.mpr h_truncated, ok_bind]
    cases h_flag : truncated.isTrue with
    | true => exact ⟨_, rfl⟩
    | false =>
      obtain ⟨files, h_tree, h_files⟩ := h_whole h_flag
      obtain ⟨calls, h_calls⟩ := exists_mapM_eq_ok_iff.mpr fun file h_file =>
        handled_parseFile_iff.mpr (h_files file h_file)
      simp only [member_eq_ok_iff.mpr h_tree, ok_bind, Value.getArray, h_calls]
      exact ⟨_, rfl⟩

/-! ### All three -/

/-- **The answers that are handled**, by each of the three functions. -/
theorem handled_iff (s : Str) :
    (Handled (parseCommit s) ↔ ∃ value, parse strtof s = .ok (some value) ∧ IsCommit value) ∧
    (Handled (parseBlob s) ↔ ∃ value, parse strtof s = .ok (some value) ∧ IsBlob value) ∧
    (Handled (parseTrees s) ↔ ∃ value, parse strtof s = .ok (some value) ∧ IsTrees value) :=
  ⟨handled_parseCommit_iff, handled_parseBlob_iff, handled_parseTrees_iff⟩

/-- An error. -/
def notFound : Str :=
  str "\x7b\"message\": \"Not Found\"\x7d"

/-- **That there is nothing is not handled.** -/
theorem not_handled_notFound :
    ¬ Handled (parseCommit notFound) ∧ ¬ Handled (parseBlob notFound) ∧ ¬ Handled (parseTrees notFound) := by
  have h_commit : parseCommit notFound = .error .assertion := rfl
  have h_blob : parseBlob notFound = .error .assertion := rfl
  have h_trees : parseTrees notFound = .error .assertion := rfl
  rw [h_commit, h_blob, h_trees]
  exact ⟨fun ⟨_, h⟩ => (by cases h), fun ⟨_, h⟩ => (by cases h), fun ⟨_, h⟩ => (by cases h)⟩

end GitlstreeFS.Githubfs
