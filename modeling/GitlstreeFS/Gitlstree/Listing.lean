import GitlstreeFS.Container.Look
import GitlstreeFS.Gitlstree.Model
import GitlstreeFS.Numeral

/-!
# Listings are read

What `git ls-tree -l -r` prints for a list of entries (`IsLine`), and when `LoadDirectory` makes of it the
container that it should: `complete_iff`.
-/

namespace GitlstreeFS.Gitlstree

open DirectoryContainer

/-! ### Entries and lines -/

/-- An entry of a tree, with the components of its path. A submodule commit has no size. -/
structure Entry where
  path : List Str
  mode : ℕ
  sha : Str
  size : Option ℕ
  deriving DecidableEq

namespace Entry

/-- The file for an entry. -/
def element (e : Entry) : FileElement :=
  ⟨e.mode, e.sha, e.size.getD 0⟩

/-- What an entry is: its path can be printed as it is, its name is a hash, and its size is a number of 64
bits. -/
structure WellFormed (e : Entry) : Prop where
  isPath : IsPath e.path
  path : ∀ n ∈ e.path, tab ∉ n ∧ newline ∉ n
  sha_length : e.sha.length = 40
  sha : ∀ b ∈ e.sha, ∃ d ∈ digitValue b, d < 16
  size : ∀ n ∈ e.size, n < 0x8000000000000000

/-- The type that is printed. -/
def typeName (e : Entry) : Str :=
  match e.size with
  | some _ => str "blob"
  | none => str "commit"

end Entry

/-- A size as it is printed: a number of at most twenty digits, or a dash. -/
inductive IsSize : Option ℕ → Str → Prop
  | some {n : ℕ} {s : Str} (h : Numeral 10 s n) (h_ne : s ≠ []) (h_le : s.length ≤ 20) : IsSize (some n) s
  | none : IsSize none [0x2d]

/-- The line of an entry, without the newline: a mode of six octal digits, the type, the hash and the size,
which spaces fill up to seven columns. -/
inductive IsLine (e : Entry) : Str → Prop
  | mk {mode size : Str} (h_mode : Numeral 8 mode e.mode) (h_length : mode.length = 6)
      (h_size : IsSize e.size size) :
      IsLine e (mode ++ space :: (e.typeName ++ space :: (e.sha ++ space ::
        (List.replicate (7 - size.length) space ++ (size ++ tab :: (render e.path).tail)))))

/-- The lines as a text. -/
def text (lines : List Str) : Str :=
  (lines.map (· ++ [newline])).flatten

/-- The files that `LoadDirectory` adds for itself. -/
def own (hash : Str) : List (List Str × File) :=
  [([str ".status"], .status), ([str ".git", str "HEAD"], .head hash)]

/-- Their paths. -/
def ownPaths : List (List Str) :=
  [[str ".status"], [str ".git", str "HEAD"]]

/-- All files that should be there. -/
def files (entries : List Entry) (hash : Str) : List (List Str × File) :=
  (entries.map fun e => (e.path, File.element e.element)) ++ own hash

/-- The directory is loaded, and the container holds the files and nothing else. -/
def Complete (entries : List Entry) (hash : Str) (r : Except Fault (Bool × Container File)) : Prop :=
  ∃ c, r = .ok (true, c) ∧ Represents c (files entries hash)

/-! ### When it is complete -/

/-- Every line ends before `2 ^ 31 - 1`. (Behind the last the position may also be `npos`: then the empty
piece at the end is missed, and nothing else.) -/
def Ends : ℕ → List Str → Prop
  | _, [] => True
  | pos, line :: lines =>
    pos + line.length + 1 < 0x80000000 ∧ Ends (pos + line.length + 1) lines ∨
      lines = [] ∧ (pos + line.length + 1) % 0x100000000 = 0xffffffff

/-- What `LoadDirectory` can read. -/
structure Readable (entries : List Entry) (lines : List Str) : Prop where
  spaces : ∀ e ∈ entries, ∀ n ∈ e.path, space ∉ n
  sizes : ∀ e ∈ entries, ∀ n ∈ e.size, n < 0x80000000
  /-- No path is one of its own, above one of these or below one. -/
  own : ∀ e ∈ entries, ∀ o ∈ ownPaths, ¬ e.path <+: o ∧ ¬ o <+: e.path
  ends : Ends 0 lines

variable {e : Entry} {entries : List Entry} {line : Str} {lines : List Str} {pos : ℕ}
  {c c' : Container File}

/-! ### One line -/

theorem split_eq_ok_iff {s : Str} {b : UInt8} {compress : Bool} {l : List Str} :
    split s b compress = .ok l ↔ s = [] ∧ l = [] ∨ s ≠ [] ∧ Pieces b compress 0 s l := by
  rw [← splitStringUsing_eq_ok_iff, split]
  cases splitStringUsing s b compress with
  | error f => exact ⟨fun h => (by cases h), fun h => (by cases h)⟩
  | ok l' => exact ⟨fun h => congrArg Except.ok (Except.ok.inj h), fun h => congrArg Except.ok (Except.ok.inj h)⟩

theorem ok_bind {α β : Type} (a : α) (f : α → Except Fault β) : (Except.ok a >>= f) = f a :=
  rfl

/-- Spaces in a row leave no pieces. -/
theorem Pieces.replicate {r : Str} {l : List Str} (k : ℕ) (h : Pieces space true (pos + k) r l)
    (h_int : pos + k < 0x80000000) : Pieces space true pos (List.replicate k space ++ r) l := by
  induction k generalizing pos with
  | zero => exact h
  | succ k ih =>
    have h_rest : Pieces space true (pos + 1) (List.replicate k space ++ r) l :=
      ih (by rwa [Nat.add_right_comm, Nat.add_assoc pos k 1]) (by omega)
    exact .next (a := []) List.not_mem_nil (by simp; omega) h_rest

/-- A digit is neither a space nor a tab. -/
theorem notMem_of_digits {s : Str} {base : ℕ} (h : ∀ b ∈ s, ∃ d ∈ digitValue b, d < base) :
    space ∉ s ∧ tab ∉ s ∧ newline ∉ s := by
  have h_not {b : UInt8} (hb : digitValue b = none) : b ∉ s := by
    intro h_mem
    obtain ⟨d, h_d, -⟩ := h b h_mem
    rw [hb] at h_d
    cases h_d
  exact ⟨h_not rfl, h_not rfl, h_not rfl⟩

theorem digits_of_numeral {s : Str} {base n : ℕ} (h : Numeral base s n) :
    ∀ b ∈ s, ∃ d ∈ digitValue b, d < base := by
  intro b hb
  obtain ⟨d, hd, h_d⟩ := h.mem hb
  exact ⟨d, h_d, hd⟩

/-- A size is a short word. -/
theorem IsSize.word {o : Option ℕ} {s : Str} (h : IsSize o s) :
    (space ∉ s ∧ tab ∉ s ∧ newline ∉ s) ∧ s ≠ [] ∧ s.length ≤ 20 := by
  cases h with
  | some h h_ne h_le => exact ⟨notMem_of_digits (digits_of_numeral h), h_ne, h_le⟩
  | none => exact ⟨by decide, by decide, by decide⟩

/-- `atoi` reads it, and a dash as zero. -/
theorem IsSize.atoi_eq {o : Option ℕ} {s : Str} (h : IsSize o s) :
    atoi s = if Fits ((o.getD 0 : ℕ) : ℤ) then .ok ((o.getD 0 : ℕ) : ℤ) else .error .atoi := by
  have h_number : numberOf s 10 = (o.getD 0 : ℕ) := by
    cases h with
    | some h h_ne h_le => exact numberOf_self h h_ne
    | none => rfl
  rw [atoi, strtol, h_number]
  generalize ((o.getD 0 : ℕ) : ℤ) = n
  by_cases h_fits : Fits n
  · have h_eq : max (-0x8000000000000000) (min n 0x7fffffffffffffff) = n := by
      unfold Fits at h_fits
      omega
    rw [h_eq, if_pos h_fits]
  · -- it stays outside the range of `int` where it is cut
    have h_not : ¬ Fits (max (-0x8000000000000000) (min n 0x7fffffffffffffff)) := by
      unfold Fits at h_fits ⊢
      omega
    rw [if_neg h_fits, if_neg h_not]

/-- The path behind the slash. -/
theorem tail_render (h : IsPath e.path) :
    slash :: (render e.path).tail = render e.path ∧ (render e.path).tail.head? ≠ some slash := by
  obtain ⟨n, q, h_eq⟩ := List.exists_cons_of_ne_nil h.ne_nil
  have hn : IsName n := h.isName n (by rw [h_eq]; exact List.mem_cons_self)
  obtain ⟨b, n, rfl⟩ := List.exists_cons_of_ne_nil hn.1
  rw [h_eq]
  refine ⟨rfl, fun h_head => hn.2 ?_⟩
  obtain rfl : b = slash := Option.some.inj h_head
  exact List.mem_cons_self

/-- What is in a path. -/
theorem notMem_render {b : UInt8} {q : List Str} (hb : b ≠ slash) (h : ∀ n ∈ q, b ∉ n) :
    b ∉ render q := by
  intro h_mem
  obtain ⟨n, hn, h_mem⟩ := List.mem_flatMap.mp h_mem
  obtain rfl | h_mem := List.mem_cons.mp h_mem
  · exact hb rfl
  · exact h n hn h_mem

theorem notMem_tail {b : UInt8} {s : Str} (h : b ∉ s) : b ∉ s.tail :=
  fun h_mem => h (List.mem_of_mem_tail h_mem)

theorem typeName_word (e : Entry) : space ∉ e.typeName ∧ newline ∉ e.typeName ∧
    e.typeName.length ≤ 6 := by
  rw [Entry.typeName]
  split
  · exact ⟨by decide, by decide, by decide⟩
  · exact ⟨by decide, by decide, by decide⟩

/-- What the field before the path, the tab and the path come to. -/
theorem split_sizeAndPath {size path : Str} (h_size : tab ∉ size) (h_length : size.length ≤ 20)
    (h_path : tab ∉ path) : split (size ++ tab :: path) tab false = .ok [size, path] := by
  rw [split_eq_ok_iff]
  refine .inr ⟨by simp, ?_⟩
  have h_next : Pieces tab false 0 (size ++ tab :: path) (push false size [path]) :=
    .next h_size (by omega) (.last h_path)
  exact h_next

/-- **A line is read**, if there is no space in the path. -/
theorem parseLine_eq (h : e.WellFormed) (h_spaces : ∀ n ∈ e.path, space ∉ n)
    (h_line : IsLine e line) :
    parseLine line = if Fits (e.size.getD 0) then .ok (some (render e.path, e.element))
      else .error .atoi := by
  obtain ⟨h_mode, h_length, h_size⟩ := h_line
  rename_i mode size
  obtain ⟨⟨h_size_space, h_size_tab, -⟩, h_size_ne, h_size_length⟩ := h_size.word
  obtain ⟨h_type_space, -, h_type_length⟩ := typeName_word e
  have h_mode_space := (notMem_of_digits (digits_of_numeral h_mode)).1
  have h_sha_space := (notMem_of_digits h.sha).1
  have h_sha_length := h.sha_length
  obtain ⟨h_render, h_head⟩ := tail_render h.isPath
  have h_path_space : space ∉ (render e.path).tail :=
    notMem_tail (notMem_render (by decide) h_spaces)
  have h_path_tab : tab ∉ (render e.path).tail :=
    notMem_tail (notMem_render (by decide) fun n hn => (h.path n hn).1)
  -- the fields
  have h_last : space ∉ size ++ tab :: (render e.path).tail := by
    rw [List.mem_append, List.mem_cons, not_or, not_or]
    exact ⟨h_size_space, by decide, h_path_space⟩
  have h_pieces : Pieces space true 0 (mode ++ space :: (e.typeName ++ space :: (e.sha ++ space ::
      (List.replicate (7 - size.length) space ++ (size ++ tab :: (render e.path).tail)))))
      (push true mode (push true e.typeName (push true e.sha [size ++ tab :: (render e.path).tail]))) :=
    .next h_mode_space (by omega) (.next h_type_space (by omega) (.next h_sha_space (by omega)
      (Pieces.replicate (7 - size.length) (.last h_last) (by omega))))
  have h_push {a : Str} {l : List Str} (h_ne : a ≠ []) : push true a l = a :: l :=
    if_neg fun h_nil => h_ne h_nil.2
  have h_mode_ne : mode ≠ [] := by
    rintro rfl
    cases h_length
  have h_type_ne : e.typeName ≠ [] := by
    rw [Entry.typeName]
    split
    · decide
    · decide
  have h_sha_ne : e.sha ≠ [] := by
    intro h_nil
    rw [h_nil] at h_sha_length
    cases h_sha_length
  rw [h_push h_sha_ne, h_push h_type_ne, h_push h_mode_ne] at h_pieces
  have h_split := split_eq_ok_iff.mpr (.inr ⟨by simp, h_pieces⟩)
  -- what they come to
  have h_mode_lt : e.mode < 8 ^ 6 := by
    rw [← h_length]
    exact h_mode.lt_pow
  have h_toInt : toInt (strtol mode 8) = e.mode := by
    rw [strtol_self h_mode h_mode_ne (by omega), toInt_of_lt (by omega)]
  rw [parseLine, h_split, ok_bind, parseElements, split_sizeAndPath h_size_tab h_size_length h_path_tab,
    ok_bind]
  change (atoi size >>= _) = _
  rw [h_size.atoi_eq]
  by_cases h_fits : Fits ((e.size.getD 0 : ℕ) : ℤ)
  · rw [if_pos h_fits, if_pos h_fits, ok_bind, if_neg h_head, h_render, h_toInt]
    rfl
  · rw [if_neg h_fits, if_neg h_fits]
    rfl

/-- What is added has no space in its path. -/
theorem space_notMem {path : Str} {f : FileElement} (h : parseLine line = .ok (some (path, f))) :
    space ∉ path := by
  rw [parseLine] at h
  cases h_split : split line space true with
  | error f =>
    rw [h_split] at h
    cases h
  | ok elements =>
    rw [h_split, ok_bind] at h
    -- the line is split at its spaces, so no field has one
    have h_fields : ∀ x ∈ elements, space ∉ x := by
      obtain ⟨-, rfl⟩ | ⟨-, h_pieces⟩ := split_eq_ok_iff.mp h_split
      · exact fun x hx => absurd hx List.not_mem_nil
      · exact h_pieces.notMem
    rw [parseElements.eq_def] at h
    split at h
    · next mode type sha1 sizeAndPath =>
      have h_space : space ∉ sizeAndPath := h_fields _ (by simp)
      cases h_tab : split sizeAndPath tab false with
      | error f =>
        rw [h_tab] at h
        cases h
      | ok pieces =>
        rw [h_tab, ok_bind] at h
        -- and the pieces of a field have none either
        have h_parts : ∀ x ∈ pieces, space ∉ x := by
          obtain ⟨-, rfl⟩ | ⟨-, h_pieces⟩ := split_eq_ok_iff.mp h_tab
          · exact fun x hx => absurd hx List.not_mem_nil
          · exact fun x hx h_mem => h_space (h_pieces.subset x hx h_mem)
        split at h
        · next size filePath =>
          cases h_size : atoi size with
          | error f =>
            rw [h_size] at h
            cases h
          | ok n =>
            rw [h_size, ok_bind] at h
            split at h
            · cases h
            · obtain ⟨rfl, -⟩ := Prod.mk.inj (Option.some.inj (Except.ok.inj h))
              rw [List.mem_cons, not_or]
              exact ⟨by decide, h_parts filePath (by simp)⟩
        · cases h
    · cases h

/-! ### All lines -/

theorem text_cons (line : Str) (lines : List Str) :
    text (line :: lines) = line ++ newline :: text lines := by
  rw [text, List.map_cons, List.flatten_cons, List.append_assoc, List.singleton_append]
  rfl

/-- Behind the lines there are at most empty pieces. -/
def Blank (rest : List Str) : Prop :=
  ∀ x ∈ rest, x = []

/-- The first `k` lines are read: those that end before `2 ^ 31`, and the first that does not, if the
position behind it is `npos`. -/
def Reads : ℕ → List Str → ℕ → Prop
  | _, [], k => k = 0
  | pos, line :: lines, k =>
    (pos + line.length + 1 < 0x80000000 ∧ ∃ n, k = n + 1 ∧ Reads (pos + line.length + 1) lines n) ∨
      (k = 1 ∧ (pos + line.length + 1) % 0x100000000 = 0xffffffff)

/-- The lines that are read are the pieces of the text. -/
theorem exists_pieces_of_reads {k : ℕ} (h : Reads pos lines k)
    (h_lines : ∀ line ∈ lines, newline ∉ line ∧ line ≠ []) :
    ∃ rest, Blank rest ∧ Pieces newline true pos (text lines) (lines.take k ++ rest) := by
  induction lines generalizing pos k with
  | nil =>
    refine ⟨[[]], fun x hx => List.mem_singleton.mp hx, ?_⟩
    rw [List.take_nil]
    exact .last List.not_mem_nil
  | cons line lines ih =>
    obtain ⟨h_newline, h_ne⟩ := h_lines line List.mem_cons_self
    have h_push (l : List Str) : push true line l = line :: l := if_neg fun h_nil => h_ne h_nil.2
    rw [text_cons]
    obtain ⟨h_int, n, rfl, h_reads⟩ | ⟨rfl, h_npos⟩ := h
    · obtain ⟨rest, h_blank, h_pieces⟩ :=
        ih h_reads fun line hl => h_lines line (List.mem_cons_of_mem _ hl)
      refine ⟨rest, h_blank, ?_⟩
      rw [List.take_succ_cons, List.cons_append, ← h_push]
      exact .next h_newline h_int h_pieces
    · refine ⟨[], fun x hx => absurd hx List.not_mem_nil, ?_⟩
      rw [List.take_succ_cons, List.take_zero, List.append_nil, ← h_push]
      exact .npos h_newline rfl h_npos

/-- And there are no other pieces. -/
theorem reads_of_pieces {l : List Str} (h : Pieces newline true pos (text lines) l)
    (h_lines : ∀ line ∈ lines, newline ∉ line ∧ line ≠ []) :
    ∃ k rest, Reads pos lines k ∧ Blank rest ∧ l = lines.take k ++ rest := by
  induction lines generalizing pos l with
  | nil =>
    refine ⟨0, [[]], rfl, fun x hx => List.mem_singleton.mp hx, ?_⟩
    exact h.cases_last List.not_mem_nil
  | cons line lines ih =>
    obtain ⟨h_newline, h_ne⟩ := h_lines line List.mem_cons_self
    have h_push (l : List Str) : push true line l = line :: l := if_neg fun h_nil => h_ne h_nil.2
    rw [text_cons] at h
    obtain ⟨h_int, l, rfl, h_pieces⟩ | ⟨-, h_npos, rfl⟩ := h.cases_append h_newline
    · rw [h_push]
      obtain ⟨k, rest, h_reads, h_blank, rfl⟩ :=
        ih h_pieces fun line hl => h_lines line (List.mem_cons_of_mem _ hl)
      exact ⟨k + 1, rest, .inl ⟨h_int, k, rfl, h_reads⟩, h_blank, rfl⟩
    · rw [h_push]
      exact ⟨1, [], .inr ⟨rfl, h_npos⟩, fun x hx => absurd hx List.not_mem_nil, rfl⟩

/-- Where every line ends before `2 ^ 31`, all are read. -/
theorem Ends.reads (h : Ends pos lines) : Reads pos lines lines.length := by
  induction lines generalizing pos with
  | nil => exact rfl
  | cons line lines ih =>
    obtain ⟨h_int, h_ends⟩ | ⟨rfl, h_npos⟩ := h
    · exact .inl ⟨h_int, _, rfl, ih h_ends⟩
    · exact .inr ⟨rfl, h_npos⟩

/-- Where all are read, every line does. -/
theorem Reads.ends {k : ℕ} (h : Reads pos lines k) (h_length : lines.length ≤ k) : Ends pos lines := by
  induction lines generalizing pos k with
  | nil => trivial
  | cons line lines ih =>
    obtain ⟨h_int, n, rfl, h_reads⟩ | ⟨rfl, h_npos⟩ := h
    · exact .inl ⟨h_int, ih h_reads (Nat.le_of_succ_le_succ h_length)⟩
    · exact .inr ⟨List.length_eq_zero_iff.mp (Nat.le_zero.mp (Nat.le_of_succ_le_succ h_length)), h_npos⟩

/-- A line is not empty, and there is no newline in it. -/
theorem IsLine.newline_notMem (h : e.WellFormed) (h_line : IsLine e line) :
    newline ∉ line ∧ line ≠ [] := by
  obtain ⟨h_mode, h_length, h_size⟩ := h_line
  have h_path : newline ∉ (render e.path).tail :=
    notMem_tail (notMem_render (by decide) fun n hn => (h.path n hn).2)
  have h_space : newline ≠ space := by decide
  have h_tab : newline ≠ tab := by decide
  refine ⟨?_, by simp⟩
  simp only [List.mem_append, List.mem_cons, List.mem_replicate, not_or, h_space, h_tab, not_false_iff,
    and_false, true_and, h_path, and_true]
  exact ⟨(notMem_of_digits (digits_of_numeral h_mode)).2.2, (typeName_word e).2.1,
    (notMem_of_digits h.sha).2.2, h_size.word.1.2.2⟩

/-! ### The loop -/

theorem addFile_eq_ok_iff {path : Str} {f : File} :
    addFile c path f = .ok c' ↔ c.add path (.file f) = .ok c' := by
  rw [addFile]
  cases c.add path (.file f) with
  | error e => exact ⟨fun h => (by cases h), fun h => (by cases h)⟩
  | ok c₁ => exact ⟨fun h => congrArg Except.ok (Except.ok.inj h),
      fun h => congrArg Except.ok (Except.ok.inj h)⟩

/-- The call of `add` for an entry. -/
def Entry.add (e : Entry) : List Str × NewFile File :=
  (e.path, .file (.element e.element))

theorem addLines_blank {rest : List Str} (h : Blank rest) : addLines c rest = .ok c := by
  induction rest with
  | nil => rfl
  | cons x rest ih =>
    obtain rfl : x = [] := h x List.mem_cons_self
    exact ih fun x hx => h x (List.mem_cons_of_mem _ hx)

/-- **The loop adds the entries**, if there is no space in a path. -/
theorem addLines_ok_iff {rest : List Str} (h_blank : Blank rest)
    (h_lines : List.Forall₂ IsLine entries lines) (h : ∀ e ∈ entries, e.WellFormed)
    (h_spaces : ∀ e ∈ entries, ∀ n ∈ e.path, space ∉ n) :
    addLines c (lines ++ rest) = .ok c' ↔
      (∀ e ∈ entries, Fits (e.size.getD 0)) ∧ c.addAll (entries.map Entry.add) = .ok c' := by
  induction h_lines generalizing c with
  | nil =>
    rw [List.nil_append, addLines_blank h_blank, List.map_nil, Container.addAll]
    exact ⟨fun h_eq => ⟨fun e he => absurd he List.not_mem_nil,
      congrArg Except.ok (Except.ok.inj h_eq)⟩, fun h_eq => congrArg Except.ok (Except.ok.inj h_eq.2)⟩
  | @cons e line entries lines h_line _ ih =>
    have h_e := List.mem_cons_self (a := e) (l := entries)
    have h_ih {c : Container File} := ih (c := c) (fun e he => h e (List.mem_cons_of_mem _ he))
      (fun e he => h_spaces e (List.mem_cons_of_mem _ he))
    rw [List.cons_append, addLines, parseLine_eq (h e h_e) (h_spaces e h_e) h_line, List.map_cons,
      List.forall_mem_cons]
    by_cases h_fits : Fits ((e.size.getD 0 : ℕ) : ℤ)
    · rw [if_pos h_fits, ok_bind, Container.addAll]
      change (addFile c (render e.path) (.element e.element) >>= fun c => addLines c (lines ++ rest)) = _ ↔ _
      rw [addFile, Entry.add]
      cases c.add (render e.path) (.file (.element e.element)) with
      | error m => exact ⟨fun h_eq => (by cases h_eq), fun h_eq => (by cases h_eq.2)⟩
      | ok c₁ =>
        change addLines c₁ (lines ++ rest) = _ ↔ _
        rw [h_ih]
        exact ⟨fun h_all => ⟨⟨h_fits, h_all.1⟩, h_all.2⟩, fun h_all => ⟨h_all.1.2, h_all.2⟩⟩
    · rw [if_neg h_fits]
      exact ⟨fun h_eq => (by cases h_eq), fun h_all => absurd h_all.1.1 h_fits⟩

theorem space_notMem_dirName (s : Str) (h : space ∉ s) : space ∉ dirName s := by
  rw [dirName]
  split
  · exact List.not_mem_nil
  · exact fun h_mem => h (List.mem_of_mem_take h_mem)

/-- **No space gets into a key.** -/
theorem keys_addLines (h : Keys (space ∉ ·) c) (h_add : addLines c lines = .ok c') :
    Keys (space ∉ ·) c' := by
  induction lines generalizing c with
  | nil =>
    obtain rfl := Except.ok.inj h_add
    exact h
  | cons line lines ih =>
    rw [addLines, bind_eq_ok_iff] at h_add
    obtain ⟨found, h_parse, h_add⟩ := h_add
    cases found with
    | none => exact ih h h_add
    | some found =>
      obtain ⟨path, f⟩ := found
      obtain ⟨c₁, h_file, h_add⟩ := bind_eq_ok_iff.mp h_add
      exact ih (h.add space_notMem_dirName (space_notMem h_parse) (addFile_eq_ok_iff.mp h_file)) h_add

/-! ### `LoadDirectory` -/

/-- What the two commands print. -/
structure Prints (runGitCommand : List Str → Str × ℤ) (ref hash : Str) (lines : List Str) : Prop where
  revParse : runGitCommand [str "git", str "rev-parse", ref] = (hash ++ [newline], 0)
  lsTree : runGitCommand [str "git", str "ls-tree", str "-l", str "-r", hash] = (text lines, 0)

variable {runGitCommand : List Str → Str × ℤ} {ref hash : Str}

/-- The calls of `add` behind the loop. -/
def ownAdds (hash : Str) : List (List Str × NewFile File) :=
  (own hash).map fun o => (o.1, .file o.2)

theorem loadDirectory_eq_ok_iff (h : Prints runGitCommand ref hash lines) {b : Bool} :
    loadDirectory runGitCommand ref c = .ok (b, c') ↔ b = true ∧ ∃ pieces c₁,
      split (text lines) newline true = .ok pieces ∧ addLines c pieces = .ok c₁ ∧
        c₁.addAll (ownAdds hash) = .ok c' := by
  -- the two files that are added at the end
  have h_own (c₁ : Container File) : (addFile c₁ (str "/.status") .status >>= fun c₂ =>
      addFile c₂ (str "/.git/HEAD") (.head hash) >>= fun c₃ => pure (true, c₃)) = .ok (b, c') ↔
        b = true ∧ c₁.addAll (ownAdds hash) = .ok c' := by
    have h_status : render [str ".status"] = str "/.status" := by decide
    have h_head : render [str ".git", str "HEAD"] = str "/.git/HEAD" := by decide
    rw [ownAdds, own, List.map_cons, List.map_cons, List.map_nil, Container.addAll, h_status, addFile]
    cases c₁.add (str "/.status") (.file .status) with
    | error m => exact ⟨fun h_eq => (by cases h_eq), fun h_eq => (by cases h_eq.2)⟩
    | ok c₂ =>
      dsimp only
      rw [Container.addAll, h_head]
      change (addFile c₂ (str "/.git/HEAD") (.head hash) >>= _) = _ ↔ _
      rw [addFile]
      cases c₂.add (str "/.git/HEAD") (.file (.head hash)) with
      | error m => exact ⟨fun h_eq => (by cases h_eq), fun h_eq => (by cases h_eq.2)⟩
      | ok c₃ =>
        constructor
        · intro h_eq
          obtain ⟨rfl, rfl⟩ := Prod.mk.inj (Except.ok.inj h_eq)
          exact ⟨rfl, rfl⟩
        · rintro ⟨rfl, h_eq⟩
          obtain rfl := Except.ok.inj h_eq
          rfl
  rw [loadDirectory, h.revParse]
  dsimp only
  rw [if_neg (by simp), if_neg (by decide), List.dropLast_concat, h.lsTree]
  dsimp only
  rw [if_neg (by decide), bind_eq_ok_iff]
  constructor
  · rintro ⟨pieces, h_split, h_rest⟩
    obtain ⟨c₁, h_add, h_rest⟩ := bind_eq_ok_iff.mp h_rest
    obtain ⟨rfl, h_last⟩ := (h_own c₁).mp h_rest
    exact ⟨rfl, pieces, c₁, h_split, h_add, h_last⟩
  · rintro ⟨rfl, pieces, c₁, h_split, h_add, h_last⟩
    exact ⟨pieces, h_split, bind_eq_ok_iff.mpr ⟨c₁, h_add, (h_own c₁).mpr ⟨rfl, h_last⟩⟩⟩

theorem adds_eq (entries : List Entry) (hash : Str) :
    (files entries hash).map (fun o => (o.1, NewFile.file o.2))
      = entries.map Entry.add ++ ownAdds hash := by
  rw [files, List.map_append, List.map_map]
  rfl

theorem own_isPath (hash : Str) : ∀ o ∈ own hash, IsPath o.1 := by
  intro o ho
  obtain rfl | rfl : o = _ ∨ o = _ := by simpa [own] using ho
  · exact (by decide : IsPath [str ".status"])
  · exact (by decide : IsPath [str ".git", str "HEAD"])

theorem files_isPath (h : ∀ e ∈ entries, e.WellFormed) : ∀ x ∈ files entries hash, IsPath x.1 := by
  intro x hx
  obtain hx | hx := List.mem_append.mp hx
  · obtain ⟨e, he, rfl⟩ := List.mem_map.mp hx
    exact (h e he).isPath
  · exact own_isPath hash x hx

theorem adds_isPath (h : ∀ e ∈ entries, e.WellFormed) (hash : Str) :
    ∀ x ∈ entries.map Entry.add ++ ownAdds hash, IsPath x.1 := by
  intro x hx
  obtain hx | hx := List.mem_append.mp hx
  · obtain ⟨e, he, rfl⟩ := List.mem_map.mp hx
    exact (h e he).isPath
  · obtain ⟨o, ho, rfl⟩ := List.mem_map.mp hx
    exact own_isPath hash o ho

/-- There are files at its own paths, and they are no elements. -/
theorem exists_own {o : List Str} (h : o ∈ ownPaths) (hash : Str) :
    ∃ f, (o, f) ∈ own hash ∧ ∀ e, f ≠ .element e := by
  obtain rfl | rfl : o = _ ∨ o = _ := by simpa [ownPaths] using h
  · exact ⟨.status, .head _, fun e h_eq => by cases h_eq⟩
  · exact ⟨.head hash, .tail _ (.head _), fun e h_eq => by cases h_eq⟩

theorem mem_ownPaths {x : List Str × File} (h : x ∈ own hash) :
    x.1 ∈ ownPaths ∧ ∀ e, x.2 ≠ .element e := by
  obtain rfl | rfl : x = _ ∨ x = _ := by simpa [own] using h
  · exact ⟨.head _, fun e h_eq => by cases h_eq⟩
  · exact ⟨.tail _ (.head _), fun e h_eq => by cases h_eq⟩

/-- With these conditions no path lies below another. -/
theorem prefixFree_files (h_free : PrefixFree (entries.map fun e => (e.path, File.element e.element)))
    (h_own : ∀ e ∈ entries, ∀ o ∈ ownPaths, ¬ e.path <+: o ∧ ¬ o <+: e.path) (hash : Str) :
    PrefixFree (files entries hash) := by
  have h_apart : ¬ [str ".status"] <+: [str ".git", str "HEAD"] ∧
      ¬ [str ".git", str "HEAD"] <+: [str ".status"] := by
    decide
  refine List.pairwise_append.mpr ⟨h_free, List.pairwise_pair.mpr h_apart, ?_⟩
  intro x hx o ho
  obtain ⟨e, he, rfl⟩ := List.mem_map.mp hx
  exact h_own e he _ (mem_ownPaths ho).1

theorem newline_notMem_lines (h_lines : List.Forall₂ IsLine entries lines)
    (h : ∀ e ∈ entries, e.WellFormed) : ∀ line ∈ lines, newline ∉ line ∧ line ≠ [] := by
  induction h_lines with
  | nil => exact fun line h_line => absurd h_line List.not_mem_nil
  | cons h_line _ ih =>
    rw [List.forall_mem_cons]
    exact ⟨IsLine.newline_notMem (h _ List.mem_cons_self) h_line,
      ih fun e he => h e (List.mem_cons_of_mem _ he)⟩

/-- The pieces of what is printed. -/
theorem split_text {l : List Str} :
    split (text lines) newline true = .ok l ↔ lines = [] ∧ l = [] ∨
      lines ≠ [] ∧ Pieces newline true 0 (text lines) l := by
  have h_nil : text lines = [] ↔ lines = [] := by
    cases lines with
    | nil => exact iff_of_true rfl rfl
    | cons line lines =>
      rw [text_cons]
      simp
  rw [split_eq_ok_iff, ne_eq, h_nil]

/-- The lines that are read are the pieces of what is printed, and behind them there are empty ones. -/
theorem split_text_of_reads {k : ℕ} (h_lines : ∀ line ∈ lines, newline ∉ line ∧ line ≠ [])
    (h : Reads 0 lines k) :
    ∃ rest, Blank rest ∧ split (text lines) newline true = .ok (lines.take k ++ rest) := by
  by_cases h_nil : lines = []
  · refine ⟨[], fun x hx => absurd hx List.not_mem_nil, split_text.mpr (.inl ⟨h_nil, ?_⟩)⟩
    rw [h_nil, List.take_nil, List.append_nil]
  · obtain ⟨rest, h_blank, h_pieces⟩ := exists_pieces_of_reads h h_lines
    exact ⟨rest, h_blank, split_text.mpr (.inr ⟨h_nil, h_pieces⟩)⟩

theorem reads_of_split {l : List Str} (h_lines : ∀ line ∈ lines, newline ∉ line ∧ line ≠ [])
    (h : split (text lines) newline true = .ok l) :
    ∃ k rest, Reads 0 lines k ∧ Blank rest ∧ l = lines.take k ++ rest := by
  obtain ⟨rfl, rfl⟩ | ⟨-, h_pieces⟩ := split_text.mp h
  · exact ⟨0, [], rfl, fun x hx => absurd hx List.not_mem_nil, rfl⟩
  · exact reads_of_pieces h_pieces h_lines

/-- **What is loaded** are the entries whose lines are read, and the two files. -/
theorem loadDirectory_eq_ok_iff_reads (h : Prints runGitCommand ref hash lines)
    (h_lines : List.Forall₂ IsLine entries lines) (h_wf : ∀ e ∈ entries, e.WellFormed)
    (h_spaces : ∀ e ∈ entries, ∀ n ∈ e.path, space ∉ n) {b : Bool} :
    loadDirectory runGitCommand ref c = .ok (b, c') ↔ b = true ∧ ∃ k, Reads 0 lines k ∧
      (∀ e ∈ entries.take k, Fits (e.size.getD 0)) ∧
        c.addAll ((entries.take k).map Entry.add ++ ownAdds hash) = .ok c' := by
  have h_newline := newline_notMem_lines h_lines h_wf
  have h_loop {k : ℕ} {rest : List Str} (h_blank : Blank rest) {c₁ : Container File} :
      addLines c (lines.take k ++ rest) = .ok c₁ ↔ (∀ e ∈ entries.take k, Fits (e.size.getD 0)) ∧
        c.addAll ((entries.take k).map Entry.add) = .ok c₁ :=
    addLines_ok_iff h_blank (List.forall₂_take k h_lines)
      (fun e he => h_wf e (List.mem_of_mem_take he)) (fun e he => h_spaces e (List.mem_of_mem_take he))
  rw [loadDirectory_eq_ok_iff h]
  refine and_congr_right fun _ => ⟨?_, ?_⟩
  · rintro ⟨pieces, c₁, h_split, h_add, h_own⟩
    obtain ⟨k, rest, h_reads, h_blank, rfl⟩ := reads_of_split h_newline h_split
    obtain ⟨h_sizes, h_first⟩ := (h_loop h_blank).mp h_add
    exact ⟨k, h_reads, h_sizes, Container.addAll_append_eq_ok_iff.mpr ⟨c₁, h_first, h_own⟩⟩
  · rintro ⟨k, h_reads, h_sizes, h_add⟩
    obtain ⟨rest, h_blank, h_split⟩ := split_text_of_reads h_newline h_reads
    obtain ⟨c₁, h_first, h_own⟩ := Container.addAll_append_eq_ok_iff.mp h_add
    exact ⟨_, c₁, h_split, (h_loop h_blank).mpr ⟨h_sizes, h_first⟩, h_own⟩

/-- **What can be read is loaded.** -/
theorem complete_of_readable (h : Prints runGitCommand ref hash lines)
    (h_lines : List.Forall₂ IsLine entries lines) (h_wf : ∀ e ∈ entries, e.WellFormed)
    (h_free : PrefixFree (entries.map fun e => (e.path, File.element e.element)))
    (h_read : Readable entries lines) :
    Complete entries hash (loadDirectory runGitCommand ref Container.empty) := by
  have h_sizes : ∀ e ∈ entries, Fits (e.size.getD 0) := by
    intro e he
    cases h_size : e.size with
    | none => exact (by decide : Fits 0)
    | some n =>
      have h_lt := h_read.sizes e he n h_size
      exact ⟨by rw [Option.getD_some]; omega, by rw [Option.getD_some]; omega⟩
  -- the entries come first, and then the two files
  obtain ⟨c, h_add, h_c⟩ := represents_addAll (files_isPath h_wf)
    (prefixFree_files h_free h_read.own hash)
  rw [adds_eq, ← List.take_length (l := entries)] at h_add
  rw [h_lines.length_eq] at h_add
  refine ⟨c, (loadDirectory_eq_ok_iff_reads h h_lines h_wf h_read.spaces).mpr ⟨rfl, _, h_read.ends.reads,
    fun e he => h_sizes e (List.mem_of_mem_take he), h_add⟩, h_c⟩

/-- **What is loaded completely could be read.** -/
theorem readable_of_complete (h : Prints runGitCommand ref hash lines)
    (h_lines : List.Forall₂ IsLine entries lines) (h_wf : ∀ e ∈ entries, e.WellFormed)
    (h_free : PrefixFree (entries.map fun e => (e.path, File.element e.element)))
    (h_complete : Complete entries hash (loadDirectory runGitCommand ref Container.empty)) :
    Readable entries lines := by
  obtain ⟨c, h_load, h_c⟩ := h_complete
  obtain ⟨-, pieces, c₁, h_split, h_loop, h_own⟩ := (loadDirectory_eq_ok_iff h).mp h_load
  have h_mem {e : Entry} (he : e ∈ entries) : (e.path, File.element e.element) ∈ files entries hash :=
    List.mem_append_left _ (List.mem_map.mpr ⟨e, he, rfl⟩)
  -- a path with a space would be a key
  have h_keys : Keys (space ∉ ·) c := by
    have h_c₁ := keys_addLines (keys_empty (by decide)) h_loop
    refine h_c₁.addAll space_notMem_dirName (fun e he => ?_) h_own
    obtain ⟨o, ho, rfl⟩ := List.mem_map.mp he
    have h_all : ∀ p ∈ ownPaths, space ∉ render p := by decide
    exact h_all _ (mem_ownPaths ho).1
  have h_spaces : ∀ e ∈ entries, ∀ n ∈ e.path, space ∉ n := by
    intro e he n hn h_space
    refine h_keys (render e.path) ?_ (List.mem_flatMap.mpr ⟨n, hn, List.mem_cons_of_mem _ h_space⟩)
    exact (h_c.keys _).mpr (.inr ⟨e.path, rfl, .inl ⟨_, h_mem he, rfl⟩⟩)
  -- the file at a path of its own would be an element
  have h_apart : ∀ e ∈ entries, ∀ o ∈ ownPaths, ¬ e.path <+: o ∧ ¬ o <+: e.path := by
    intro e he o ho
    obtain ⟨f, h_f, h_ne⟩ := exists_own ho hash
    have h_f := List.mem_append_right (entries.map fun e => (e.path, File.element e.element)) h_f
    constructor
    · intro h_pre
      exact h_ne _ (h_c.incomparable (h_mem he) h_f h_pre (h_wf e he).isPath.ne_nil).2.symm
    · intro h_pre
      have h_o : o ≠ [] := by
        rintro rfl
        exact absurd ho (by decide)
      exact h_ne _ (h_c.incomparable h_f (h_mem he) h_pre h_o).2
  obtain ⟨-, k, h_reads, h_sizes, h_add⟩ :=
    (loadDirectory_eq_ok_iff_reads h h_lines h_wf h_spaces).mp h_load
  by_cases h_length : entries.length ≤ k
  · rw [List.take_of_length_le h_length] at h_sizes
    rw [h_lines.length_eq] at h_length
    refine ⟨h_spaces, fun e he n hn => ?_, h_apart, h_reads.ends h_length⟩
    have h_fits := (h_sizes e he).2
    have h_size : e.size = some n := hn
    rw [h_size, Option.getD_some] at h_fits
    omega
  · -- the entries whose lines are missing are missing
    have h_take : ∀ e ∈ entries.take k, e ∈ entries := fun e he => List.mem_of_mem_take he
    obtain ⟨e, h_drop⟩ : ∃ e, e ∈ entries.drop k := by
      refine List.exists_mem_of_ne_nil _ ?_
      rw [ne_eq, List.drop_eq_nil_iff]
      omega
    have he : e ∈ entries := List.mem_of_mem_drop h_drop
    have h_paths := adds_isPath (fun e he => h_wf e (h_take e he)) hash
    have h_added := mem_of_look h_paths h_add (h_wf e he).isPath (h_c.look (h_mem he))
    obtain h_added | h_added := List.mem_append.mp h_added
    · obtain ⟨e', he', h_eq⟩ := List.mem_map.mp h_added
      obtain ⟨h_path, -⟩ := Prod.mk.inj h_eq
      rw [← List.take_append_drop k entries, List.map_append] at h_free
      have h_pair := (List.pairwise_append.mp h_free).2.2 _ (List.mem_map.mpr ⟨e', he', rfl⟩) _
        (List.mem_map.mpr ⟨e, h_drop, rfl⟩)
      exact absurd (h_path ▸ List.prefix_refl _) h_pair.1
    · obtain ⟨o, ho, h_eq⟩ := List.mem_map.mp h_added
      obtain ⟨-, h_file⟩ := Prod.mk.inj h_eq
      exact absurd (NewFile.file.inj h_file) ((mem_ownPaths ho).2 _)

/-- **When the listing is read completely.** -/
theorem complete_iff (runGitCommand : List Str → Str × ℤ) (ref hash : Str) (entries : List Entry)
    (lines : List Str) (h : Prints runGitCommand ref hash lines)
    (h_lines : List.Forall₂ IsLine entries lines) (h_wf : ∀ e ∈ entries, e.WellFormed)
    (h_free : PrefixFree (entries.map fun e => (e.path, File.element e.element))) :
    Complete entries hash (loadDirectory runGitCommand ref Container.empty) ↔ Readable entries lines :=
  ⟨readable_of_complete h h_lines h_wf h_free, complete_of_readable h h_lines h_wf h_free⟩

/-! ### A tree with subdirectories -/

/-- A file, one that can be executed in a directory, and a symlink further down. -/
def nestedEntries : List Entry :=
  [⟨[str "README"], 0x81a4, str "f313668af32ea3447a594ae1e7d8ac9841fbae7b", some 5⟩,
    ⟨[str "lib", str "run"], 0x81ed, str "8ab686eafeb1f44702738c8b0f24f2567c36da6d", some 12⟩,
    ⟨[str "lib", str "src", str "link"], 0xa000, str "19102815663d23f8b75a47e7a01965dcdc96468c", some 3⟩]

/-- Their lines. -/
def nestedLines : List Str :=
  [str "100644 blob f313668af32ea3447a594ae1e7d8ac9841fbae7b       5\tREADME",
    str "100755 blob 8ab686eafeb1f44702738c8b0f24f2567c36da6d      12\tlib/run",
    str "120000 blob 19102815663d23f8b75a47e7a01965dcdc96468c       3\tlib/src/link"]

/-- A repository with this tree. -/
def printsNested (command : List Str) : Str × ℤ :=
  if command = [str "git", str "rev-parse", str "HEAD"] then (str "5c7b\n", 0)
  else (text nestedLines, 0)

theorem printsNested_prints : Prints printsNested (str "HEAD") (str "5c7b") nestedLines :=
  ⟨if_pos rfl, if_neg (by decide)⟩

/-- A line with a mode and a size as they stand there. -/
theorem isLine_of_eq (mode size : Str) {n : ℕ} (h_mode : digitsFrom 8 0 mode = e.mode)
    (h_octal : ∀ b ∈ mode, ∃ d ∈ digitValue b, d < 8) (h_length : mode.length = 6) (h_n : e.size = some n)
    (h_size : digitsFrom 10 0 size = n) (h_decimal : ∀ b ∈ size, ∃ d ∈ digitValue b, d < 10)
    (h_ne : size ≠ []) (h_le : size.length ≤ 20)
    (h_line : line = mode ++ space :: (e.typeName ++ space :: (e.sha ++ space ::
      (List.replicate (7 - size.length) space ++ (size ++ tab :: (render e.path).tail))))) : IsLine e line := by
  have h_isSize : IsSize e.size size := by
    rw [h_n, ← h_size]
    exact .some (numeral_digitsFrom h_decimal) h_ne h_le
  have h_numeral : Numeral 8 mode e.mode := h_mode ▸ numeral_digitsFrom h_octal
  rw [h_line]
  exact .mk h_numeral h_length h_isSize

theorem isLine_nested : List.Forall₂ IsLine nestedEntries nestedLines :=
  .cons (isLine_of_eq (str "100644") (str "5") rfl (by decide +kernel) rfl rfl rfl (by decide +kernel) (by decide)
      (by decide) (by decide +kernel))
    (.cons (isLine_of_eq (str "100755") (str "12") rfl (by decide +kernel) rfl rfl rfl (by decide +kernel)
        (by decide) (by decide) (by decide +kernel))
      (.cons (isLine_of_eq (str "120000") (str "3") rfl (by decide +kernel) rfl rfl rfl (by decide +kernel)
        (by decide) (by decide) (by decide +kernel)) .nil))

theorem nested_wellFormed : ∀ e ∈ nestedEntries, e.WellFormed := by
  have h_isPath : ∀ e ∈ nestedEntries, IsPath e.path := by decide +kernel
  have h_path : ∀ e ∈ nestedEntries, ∀ n ∈ e.path, tab ∉ n ∧ newline ∉ n := by decide +kernel
  have h_length : ∀ e ∈ nestedEntries, e.sha.length = 40 := by decide +kernel
  have h_sha : ∀ e ∈ nestedEntries, ∀ b ∈ e.sha, ∃ d ∈ digitValue b, d < 16 := by decide +kernel
  have h_size : ∀ e ∈ nestedEntries, ∀ n ∈ e.size, n < 0x8000000000000000 := by decide +kernel
  exact fun e he => ⟨h_isPath e he, h_path e he, h_length e he, h_sha e he, h_size e he⟩

theorem nested_readable : Readable nestedEntries nestedLines :=
  ⟨by decide, by decide, by decide, .inl ⟨by decide, .inl ⟨by decide, .inl ⟨by decide, trivial⟩⟩⟩⟩

theorem complete_iff_nested :
    Complete nestedEntries (str "5c7b") (loadDirectory printsNested (str "HEAD") Container.empty) ↔
      Readable nestedEntries nestedLines :=
  complete_iff _ _ _ _ _ printsNested_prints isLine_nested nested_wellFormed (by decide)

/-! ### A space in a name -/

/-- A file of five bytes. -/
def fiveBytes (name : Str) : Entry :=
  ⟨[name], 0x81a4, str "f313668af32ea3447a594ae1e7d8ac9841fbae7b", some 5⟩

/-- Its line. -/
def fiveBytesLine (name : Str) : Str :=
  str "100644 blob f313668af32ea3447a594ae1e7d8ac9841fbae7b       5\t" ++ name

/-- A repository with this file only. -/
def printsOne (name : Str) (command : List Str) : Str × ℤ :=
  if command = [str "git", str "rev-parse", str "HEAD"] then (str "5c7b\n", 0)
  else (text [fiveBytesLine name], 0)

theorem printsOne_prints (name : Str) :
    Prints (printsOne name) (str "HEAD") (str "5c7b") [fiveBytesLine name] :=
  ⟨if_pos rfl, if_neg (by decide)⟩

theorem isLine_fiveBytes (name : Str) : IsLine (fiveBytes name) (fiveBytesLine name) := by
  have h_mode : Numeral 8 (str "100644") 0x81a4 := numeral_digitsFrom (by decide +kernel)
  have h_size : Numeral 10 (str "5") 5 := numeral_digitsFrom (by decide +kernel)
  have h_line : IsLine (fiveBytes name) _ :=
    .mk h_mode rfl (.some (s := str "5") h_size (by decide) (by decide))
  have h_render : (render (fiveBytes name).path).tail = name := List.append_nil name
  rw [h_render] at h_line
  -- the columns before the name
  have h_columns : str "100644 blob f313668af32ea3447a594ae1e7d8ac9841fbae7b       5\t"
      = str "100644" ++ space :: (str "blob" ++ space :: (str "f313668af32ea3447a594ae1e7d8ac9841fbae7b" ++
        space :: (List.replicate 6 space ++ (str "5" ++ [tab])))) := by
    decide +kernel
  have h_text : fiveBytesLine name
      = str "100644" ++ space :: (str "blob" ++ space :: (str "f313668af32ea3447a594ae1e7d8ac9841fbae7b" ++
        space :: (List.replicate 6 space ++ (str "5" ++ tab :: name)))) := by
    rw [fiveBytesLine, h_columns]
    simp only [List.append_assoc, List.cons_append, List.nil_append]
  rw [h_text]
  exact h_line

theorem fiveBytes_wellFormed {name : Str} (h : IsName name) (h_tab : tab ∉ name)
    (h_newline : newline ∉ name) : (fiveBytes name).WellFormed where
  isPath := ⟨List.cons_ne_nil _ _, fun n hn => by rwa [List.mem_singleton.mp hn]⟩
  path n hn := by
    rw [List.mem_singleton.mp hn]
    exact ⟨h_tab, h_newline⟩
  sha_length := rfl
  sha := by
    change ∀ b ∈ str "f313668af32ea3447a594ae1e7d8ac9841fbae7b", ∃ d ∈ digitValue b, d < 16
    decide +kernel
  size n hn := by
    obtain rfl := Option.some.inj hn
    decide

/-- **A file with a space in its name is not there.** -/
theorem space_not_complete :
    Prints (printsOne (str "a b")) (str "HEAD") (str "5c7b") [fiveBytesLine (str "a b")] ∧
      List.Forall₂ IsLine [fiveBytes (str "a b")] [fiveBytesLine (str "a b")] ∧
      (∀ e ∈ [fiveBytes (str "a b")], e.WellFormed) ∧
      ¬ Complete [fiveBytes (str "a b")] (str "5c7b")
        (loadDirectory (printsOne (str "a b")) (str "HEAD") Container.empty) := by
  have h_lines : List.Forall₂ IsLine [fiveBytes (str "a b")] [fiveBytesLine (str "a b")] :=
    .cons (isLine_fiveBytes _) .nil
  have h_wf : ∀ e ∈ [fiveBytes (str "a b")], e.WellFormed := by
    intro e he
    rw [List.mem_singleton.mp he]
    exact fiveBytes_wellFormed (by decide) (by decide) (by decide)
  refine ⟨printsOne_prints _, h_lines, h_wf, fun h_complete => ?_⟩
  have h_read := readable_of_complete (printsOne_prints _) h_lines h_wf (List.pairwise_singleton _ _)
    h_complete
  exact h_read.spaces _ (.head _) _ (.head _) (by decide)

end GitlstreeFS.Gitlstree
