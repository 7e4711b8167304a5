import GitlstreeFS.Githubfs.Model

/-!
# GitHub's answers are decoded

An entry of a tree is written as an object (`IsEntry`), and a list of them as the answer to a request
(`Answer`): members may come in any order, and there may be others. `parseTrees_answer` says that
`ParseTrees` reads such an answer as it is meant.

Of the numbers it asks that none has an exponent behind a small `e`, which the parser does not know;
with one, in whatever member, it gives up (`not_decoded_smallExponent`).
-/

namespace GitlstreeFS.Githubfs

open Json Jjson

/-! ### Answers -/

/-- An entry of a tree. The size is that of a blob; the others have none. -/
structure TreeEntry where
  path : Str
  mode : ℕ
  fstype : GitFileType
  sha : Str
  size : ℕ
  url : Str
  deriving DecidableEq, Repr

/-- The name of a type. -/
def GitFileType.name : GitFileType → Str
  | .blob => str "blob"
  | .tree => str "tree"
  | .commit => str "commit"

/-- What a `mode` and a `size` have to be: an `int`, and a number that a `float` can represent. -/
structure TreeEntry.Fits (e : TreeEntry) : Prop where
  mode : e.mode < 0x80000000
  size : e.fstype = .blob → e.size ≤ 2 ^ 24

/-- What they always are: an `int`, and a number of 63 bits. -/
structure TreeEntry.Sized (e : TreeEntry) : Prop where
  mode : e.mode < 0x80000000
  size : e.fstype = .blob → e.size < 2 ^ 63

/-- The call of `file_handler` that an entry asks for. -/
def TreeEntry.call (e : TreeEntry) : FileCall :=
  ⟨e.path, e.mode, e.fstype, e.sha, if e.fstype = .blob then e.size else 0, e.url⟩

/-- What becomes of a size, which goes through a `float` and a `size_t` into an `int`. -/
def readSize (n : ℕ) : ℤ :=
  toInt ((toSize (.ofRat n)).toOption.getD 0)

/-- The call that an entry comes to. -/
def TreeEntry.read (e : TreeEntry) : FileCall :=
  ⟨e.path, e.mode, e.fstype, e.sha, if e.fstype = .blob then readSize e.size else 0, e.url⟩

/-- `ms` are the members of the entry `e`. -/
structure IsEntry (ms : List (Str × Datum ℚ)) (e : TreeEntry) (mode : Str) : Prop where
  path : (str "path", .string e.path) ∈ ms
  mode_ne : mode ≠ []
  mode_numeral : Numeral 8 mode e.mode
  mode : (str "mode", .string mode) ∈ ms
  fstype : (str "type", .string e.fstype.name) ∈ ms
  sha : (str "sha", .string e.sha) ∈ ms
  size : e.fstype = .blob → (str "size", .number e.size) ∈ ms
  url : (str "url", .string e.url) ∈ ms

/-- `t` is an object that writes the entry `e`. -/
def Writes (t : Datum ℚ) (e : TreeEntry) : Prop :=
  ∃ ms mode, t = .object ms ∧ IsEntry ms e mode

/-- The value of a flag. -/
def flagDatum : Bool → Datum ℚ
  | false => .false
  | true => .true

/-- `s` is an answer with the entries and the flag. Its objects have distinct names, and its numbers may
have exponents behind the marks. -/
def Answer (marks : List UInt8) (entries : List TreeEntry) (truncated : Bool) (s : Str) : Prop :=
  ∃ ms ts, IsText (printed marks) (.object ms) s ∧ (Datum.object ms).Distinct ∧
    (str "tree", .array ts) ∈ ms ∧ (str "truncated", flagDatum truncated) ∈ ms ∧
    List.Forall₂ Writes ts entries

/-- `ParseTrees` decodes an answer faithfully. -/
def Decoded (entries : List TreeEntry) (truncated : Bool) (s : Str) : Prop :=
  parseTrees s = .ok (if truncated then (false, []) else (true, entries.map TreeEntry.call))

/-! ### Entries -/

variable {e : TreeEntry} {ms : List (Str × Datum ℚ)} {mode : Str}

theorem fileTypeStringToFileType_name (fstype : GitFileType) :
    fileTypeStringToFileType fstype.name = .ok fstype := by
  cases fstype with
  | blob => rfl
  | tree => rfl
  | commit => rfl

theorem name_eq_blob_iff (fstype : GitFileType) : fstype.name = str "blob" ↔ fstype = .blob := by
  cases fstype with
  | blob => exact ⟨fun _ => rfl, fun _ => rfl⟩
  | tree => exact ⟨fun h => absurd h (by decide), fun h => by cases h⟩
  | commit => exact ⟨fun h => absurd h (by decide), fun h => by cases h⟩

theorem toSize_finite {y : ℚ} (h_nonneg : 0 ≤ y) (h_lt : y < 0x10000000000000000) :
    toSize (.finite y) = .ok ⌊y⌋.toNat :=
  if_pos ⟨lt_of_lt_of_le (by decide) h_nonneg, h_lt⟩

/-- A size that a `float` can represent comes through. -/
theorem readSize_of_le {n : ℕ} (h : n ≤ 2 ^ 24) : readSize n = n := by
  have h_lt : (n : ℚ) < 0x10000000000000000 := by
    have h_cast : (n : ℚ) ≤ 2 ^ 24 := by exact_mod_cast h
    exact lt_of_le_of_lt h_cast (by norm_num)
  rw [readSize, Binary32.ofRat_natCast h, toSize_finite (Nat.cast_nonneg n) h_lt, Int.floor_natCast,
    Int.toNat_natCast]
  exact toInt_of_lt (lt_of_le_of_lt h (by norm_num))

/-- Any other one is at least a `size_t`. -/
theorem toSize_ofRat {n : ℕ} (h : n < 2 ^ 63) : ∃ k : ℕ, toSize (.ofRat n) = .ok k ∧ readSize n = toInt k := by
  obtain ⟨y, h_eq, h_nonneg, h_le⟩ := Binary32.exists_ofRat_natCast (n := n) (h.trans (by norm_num))
  have h_lt : y < 0x10000000000000000 := by
    have h_cast : (n : ℚ) < 2 ^ 63 := by exact_mod_cast h
    refine lt_of_le_of_lt h_le ?_
    have h_bound : (0x10000000000000000 : ℚ) = 2 * 2 ^ 63 := by norm_num
    rw [h_bound]
    linarith
  have h_size := toSize_finite h_nonneg h_lt
  refine ⟨⌊y⌋.toNat, by rw [h_eq, h_size], ?_⟩
  rw [readSize, h_eq, h_size]
  rfl

/-- So an entry that fits comes to the call that it asks for. -/
theorem TreeEntry.Fits.read_eq (h : e.Fits) : e.read = e.call := by
  rw [TreeEntry.read, TreeEntry.call]
  by_cases h_blob : e.fstype = .blob
  · rw [if_pos h_blob, if_pos h_blob, readSize_of_le (h.size h_blob)]
  · rw [if_neg h_blob, if_neg h_blob]

theorem TreeEntry.Fits.sized (h : e.Fits) : e.Sized :=
  ⟨h.mode, fun h_blob => lt_of_le_of_lt (h.size h_blob) (by norm_num)⟩

/-- The string of a member. -/
theorem get_string {key s : Str} (h_nodup : (ms.map Prod.fst).Nodup) (h : (key, .string s) ∈ ms) :
    (Value.ofDatum ((Datum.object ms).map Binary32.ofRat)).get key = .ok (.string s) :=
  get_ofDatum h_nodup h

theorem getString_string {ν : Type} (s : Str) : (Value.string s : Value ν).getString = .ok s :=
  rfl

theorem fileSize_entry (h_sized : e.Sized) (h_nodup : (ms.map Prod.fst).Nodup)
    (h : IsEntry ms e mode) :
    ∃ k, fileSize (.ofDatum ((Datum.object ms).map Binary32.ofRat)) e.fstype.name = .ok k ∧
      toInt k = if e.fstype = .blob then readSize e.size else 0 := by
  by_cases h_blob : e.fstype = .blob
  · obtain ⟨k, h_k, h_read⟩ := toSize_ofRat (h_sized.size h_blob)
    refine ⟨k, ?_, by rw [if_pos h_blob, h_read]⟩
    rw [fileSize, if_pos ((name_eq_blob_iff _).mpr h_blob), get_ofDatum h_nodup (h.size h_blob), ok_bind]
    exact h_k
  · refine ⟨0, ?_, by rw [if_neg h_blob]; rfl⟩
    rw [fileSize, if_neg (mt (name_eq_blob_iff _).mp h_blob)]
    rfl

/-- **The body of the loop reads an entry.** -/
theorem parseFile_entry (h_sized : e.Sized) (h_nodup : (ms.map Prod.fst).Nodup)
    (h : IsEntry ms e mode) :
    parseFile (.ofDatum ((Datum.object ms).map Binary32.ofRat)) = .ok e.read := by
  have h_mode : toInt (strtol mode 8) = e.mode := by
    have h_lt := h_sized.mode
    rw [strtol_self h.mode_numeral h.mode_ne (by omega), toInt_of_lt h_lt]
  obtain ⟨k, h_k, h_size⟩ := fileSize_entry h_sized h_nodup h
  rw [parseFile, get_string h_nodup h.fstype, ok_bind, getString_string, ok_bind, h_k, ok_bind,
    fileTypeStringToFileType_name, ok_bind, get_string h_nodup h.path, ok_bind, getString_string, ok_bind,
    get_string h_nodup h.mode, ok_bind, getString_string, ok_bind, get_string h_nodup h.sha, ok_bind,
    getString_string, ok_bind, get_string h_nodup h.url, ok_bind, getString_string, ok_bind, h_mode, h_size]
  rfl

/-! ### The loop -/

/-- The loop calls the handler once for each entry, in order. -/
theorem mapM_parseFile {ts : List (Datum ℚ)} {entries : List TreeEntry}
    (h : List.Forall₂ Writes ts entries) (h_distinct : DistinctElements ts)
    (h_sized : ∀ e ∈ entries, e.Sized) :
    (ofElements (mapElements Binary32.ofRat ts)).mapM parseFile
      = .ok (entries.map TreeEntry.read) := by
  induction h with
  | nil => rfl
  | @cons t e ts entries h_writes _ ih =>
    obtain ⟨ms, mode, rfl, h_entry⟩ := h_writes
    have h_file := parseFile_entry (h_sized e List.mem_cons_self) h_distinct.1.1 h_entry
    have h_files := ih h_distinct.2 fun e he => h_sized e (List.mem_cons_of_mem _ he)
    rw [mapElements, ofElements, List.mapM_cons, h_file, ok_bind, h_files, ok_bind, List.map_cons]
    rfl

/-- A truncated answer is not looked at any further. -/
theorem parseTrees_truncated {entries : List TreeEntry} {s : Str} (h : Answer knownMarks entries true s) :
    parseTrees s = .ok (false, []) := by
  obtain ⟨ms, ts, h_text, h_distinct, -, h_truncated, -⟩ := h
  rw [parseTrees, parse_printed h_distinct h_text]
  change (Value.get _ _ >>= _) = _
  rw [get_ofDatum h_distinct.1 h_truncated, ok_bind]
  rfl

/-- **`ParseTrees` reads every answer** without a small `e` in one of its numbers. -/
theorem parseTrees_read {entries : List TreeEntry} {s : Str} (h_sized : ∀ e ∈ entries, e.Sized)
    (h : Answer knownMarks entries false s) : parseTrees s = .ok (true, entries.map TreeEntry.read) := by
  obtain ⟨ms, ts, h_text, h_distinct, h_tree, h_truncated, h_entries⟩ := h
  have h_ts : DistinctElements ts := distinct_of_mem h_distinct.2 h_tree
  rw [parseTrees, parse_printed h_distinct h_text]
  change (Value.get _ _ >>= _) = _
  rw [get_ofDatum h_distinct.1 h_truncated, ok_bind, if_neg (by decide),
    member_ofDatum h_distinct.1 h_tree, ok_bind]
  change ((ofElements (mapElements Binary32.ofRat ts)).mapM parseFile >>= _) = _
  rw [mapM_parseFile h_entries h_ts h_sized, ok_bind]
  rfl

/-- **`ParseTrees` decodes every answer** whose sizes a `float` can represent. -/
theorem parseTrees_answer (entries : List TreeEntry) (h_fits : ∀ e ∈ entries, e.Fits)
    (truncated : Bool) (s : Str) (h : Answer knownMarks entries truncated s) :
    Decoded entries truncated s := by
  cases truncated with
  | true => exact parseTrees_truncated h
  | false =>
    have h_call : entries.map TreeEntry.read = entries.map TreeEntry.call :=
      List.map_congr_left fun e he => (h_fits e he).read_eq
    rw [Decoded, parseTrees_read (fun e he => (h_fits e he).sized) h, h_call]
    rfl

/-! ### Texts of answers -/

/-- A string without quotes and backslashes. -/
def Plain (s : Str) : Prop :=
  ∀ b ∈ s, b ≠ 0x22 ∧ b ≠ 0x5c

instance (s : Str) : Decidable (Plain s) :=
  List.decidableBAll (fun b => b ≠ 0x22 ∧ b ≠ 0x5c) s

/-- It spells itself. -/
theorem spells_self {s : Str} (h : Plain s) : Spells s s := by
  induction s with
  | nil => exact .nil
  | cons b s ih =>
    obtain ⟨h_quote, h_backslash⟩ := h b List.mem_cons_self
    exact .raw h_quote h_backslash (ih fun b hb => h b (List.mem_cons_of_mem _ hb))

/-- In quotes. -/
def quoted (s : Str) : Str :=
  0x22 :: s ++ [0x22]

/-- With commas between them. -/
def separated : List Str → Str
  | [] => []
  | [t] => t
  | t :: ts => t ++ 0x2c :: separated ts

/-- An array. -/
def arrayText (ts : List Str) : Str :=
  0x5b :: (separated ts ++ [0x5d])

/-- An object. -/
def objectText (ms : List (Str × Str)) : Str :=
  0x7b :: (separated (ms.map fun m => quoted m.1 ++ 0x3a :: m.2) ++ [0x7d])

/-- An entry, with the texts of its mode and its size. -/
def entryText (x : TreeEntry × Str × Str) : Str :=
  objectText [(str "path", quoted x.1.path), (str "mode", quoted x.2.1),
    (str "type", quoted x.1.fstype.name), (str "sha", quoted x.1.sha), (str "url", quoted x.1.url),
    (str "size", x.2.2)]

/-- An answer. -/
def answerText (xs : List (TreeEntry × Str × Str)) (truncated : Bool) : Str :=
  objectText [(str "tree", arrayText (xs.map entryText)),
    (str "truncated", if truncated then str "true" else str "false")]

/-- Its strings need no escapes, and its numbers are as they should be. -/
structure Printable (x : TreeEntry × Str × Str) : Prop where
  path : Plain x.1.path
  sha : Plain x.1.sha
  url : Plain x.1.url
  mode_ne : x.2.1 ≠ []
  mode : Numeral 8 x.2.1 x.1.mode
  size_ne : x.2.2 ≠ []
  size : Numeral 10 x.2.2 x.1.size

section Texts

variable {L : Lexicon ℚ}

theorem isWs_nil : IsWs [] := by
  decide

theorem isElements_separated {vs : List (Datum ℚ)} {ts : List Str} (h : List.Forall₂ (IsValue L) vs ts)
    (h_ne : vs ≠ []) : IsElements L vs (separated ts ++ [0x5d]) := by
  induction h with
  | nil => exact absurd rfl h_ne
  | @cons v t vs ts h_v h_vs ih =>
    cases h_vs with
    | nil =>
      have h_last : IsElements L [v] (t ++ [] ++ [0x5d]) := .last h_v (by decide)
      rwa [List.append_nil] at h_last
    | cons h_v' h_vs' =>
      have h_cons := IsElements.cons h_v isWs_nil isWs_nil (ih (List.cons_ne_nil _ _))
      simpa [separated] using h_cons

/-- A text of a member. -/
def IsMember (L : Lexicon ℚ) (m : Str × Datum ℚ) (r : Str × Str) : Prop :=
  m.1 = r.1 ∧ L.string r.1 r.1 ∧ IsValue L m.2 r.2

theorem isMembers_separated {ms : List (Str × Datum ℚ)} {rs : List (Str × Str)}
    (h : List.Forall₂ (IsMember L) ms rs) (h_ne : ms ≠ []) :
    IsMembers L ms (separated (rs.map fun r => quoted r.1 ++ 0x3a :: r.2) ++ [0x7d]) := by
  induction h with
  | nil => exact absurd rfl h_ne
  | @cons m r ms rs h_m h_ms ih =>
    obtain ⟨key, v⟩ := m
    obtain ⟨raw, t⟩ := r
    obtain ⟨rfl, h_key, h_v⟩ := h_m
    cases h_ms with
    | nil =>
      have h_last := IsMembers.last h_key isWs_nil isWs_nil h_v isWs_nil
      simpa [separated, quoted] using h_last
    | @cons m' r' ms' rs' h_m' h_ms' =>
      have h_cons := IsMembers.cons h_key isWs_nil isWs_nil h_v isWs_nil isWs_nil
        (ih (List.cons_ne_nil _ _))
      simpa [separated, quoted] using h_cons

theorem isValue_array {vs : List (Datum ℚ)} {ts : List Str} (h : List.Forall₂ (IsValue L) vs ts) :
    IsValue L (.array vs) (arrayText ts) := by
  cases h with
  | nil => exact .emptyArray (w := []) (by decide)
  | cons h_v h_vs =>
    exact .array (w := []) (by decide) (isElements_separated (.cons h_v h_vs) (List.cons_ne_nil _ _))

theorem isValue_object {ms : List (Str × Datum ℚ)} {rs : List (Str × Str)}
    (h : List.Forall₂ (IsMember L) ms rs) (h_ne : ms ≠ []) :
    IsValue L (.object ms) (objectText rs) :=
  .object (w := []) (by decide) (isMembers_separated h h_ne)

end Texts

theorem isMember {key : Str} {v : Datum ℚ} {t : Str} (h_key : Plain key)
    (h : IsValue (printed knownMarks) v t) : IsMember (printed knownMarks) (key, v) (key, t) :=
  ⟨rfl, spells_self h_key, h⟩

theorem isValue_string {s : Str} (h : Plain s) : IsValue (printed knownMarks) (.string s) (quoted s) :=
  .string (spells_self h)

theorem plain_of_numeral {s : Str} {base n : ℕ} (h : Numeral base s n) : Plain s := by
  intro b hb
  obtain ⟨d, -, h_d⟩ := h.mem hb
  constructor
  · rintro rfl
    cases h_d
  · rintro rfl
    cases h_d

theorem plain_name (fstype : GitFileType) : Plain fstype.name := by
  cases fstype with
  | blob => exact (by decide : Plain (str "blob"))
  | tree => exact (by decide : Plain (str "tree"))
  | commit => exact (by decide : Plain (str "commit"))

/-- The members of an entry. -/
def entryMembers (x : TreeEntry × Str × Str) : List (Str × Datum ℚ) :=
  [(str "path", .string x.1.path), (str "mode", .string x.2.1), (str "type", .string x.1.fstype.name),
    (str "sha", .string x.1.sha), (str "url", .string x.1.url), (str "size", .number x.1.size)]

theorem isValue_entry {x : TreeEntry × Str × Str} (h : Printable x) :
    IsValue (printed knownMarks) (.object (entryMembers x)) (entryText x) := by
  have h_size : IsNumber knownMarks x.2.2 x.1.size := by
    have h_number : IsNumber knownMarks ([] ++ (x.2.2 ++ ([] ++ []))) _ :=
      .mk (.inl rfl) h.size_ne .none (by rw [List.append_nil]; exact h.size) .none
    simpa [sign] using h_number
  exact isValue_object (.cons (isMember (by decide) (isValue_string h.path))
    (.cons (isMember (by decide) (isValue_string (plain_of_numeral h.mode)))
    (.cons (isMember (by decide) (isValue_string (plain_name _)))
    (.cons (isMember (by decide) (isValue_string h.sha))
    (.cons (isMember (by decide) (isValue_string h.url))
    (.cons (isMember (by decide) (.number h_size)) .nil)))))) (List.cons_ne_nil _ _)

theorem writes_entry {x : TreeEntry × Str × Str} (h : Printable x) :
    Writes (.object (entryMembers x)) x.1 :=
  ⟨entryMembers x, x.2.1, rfl, .head _, h.mode_ne, h.mode, .tail _ (.head _), .tail _ (.tail _ (.head _)),
    .tail _ (.tail _ (.tail _ (.head _))),
    fun _ => .tail _ (.tail _ (.tail _ (.tail _ (.tail _ (.head _))))),
    .tail _ (.tail _ (.tail _ (.tail _ (.head _))))⟩

/-- **The text is an answer.** -/
theorem answer_answerText {xs : List (TreeEntry × Str × Str)} (h : ∀ x ∈ xs, Printable x)
    (truncated : Bool) : Answer knownMarks (xs.map Prod.fst) truncated (answerText xs truncated) := by
  have h_entries : List.Forall₂ (IsValue (printed knownMarks))
      (xs.map fun x => .object (entryMembers x)) (xs.map entryText) := by
    rw [List.forall₂_map_left_iff, List.forall₂_map_right_iff, List.forall₂_same]
    exact fun x hx => isValue_entry (h x hx)
  have h_flag : IsValue (printed knownMarks) (flagDatum truncated)
      (if truncated then str "true" else str "false") := by
    cases truncated with
    | true => exact .true
    | false => exact .false
  have h_value := isValue_object (.cons (isMember (show Plain (str "tree") by decide) (isValue_array h_entries))
    (.cons (isMember (show Plain (str "truncated") by decide) h_flag) .nil)) (List.cons_ne_nil _ _)
  have h_distinct : DistinctElements (xs.map fun x => .object (entryMembers x)) := by
    clear h h_entries h_value
    induction xs with
    | nil => trivial
    | cons x xs ih =>
      refine ⟨⟨?_, trivial, trivial, trivial, trivial, trivial, trivial, trivial⟩, ih⟩
      exact (by decide : [str "path", str "mode", str "type", str "sha", str "url", str "size"].Nodup)
  have h_text : answerText xs truncated = [] ++ answerText xs truncated ++ [] := (List.append_nil _).symm
  have h_names : [str "tree", str "truncated"].Nodup := by decide
  refine ⟨_, _, ⟨[], _, [], by decide, h_value, by decide, h_text⟩, ⟨h_names, h_distinct, ?_, trivial⟩,
    .head _, .tail _ (.head _), ?_⟩
  · cases truncated with
    | true => trivial
    | false => trivial
  · rw [List.forall₂_map_left_iff, List.forall₂_map_right_iff, List.forall₂_same]
    exact fun x hx => writes_entry (h x hx)

/-! ### Two answers -/

/-- One file. -/
def oneFile : TreeEntry :=
  ⟨str "a b", 0x81a4, .blob, str "5c7b", 3, str "u"⟩

/-- Its members. -/
def oneFileMembers : List (Str × Datum ℚ) :=
  [(str "path", .string (str "a b")), (str "mode", .string (str "100644")),
    (str "type", .string (str "blob")), (str "sha", .string (str "5c7b")),
    (str "url", .string (str "u")), (str "size", .number (3 : ℕ))]

/-- The answer, with the size behind the other members and spaces before its value. -/
def oneFileAnswer : Str :=
  str "\x7b\"tree\":[\x7b\"path\":\"a b\",\"mode\":\"100644\",\"type\":\"blob\","
    ++ str "\"sha\":\"5c7b\",\"url\":\"u\",\"size\": 3\x7d],\"truncated\":false\x7d"

theorem parseTrees_answer_oneFile : Decoded [oneFile] false oneFileAnswer := by
  have h_nil : IsWs [] := by decide
  have h_space : IsWs [0x20] := by decide
  -- the spelling of each token first, and from these the text from the inside to the outside
  have h_string {s : Str} (h : ∀ b ∈ s, b ≠ 0x22 ∧ b ≠ 0x5c) :
      IsValue (printed knownMarks) (.string s) (0x22 :: s ++ [0x22]) :=
    .string (spells_self h)
  have h_digit : Numeral 10 (str "3" ++ []) 3 := numeral_digitsFrom (by decide +kernel)
  have h_three : IsNumber knownMarks (str "3") (3 : ℕ) := by
    have h_number : IsNumber knownMarks ([] ++ (str "3" ++ ([] ++ []))) _ :=
      .mk (.inl rfl) (by decide) .none h_digit .none
    simpa [sign] using h_number
  have h_mode : Numeral 8 (str "100644") 0x81a4 := numeral_digitsFrom (by decide +kernel)
  have h_entry : IsEntry oneFileMembers oneFile (str "100644") :=
    ⟨.head _, by decide, h_mode, .tail _ (.head _), .tail _ (.tail _ (.head _)),
      .tail _ (.tail _ (.tail _ (.head _))),
      fun _ => .tail _ (.tail _ (.tail _ (.tail _ (.tail _ (.head _))))),
      .tail _ (.tail _ (.tail _ (.tail _ (.head _))))⟩
  have h_file : IsValue (printed knownMarks) (.object oneFileMembers) _ :=
    .object h_nil (.cons (spells_self (by decide +kernel)) h_nil h_nil
      (h_string (by decide +kernel)) h_nil h_nil
      (.cons (spells_self (by decide +kernel)) h_nil h_nil (h_string (by decide +kernel)) h_nil h_nil
      (.cons (spells_self (by decide +kernel)) h_nil h_nil (h_string (by decide +kernel)) h_nil h_nil
      (.cons (spells_self (by decide +kernel)) h_nil h_nil (h_string (by decide +kernel)) h_nil h_nil
      (.cons (spells_self (by decide +kernel)) h_nil h_nil (h_string (by decide +kernel)) h_nil h_nil
      (.last (spells_self (by decide +kernel)) h_nil h_space (.number h_three) h_nil))))))
  have h_text : IsValue (printed knownMarks)
      (.object [(str "tree", .array [.object oneFileMembers]), (str "truncated", .false)]) _ :=
    .object h_nil (.cons (spells_self (by decide +kernel)) h_nil h_nil
      (.array h_nil (.last h_file h_nil)) h_nil h_nil
      (.last (spells_self (by decide +kernel)) h_nil h_nil .false h_nil))
  refine parseTrees_answer [oneFile] ?_ false oneFileAnswer
    ⟨_, [.object oneFileMembers], ⟨[], _, [], h_nil, h_text, h_nil, by decide +kernel⟩, ?_, .head _,
      .tail _ (.head _), .cons ⟨oneFileMembers, str "100644", rfl, h_entry⟩ .nil⟩
  · intro e he
    obtain rfl := List.mem_singleton.mp he
    exact ⟨by decide, fun _ => by decide⟩
  · exact ⟨by decide, ⟨⟨⟨by decide, trivial, trivial, trivial, trivial, trivial, trivial, trivial⟩, trivial⟩,
      trivial, trivial⟩⟩

/-- An answer without files, and a member that nobody looks at. -/
def smallExponent : Str :=
  str "\x7b\"x\":1e5,\"tree\":[],\"truncated\":false\x7d"

/-- **A small `e` is not known**: the parser takes `1` for the number, and what follows for nothing that
could be there. -/
theorem not_decoded_smallExponent :
    Answer exponentMarks [] false smallExponent ∧ ¬ Decoded [] false smallExponent := by
  have h_nil : IsWs [] := by decide
  have h_one : Numeral 10 ([0x31] ++ []) 1 := numeral_digitsFrom (by decide +kernel)
  have h_five : Numeral 10 [0x35] 5 := numeral_digitsFrom (by decide +kernel)
  have h_exponent : IsExponent exponentMarks (0x65 :: ([] ++ [0x35])) _ :=
    .some (by decide) (.inl rfl) (by decide) h_five
  have h_number : IsNumber exponentMarks ([] ++ ([0x31] ++ ([] ++ 0x65 :: ([] ++ [0x35])))) _ :=
    .mk (.inl rfl) (by decide) .none h_one h_exponent
  refine ⟨⟨[(str "x", .number _), (str "tree", .array []), (str "truncated", .false)], [],
    ⟨[], _, [], h_nil, .object h_nil (.cons (spells_self (by decide +kernel)) h_nil h_nil
      (.number h_number) h_nil h_nil (.cons (spells_self (by decide +kernel)) h_nil h_nil
      (.emptyArray h_nil) h_nil h_nil (.last (spells_self (by decide +kernel)) h_nil h_nil
      .false h_nil))), h_nil, by decide +kernel⟩, ⟨by decide, trivial, trivial, trivial, trivial⟩,
    .tail _ (.head _), .tail _ (.tail _ (.head _)), .nil⟩, ?_⟩
  intro h
  have h_fails : parseTrees smallExponent = .error .undefined := rfl
  rw [Decoded, h_fails] at h
  cases h

end GitlstreeFS.Githubfs
