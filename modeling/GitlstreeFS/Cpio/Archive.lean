import GitlstreeFS.Cpio.Walk
import GitlstreeFS.Numeral
import Mathlib.Data.List.Forall2

/-!
# Reading an archive

`Newc` is the format: a header of thirteen hexadecimal numbers, the name with a NUL, the contents, each
of the two padded with zeros. `loadDirectory_archive` says what `LoadDirectory` makes of a list of
entries in it.

A header is 110 bytes long, two more than a multiple of four. So the offsets that `ContentsOffset` and
`EndOffset` count from its end are two short of one, whatever the lengths of name and contents are
(`contentsOffset_eq`, `next_eq`); with this each entry leads to the next, as far as the sums are `int`s
(`Entry.Sized`).
-/

namespace GitlstreeFS.Cpio

/-! ### The format -/

/-- A file in an archive. Of the size and the length of the name there is no choice. -/
structure Entry where
  name : Str
  content : Str
  ino : ℕ
  mode : ℕ
  uid : ℕ
  gid : ℕ
  nlink : ℕ
  mtime : ℕ
  major : ℕ
  minor : ℕ
  rmajor : ℕ
  rminor : ℕ
  chksum : ℕ
  deriving DecidableEq

namespace Entry

/-- The numbers of the header. -/
def numbers (e : Entry) : List ℕ :=
  [e.ino, e.mode, e.uid, e.gid, e.nlink, e.mtime, e.content.length, e.major, e.minor, e.rmajor,
    e.rminor, e.name.length + 1, e.chksum]

/-- What `LoadDirectory` is meant for: the archive does not end with the entry, and its offsets are
`int`s. -/
structure Valid (e : Entry) : Prop where
  ne_nil : e.name ≠ []
  nul_notMem : 0 ∉ e.name
  ne_trailer : e.name ≠ str "TRAILER!!!"
  lt : e.name.length + e.content.length < 0x7ffffff0

/-- The offsets that its header leads to are `int`s. -/
def Sized (e : Entry) : Prop :=
  Offsets ((e.name.length + 1 : ℕ) : ℤ) e.content.length

theorem sized_iff {e : Entry} : e.Sized ↔ e.name.length + 3 < 0x80000000 ∧
    ceil4 ((e.name.length + 1 : ℕ) + 2) + e.content.length < 0x80000000 :=
  ⟨fun h => ⟨by have := h.name; omega, h.content⟩, fun h => ⟨by have := h.1; omega, h.2⟩⟩

instance (e : Entry) : Decidable e.Sized :=
  decidable_of_iff _ sized_iff.symm

theorem Sized.content_lt {e : Entry} (h : e.Sized) : e.content.length < 0x80000000 := by
  have h_content := h.content
  unfold ceil4 at h_content
  omega

theorem Valid.sized {e : Entry} (h : e.Valid) : e.Sized := by
  have h_lt := h.lt
  refine sized_iff.mpr ⟨by omega, ?_⟩
  unfold ceil4
  omega

/-- A regular file or a symlink. -/
def isAdded (e : Entry) : Bool :=
  isSupported e.mode

/-- The triple, as the header gives it to `hardlink_map`. -/
def key (e : Entry) : HardlinkKey :=
  ⟨toInt e.major, toInt e.minor, toInt e.ino⟩

/-- One of those that `hardlink_map` is to find. -/
def isLinked (e : Entry) : Bool :=
  e.isAdded ∧ 1 < toInt e.nlink ∧ e.content ≠ []

end Entry

/-- A number of the header: eight hexadecimal digits. -/
def Field (s : Str) (n : ℕ) : Prop :=
  s.length = 8 ∧ Numeral 16 s n

/-- How many zeros lead from `n` to a multiple of four. -/
def zeros (n : ℕ) : Str :=
  List.replicate ((4 - n % 4) % 4) 0

/-- An entry as bytes. -/
inductive Newc (e : Entry) : Str → Prop
  | mk (fields : List Str) (h : List.Forall₂ Field fields e.numbers) :
      Newc e ((str "070701" ++ fields.flatten ++ (e.name ++ [0]) ++ zeros (110 + (e.name.length + 1)))
        ++ (e.content ++ zeros e.content.length))

/-- The hexadecimal digit `d`. -/
def hexDigit (d : ℕ) : UInt8 :=
  UInt8.ofNat (if d < 10 then 0x30 + d else 0x57 + d)

/-- The last `width` hexadecimal digits of `n`. -/
def hex : ℕ → ℕ → Str
  | 0, _ => []
  | width + 1, n => hex width (n / 16) ++ [hexDigit (n % 16)]

/-- An entry as `cpio` writes it. -/
def Entry.encode (e : Entry) : Str :=
  str "070701" ++ (e.numbers.map (hex 8)).flatten ++ (e.name ++ [0])
    ++ zeros (110 + (e.name.length + 1)) ++ (e.content ++ zeros e.content.length)

theorem digitValue_hexDigit {d : ℕ} (h : d < 16) : digitValue (hexDigit d) = some d := by
  have h_all : ∀ d : Fin 16, digitValue (hexDigit d) = some d.1 := by
    decide +kernel
  exact h_all ⟨d, h⟩

theorem numeral_hex {width n : ℕ} (h : n < 16 ^ width) : Numeral 16 (hex width n) n := by
  induction width generalizing n with
  | zero =>
    obtain rfl : n = 0 := Nat.lt_one_iff.mp h
    exact .nil
  | succ width ih =>
    have h_digit : n % 16 < 16 := Nat.mod_lt _ (by decide)
    have h_numeral := Numeral.concat (ih (n := n / 16) (Nat.div_lt_of_lt_mul (by omega)))
      (digitValue_hexDigit h_digit) h_digit
    rwa [Nat.div_add_mod' n 16] at h_numeral

theorem length_hex (width n : ℕ) : (hex width n).length = width := by
  induction width generalizing n with
  | zero => rfl
  | succ width ih => rw [hex, List.length_append, ih, List.length_singleton]

/-- There is such an encoding if the numbers have eight digits. -/
theorem newc_encode {e : Entry} (h : ∀ n ∈ e.numbers, n < 0x100000000) : Newc e e.encode := by
  refine .mk (e.numbers.map (hex 8)) ?_
  generalize e.numbers = numbers at h
  induction numbers with
  | nil => exact .nil
  | cons n numbers ih =>
    exact .cons ⟨length_hex 8 n, numeral_hex (h n List.mem_cons_self)⟩
      (ih fun n hn => h n (List.mem_cons_of_mem _ hn))

/-! ### Numbers -/

variable {m s u v : Str} {c : ℤ} {e : Entry}

/-- The bytes in the middle of a file. -/
theorem bytes_append (h : m = u ++ s ++ v) {n : ℤ} (hc : c = u.length) (hn : n = s.length) :
    bytes m c n = .ok s := by
  have h_length := congrArg List.length h
  simp only [List.length_append] at h_length
  rw [bytes, if_pos ⟨by omega, by omega, by omega⟩, hc, hn, Int.toNat_natCast, Int.toNat_natCast, h,
    List.append_assoc, List.drop_left, List.take_left]

theorem Field.lt {n : ℕ} (h : Field s n) : n < 0x100000000 := by
  have h_lt := h.2.lt_pow
  rw [h.1] at h_lt
  exact h_lt

theorem Field.strtol {n : ℕ} (h : Field s n) : strtol s 16 = n := by
  have h_ne : s ≠ [] := by
    rintro rfl
    cases h.1
  have h_lt := h.lt
  exact strtol_self h.2 h_ne (by omega)

/-- Where the fields stand. -/
theorem length_flatten {fields : List Str} {numbers : List ℕ} (h : List.Forall₂ Field fields numbers) :
    fields.flatten.length = 8 * numbers.length := by
  induction h with
  | nil => rfl
  | cons h_field _ ih =>
    rw [List.flatten_cons, List.length_append, h_field.1, ih, List.length_cons]
    omega

/-- The `i`-th field. -/
theorem exists_field {fields : List Str} {numbers : List ℕ} (h : List.Forall₂ Field fields numbers)
    {i n : ℕ} (h_i : numbers[i]? = some n) :
    ∃ u s v, fields.flatten = u ++ s ++ v ∧ u.length = 8 * i ∧ Field s n := by
  induction h generalizing i with
  | nil => cases h_i
  | @cons s n' fields numbers h_field _ ih =>
    cases i with
    | zero =>
      obtain rfl : n' = n := Option.some.inj h_i
      exact ⟨[], s, fields.flatten, rfl, rfl, h_field⟩
    | succ i =>
      obtain ⟨u, s', v, h_eq, h_length, h_s'⟩ := ih h_i
      refine ⟨s ++ u, s', v, ?_, ?_, h_s'⟩
      · rw [List.flatten_cons, h_eq, List.append_assoc, List.append_assoc, List.append_assoc]
      · rw [List.length_append, h_field.1, h_length]
        omega

/-! ### Headers -/

/-- The header of an entry, with the name behind it. -/
def head (fields : List Str) (e : Entry) : Str :=
  str "070701" ++ fields.flatten ++ (e.name ++ [0]) ++ zeros (110 + (e.name.length + 1))

/-- The contents of an entry, up to the next. -/
def body (e : Entry) : Str :=
  e.content ++ zeros e.content.length

/-- Behind `u` stands the entry `e`, and then `v`. -/
structure At (m : Str) (c : ℤ) (e : Entry) (fields : List Str) (u v : Str) : Prop where
  numbers : List.Forall₂ Field fields e.numbers
  position : c = u.length
  file : m = u ++ (head fields e ++ body e ++ v)
  lt : e.name.length + 3 < 0x80000000

variable {fields : List Str}

theorem number_eq (h : At m c e fields u v) {i n : ℕ} (h_i : e.numbers[i]? = some n) :
    number m c i = .ok (toInt n) := by
  obtain ⟨u', s, v', h_eq, h_length, h_s⟩ := exists_field h.numbers h_i
  have h_bytes : bytes m (c + 6 + 8 * i) 8 = .ok s := by
    have h_magic : (str "070701").length = 6 := rfl
    refine bytes_append (u := u ++ (str "070701" ++ u'))
      (v := v' ++ (e.name ++ [0] ++ zeros (110 + (e.name.length + 1)) ++ body e ++ v)) ?_ ?_
      (by rw [h_s.1]; rfl)
    · rw [h.file, head, h_eq]
      simp only [List.append_assoc]
    · rw [h.position, List.length_append, List.length_append, h_magic, h_length]
      omega
  rw [number, h_bytes]
  change Except.ok (toInt (GitlstreeFS.strtol s 16)) = _
  rw [h_s.strtol]

theorem namesize_eq (h : At m c e fields u v) : namesize m c = .ok ((e.name.length + 1 : ℕ) : ℤ) := by
  have h_lt := h.lt
  rw [namesize, number_eq h (n := e.name.length + 1) rfl, toInt_of_lt (by omega)]

theorem filesize_eq (h : At m c e fields u v) (h_sized : e.Sized) :
    filesize m c = .ok (e.content.length : ℤ) := by
  rw [filesize, number_eq h (n := e.content.length) rfl, toInt_of_lt h_sized.content_lt]

theorem checkHeader_eq (h : At m c e fields u v) : checkHeader m c = .ok true := by
  have h_magic : ∀ (done golden : Str) (c : ℤ), str "070701" = done ++ golden →
      c = (u ++ done).length → checkMagic m c golden = .ok true := by
    intro done golden
    induction golden generalizing done with
    | nil => exact fun _ _ _ => rfl
    | cons b golden ih =>
      intro c h_eq hc
      have h_bytes : bytes m c 1 = .ok [b] := by
        refine bytes_append (u := u ++ done)
          (v := golden ++ (fields.flatten ++ (e.name ++ [0]) ++ zeros (110 + (e.name.length + 1))
            ++ body e ++ v)) ?_ hc rfl
        rw [h.file, head, h_eq]
        simp only [List.append_assoc, List.cons_append, List.nil_append]
      rw [checkMagic, h_bytes]
      change (if [b] ≠ [b] then _ else checkMagic m (c + 1) golden) = _
      rw [if_neg (not_not.mpr rfl)]
      refine ih (done ++ [b]) (c + 1) (by rw [h_eq, List.append_assoc]; rfl) ?_
      have h_length : (u ++ done ++ [b]).length = (u ++ done).length + 1 := List.length_append
      rw [hc, ← List.append_assoc, h_length]
      rfl
  exact h_magic [] (str "070701") c rfl (by rw [h.position, List.append_nil])

/-- The header takes 110 bytes. -/
theorem length_header (h : At m c e fields u v) :
    (str "070701" ++ fields.flatten).length = 110 := by
  rw [List.length_append, length_flatten h.numbers]
  rfl

theorem fileName_eq (h : At m c e fields u v) : fileName m c = .ok e.name := by
  have h_lt := h.lt
  have h_int : int (((e.name.length + 1 : ℕ) : ℤ) - 1) = .ok (e.name.length : ℤ) := by
    rw [int_of_fits ⟨by omega, by omega⟩]
    congr 1
    omega
  have h_bytes : bytes m (headerEnd c) e.name.length = .ok e.name := by
    refine bytes_append (u := u ++ (str "070701" ++ fields.flatten))
      (v := [0] ++ (zeros (110 + (e.name.length + 1)) ++ body e ++ v)) ?_ ?_ rfl
    · rw [h.file, head]
      simp only [List.append_assoc]
    · rw [headerEnd, h.position, List.length_append, length_header h]
      rfl
  rw [fileName, namesize_eq h]
  change (int _ >>= fun n => bytes m (headerEnd c) n) = _
  rw [h_int]
  exact h_bytes

/-! ### Offsets -/

theorem length_zeros (n : ℕ) : (zeros n).length = (4 - n % 4) % 4 :=
  List.length_replicate

theorem length_head (h : At m c e fields u v) : (head fields e).length
    = 110 + (e.name.length + 1) + (4 - (e.name.length + 1 + 2) % 4) % 4 := by
  rw [head, List.length_append, List.length_append, length_header h, length_zeros, List.length_append,
    List.length_singleton]
  omega

/-- Behind the name and its padding. -/
theorem contentsOffset_eq (h : At m c e fields u v) :
    contentsOffset m c = .ok (((head fields e).length : ℤ) - 110) := by
  have h_lt := h.lt
  have h_head := length_head h
  rw [contentsOffset_of_lt (namesize_eq h) (by omega) (by omega)]
  refine congrArg Except.ok ?_
  unfold ceil4
  omega

theorem contents_eq (h : At m c e fields u v) (h_sized : e.Sized) :
    contents m c = .ok e.content := by
  have h_bytes : bytes m (headerEnd c + ((head fields e).length - 110)) e.content.length
      = .ok e.content := by
    refine bytes_append (u := u ++ head fields e) (v := zeros e.content.length ++ v) ?_ ?_ rfl
    · rw [h.file, body]
      simp only [List.append_assoc]
    · rw [headerEnd, h.position, List.length_append]
      omega
  rw [contents, contentsOffset_eq h]
  change (filesize m c >>= fun n => bytes m _ n) = _
  rw [filesize_eq h h_sized]
  exact h_bytes

theorem contentsSize_eq (h : At m c e fields u v) (h_sized : e.Sized) :
    contentsSize m c = .ok (e.content.length : ℤ) := by
  rw [contentsSize, contentsOffset_eq h]
  exact filesize_eq h h_sized

theorem length_body (e : Entry) : (body e).length
    = e.content.length + (4 - e.content.length % 4) % 4 := by
  rw [body, List.length_append, length_zeros]

/-- **Each entry leads to the next.** -/
theorem next_eq (h : At m c e fields u v) (h_sized : e.Sized) :
    next m c = .ok ((u ++ (head fields e ++ body e)).length : ℤ) := by
  have h_head := length_head h
  have h_body := length_body e
  have h_lt := h_sized.content_lt
  refine (next_eq_ok_iff (namesize_eq h) (filesize_eq h h_sized) (by omega) ⟨by omega, by omega⟩).mpr
    ⟨h_sized, ?_⟩
  rw [h.position, List.length_append, List.length_append]
  unfold ceil4
  omega

/-! ### `LoadDirectory` -/

/-- What `FileName()` and `Contents()` are at a header. -/
def Reads (m : Str) (c : ℤ) (e : Entry) : Prop :=
  fileName m c = .ok e.name ∧ contents m c = .ok e.content

/-- The calls of `fs->add` that the entries with headers at `cs` ask for. -/
def addsOf (cs : List ℤ) (es : List Entry) : List (Str × ℤ) :=
  ((cs.zip es).filter fun p => p.2.isAdded).map fun p => (slash :: p.2.name, p.1)

theorem addsOf_cons (c : ℤ) (cs : List ℤ) (e : Entry) (es : List Entry) :
    addsOf (c :: cs) (e :: es) = addsOf [c] [e] ++ addsOf cs es := by
  unfold addsOf
  rw [← List.map_append, ← List.filter_append]
  rfl

/-- The assignments to `hardlink_map` that the entries with headers at `cs` ask for. -/
def linksOf (cs : List ℤ) (es : List Entry) : List (HardlinkKey × ℤ) :=
  ((cs.zip es).filter fun p => p.2.isLinked).map fun p => (p.2.key, p.1)

theorem linksOf_cons (c : ℤ) (cs : List ℤ) (e : Entry) (es : List Entry) :
    linksOf (c :: cs) (e :: es) = linksOf [c] [e] ++ linksOf cs es := by
  unfold linksOf
  rw [← List.map_append, ← List.filter_append]
  rfl

/-- The `switch` reads five more numbers, and none of them keeps it from the call of `add`. -/
theorem addFile_eq (h : At m c e fields u v) (h_sized : e.Sized) (h_added : e.isAdded = true) (loaded : Loaded) :
    addFile m c e.name loaded = .ok ⟨loaded.visited, loaded.adds ++ [(slash :: e.name, c)],
      loaded.hardlinks ++ linksOf [c] [e]⟩ := by
  rw [addFile, major, number_eq h (n := e.major) rfl, ok_bind, minor, number_eq h (n := e.minor) rfl,
    ok_bind, ino, number_eq h (n := e.ino) rfl, ok_bind, nlink, number_eq h (n := e.nlink) rfl, ok_bind,
    contentsSize_eq h h_sized, ok_bind]
  have h_size : (e.content.length : ℤ) ≠ 0 ↔ e.content ≠ [] := by
    rw [Ne, Ne, Nat.cast_eq_zero, List.length_eq_zero_iff]
  by_cases h_linked : 1 < toInt e.nlink ∧ (e.content.length : ℤ) ≠ 0
  · have h_links : linksOf [c] [e] = [(e.key, c)] := by
      simp [linksOf, Entry.isLinked, h_added, h_linked.1, h_size.mp h_linked.2]
    rw [if_pos h_linked, h_links]
    rfl
  · have h_links : linksOf [c] [e] = [] := by
      rw [h_size] at h_linked
      simpa [linksOf, Entry.isLinked, h_added] using h_linked
    rw [if_neg h_linked, h_links, List.append_nil]
    rfl

/-- The body of the loop. -/
theorem visit_eq (h : At m c e fields u v) (h_sized : e.Sized) (loaded : Loaded) :
    visit m c e.name loaded = .ok ⟨loaded.visited ++ [c], loaded.adds ++ addsOf [c] [e],
      loaded.hardlinks ++ linksOf [c] [e]⟩ := by
  obtain ⟨-, s, -, -, -, h_s⟩ := exists_field h.numbers (i := 1) rfl
  rw [visit, contentsSize_eq h h_sized, ok_bind, mode, number_eq h (n := e.mode) rfl, ok_bind,
    bits_toInt h_s.lt]
  by_cases h_added : isSupported e.mode = true
  · have h_adds : addsOf [c] [e] = [(slash :: e.name, c)] := by
      simp [addsOf, Entry.isAdded, h_added]
    rw [if_pos h_added, addFile_eq h h_sized h_added, h_adds]
  · have h_adds : addsOf [c] [e] = [] := by
      simp [addsOf, Entry.isAdded, h_added]
    have h_links : linksOf [c] [e] = [] := by
      simp [linksOf, Entry.isLinked, Entry.isAdded, h_added]
    rw [if_neg h_added, h_adds, h_links, List.append_nil, List.append_nil]
    rfl

/-- One round of the loop. -/
theorem load_step (h : At m c e fields u v) (h_ne : e.name ≠ str "TRAILER!!!") (h_sized : e.Sized) (n : ℕ)
    (loaded : Loaded) :
    load m (n + 1) c loaded = load m n ((u ++ (head fields e ++ body e)).length : ℕ)
      ⟨loaded.visited ++ [c], loaded.adds ++ addsOf [c] [e],
        loaded.hardlinks ++ linksOf [c] [e]⟩ := by
  rw [load, checkHeader_eq h, ok_bind, if_pos rfl, fileName_eq h, ok_bind, if_neg h_ne,
    visit_eq h h_sized, ok_bind, next_eq h h_sized, ok_bind]

/-- At the trailer the loop ends. -/
theorem load_trailer (h : At m c e fields u v) (h_name : e.name = str "TRAILER!!!") (n : ℕ)
    (loaded : Loaded) : load m (n + 1) c loaded = .ok (true, loaded) := by
  rw [load, checkHeader_eq h, ok_bind, if_pos rfl, fileName_eq h, ok_bind, if_pos h_name]
  rfl

/-- The header of `e` stands at `c`. -/
def Stands (m : Str) (c : ℤ) (e : Entry) : Prop :=
  ∃ fields u v, At m c e fields u v

/-- The loop from somewhere in an archive, by induction on the entries that are left. -/
theorem load_run {es : List Entry} {texts : List Str} (h_texts : List.Forall₂ Newc es texts)
    {trailer : Entry} {t : Str} (h_t : Newc trailer t) (h_name : trailer.name = str "TRAILER!!!")
    (rest : Str) : ∀ (u : Str) (n : ℕ) (loaded : Loaded), (∀ e ∈ es, e.name ≠ str "TRAILER!!!") →
      (∀ e ∈ es, e.Sized) → es.length < n → ∃ cs, load (u ++ (texts.flatten ++ (t ++ rest))) n u.length loaded
          = .ok (true, ⟨loaded.visited ++ cs, loaded.adds ++ addsOf cs es,
              loaded.hardlinks ++ linksOf cs es⟩)
        ∧ List.Forall₂ (Stands (u ++ (texts.flatten ++ (t ++ rest)))) cs es := by
  induction h_texts with
  | nil =>
    intro u n loaded _ _ hn
    -- only the trailer is left
    obtain ⟨fields, h_fields⟩ := h_t
    obtain ⟨n, rfl⟩ := Nat.exists_eq_succ_of_ne_zero (Nat.ne_of_gt hn)
    have h_at : At _ u.length trailer fields u rest :=
      ⟨h_fields, rfl, rfl, by rw [h_name]; decide⟩
    refine ⟨[], ?_, .nil⟩
    exact (load_trailer h_at h_name n loaded).trans (by simp [addsOf, linksOf])
  | @cons e text es texts h_text h_texts ih =>
    intro u n loaded h_ne h_sized hn
    obtain ⟨fields, h_fields⟩ := h_text
    obtain ⟨n, rfl⟩ := Nat.exists_eq_succ_of_ne_zero (Nat.ne_zero_of_lt hn)
    have h_e := h_sized e List.mem_cons_self
    have h_at : At (u ++ (((head fields e ++ body e) :: texts).flatten ++ (t ++ rest))) u.length e fields
        u (texts.flatten ++ (t ++ rest)) :=
      ⟨h_fields, rfl, by rw [List.flatten_cons, List.append_assoc], (Entry.sized_iff.mp h_e).1⟩
    -- the entries behind this one stand in the same file
    have h_file : u ++ (((head fields e ++ body e) :: texts).flatten ++ (t ++ rest))
        = (u ++ (head fields e ++ body e)) ++ (texts.flatten ++ (t ++ rest)) := by
      rw [h_at.file, List.append_assoc u]
    obtain ⟨cs, h_load, h_stands⟩ := ih (u ++ (head fields e ++ body e)) n
      ⟨loaded.visited ++ [(u.length : ℤ)], loaded.adds ++ addsOf [(u.length : ℤ)] [e],
        loaded.hardlinks ++ linksOf [(u.length : ℤ)] [e]⟩
      (fun e he => h_ne e (List.mem_cons_of_mem _ he)) (fun e he => h_sized e (List.mem_cons_of_mem _ he))
      (Nat.lt_of_succ_lt_succ hn)
    rw [← h_file] at h_load h_stands
    refine ⟨u.length :: cs, ?_, .cons ⟨fields, u, _, h_at⟩ h_stands⟩
    -- what the first entry adds comes before what the others do
    have h_visited : loaded.visited ++ (u.length : ℤ) :: cs
        = loaded.visited ++ [(u.length : ℤ)] ++ cs := by
      rw [List.append_assoc, List.singleton_append]
    rw [addsOf_cons, ← List.append_assoc loaded.adds, linksOf_cons,
      ← List.append_assoc loaded.hardlinks, h_visited]
    exact (load_step h_at (h_ne e List.mem_cons_self) h_e n loaded).trans h_load

/-- What stands there is read. -/
theorem Stands.reads (h : Stands m c e) (h_sized : e.Sized) : Reads m c e := by
  obtain ⟨fields, u, v, h_at⟩ := h
  exact ⟨fileName_eq h_at, contents_eq h_at h_sized⟩

/-- `LoadDirectory` on an archive. -/
theorem loadDirectory_stands {es : List Entry} (h_ne : ∀ e ∈ es, e.name ≠ str "TRAILER!!!")
    (h_sized : ∀ e ∈ es, e.Sized) {texts : List Str} (h_texts : List.Forall₂ Newc es texts)
    {trailer : Entry} (h_name : trailer.name = str "TRAILER!!!") {t : Str} (h_t : Newc trailer t)
    (rest : Str) {n : ℕ} (hn : es.length < n) :
    ∃ cs, loadDirectory (texts.flatten ++ t ++ rest) n = .ok (true, ⟨cs, addsOf cs es, linksOf cs es⟩)
      ∧ List.Forall₂ (Stands (texts.flatten ++ t ++ rest)) cs es := by
  obtain ⟨cs, h_load, h_stands⟩ := load_run h_texts h_t h_name rest [] n ⟨[], [], []⟩ h_ne h_sized hn
  rw [List.nil_append, ← List.append_assoc] at h_load h_stands
  exact ⟨cs, h_load, h_stands⟩

/-- A directory and a file with two names. -/
def twoEntries : List Entry :=
  [⟨str "dir", [], 1, 0x41ed, 0, 0, 2, 0, 8, 1, 0, 0, 0⟩,
    ⟨str "dir/a", str "text\n", 2, 0x81a4, 0, 0, 2, 0, 8, 1, 0, 0, 0⟩]

/-- The last entry. -/
def lastEntry : Entry :=
  ⟨str "TRAILER!!!", [], 0, 0, 0, 0, 1, 0, 0, 0, 0, 0, 0⟩

end GitlstreeFS.Cpio
