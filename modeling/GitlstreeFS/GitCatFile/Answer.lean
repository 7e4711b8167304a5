import GitlstreeFS.GitCatFile.Header
import GitlstreeFS.Numeral

/-!
# What `git cat-file --batch` answers

An `Answer` is what the server writes for one line. From any beginning of an answer that holds its
first line the header comes out right (`metadata_found`, `metadata_missing`), and from then on
`Request` waits for exactly the bytes that are still to come: what a read leaves unread says where the
automaton goes (`after_header`, `after_content`).
-/

namespace GitlstreeFS.GitCatFile

/-! ### Numbers -/

/-- A digit. -/
def digit (d : ℕ) : UInt8 :=
  UInt8.ofNat (Nat.digitChar d).toNat

/-- A number as `git` prints it. -/
def decimal (n : ℕ) : Str :=
  (Nat.toDigits 10 n).map fun c => UInt8.ofNat c.toNat

theorem decimal_of_lt {n : ℕ} (h : n < 10) : decimal n = [digit n] := by
  rw [decimal, Nat.toDigits_of_lt_base h]
  rfl

theorem decimal_of_le {n : ℕ} (h : 10 ≤ n) : decimal n = decimal (n / 10) ++ [digit (n % 10)] := by
  rw [decimal, Nat.toDigits_of_base_le (by omega) h, List.map_append]
  rfl

theorem digitValue_digit {d : ℕ} (h : d < 10) : digitValue (digit d) = some d := by
  have h_all : ∀ d : Fin 10, digitValue (digit d) = some d.val := by decide
  exact h_all ⟨d, h⟩

/-- What `git` prints is a numeral. -/
theorem numeral_decimal (n : ℕ) : Numeral 10 (decimal n) n := by
  induction n using Nat.strong_induction_on with
  | h n ih =>
    by_cases h_lt : n < 10
    · have h_digit := Numeral.concat .nil (digitValue_digit h_lt) h_lt
      rwa [Nat.zero_mul, Nat.zero_add, List.nil_append, ← decimal_of_lt h_lt] at h_digit
    · have h_mod : n % 10 < 10 := Nat.mod_lt _ (by omega)
      have h_digit := Numeral.concat (ih (n / 10) (by omega)) (digitValue_digit h_mod) h_mod
      rwa [Nat.div_add_mod', ← decimal_of_le (by omega)] at h_digit

theorem decimal_ne_nil (n : ℕ) : decimal n ≠ [] := by
  intro h_nil
  exact Nat.toDigits_ne_nil (List.map_eq_nil_iff.mp h_nil)

theorem ne_of_mem_decimal {n : ℕ} {b c : UInt8} (h : b ∈ decimal n) (hc : digitValue c = none) :
    b ≠ c := by
  rintro rfl
  obtain ⟨d, -, hd⟩ := (numeral_decimal n).mem h
  simp [hd] at hc

/-- `strtol` reads what `git` prints. -/
theorem strtol_decimal {n : ℕ} (h_lt : n < 0x8000000000000000) (s : Str) :
    strtol (decimal n ++ newline :: s) 10 = n := by
  have h_ends : EndsNumeral (newline :: s) := by
    intro b hb
    obtain rfl := Option.some.inj hb
    rfl
  exact strtol_numeral (w := []) (numeral_decimal n) (decimal_ne_nil n) h_lt
    (fun b hb => absurd hb List.not_mem_nil) h_ends

/-! ### Lines -/

variable {s : Str}

theorem isField_decimal (n : ℕ) : IsField (decimal n) :=
  ⟨fun h => ne_of_mem_decimal h rfl rfl, fun h => ne_of_mem_decimal h rfl rfl⟩

/-- What begins like a line, and holds a newline, begins with the line. -/
theorem exists_of_newline_mem {line rest tail : Str} (h_line : newline ∉ line)
    (h : s ++ rest = line ++ newline :: tail) (h_mem : newline ∈ s) :
    ∃ t, s = line ++ newline :: t ∧ t ++ rest = tail := by
  induction line generalizing s with
  | nil =>
    cases s with
    | nil => simp at h_mem
    | cons b s =>
      obtain ⟨rfl, h_tail⟩ := List.cons.inj h
      exact ⟨s, rfl, h_tail⟩
  | cons b line ih =>
    have h_b : newline ≠ b := List.ne_of_not_mem_cons h_line
    have h_more : newline ∉ line := List.not_mem_of_not_mem_cons h_line
    cases s with
    | nil => simp at h_mem
    | cons b' s =>
      obtain ⟨rfl, h_tail⟩ := List.cons.inj h
      obtain h_eq | h_mem := List.mem_cons.mp h_mem
      · exact absurd h_eq h_b
      · obtain ⟨t, rfl, h_t⟩ := ih h_more h_tail h_mem
        exact ⟨t, rfl, h_t⟩

/-! ### Answers -/

/-- What the server says about an object. -/
inductive Answer where
  | found (oid type content : Str)
  | missing (ref : Str)

namespace Answer

/-- The first line, without its newline. -/
def line : Answer → Str
  | found oid type content => oid ++ space :: (type ++ space :: decimal content.length)
  | missing ref => ref ++ space :: str "missing"

/-- What follows the first line. -/
def rest : Answer → Str
  | found _ _ content => content ++ [newline]
  | missing _ => []

/-- What is written to the pipe. -/
def bytes (a : Answer) : Str :=
  a.line ++ newline :: a.rest

/-- `a` is an answer to the line `ref`. An object has less than `2 ^ 31 - 4200` bytes. -/
def Answers (ref : Str) : Answer → Prop
  | found oid type content =>
    IsField oid ∧ type ∈ [str "blob", str "tree", str "commit", str "tag"] ∧
      content.length < 2147479448
  | missing ref' => ref' = ref

/-- The header of an answer. -/
def metadata : Answer → Metadata
  | found oid type content =>
    ⟨(found oid type content).line.length + 1, content.length, oid, type⟩
  | missing ref => ⟨(missing ref).line.length + 1, -1, ref, str "missing"⟩

/-- What a `Request` makes of an answer. -/
def outcome : Answer → Outcome
  | found _ _ content => .returned content
  | missing _ => .notFound

variable {a : Answer} {ref : Str}

theorem isField_type {type : Str} (h : type ∈ [str "blob", str "tree", str "commit", str "tag"]) :
    IsField type ∧ type ≠ str "missing" := by
  simp only [List.mem_cons, List.not_mem_nil, or_false] at h
  obtain rfl | rfl | rfl | rfl := h
  all_goals exact ⟨⟨by decide, by decide⟩, by decide⟩

theorem newline_notMem_line (h : a.Answers ref) (h_ref : IsField ref) : newline ∉ a.line := by
  have h_sep : newline ≠ space := by decide
  cases a with
  | found oid type content =>
    obtain ⟨h_oid, h_type, -⟩ := h
    simp [line, h_sep, h_oid.2, (isField_type h_type).1.2, (isField_decimal content.length).2]
  | missing ref' =>
    obtain rfl : ref' = ref := h
    have h_missing : newline ∉ str "missing" := by decide
    simp [line, h_sep, h_ref.2, h_missing]

/-- The header of an object, with what happened to come with it. -/
theorem metadata_found {oid type content : Str} (h_oid : IsField oid) (h_type : IsField type)
    (h_content : content.length < 0x80000000)
    (h_line : (found oid type content).line.length < maxHeaderSize) (t : Str) :
    GitCatFile.metadata ((found oid type content).line ++ newline :: t)
      = .ok (found oid type content).metadata := by
  have h_length : (found oid type content).line.length
      = oid.length + 1 + type.length + 1 + (decimal content.length).length := by
    simp [line]
    omega
  have h_atoi : atoi (decimal content.length ++ newline :: t) = .ok (content.length : ℤ) := by
    have h_fits : Fits (content.length : ℤ) := ⟨by omega, by omega⟩
    rw [atoi, strtol_decimal (by omega), if_pos h_fits]
  have h_toInt : toInt ((found oid type content).line.length + 1)
      = (found oid type content).line.length + 1 := by
    unfold maxHeaderSize at h_line
    exact toInt_of_fits ⟨by omega, by omega⟩
  have h_header : (found oid type content).line ++ newline :: t
      = oid ++ space :: (type ++ space :: (decimal content.length ++ newline :: t)) := by
    simp [line]
  rw [h_header, metadata_sized h_oid h_type (isField_decimal content.length).2, h_atoi, ← h_length,
    h_toInt]
  rfl

/-- The header of an answer without an object. -/
theorem metadata_missing (h_ref : IsField ref) (h_line : (missing ref).line.length < maxHeaderSize) :
    GitCatFile.metadata ((missing ref).line ++ [newline]) = .ok (missing ref).metadata := by
  have h_missing : IsField (str "missing") := ⟨by decide, by decide⟩
  have h_length : (missing ref).line.length = ref.length + 1 + (str "missing").length := by
    simp [line]
    omega
  have h_toInt : toInt ((missing ref).line.length + 1) = (missing ref).line.length + 1 := by
    unfold maxHeaderSize at h_line
    exact toInt_of_fits ⟨by omega, by omega⟩
  have h_header : (missing ref).line ++ [newline]
      = ref ++ space :: (str "missing" ++ newline :: []) := by
    simp [line]
  rw [h_header, metadata_unsized h_ref h_missing, ← h_length, h_toInt]
  rfl

/-! ### Reading an answer -/

/-- The state of a `Request` when `rest` is what is unread of the answer. It may have ended the
process, since the header has come in pieces. -/
inductive After (a : Answer) : Str → State → Prop
  | aborted {rest : Str} : After a rest (.ended .aborted)
  | ended : After a [] (.ended a.outcome)
  | content {response rest : Str} (h_rest : rest ≠ []) (h_bytes : response ++ rest = a.bytes)
      (h_line : a.line.length < response.length) (h_header : a.line.length < maxHeaderSize) :
      After a rest (.content a.metadata response rest.length)

/-- A `Request` that reads on is in the loop. -/
theorem After.eq_content {rest : Str} {st : State} {n : ℕ} (h : After a rest st)
    (h_asked : st.asked = some n) : ∃ response, st = .content a.metadata response n := by
  cases h with
  | aborted => simp [State.asked] at h_asked
  | ended => simp [State.asked] at h_asked
  | content => exact ⟨_, congrArg _ (Option.some.inj h_asked)⟩

theorem length_bytes (a : Answer) : a.bytes.length = a.line.length + 1 + a.rest.length := by
  simp [bytes]
  omega

/-- Once the first line is there, the loop waits for exactly what is unread. -/
theorem after_loop {oid type content response rest : Str}
    (h : (found oid type content).Answers ref)
    (h_bytes : response ++ rest = (found oid type content).bytes)
    (h_line : (found oid type content).line.length < response.length)
    (h_header : (found oid type content).line.length < maxHeaderSize) :
    After (found oid type content) rest (loop (found oid type content).metadata response) := by
  obtain ⟨-, -, h_content⟩ := h
  set a := found oid type content with h_a
  have h_size : a.metadata.size = content.length := rfl
  have h_first : a.metadata.firstLineSize = a.line.length + 1 := rfl
  have h_length : response.length + rest.length = a.line.length + 1 + (content.length + 1) := by
    have h_rest : a.rest.length = content.length + 1 := by simp [h_a, Answer.rest]
    rw [← List.length_append, h_bytes, length_bytes, h_rest]
  unfold maxHeaderSize at h_header
  -- the sum that the loop computes, which an `int` has
  have h_wanted : wanted a.metadata = some ((content.length : ℤ) + (a.line.length + 1) + 1) := by
    rw [wanted, h_size, h_first, if_pos ⟨⟨by omega, by omega⟩, by omega, by omega⟩]
  have h_remaining : toInt ((content.length : ℤ) + (a.line.length + 1) + 1 - response.length)
      = rest.length := by
    have h_eq : (content.length : ℤ) + (a.line.length + 1) + 1 - response.length = rest.length := by
      omega
    rw [h_eq]
    exact toInt_of_fits ⟨by omega, by omega⟩
  have h_loop : loop a.metadata response = if 0 < (rest.length : ℤ)
      then .content a.metadata response rest.length else .ended (finish a.metadata response) := by
    rw [loop, h_wanted]
    change (if 0 < toInt _ then State.content _ _ (toInt _).toNat else _) = _
    rw [h_remaining, Int.toNat_natCast]
  rw [h_loop]
  by_cases h_rest : rest = []
  · subst h_rest
    rw [if_neg (by simp)]
    rw [List.append_nil] at h_bytes
    -- all is there: the line, the content and the newline behind it
    have h_split : response = (a.line ++ [newline]) ++ (content ++ [newline]) := by
      simp [h_bytes, h_a, bytes, Answer.rest]
    have h_last : response.getLast? = some newline := by
      rw [h_split, ← List.append_assoc]
      exact List.getLast?_concat
    have h_drop : response.drop (a.line.length + 1) = content ++ [newline] := by
      rw [h_split]
      exact List.drop_left' (by simp)
    have h_finish : finish a.metadata response = a.outcome := by
      have h_toNat : a.metadata.firstLineSize.toNat = a.line.length + 1 := by omega
      rw [finish, if_pos h_last, h_toNat, h_size, substr, if_pos (by omega), h_drop]
      exact congrArg Outcome.returned (List.take_left' (by omega))
    rw [h_finish]
    exact .ended
  · have h_pos : 0 < rest.length := List.length_pos_iff.mpr h_rest
    rw [if_pos (by omega)]
    exact .content h_rest h_bytes h_line (by unfold maxHeaderSize; omega)

/-- **The first read.** -/
theorem after_header {s rest : Str} (h : a.Answers ref) (h_ref : IsField ref)
    (h_bytes : s ++ rest = a.bytes) (h_length : s.length ≤ maxHeaderSize) :
    After a rest (receiveHeader s) := by
  by_cases h_mem : newline ∈ s
  · -- the first line is there, so that the header is that of the answer
    obtain ⟨t, rfl, h_tail⟩ := exists_of_newline_mem (newline_notMem_line h h_ref) h_bytes h_mem
    have h_line : a.line.length < (a.line ++ newline :: t).length := by
      simp
    have h_header : a.line.length < maxHeaderSize := by omega
    cases a with
    | found oid type content =>
      have h_ty := isField_type h.2.1
      have h_content := h.2.2
      rw [receiveHeader, metadata_found h.1 h_ty.1 (by omega) h_header]
      change After _ _ (if type = str "missing" then _ else _)
      rw [if_neg h_ty.2]
      exact after_loop h h_bytes h_line h_header
    | missing ref' =>
      obtain rfl : ref' = ref := h
      obtain ⟨rfl, rfl⟩ := List.append_eq_nil_iff.mp h_tail
      rw [receiveHeader, metadata_missing h_ref h_header]
      exact .ended
  · rw [receiveHeader, metadata_of_newline_notMem h_mem]
    exact .aborted

/-- **A read in the loop.** -/
theorem after_content {m : Metadata} {response s rest : Str} {n : ℕ} (h : a.Answers ref)
    (h_after : After a (s ++ rest) (.content m response n)) :
    After a rest (State.receive (.content m response n) s) := by
  generalize h_unread : s ++ rest = unread at h_after
  cases h_after with
  | content h_rest h_bytes h_line h_header =>
    subst h_unread
    cases a with
    | found oid type content =>
      have h_bytes' : (response ++ s) ++ rest = (found oid type content).bytes := by
        rw [List.append_assoc, h_bytes]
      have h_line' : (found oid type content).line.length < (response ++ s).length := by
        rw [List.length_append]
        omega
      have h_loop := after_loop h h_bytes' h_line' h_header
      exact h_loop
    | missing ref' =>
      -- nothing follows the first line, so there is no second read
      have h_length := congrArg List.length h_bytes
      have h_pos := List.length_pos_iff.mpr h_rest
      rw [List.length_append, length_bytes] at h_length
      simp only [Answer.rest, List.length_nil] at h_length
      omega

end Answer

/-! ### Lines of two fields -/

/-- A `Request` ends without a content: it throws, or the process is ended. -/
def State.Refuses (st : State) : Prop :=
  ∃ o, st = .ended o ∧ ∀ content, o ≠ .returned content

/-- An answer without a size. -/
def unsizedLine (ref word : Str) : Str :=
  ref ++ space :: (word ++ [newline])

/-- **What `Request` makes of a line of two fields.** A size of `-1` makes the line itself as long as
what is wanted, so that nothing more is read, and what follows the line is empty. -/
theorem receive_unsizedLine {ref word : Str} (h_ref : IsField ref) (h_word : IsField word)
    (h_length : (unsizedLine ref word).length ≤ maxHeaderSize) :
    State.receive .header (unsizedLine ref word)
      = .ended (if word = str "missing" then .notFound else .returned []) := by
  set n := ref.length + 1 + word.length with h_n
  have h_line : (unsizedLine ref word).length = n + 1 := by
    simp [unsizedLine, h_n]
    omega
  have h_le : n + 1 ≤ 4096 := h_line ▸ h_length
  have h_toInt : toInt ((n : ℤ) + 1) = n + 1 :=
    toInt_of_fits ⟨by omega, by omega⟩
  have h_metadata : metadata (unsizedLine ref word) = .ok ⟨n + 1, -1, ref, word⟩ := by
    rw [unsizedLine, metadata_unsized h_ref h_word, h_toInt]
  -- the size of -1 and the newline that is asked for cancel out
  have h_wanted : wanted ⟨n + 1, -1, ref, word⟩ = some ((n : ℤ) + 1) := by
    have h_size : (-1 : ℤ) + (n + 1) = n := by omega
    change (if Fits (-1 + ((n : ℤ) + 1)) ∧ Fits (-1 + ((n : ℤ) + 1) + 1) then _ else _) = _
    rw [h_size, if_pos ⟨⟨by omega, by omega⟩, by omega, by omega⟩]
  have h_last : (unsizedLine ref word).getLast? = some newline := by
    rw [unsizedLine, ← List.cons_append, ← List.append_assoc]
    exact List.getLast?_concat
  -- `substr` takes a length of -1 for all that is left, and nothing is
  have h_finish : finish ⟨n + 1, -1, ref, word⟩ (unsizedLine ref word) = .returned [] := by
    have h_size : ¬ (0 : ℤ) ≤ -1 := by decide
    rw [finish, if_pos h_last, substr, if_neg h_size]
    have h_drop : (unsizedLine ref word).drop ((n : ℤ) + 1).toNat = [] :=
      List.drop_eq_nil_of_le (by omega)
    rw [h_drop]
  have h_loop : loop ⟨n + 1, -1, ref, word⟩ (unsizedLine ref word) = .ended (.returned []) := by
    have h_remaining : toInt ((n : ℤ) + 1 - (unsizedLine ref word).length) = 0 := by
      have h_zero : (n : ℤ) + 1 - (unsizedLine ref word).length = 0 := by omega
      rw [h_zero]
      rfl
    rw [loop, h_wanted]
    change (if 0 < toInt _ then _ else State.ended _) = _
    rw [h_remaining, if_neg (lt_irrefl 0), h_finish]
  change receiveHeader _ = _
  rw [receiveHeader, h_metadata]
  change (if word = str "missing" then _ else loop _ _) = _
  rw [h_loop]
  split <;> rfl

/-- **Only `missing` is refused.** -/
theorem refuses_unsizedLine_iff {ref word : Str} (h_ref : IsField ref) (h_word : IsField word)
    (h_length : (unsizedLine ref word).length ≤ maxHeaderSize) :
    (State.receive .header (unsizedLine ref word)).Refuses ↔ word = str "missing" := by
  rw [receive_unsizedLine h_ref h_word h_length]
  constructor
  · rintro ⟨o, h_ended, h_o⟩
    by_contra h_missing
    rw [if_neg h_missing] at h_ended
    exact h_o [] (State.ended.inj h_ended).symm
  · rintro rfl
    refine ⟨.notFound, by rw [if_pos rfl], fun content h => ?_⟩
    cases h

/-- The line of an object that does not exist. -/
theorem refuses_unsizedLine_missing :
    (State.receive .header (unsizedLine (str "deadbeef") (str "missing"))).Refuses :=
  (refuses_unsizedLine_iff ⟨by decide, by decide⟩ ⟨by decide, by decide⟩ (by decide)).mpr rfl

/-- The line of a short name that several objects have is answered with an empty content. -/
theorem not_refuses_unsizedLine :
    ¬ ∀ ref word : Str, IsField ref → IsField word →
      (unsizedLine ref word).length ≤ maxHeaderSize →
        (State.receive .header (unsizedLine ref word)).Refuses := by
  intro h
  have h_refuses := h (str "de") (str "ambiguous") ⟨by decide, by decide⟩ ⟨by decide, by decide⟩
    (by decide)
  rw [receive_unsizedLine ⟨by decide, by decide⟩ ⟨by decide, by decide⟩ (by decide),
    if_neg (by decide)] at h_refuses
  obtain ⟨o, h_ended, h_o⟩ := h_refuses
  exact h_o [] (State.ended.inj h_ended).symm

end GitlstreeFS.GitCatFile
