import GitlstreeFS.GitCatFile.Session

/-!
# Whether a `Request` finishes

A `Stream` is what the process ever writes to the pipe, with the way in which it is split into reads.
Each read delivers at least one byte of what is left; at the end of the stream it returns 0 or fails,
now and whenever it is called again.

The first read settles what becomes of the `Request` (`finishes_iff`). Without a whole first line the
assertions end the process. With one, the loop waits for a number of bytes that is known from then on
(`after_first`), and if the stream ends before, it never ends: at the end of the stream a read makes no
progress (`not_finishes_of_lt`).
-/

namespace GitlstreeFS.GitCatFile

/-! ### Streams -/

structure Stream where
  bytes : Str
  /-- How many bytes more than one the `k`-th read delivers, if they are asked for and there. -/
  split : ℕ → ℕ
  /-- Whether the `k`-th read fails at the end of the stream. -/
  error : ℕ → Bool

namespace Stream

/-- The `k`-th read, of at most `n` bytes of `rest`. -/
def result (s : Stream) (k : ℕ) (rest : Str) (n : ℕ) : Option Str :=
  if rest = [] then
    if s.error k then none else some []
  else some (rest.take (min (s.split k + 1) n))

/-- The `Request` after `k` reads, and what is unread then. -/
def after (s : Stream) : ℕ → State × Str
  | 0 => (.header, s.bytes)
  | k + 1 =>
    match (s.after k).1.asked with
    | none => s.after k
    | some n =>
      let piece := read (s.result k (s.after k).2 n)
      ((s.after k).1.receive piece, (s.after k).2.drop piece.length)

/-- The `Request` ends after finitely many reads, by returning or throwing. To a complete answer it
returns or throws what the answer says. -/
def Finishes (s : Stream) : Prop :=
  ∃ k o, (s.after k).1 = .ended o ∧ o.Leaves ∧
    ∀ (ref : Str) (a : Answer), IsField ref → a.Answers ref → s.bytes = a.bytes → o = a.outcome

/-- What the first read delivers. -/
def first (s : Stream) : Str :=
  s.bytes.take (min (s.split 0 + 1) maxHeaderSize)

variable {s : Stream} {k : ℕ}

theorem read_result (s : Stream) (k : ℕ) (rest : Str) (n : ℕ) :
    read (s.result k rest n) = rest.take (min (s.split k + 1) n) := by
  unfold result
  split_ifs with h_rest h_error
  · rw [h_rest, List.take_nil]
    rfl
  · rw [h_rest, List.take_nil]
    rfl
  · rfl

theorem after_of_asked {n : ℕ} (h : (s.after k).1.asked = some n) :
    s.after (k + 1) = ((s.after k).1.receive ((s.after k).2.take (min (s.split k + 1) n)),
      (s.after k).2.drop ((s.after k).2.take (min (s.split k + 1) n)).length) := by
  rw [after, h]
  change (State.receive _ (read _), List.drop (read _).length _) = _
  rw [read_result]

theorem after_of_not_asked (h : (s.after k).1.asked = none) : s.after (k + 1) = s.after k := by
  rw [after, h]

theorem after_one (s : Stream) :
    s.after 1 = (receiveHeader s.first, s.bytes.drop s.first.length) :=
  after_of_asked (k := 0) rfl

theorem after_one_fst (s : Stream) : (s.after 1).1 = receiveHeader s.first :=
  congrArg Prod.fst s.after_one

/-- What has ended stays as it is. -/
theorem after_ended {o : Outcome} (h : (s.after k).1 = .ended o) (j : ℕ) :
    s.after (k + j) = s.after k := by
  induction j with
  | zero => rfl
  | succ j ih =>
    have h_asked : (s.after (k + j)).1.asked = none := by
      rw [ih, h]
      rfl
    rw [← Nat.add_assoc, after_of_not_asked h_asked, ih]

theorem take_append_drop_length (s : Str) (n : ℕ) : s.take n ++ s.drop (s.take n).length = s :=
  (List.prefix_iff_eq_append.mp (List.take_prefix n s))

/-! ### Complete answers -/

/-- A `Request` that ends on a complete answer ends as the answer says. -/
theorem eq_outcome {ref : Str} {a : Answer} {o : Outcome} (h_ref : IsField ref)
    (h_answer : a.Answers ref) (h_bytes : s.bytes = a.bytes) (h : (s.after k).1 = .ended o)
    (h_leaves : o.Leaves) : o = a.outcome := by
  have h_after : ∀ j, a.After (s.after (j + 1)).2 (s.after (j + 1)).1 := by
    intro j
    induction j with
    | zero =>
      rw [after_one]
      refine Answer.after_header h_answer h_ref ?_ ?_
      · rw [← h_bytes, first, take_append_drop_length]
      · rw [first, List.length_take]
        omega
    | succ j ih =>
      cases h_asked : (s.after (j + 1)).1.asked with
      | none => rwa [after_of_not_asked h_asked]
      | some n =>
        obtain ⟨response, h_state⟩ := ih.eq_content h_asked
        rw [after_of_asked h_asked]
        rw [h_state] at ih ⊢
        exact Answer.after_content h_answer (by rwa [take_append_drop_length])
  have h_last := h_after k
  have h_same : s.after (k + 1) = s.after k := after_ended h 1
  rw [h_same, h] at h_last
  generalize (s.after k).2 = rest at h_last
  cases h_last with
  | aborted => exact h_leaves.elim
  | ended => rfl

/-- All that matters is that it ends, and not by an assertion. -/
theorem finishes_of_leaves {o : Outcome} (h : (s.after k).1 = .ended o) (h_leaves : o.Leaves) :
    s.Finishes :=
  ⟨k, o, h, h_leaves, fun _ _ h_ref h_answer h_bytes => eq_outcome h_ref h_answer h_bytes h h_leaves⟩

/-! ### The loop -/

/-- The bytes that the loop waits for when it holds `response`, for a wanted size. -/
def owed (size : ℤ) (response : Str) : ℕ :=
  (toInt (size - response.length)).toNat

theorem toInt_sub {n : ℤ} {p : ℕ} (h : (p : ℤ) ≤ toInt n) : toInt (n - p) = toInt n - p := by
  have h_lt : toInt n < ((0x100000000 : ℕ) + 1) / 2 := Int.bmod_lt (by omega)
  have h_le : -(((0x100000000 : ℕ) / 2 : ℤ)) ≤ toInt n := Int.le_bmod (by omega)
  have h_sub : toInt (n - p) = (toInt n - p).bmod 0x100000000 := Int.bmod_sub_bmod.symm
  rw [h_sub]
  exact Int.bmod_eq_of_le (by omega) (by omega)

/-- The end of what the loop waits for does not move. -/
theorem length_add_owed_append {size : ℤ} {response piece : Str} (h_le : piece.length ≤ owed size response) :
    (response ++ piece).length + owed size (response ++ piece)
      = response.length + owed size response := by
  by_cases h_nil : piece = []
  · rw [h_nil, List.append_nil]
  · have h_pos := List.length_pos_iff.mpr h_nil
    unfold owed at h_le ⊢
    have h_cast : size - ((response ++ piece).length : ℤ) = size - response.length - piece.length := by
      rw [List.length_append]
      omega
    rw [h_cast, toInt_sub (by omega), List.length_append]
    omega

variable {m : Metadata} {size : ℤ}

theorem loop_of_owed (h_wanted : wanted m = some size) {response : Str}
    (h : 0 < owed size response) : loop m response = .content m response (owed size response) := by
  unfold owed at h
  rw [loop, h_wanted]
  change (if 0 < toInt (size - response.length) then _ else _) = _
  rw [if_pos (by omega)]
  rfl

theorem loop_of_not_owed (h_wanted : wanted m = some size) {response : Str}
    (h : owed size response = 0) : loop m response = .ended (finish m response) := by
  unfold owed at h
  rw [loop, h_wanted]
  change (if 0 < toInt (size - response.length) then _ else _) = _
  rw [if_neg (by omega)]

/-- Where the loop is: what it holds and what is unread are the stream, the end of what it waits for
is where it was after the first read, and as long as there is something to read it has come further. -/
structure InLoop (s : Stream) (m : Metadata) (size : ℤ) (k : ℕ) (response rest : Str) : Prop where
  state : s.after (k + 1) = (loop m response, rest)
  bytes : response ++ rest = s.bytes
  total : response.length + owed size response = s.first.length + owed size s.first
  progress : k ≤ response.length ∨ owed size response = 0 ∨ rest = []

/-- A read in the loop. -/
theorem InLoop.next {response rest : Str} (h_wanted : wanted m = some size)
    (h : s.InLoop m size k response rest) : ∃ response rest, s.InLoop m size (k + 1) response rest := by
  by_cases h_owed : owed size response = 0
  · -- nothing more is read
    refine ⟨response, rest, ?_, h.bytes, h.total, .inr (.inl h_owed)⟩
    rw [after_of_not_asked, h.state]
    rw [h.state, loop_of_not_owed h_wanted h_owed]
    rfl
  · have h_loop := loop_of_owed h_wanted (Nat.pos_of_ne_zero h_owed)
    have h_asked : (s.after (k + 1)).1.asked = some (owed size response) := by
      rw [h.state, h_loop]
      rfl
    have h_next := after_of_asked h_asked
    rw [h.state] at h_next
    set piece := rest.take (min (s.split (k + 1) + 1) (owed size response)) with h_piece
    have h_length : piece.length ≤ owed size response := by
      rw [h_piece, List.length_take]
      omega
    refine ⟨response ++ piece, rest.drop piece.length, ?_, ?_, ?_, ?_⟩
    · rw [h_next, h_loop]
      rfl
    · rw [List.append_assoc, h_piece, take_append_drop_length, h.bytes]
    · rw [length_add_owed_append h_length, h.total]
    · by_cases h_rest : rest = []
      · right; right
        rw [h_rest, List.drop_nil]
      · left
        have h_pos := List.length_pos_iff.mpr h_rest
        obtain h_k | h_zero | h_nil := h.progress
        · rw [List.length_append, h_piece, List.length_take]
          omega
        · exact absurd h_zero h_owed
        · exact absurd h_nil h_rest

/-- **The loop after any number of reads.** -/
theorem after_first (h_header : receiveHeader s.first = loop m s.first)
    (h_wanted : wanted m = some size) (k : ℕ) : ∃ response rest, s.InLoop m size k response rest := by
  induction k with
  | zero =>
    refine ⟨s.first, s.bytes.drop s.first.length, ?_, ?_, rfl, .inl (Nat.zero_le _)⟩
    · rw [after_one, h_header]
    · rw [first, take_append_drop_length]
  | succ k ih =>
    obtain ⟨response, rest, h⟩ := ih
    exact h.next h_wanted

/-- **The stream is too short.** The loop never ends. -/
theorem not_finishes_of_lt (h_header : receiveHeader s.first = loop m s.first)
    (h_wanted : wanted m = some size) (h_lt : s.bytes.length < s.first.length + owed size s.first) :
    ¬ s.Finishes := by
  rintro ⟨k, o, h_ended, -, -⟩
  have h_same : s.after (k + 1) = s.after k := after_ended h_ended 1
  obtain ⟨response, rest, h⟩ := after_first h_header h_wanted k
  have h_length : response.length + rest.length = s.bytes.length := by
    rw [← List.length_append, h.bytes]
  have h_total := h.total
  rw [← h_same, h.state, loop_of_owed h_wanted (by omega)] at h_ended
  cases h_ended

/-- The stream is long enough: the loop ends with what it has waited for. -/
theorem exists_after_eq_finish (h_header : receiveHeader s.first = loop m s.first)
    (h_wanted : wanted m = some size) (h_le : s.first.length + owed size s.first ≤ s.bytes.length) :
    ∃ k, (s.after k).1
      = .ended (finish m (s.bytes.take (s.first.length + owed size s.first))) := by
  obtain ⟨response, rest, h⟩ := after_first h_header h_wanted (s.bytes.length + 1)
  have h_length : response.length + rest.length = s.bytes.length := by
    rw [← List.length_append, h.bytes]
  have h_total := h.total
  have h_owed : owed size response = 0 := by
    obtain h_progress | h_zero | h_nil := h.progress
    · omega
    · exact h_zero
    · rw [h_nil, List.length_nil] at h_length
      omega
  refine ⟨s.bytes.length + 1 + 1, ?_⟩
  have h_response : s.bytes.take (s.first.length + owed size s.first) = response := by
    rw [← h.bytes]
    exact List.take_left' (by omega)
  rw [h.state, loop_of_not_owed h_wanted h_owed, h_response]

theorem finish_leaves_iff (m : Metadata) (response : Str) :
    (finish m response).Leaves ↔ response.getLast? = some newline := by
  unfold finish
  split_ifs with h_last
  · simp [Outcome.Leaves, h_last]
  · simp [Outcome.Leaves, h_last]

/-- What ends at the first read does not end in another way later. -/
theorem finishes_iff_leaves {o : Outcome} (h : (s.after k).1 = .ended o) : s.Finishes ↔ o.Leaves := by
  refine ⟨?_, finishes_of_leaves h⟩
  rintro ⟨j, o', h_ended, h_leaves, -⟩
  have h_same : s.after (k + j) = s.after k := after_ended h j
  have h_same' : s.after (j + k) = s.after j := after_ended h_ended k
  rw [Nat.add_comm, h_same'] at h_same
  rw [h_same, h] at h_ended
  obtain rfl := State.ended.inj h_ended
  exact h_leaves

/-- The loop ends well if and only if there is a newline where it waits for one. -/
theorem finishes_iff_of_loop (h_header : receiveHeader s.first = loop m s.first)
    (h_wanted : wanted m = some size) (h_first : s.first ≠ []) :
    s.Finishes ↔ s.bytes[s.first.length + owed size s.first - 1]? = some newline := by
  have h_pos := List.length_pos_iff.mpr h_first
  by_cases h_le : s.first.length + owed size s.first ≤ s.bytes.length
  · obtain ⟨k, h_ended⟩ := exists_after_eq_finish h_header h_wanted h_le
    rw [finishes_iff_leaves h_ended, finish_leaves_iff, List.getLast?_take, if_neg (by omega)]
    have h_lt : s.first.length + owed size s.first - 1 < s.bytes.length := by omega
    rw [List.getElem?_eq_getElem h_lt, Option.some_or]
  · have h_none : s.bytes[s.first.length + owed size s.first - 1]? = none :=
      List.getElem?_eq_none (by omega)
    rw [h_none]
    simp [not_finishes_of_lt h_header h_wanted (by omega)]

/-! ### When a `Request` finishes -/

/-- The stream goes as far as its header says: to the newline behind the content. Where the first read
has delivered more than that, its last byte is taken for that newline. -/
def Suffices (s : Stream) (m : Metadata) : Prop :=
  m.type = str "missing" ∨ ∃ size, wanted m = some size ∧
    s.bytes[s.first.length + owed size s.first - 1]? = some newline

/-- The header is accepted. -/
theorem finishes_iff_suffices (h : Heads s.first m) : s.Finishes ↔ s.Suffices m := by
  have h_header : receiveHeader s.first
      = if m.type = str "missing" then .ended .notFound else loop m s.first := by
    rw [receiveHeader, metadata_eq_ok_iff.mpr h]
  by_cases h_missing : m.type = str "missing"
  · rw [if_pos h_missing] at h_header
    rw [finishes_iff_leaves (s.after_one_fst.trans h_header)]
    exact iff_of_true trivial (.inl h_missing)
  · rw [if_neg h_missing] at h_header
    cases h_wanted : wanted m with
    | none =>
      -- the size overflows
      have h_loop : loop m s.first = .ended .undefined := by
        rw [loop, h_wanted]
      rw [finishes_iff_leaves (s.after_one_fst.trans (h_header.trans h_loop))]
      refine iff_of_false id ?_
      rintro (h_type | ⟨size, h_size, -⟩)
      · exact h_missing h_type
      · rw [h_wanted] at h_size
        cases h_size
    | some size =>
      rw [finishes_iff_of_loop h_header h_wanted h.ne_nil]
      constructor
      · intro h_newline
        exact .inr ⟨size, h_wanted, h_newline⟩
      · rintro (h_type | ⟨size', h_size, h_newline⟩)
        · exact absurd h_type h_missing
        · obtain rfl := Option.some.inj (h_wanted.symm.trans h_size)
          exact h_newline

/-- The header is not accepted. -/
theorem not_finishes_of_not_heads (h : ∀ m, ¬ Heads s.first m) : ¬ s.Finishes := by
  have h_error : ∀ o : Outcome, ¬ o.Leaves → metadata s.first = .error o → ¬ s.Finishes := by
    intro o h_leaves h_metadata
    have h_ended : (s.after 1).1 = .ended o := by
      rw [after_one_fst, receiveHeader, h_metadata]
    rwa [finishes_iff_leaves h_ended]
  obtain ⟨m, -, h_heads⟩ | h_aborted | h_undefined := metadata_cases s.first
  · exact absurd h_heads (h m)
  · exact h_error .aborted id h_aborted
  · exact h_error .undefined id h_undefined

/-- **When a `Request` finishes.** The first read delivers a whole first line, and either it says that
the object is missing, or the stream goes as far as it says. -/
theorem finishes_iff (s : Stream) : s.Finishes ↔ ∃ m, Heads s.first m ∧ s.Suffices m := by
  constructor
  · intro h
    by_contra h_none
    by_cases h_heads : ∃ m, Heads s.first m
    · obtain ⟨m, h_m⟩ := h_heads
      exact h_none ⟨m, h_m, (finishes_iff_suffices h_m).mp h⟩
    · exact not_finishes_of_not_heads (not_exists.mp h_heads) h
  · rintro ⟨m, h_m, h⟩
    exact (finishes_iff_suffices h_m).mpr h

/-- A complete answer whose first line comes in two reads ends the process, and so does not finish the
`Request`; one that is cut off makes it read for ever. -/
theorem not_finishes_of_split_or_cut :
    ¬ Finishes ⟨(Answer.found (str "5c7b") (str "blob") (str "x")).bytes, fun _ => 3, fun _ => false⟩ ∧
      ¬ Finishes ⟨str "5c7b blob 3\nx", fun _ => 4095, fun _ => false⟩ := by
  constructor
  · refine not_finishes_of_not_heads fun m h_heads => ?_
    have h_aborted : metadata (Stream.first
        ⟨(Answer.found (str "5c7b") (str "blob") (str "x")).bytes, fun _ => 3, fun _ => false⟩)
        = .error .aborted := metadata_of_newline_notMem (by decide +kernel)
    rw [metadata_eq_ok_iff.mpr h_heads] at h_aborted
    cases h_aborted
  · have h_header : receiveHeader (str "5c7b blob 3\nx")
        = loop ⟨12, 3, str "5c7b", str "blob"⟩ (str "5c7b blob 3\nx") := by
      decide +kernel
    have h_wanted : wanted ⟨12, 3, str "5c7b", str "blob"⟩ = some 16 := by
      decide
    exact not_finishes_of_lt h_header h_wanted (by decide +kernel)

end Stream

end GitlstreeFS.GitCatFile
