import Mathlib.Algebra.Order.Ring.Int
import Mathlib.Data.Int.Notation
import Mathlib.Data.List.TakeDrop
import Mathlib.Data.Nat.Notation
import Mathlib.Tactic.Common

/-!
# Reading through buffers

A caller with a buffer gets a sequence in pieces: it reads on at the offset that it has come to, until there
is nothing left. A reader that returns at each offset what is there (`Serves`) gives the sequence, once
and in its order, whatever the sizes of the buffers are (`Serves.readOn_from`).

A terminated string in a buffer is a prefix of what should be there with a zero behind it (`Terminated`).
What is written from the beginning of the buffer on leaves such a string in two cases, by whether the zero is
written behind the whole of the string, or stood within the part of it that fits.
-/

namespace GitlstreeFS.Buffer

/-! ### Reading on -/

/-- Something to read from. `read s size offset` is the number that is returned and what is written to the
buffer, with the state behind it; `none` is a read that does not return. -/
structure Reader (α : Type) where
  State : Type
  read : State → ℕ → ℕ → Option ((ℤ × List α) × State)

variable {α : Type}

/-- Read on, with buffers of these sizes, until zero is returned: what has been read, and whether zero has
been returned. A negative number is a failure. -/
def Reader.readOn (R : Reader α) : List ℕ → R.State → ℕ → Option (List α × Bool)
  | [], _, _ => some ([], false)
  | size :: sizes, s, offset =>
    match R.read s size offset with
    | none => none
    | some ((n, written), s') =>
      if n < 0 then none
      else if n = 0 then some ([], true)
      else (R.readOn sizes s' (offset + n.toNat)).map fun r => (written ++ r.1, r.2)

/-- One step of it. -/
theorem Reader.readOn_cons {R : Reader α} {s s' : R.State} {size offset : ℕ} {n : ℤ} {written : List α}
    (h : R.read s size offset = some ((n, written), s')) (sizes : List ℕ) :
    R.readOn (size :: sizes) s offset = if n < 0 then none else if n = 0 then some ([], true)
      else (R.readOn sizes s' (offset + n.toNat)).map fun r => (written ++ r.1, r.2) := by
  rw [Reader.readOn, h]

/-- The number of elements of the sequence from an offset on, up to a size. -/
def count (c : List α) (size offset : ℕ) : ℕ :=
  min size (c.length - offset)

/-- In the states of `I`, a read returns the number of elements that there are, and has written these. The
sizes and the offsets are below some bounds. -/
def Serves (R : Reader α) (I : R.State → Prop) (c : List α) (maxSize maxOffset : ℕ) : Prop :=
  ∀ s, I s → ∀ size < maxSize, ∀ offset < maxOffset, ∃ s', I s' ∧
    R.read s size offset
      = some (((count c size offset : ℤ), (c.drop offset).take (count c size offset)), s')

/-- A piece of the sequence, and what comes behind it. -/
theorem take_add_eq (c : List α) (size offset n : ℕ) :
    (c.drop offset).take (size + n)
      = (c.drop offset).take (count c size offset) ++ (c.drop (offset + count c size offset)).take n := by
  rcases Nat.le_total size (c.length - offset) with h_size | h_size
  · rw [count, Nat.min_eq_left h_size, List.take_add, List.drop_drop]
  · -- the piece goes to the end
    have h_length : (c.drop offset).length = c.length - offset := List.length_drop
    have h_behind : c.drop (offset + (c.length - offset)) = [] := List.drop_of_length_le (by omega)
    rw [count, Nat.min_eq_right h_size, h_behind, List.take_nil, List.append_nil,
      List.take_of_length_le (by omega), List.take_of_length_le (by omega)]

/-- The same, at the offsets of `P` only. -/
def ServesAt (R : Reader α) (I : R.State → Prop) (c : List α) (P : ℕ → Prop) (maxSize maxOffset : ℕ) : Prop :=
  ∀ s, I s → ∀ size < maxSize, ∀ offset < maxOffset, P offset → ∃ s', I s' ∧
    R.read s size offset
      = some (((count c size offset : ℤ), (c.drop offset).take (count c size offset)), s')

section Serves

variable {R : Reader α} {I : R.State → Prop} {c : List α} {P : ℕ → Prop} {maxSize maxOffset : ℕ} {s : R.State}

/-- **The pieces are those of the sequence**: what has been read is as much of it as the buffers hold. Zero
is returned at the end only, and at the latest when there were more reads than elements. -/
theorem ServesAt.readOn_from (h : ServesAt R I c P maxSize maxOffset) (h_length : c.length < maxOffset)
    {sizes : List ℕ} (h_sizes : ∀ n ∈ sizes, 0 < n ∧ n < maxSize)
    (h_next : ∀ n ∈ sizes, ∀ offset, P offset → P (offset + count c n offset)) (h_s : I s) {offset : ℕ}
    (h_offset : offset ≤ c.length) (h_P : P offset) :
    ∃ ended, R.readOn sizes s offset = some ((c.drop offset).take sizes.sum, ended)
      ∧ (ended = true → c.length ≤ offset + sizes.sum)
      ∧ (c.length < offset + sizes.length → ended = true) := by
  induction sizes generalizing s offset with
  | nil => exact ⟨false, by simp [Reader.readOn], by simp, by simp; omega⟩
  | cons size sizes ih =>
    obtain ⟨h_pos, h_lt⟩ := h_sizes size List.mem_cons_self
    obtain ⟨s', h_s', h_read⟩ := h s h_s size h_lt offset (by omega) h_P
    have h_rest := fun n hn => h_sizes n (List.mem_cons_of_mem _ hn)
    rw [Reader.readOn_cons h_read, if_neg (by omega), List.sum_cons, List.length_cons]
    by_cases h_end : offset = c.length
    · -- nothing is left
      subst h_end
      have h_zero : count c size c.length = 0 := by simp [count]
      rw [h_zero, if_pos Nat.cast_zero, List.drop_length, List.take_nil]
      exact ⟨true, rfl, fun _ => Nat.le_add_right _ _, fun _ => rfl⟩
    · have h_count : 0 < count c size offset := by
        unfold count
        omega
      have h_next_le : offset + count c size offset ≤ c.length := by
        unfold count
        omega
      rw [if_neg (by omega), Int.toNat_natCast]
      obtain ⟨ended, h_on, h_ended, h_many⟩ := ih h_rest (fun n hn => h_next n (List.mem_cons_of_mem _ hn)) h_s'
        h_next_le (h_next size List.mem_cons_self offset h_P)
      rw [h_on]
      refine ⟨ended, ?_, fun h_true => ?_, fun h_more => h_many (by omega)⟩
      · rw [take_add_eq]
        rfl
      · have h_le := h_ended h_true
        unfold count at h_le
        omega

/-- A reader that serves at each offset gives the pieces for buffers of any sizes. -/
theorem Serves.readOn_from (h : Serves R I c maxSize maxOffset) (h_length : c.length < maxOffset)
    {sizes : List ℕ} (h_sizes : ∀ n ∈ sizes, 0 < n ∧ n < maxSize) (h_s : I s) {offset : ℕ}
    (h_offset : offset ≤ c.length) :
    ∃ ended, R.readOn sizes s offset = some ((c.drop offset).take sizes.sum, ended)
      ∧ (ended = true → c.length ≤ offset + sizes.sum)
      ∧ (c.length < offset + sizes.length → ended = true) := by
  have h_at : ServesAt R I c (fun _ => True) maxSize maxOffset :=
    fun s h_s size h_size offset h_offset _ => h s h_s size h_size offset h_offset
  exact h_at.readOn_from h_length h_sizes (fun _ _ _ _ => trivial) h_s h_offset trivial

/-- An offset that a reader of whole blocks comes to: the beginning of a block, or the end. -/
def AtBlock (c : List α) (bs offset : ℕ) : Prop :=
  bs ∣ offset ∨ c.length ≤ offset

/-- **Reading whole blocks.** If a reader serves at the beginning of each block and at the end, reading on with
buffers of whole blocks gives the sequence. -/
theorem ServesAt.readOn_blocks {bs : ℕ} (h : ServesAt R I c (AtBlock c bs) maxSize maxOffset)
    (h_length : c.length < maxOffset) {sizes : List ℕ} (h_sizes : ∀ n ∈ sizes, 0 < n ∧ n < maxSize ∧ bs ∣ n)
    (h_s : I s) :
    ∃ ended, R.readOn sizes s 0 = some (c.take sizes.sum, ended) ∧ (ended = true → c.length ≤ sizes.sum)
      ∧ (c.length < sizes.length → ended = true) := by
  have h_next : ∀ n ∈ sizes, ∀ offset, AtBlock c bs offset → AtBlock c bs (offset + count c n offset) := by
    intro n hn offset h_at
    obtain h_dvd | h_end := h_at
    · rcases Nat.le_total n (c.length - offset) with h_le | h_le
      · rw [count, Nat.min_eq_left h_le]
        exact .inl (Nat.dvd_add h_dvd (h_sizes n hn).2.2)
      · -- the piece goes to the end
        rw [count, Nat.min_eq_right h_le]
        exact .inr (by omega)
    · exact .inr (Nat.le_add_right_of_le h_end)
  have h_run := h.readOn_from h_length (fun n hn => ⟨(h_sizes n hn).1, (h_sizes n hn).2.1⟩) h_next h_s
    (Nat.zero_le _) (.inl (Nat.dvd_zero _))
  simp only [List.drop_zero, Nat.zero_add] at h_run
  exact h_run

/-- What it is to read as a sequence: each single read gives what is there, and reading on from the
beginning gives all of it. -/
structure ReadsAs (R : Reader α) (s : R.State) (c : List α) (maxSize maxOffset : ℕ) : Prop where
  once : ∀ size < maxSize, ∀ offset < maxOffset, ∃ s',
    R.read s size offset
      = some (((count c size offset : ℤ), (c.drop offset).take (count c size offset)), s')
  /-- If zero has been returned, all has been read; and it is, if there are enough reads. -/
  on : ∀ sizes : List ℕ, (∀ n ∈ sizes, 0 < n ∧ n < maxSize) →
    ∃ data ended, R.readOn sizes s 0 = some (data, ended) ∧ data = c.take sizes.sum
      ∧ (ended = true → data = c) ∧ (c.length < sizes.length → ended = true)

/-- **Reading on gives the sequence.** -/
theorem Serves.readsAs (h : Serves R I c maxSize maxOffset) (h_length : c.length < maxOffset) (h_s : I s) :
    ReadsAs R s c maxSize maxOffset := by
  constructor
  · intro size h_size offset h_offset
    obtain ⟨s', -, h_read⟩ := h s h_s size h_size offset h_offset
    exact ⟨s', h_read⟩
  · intro sizes h_sizes
    obtain ⟨ended, h_on, h_ended, h_many⟩ := h.readOn_from h_length h_sizes h_s (Nat.zero_le _)
    rw [List.drop_zero] at h_on
    rw [Nat.zero_add] at h_ended h_many
    exact ⟨_, ended, h_on, rfl, fun h_true => List.take_of_length_le (h_ended h_true), h_many⟩

end Serves

/-! ### Terminated strings -/

/-- A buffer, and what is behind it, once something has been written from its beginning on. -/
def overlay (written : List α) (target : ℕ → α) (i : ℕ) : α :=
  written[i]?.getD (target i)

/-- A string as it is written to a buffer of this size: with a zero behind it, if this fits. -/
def putString [OfNat α 0] (source : List α) (size : ℕ) : List α :=
  if source.length < size then source ++ [0] else source.take size

section Terminated

variable [OfNat α 0] {source content written : List α} {size : ℕ}

/-- In the buffer is a prefix of the content, with a zero behind it; it is the whole content, if this is
shorter than the buffer. -/
def Terminated (target : ℕ → α) (size : ℕ) (content : List α) : Prop :=
  ∃ k < size, target k = 0 ∧ (∀ i < k, content[i]? = some (target i))
    ∧ (content.length < size → k = content.length)

/-- Nothing is written outside of the buffer, and behind it the buffer holds a terminated string, whatever it
held before. -/
def WritesTerminated (written : List α) (size : ℕ) (content : List α) : Prop :=
  written.length ≤ size ∧ ∀ target, Terminated (overlay written target) size content

omit [OfNat α 0] in
theorem overlay_of_getElem? {i : ℕ} {a : α} (h : written[i]? = some a) (target : ℕ → α) :
    overlay written target i = a := by
  rw [overlay, h]
  rfl

omit [OfNat α 0] in
/-- Up to an index, all is as it is in a list. -/
theorem agree_iff_take_eq {k : ℕ} {target : ℕ → α}
    (h_target : ∀ i < k, source[i]? = some (target i)) :
    (∀ i < k, content[i]? = some (target i)) ↔ source.take k = content.take k := by
  constructor
  · intro h
    refine List.ext_getElem? fun i => ?_
    by_cases hi : i < k
    · rw [List.getElem?_take_of_lt hi, List.getElem?_take_of_lt hi, h_target i hi, h i hi]
    · rw [List.getElem?_take_eq_none (Nat.le_of_not_lt hi), List.getElem?_take_eq_none (Nat.le_of_not_lt hi)]
  · intro h i hi
    rw [← List.getElem?_take_of_lt hi, ← h, List.getElem?_take_of_lt hi, h_target i hi]

/-- **Where the zero fits**, it is the right string that has to be written. -/
theorem writesTerminated_of_lt (h_length : source.length = content.length) (h_lt : content.length < size) :
    WritesTerminated (putString source size) size content ↔ source = content := by
  have h_put : putString source size = source ++ [0] := if_pos (by omega)
  have h_before : ∀ i < source.length, ∀ target : ℕ → α,
      source[i]? = some (overlay (source ++ [0]) target i) := by
    intro i hi target
    have h_at : (source ++ [0])[i]? = some source[i] := by
      rw [List.getElem?_append_left hi, List.getElem?_eq_getElem hi]
    rw [overlay_of_getElem? h_at, List.getElem?_eq_getElem hi]
  rw [h_put]
  constructor
  · rintro ⟨-, h⟩
    obtain ⟨k, -, -, h_agree, h_whole⟩ := h fun _ => 0
    obtain rfl : k = source.length := (h_whole h_lt).trans h_length.symm
    have h_take := (agree_iff_take_eq fun i hi => h_before i hi _).mp h_agree
    rwa [List.take_length, h_length, List.take_length] at h_take
  · rintro rfl
    refine ⟨by simpa [Nat.succ_le_iff] using h_lt, fun target => ⟨source.length, h_lt, ?_, ?_, fun _ => rfl⟩⟩
    · exact overlay_of_getElem? (by simp) target
    · exact fun i hi => h_before i hi target

/-- **Where it does not fit**, the buffer is filled, and a zero has to stand in it behind a prefix of the
content. -/
theorem writesTerminated_of_le (h_length : source.length = content.length) (h_le : size ≤ content.length) :
    WritesTerminated (putString source size) size content
      ↔ ∃ k < size, source[k]? = some 0 ∧ source.take k = content.take k := by
  have h_put : putString source size = source.take size := if_neg (by omega)
  have h_before : ∀ i < size, ∀ target : ℕ → α,
      source[i]? = some (overlay (source.take size) target i) := by
    intro i hi target
    have h_lt : i < source.length := by omega
    have h_at : (source.take size)[i]? = some source[i] := by
      rw [List.getElem?_take_of_lt hi, List.getElem?_eq_getElem h_lt]
    rw [overlay_of_getElem? h_at, List.getElem?_eq_getElem h_lt]
  rw [h_put]
  constructor
  · rintro ⟨-, h⟩
    obtain ⟨k, hk, h_zero, h_agree, -⟩ := h fun _ => 0
    refine ⟨k, hk, ?_, ?_⟩
    · rw [h_before k hk, h_zero]
    · exact (agree_iff_take_eq fun i hi => h_before i (Nat.lt_trans hi hk) _).mp h_agree
  · rintro ⟨k, hk, h_zero, h_take⟩
    refine ⟨List.length_take_le _ _, fun target => ⟨k, hk, ?_, ?_, fun h_lt => by omega⟩⟩
    · exact Option.some.inj ((h_before k hk target).symm.trans h_zero)
    · exact (agree_iff_take_eq fun i hi => h_before i (Nat.lt_trans hi hk) _).mpr h_take

/-- **A string without zeros** is written as it should be just if it is shorter than the buffer. -/
theorem writesTerminated_iff (h_zero : 0 ∉ content) :
    WritesTerminated (putString content size) size content ↔ content.length < size := by
  constructor
  · intro h
    by_contra h_le
    obtain ⟨k, -, h_at, -⟩ := (writesTerminated_of_le rfl (Nat.le_of_not_lt h_le)).mp h
    exact h_zero (List.mem_of_getElem? h_at)
  · intro h_lt
    exact (writesTerminated_of_lt rfl h_lt).mpr rfl

end Terminated

end GitlstreeFS.Buffer
