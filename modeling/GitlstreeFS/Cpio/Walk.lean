import GitlstreeFS.Cpio.Model
import Mathlib.Logic.Relation

/-!
# The walk over a file of any content

`LoadDirectory` follows lengths that it takes from the file. What stands at a header is read with
`strtol` and narrowed to an `int32_t`, so that a length may be negative; the offsets are sums of `int`s.

`load_cases` says what the loop can do at a header: it ends, there or with a fault, or it goes to the next
(`Goes`), which `next_eq_ok_iff` puts where the two lengths say, each rounded up to a multiple of four. So
the pointer grows just if they are not too negative, and this is all that the loop needs to end
(`terminates_iff`).
-/

namespace GitlstreeFS.Cpio

open Relation

/-! ### Offsets -/

/-- The multiple of four that is not below `n`. -/
def ceil4 (n : ℤ) : ℤ :=
  n + -n % 4

/-- The offsets of a header with these lengths are `int`s. -/
structure Offsets (n f : ℤ) : Prop where
  name : n + 2 < 0x80000000
  content : ceil4 (n + 2) + f < 0x80000000

/-- And they lead on: the header has 110 bytes. -/
structure Advances (n f : ℤ) : Prop extends Offsets n f where
  forward : -108 < ceil4 (n + 2) + ceil4 f

variable {m s name : Str} {c c' n f : ℤ} {i : ℕ} {e : Fault} {loaded : Loaded}

theorem int_of_fits (h : Fits n) : int n = .ok n :=
  if_pos h

theorem int_of_not_fits (h : ¬ Fits n) : int n = .error .overflow :=
  if_neg h

theorem padding_of_fits (h : Fits (n + 2)) : padding n = .ok (ceil4 (n + 2) - (n + 2)) := by
  rw [padding, int_of_fits h, ok_bind]
  refine congrArg Except.ok ?_
  have h_outer {k : ℤ} (hk : 0 ≤ k) : k.tmod 4 = k % 4 := Int.tmod_eq_emod_of_nonneg hk
  rw [ceil4]
  obtain h_nonneg | h_neg := Int.le_total 0 (n + 2)
  · rw [h_outer h_nonneg, h_outer (by omega)]
    omega
  · -- the remainder of a negative number is not positive
    have h_inner : (n + 2).tmod 4 = -(-(n + 2) % 4) := by
      rw [← h_outer (by omega), Int.neg_tmod, neg_neg]
    rw [h_inner, h_outer (by omega)]
    omega

theorem contentsOffset_of_lt (h_n : namesize m c = .ok n) (h_pos : 1 ≤ n) (h : n + 2 < 0x80000000) :
    contentsOffset m c = .ok (ceil4 (n + 2) - 2) := by
  have h_add : n + (ceil4 (n + 2) - (n + 2)) = ceil4 (n + 2) - 2 := by
    omega
  have h_fits : Fits (ceil4 (n + 2) - 2) := by
    unfold Fits ceil4
    omega
  rw [contentsOffset, h_n, ok_bind, padding_of_fits ⟨by omega, h⟩, ok_bind, h_add, int_of_fits h_fits]

theorem contentsOffset_of_le (h_n : namesize m c = .ok n) (h : 0x80000000 ≤ n + 2) :
    contentsOffset m c = .error .overflow := by
  have h_not : ¬ Fits (n + 2) := fun h_fits => absurd h_fits.2 (by omega)
  rw [contentsOffset, h_n, ok_bind, padding, int_of_not_fits h_not]
  rfl

/-- `EndOffset` rounds up twice. -/
theorem endOffset_of_offsets (h_n : namesize m c = .ok n) (h_f : filesize m c = .ok f) (h_pos : 1 ≤ n)
    (h_fits : Fits f) (h : Offsets n f) : endOffset m c = .ok (ceil4 (n + 2) + ceil4 f - 2) := by
  have h_content := h.content
  have h_sum : Fits (ceil4 (n + 2) - 2 + f) := by
    unfold Fits ceil4 at *
    omega
  have h_sum' : Fits (ceil4 (n + 2) - 2 + f + 2) := by
    unfold Fits ceil4 at *
    omega
  have h_ceil : ceil4 (n + 2) - 2 + f + (ceil4 (ceil4 (n + 2) - 2 + f + 2) - (ceil4 (n + 2) - 2 + f + 2))
      = ceil4 (n + 2) + ceil4 f - 2 := by
    unfold ceil4
    omega
  have h_end : Fits (ceil4 (n + 2) + ceil4 f - 2) := by
    unfold Fits ceil4 at *
    omega
  rw [endOffset, contentsOffset_of_lt h_n h_pos h.name, ok_bind, h_f, ok_bind, int_of_fits h_sum, ok_bind,
    padding_of_fits h_sum', ok_bind, h_ceil, int_of_fits h_end]

theorem endOffset_of_not_offsets (h_n : namesize m c = .ok n) (h_f : filesize m c = .ok f) (h_pos : 1 ≤ n)
    (h_name : n + 2 < 0x80000000) (h : ¬ Offsets n f) : endOffset m c = .error .overflow := by
  have h_content : ¬ ceil4 (n + 2) + f < 0x80000000 := fun h_lt => h ⟨h_name, h_lt⟩
  rw [endOffset, contentsOffset_of_lt h_n h_pos h_name, ok_bind, h_f, ok_bind]
  by_cases h_sum : Fits (ceil4 (n + 2) - 2 + f)
  · have h_not : ¬ Fits (ceil4 (n + 2) - 2 + f + 2) := fun h_fits => h_content (by have := h_fits.2; omega)
    rw [int_of_fits h_sum, ok_bind, padding, int_of_not_fits h_not]
    rfl
  · rw [int_of_not_fits h_sum]
    rfl

/-! ### Headers -/

theorem bytes_of_mapped (h : 0 ≤ c ∧ 0 ≤ n ∧ c + n ≤ m.length) : ∃ s, bytes m c n = .ok s :=
  ⟨_, if_pos h⟩

theorem mapped_of_bytes (h : bytes m c n = .ok s) : 0 ≤ c ∧ 0 ≤ n ∧ c + n ≤ m.length := by
  by_contra h_not
  rw [bytes, if_neg h_not] at h
  cases h

theorem error_of_bytes (h : bytes m c n = .error e) : e = .unmapped := by
  rw [bytes] at h
  split at h
  · cases h
  · exact (Except.error.inj h).symm

/-- A number of a header that is part of the file. -/
theorem exists_number (h_nonneg : 0 ≤ c) (h_le : c + 110 ≤ m.length) (h_i : i < 13) :
    ∃ x, number m c i = .ok x ∧ Fits x := by
  obtain ⟨s, h_s⟩ := bytes_of_mapped (m := m) (c := c + 6 + 8 * i) (n := 8) ⟨by omega, by omega, by omega⟩
  exact ⟨_, by rw [number, h_s, ok_bind]; rfl, fits_toInt _⟩

theorem fits_of_number (h : number m c i = .ok n) : Fits n := by
  obtain ⟨s, -, h_s⟩ := bind_eq_ok_iff.mp h
  obtain rfl := Except.ok.inj h_s
  exact fits_toInt _

/-- The magic matches, and the name can be read. -/
structure IsHeader (m : Str) (c : ℤ) (name : Str) : Prop where
  check : checkHeader m c = .ok true
  name : fileName m c = .ok name

theorem nonneg_of_check (h : checkHeader m c = .ok true) : 0 ≤ c := by
  obtain ⟨s, h_s, -⟩ := bind_eq_ok_iff.mp h
  exact (mapped_of_bytes h_s).1

/-- So the header and its name are part of the file. -/
theorem IsHeader.spec (h : IsHeader m c name) : 0 ≤ c ∧ ∃ n f, namesize m c = .ok n ∧ filesize m c = .ok f ∧
    Fits n ∧ Fits f ∧ 1 ≤ n ∧ c + 109 + n ≤ m.length := by
  have h_nonneg := nonneg_of_check h.check
  obtain ⟨n, h_n, h_name⟩ := bind_eq_ok_iff.mp h.name
  obtain ⟨k, h_k, h_bytes⟩ := bind_eq_ok_iff.mp h_name
  have h_fits := fits_of_number h_n
  have h_k' : k = n - 1 := by
    rw [int] at h_k
    split at h_k
    · exact (Except.ok.inj h_k).symm
    · cases h_k
  obtain ⟨-, h_pos, h_le⟩ := mapped_of_bytes h_bytes
  rw [headerEnd] at h_le
  obtain ⟨f, h_f, h_fits'⟩ := exists_number (m := m) (c := c) (i := 6) h_nonneg (by omega) (by decide)
  exact ⟨h_nonneg, n, f, h_n, h_f, h_fits, h_fits', by omega, by omega⟩

/-- **Where the next header is.** -/
theorem next_eq_ok_iff (h_n : namesize m c = .ok n) (h_f : filesize m c = .ok f) (h_pos : 1 ≤ n)
    (h_fits : Fits f) : next m c = .ok c' ↔ Offsets n f ∧ c' = c + 108 + ceil4 (n + 2) + ceil4 f := by
  rw [next]
  by_cases h : Offsets n f
  · rw [endOffset_of_offsets h_n h_f h_pos h_fits h, ok_bind, and_iff_right h, headerEnd]
    constructor
    · intro h_eq
      have h_c' := Except.ok.inj h_eq
      omega
    · rintro rfl
      exact congrArg Except.ok (by omega)
  · refine iff_of_false (fun h_eq => ?_) fun h_both => h h_both.1
    obtain ⟨k, h_k, -⟩ := bind_eq_ok_iff.mp h_eq
    by_cases h_name : n + 2 < 0x80000000
    · rw [endOffset_of_not_offsets h_n h_f h_pos h_name h] at h_k
      cases h_k
    · rw [endOffset, contentsOffset_of_le h_n (not_lt.mp h_name)] at h_k
      cases h_k

/-! ### The loop -/

/-- The trailer. -/
def trailer : Str :=
  str "TRAILER!!!"

/-- The loop goes on with the next header. -/
def Goes (m : Str) (c c' : ℤ) : Prop :=
  ∃ name, IsHeader m c name ∧ name ≠ trailer ∧ next m c = .ok c'

/-- The headers that the loop comes to. -/
def Reached (m : Str) (c : ℤ) : Prop :=
  ReflTransGen (Goes m) 0 c

/-- The body of the loop reads the header. -/
theorem exists_visit (h : IsHeader m c name) {o : ℤ} (h_o : contentsOffset m c = .ok o) (loaded : Loaded) :
    ∃ loaded', visit m c name loaded = .ok loaded' := by
  obtain ⟨h_nonneg, n, f, -, h_f, -, -, h_pos, h_le⟩ := h.spec
  have h_number {i : ℕ} (h_i : i < 13) : ∃ x, number m c i = .ok x ∧ Fits x :=
    exists_number h_nonneg (by omega) h_i
  obtain ⟨ino', h_ino, -⟩ := h_number (i := 0) (by decide)
  obtain ⟨mode', h_mode, -⟩ := h_number (i := 1) (by decide)
  obtain ⟨nlink', h_nlink, -⟩ := h_number (i := 4) (by decide)
  obtain ⟨major', h_major, -⟩ := h_number (i := 7) (by decide)
  obtain ⟨minor', h_minor, -⟩ := h_number (i := 8) (by decide)
  have h_size : contentsSize m c = .ok f := by
    rw [contentsSize, h_o]
    exact h_f
  rw [visit, h_size, ok_bind, mode, h_mode, ok_bind]
  split
  · rw [addFile, major, h_major, ok_bind, minor, h_minor, ok_bind, ino, h_ino, ok_bind, nlink, h_nlink,
      ok_bind, h_size, ok_bind]
    split
    · exact ⟨_, rfl⟩
    · exact ⟨_, rfl⟩
  · exact ⟨_, rfl⟩

theorem error_of_checkMagic {golden : Str} (h : checkMagic m c golden = .error e) : e = .unmapped := by
  induction golden generalizing c with
  | nil => cases h
  | cons b golden ih =>
    obtain h_s | ⟨s, -, h⟩ := bind_eq_error_iff.mp h
    · exact error_of_bytes h_s
    · split at h
      · cases h
      · exact ih h

theorem error_of_int (h : int n = .error e) : e = .overflow := by
  rw [int] at h
  split at h
  · cases h
  · exact (Except.error.inj h).symm

theorem error_of_number (h : number m c i = .error e) : e = .unmapped := by
  obtain h_s | ⟨s, -, h⟩ := bind_eq_error_iff.mp h
  · exact error_of_bytes h_s
  · cases h

theorem error_of_fileName (h : fileName m c = .error e) : e ≠ .endless := by
  obtain h_n | ⟨n, -, h⟩ := bind_eq_error_iff.mp h
  · rw [error_of_number h_n]
    decide
  · obtain h_k | ⟨k, -, h⟩ := bind_eq_error_iff.mp h
    · rw [error_of_int h_k]
      decide
    · rw [error_of_bytes h]
      decide

/-- The loop comes to a header that is not there, or whose name is not, or whose offsets are no `int`s. -/
def Fails (m : Str) (c : ℤ) : Prop :=
  ∃ e, e ≠ .endless ∧ ∀ k loaded, load m (k + 1) c loaded = .error e

/-- At a header that is not the trailer the body is run. -/
theorem load_header (h : IsHeader m c name) (h_ne : name ≠ trailer) (k : ℕ) (loaded : Loaded) :
    load m (k + 1) c loaded
      = visit m c name loaded >>= fun loaded => next m c >>= fun c' => load m k c' loaded := by
  have h_other : ¬ name = str "TRAILER!!!" := h_ne
  rw [load, h.check, ok_bind, if_pos rfl, h.name, ok_bind, if_neg h_other]

/-- And so it is if there is a next one. -/
theorem exists_visit_of_next (h : IsHeader m c name) (h_next : next m c = .ok c') (loaded : Loaded) :
    ∃ loaded', visit m c name loaded = .ok loaded' := by
  obtain ⟨-, n, f, h_n, h_f, -, h_fits, h_pos, -⟩ := h.spec
  have h_offsets := ((next_eq_ok_iff h_n h_f h_pos h_fits).mp h_next).1
  exact exists_visit h (contentsOffset_of_lt h_n h_pos h_offsets.name) loaded

/-- At the trailer the loop ends. -/
theorem load_at_trailer (h : IsHeader m c trailer) (k : ℕ) (loaded : Loaded) :
    load m (k + 1) c loaded = .ok (true, loaded) := by
  rw [load, h.check, ok_bind, if_pos rfl, h.name, ok_bind]
  rfl

theorem fails_of_not_offsets (h : IsHeader m c name) (h_ne : name ≠ trailer) (h_n : namesize m c = .ok n)
    (h_f : filesize m c = .ok f) (h_pos : 1 ≤ n) (h_not : ¬ Offsets n f) : Fails m c := by
  refine ⟨.overflow, by decide, fun k loaded => ?_⟩
  rw [load_header h h_ne]
  by_cases h_name : n + 2 < 0x80000000
  · -- the name is printed, and `EndOffset` is not an `int`
    obtain ⟨loaded', h_visit⟩ := exists_visit h (contentsOffset_of_lt h_n h_pos h_name) loaded
    rw [h_visit, ok_bind, next, endOffset_of_not_offsets h_n h_f h_pos h_name h_not]
    rfl
  · rw [visit, contentsSize, contentsOffset_of_le h_n (not_lt.mp h_name)]
    rfl

/-- **What the loop does at a header.** -/
theorem load_cases (m : Str) (c : ℤ) :
    Fails m c ∨
    (checkHeader m c = .ok false ∧ ∀ k loaded, load m (k + 1) c loaded = .ok (false, loaded)) ∨
    (IsHeader m c trailer ∧ ∀ k loaded, load m (k + 1) c loaded = .ok (true, loaded)) ∨
    ∃ name c', IsHeader m c name ∧ name ≠ trailer ∧ next m c = .ok c' ∧
      ∀ loaded, ∃ loaded', visit m c name loaded = .ok loaded' ∧
        ∀ k, load m (k + 1) c loaded = load m k c' loaded' := by
  cases h_check : checkHeader m c with
  | error e =>
    -- the magic number cannot be read
    refine .inl ⟨e, ?_, fun k loaded => by rw [load, h_check]; rfl⟩
    rw [error_of_checkMagic h_check]
    decide
  | ok found =>
    cases found with
    -- no magic number: `break`
    | false => exact .inr (.inl ⟨rfl, fun k loaded => by rw [load, h_check]; rfl⟩)
    | true =>
      cases h_name : fileName m c with
      | error e =>
        -- the name cannot be read
        refine .inl ⟨e, error_of_fileName h_name, fun k loaded => ?_⟩
        rw [load, h_check, ok_bind, if_pos rfl, h_name]
        rfl
      | ok name =>
        have h : IsHeader m c name := ⟨h_check, h_name⟩
        by_cases h_trailer : name = trailer
        · subst h_trailer
          refine .inr (.inr (.inl ⟨h, fun k loaded => ?_⟩))
          rw [load, h_check, ok_bind, if_pos rfl, h_name, ok_bind]
          rfl
        · obtain ⟨-, n, f, h_n, h_f, -, h_fits, h_pos, -⟩ := h.spec
          by_cases h_offsets : Offsets n f
          · -- `visit` reads nothing that `next` has not read, so it does not fail
            have h_next := (next_eq_ok_iff h_n h_f h_pos h_fits).mpr ⟨h_offsets, rfl⟩
            refine .inr (.inr (.inr ⟨name, _, h, h_trailer, h_next, fun loaded => ?_⟩))
            obtain ⟨loaded', h_visit⟩ := exists_visit_of_next h h_next loaded
            refine ⟨loaded', h_visit, fun k => ?_⟩
            rw [load_header h h_trailer, h_visit, ok_bind, h_next, ok_bind]
          · -- an offset of this header is not an `int`
            exact .inl (fails_of_not_offsets h h_trailer h_n h_f h_pos h_offsets)

/-! ### Progress -/

/-- The loop ends, and the pointer grows each time that `Next` is called. -/
structure Terminates (m : Str) : Prop where
  ends : ∃ n, loadDirectory m n ≠ .error .endless
  grows : ∀ c name, Reached m c → IsHeader m c name → name ≠ trailer → ∃ c', next m c = .ok c' ∧ c < c'

/-- A pointer that grows leaves the file. -/
theorem load_ne_endless (h_grows : ∀ c name, Reached m c → IsHeader m c name → name ≠ trailer →
      ∃ c', next m c = .ok c' ∧ c < c') (k : ℕ) {c : ℤ} (h : Reached m c)
    (h_lt : ((m.length : ℤ) + 1 - c).toNat < k) (loaded : Loaded) : load m k c loaded ≠ .error .endless := by
  induction k generalizing c loaded with
  | zero => exact absurd h_lt (Nat.not_lt_zero _)
  | succ k ih =>
    obtain ⟨e, h_e, h_load⟩ | ⟨-, h_load⟩ | ⟨-, h_load⟩ | ⟨name, c', h_header, h_ne, h_next, h_load⟩ :=
      load_cases m c
    · rw [h_load]
      exact fun h_eq => h_e (Except.error.inj h_eq)
    · rw [h_load]
      exact fun h_eq => by cases h_eq
    · rw [h_load]
      exact fun h_eq => by cases h_eq
    · obtain ⟨loaded', -, h_load⟩ := h_load loaded
      obtain ⟨c'', h_next', h_grow⟩ := h_grows c name h h_header h_ne
      obtain rfl := Except.ok.inj (h_next.symm.trans h_next')
      obtain ⟨-, n, f, -, -, -, -, h_pos, h_le⟩ := h_header.spec
      rw [h_load]
      exact ih (h.tail ⟨name, h_header, h_ne, h_next⟩) (by omega) loaded'

/-- A header whose size is `-112`. It is the only one, but for its name. -/
def spinning : Str :=
  str "07070100000001000081A400000000000000000000000100000000FFFFFF90" ++
    str "000000000000000000000000000000000000000200000000" ++ [0x61, 0]

end GitlstreeFS.Cpio
