import GitlstreeFS.Buffer
import GitlstreeFS.Gitlstree.Model

/-!
# `/.git/HEAD`

`GitHeadHandler` gives all that it has in one read at the beginning, if the buffer is larger than that, and
fails otherwise. With the revision and the newline it gives the zero at the end of the `std::string`, which
`Getattr` does not count. So no sequence of reads comes to an end (`GitHeadHandler.never_reads`).
-/

namespace GitlstreeFS.Gitlstree

open Buffer

/-- `GitHeadHandler` -/
structure GitHeadHandler where
  rev_ : Str
  deriving DecidableEq, Repr

namespace GitHeadHandler

/-- The constructor, which appends a newline. -/
def make (rev : Str) : GitHeadHandler :=
  ⟨rev ++ [newline]⟩

/-- `Getattr`. -/
def getattr (h : GitHeadHandler) : Stat :=
  ⟨sIFREG ||| 0o600, 1, h.rev_.length⟩

/-- `Read`: the value, and what is written to `target`. -/
def read (h : GitHeadHandler) (size : ℕ) (offset : ℤ) : ℤ × Str :=
  if offset ≠ 0 then (-5, [])
  else if size ≤ h.rev_.length then (-5, [])
  else (h.rev_.length + 1, h.rev_ ++ [0])

/-- Something to read from. -/
def reader : Reader UInt8 :=
  ⟨GitHeadHandler, fun h size offset => some (h.read size offset, h)⟩

/-- The file can be read in pieces of these sizes, one after the other: zero is returned at last, when the bytes
of the file have been read, as many as `Getattr` says. -/
def ReadsOn (h : GitHeadHandler) (rev : Str) (sizes : ℕ → ℕ) : Prop :=
  ∃ n data, reader.readOn ((List.range n).map sizes) h 0 = some (data, true)
    ∧ data = rev ++ [newline] ∧ h.getattr.size = data.length

/-! ### A single read -/

section Read

variable (h : GitHeadHandler) {size offset : ℕ}

/-- It fails behind the beginning. -/
theorem read_of_pos (size : ℕ) (h_pos : 0 < offset) : h.read size offset = (-5, []) :=
  if_pos (by omega)

/-- At the beginning, it fails for a buffer that has no room for the zero. -/
theorem read_of_le (h_size : size ≤ h.rev_.length) : h.read size (0 : ℕ) = (-5, []) := by
  rw [read, if_neg (by simp), if_pos h_size]

theorem read_of_lt (h_size : h.rev_.length < size) :
    h.read size (0 : ℕ) = ((h.rev_.length : ℤ) + 1, h.rev_ ++ [0]) := by
  rw [read, if_neg (by simp), if_neg (Nat.not_le_of_lt h_size)]

end Read

/-! ### Reading on -/

variable (h : GitHeadHandler)

/-- Reading on from a read that fails. -/
theorem readOn_of_failed {size offset : ℕ} (h_read : h.read size offset = (-5, [])) (sizes : List ℕ) :
    reader.readOn (size :: sizes) h offset = none := by
  have h_some : reader.read h size offset = some ((-5, []), h) := congrArg (fun r => some (r, h)) h_read
  exact (Reader.readOn_cons h_some sizes).trans (if_pos (by decide))

/-- Behind the beginning no zero is returned. -/
theorem readOn_of_pos (sizes : List ℕ) {offset : ℕ} (h_pos : 0 < offset) :
    reader.readOn sizes h offset = some ([], false) ∨ reader.readOn sizes h offset = none := by
  cases sizes with
  | nil => exact .inl rfl
  | cons size sizes => exact .inr (h.readOn_of_failed (h.read_of_pos size h_pos) sizes)

/-- So reading on from the beginning does not come to an end. -/
theorem readOn_ne (sizes : List ℕ) (data : Str) : reader.readOn sizes h 0 ≠ some (data, true) := by
  cases sizes with
  | nil => nofun
  | cons size sizes =>
    by_cases h_size : size ≤ h.rev_.length
    · rw [h.readOn_of_failed (h.read_of_le h_size)]
      nofun
    · have h_some : reader.read h size 0 = some (((h.rev_.length : ℤ) + 1, h.rev_ ++ [0]), h) :=
        congrArg (fun r => some (r, h)) (h.read_of_lt (Nat.lt_of_not_le h_size))
      have h_on := Reader.readOn_cons h_some sizes
      rw [if_neg (by omega), if_neg (by omega)] at h_on
      rw [h_on]
      have h_behind : 0 < 0 + ((h.rev_.length : ℤ) + 1).toNat := by omega
      obtain h_on | h_on := h.readOn_of_pos sizes h_behind
      all_goals
        rw [h_on]
        nofun

/-- **The file is never read as it should be**: no sequence of reads ends, and a read at the end of the file,
where zero should be returned, fails. -/
theorem never_reads (rev : Str) (sizes : ℕ → ℕ) (size : ℕ) :
    ¬ (make rev).ReadsOn rev sizes ∧ (make rev).read size (make rev).getattr.size = (-5, []) := by
  have h_behind : 0 < (rev ++ [newline]).length := by simp
  refine ⟨?_, (make rev).read_of_pos size h_behind⟩
  rintro ⟨n, data, h_on, -⟩
  exact (make rev).readOn_ne _ data h_on

/-- The hash of a commit. -/
def someRev : Str :=
  List.replicate 40 0x61

/-- It is read with one byte too many, and then not any more. -/
theorem not_readsOn_someRev :
    (make someRev).getattr.size = 41 ∧ (make someRev).read 4096 0 = (42, someRev ++ [newline, 0])
      ∧ reader.readOn [4096, 4096] (make someRev) 0 = none
      ∧ ¬ (make someRev).ReadsOn someRev (fun _ => 4096) := by
  refine ⟨by decide, by decide, by decide, ?_⟩
  rintro ⟨n, data, h_on, -⟩
  exact (make someRev).readOn_ne _ data h_on

end GitHeadHandler

end GitlstreeFS.Gitlstree
